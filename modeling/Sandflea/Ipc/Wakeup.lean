import Sandflea.Ipc.Signals
import Sandflea.Sched.RunNext

/-!
# Wakeups

A wakeup is lost when a task is blocked in `ipc_signal_wait` with a pending signal in its mask. Between
publishing its mask and blocking, a waiter is not yet one that `ipc_signal_send` wakes, and
`sched_block_current` does not look for signals again. `no_lost_wakeup_iff` says that this is the only way
to lose a wakeup: none is lost in a run if and only if no task blocks with a pending signal in its mask,
and none is lost if no send with an overlapping mask falls between the two.
-/

namespace Sandflea

open Runs Sched

/-- The mask of the task is published, and it has not blocked yet. -/
def KernTask.isPublished (t : KernTask) : Bool :=
  match t.point with
  | .published _ => true
  | _ => false

namespace Sched

/-- No signal in the mask of a task is pending in its process. -/
def Unsignalled (s : Sched) (t : KernTask) : Prop :=
  t.signalWaitMask &&& (s.procs t.process).pendingSignals = 0

instance (s : Sched) (t : KernTask) : Decidable (s.Unsignalled t) :=
  inferInstanceAs (Decidable (t.signalWaitMask &&& (s.procs t.process).pendingSignals = 0))

/-- No task is blocked with a pending signal in its mask. Tasks only block in `ipc_signal_wait`. -/
def NoLostWakeup (s : Sched) : Prop := ∀ t ∈ s.ring, t.state = .blocked → s.Unsignalled t

instance (s : Sched) : Decidable s.NoLostWakeup :=
  inferInstanceAs (Decidable (∀ t ∈ s.ring, t.state = .blocked → s.Unsignalled t))

/-- Moreover no task has published its mask with a pending signal in it. -/
def NoMissedSignal (s : Sched) : Prop :=
  ∀ t ∈ s.ring, t.state = .blocked ∨ t.isPublished → s.Unsignalled t

/-- A step does not block the current task with a pending signal in its mask. -/
def BlocksUnsignalled (s : Sched) : TaskStep → Prop
  | .continueWait _ => s.current.isPublished → s.Unsignalled s.current
  | _ => True

/-- A step does not send a signal in the published mask of a task that has not blocked yet. -/
def SendsToBlocked (s : Sched) : TaskStep → Prop
  | .signalSend targetPid mask => ∀ target, s.schedGetByPid targetPid = some target →
    ∀ t ∈ s.ring, t.process = target.process → t.isPublished → t.signalWaitMask &&& mask = 0
  | _ => True

/-! ## Steps that lose no wakeup -/

/-- A step that neither sends a signal nor blocks a task: a task of the ring waits for nothing, or for
nothing that is pending, or is as it was; and no signal becomes pending. -/
structure Calm (s s' : Sched) : Prop where
  tasks : ∀ t ∈ s'.ring, t.state ≠ .blocked ∧ t.isPublished = false ∨ s'.Unsignalled t ∨
    ∃ u ∈ s.ring, (t.state = .blocked → u.state = .blocked) ∧
      (t.isPublished → u.isPublished) ∧ t.signalWaitMask = u.signalWaitMask ∧ t.process = u.process
  signals : ∀ p x, x &&& (s.procs p).pendingSignals = 0 → x &&& (s'.procs p).pendingSignals = 0

variable {s s' : Sched}

theorem Calm.noLostWakeup (hc : Calm s s') (h : s.NoLostWakeup) : s'.NoLostWakeup := by
  intro t ht hb
  rcases hc.tasks t ht with ⟨hn, -⟩ | hu | ⟨u, hu, hblocked, -, hmask, hproc⟩
  · exact absurd hb hn
  · exact hu
  · unfold Unsignalled
    rw [hmask, hproc]
    exact hc.signals _ _ (h u hu (hblocked hb))

theorem Calm.noMissedSignal (hc : Calm s s') (h : s.NoMissedSignal) : s'.NoMissedSignal := by
  intro t ht hb
  rcases hc.tasks t ht with ⟨hn, hn'⟩ | hu | ⟨u, hu, hblocked, hpublished, hmask, hproc⟩
  · rw [hn'] at hb
    exact absurd hb (by simp [hn])
  · exact hu
  · unfold Unsignalled
    rw [hmask, hproc]
    exact hc.signals _ _ (h u hu (hb.imp hblocked hpublished))

/-- The tasks are the same, and no signal becomes pending. -/
theorem Calm.of_ring (hring : ∀ t ∈ s'.ring, t ∈ s.ring)
    (hsignals : ∀ p x, x &&& (s.procs p).pendingSignals = 0 → x &&& (s'.procs p).pendingSignals = 0) :
    Calm s s' :=
  ⟨fun t ht => .inr (.inr ⟨t, hring t ht, id, id, rfl, rfl⟩), hsignals⟩

theorem Calm.refl (s : Sched) : Calm s s := .of_ring (fun _ => id) fun _ _ => id

theorem calm_of_pending (hring : ∀ t ∈ s'.ring, t ∈ s.ring)
    (h : ∀ p, (s'.procs p).pendingSignals = (s.procs p).pendingSignals) : Calm s s' :=
  .of_ring hring fun p x hx => by rwa [h]

theorem calm_processExit (s : Sched) (p : ℕ) : Calm s (s.processExit p) := by
  refine calm_of_pending (fun t ht => ?_) (processExit_pending s p)
  unfold processExit at ht
  split_ifs at ht <;> exact ht

theorem calm_schedRunNext (s : Sched) (idleNeedsRun : Bool) :
    Calm s (s.schedRunNext idleNeedsRun) :=
  calm_of_pending (fun _ => mem_ring_of_schedRunNext) (schedRunNext_pending s idleNeedsRun)

/-- A change of the current task after which it does not wait for a pending signal. -/
theorem Calm.current {c : KernTask} (hc : c.state ≠ .blocked ∧ c.isPublished = false ∨
      ({ s with current := c } : Sched).Unsignalled c ∨
      (c.state = .blocked → s.current.state = .blocked) ∧
        (c.isPublished → s.current.isPublished) ∧ c.signalWaitMask = s.current.signalWaitMask ∧
        c.process = s.current.process) :
    Calm s { s with current := c } := by
  refine ⟨fun t ht => ?_, fun _ _ => id⟩
  rcases List.mem_cons.mp ht with rfl | ht
  · exact hc.imp_right (Or.imp_right fun h => ⟨_, List.mem_cons_self, h⟩)
  · exact .inr (.inr ⟨t, List.mem_cons_of_mem _ ht, id, id, rfl, rfl⟩)

theorem Calm.trans {s'' : Sched} (h : Calm s s') (h' : Calm s' s'') : Calm s s'' := by
  refine ⟨fun t ht => ?_, fun p x hx => h'.signals p x (h.signals p x hx)⟩
  rcases h'.tasks t ht with hn | hu | ⟨u, hu, hb, hp, hmask, hproc⟩
  · exact .inl hn
  · exact .inr (.inl hu)
  · rcases h.tasks u hu with ⟨hn, hn'⟩ | hu' | ⟨v, hv, hb', hp', hmask', hproc'⟩
    · refine .inl ⟨fun hb'' => hn (hb hb''), ?_⟩
      cases htp : t.isPublished with
      | false => rfl
      | true =>
        rw [hp htp] at hn'
        exact absurd hn' (by simp)
    · refine .inr (.inl ?_)
      unfold Unsignalled at hu' ⊢
      rw [hmask, hproc]
      exact h'.signals _ _ hu'
    · exact .inr (.inr ⟨v, hv, fun hb'' => hb' (hb hb''), fun hp'' => hp' (hp hp''),
        hmask.trans hmask', hproc.trans hproc'⟩)

theorem calm_killWhere (s : Sched) (P : KernProcess → Bool) : Calm s (s.killWhere P) := by
  refine ⟨fun t ht => ?_, fun _ _ => id⟩
  have hmem : ∃ u ∈ s.ring,
      (if P (s.procs u.process) then { u with state := .dead } else u) = t := by
    rcases List.mem_cons.mp ht with rfl | ht
    · exact ⟨_, List.mem_cons_self, rfl⟩
    · obtain ⟨u, hu, he⟩ := List.mem_map.mp ht
      exact ⟨u, List.mem_cons_of_mem _ hu, he⟩
  obtain ⟨u, hu, rfl⟩ := hmem
  refine .inr (.inr ⟨u, hu, ?_⟩)
  split
  · exact ⟨fun h => absurd h (by simp), id, rfl, rfl⟩
  · exact ⟨id, id, rfl, rfl⟩

theorem mem_insertAfter {addr : ℕ} {new t : KernTask} {ts : List KernTask}
    (h : t ∈ insertAfter addr new ts) : t = new ∨ t ∈ ts := by
  induction ts with
  | nil => exact absurd h List.not_mem_nil
  | cons u ts ih =>
    unfold insertAfter at h
    split at h
    · rcases List.mem_cons.mp h with rfl | h
      · exact .inr List.mem_cons_self
      · exact (List.mem_cons.mp h).imp_right (List.mem_cons_of_mem _)
    · rcases List.mem_cons.mp h with rfl | h
      · exact .inr List.mem_cons_self
      · exact (ih h).imp_right (List.mem_cons_of_mem _)

theorem calm_taskCreateInternal (s : Sched) (p : ℕ) (outcome : AllocOutcome) :
    Calm s (s.taskCreateInternal p outcome) := by
  cases outcome with
  | noObject => exact .refl s
  | noPages => exact .of_ring (fun _ => id) fun _ _ => id
  | ok =>
    refine ⟨fun t ht => ?_, fun q x hx => ?_⟩
    · rcases List.mem_cons.mp ht with rfl | ht
      · exact .inr (.inr ⟨_, List.mem_cons_self, id, id, rfl, rfl⟩)
      · rcases mem_insertAfter (List.mem_of_mem_tail ht) with rfl | ht
        · exact .inl ⟨by simp, rfl⟩
        · exact .inr (.inr ⟨t, ht, id, id, rfl, rfl⟩)
    · by_cases hq : q = p
      · subst hq
        simpa [taskCreateInternal, setProc] using hx
      · simpa [taskCreateInternal, setProc, hq] using hx

theorem calm_processCreate (s : Sched) (outcome : AllocOutcome) :
    Calm s (s.processCreate outcome) := by
  unfold processCreate
  split
  · exact .refl s
  · refine .of_ring (fun _ => id) fun p x hx => ?_
    by_cases hp : p = s.created
    · subst hp
      simp
    · simpa [hp] using hx

theorem calm_takeSignals (s : Sched) (mask : UInt32) : Calm s (s.takeSignals mask) := by
  refine .of_ring (fun _ => id) fun p x hx => ?_
  by_cases hp : p = s.current.process
  · subst hp
    have hpending : ((s.takeSignals mask).procs s.current.process).pendingSignals =
        (s.procs s.current.process).pendingSignals &&&
          ~~~((s.procs s.current.process).pendingSignals &&& mask) := by
      simp [takeSignals, setProc]
    rw [hpending, ← UInt32.and_assoc, hx, UInt32.zero_and]
  · simpa [takeSignals, setProc, hp] using hx

/-- A step of a wait is calm unless it blocks the task with a pending signal in its mask. -/
theorem calm_continueWait (s : Sched) (idleNeedsRun : Bool)
    (hclear : s.current.isPublished → s.Unsignalled s.current) :
    Calm s (s.continueWait idleNeedsRun) := by
  unfold continueWait
  cases hpoint : s.current.point with
  | outside => exact .refl s
  | check mask =>
    dsimp only
    by_cases hpending : (s.procs s.current.process).pendingSignals &&& mask ≠ 0
    · rw [if_pos hpending]
      refine (calm_takeSignals s mask).trans (Calm.current (.inr (.inl ?_)))
      exact UInt32.zero_and
    · rw [if_neg hpending]
      refine Calm.current (.inr (.inl ?_))
      rw [not_not, UInt32.and_comm] at hpending
      exact hpending
  | published mask =>
    dsimp only
    refine Calm.current (.inr (.inl ?_))
    exact hclear (by unfold KernTask.isPublished; rw [hpoint])
  | blocked mask =>
    dsimp only
    have hcheck : Calm s { s with current := { s.current with point := .check mask } } :=
      Calm.current (.inr (.inr ⟨id, fun h => absurd h (by simp [KernTask.isPublished]), rfl, rfl⟩))
    exact hcheck.trans (calm_schedRunNext _ _)

/-! ## Sends -/

theorem and_or_eq_zero {a b c : UInt32} (hb : a &&& b = 0) (hc : a &&& c = 0) :
    a &&& (b ||| c) = 0 := by
  calc a &&& (b ||| c) = a &&& b ||| a &&& c := UInt32.toBitVec_inj.1 BitVec.and_or_distrib_left
    _ = 0 := by rw [hb, hc]; rfl

theorem mem_mapTasks {s : Sched} {f : KernTask → KernTask} {t : KernTask}
    (h : t ∈ (s.mapTasks f).ring) : ∃ u ∈ s.ring, f u = t := by
  rcases List.mem_cons.mp h with rfl | h
  · exact ⟨_, List.mem_cons_self, rfl⟩
  · obtain ⟨u, hu, he⟩ := List.mem_map.mp h
    exact ⟨u, List.mem_cons_of_mem _ hu, he⟩

/-- A task that waits for none of the signals that are sent to its process goes on waiting for nothing that
is pending. -/
theorem unsignalled_signalProcess {p : ℕ} {mask : UInt32} {t : KernTask} (h : s.Unsignalled t)
    (hmask : t.process = p → t.signalWaitMask &&& mask = 0) :
    (s.signalProcess p mask).Unsignalled t := by
  unfold Unsignalled at h ⊢
  by_cases hp : t.process = p
  · have hpending : ((s.signalProcess p mask).procs t.process).pendingSignals =
        (s.procs t.process).pendingSignals ||| mask := by
      simp [signalProcess, mapTasks, setProc, hp]
    rw [hpending]
    exact and_or_eq_zero h (hmask hp)
  · have hpending : ((s.signalProcess p mask).procs t.process).pendingSignals =
        (s.procs t.process).pendingSignals := by
      simp [signalProcess, mapTasks, setProc, hp]
    rwa [hpending]

/-- A task of the ring after a send: woken, or as it was and then not blocked on one of the signals. -/
theorem mem_signalProcess {p : ℕ} {mask : UInt32} {t : KernTask}
    (h : t ∈ (s.signalProcess p mask).ring) : ∃ u ∈ s.ring,
      u.process = p ∧ u.signalWaitMask &&& mask ≠ 0 ∧ t = { u with state := .ready } ∨
        u = t ∧ (t.process = p → t.state = .blocked → t.signalWaitMask &&& mask = 0) := by
  obtain ⟨u, hu, rfl⟩ := mem_mapTasks h
  refine ⟨u, hu, ?_⟩
  by_cases hw : u.process = p ∧ u.state = .blocked ∧ u.signalWaitMask &&& mask ≠ 0
  · rw [if_pos hw]
    unfold unblock
    rw [if_pos hw.2.1]
    exact .inl ⟨hw.1, hw.2.2, rfl⟩
  · rw [if_neg hw]
    refine .inr ⟨rfl, fun hp hb => ?_⟩
    by_contra hne
    exact hw ⟨hp, hb, hne⟩

theorem noLostWakeup_signalProcess (h : s.NoLostWakeup) (p : ℕ) (mask : UInt32) :
    (s.signalProcess p mask).NoLostWakeup := by
  intro t ht hb
  obtain ⟨u, hu, ⟨-, -, rfl⟩ | ⟨rfl, hmask⟩⟩ := mem_signalProcess ht
  · exact absurd hb (by simp)
  · exact unsignalled_signalProcess (h u hu hb) fun hp => hmask hp hb

theorem noMissedSignal_signalProcess (h : s.NoMissedSignal) {p : ℕ} {mask : UInt32}
    (hsend : ∀ t ∈ s.ring, t.process = p → t.isPublished → t.signalWaitMask &&& mask = 0) :
    (s.signalProcess p mask).NoMissedSignal := by
  intro t ht hb
  obtain ⟨u, hu, ⟨hp, hne, rfl⟩ | ⟨rfl, hmask⟩⟩ := mem_signalProcess ht
  · have hpublished : u.isPublished := hb.resolve_left (by simp)
    exact absurd (hsend u hu hp hpublished) hne
  · refine unsignalled_signalProcess (h u hu hb) fun hp => ?_
    exact hb.elim (hmask hp) (hsend u hu hp)

/-- A send keeps what it does to the process that it finds. -/
theorem ipcSignalSend_cases (s : Sched) (targetPid : ℤ) (mask : UInt32) :
    s.ipcSignalSend targetPid mask = s ∨ ∃ target, s.schedGetByPid targetPid = some target ∧
      s.ipcSignalSend targetPid mask = s.signalProcess target.process mask := by
  unfold ipcSignalSend
  split
  · exact .inl rfl
  · cases s.schedGetByPid targetPid with
    | none => exact .inl rfl
    | some target => exact .inr ⟨target, rfl, rfl⟩

end Sched

/-- Every step but a send, and but one that blocks the current task with a pending signal in its mask. -/
theorem calm_run {s : Sched} {st : TaskStep} (hsend : ∀ pid mask, st ≠ .signalSend pid mask)
    (hblock : s.BlocksUnsignalled st) : Calm s (st.run s) := by
  unfold TaskStep.run
  split
  · exact .refl s
  cases st with
  | createProcess outcome => exact calm_processCreate s outcome
  | createTask p outcome =>
    dsimp only
    split
    · exact calm_taskCreateInternal s p outcome
    · exact .refl s
  | discard p =>
    dsimp only
    split
    · exact calm_processExit s p
    · exact .refl s
  | adopt p =>
    dsimp only
    split
    · refine calm_of_pending (fun _ => id) fun q => ?_
      by_cases hq : q = p
      · subst hq
        simp [setProc]
      · simp [setProc, hq]
    · exact .refl s
  | threadExit =>
    exact Calm.current (.inr (.inr ⟨fun h => absurd h (by simp), id, rfl, rfl⟩))
  | killProcess pid =>
    dsimp only [schedKillProcess]
    split
    · exact .refl s
    · exact calm_killWhere s _
  | killChildren parentPid =>
    dsimp only [schedKillChildren]
    split
    · exact .refl s
    · exact calm_killWhere s _
  | runNext idleNeedsRun => exact calm_schedRunNext s idleNeedsRun
  | quakeExit => exact calm_processExit s _
  | signalSend pid mask => exact absurd rfl (hsend pid mask)
  | signalPoll mask => exact calm_takeSignals s mask
  | signalWait mask =>
    dsimp only [ipcSignalWait]
    split
    · exact .refl s
    · refine Calm.current (.inr (.inr ⟨id, fun h => ?_, rfl, rfl⟩))
      exact absurd h (by simp [KernTask.isPublished])
  | continueWait idleNeedsRun => exact calm_continueWait s idleNeedsRun hblock

/-- A step of another kind than a send, or a send that a task in `ipc_signal_wait` cannot make. -/
theorem run_signalSend (s : Sched) (targetPid : ℤ) (mask : UInt32) :
    (TaskStep.signalSend targetPid mask).run s = s ∨
      (TaskStep.signalSend targetPid mask).run s = s.ipcSignalSend targetPid mask := by
  unfold TaskStep.run
  split
  · exact .inl rfl
  · exact .inr rfl

theorem noLostWakeup_run {s : Sched} {st : TaskStep} (h : s.NoLostWakeup)
    (hblock : s.BlocksUnsignalled st) : (st.run s).NoLostWakeup := by
  by_cases hsend : ∃ pid mask, st = .signalSend pid mask
  swap
  · rw [not_exists] at hsend
    exact (calm_run (fun pid mask he => hsend pid ⟨mask, he⟩) hblock).noLostWakeup h
  obtain ⟨pid, mask, rfl⟩ := hsend
  rcases run_signalSend s pid mask with he | he <;> rw [he]
  · exact h
  · rcases ipcSignalSend_cases s pid mask with he | ⟨target, -, he⟩ <;> rw [he]
    · exact h
    · exact noLostWakeup_signalProcess h _ _

/-- A task whose published mask has no pending signal in it may block. -/
theorem blocksUnsignalled_of_noMissedSignal {s : Sched} (h : s.NoMissedSignal) (st : TaskStep) :
    s.BlocksUnsignalled st := by
  cases st with
  | continueWait idleNeedsRun => exact fun hp => h _ List.mem_cons_self (.inr hp)
  | _ => trivial

theorem noMissedSignal_run {s : Sched} {st : TaskStep} (h : s.NoMissedSignal)
    (hto : s.SendsToBlocked st) : (st.run s).NoMissedSignal := by
  by_cases hsend : ∃ pid mask, st = .signalSend pid mask
  swap
  · rw [not_exists] at hsend
    exact (calm_run (fun pid mask he => hsend pid ⟨mask, he⟩) (blocksUnsignalled_of_noMissedSignal h st)).noMissedSignal h
  obtain ⟨pid, mask, rfl⟩ := hsend
  rcases run_signalSend s pid mask with he | he <;> rw [he]
  · exact h
  · rcases ipcSignalSend_cases s pid mask with he | ⟨target, hfind, he⟩ <;> rw [he]
    · exact h
    · exact noMissedSignal_signalProcess h (hto target hfind)

/-- A step that blocks the current task with a pending signal in its mask loses a wakeup. -/
theorem blocksUnsignalled_of_noLostWakeup {s : Sched} {st : TaskStep}
    (h : (st.run s).NoLostWakeup) : s.BlocksUnsignalled st := by
  cases st with
  | continueWait idleNeedsRun =>
    intro hp
    have hrun : (TaskStep.continueWait idleNeedsRun).run s = s.continueWait idleNeedsRun :=
      if_neg fun hown => hown.1
    rw [hrun] at h
    unfold continueWait at h
    cases hpoint : s.current.point with
    | published mask =>
      rw [hpoint] at h
      exact h { s.current with state := .blocked, point := .blocked mask } List.mem_cons_self rfl
    | outside | check mask | blocked mask =>
      unfold KernTask.isPublished at hp
      rw [hpoint] at hp
      exact absurd hp (by simp)
  | _ => trivial

/-- Wakeups. From a state where no task waits, no wakeup is lost in a run of any tasks if and only if no
step of it blocks a task with a pending signal in its published mask; in particular if no signal is sent to
a process while a task of it has the signal in its published mask and has not blocked yet. -/
theorem no_lost_wakeup_iff (s : Sched) (hs : ∀ t ∈ s.ring, t.state ≠ .blocked ∧ t.point = .outside)
    (steps : List TaskStep) :
    (Always (fun s st => TaskStep.run s st) NoLostWakeup s steps ↔
        Along (fun s st => TaskStep.run s st) BlocksUnsignalled s steps) ∧
      (Along (fun s st => TaskStep.run s st) SendsToBlocked s steps →
        Always (fun s st => TaskStep.run s st) NoLostWakeup s steps) := by
  have hstart : s.NoLostWakeup := fun t ht hb => absurd hb (hs t ht).1
  have hstart' : s.NoMissedSignal := by
    intro t ht hb
    refine absurd hb ?_
    rw [not_or]
    refine ⟨(hs t ht).1, ?_⟩
    simp [KernTask.isPublished, (hs t ht).2]
  refine ⟨⟨fun h => ?_, fun h => ?_⟩, fun h => ?_⟩
  · exact along_of_always (fun _ _ _ h' => blocksUnsignalled_of_noLostWakeup h') h
  · exact always_of_along (fun _ _ h hb => noLostWakeup_run h hb) hstart h
  · refine (always_of_along (fun _ _ h hb => noMissedSignal_run h hb) hstart' h).mono ?_
    exact fun s h t ht hb => h t ht (.inl hb)

/-- Two processes with a task each: the first publishes its mask and is preempted, the second sends the
signal, and the first blocks. -/
def sendInWindow : List TaskStep :=
  [.createProcess .ok, .createTask 1 .ok, .createProcess .ok, .createTask 2 .ok, .runNext false,
    .runNext false, .signalWait 1, .continueWait false, .runNext false, .signalSend 1 1,
    .runNext false, .continueWait false]

theorem no_lost_wakeup_sendInWindow :
    (Always (fun s st => TaskStep.run s st) NoLostWakeup Sched.init sendInWindow ↔
        Along (fun s st => TaskStep.run s st) BlocksUnsignalled Sched.init sendInWindow) ∧
      (Along (fun s st => TaskStep.run s st) SendsToBlocked Sched.init sendInWindow →
        Always (fun s st => TaskStep.run s st) NoLostWakeup Sched.init sendInWindow) :=
  no_lost_wakeup_iff Sched.init (by decide) sendInWindow

/-- The signal that is sent between publishing and blocking wakes nobody. -/
theorem sendInWindow_lost :
    ¬ Always (fun s st => TaskStep.run s st) NoLostWakeup Sched.init sendInWindow := by
  intro h
  exact absurd h.last (by decide +kernel)

end Sandflea
