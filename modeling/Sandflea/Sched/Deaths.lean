import Sandflea.Ipc.Wakeup
import Sandflea.Sched.Lifetime

/-!
# Deaths

Nothing brings a dead task back but `sched_block_current`: it writes `TASK_STATE_BLOCKED` over whatever
state the current task has, and `ipc_signal_send` may then wake it. A task comes to block after its death
when it kills its own process, by the shell's `kill`, and goes on to wait for a signal before the next
switch. `dead_for_good_iff` says that a run is free of this exactly when every task that blocks is not dead
at that time; every other step, and every choice of `sched_run_next`, leaves the dead alone.
-/

namespace Sandflea

open Runs Sched

/-- A step of the kernel, or of a caller that blocks or wakes a task by itself. -/
inductive StateStep
  | task (st : TaskStep)
  /-- The write of `sched_block_current`. Its `sched_run_next` is a step of its own: the timer may come
  between the two. -/
  | blockCurrent
  /-- `sched_unblock` of the task at an address -/
  | unblock (addr : ℕ)
deriving DecidableEq, Repr

namespace Sched

/-- The write of `sched_block_current` -/
def blockCurrent (s : Sched) : Sched := { s with current := { s.current with state := .blocked } }

/-- `sched_unblock`, by a pointer to the task -/
def unblockAt (s : Sched) (addr : ℕ) : Sched := s.mapTasks fun t => if t.addr = addr then unblock t else t

end Sched

/-- The state after a step. The current task blocks itself by `blockCurrent` only outside of
`ipc_signal_wait`, which has its own step for that. -/
def StateStep.run (s : Sched) : StateStep → Sched
  | .task st => st.run s
  | .blockCurrent => if s.current.point ≠ .outside then s else s.blockCurrent
  | .unblock addr => s.unblockAt addr

/-- From every state of a run on, a task that is dead there stays dead, and `sched_run_next` does not switch
to it. -/
def DeadForGood (s : Sched) (steps : List StateStep) : Prop :=
  ∀ before after, steps = before ++ after →
    ∀ t ∈ (runAll StateStep.run s before).ring, t.state = .dead →
      Always StateStep.run (fun s' => ∀ u ∈ s'.ring, u.addr = t.addr → u.state = .dead)
          (runAll StateStep.run s before) after ∧
        Along StateStep.run
          (fun s' st => (st.run s').current.addr = t.addr → s'.current.addr = t.addr)
          (runAll StateStep.run s before) after

namespace Sched

/-- A step does not block the current task when that is dead. -/
def BlocksLiving (s : Sched) : StateStep → Prop
  | .task (.continueWait _) => s.current.isPublished → s.current.state ≠ .dead
  | .blockCurrent => s.current.point = .outside → s.current.state ≠ .dead
  | _ => True

instance (s : Sched) (st : StateStep) : Decidable (s.BlocksLiving st) := by
  unfold BlocksLiving
  split <;> infer_instance

/-- The tasks of the ring are different allocations. -/
structure Distinct (s : Sched) : Prop where
  nodup : (s.ring.map KernTask.addr).Nodup
  bound : ∀ t ∈ s.ring, t.addr < s.tasks

variable {s s' : Sched}

theorem Distinct.eq_of_addr (h : s.Distinct) {t u : KernTask} (ht : t ∈ s.ring) (hu : u ∈ s.ring)
    (he : t.addr = u.addr) : t = u :=
  List.inj_on_of_nodup_map h.nodup ht hu he

/-! ## Steps that bring nothing back -/

/-- After a step the ring has the tasks of before, or some of them, and perhaps new ones; those that were
dead are dead, and none of them has become the current task. -/
structure Follows (s s' : Sched) : Prop where
  distinct : s'.Distinct
  tasks : s.tasks ≤ s'.tasks
  old : ∀ u ∈ s'.ring, s.tasks ≤ u.addr ∨
    ∃ t ∈ s.ring, t.addr = u.addr ∧ (t.state = .dead → u.state = .dead)
  chosen : ∀ t ∈ s.ring, t.state = .dead → s'.current.addr = t.addr → s.current.addr = t.addr

/-- A task that is known from before, by its address. -/
theorem Follows.old_of_addr (hs : s.Distinct) (h : Follows s s') {t u : KernTask} (ht : t ∈ s.ring)
    (hu : u ∈ s'.ring) (he : u.addr = t.addr) : t.state = .dead → u.state = .dead := by
  rcases h.old u hu with hnew | ⟨t', ht', he', hdead⟩
  · have hlt := hs.bound t ht
    omega
  · rwa [hs.eq_of_addr ht' ht (he'.trans he)] at hdead

/-- The tasks of the ring are in their places, and the dead ones are dead. -/
theorem Follows.of_ring (h : s.Distinct) (hcount : s'.tasks = s.tasks)
    (haddr : s'.ring.map KernTask.addr = s.ring.map KernTask.addr)
    (hdead : ∀ u ∈ s'.ring, ∃ t ∈ s.ring, t.addr = u.addr ∧ (t.state = .dead → u.state = .dead)) :
    Follows s s' := by
  refine ⟨⟨haddr ▸ h.nodup, fun u hu => ?_⟩, hcount.ge, fun u hu => .inr (hdead u hu), fun t _ _ he => ?_⟩
  · obtain ⟨t, ht, he, -⟩ := hdead u hu
    rw [hcount, ← he]
    exact h.bound t ht
  · have hcur : s'.current.addr = s.current.addr := (List.cons.inj haddr).1
    exact hcur ▸ he

theorem Follows.same_ring (h : s.Distinct) (hcount : s'.tasks = s.tasks) (hring : s'.ring = s.ring) :
    Follows s s' :=
  .of_ring h hcount (congrArg _ hring) fun u hu => ⟨u, hring ▸ hu, rfl, id⟩

theorem Follows.refl (h : s.Distinct) : Follows s s := .same_ring h rfl rfl

/-- A change of the current task that does not bring it back. -/
theorem Follows.current (h : s.Distinct) {c : KernTask} (haddr : c.addr = s.current.addr)
    (hdead : s.current.state = .dead → c.state = .dead) : Follows s { s with current := c } := by
  refine .of_ring h rfl (congrArg (· :: s.others.map KernTask.addr) haddr) fun u hu => ?_
  rcases List.mem_cons.mp hu with rfl | hu
  · exact ⟨s.current, List.mem_cons_self, haddr.symm, hdead⟩
  · exact ⟨u, List.mem_cons_of_mem _ hu, rfl, id⟩

theorem Follows.trans {s'' : Sched} (hs : s.Distinct) (h : Follows s s') (h' : Follows s' s'') :
    Follows s s'' := by
  refine ⟨h'.distinct, h.tasks.trans h'.tasks, fun u hu => ?_, fun t ht hd he => ?_⟩
  · rcases h'.old u hu with hnew | ⟨t, ht, he, hdead⟩
    · exact .inl (h.tasks.trans hnew)
    rcases h.old t ht with hnew | ⟨t', ht', he', hdead'⟩
    · exact .inl (he ▸ hnew)
    · exact .inr ⟨t', ht', he'.trans he, fun hd => hdead (hdead' hd)⟩
  · have hlt := hs.bound t ht
    rcases h'.old _ List.mem_cons_self with hnew | ⟨u, hu, heu, -⟩
    · have hle := h.tasks
      omega
    · have hut : u.addr = t.addr := heu.trans he
      have hdead := h.old_of_addr hs ht hu hut hd
      exact h.chosen t ht hd ((h'.chosen u hu hdead heu.symm).trans hut)

/-- A change of each task that brings none back. -/
theorem Follows.mapTasks (h : s.Distinct) {f : KernTask → KernTask}
    (hf : ∀ t, (f t).addr = t.addr ∧ (t.state = .dead → (f t).state = .dead)) :
    Follows s (s.mapTasks f) := by
  refine .of_ring h rfl ?_ fun u hu => ?_
  · have hring : (s.mapTasks f).ring = s.ring.map f := rfl
    rw [hring, List.map_map]
    exact List.map_congr_left fun t _ => (hf t).1
  · obtain ⟨t, ht, rfl⟩ := mem_mapTasks hu
    exact ⟨t, ht, (hf t).1.symm, (hf t).2⟩

/-! ## The scheduler -/

/-- `sched_run_next` ends with the task that it started with, or with one that can run. -/
theorem wrapAround_current (s : Sched) (passed : List KernTask) :
    (s.wrapAround passed).current = s.current ∨
      ∃ t ∈ passed, t.addr = (s.wrapAround passed).current.addr ∧ Sched.Runs t := by
  unfold wrapAround
  dsimp only
  split
  · exact .inl rfl
  split
  · exact .inl rfl
  next idle hidle =>
    have hmem := List.mem_filter.mp (List.mem_of_mem_getLast? hidle)
    obtain ⟨t, ts, hdrop, -, haddr⟩ := exists_dropWhile hmem.1
    rw [hdrop]
    exact .inr ⟨idle, hmem.1, haddr.symm, of_decide_eq_true hmem.2⟩

theorem scan_current (idleNeedsRun : Bool) (ts : List KernTask) (passed : List KernTask) (s : Sched) :
    (scan idleNeedsRun passed ts s).current = s.current ∨
      ∃ t ∈ passed ++ ts, t.addr = (scan idleNeedsRun passed ts s).current.addr ∧ Sched.Runs t := by
  induction ts generalizing passed s with
  | nil =>
    rw [List.append_nil]
    exact wrapAround_current s passed
  | cons t ts ih =>
    rw [scan]
    by_cases hdead : t.state = .dead ∧ t.tid ≠ 0
    · rw [if_pos hdead]
      dsimp only
      generalize s.headAfter (passed.getLastD s.current) t (ts.headD s.current) = head
      refine (ih passed ({ s with head := head }.reap t)).imp (fun he => ?_) fun hex => ?_
      · exact he.trans (reap_ring { s with head := head } t).1
      · obtain ⟨u, hu, hrest⟩ := hex
        refine ⟨u, ?_, hrest⟩
        rw [List.mem_append] at hu ⊢
        exact hu.imp_right (List.mem_cons_of_mem t)
    rw [if_neg hdead]
    by_cases hpass : ¬ Sched.Runs t ∨ t.tid = 0 ∧ ¬ idleNeedsRun
    · rw [if_pos hpass]
      refine (ih (passed ++ [t]) s).imp_right fun hex => ?_
      obtain ⟨u, hu, hrest⟩ := hex
      refine ⟨u, ?_, hrest⟩
      rwa [List.append_assoc, List.singleton_append] at hu
    · rw [if_neg hpass]
      rw [not_or, not_not] at hpass
      exact .inr ⟨t, List.mem_append_right passed List.mem_cons_self, rfl, hpass.1⟩

theorem reap_tasks (s : Sched) (t : KernTask) : (s.reap t).tasks = s.tasks := by
  unfold reap Sched.processExit
  dsimp only
  split_ifs <;> rfl

theorem wrapAround_tasks (s : Sched) (passed : List KernTask) :
    (s.wrapAround passed).tasks = s.tasks := by
  unfold wrapAround
  dsimp only
  split
  · rfl
  · split
    · rfl
    · split <;> rfl

theorem scan_tasks (idleNeedsRun : Bool) (ts : List KernTask) (passed : List KernTask) (s : Sched) :
    (scan idleNeedsRun passed ts s).tasks = s.tasks := by
  induction ts generalizing passed s with
  | nil => exact wrapAround_tasks s passed
  | cons t ts ih =>
    rw [scan]
    split
    · rw [ih, reap_tasks]
    · split
      · exact ih _ _
      · rfl

theorem Follows.schedRunNext (h : s.Distinct) (idleNeedsRun : Bool) :
    Follows s (s.schedRunNext idleNeedsRun) := by
  obtain ⟨dead, rest, -, hperm, hring, -⟩ := schedRunNext_cases s idleNeedsRun
  have htasks : (s.schedRunNext idleNeedsRun).tasks = s.tasks := scan_tasks _ _ _ _
  have hall : s.ring.Perm (dead ++ s.current :: rest) :=
    (hperm.cons s.current).trans List.perm_middle.symm
  refine ⟨⟨?_, fun u hu => ?_⟩, htasks.ge, fun u hu => ?_, fun t ht hd he => ?_⟩
  · rw [(hring.map KernTask.addr).nodup_iff]
    have hnodup := (hall.map KernTask.addr).nodup_iff.mp h.nodup
    rw [List.map_append] at hnodup
    exact hnodup.of_append_right
  · rw [htasks]
    exact h.bound u (mem_ring_of_schedRunNext hu)
  · exact .inr ⟨u, mem_ring_of_schedRunNext hu, rfl, id⟩
  · rcases scan_current idleNeedsRun s.others [] s with hcur | ⟨r, hr, her, hruns⟩
    · rw [← he]
      exact congrArg KernTask.addr hcur.symm
    · have hrt : r = t := h.eq_of_addr (List.mem_cons_of_mem _ hr) ht (her.trans he)
      subst hrt
      rcases hruns with hready | hrunning
      · exact absurd (hd.symm.trans hready) (by decide)
      · exact absurd (hd.symm.trans hrunning) (by decide)

/-! ## The other steps -/

/-- A new task may be put nowhere, if the head of the list is not in the ring. -/
theorem insertAfter_cases (addr : ℕ) (new : KernTask) (ts : List KernTask) :
    insertAfter addr new ts = ts ∨ (insertAfter addr new ts).Perm (new :: ts) := by
  by_cases h : ∃ t ∈ ts, t.addr = addr
  · exact .inr (insertAfter_perm new h)
  · left
    induction ts with
    | nil => rfl
    | cons t ts ih =>
      rw [List.exists_mem_cons_iff, not_or] at h
      unfold insertAfter
      rw [if_neg h.1, ih h.2]

theorem Follows.taskCreateInternal (h : s.Distinct) (p : ℕ) (outcome : AllocOutcome) :
    Follows s (s.taskCreateInternal p outcome) := by
  cases outcome with
  | noObject => exact .refl h
  | noPages => exact .same_ring h rfl rfl
  | ok =>
    generalize hs' : s.taskCreateInternal p .ok = s'
    generalize htask : (⟨s.tasks, i32 (s.taskIdC + 1), .ready, p, 0, .outside⟩ : KernTask) = task
    have haddr : task.addr = s.tasks := by rw [← htask]
    have htasks : s'.tasks = s.tasks + 1 := by rw [← hs']; rfl
    have hring : s'.ring = insertAfter s.head task s.ring := by
      rw [← hs', ← htask]
      exact insertAfter_head _ _ _ _
    have hmem : ∀ u ∈ s'.ring, u = task ∨ u ∈ s.ring := fun u hu => mem_insertAfter (hring ▸ hu)
    refine ⟨⟨?_, fun u hu => ?_⟩, by omega, fun u hu => ?_, fun t _ _ he => ?_⟩
    · rw [hring]
      rcases insertAfter_cases s.head task s.ring with he | hperm
      · rw [he]
        exact h.nodup
      · rw [(hperm.map KernTask.addr).nodup_iff, List.map_cons, List.nodup_cons]
        refine ⟨fun hin => ?_, h.nodup⟩
        obtain ⟨t, ht, he⟩ := List.mem_map.mp hin
        have hlt := h.bound t ht
        omega
    · rcases hmem u hu with rfl | hu
      · omega
      · have hlt := h.bound u hu
        omega
    · rcases hmem u hu with rfl | hu
      · exact .inl haddr.ge
      · exact .inr ⟨u, hu, rfl, id⟩
    · rw [← he, ← hs']
      rfl

theorem Follows.processExit (h : s.Distinct) (p : ℕ) : Follows s (s.processExit p) := by
  have htasks : (s.processExit p).tasks = s.tasks := by
    unfold Sched.processExit
    split_ifs <;> rfl
  exact .same_ring h htasks (processExit_ring s p).1

theorem Follows.processCreate (h : s.Distinct) (outcome : AllocOutcome) :
    Follows s (s.processCreate outcome) := by
  unfold Sched.processCreate
  split
  · exact .refl h
  · exact .same_ring h rfl rfl

theorem Follows.killWhere (h : s.Distinct) (P : KernProcess → Bool) : Follows s (s.killWhere P) := by
  refine .mapTasks h fun t => ?_
  split
  · exact ⟨rfl, fun _ => rfl⟩
  · exact ⟨rfl, id⟩

/-- `sched_unblock` wakes only the blocked. -/
theorem unblock_spec (t : KernTask) :
    (unblock t).addr = t.addr ∧ (t.state = .dead → (unblock t).state = .dead) := by
  unfold unblock
  split
  next hb => exact ⟨rfl, fun hd => absurd (hb.symm.trans hd) (by decide)⟩
  · exact ⟨rfl, id⟩

theorem Follows.unblockAt (h : s.Distinct) (addr : ℕ) : Follows s (s.unblockAt addr) := by
  refine .mapTasks h fun t => ?_
  split
  · exact unblock_spec t
  · exact ⟨rfl, id⟩

theorem Follows.ipcSignalSend (h : s.Distinct) (targetPid : ℤ) (mask : UInt32) :
    Follows s (s.ipcSignalSend targetPid mask) := by
  rcases ipcSignalSend_cases s targetPid mask with he | ⟨target, -, he⟩ <;> rw [he]
  · exact .refl h
  · unfold signalProcess
    have hset : Follows s (s.setProc target.process { s.procs target.process with
      pendingSignals := (s.procs target.process).pendingSignals ||| mask }) := .same_ring h rfl rfl
    refine hset.trans h (.mapTasks hset.distinct fun t => ?_)
    split
    · exact unblock_spec t
    · exact ⟨rfl, id⟩

/-- A section of `ipc_signal_wait` brings nothing back, unless it blocks a dead task. -/
theorem Follows.continueWait (h : s.Distinct) (idleNeedsRun : Bool)
    (hb : s.current.isPublished → s.current.state ≠ .dead) :
    Follows s (s.continueWait idleNeedsRun) := by
  unfold Sched.continueWait
  cases hpoint : s.current.point with
  | outside => exact .refl h
  | check mask =>
    dsimp only
    split
    · exact .of_ring h rfl rfl fun u hu => by
        rcases List.mem_cons.mp hu with rfl | hu
        · exact ⟨s.current, List.mem_cons_self, rfl, id⟩
        · exact ⟨u, List.mem_cons_of_mem _ hu, rfl, id⟩
    · exact .current h rfl id
  | published mask =>
    have hpublished : s.current.isPublished := by
      unfold KernTask.isPublished
      rw [hpoint]
    exact .current h rfl fun hd => absurd hd (hb hpublished)
  | blocked mask =>
    have hcheck : Follows s { s with current := { s.current with point := .check mask } } :=
      .current h rfl id
    exact hcheck.trans h (.schedRunNext hcheck.distinct idleNeedsRun)

/-- Every step but the blocking of a dead task. -/
theorem Follows.run (h : s.Distinct) {st : StateStep} (hb : s.BlocksLiving st) :
    Follows s (st.run s) := by
  cases st with
  | blockCurrent =>
    dsimp only [StateStep.run]
    split
    · exact .refl h
    next hpoint => exact .current h rfl fun hd => absurd hd (hb (not_not.mp hpoint))
  | unblock addr => exact .unblockAt h addr
  | task st =>
    dsimp only [StateStep.run]
    unfold TaskStep.run
    split
    · exact .refl h
    cases st with
    | createProcess outcome => exact .processCreate h outcome
    | createTask p outcome =>
      dsimp only
      split
      · exact .taskCreateInternal h p outcome
      · exact .refl h
    | discard p =>
      dsimp only
      split
      · exact .processExit h p
      · exact .refl h
    | adopt p =>
      dsimp only
      split
      · exact .same_ring h rfl rfl
      · exact .refl h
    | threadExit => exact .current h rfl fun _ => rfl
    | killProcess pid =>
      dsimp only [schedKillProcess]
      split
      · exact .refl h
      · exact .killWhere h _
    | killChildren parentPid =>
      dsimp only [schedKillChildren]
      split
      · exact .refl h
      · exact .killWhere h _
    | runNext idleNeedsRun => exact .schedRunNext h idleNeedsRun
    | quakeExit => exact .processExit h _
    | signalSend targetPid mask => exact .ipcSignalSend h targetPid mask
    | signalPoll mask => exact .same_ring h rfl rfl
    | signalWait mask =>
      dsimp only [ipcSignalWait]
      split
      · exact .refl h
      · exact .current h rfl id
    | continueWait idleNeedsRun => exact .continueWait h idleNeedsRun hb

/-! ## Runs -/

/-- A task that is dead, or not in the ring, stays so in a run that blocks only living tasks, and is not
chosen. -/
theorem Distinct.stays_dead (h : s.Distinct) {steps : List StateStep}
    (hb : Along StateStep.run BlocksLiving s steps) {addr : ℕ} (hlt : addr < s.tasks)
    (hd : ∀ u ∈ s.ring, u.addr = addr → u.state = .dead) :
    Always StateStep.run (fun s' => ∀ u ∈ s'.ring, u.addr = addr → u.state = .dead) s steps ∧
      Along StateStep.run (fun s' st => (st.run s').current.addr = addr → s'.current.addr = addr)
        s steps := by
  induction steps generalizing s with
  | nil => exact ⟨hd, trivial⟩
  | cons st steps ih =>
    have hf : Follows s (st.run s) := .run h hb.1
    -- a task with this address after the step was in the ring before it
    have hold : ∀ u ∈ (st.run s).ring, u.addr = addr → ∃ t ∈ s.ring, t.addr = addr ∧ u.state = .dead := by
      intro u hu he
      rcases hf.old u hu with hnew | ⟨t, ht, het, hdead⟩
      · omega
      · exact ⟨t, ht, het.trans he, hdead (hd t ht (het.trans he))⟩
    have hdead : ∀ u ∈ (st.run s).ring, u.addr = addr → u.state = .dead := fun u hu he =>
      (hold u hu he).choose_spec.2.2
    obtain ⟨halways, halong⟩ := ih hf.distinct hb.2 (lt_of_lt_of_le hlt hf.tasks) hdead
    refine ⟨⟨hd, halways⟩, fun he => ?_, halong⟩
    obtain ⟨t, ht, het, -⟩ := hold _ List.mem_cons_self he
    exact (hf.chosen t ht (hd t ht het) (he.trans het.symm)).trans het

theorem Distinct.runAll (h : s.Distinct) {steps : List StateStep}
    (hb : Along StateStep.run BlocksLiving s steps) : (runAll StateStep.run s steps).Distinct := by
  have hd : Always StateStep.run Distinct s steps :=
    always_of_along (P := Distinct) (fun s st hs hst => (Follows.run hs hst).distinct) h hb
  exact hd.last

end Sched

/-- A run that blocks a dead task does not leave it dead. -/
theorem DeadForGood.blocksLiving {s : Sched} {st : StateStep} {steps : List StateStep}
    (h : DeadForGood s (st :: steps)) : s.BlocksLiving st := by
  -- the current task keeps its address when it is blocked
  have hblock : s.current.state = .dead → ∀ s' : Sched, st.run s = s' →
      s'.current.addr = s.current.addr → s'.current.state = .dead := by
    intro hd s' hs' he
    have halways := (h [] (st :: steps) rfl s.current List.mem_cons_self hd).1.2.head
    exact halways s'.current (hs' ▸ List.mem_cons_self) he
  cases st with
  | unblock addr => trivial
  | blockCurrent =>
    intro hpoint hd
    have hstate := hblock hd s.blockCurrent (if_neg (not_not.mpr hpoint)) rfl
    exact absurd hstate (by simp [blockCurrent])
  | task st =>
    cases st with
    | continueWait idleNeedsRun =>
      intro hp hd
      have hrun : (TaskStep.continueWait idleNeedsRun).run s = s.continueWait idleNeedsRun :=
        if_neg fun hown => hown.1
      cases hpoint : s.current.point with
      | published mask =>
        have hstep : s.continueWait idleNeedsRun =
            { s with current := { s.current with state := .blocked, point := .blocked mask } } := by
          unfold Sched.continueWait
          rw [hpoint]
        have hstate := hblock hd _ (hrun.trans hstep) rfl
        exact absurd hstate (by simp)
      | outside | check mask | blocked mask =>
        unfold KernTask.isPublished at hp
        rw [hpoint] at hp
        exact absurd hp (by simp)
    | _ => trivial

theorem DeadForGood.tail {s : Sched} {st : StateStep} {steps : List StateStep}
    (h : DeadForGood s (st :: steps)) : DeadForGood (st.run s) steps := fun before after he =>
  h (st :: before) after (congrArg (st :: ·) he)

/-- Deaths. In every run, from any ring of different tasks, a dead task stays dead and is never chosen by
`sched_run_next` if and only if every step that blocks the current task finds it not dead. -/
theorem dead_for_good_iff (s : Sched) (hs : s.Distinct) (steps : List StateStep) :
    DeadForGood s steps ↔ Along StateStep.run BlocksLiving s steps := by
  constructor
  · intro h
    induction steps generalizing s with
    | nil => trivial
    | cons st steps ih =>
      have hb := h.blocksLiving
      exact ⟨hb, ih (st.run s) (Follows.run hs hb).distinct h.tail⟩
  · intro hb before after he t ht hd
    rw [he] at hb
    obtain ⟨hbefore, hafter⟩ := hb.split
    have hdistinct := hs.runAll hbefore
    refine hdistinct.stays_dead hafter (hdistinct.bound t ht) fun u hu heq => ?_
    rw [hdistinct.eq_of_addr hu ht heq]
    exact hd

theorem Distinct.init : Sched.init.Distinct :=
  ⟨List.nodup_singleton 0, fun _ ht => List.mem_singleton.mp ht ▸ Nat.one_pos⟩

/-- A task that kills its own process, by the shell's `kill`, and then waits for a signal. -/
def killThenWait : List StateStep :=
  [.task (.createProcess .ok), .task (.createTask 1 .ok), .task (.runNext false), .task (.killProcess 1),
    .task (.signalWait 1), .task (.continueWait false), .task (.continueWait false)]

theorem dead_for_good_killThenWait :
    DeadForGood Sched.init killThenWait ↔ Along StateStep.run BlocksLiving Sched.init killThenWait :=
  dead_for_good_iff Sched.init Distinct.init killThenWait

/-- The dead task is blocked, and a signal would wake it. -/
theorem killThenWait_revived : ¬ DeadForGood Sched.init killThenWait := by
  intro h
  have halways := (h (killThenWait.take 4) (killThenWait.drop 4) (List.take_append_drop 4 _).symm
    (runAll StateStep.run Sched.init (killThenWait.take 4)).current List.mem_cons_self
    (by decide +kernel)).1
  have hlast := halways.last
    (runAll StateStep.run (runAll StateStep.run Sched.init (killThenWait.take 4))
      (killThenWait.drop 4)).current List.mem_cons_self (by decide +kernel)
  exact absurd hlast (by decide +kernel)

end Sandflea
