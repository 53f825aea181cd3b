import Sandflea.Sched.SpawnSound
import Sandflea.Terminal.StdinKeys

/-!
# Foreground processes

The pointer to the foreground process is in a global, `foreground_proc`, and in each session. `wasm_spawn` sets
it, `session_switch` saves and restores it, and `process_exit` clears every copy that points to the process,
before the process is released.

The scheduler calls `process_exit` with interrupts disabled. A spawn that cannot create its task and a native
application that ends call it with interrupts enabled, and these calls are taken here statement by statement, as
are the spawns. A process is known by the number of its allocation.

`no_dangling` says that no copy points to a released process, in every run in which no switch comes to a session
that has a copy, after a call of `process_exit` for that process has cleared the global and before it has cleared
the copy.
-/

namespace Sandflea

open Runs Sched

/-! ## The calls -/

/-- The next statement of `process_exit` -/
inductive ExitPoint
  | check
  | clearGlobal
  /-- The loop over the sessions -/
  | clearSession (i : ℕ)
  | release
deriving DecidableEq, Repr

/-- The next statement of `wasm_spawn` that matters to the pointers, or of a call of `process_exit` -/
inductive ForegroundPoint
  /-- The process is created, and is filled in. -/
  | created
  | setGlobal
  /-- `active_session` is read. -/
  | pickSession
  | setSession (i : ℕ)
  | createTask
  /-- The task could not be created. -/
  | dropGlobal
  | pickDropped
  | dropSession (i : ℕ)
  | exit (point : ExitPoint)
  | done
deriving DecidableEq, Repr

/-- A spawn up to `process_exit`, in which only the spawner knows of the process -/
def ForegroundPoint.isUnstarted : ForegroundPoint → Bool
  | exit _ | done => false
  | _ => true

/-- A call of `wasm_spawn`, or of `process_exit` by a native application -/
structure ForegroundCall where
  /-- The task that makes the call. -/
  task : ℕ
  proc : ℕ
  /-- The call is one of `wasm_spawn`. -/
  spawner : Bool
  foreground : Bool
  point : ForegroundPoint
deriving DecidableEq, Repr

/-- The scheduler, the copies of the pointer and the calls in the order in which they began. -/
structure Foreground where
  sched : Sched
  /-- `foreground_proc` -/
  global : Option ℕ
  /-- `foreground_proc` of the sessions -/
  saved : ℕ → Option ℕ
  /-- `active_session` -/
  active : ℕ
  begun : ℕ
  calls : ℕ → Option ForegroundCall

namespace Foreground

/-- The state at the start -/
def init : Foreground := ⟨Sched.init, none, fun _ => none, 0, 0, fun _ => none⟩

/-- A copy of the pointer points to a process. -/
def PointsTo (s : Foreground) (p : ℕ) : Prop := s.global = some p ∨ ∃ i, s.saved i = some p

/-- What is pointed to was not released. -/
def NoDangling (s : Foreground) : Prop := ∀ p, s.PointsTo p → s.sched.IsLive p

/-- A process of which only a spawn knows that has not started it -/
def holds (s : Foreground) (p : ℕ) : Bool :=
  (List.range s.begun).any fun k =>
    match s.calls k with
    | none => false
    | some c => c.spawner && c.point ≠ .done && c.proc = p

/-- The current task is in a call. -/
def isBusy (s : Foreground) : Bool :=
  (List.range s.begun).any fun k =>
    match s.calls k with
    | none => false
    | some c => c.point ≠ .done && c.task = s.sched.current.addr

/-- A call goes on to another statement. -/
def goto (k : ℕ) (c : ForegroundCall) (p : ForegroundPoint) (s : Foreground) : Foreground :=
  { s with calls := Function.update s.calls k (some { c with point := p }) }

/-- A call begins. -/
def begin (c : ForegroundCall) (s : Foreground) : Foreground :=
  { s with begun := s.begun + 1, calls := Function.update s.calls s.begun (some c) }

/-- Set the pointer of a session. -/
def setSaved (i : ℕ) (p : Option ℕ) (s : Foreground) : Foreground :=
  { s with saved := Function.update s.saved i p }

/-- A step of the scheduler. Where it releases a process, it has cleared the copies that point to the process, in
the same section without interrupts. -/
def setSched (sched : Sched) (s : Foreground) : Foreground :=
  let keep (p : ℕ) : Bool := sched.releases p = s.sched.releases p
  { s with sched := sched, global := s.global.filter keep, saved := fun i => (s.saved i).filter keep }

/-- The next statement of `process_exit` -/
def advanceExit (k : ℕ) (c : ForegroundCall) (s : Foreground) : ExitPoint → Foreground
  | .check =>
    if c.proc = kernelProcess ∨ (s.sched.procs c.proc).pid = -1 then s.goto k c .done
    else
      { s with sched := s.sched.setProc c.proc { s.sched.procs c.proc with pid := -1 } }.goto k c
        (.exit .clearGlobal)
  | .clearGlobal =>
    { s with global := if s.global = some c.proc then none else s.global }.goto k c (.exit (.clearSession 0))
  | .clearSession i =>
    if i < maxSessions then
      (s.setSaved i (if s.saved i = some c.proc then none else s.saved i)).goto k c
        (.exit (.clearSession (i + 1)))
    else s.goto k c (.exit .release)
  | .release =>
    { s with sched := { s.sched with
        releases := Function.update s.sched.releases c.proc (s.sched.releases c.proc + 1) } }.goto k c .done

/-- The next statement of a call. `outcome` is that of its allocation, if it has one. -/
def advanceCall (k : ℕ) (c : ForegroundCall) (outcome : AllocOutcome) (s : Foreground) : Foreground :=
  match c.point with
  | .created =>
    if outcome = AllocOutcome.ok then
      let parent := s.sched.procs s.sched.current.process
      { s with sched := s.sched.setProc c.proc { s.sched.procs c.proc with
          stdoutParentPid := parent.pid } }.goto k c (if c.foreground then .setGlobal else .createTask)
    else s.goto k c (.exit .check)
  | .setGlobal => { s with global := some c.proc }.goto k c .pickSession
  | .pickSession => s.goto k c (.setSession s.active)
  | .setSession i => (s.setSaved i (some c.proc)).goto k c .createTask
  | .createTask =>
    { s with sched := s.sched.taskCreateInternal c.proc outcome }.goto k c
      (if outcome = AllocOutcome.ok then .done else if c.foreground then .dropGlobal else .exit .check)
  | .dropGlobal => { s with global := none }.goto k c .pickDropped
  | .pickDropped => s.goto k c (.dropSession s.active)
  | .dropSession i => (s.setSaved i none).goto k c (.exit .check)
  | .exit point => s.advanceExit k c point
  | .done => s

/-- `session_switch` -/
def sessionSwitch (id : ℕ) (s : Foreground) : Foreground :=
  if maxSessions ≤ id ∨ id = s.active then s
  else
    { s with saved := Function.update s.saved s.active s.global, active := id, global := s.saved id }

end Foreground

/-- A call of `process_exit` with interrupts enabled, which is taken statement by statement -/
def TaskStep.isExit : TaskStep → Bool
  | .quakeExit | .discard _ => true
  | _ => false

/-- A step of the kernel, the calls and the sessions -/
inductive ForegroundStep
  /-- Any other step -/
  | kernel (st : TaskStep)
  /-- `wasm_spawn` is called, and creates the process. -/
  | spawn (foreground : Bool) (outcome : AllocOutcome)
  /-- The end of a native application: `process_exit` of the own process is called. -/
  | exit
  /-- The `k`-th call goes on. -/
  | advance (k : ℕ) (outcome : AllocOutcome)
  /-- `session_switch` -/
  | switch (id : ℕ)
  /-- The main loop has stopped the process of the active session, and sets the pointer to null. -/
  | forget
deriving DecidableEq, Repr

open Foreground in
/-- The state after a step. A call goes on in its task, which does nothing else meanwhile. -/
def ForegroundStep.run (s : Foreground) (st : ForegroundStep) : Foreground :=
  match st with
  | .kernel st =>
    if st.isExit ∨ st.subject.any s.holds ∨ st.IsOwn ∧ s.isBusy then s else s.setSched (st.run s.sched)
  | .spawn foreground outcome =>
    if s.isBusy ∨ s.sched.current.point ≠ .outside then s
    else if outcome = .ok then
      { s with sched := s.sched.processCreate outcome }.begin
        ⟨s.sched.current.addr, s.sched.created, true, foreground, .created⟩
    else { s with sched := s.sched.processCreate outcome }
  | .exit =>
    if s.isBusy ∨ s.sched.current.point ≠ .outside then s
    else s.begin ⟨s.sched.current.addr, s.sched.current.process, false, false, .exit .check⟩
  | .advance k outcome =>
    match s.calls k with
    | none => s
    | some c => if c.task = s.sched.current.addr then s.advanceCall k c outcome else s
  | .switch id => if s.isBusy then s else s.sessionSwitch id
  | .forget => if s.isBusy then s else s.setSaved s.active none

/-- `process_exit` has cleared the global, and is to clear the copies of the sessions. -/
def ForegroundCall.isClearing (c : ForegroundCall) : Bool :=
  match c.point with
  | .exit (.clearSession _) => true
  | _ => false

namespace Foreground

/-- No switch comes to a session with a copy that a call of `process_exit` is to clear. -/
def Careful (s : Foreground) : ForegroundStep → Prop
  | .switch id => id ≠ s.active → ∀ k < s.begun, ∀ c ∈ s.calls k, c.isClearing → s.saved id ≠ some c.proc
  | _ => True

instance (s : Foreground) : ∀ st, Decidable (s.Careful st)
  | .switch id => inferInstanceAs (Decidable (id ≠ s.active → ∀ k < s.begun, ∀ c ∈ s.calls k, _ → _))
  | .kernel _ | .spawn _ _ | .exit | .advance _ _ | .forget => .isTrue trivial

end Foreground

/-! ## Where the tasks of a process come from -/

namespace Sched

theorem process_of_mem_mapTasks {s : Sched} {f : KernTask → KernTask} (hf : ∀ t, (f t).process = t.process)
    {t : KernTask} (h : t ∈ (s.mapTasks f).ring) : ∃ u ∈ s.ring, u.process = t.process := by
  have hring : (s.mapTasks f).ring = s.ring.map f := rfl
  rw [hring] at h
  obtain ⟨u, hu, rfl⟩ := List.mem_map.mp h
  exact ⟨u, hu, (hf u).symm⟩

theorem process_of_mem_current {s s' : Sched} {t : KernTask} (h : t ∈ s'.ring)
    (hcurrent : s'.current.process = s.current.process) (hothers : s'.others = s.others) :
    ∃ u ∈ s.ring, u.process = t.process := by
  rcases List.mem_cons.mp h with rfl | ht
  · exact ⟨s.current, List.mem_cons_self, hcurrent.symm⟩
  · exact ⟨t, List.mem_cons_of_mem _ (hothers ▸ ht), rfl⟩

/-- The new task is the only one that is not in the ring before. -/
theorem process_of_mem_taskCreateInternal {s : Sched} {p : ℕ} {outcome : AllocOutcome} {t : KernTask}
    (h : t ∈ (s.taskCreateInternal p outcome).ring) :
    (∃ u ∈ s.ring, u.process = t.process) ∨ outcome = .ok ∧ t.process = p := by
  cases outcome with
  | ok =>
    let task : KernTask := ⟨s.tasks, i32 (s.taskIdC + 1), .ready, p, 0, .outside⟩
    have hring : (s.taskCreateInternal p .ok).ring = s.current :: (insertAfter s.head task s.ring).tail := rfl
    rw [hring] at h
    rcases List.mem_cons.mp h with rfl | ht
    · exact .inl ⟨_, List.mem_cons_self, rfl⟩
    have hmem : ∀ ts : List KernTask, ∀ u ∈ insertAfter s.head task ts, u ∈ ts ∨ u = task := by
      intro ts
      induction ts with
      | nil => exact fun u hu => absurd hu List.not_mem_nil
      | cons x ts ih =>
        intro u hu
        unfold insertAfter at hu
        split at hu
        · simp only [List.mem_cons] at hu ⊢
          tauto
        · rcases List.mem_cons.mp hu with rfl | hu
          · exact .inl List.mem_cons_self
          · exact (ih u hu).imp_left (List.mem_cons_of_mem x)
    rcases hmem _ t (List.mem_of_mem_tail ht) with hold | rfl
    · exact .inl ⟨t, hold, rfl⟩
    · exact .inr ⟨rfl, rfl⟩
  | noObject => exact .inl ⟨t, h, rfl⟩
  | noPages => exact .inl ⟨t, h, rfl⟩

/-- A step brings no task of another process than its subject. -/
theorem process_of_mem_run {s : Sched} {st : TaskStep} {t : KernTask} (h : t ∈ (st.run s).ring) :
    (∃ u ∈ s.ring, u.process = t.process) ∨ st.subject = some t.process ∧ s.IsLive t.process := by
  have hsame : ∀ {s' : Sched}, s'.ring = s.ring → t ∈ s'.ring → ∃ u ∈ s.ring, u.process = t.process :=
    fun hring ht => ⟨t, hring ▸ ht, rfl⟩
  have hunblock : ∀ u : KernTask, (unblock u).process = u.process := fun u => by
    unfold unblock
    split <;> rfl
  unfold TaskStep.run at h
  split at h
  · exact .inl ⟨t, h, rfl⟩
  cases st with
  | createProcess outcome =>
    refine .inl (hsame ?_ h)
    dsimp only [processCreate]
    split <;> rfl
  | createTask p outcome =>
    dsimp only at h
    split at h
    next hl =>
      refine (process_of_mem_taskCreateInternal h).imp_right ?_
      rintro ⟨-, rfl⟩
      exact ⟨rfl, hl⟩
    next => exact .inl ⟨t, h, rfl⟩
  | discard p =>
    dsimp only at h
    split at h
    · exact .inl (hsame (processExit_ring s p).1 h)
    · exact .inl ⟨t, h, rfl⟩
  | adopt p =>
    dsimp only at h
    split at h
    · exact .inl (hsame rfl h)
    · exact .inl ⟨t, h, rfl⟩
  | threadExit => exact .inl (process_of_mem_current h rfl rfl)
  | killProcess pid =>
    dsimp only [schedKillProcess] at h
    split at h
    · exact .inl ⟨t, h, rfl⟩
    · exact .inl (process_of_mem_mapTasks (fun u => by split <;> rfl) h)
  | killChildren parentPid =>
    dsimp only [schedKillChildren] at h
    split at h
    · exact .inl ⟨t, h, rfl⟩
    · exact .inl (process_of_mem_mapTasks (fun u => by split <;> rfl) h)
  | runNext idleNeedsRun => exact .inl ⟨t, mem_ring_of_schedRunNext h, rfl⟩
  | quakeExit => exact .inl (hsame (processExit_ring s _).1 h)
  | signalSend targetPid mask =>
    dsimp only [ipcSignalSend] at h
    split at h
    · exact .inl ⟨t, h, rfl⟩
    · split at h
      · exact .inl ⟨t, h, rfl⟩
      · obtain ⟨u, hu, hut⟩ := process_of_mem_mapTasks (fun u => by split <;> simp [hunblock]) h
        exact .inl ⟨u, hu, hut⟩
  | signalPoll mask => exact .inl (hsame rfl h)
  | signalWait mask =>
    dsimp only [ipcSignalWait] at h
    split at h
    · exact .inl ⟨t, h, rfl⟩
    · exact .inl (process_of_mem_current h rfl rfl)
  | continueWait idleNeedsRun =>
    refine .inl ?_
    dsimp only [continueWait] at h
    split at h
    · exact ⟨t, h, rfl⟩
    · split at h
      · exact process_of_mem_current h rfl rfl
      · exact process_of_mem_current h rfl rfl
    · exact process_of_mem_current h rfl rfl
    · exact process_of_mem_current (mem_ring_of_schedRunNext h) rfl rfl

end Sched

/-! ## The invariant -/

namespace Foreground

/-- A process without a task -/
structure Unstarted (s : Sched) (p : ℕ) : Prop where
  live : s.IsLive p
  alone : ∀ t ∈ s.ring, t.process ≠ p

/-- What is known of a call -/
structure CallInv (s : Foreground) (c : ForegroundCall) : Prop where
  bound : c.proc < s.sched.created
  session : ∀ i, c.point = .setSession i ∨ c.point = .dropSession i → i < maxSessions
  spawner : c.point.isUnstarted = true → c.spawner = true
  unstarted : c.point.isUnstarted = true → Unstarted s.sched c.proc
  /-- The global and some of the sessions are cleared. -/
  clearing : ∀ i, c.point = .exit (.clearSession i) →
    s.global ≠ some c.proc ∧ ∀ j < i, s.saved j ≠ some c.proc
  released : c.point = .exit .release → ¬ s.PointsTo c.proc

structure Inv (s : Foreground) : Prop where
  active : s.active < maxSessions
  beyond : ∀ i, maxSessions ≤ i → s.saved i = none
  points : s.NoDangling
  tasks : ∀ t ∈ s.sched.ring, t.process < s.sched.created
  fresh : ∀ k, s.begun ≤ k → s.calls k = none
  calls : ∀ k c, s.calls k = some c → s.CallInv c
  /-- Only the spawner knows of a process that it has not started. -/
  unique : ∀ k c k' c', s.calls k = some c → s.calls k' = some c' → c.point.isUnstarted = true →
    c'.proc = c.proc → k' = k

variable {s : Foreground} {k : ℕ} {c : ForegroundCall}

/-- A call goes on, and nothing else happens. -/
theorem Inv.goto (h : s.Inv) (hk : s.calls k = some c) {p : ForegroundPoint}
    (hc : s.CallInv { c with point := p }) (hu : p.isUnstarted = true → c.point.isUnstarted = true) :
    (s.goto k c p).Inv := by
  have hcalls : ∀ j d, (s.goto k c p).calls j = some d →
      j = k ∧ d = { c with point := p } ∨ j ≠ k ∧ s.calls j = some d := by
    intro j d hj
    by_cases hjk : j = k
    · subst hjk
      unfold Foreground.goto at hj
      dsimp only at hj
      rw [Function.update_self] at hj
      exact .inl ⟨rfl, (Option.some.inj hj).symm⟩
    · exact .inr ⟨hjk, (Function.update_of_ne hjk _ _).symm.trans hj⟩
  refine ⟨h.active, h.beyond, h.points, h.tasks, fun j hj => ?_, fun j d hj => ?_, ?_⟩
  · have hjk : j ≠ k := by
      rintro rfl
      rw [h.fresh j hj] at hk
      exact absurd hk (nomatch ·)
    exact (Function.update_of_ne hjk _ _).trans (h.fresh j hj)
  · rcases hcalls j d hj with ⟨-, rfl⟩ | ⟨-, hj⟩
    · exact ⟨hc.bound, hc.session, hc.spawner, hc.unstarted, hc.clearing, hc.released⟩
    · have hd := h.calls j d hj
      exact ⟨hd.bound, hd.session, hd.spawner, hd.unstarted, hd.clearing, hd.released⟩
  · intro j d j' d' hj hj' hd he
    rcases hcalls j d hj with ⟨rfl, rfl⟩ | ⟨-, hold⟩ <;>
      rcases hcalls j' d' hj' with ⟨rfl, rfl⟩ | ⟨-, hold'⟩
    · rfl
    · exact h.unique _ c _ d' hk hold' (hu hd) he
    · exact h.unique _ d _ c hold hk hd he
    · exact h.unique _ d _ d' hold hold' hd he

/-- Copies of the pointer are cleared. -/
theorem Inv.shrink (h : s.Inv) (global : Option ℕ) (saved : ℕ → Option ℕ)
    (hg : ∀ p, global = some p → s.global = some p) (hs : ∀ i p, saved i = some p → s.saved i = some p) :
    ({ s with global := global, saved := saved } : Foreground).Inv := by
  have hpoints : ∀ p, ({ s with global := global, saved := saved } : Foreground).PointsTo p → s.PointsTo p := by
    rintro p (hp | ⟨i, hp⟩)
    · exact .inl (hg p hp)
    · exact .inr ⟨i, hs i p hp⟩
  refine ⟨h.active, fun i hi => ?_, fun p hp => h.points p (hpoints p hp), h.tasks, h.fresh,
    fun j d hj => ?_, h.unique⟩
  · refine Option.eq_none_iff_forall_ne_some.mpr fun p hp => ?_
    have hnone := h.beyond i hi
    rw [hs i p hp] at hnone
    exact nomatch hnone
  · have hd := h.calls j d hj
    refine ⟨hd.bound, hd.session, hd.spawner, hd.unstarted, fun i hi => ?_, fun hr hp => hd.released hr (hpoints _ hp)⟩
    obtain ⟨hglobal, hsaved⟩ := hd.clearing i hi
    exact ⟨fun he => hglobal (hg _ he), fun l hl he => hsaved l hl (hs l _ he)⟩

/-- The pointer of a session is set to null. -/
theorem Inv.setSaved_none (h : s.Inv) (i : ℕ) : (s.setSaved i none).Inv := by
  refine h.shrink _ _ (fun _ hp => hp) fun j p hp => ?_
  by_cases hj : j = i
  · rw [hj, Function.update_self] at hp
    exact nomatch hp
  · rwa [Function.update_of_ne hj] at hp

/-- A spawn sets copies of the pointer to its process. -/
theorem Inv.point (h : s.Inv) (hk : s.calls k = some c) (hu : c.point.isUnstarted = true)
    (global : Option ℕ) (saved : ℕ → Option ℕ) (hg : ∀ p, global = some p → s.global = some p ∨ p = c.proc)
    (hs : ∀ i p, saved i = some p → s.saved i = some p ∨ i < maxSessions ∧ p = c.proc) :
    ({ s with global := global, saved := saved } : Foreground).Inv := by
  have hpoints : ∀ p, ({ s with global := global, saved := saved } : Foreground).PointsTo p →
      s.PointsTo p ∨ p = c.proc := by
    rintro p (hp | ⟨i, hp⟩)
    · exact (hg p hp).imp_left .inl
    · exact (hs i p hp).imp (fun hp => .inr ⟨i, hp⟩) And.right
  -- the processes of the calls that are about to release one are others
  have hne : ∀ j d, s.calls j = some d → d.point.isUnstarted = false → d.proc ≠ c.proc := by
    intro j d hj hd he
    have hjk := h.unique k c j d hk hj hu he
    rw [hjk, hk] at hj
    rw [← Option.some.inj hj, hu] at hd
    exact absurd hd (by decide)
  refine ⟨h.active, fun i hi => ?_, fun p hp => ?_, h.tasks, h.fresh, fun j d hj => ?_, h.unique⟩
  · refine Option.eq_none_iff_forall_ne_some.mpr fun p hp => ?_
    rcases hs i p hp with hold | ⟨hlt, -⟩
    · rw [h.beyond i hi] at hold
      exact nomatch hold
    · omega
  · rcases hpoints p hp with hold | rfl
    · exact h.points p hold
    · exact ((h.calls k c hk).unstarted hu).live
  · have hd := h.calls j d hj
    refine ⟨hd.bound, hd.session, hd.spawner, hd.unstarted, fun i hi => ?_, fun hr hp => ?_⟩
    · have hproc := hne j d hj (by rw [hi]; rfl)
      obtain ⟨hglobal, hsaved⟩ := hd.clearing i hi
      exact ⟨fun he => (hg _ he).elim hglobal hproc,
        fun l hl he => (hs l _ he).elim (hsaved l hl) fun hp => hproc hp.2⟩
    · have hproc := hne j d hj (by rw [hr]; rfl)
      exact (hpoints _ hp).elim (hd.released hr) hproc

/-- The scheduler takes a step that releases nothing that is pointed to. -/
theorem Inv.sched (h : s.Inv) (sched : Sched) (hcreated : s.sched.created ≤ sched.created)
    (hpoints : ∀ p, s.PointsTo p → sched.releases p = s.sched.releases p)
    (htasks : ∀ t ∈ sched.ring, t.process < sched.created)
    (hunstarted : ∀ j d, s.calls j = some d → d.point.isUnstarted = true → Unstarted sched d.proc) :
    ({ s with sched := sched } : Foreground).Inv := by
  refine ⟨h.active, h.beyond, fun p hp => ?_, htasks, h.fresh, fun j d hj => ?_, h.unique⟩
  · obtain ⟨hlt, hz⟩ := h.points p hp
    exact ⟨hlt.trans_le hcreated, (hpoints p hp).trans hz⟩
  · have hd := h.calls j d hj
    exact ⟨hd.bound.trans_le hcreated, hd.session, hd.spawner, hunstarted j d hj, hd.clearing, hd.released⟩

/-! ## Steps -/

theorem mem_calls (h : s.Inv) (hk : s.calls k = some c) : k < s.begun := by
  by_contra hle
  rw [h.fresh k (not_lt.mp hle)] at hk
  exact nomatch hk

/-- A spawn that has not started its process holds it. -/
theorem holds_of_unstarted (h : s.Inv) (hk : s.calls k = some c) (hu : c.point.isUnstarted = true) :
    s.holds c.proc = true := by
  have hspawner := (h.calls k c hk).spawner hu
  have hpoint : c.point ≠ .done := by
    rintro he
    rw [he] at hu
    exact nomatch hu
  unfold holds
  rw [List.any_eq_true]
  refine ⟨k, List.mem_range.mpr (mem_calls h hk), ?_⟩
  rw [hk]
  simp [hspawner, hpoint]

/-- The copies of the pointer to what is released are cleared in the same step. -/
theorem Inv.setSched (h : s.Inv) {sched : Sched} (hcreated : s.sched.created ≤ sched.created)
    (htasks : ∀ t ∈ sched.ring, t.process < sched.created)
    (hunstarted : ∀ j d, s.calls j = some d → d.point.isUnstarted = true → Unstarted sched d.proc) :
    (s.setSched sched).Inv := by
  let keep (p : ℕ) : Bool := sched.releases p = s.sched.releases p
  have hkeep : ∀ {o : Option ℕ} {p}, o.filter keep = some p → o = some p ∧ keep p = true := by
    intro o p hp
    exact Option.filter_eq_some_iff.mp hp
  have hshrink := h.shrink (s.global.filter keep) (fun i => (s.saved i).filter keep)
    (fun p hp => (hkeep hp).1) (fun i p hp => (hkeep hp).1)
  refine hshrink.sched sched hcreated ?_ htasks hunstarted
  rintro p (hp | ⟨i, hp⟩)
  · exact of_decide_eq_true (hkeep hp).2
  · exact of_decide_eq_true (hkeep hp).2

/-- A step of the scheduler, or of a task that does not hold the process of a spawn -/
theorem Inv.kernel (h : s.Inv) {st : TaskStep} (hsubject : ∀ p, st.subject = some p → s.holds p = false) :
    (s.setSched (st.run s.sched)).Inv := by
  have hcurrent : s.sched.current.process < s.sched.created := h.tasks _ List.mem_cons_self
  have hcreated := (frame_run s.sched st hcurrent).kept.created
  refine h.setSched hcreated (fun t ht => ?_) fun j d hj hd => ?_
  · rcases process_of_mem_run ht with ⟨u, hu, he⟩ | ⟨-, hlive⟩
    · exact he ▸ (h.tasks u hu).trans_le hcreated
    · exact hlive.1.trans_le hcreated
  · have hunstarted := (h.calls j d hj).unstarted hd
    have hne : st.subject ≠ some d.proc := by
      intro he
      have hholds := hsubject d.proc he
      rw [holds_of_unstarted h hj hd] at hholds
      exact nomatch hholds
    have hframe := (frame_run s.sched st hunstarted.live.1).untouched hunstarted.alone hne
    refine ⟨⟨hunstarted.live.1.trans_le hcreated, hframe.releases.trans hunstarted.live.2⟩, fun t ht => ?_⟩
    rcases process_of_mem_run ht with ⟨u, hu, he⟩ | ⟨he, -⟩
    · exact he ▸ hunstarted.alone u hu
    · exact fun hp => hne (hp ▸ he)

/-- A change of a process, or of none -/
theorem Inv.setProc (h : s.Inv) (p : ℕ) (x : KernProcess) :
    ({ s with sched := s.sched.setProc p x } : Foreground).Inv := by
  refine h.sched _ le_rfl (fun _ _ => rfl) h.tasks fun j d hj hd => ?_
  have hunstarted := (h.calls j d hj).unstarted hd
  exact ⟨hunstarted.live, hunstarted.alone⟩

/-- A call begins, and its process is not one that a spawn holds. -/
theorem Inv.begin (h : s.Inv) (hc : s.CallInv c)
    (hunique : ∀ j d, s.calls j = some d → c.point.isUnstarted = true ∨ d.point.isUnstarted = true →
      d.proc ≠ c.proc) : (s.begin c).Inv := by
  have hcalls : ∀ j d, (s.begin c).calls j = some d → j = s.begun ∧ d = c ∨ s.calls j = some d := by
    intro j d hj
    by_cases hjb : j = s.begun
    · unfold Foreground.begin at hj
      dsimp only at hj
      rw [hjb, Function.update_self] at hj
      exact .inl ⟨hjb, (Option.some.inj hj).symm⟩
    · exact .inr ((Function.update_of_ne hjb _ _).symm.trans hj)
  refine ⟨h.active, h.beyond, h.points, h.tasks, fun j hj => ?_, fun j d hj => ?_, ?_⟩
  · have hle : s.begun + 1 ≤ j := hj
    exact (Function.update_of_ne (by omega) _ _).trans (h.fresh j (by omega))
  · rcases hcalls j d hj with ⟨-, rfl⟩ | hold
    · exact ⟨hc.bound, hc.session, hc.spawner, hc.unstarted, hc.clearing, hc.released⟩
    · have hd := h.calls j d hold
      exact ⟨hd.bound, hd.session, hd.spawner, hd.unstarted, hd.clearing, hd.released⟩
  · intro j d j' d' hj hj' hd he
    rcases hcalls j d hj with ⟨rfl, rfl⟩ | hold <;> rcases hcalls j' d' hj' with ⟨rfl, rfl⟩ | hold'
    · rfl
    · exact absurd he (hunique j' d' hold' (.inl hd))
    · exact absurd he.symm (hunique j d hold (.inr hd))
    · exact h.unique j d j' d' hold hold' hd he

/-- `process_create` -/
theorem Inv.processCreate (h : s.Inv) (outcome : AllocOutcome) :
    ({ s with sched := s.sched.processCreate outcome } : Foreground).Inv := by
  have huntouched : ∀ p, p < s.sched.created → Untouched s.sched (s.sched.processCreate outcome) p :=
    fun p hp => untouched_processCreate outcome hp.ne
  have hring : (s.sched.processCreate outcome).ring = s.sched.ring := by
    unfold Sched.processCreate
    split <;> rfl
  have hcreated := (huntouched _ (h.tasks s.sched.current List.mem_cons_self)).created
  refine h.sched _ hcreated (fun p hp => ?_) (fun t ht => ?_) fun j d hj hd => ?_
  · exact (huntouched p (h.points p hp).1).releases
  · rw [hring] at ht
    exact (h.tasks t ht).trans_le hcreated
  · have hunstarted := (h.calls j d hj).unstarted hd
    refine ⟨⟨hunstarted.live.1.trans_le hcreated, ?_⟩, hring ▸ hunstarted.alone⟩
    exact (huntouched _ hunstarted.live.1).releases.trans hunstarted.live.2

/-- `wasm_spawn` creates its process. -/
theorem Inv.spawn (h : s.Inv) (foreground : Bool) :
    ({ s with sched := s.sched.processCreate .ok }.begin
      ⟨s.sched.current.addr, s.sched.created, true, foreground, .created⟩).Inv := by
  have hlive : (s.sched.processCreate .ok).IsLive s.sched.created :=
    ⟨Nat.lt_succ_self _, Function.update_self _ _ _⟩
  have halone : ∀ t ∈ (s.sched.processCreate .ok).ring, t.process ≠ s.sched.created :=
    fun t ht => (h.tasks t ht).ne
  refine (h.processCreate .ok).begin ?_ fun j d hj _ => (h.calls j d hj).bound.ne
  exact ⟨hlive.1, nofun, fun _ => rfl, fun _ => ⟨hlive, halone⟩, nofun, nofun⟩

/-- A native application ends. -/
theorem Inv.exit (h : s.Inv) :
    (s.begin ⟨s.sched.current.addr, s.sched.current.process, false, false, .exit .check⟩).Inv := by
  refine h.begin ⟨h.tasks _ List.mem_cons_self, nofun, nofun, nofun, nofun, nofun⟩ fun j d hj hd => ?_
  have hunstarted := (h.calls j d hj).unstarted (hd.resolve_left Bool.false_ne_true)
  exact (hunstarted.alone s.sched.current List.mem_cons_self).symm

/-- `session_switch` -/
theorem Inv.sessionSwitch (h : s.Inv) {id : ℕ} (hcareful : s.Careful (.switch id)) :
    (s.sessionSwitch id).Inv := by
  unfold Foreground.sessionSwitch
  split
  · exact h
  rename_i hid
  rw [not_or, not_le] at hid
  have hsaved : ∀ i p, Function.update s.saved s.active s.global i = some p →
      i = s.active ∧ s.global = some p ∨ s.saved i = some p := by
    intro i p hp
    by_cases hi : i = s.active
    · rw [hi, Function.update_self] at hp
      exact .inl ⟨hi, hp⟩
    · rw [Function.update_of_ne hi] at hp
      exact .inr hp
  have hpoints : ∀ p, s.saved id = some p ∨ (∃ i, Function.update s.saved s.active s.global i = some p) →
      s.PointsTo p := by
    rintro p (hp | ⟨i, hp⟩)
    · exact .inr ⟨id, hp⟩
    · exact (hsaved i p hp).elim (fun hp => .inl hp.2) fun hp => .inr ⟨i, hp⟩
  refine ⟨hid.1, fun i hi => ?_, fun p hp => h.points p (hpoints p hp), h.tasks, h.fresh,
    fun j d hj => ?_, h.unique⟩
  · have hne : i ≠ s.active := fun he => absurd h.active (by omega)
    exact (Function.update_of_ne hne _ _).trans (h.beyond i hi)
  · have hd := h.calls j d hj
    refine ⟨hd.bound, hd.session, hd.spawner, hd.unstarted, fun i hi => ⟨?_, fun l hl he => ?_⟩, ?_⟩
    · refine hcareful hid.2 j (mem_calls h hj) d hj ?_
      unfold ForegroundCall.isClearing
      rw [hi]
    · obtain ⟨hglobal, hbefore⟩ := hd.clearing i hi
      exact (hsaved l _ he).elim (fun he => hglobal he.2) (hbefore l hl)
    · exact fun hr hp => hd.released hr (hpoints _ hp)

/-- A spawn that has not started the process of a call is that call. -/
theorem Inv.point_of_goto {p : ForegroundPoint} (h : (s.goto k c p).Inv) {j : ℕ} {d : ForegroundCall}
    (hj : (s.goto k c p).calls j = some d) (hd : d.point.isUnstarted = true) (he : d.proc = c.proc) :
    d.point = p := by
  have hself : (s.goto k c p).calls k = some { c with point := p } := Function.update_self _ _ _
  have hkj : k = j := h.unique j d k _ hj hself hd he.symm
  rw [hkj] at hself hj
  rw [Option.some.inj (hj.symm.trans hself)]

/-- The next statement of `process_exit` -/
theorem Inv.advanceExit (h : s.Inv) (hk : s.calls k = some c) {point : ExitPoint}
    (hpoint : c.point = .exit point) : (s.advanceExit k c point).Inv := by
  have hc := h.calls k c hk
  cases point with
  | check =>
    unfold Foreground.advanceExit
    dsimp only
    split
    · exact h.goto hk ⟨hc.bound, nofun, nofun, nofun, nofun, nofun⟩ nofun
    · exact (h.setProc c.proc _).goto hk ⟨hc.bound, nofun, nofun, nofun, nofun, nofun⟩ nofun
  | clearGlobal =>
    have hshrink := h.shrink (if s.global = some c.proc then none else s.global) s.saved
      (fun p hp => by
        split at hp
        · exact nomatch hp
        · exact hp) (fun _ _ hp => hp)
    refine hshrink.goto hk ⟨hc.bound, nofun, nofun, nofun, fun i hi => ?_, nofun⟩ nofun
    obtain rfl : 0 = i := by
      simpa using hi
    refine ⟨fun he => ?_, fun j hj => absurd hj (Nat.not_lt_zero j)⟩
    dsimp only at he
    split at he
    · exact nomatch he
    · rename_i hne
      exact hne he
  | clearSession i =>
    obtain ⟨hglobal, hbefore⟩ := hc.clearing i hpoint
    unfold Foreground.advanceExit
    dsimp only
    split
    · let cleared := if s.saved i = some c.proc then none else s.saved i
      have hcleared : ∀ p, cleared = some p → s.saved i = some p ∧ p ≠ c.proc := by
        intro p hp
        unfold cleared at hp
        split at hp
        · exact nomatch hp
        · rename_i hne
          exact ⟨hp, fun he => hne (he ▸ hp)⟩
      have hshrink := h.shrink s.global (Function.update s.saved i cleared)
        (fun _ hp => hp) (fun j p hp => by
          by_cases hj : j = i
          · subst hj
            rw [Function.update_self] at hp
            exact (hcleared p hp).1
          · rwa [Function.update_of_ne hj] at hp)
      refine hshrink.goto hk ⟨hc.bound, nofun, nofun, nofun, fun l hl => ?_, nofun⟩ nofun
      obtain rfl : i + 1 = l := by
        simpa using hl
      refine ⟨hglobal, fun j hj he => ?_⟩
      by_cases hji : j = i
      · rw [hji] at he
        exact (hcleared c.proc ((Function.update_self i cleared s.saved).symm.trans he)).2 rfl
      · exact hbefore j (by omega) ((Function.update_of_ne hji _ _).symm.trans he)
    · rename_i hi
      refine h.goto hk ⟨hc.bound, nofun, nofun, nofun, nofun, fun _ hp => ?_⟩ nofun
      rcases hp with hp | ⟨j, hp⟩
      · exact hglobal hp
      · by_cases hj : j < maxSessions
        · exact hbefore j (by omega) hp
        · rw [h.beyond j (not_lt.mp hj)] at hp
          exact nomatch hp
  | release =>
    have hdone := h.goto hk (p := .done) ⟨hc.bound, nofun, nofun, nofun, nofun, nofun⟩ nofun
    refine hdone.sched { s.sched with
      releases := Function.update s.sched.releases c.proc (s.sched.releases c.proc + 1) } le_rfl
      (fun p hp => ?_) h.tasks fun j d hj hd => ?_
    · have hne : p ≠ c.proc := fun he => hc.released hpoint (he ▸ hp)
      exact Function.update_of_ne hne _ _
    · have hunstarted := (hdone.calls j d hj).unstarted hd
      refine ⟨⟨hunstarted.live.1, ?_⟩, hunstarted.alone⟩
      have hne : d.proc ≠ c.proc := by
        intro he
        rw [hdone.point_of_goto hj hd he] at hd
        exact nomatch hd
      exact (Function.update_of_ne hne _ _).trans hunstarted.live.2

/-- The task of a process is created, or is not. -/
theorem Inv.createTask (h : s.Inv) (hk : s.calls k = some c) (hpoint : c.point = .createTask)
    {outcome : AllocOutcome} {p : ForegroundPoint}
    (hp : p = .done ∨ outcome ≠ .ok ∧ (p = .dropGlobal ∨ p = .exit .check)) :
    ({ s with sched := s.sched.taskCreateInternal c.proc outcome }.goto k c p).Inv := by
  have hc := h.calls k c hk
  have hu : c.point.isUnstarted = true := by rw [hpoint]; rfl
  have hnext : (s.goto k c p).Inv := by
    refine h.goto hk ⟨hc.bound, fun i hi => ?_, fun _ => hc.spawner hu, fun _ => hc.unstarted hu,
      fun i hi => ?_, fun hi => ?_⟩ fun _ => hu
    all_goals
      rcases hp with rfl | ⟨-, rfl | rfl⟩
      all_goals simp at hi
  have hkept := fun q => kept_taskCreateInternal s.sched q c.proc outcome
  have hreleases : (s.sched.taskCreateInternal c.proc outcome).releases = s.sched.releases := by
    cases outcome <;> rfl
  refine hnext.sched _ (hkept c.proc).created (fun q _ => congrFun hreleases q) (fun t ht => ?_) fun j d hj hd => ?_
  · rcases process_of_mem_taskCreateInternal ht with ⟨u, hu, he⟩ | ⟨-, he⟩
    · exact he ▸ (h.tasks u hu).trans_le (hkept c.proc).created
    · exact he ▸ hc.bound.trans_le (hkept c.proc).created
  · have hunstarted := (hnext.calls j d hj).unstarted hd
    refine ⟨⟨hunstarted.live.1.trans_le (hkept c.proc).created, ?_⟩, fun t ht => ?_⟩
    · exact (congrFun hreleases d.proc).trans hunstarted.live.2
    · rcases process_of_mem_taskCreateInternal ht with ⟨u, hu, he⟩ | ⟨hok, he⟩
      · exact he ▸ hunstarted.alone u hu
      · -- the process that has a task now is the one of the call that is done
        intro heq
        rw [hnext.point_of_goto hj hd (heq.symm.trans he), hp.resolve_right fun h => h.1 hok] at hd
        exact nomatch hd

/-- The next statement of a call -/
theorem Inv.advanceCall (h : s.Inv) (hk : s.calls k = some c) (outcome : AllocOutcome) :
    (s.advanceCall k c outcome).Inv := by
  have hc := h.calls k c hk
  unfold Foreground.advanceCall
  split <;> rename_i hpoint
  case h_10 => exact h
  case h_9 point => exact h.advanceExit hk hpoint
  all_goals have hu : c.point.isUnstarted = true := by rw [hpoint]; rfl
  case h_1 =>
    dsimp only
    split
    · refine (h.setProc c.proc _).goto hk ⟨hc.bound, fun i hi => ?_, fun _ => hc.spawner hu,
        fun _ => ⟨(hc.unstarted hu).live, (hc.unstarted hu).alone⟩, fun i hi => ?_, fun hi => ?_⟩ fun _ => hu
      all_goals
        dsimp only at hi
        split at hi <;> simp at hi
    · exact h.goto hk ⟨hc.bound, nofun, nofun, nofun, nofun, nofun⟩ nofun
  case h_2 =>
    have hset := h.point hk hu (some c.proc) s.saved
      (fun p hp => .inr (Option.some.inj hp).symm) (fun _ _ hp => .inl hp)
    exact hset.goto hk ⟨hc.bound, nofun, fun _ => hc.spawner hu, fun _ => hc.unstarted hu, nofun, nofun⟩
      fun _ => hu
  case h_3 =>
    refine h.goto hk ⟨hc.bound, fun i hi => ?_, fun _ => hc.spawner hu, fun _ => hc.unstarted hu, nofun,
      nofun⟩ fun _ => hu
    obtain rfl : s.active = i := by simpa using hi
    exact h.active
  case h_4 i =>
    have hset := h.point hk hu s.global (Function.update s.saved i (some c.proc))
      (fun _ hp => .inl hp) (fun j p hp => by
        by_cases hj : j = i
        · subst hj
          rw [Function.update_self] at hp
          exact .inr ⟨hc.session j (.inl hpoint), (Option.some.inj hp).symm⟩
        · rw [Function.update_of_ne hj] at hp
          exact .inl hp)
    exact hset.goto hk ⟨hc.bound, nofun, fun _ => hc.spawner hu, fun _ => hc.unstarted hu, nofun, nofun⟩
      fun _ => hu
  case h_5 =>
    refine h.createTask hk hpoint ?_
    split
    · exact .inl rfl
    · rename_i hout
      refine .inr ⟨hout, ?_⟩
      split
      · exact .inl rfl
      · exact .inr rfl
  case h_6 =>
    have hshrink := h.shrink none s.saved nofun (fun _ _ hp => hp)
    exact hshrink.goto hk ⟨hc.bound, nofun, fun _ => hc.spawner hu, fun _ => hc.unstarted hu, nofun, nofun⟩
      fun _ => hu
  case h_7 =>
    refine h.goto hk ⟨hc.bound, fun i hi => ?_, fun _ => hc.spawner hu, fun _ => hc.unstarted hu, nofun,
      nofun⟩ fun _ => hu
    obtain rfl : s.active = i := by simpa using hi
    exact h.active
  case h_8 i => exact (h.setSaved_none i).goto hk ⟨hc.bound, nofun, nofun, nofun, nofun, nofun⟩ nofun

theorem Inv.init : init.Inv where
  active := by decide
  beyond _ _ := rfl
  points := by
    rintro p (hp | ⟨i, hp⟩)
    · exact nomatch hp
    · exact nomatch hp
  tasks := by decide
  fresh _ _ := rfl
  calls := nofun
  unique := nofun

/-- Every step keeps the invariant, if no switch comes to a copy that is to be cleared. -/
theorem Inv.run (h : s.Inv) {st : ForegroundStep} (hcareful : s.Careful st) : (st.run s).Inv := by
  unfold ForegroundStep.run
  cases st with
  | kernel st =>
    dsimp only
    split
    · exact h
    · rename_i hno
      rw [not_or, not_or] at hno
      refine h.kernel fun p hp => ?_
      rw [hp] at hno
      simpa using hno.2.1
  | spawn foreground outcome =>
    dsimp only
    split
    · exact h
    · split
      · rename_i hok
        rw [hok]
        exact h.spawn foreground
      · exact h.processCreate outcome
  | exit =>
    dsimp only
    split
    · exact h
    · exact h.exit
  | advance k outcome =>
    dsimp only
    split
    · exact h
    · rename_i c hk
      split
      · exact h.advanceCall hk outcome
      · exact h
  | switch id =>
    dsimp only
    split
    · exact h
    · exact h.sessionSwitch hcareful
  | forget =>
    dsimp only
    split
    · exact h
    · exact h.setSaved_none s.active

/-- In every run of spawns, kills, exits and session switches, if no switch comes to a session with a copy of the
pointer that a call of `process_exit` is to clear, no copy points to a released process. -/
theorem no_dangling {steps : List ForegroundStep} (h : Along ForegroundStep.run Careful init steps) :
    Always ForegroundStep.run NoDangling init steps :=
  (always_of_along (fun _ _ hs hc => hs.run hc) Inv.init h).mono fun _ hs => hs.points

/-- A program is running in the background, and spawns one in the foreground. The user switches to session 1 before
the task is created. -/
def foregroundSpawn : List ForegroundStep :=
  [.spawn false .ok, .advance 0 .ok, .advance 0 .ok, .kernel (.runNext true), .spawn true .ok] ++
    List.replicate 4 (.advance 1 .ok) ++ [.kernel (.runNext true), .switch 1, .kernel (.runNext true)]

/-- There is no memory for the task of the program, and the user switches back while `process_exit` is about to look
at the global. -/
theorem no_dangling_failedSpawn :
    Always ForegroundStep.run NoDangling init
      (foregroundSpawn ++ List.replicate 5 (.advance 1 .noObject) ++
        [.kernel (.runNext true), .switch 0, .kernel (.runNext true)] ++ List.replicate 8 (.advance 1 .ok)) :=
  no_dangling (by decide +kernel)

/-- The user switches back after `process_exit` has looked at the global, and before it has come to session 0: the
global gets the copy of session 0, and points to the process after it is released. -/
theorem foreground_dangles :
    ¬ Always ForegroundStep.run NoDangling init
      (foregroundSpawn ++ List.replicate 6 (.advance 1 .noObject) ++
        [.kernel (.runNext true), .switch 0, .kernel (.runNext true)] ++ List.replicate 7 (.advance 1 .ok)) := by
  intro h
  have hdangles := h.last 2 (.inl (by decide +kernel))
  exact absurd hdangles (by decide +kernel)

end Foreground

end Sandflea
