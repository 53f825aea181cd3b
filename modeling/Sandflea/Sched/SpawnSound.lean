import Sandflea.Sched.Spawn

/-!
# What spawns return

`spawns_sound` says that spawns return the pid that was assigned, and read nothing released, in every run
in which no child is released before its spawn has returned; and that a spawn that waits for its child
has always read a released object when it returns.

A step of the scheduler does to one process only what `Kept` says, and nothing at all to one that has no
task and is not the subject of the step (`run_untouched`). From that, `Spawn.Tracked` is kept by every
step: a child is as its spawn left it, until it is released.
-/

namespace Sandflea

open Runs Sched

namespace Sched

/-! ## One process in a step of the scheduler -/

/-- A step does nothing to a process that matters to its spawn. -/
structure Untouched (s s' : Sched) (p : ℕ) : Prop where
  created : s.created ≤ s'.created
  releases : s'.releases p = s.releases p
  started : s'.started p = s.started p
  pid : (s'.procs p).pid = (s.procs p).pid

/-- A step may give a process its first task, or release it. -/
structure Kept (s s' : Sched) (p : ℕ) : Prop where
  created : s.created ≤ s'.created
  live : s'.releases p = 0 → s.releases p = 0 ∧ (s'.procs p).pid = (s.procs p).pid
  started : s.started p = true → s'.started p = true

variable {s s' s'' : Sched} {p q : ℕ}

theorem Untouched.refl (s : Sched) (p : ℕ) : Untouched s s p := ⟨le_rfl, rfl, rfl, rfl⟩

theorem Untouched.trans (h : Untouched s s' p) (h' : Untouched s' s'' p) : Untouched s s'' p :=
  ⟨h.created.trans h'.created, h'.releases.trans h.releases, h'.started.trans h.started,
    h'.pid.trans h.pid⟩

theorem Untouched.kept (h : Untouched s s' p) : Kept s s' p :=
  ⟨h.created, fun hz => ⟨h.releases ▸ hz, h.pid⟩, fun hs => h.started.trans hs⟩

theorem Kept.trans (h : Kept s s' p) (h' : Kept s' s'' p) : Kept s s'' p := by
  refine ⟨h.created.trans h'.created, fun hz => ?_, fun hs => h'.started (h.started hs)⟩
  obtain ⟨hz', hpid'⟩ := h'.live hz
  obtain ⟨hz'', hpid⟩ := h.live hz'
  exact ⟨hz'', hpid'.trans hpid⟩

/-- A released process stays released. -/
theorem Kept.released (h : Kept s s' p) (hr : s.releases p ≠ 0) : s'.releases p ≠ 0 :=
  fun hz => hr (h.live hz).1

theorem SameProcs.untouched (h : SameProcs s s') (p : ℕ) : Untouched s s' p :=
  ⟨h.created.ge, congrFun h.releases p, congrFun h.started p, by rw [h.procs]⟩

theorem untouched_setProc {x : KernProcess} (hpid : x.pid = (s.procs q).pid) :
    Untouched s (s.setProc q x) p := by
  refine ⟨le_rfl, rfl, rfl, ?_⟩
  by_cases hp : p = q
  · subst hp
    simpa [Sched.setProc] using hpid
  · simp [Sched.setProc, hp]

theorem untouched_processCreate (outcome : AllocOutcome) (hp : p ≠ s.created) :
    Untouched s (s.processCreate outcome) p := by
  unfold Sched.processCreate
  split
  · exact Untouched.refl s p
  · refine ⟨Nat.le_succ _, ?_, rfl, ?_⟩
    · exact Function.update_of_ne hp _ _
    · dsimp only
      rw [Function.update_of_ne hp]

theorem untouched_processExit (hp : p ≠ q) : Untouched s (s.processExit q) p := by
  unfold Sched.processExit
  split_ifs
  · exact Untouched.refl s p
  · exact Untouched.refl s p
  · refine ⟨le_rfl, Function.update_of_ne hp _ _, rfl, ?_⟩
    simp [Sched.setProc, hp]

theorem kept_processExit (s : Sched) (p q : ℕ) : Kept s (s.processExit q) p := by
  by_cases hp : p = q
  · subst hp
    unfold Sched.processExit
    split_ifs
    · exact (Untouched.refl s p).kept
    · exact (Untouched.refl s p).kept
    · refine ⟨le_rfl, fun hz => ?_, fun hs => hs⟩
      dsimp only at hz
      rw [Function.update_self] at hz
      omega
  · exact (untouched_processExit hp).kept

theorem untouched_taskCreateInternal (outcome : AllocOutcome) (hp : p ≠ q) :
    Untouched s (s.taskCreateInternal q outcome) p := by
  cases outcome with
  | ok =>
    refine ⟨le_rfl, rfl, Function.update_of_ne hp _ _, ?_⟩
    simp [Sched.taskCreateInternal, Sched.setProc, hp]
  | noObject | noPages => exact ⟨le_rfl, rfl, rfl, rfl⟩

theorem kept_taskCreateInternal (s : Sched) (p q : ℕ) (outcome : AllocOutcome) :
    Kept s (s.taskCreateInternal q outcome) p := by
  cases outcome with
  | ok =>
    refine ⟨le_rfl, fun hz => ⟨hz, ?_⟩, fun hs => ?_⟩
    · by_cases hp : p = q
      · subst hp
        simp [Sched.taskCreateInternal, Sched.setProc]
      · simp [Sched.taskCreateInternal, Sched.setProc, hp]
    · by_cases hp : p = q
      · subst hp
        exact Function.update_self _ _ _
      · exact (Function.update_of_ne hp _ _).trans hs
  | noObject | noPages => exact ⟨le_rfl, fun hz => ⟨hz, rfl⟩, fun hs => hs⟩

theorem untouched_reap {t : KernTask} (hp : p ≠ t.process) : Untouched s (s.reap t) p := by
  have hset : Untouched s (s.setProc t.process
      { s.procs t.process with threadCount := (s.procs t.process).threadCount - 1 }) p :=
    untouched_setProc rfl
  unfold Sched.reap
  dsimp only
  split
  · exact hset.trans (untouched_processExit hp)
  · exact hset

theorem kept_reap (s : Sched) (t : KernTask) (p : ℕ) : Kept s (s.reap t) p := by
  have hset : Untouched s (s.setProc t.process
      { s.procs t.process with threadCount := (s.procs t.process).threadCount - 1 }) p :=
    untouched_setProc rfl
  unfold Sched.reap
  dsimp only
  split
  · exact hset.kept.trans (kept_processExit _ p _)
  · exact hset.kept

theorem kept_schedRunNext (s : Sched) (idleNeedsRun : Bool) (p : ℕ) :
    Kept s (s.schedRunNext idleNeedsRun) p := by
  obtain ⟨dead, rest, -, -, -, hprocs⟩ := schedRunNext_cases s idleNeedsRun
  have hdead : Kept s (dead.foldl Sched.reap s) p := by
    clear hprocs
    induction dead generalizing s with
    | nil => exact (Untouched.refl s p).kept
    | cons t dead ih => exact (kept_reap s t p).trans (ih (s.reap t))
  exact hdead.trans (hprocs.untouched p).kept

/-- The scheduler does nothing to a process without a task. -/
theorem untouched_schedRunNext (idleNeedsRun : Bool) (hp : ∀ t ∈ s.ring, t.process ≠ p) :
    Untouched s (s.schedRunNext idleNeedsRun) p := by
  obtain ⟨dead, rest, -, hperm, -, hprocs⟩ := schedRunNext_cases s idleNeedsRun
  have hne : ∀ t ∈ dead, p ≠ t.process := fun t ht =>
    (hp t (List.mem_cons_of_mem _ (hperm.mem_iff.mpr (List.mem_append_left rest ht)))).symm
  have hdead : Untouched s (dead.foldl Sched.reap s) p := by
    clear hprocs hperm hp
    induction dead generalizing s with
    | nil => exact Untouched.refl s p
    | cons t dead ih =>
      exact (untouched_reap (hne t List.mem_cons_self)).trans
        (ih fun u hu => hne u (List.mem_cons_of_mem t hu))
  exact hdead.trans (hprocs.untouched p)

theorem untouched_mapTasks (s : Sched) (f : KernTask → KernTask) (p : ℕ) :
    Untouched s (s.mapTasks f) p := ⟨le_rfl, rfl, rfl, rfl⟩

theorem untouched_takeSignals (s : Sched) (mask : UInt32) (p : ℕ) :
    Untouched s (s.takeSignals mask) p := untouched_setProc rfl

theorem untouched_ipcSignalSend (s : Sched) (targetPid : ℤ) (mask : UInt32) (p : ℕ) :
    Untouched s (s.ipcSignalSend targetPid mask) p := by
  unfold Sched.ipcSignalSend
  split
  · exact Untouched.refl s p
  · cases s.schedGetByPid targetPid with
    | none => exact Untouched.refl s p
    | some target =>
      have hset : Untouched s (s.setProc target.process { s.procs target.process with
          pendingSignals := (s.procs target.process).pendingSignals ||| mask }) p :=
        untouched_setProc rfl
      exact hset.trans (untouched_mapTasks _ _ p)

theorem untouched_current (s : Sched) (c : KernTask) (p : ℕ) :
    Untouched s { s with current := c } p := ⟨le_rfl, rfl, rfl, rfl⟩

/-- What a step does to a process: `Kept`, and nothing if the process has no task and the caller does not
hold it. -/
structure Frame (s s' : Sched) (st : TaskStep) (p : ℕ) : Prop where
  kept : Kept s s' p
  untouched : (∀ t ∈ s.ring, t.process ≠ p) → st.subject ≠ some p → Untouched s s' p

theorem Untouched.frame {st : TaskStep} (h : Untouched s s' p) : Frame s s' st p :=
  ⟨h.kept, fun _ _ => h⟩

theorem frame_schedRunNext (s : Sched) (idleNeedsRun : Bool) (st : TaskStep) (p : ℕ) :
    Frame s (s.schedRunNext idleNeedsRun) st p :=
  ⟨kept_schedRunNext s idleNeedsRun p, fun hn _ => untouched_schedRunNext idleNeedsRun hn⟩

theorem frame_continueWait (s : Sched) (idleNeedsRun : Bool) (st : TaskStep) (p : ℕ) :
    Frame s (s.continueWait idleNeedsRun) st p := by
  unfold Sched.continueWait
  cases s.current.point with
  | outside => exact (Untouched.refl s p).frame
  | check mask =>
    dsimp only
    split
    · exact ((untouched_takeSignals s mask p).trans (untouched_current _ _ p)).frame
    · exact (untouched_current s _ p).frame
  | published mask => exact (untouched_current s _ p).frame
  | blocked mask =>
    have hnext := frame_schedRunNext { s with current := { s.current with point := .check mask } }
      idleNeedsRun st p
    refine ⟨(untouched_current s _ p).kept.trans hnext.kept, fun hn hsub => ?_⟩
    refine (untouched_current s _ p).trans (hnext.untouched ?_ hsub)
    exact List.forall_mem_cons.mpr ⟨(List.forall_mem_cons.mp hn).1, (List.forall_mem_cons.mp hn).2⟩

/-- What a step does to one process. -/
theorem frame_run (s : Sched) (st : TaskStep) (hp : p < s.created) : Frame s (st.run s) st p := by
  unfold TaskStep.run
  split
  · exact (Untouched.refl s p).frame
  cases st with
  | createProcess outcome => exact (untouched_processCreate outcome hp.ne).frame
  | createTask q outcome =>
    dsimp only
    split
    · refine ⟨kept_taskCreateInternal s p q outcome, fun _ hsub => ?_⟩
      exact untouched_taskCreateInternal outcome fun he => hsub (congrArg some he.symm)
    · exact (Untouched.refl s p).frame
  | discard q =>
    dsimp only
    split
    · refine ⟨kept_processExit s p q, fun _ hsub => ?_⟩
      exact untouched_processExit fun he => hsub (congrArg some he.symm)
    · exact (Untouched.refl s p).frame
  | adopt q =>
    dsimp only
    split
    · refine Untouched.frame (untouched_setProc ?_)
      rfl
    · exact (Untouched.refl s p).frame
  | threadExit => exact (untouched_current s _ p).frame
  | killProcess pid =>
    dsimp only [schedKillProcess]
    split
    · exact (Untouched.refl s p).frame
    · exact (untouched_mapTasks s _ p).frame
  | killChildren parentPid =>
    dsimp only [schedKillChildren]
    split
    · exact (Untouched.refl s p).frame
    · exact (untouched_mapTasks s _ p).frame
  | runNext idleNeedsRun => exact frame_schedRunNext s idleNeedsRun _ p
  | quakeExit =>
    refine ⟨kept_processExit s p _, fun hn _ => ?_⟩
    exact untouched_processExit (hn s.current List.mem_cons_self).symm
  | signalSend targetPid mask => exact (untouched_ipcSignalSend s targetPid mask p).frame
  | signalPoll mask => exact (untouched_takeSignals s mask p).frame
  | signalWait mask =>
    dsimp only [ipcSignalWait]
    split
    · exact (Untouched.refl s p).frame
    · exact (untouched_current s _ p).frame
  | continueWait idleNeedsRun => exact frame_continueWait s idleNeedsRun _ p

end Sched

/-! ## What is known of a spawn -/

/-- A call has read nothing released, and returns the pid that was assigned. -/
def Spawn.Right (sp : Spawn) : Prop :=
  sp.faulted = false ∧ ∀ pid, sp.point = .returned pid → pid = sp.pid

/-- What is known of a call, whatever else has run. -/
structure Spawn.Tracked (s : Sched) (sp : Spawn) : Prop where
  valid : sp.child < s.created
  user : sp.child ≠ kernelProcess
  nonneg : 0 ≤ sp.pid
  /-- Nothing happens to the child before it has a task. -/
  unstarted : sp.point.isUnstarted = true →
    s.releases sp.child = 0 ∧ s.started sp.child = false
  begun : sp.point.isUnstarted = false → sp.point.isOpen = true → s.started sp.child = true
  /-- The child keeps its pid until it is released. -/
  pid : s.releases sp.child = 0 → (s.procs sp.child).pid = sp.pid
  right : s.releases sp.child = 0 → sp.Right
  read : ∀ pid, sp.point = .waiting pid → sp.faulted = true ∨ pid = sp.pid
  /-- A call that has waited has read the released child. -/
  waited : ∀ pid, sp.point = .returned pid → sp.wait = true → sp.faulted = true

namespace Spawn

variable {s s' : Sched} {sp : Spawn}

theorem Tracked.kept (h : sp.Tracked s) (hk : Kept s s' sp.child)
    (hp : sp.point.isUnstarted = false) : sp.Tracked s' where
  valid := h.valid.trans_le hk.created
  user := h.user
  nonneg := h.nonneg
  unstarted hu := absurd hu (by simp [hp])
  begun _ ho := hk.started (h.begun hp ho)
  pid hz := (hk.live hz).2.trans (h.pid (hk.live hz).1)
  right hz := h.right (hk.live hz).1
  read := h.read
  waited := h.waited

theorem Tracked.untouched (h : sp.Tracked s) (hu : Untouched s s' sp.child) : sp.Tracked s' := by
  by_cases hp : sp.point.isUnstarted = true
  · obtain ⟨hz, hs⟩ := h.unstarted hp
    refine ⟨h.valid.trans_le hu.created, h.user, h.nonneg, fun _ => ?_, fun hf => ?_, fun _ => ?_,
      fun _ => h.right hz, h.read, h.waited⟩
    · exact ⟨hu.releases.trans hz, hu.started.trans hs⟩
    · exact absurd hp (by simp [hf])
    · exact hu.pid.trans (h.pid hz)
  · exact h.kept hu.kept (by simpa using hp)

/-- A call goes on, with what is known of its child. -/
theorem Tracked.goes {sp' : Spawn} (h : sp.Tracked s) (hk : Kept s s' sp.child)
    (hchild : sp'.child = sp.child) (hpid : sp'.pid = sp.pid)
    (unstarted : sp'.point.isUnstarted = true →
      s'.releases sp.child = 0 ∧ s'.started sp.child = false)
    (begun : sp'.point.isUnstarted = false → sp'.point.isOpen = true → s'.started sp.child = true)
    (right : s.releases sp.child = 0 → sp'.Right)
    (read : ∀ pid, sp'.point = .waiting pid → sp'.faulted = true ∨ pid = sp.pid)
    (waited : ∀ pid, sp'.point = .returned pid → sp'.wait = true → sp'.faulted = true) :
    sp'.Tracked s' where
  valid := hchild ▸ h.valid.trans_le hk.created
  user := hchild ▸ h.user
  nonneg := hpid ▸ h.nonneg
  unstarted := hchild ▸ unstarted
  begun := hchild ▸ begun
  pid hz := by
    rw [hchild] at hz ⊢
    rw [hpid]
    exact (hk.live hz).2.trans (h.pid (hk.live hz).1)
  right hz := right (hk.live (hchild ▸ hz)).1
  read := hpid ▸ read
  waited := waited

end Spawn

namespace SpawnState

/-- What is known of all calls. -/
structure Tracked (s : SpawnState) : Prop where
  held : s.sched.Held
  later : ∀ k, s.begun ≤ k → s.spawns k = none
  spawn : ∀ k sp, s.spawns k = some sp → sp.Tracked s.sched
  /-- Every call has a child of its own. -/
  distinct : ∀ j k sp sq, s.spawns j = some sp → s.spawns k = some sq → sp.child = sq.child → j = k

/-- What the `k`-th call may do in a step. -/
structure Moved (s s' : SpawnState) (k : ℕ) (sp sp' : Spawn) : Prop where
  isOpen : sp.point.isOpen = true
  begun : s'.begun = s.begun
  spawns : s'.spawns = Function.update s.spawns k (some sp')
  held : s'.sched.Held
  child : sp'.child = sp.child
  others : ∀ p, p ≠ sp.child → Untouched s.sched s'.sched p
  tracked : sp'.Tracked s'.sched
  keeps : sp'.point.isOpen = true → s.sched.releases sp.child = 0 → s'.sched.releases sp.child = 0
  right : s.sched.releases sp.child = 0 → sp'.Right

variable {s s' : SpawnState} {k : ℕ} {sp sp' : Spawn}

theorem Tracked.init : SpawnState.init.Tracked where
  held := Held.init
  later _ _ := rfl
  spawn _ _ h := nomatch h
  distinct _ _ _ _ h := nomatch h

/-- A process that is held is the child of a call that has not created its task. -/
theorem Tracked.holds (h : s.Tracked) (hsp : s.spawns k = some sp)
    (hp : sp.point.isUnstarted = true) : s.holds sp.child = true := by
  have hk : k < s.begun := by
    by_contra hle
    rw [h.later k (not_lt.mp hle)] at hsp
    cases hsp
  unfold SpawnState.holds
  rw [List.any_eq_true]
  refine ⟨k, List.mem_range.mpr hk, ?_⟩
  rw [hsp]
  simp [hp]

/-- What the `k`-th call does leaves the other calls as they are. -/
theorem Tracked.moved (h : s.Tracked) (hsp : s.spawns k = some sp) (hm : Moved s s' k sp sp') :
    s'.Tracked := by
  have hcases : ∀ j sq, s'.spawns j = some sq →
      (j = k ∧ sq = sp') ∨ (j ≠ k ∧ s.spawns j = some sq) := by
    intro j sq hj
    rw [hm.spawns] at hj
    by_cases hjk : j = k
    · subst hjk
      rw [Function.update_self] at hj
      exact .inl ⟨rfl, (Option.some.inj hj).symm⟩
    · rw [Function.update_of_ne hjk] at hj
      exact .inr ⟨hjk, hj⟩
  refine ⟨hm.held, fun j hj => ?_, fun j sq hj => ?_, fun i j sq sr hi hj he => ?_⟩
  · have hjk : j ≠ k := by
      rintro rfl
      rw [h.later j (hm.begun ▸ hj)] at hsp
      cases hsp
    rw [hm.spawns, Function.update_of_ne hjk]
    exact h.later j (hm.begun ▸ hj)
  · rcases hcases j sq hj with ⟨-, rfl⟩ | ⟨hjk, hj⟩
    · exact hm.tracked
    · refine (h.spawn j sq hj).untouched (hm.others sq.child fun he => hjk ?_)
      exact h.distinct j k sq sp hj hsp he
  · rcases hcases i sq hi with ⟨rfl, rfl⟩ | ⟨-, hi⟩ <;> rcases hcases j sr hj with ⟨rfl, rfl⟩ | ⟨-, hj⟩
    · rfl
    · exact h.distinct i j sp sr hsp hj (hm.child ▸ he)
    · exact h.distinct i j sq sp hi hsp (he.trans hm.child)
    · exact h.distinct i j sq sr hi hj he

/-! ## The steps of a spawn -/

theorem isReleased_eq_false {p : ℕ} : s.isReleased p = false ↔ s.sched.releases p = 0 := by
  simp [isReleased]

theorem moved_spawnFill (h : s.Tracked) (hsp : s.spawns k = some sp) (hpoint : sp.point = .created)
    (memory : Bool) : ∃ sp', Moved s (s.spawnFill k sp memory) k sp sp' := by
  have ht := h.spawn k sp hsp
  obtain ⟨hz, hst⟩ := ht.unstarted (by rw [hpoint]; rfl)
  obtain ⟨hf, -⟩ := ht.right hz
  have hopen : sp.point.isOpen = true := by rw [hpoint]; rfl
  have hchild := isReleased_eq_false.mpr hz
  unfold spawnFill
  cases memory with
  | true =>
    have hcur := isReleased_eq_false.mpr (h.held.tallied.live s.sched.current List.mem_cons_self)
    have hset : ∀ p, Untouched s.sched (s.sched.setProc sp.child { s.sched.procs sp.child with
        stdoutParentPid := (s.sched.procs s.sched.current.process).pid }) p :=
      fun p => untouched_setProc rfl
    refine ⟨_, hopen, rfl, rfl, h.held.setProc rfl rfl, rfl, fun p _ => hset p, ?_, fun _ hz => hz, ?_⟩
    · refine ht.goes (hset sp.child).kept rfl rfl (fun _ => ⟨hz, hst⟩) (fun hu => nomatch hu) ?_
        (fun _ hw => nomatch hw) (fun _ hr => nomatch hr)
      exact fun _ => ⟨by simp [hf, hchild, hcur], fun _ hr => nomatch hr⟩
    · exact fun _ => ⟨by simp [hf, hchild, hcur], fun _ hr => nomatch hr⟩
  | false =>
    have hright : ({ sp with point := .failed, faulted := sp.faulted || s.isReleased sp.child } :
        Spawn).Right := ⟨by simp [hf, hchild], fun _ hr => nomatch hr⟩
    refine ⟨_, hopen, rfl, rfl, h.held.discard ⟨ht.valid, hz⟩ hst, rfl,
      fun p hp => untouched_processExit hp, ?_, fun ho => (nomatch ho), fun _ => hright⟩
    exact ht.goes (kept_processExit _ _ _) rfl rfl (fun hu => nomatch hu) (fun _ ho => nomatch ho)
      (fun _ => hright) (fun _ hw => nomatch hw) (fun _ hr => nomatch hr)

theorem moved_spawnStart (h : s.Tracked) (hsp : s.spawns k = some sp) (hpoint : sp.point = .filled)
    (outcome : AllocOutcome) : ∃ sp', Moved s (s.spawnStart k sp outcome) k sp sp' := by
  have ht := h.spawn k sp hsp
  obtain ⟨hz, hst⟩ := ht.unstarted (by rw [hpoint]; rfl)
  obtain ⟨hf, -⟩ := ht.right hz
  have hopen : sp.point.isOpen = true := by rw [hpoint]; rfl
  have hchild := isReleased_eq_false.mpr hz
  have hlive : s.sched.IsLive sp.child := ⟨ht.valid, hz⟩
  have hheld := h.held.taskCreateInternal hlive outcome
  have hothers : ∀ p, p ≠ sp.child → Untouched s.sched (s.sched.taskCreateInternal sp.child outcome) p :=
    fun p hp => untouched_taskCreateInternal outcome hp
  have hkept := kept_taskCreateInternal s.sched sp.child sp.child outcome
  unfold spawnStart
  by_cases ho : outcome = .ok
  · rw [if_pos ho]
    subst ho
    refine ⟨_, hopen, rfl, rfl, hheld, rfl, hothers, ?_, fun _ hz => hz, ?_⟩
    · refine ht.goes hkept rfl rfl (fun hu => nomatch hu) (fun _ _ => ?_) ?_
        (fun _ hw => nomatch hw) (fun _ hr => nomatch hr)
      · exact Function.update_self _ _ _
      · exact fun _ => ⟨by simp [hf, hchild], fun _ hr => nomatch hr⟩
    · exact fun _ => ⟨by simp [hf, hchild], fun _ hr => nomatch hr⟩
  · rw [if_neg ho]
    have hright : ({ sp with point := .failed, faulted := sp.faulted || s.isReleased sp.child } :
        Spawn).Right := ⟨by simp [hf, hchild], fun _ hr => nomatch hr⟩
    have hnone : (s.sched.taskCreateInternal sp.child outcome).IsLive sp.child ∧
        (s.sched.taskCreateInternal sp.child outcome).started sp.child = false := by
      cases outcome with
      | ok => exact absurd rfl ho
      | noObject | noPages => exact ⟨hlive, hst⟩
    refine ⟨_, hopen, rfl, rfl, hheld.discard hnone.1 hnone.2, rfl, fun p hp => ?_, ?_, fun ho => (nomatch ho),
      fun _ => hright⟩
    · exact (hothers p hp).trans (untouched_processExit hp)
    · exact ht.goes (hkept.trans (kept_processExit _ _ _)) rfl rfl (fun hu => nomatch hu)
        (fun _ ho => nomatch ho) (fun _ => hright) (fun _ hw => nomatch hw) (fun _ hr => nomatch hr)

/-- A read of the pid of a child that is not released is right. -/
theorem readPid_eq (h : sp.Tracked s.sched) (hz : s.sched.releases sp.child = 0) (junk : ℤ) :
    s.readPid sp junk = sp.pid := by
  unfold readPid
  rw [isReleased_eq_false.mpr hz, if_neg Bool.false_ne_true]
  exact h.pid hz

/-- A call that returns, with whatever fault it has had meanwhile. If it has waited, the child is not in
the ring any more, or it has waited for another. -/
theorem moved_spawnReturn (h : s.Tracked) (hsp : s.spawns k = some sp)
    (hopen : sp.point.isOpen = true) (fault : Bool)
    (hfault : s.sched.releases sp.child = 0 → fault = false) (junk : ℤ)
    (hwait : sp.wait = true → fault = true ∨ s.sched.releases sp.child ≠ 0) :
    ∃ sp', Moved s (s.spawnReturn k { sp with faulted := fault } junk) k sp sp' := by
  have ht := h.spawn k sp hsp
  have hright : s.sched.releases sp.child = 0 →
      ({ sp with point := .returned (s.readPid { sp with faulted := fault } junk)
                 faulted := fault || s.isReleased sp.child } : Spawn).Right := by
    intro hz
    refine ⟨by simp [hfault hz, isReleased_eq_false.mpr hz], fun pid hr => ?_⟩
    rw [← SpawnPoint.returned.inj hr]
    exact readPid_eq ht hz junk
  unfold spawnReturn
  refine ⟨_, hopen, rfl, rfl, h.held, rfl, fun p _ => Untouched.refl _ p, ?_, fun ho => (nomatch ho), hright⟩
  refine ht.goes (Untouched.refl _ _).kept rfl rfl (fun hu => nomatch hu) (fun _ ho => nomatch ho)
    hright (fun _ hw => nomatch hw) (fun pid _ hw => ?_)
  rcases hwait hw with hf | hr
  · simp [hf]
  · simp [isReleased, hr]

theorem mem_fromHead {s : Sched} {t : KernTask} (h : t ∈ s.ring) : t ∈ s.fromHead := by
  unfold Sched.fromHead
  rw [List.mem_append, or_comm, ← List.mem_append, List.takeWhile_append_dropWhile]
  exact h

/-- As long as a child with a task is not released, it is found by its pid. -/
theorem schedGetByPid_ne_none (h : s.Tracked) (ht : sp.Tracked s.sched)
    (hst : s.sched.started sp.child = true) (hz : s.sched.releases sp.child = 0) :
    s.sched.schedGetByPid sp.pid ≠ none := by
  have htask : ∃ t ∈ s.sched.ring, t.process = sp.child := by
    by_contra hn
    push Not at hn
    have hone := h.held.ended sp.child ht.user hst hn
    omega
  obtain ⟨t, hmem, hproc⟩ := htask
  unfold schedGetByPid
  rw [if_neg (not_lt.mpr ht.nonneg)]
  intro hnone
  have hpid := List.find?_eq_none.mp hnone t (mem_fromHead hmem)
  rw [hproc, ht.pid hz] at hpid
  exact hpid (by simp)

theorem moved_spawnNext (h : s.Tracked) (hsp : s.spawns k = some sp) (junk : ℤ) (ctrlC : Bool) :
    s.spawnNext k sp junk ctrlC = s ∨ ∃ sp', Moved s (s.spawnNext k sp junk ctrlC) k sp sp' := by
  have ht := h.spawn k sp hsp
  unfold spawnNext
  cases hpoint : sp.point with
  | created | filled | returned | failed => exact .inl rfl
  | started =>
    have hopen : sp.point.isOpen = true := by rw [hpoint]; rfl
    have hst := ht.begun (by rw [hpoint]; rfl) hopen
    dsimp only
    by_cases hw : sp.wait = true
    · rw [if_pos hw]
      refine .inr ⟨_, hopen, rfl, rfl, h.held, rfl, fun p _ => Untouched.refl _ p, ?_, fun _ hz => hz, ?_⟩
      · refine ht.goes (Untouched.refl _ _).kept rfl rfl (fun hu => nomatch hu) (fun _ _ => hst) ?_
          (fun pid hpid => ?_) (fun _ hr => nomatch hr)
        · intro hz
          exact ⟨by simp [(ht.right hz).1, isReleased_eq_false.mpr hz], fun _ hr => nomatch hr⟩
        · by_cases hz : s.sched.releases sp.child = 0
          · right
            rw [← SpawnPoint.waiting.inj hpid]
            exact readPid_eq ht hz junk
          · left
            simp [isReleased, hz]
      · intro hz
        exact ⟨by simp [(ht.right hz).1, isReleased_eq_false.mpr hz], fun _ hr => nomatch hr⟩
    · rw [if_neg hw]
      have hret := moved_spawnReturn h hsp hopen sp.faulted (fun hz => (ht.right hz).1) junk
        fun hw' => absurd hw' hw
      exact .inr hret
  | waiting pid =>
    have hopen : sp.point.isOpen = true := by rw [hpoint]; rfl
    have hst := ht.begun (by rw [hpoint]; rfl) hopen
    have hring : (s.sched.ring.any fun t => s.isReleased t.process) = false := by
      rw [List.any_eq_false]
      intro t hmem
      simpa using isReleased_eq_false.mpr (h.held.tallied.live t hmem)
    dsimp only
    rw [hring, Bool.or_false]
    right
    cases hget : s.sched.schedGetByPid pid with
    | none =>
      refine moved_spawnReturn h hsp hopen sp.faulted (fun hz => (ht.right hz).1) junk fun _ => ?_
      rcases ht.read pid hpoint with hf | rfl
      · exact .inl hf
      · exact .inr fun hz => schedGetByPid_ne_none h ht hst hz hget
    | some _ =>
      dsimp only
      rw [← hpoint]
      split
      · have hkill : ∀ p, Untouched s.sched (s.sched.schedKillProcess pid) p := by
          intro p
          unfold schedKillProcess
          split
          · exact Untouched.refl _ p
          · exact untouched_mapTasks _ _ p
        have hheld : (s.sched.schedKillProcess pid).Held := by
          unfold schedKillProcess
          split
          · exact h.held
          · exact h.held.killWhere _
        have ht' := ht.untouched (hkill sp.child)
        refine ⟨_, hopen, rfl, rfl, hheld, rfl, fun p _ => hkill p, ?_, fun _ hz => ?_, ht.right⟩
        · exact ht.goes (hkill _).kept rfl rfl ht'.unstarted ht'.begun ht.right ht.read ht.waited
        · exact (hkill sp.child).releases.trans hz
      · exact ⟨_, hopen, rfl, rfl, h.held, rfl, fun p _ => Untouched.refl _ p, ht, fun _ hz => hz, ht.right⟩

end SpawnState

/-! ## Runs -/

open SpawnState

namespace SpawnState

/-- A step of the kernel has a pid left, if it creates a process, and is not the exit of a native
application. -/
def Regular (s : SpawnState) : SpawnStep → Prop
  | .kernel st => s.sched.PidsLeft st ∧ s.sched.NoNativeExit st
  | .spawn _ _ _ => s.sched.created < 2 ^ 31
  | _ => True

/-- A step of the kernel does not release the child of a call of `wasm_spawn` that has not returned. -/
def KeepsChildren (s : SpawnState) : SpawnStep → Prop
  | .kernel st => ∀ k < s.begun, match s.spawns k with
    | none => True
    | some sp => sp.point.isOpen = true →
      (SpawnStep.run s (.kernel st)).sched.releases sp.child = s.sched.releases sp.child
  | _ => True

instance (s : Sched) : (st : TaskStep) → Decidable (s.PidsLeft st)
  | .createProcess _ => inferInstanceAs (Decidable (s.created < 2 ^ 31))
  | .createTask .. | .discard _ | .adopt _ | .threadExit | .killProcess _ | .killChildren _ | .runNext _ | .quakeExit
  | .signalSend .. | .signalPoll _ | .signalWait _ | .continueWait _ => .isTrue trivial

instance (s : Sched) : (st : TaskStep) → Decidable (s.NoNativeExit st)
  | .quakeExit => inferInstanceAs (Decidable (s.current.point ≠ .outside ∨ s.current.process = kernelProcess))
  | .createProcess _ | .createTask .. | .discard _ | .adopt _ | .threadExit | .killProcess _ | .killChildren _
  | .runNext _ | .signalSend .. | .signalPoll _ | .signalWait _ | .continueWait _ => .isTrue trivial

instance (s : SpawnState) : (st : SpawnStep) → Decidable (s.Regular st)
  | .kernel st => inferInstanceAs (Decidable (s.sched.PidsLeft st ∧ s.sched.NoNativeExit st))
  | .spawn _ _ _ => inferInstanceAs (Decidable (s.sched.created < 2 ^ 31))
  | .fill .. | .start .. | .next .. => .isTrue trivial

instance (s : SpawnState) : (st : SpawnStep) → Decidable (s.KeepsChildren st)
  | .kernel st =>
    @Nat.decidableBallLT s.begun _ fun k _ =>
      match s.spawns k with
      | none => .isTrue trivial
      | some sp => inferInstanceAs (Decidable (sp.point.isOpen = true →
          (SpawnStep.run s (.kernel st)).sched.releases sp.child = s.sched.releases sp.child))
  | .spawn .. | .fill .. | .start .. | .next .. => .isTrue trivial

/-- Every call is right. -/
def Right (s : SpawnState) : Prop := ∀ k sp, s.spawns k = some sp → sp.Right

/-- Every call that has waited for its child has read a released object. -/
def WaitFaults (s : SpawnState) : Prop :=
  ∀ k sp, s.spawns k = some sp → sp.wait = true → ∀ pid, sp.point = .returned pid → sp.faulted = true

variable {s : SpawnState}

/-- The kernel goes on: nothing happens to a child without a task, since its spawn holds it. -/
theorem Tracked.kernel (h : s.Tracked) {st : TaskStep} (hr : s.Regular (.kernel st)) :
    (SpawnStep.run s (.kernel st)).Tracked := by
  dsimp only [SpawnStep.run]
  split
  next => exact h
  next hfree =>
    refine ⟨h.held.run hr.1 hr.2, h.later, fun k sp hsp => ?_, h.distinct⟩
    have ht := h.spawn k sp hsp
    have hframe := frame_run s.sched st ht.valid
    by_cases hp : sp.point.isUnstarted = true
    · have hnone : ∀ t ∈ s.sched.ring, t.process ≠ sp.child := by
        intro t hmem he
        have hbegun := h.held.tallied.begun t hmem
        rw [he, (ht.unstarted hp).2] at hbegun
        exact Bool.false_ne_true hbegun
      refine ht.untouched (hframe.untouched hnone fun hsub => hfree (.inl ?_))
      rw [hsub]
      exact h.holds hsp hp
    · exact ht.kept hframe.kept (by simpa using hp)

/-- A new call has a new child. -/
theorem Tracked.spawnBegin (h : s.Tracked) (wait foreground : Bool) (outcome : AllocOutcome)
    (hlt : s.sched.created < 2 ^ 31) : (s.spawnBegin wait foreground outcome).Tracked := by
  have hheld := h.held.processCreate outcome hlt
  have hold : ∀ k sp, s.spawns k = some sp → sp.child ≠ s.sched.created ∧
      sp.Tracked (s.sched.processCreate outcome) := by
    intro k sp hsp
    have ht := h.spawn k sp hsp
    exact ⟨ht.valid.ne, ht.untouched (untouched_processCreate outcome ht.valid.ne)⟩
  unfold SpawnState.spawnBegin
  dsimp only
  by_cases ho : outcome = .ok
  · rw [if_pos ho]
    subst ho
    have hid : ((s.sched.processCreate .ok).procs s.sched.created).pid = s.sched.created := by
      have hprocs : (s.sched.processCreate .ok).procs s.sched.created =
          ⟨i32 (s.sched.processIdC + 1), 0, 0, -1⟩ := Function.update_self _ _ _
      rw [hprocs, h.held.tallied.ids]
      dsimp only
      exact i32_of_lt hlt
    have hzero : (s.sched.processCreate .ok).releases s.sched.created = 0 := Function.update_self _ _ _
    have huser : s.sched.created ≠ kernelProcess := by
      have hcur := h.held.tallied.valid s.sched.current List.mem_cons_self
      exact Nat.ne_of_gt (Nat.zero_lt_of_lt hcur)
    generalize hnew : (⟨s.sched.current.addr, s.sched.created,
      ((s.sched.processCreate .ok).procs s.sched.created).pid, wait, foreground, .created, false,
      false⟩ : Spawn) = new
    have hchild : new.child = s.sched.created := by rw [← hnew]
    have hnewt : new.Tracked (s.sched.processCreate .ok) := by
      rw [← hnew]
      refine ⟨Nat.lt_succ_self _, huser, ?_, fun _ => ⟨hzero, h.held.tallied.fresh _ le_rfl⟩,
        fun hu => (nomatch hu), fun _ => rfl, fun _ => ⟨rfl, fun _ hr => nomatch hr⟩,
        fun _ hw => (nomatch hw), fun _ hr => nomatch hr⟩
      dsimp only
      rw [hid]
      exact Int.natCast_nonneg _
    have hcases : ∀ k sp, Function.update s.spawns s.begun (some new) k = some sp →
        (k = s.begun ∧ sp = new) ∨ s.spawns k = some sp := by
      intro k sp hk
      by_cases hkb : k = s.begun
      · subst hkb
        rw [Function.update_self] at hk
        exact .inl ⟨rfl, (Option.some.inj hk).symm⟩
      · rw [Function.update_of_ne hkb] at hk
        exact .inr hk
    refine ⟨hheld, fun k hk => ?_, fun k sp hk => ?_, fun j k sp sq hj hk he => ?_⟩
    · dsimp only at hk ⊢
      rw [Function.update_of_ne (by omega)]
      exact h.later k (by omega)
    · rcases hcases k sp hk with ⟨-, rfl⟩ | hk'
      · exact hnewt
      · exact (hold k sp hk').2
    · rcases hcases j sp hj with ⟨rfl, rfl⟩ | hj' <;>
        rcases hcases k sq hk with ⟨rfl, rfl⟩ | hk'
      · rfl
      · exact absurd (he.symm.trans hchild) (hold k sq hk').1
      · exact absurd (he.trans hchild) (hold j sp hj').1
      · exact h.distinct j k sp sq hj' hk' he
  · rw [if_neg ho]
    exact ⟨hheld, h.later, fun k sp hsp => (hold k sp hsp).2, h.distinct⟩

/-- What a step does that is not one of the kernel: nothing, a new call, or a step of a call. -/
theorem run_cases (h : s.Tracked) (st : SpawnStep) :
    SpawnStep.run s st = s ∨ (∃ step, st = .kernel step) ∨
      (∃ wait foreground outcome, st = .spawn wait foreground outcome ∧
        SpawnStep.run s st = s.spawnBegin wait foreground outcome) ∨
      ∃ k sp sp', s.spawns k = some sp ∧ Moved s (SpawnStep.run s st) k sp sp' := by
  cases st with
  | kernel step => exact .inr (.inl ⟨step, rfl⟩)
  | spawn wait foreground outcome =>
    dsimp only [SpawnStep.run]
    split
    · exact .inl rfl
    · exact .inr (.inr (.inl ⟨wait, foreground, outcome, rfl, rfl⟩))
  | fill k memory =>
    dsimp only [SpawnStep.run]
    cases hsp : s.spawns k with
    | none => exact .inl rfl
    | some sp =>
      dsimp only
      split_ifs with htask hpoint
      · obtain ⟨sp', hm⟩ := moved_spawnFill h hsp hpoint memory
        exact .inr (.inr (.inr ⟨k, sp, sp', hsp, hm⟩))
      · exact .inl rfl
      · exact .inl rfl
  | start k outcome =>
    dsimp only [SpawnStep.run]
    cases hsp : s.spawns k with
    | none => exact .inl rfl
    | some sp =>
      dsimp only
      split_ifs with htask hpoint
      · obtain ⟨sp', hm⟩ := moved_spawnStart h hsp hpoint outcome
        exact .inr (.inr (.inr ⟨k, sp, sp', hsp, hm⟩))
      · exact .inl rfl
      · exact .inl rfl
  | next k junk ctrlC =>
    dsimp only [SpawnStep.run]
    cases hsp : s.spawns k with
    | none => exact .inl rfl
    | some sp =>
      dsimp only
      split_ifs with htask
      · rcases moved_spawnNext h hsp junk ctrlC with he | ⟨sp', hm⟩
        · exact .inl he
        · exact .inr (.inr (.inr ⟨k, sp, sp', hsp, hm⟩))
      · exact .inl rfl

theorem Tracked.run (h : s.Tracked) {st : SpawnStep} (hr : s.Regular st) :
    (SpawnStep.run s st).Tracked := by
  rcases run_cases h st with he | ⟨step, rfl⟩ | ⟨wait, foreground, outcome, rfl, he⟩ |
    ⟨k, sp, sp', hsp, hm⟩
  · rw [he]
    exact h
  · exact h.kernel hr
  · rw [he]
    exact h.spawnBegin wait foreground outcome hr
  · exact h.moved hsp hm

/-- Every call is right, and the child of one that has not returned is not released. -/
def Sound (s : SpawnState) : Prop :=
  ∀ k sp, s.spawns k = some sp →
    sp.Right ∧ (sp.point.isOpen = true → s.sched.releases sp.child = 0)

theorem spawnBegin_spawns {wait foreground : Bool} {outcome : AllocOutcome} {k : ℕ} {sp : Spawn}
    (hk : (s.spawnBegin wait foreground outcome).spawns k = some sp) :
    s.spawns k = some sp ∨ sp.point = .created := by
  unfold SpawnState.spawnBegin at hk
  dsimp only at hk
  split at hk
  · by_cases hkb : k = s.begun
    · subst hkb
      dsimp only at hk
      rw [Function.update_self] at hk
      exact .inr (Option.some.inj hk ▸ rfl)
    · dsimp only at hk
      rw [Function.update_of_ne hkb] at hk
      exact .inl hk
  · exact .inl hk

theorem spawnBegin_sched (s : SpawnState) (wait foreground : Bool) (outcome : AllocOutcome) :
    (s.spawnBegin wait foreground outcome).sched = s.sched.processCreate outcome := by
  unfold SpawnState.spawnBegin
  dsimp only
  split <;> rfl

/-- Calls stay right as long as their children are not released. -/
theorem Sound.run (hs : s.Sound) (h : s.Tracked) {st : SpawnStep} (hr : s.Regular st)
    (hkeep : s.KeepsChildren st) : (SpawnStep.run s st).Sound := by
  have h' := h.run hr
  intro j sq hj
  rcases run_cases h st with he | ⟨step, rfl⟩ | ⟨wait, foreground, outcome, rfl, he⟩ |
    ⟨k, sp, sp', hsp, hm⟩
  · rw [he] at hj ⊢
    exact hs j sq hj
  · have hj' : s.spawns j = some sq := by
      rw [← hj]
      dsimp only [SpawnStep.run]
      split <;> rfl
    have hlt : j < s.begun := by
      by_contra hle
      rw [h.later j (not_lt.mp hle)] at hj'
      cases hj'
    have hsame := hkeep j hlt
    rw [hj'] at hsame
    obtain ⟨hright, hopen⟩ := hs j sq hj'
    exact ⟨hright, fun ho => (hsame ho).trans (hopen ho)⟩
  · have ht' := h'.spawn j sq hj
    rw [he] at hj ⊢
    rcases spawnBegin_spawns hj with hj | hpoint
    · obtain ⟨hright, hopen⟩ := hs j sq hj
      have hne := (h.spawn j sq hj).valid.ne
      rw [spawnBegin_sched]
      exact ⟨hright, fun ho => (untouched_processCreate outcome hne).releases.trans (hopen ho)⟩
    · rw [he] at ht'
      have hz := (ht'.unstarted (by rw [hpoint]; rfl)).1
      exact ⟨ht'.right hz, fun _ => hz⟩
  · have hz := (hs k sp hsp).2 hm.isOpen
    rw [hm.spawns] at hj
    by_cases hjk : j = k
    · subst hjk
      rw [Function.update_self] at hj
      obtain rfl := Option.some.inj hj
      exact ⟨hm.right hz, fun ho => hm.child ▸ hm.keeps ho hz⟩
    · rw [Function.update_of_ne hjk] at hj
      obtain ⟨hright, hopen⟩ := hs j sq hj
      have hne : sq.child ≠ sp.child := fun he => hjk (h.distinct j k sq sp hj hsp he)
      exact ⟨hright, fun ho => (hm.others _ hne).releases.trans (hopen ho)⟩

end SpawnState

/-- What spawns return. In every run from the start without the exit of a native application, in which
the pids do not run out: if no step of the kernel releases the child of a call of `wasm_spawn` that has
not returned, then every call returns the pid that was assigned and reads nothing released; and a call
that waits for its child has always read the released child when it returns. -/
theorem spawns_sound (steps : List SpawnStep)
    (h : Along (fun s st => SpawnStep.run s st) SpawnState.Regular SpawnState.init steps) :
    (Along (fun s st => SpawnStep.run s st) SpawnState.KeepsChildren SpawnState.init steps →
        Always (fun s st => SpawnStep.run s st) SpawnState.Right SpawnState.init steps) ∧
      Always (fun s st => SpawnStep.run s st) SpawnState.WaitFaults SpawnState.init steps := by
  constructor
  · intro hkeep
    have hsound : Always (fun s st => SpawnStep.run s st) (fun s => s.Tracked ∧ s.Sound)
        SpawnState.init steps :=
      always_of_along (fun s st hs hc => ⟨hs.1.run hc.1, hs.2.run hs.1 hc.1 hc.2⟩)
        ⟨SpawnState.Tracked.init, fun _ _ hsp => nomatch hsp⟩ (h.and hkeep)
    exact hsound.mono fun s hs k sp hsp => (hs.2 k sp hsp).1
  · have htracked : Always (fun s st => SpawnStep.run s st) SpawnState.Tracked SpawnState.init steps :=
      always_of_along (fun s st hs hr => hs.run hr) SpawnState.Tracked.init h
    exact htracked.mono fun s hs k sp hsp hw pid hpoint => (hs.spawn k sp hsp).waited pid hpoint hw

/-- The shell starts a program, which the timer runs only after the call has returned. -/
def promptReturn : List SpawnStep :=
  [.spawn false true .ok, .fill 0 true, .start 0 .ok, .next 0 (-1) false, .kernel (.runNext false),
    .kernel .threadExit, .kernel (.runNext true), .kernel (.runNext true)]

theorem spawns_sound_promptReturn :
    Always (fun s st => SpawnStep.run s st) SpawnState.Right SpawnState.init promptReturn ∧
      Always (fun s st => SpawnStep.run s st) SpawnState.WaitFaults SpawnState.init promptReturn := by
  obtain ⟨hright, hwait⟩ := spawns_sound promptReturn (by decide +kernel)
  exact ⟨hright (by decide +kernel), hwait⟩

/-- The shell starts a program, which the timer runs to its end before the call has returned: the program
is reaped, and the pid is read from the released process. -/
def lateReturn : List SpawnStep :=
  [.spawn false true .ok, .fill 0 true, .start 0 .ok, .kernel (.runNext false), .kernel .threadExit,
    .kernel (.runNext true), .kernel (.runNext true), .next 0 (-1) false]

theorem lateReturn_not_right :
    Along (fun s st => SpawnStep.run s st) SpawnState.Regular SpawnState.init lateReturn ∧
      ¬ Always (fun s st => SpawnStep.run s st) SpawnState.Right SpawnState.init lateReturn := by
  refine ⟨by decide +kernel, fun h => ?_⟩
  have hspawn : (runAll (fun s st => SpawnStep.run s st) SpawnState.init lateReturn).spawns 0 =
      some ⟨0, 1, 1, false, true, .returned (-1), false, true⟩ := by decide +kernel
  exact absurd ((h.last 0 _ hspawn).2 (-1) rfl) (by decide)

end Sandflea
