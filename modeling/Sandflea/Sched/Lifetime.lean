import Sandflea.Ipc.Signals
import Sandflea.Sched.RunNext

/-!
# The lifetime of processes

A process lives from `process_create` to `process_exit`, which `sched_run_next` calls when it reaps the
last task of the process. `Lifetimes` says that counters and releases are right: `thread_count` is the
number of tasks in the ring, no task in it belongs to a released process, no process is released twice,
and one that has lost its last task is released.

`lifetimes_iff` says that this is so in all runs without the exit of a native application:
`wasm_quake_game` releases its own process while its task is still in the ring.
-/

namespace Sandflea

open Runs Sched

namespace Sched

/-- The number of tasks of a process in a list. -/
def tasksOf (p : ℕ) (ts : List KernTask) : ℕ := (ts.map KernTask.process).count p

/-- The counters and releases of processes are right for the tasks in the ring. -/
structure Lifetimes (s : Sched) : Prop where
  /-- The counter of a live process is the number of its tasks. -/
  counts : ∀ p, s.IsLive p → (s.procs p).threadCount = tasksOf p s.ring
  /-- No task belongs to a released process. -/
  live : ∀ t ∈ s.ring, s.releases t.process = 0
  /-- No process is released twice. -/
  once : ∀ p, s.releases p ≤ 1
  /-- A process that has lost its last task is released. The kernel process is not. -/
  ended : ∀ p, p ≠ kernelProcess → s.started p = true → (∀ t ∈ s.ring, t.process ≠ p) →
    s.releases p = 1

/-- A step is not the exit of a native application, in a process of its own. -/
def NoNativeExit (s : Sched) : TaskStep → Prop
  | .quakeExit => s.current.point ≠ .outside ∨ s.current.process = kernelProcess
  | _ => True

/-! ## The invariant -/

/-- What is known of the processes, with the tasks of a list, except that a process without a task may not
be released yet. -/
structure Tallied (s : Sched) (ts : List KernTask) : Prop where
  ids : s.processIdC + 1 = s.created
  valid : ∀ t ∈ ts, t.process < s.created
  live : ∀ t ∈ ts, s.releases t.process = 0
  begun : ∀ t ∈ ts, s.started t.process = true
  counts : ∀ p, s.IsLive p → (s.procs p).threadCount = tasksOf p ts
  once : ∀ p, s.releases p ≤ 1
  pids : ∀ p, s.IsLive p → (s.procs p).pid ≠ -1
  fresh : ∀ p, s.created ≤ p → s.started p = false

/-- A process without a task, among those of a list, was released if it ever had one. -/
def Ended (s : Sched) (ts : List KernTask) : Prop :=
  ∀ p, p ≠ kernelProcess → s.started p = true → (∀ t ∈ ts, t.process ≠ p) → s.releases p = 1

variable {s s' : Sched} {ts ts' : List KernTask}

theorem tasksOf_eq_zero {p : ℕ} : tasksOf p ts = 0 ↔ ∀ t ∈ ts, t.process ≠ p := by
  unfold tasksOf
  rw [List.count_eq_zero, List.mem_map]
  exact ⟨fun h t ht he => h ⟨t, ht, he⟩, fun h ⟨t, ht, he⟩ => h t ht he⟩

theorem Tallied.perm (h : s.Tallied ts) (hp : ts.Perm ts') : s.Tallied ts' where
  ids := h.ids
  valid t ht := h.valid t (hp.mem_iff.mpr ht)
  live t ht := h.live t (hp.mem_iff.mpr ht)
  begun t ht := h.begun t (hp.mem_iff.mpr ht)
  counts p hl := by
    rw [h.counts p hl]
    unfold tasksOf
    rw [(hp.map _).count_eq]
  once := h.once
  pids := h.pids
  fresh := h.fresh

theorem Ended.perm (h : s.Ended ts) (hp : ts.Perm ts') : s.Ended ts' :=
  fun p hk hs hn => h p hk hs fun t ht => hn t (hp.mem_iff.mp ht)

theorem SameProcs.isLive (h : SameProcs s s') (p : ℕ) : s'.IsLive p ↔ s.IsLive p := by
  unfold IsLive
  rw [h.created, h.releases]

theorem Tallied.congr (h : s.Tallied ts) (hs : SameProcs s s') : s'.Tallied ts where
  ids := by rw [hs.processIdC, hs.created, h.ids]
  valid t ht := by
    rw [hs.created]
    exact h.valid t ht
  live t ht := by
    rw [hs.releases]
    exact h.live t ht
  begun t ht := by
    rw [hs.started]
    exact h.begun t ht
  counts p hl := by
    rw [hs.procs]
    exact h.counts p ((hs.isLive p).mp hl)
  once p := by
    rw [hs.releases]
    exact h.once p
  pids p hl := by
    rw [hs.procs]
    exact h.pids p ((hs.isLive p).mp hl)
  fresh p hp := by
    rw [hs.started]
    exact h.fresh p (hs.created ▸ hp)

theorem Ended.congr (h : s.Ended ts) (hs : SameProcs s s') : s'.Ended ts := by
  intro p hk hst hn
  rw [hs.releases]
  rw [hs.started] at hst
  exact h p hk hst hn

/-- Only the processes of the tasks matter. -/
theorem Tallied.of_processes (h : s.Tallied ts)
    (hm : ts'.map KernTask.process = ts.map KernTask.process) : s.Tallied ts' := by
  have hmem : ∀ t ∈ ts', ∃ u ∈ ts, u.process = t.process := fun t ht =>
    List.mem_map.mp (hm ▸ List.mem_map_of_mem ht)
  refine ⟨h.ids, fun t ht => ?_, fun t ht => ?_, fun t ht => ?_, fun p hl => ?_, h.once, h.pids,
    h.fresh⟩
  · obtain ⟨u, hu, he⟩ := hmem t ht
    exact he ▸ h.valid u hu
  · obtain ⟨u, hu, he⟩ := hmem t ht
    exact he ▸ h.live u hu
  · obtain ⟨u, hu, he⟩ := hmem t ht
    exact he ▸ h.begun u hu
  · unfold tasksOf
    rw [hm]
    exact h.counts p hl

theorem Ended.of_processes (h : s.Ended ts)
    (hm : ts'.map KernTask.process = ts.map KernTask.process) : s.Ended ts' := by
  intro p hk hs hn
  refine h p hk hs ?_
  rw [← tasksOf_eq_zero] at hn ⊢
  unfold tasksOf at hn ⊢
  rw [← hm]
  exact hn

/-- A change of a process that keeps its pid and its counter. -/
theorem Tallied.setProc (h : s.Tallied ts) {p : ℕ} {x : KernProcess}
    (hpid : s.IsLive p → x.pid ≠ -1) (hcount : s.IsLive p → x.threadCount = tasksOf p ts) :
    (s.setProc p x).Tallied ts where
  ids := h.ids
  valid := h.valid
  live := h.live
  begun := h.begun
  counts q hl := by
    by_cases hq : q = p
    · subst hq
      simpa [Sched.setProc] using hcount hl
    · simpa [Sched.setProc, hq] using h.counts q hl
  once := h.once
  pids q hl := by
    by_cases hq : q = p
    · subst hq
      simpa [Sched.setProc] using hpid hl
    · simpa [Sched.setProc, hq] using h.pids q hl
  fresh := h.fresh

/-- The exit of a process without a task releases it. -/
theorem Tallied.processExit (h : s.Tallied ts) {p : ℕ} (hl : s.IsLive p)
    (hn : ∀ t ∈ ts, t.process ≠ p) : (s.processExit p).Tallied ts ∧
      (p ≠ kernelProcess → (s.processExit p).releases p = 1) ∧
      ∀ q ≠ p, (s.processExit p).releases q = s.releases q := by
  unfold Sched.processExit
  by_cases hk : p = kernelProcess
  · rw [if_pos hk]
    exact ⟨h, fun hne => absurd hk hne, fun _ _ => rfl⟩
  rw [if_neg hk, if_neg (h.pids p hl)]
  have hreleases : ∀ q, Function.update s.releases p (s.releases p + 1) q =
      if q = p then 1 else s.releases q := by
    intro q
    by_cases hq : q = p
    · subst hq
      rw [Function.update_self, if_pos rfl, hl.2]
    · rw [Function.update_of_ne hq, if_neg hq]
  have hstill : ∀ q, q < s.created ∧ Function.update s.releases p (s.releases p + 1) q = 0 →
      q ≠ p ∧ s.IsLive q := by
    rintro q ⟨hq, hz⟩
    rw [hreleases] at hz
    split_ifs at hz with hqp
    exact ⟨hqp, hq, hz⟩
  refine ⟨?_, fun _ => ?_, fun q hq => ?_⟩
  · refine ⟨h.ids, h.valid, fun t ht => ?_, h.begun, fun q hq => ?_, fun q => ?_, fun q hq => ?_,
      h.fresh⟩
    · dsimp only
      rw [hreleases, if_neg (hn t ht)]
      exact h.live t ht
    · obtain ⟨hne, hlive⟩ := hstill q hq
      simpa [Sched.setProc, hne] using h.counts q hlive
    · dsimp only
      rw [hreleases]
      split_ifs
      · exact le_rfl
      · exact h.once q
    · obtain ⟨hne, hlive⟩ := hstill q hq
      simpa [Sched.setProc, hne] using h.pids q hlive
  · dsimp only
    rw [hreleases, if_pos rfl]
  · dsimp only
    rw [hreleases, if_neg hq]

/-- Reaping a task keeps the counters, and releases its process if the task was its last. -/
theorem Tallied.reap {t : KernTask} (h : s.Tallied (t :: ts)) (he : s.Ended (t :: ts)) :
    (s.reap t).Tallied ts ∧ (s.reap t).Ended ts := by
  have hlive : s.IsLive t.process := ⟨h.valid t List.mem_cons_self, h.live t List.mem_cons_self⟩
  have hcount : (s.procs t.process).threadCount - 1 = tasksOf t.process ts := by
    rw [h.counts t.process hlive]
    simp [tasksOf]
  have hother : ∀ q, q ≠ t.process → tasksOf q (t :: ts) = tasksOf q ts := by
    intro q hq
    unfold tasksOf
    rw [List.map_cons, List.count_cons_of_ne hq.symm]
  have hended : ∀ q, q ≠ t.process → q ≠ kernelProcess → s.started q = true →
      (∀ u ∈ ts, u.process ≠ q) → s.releases q = 1 := by
    intro q hq hk hst hn
    exact he q hk hst (List.forall_mem_cons.mpr ⟨hq.symm, hn⟩)
  generalize hs₁ : s.setProc t.process
    { s.procs t.process with threadCount := (s.procs t.process).threadCount - 1 } = s₁
  have hsame : s₁.releases = s.releases ∧ s₁.started = s.started ∧ s₁.created = s.created := by
    rw [← hs₁]
    exact ⟨rfl, rfl, rfl⟩
  have hcount₁ : (s₁.procs t.process).threadCount = tasksOf t.process ts := by
    rw [← hs₁, ← hcount]
    simp [Sched.setProc]
  have h₁ : s₁.Tallied ts := by
    rw [← hs₁]
    refine ⟨h.ids, fun u hu => h.valid u (List.mem_cons_of_mem t hu),
      fun u hu => h.live u (List.mem_cons_of_mem t hu),
      fun u hu => h.begun u (List.mem_cons_of_mem t hu), fun q hq => ?_, h.once, fun q hq => ?_,
      h.fresh⟩
    · by_cases hqt : q = t.process
      · subst hqt
        rw [hs₁]
        exact hcount₁
      · rw [← hother q hqt]
        simpa [Sched.setProc, hqt] using h.counts q hq
    · by_cases hqt : q = t.process
      · subst hqt
        simpa [Sched.setProc] using h.pids t.process hq
      · simpa [Sched.setProc, hqt] using h.pids q hq
  have hreap : s.reap t =
      if (s₁.procs t.process).threadCount = 0 then s₁.processExit t.process else s₁ := by
    rw [← hs₁]
    rfl
  rw [hreap]
  by_cases hz : (s₁.procs t.process).threadCount = 0
  · rw [if_pos hz]
    have hn : ∀ u ∈ ts, u.process ≠ t.process := by
      rw [← tasksOf_eq_zero]
      omega
    have hlive₁ : s₁.IsLive t.process := by
      unfold IsLive
      rw [hsame.1, hsame.2.2]
      exact hlive
    obtain ⟨h₂, hreleased, hothers⟩ := h₁.processExit hlive₁ hn
    refine ⟨h₂, fun q hk hst hnq => ?_⟩
    by_cases hq : q = t.process
    · subst hq
      exact hreleased hk
    · have hst' : (s₁.processExit t.process).started = s.started := by
        rw [← hsame.2.1]
        unfold Sched.processExit
        split_ifs <;> rfl
      rw [hothers q hq, hsame.1]
      rw [hst'] at hst
      exact hended q hq hk hst hnq
  · rw [if_neg hz]
    refine ⟨h₁, fun q hk hst hnq => ?_⟩
    by_cases hq : q = t.process
    · subst hq
      rw [hcount₁, tasksOf_eq_zero.mpr hnq] at hz
      exact absurd rfl hz
    · rw [hsame.1]
      rw [hsame.2.1] at hst
      exact hended q hq hk hst hnq

theorem Tallied.reapAll {dead : List KernTask} (h : s.Tallied (dead ++ ts))
    (he : s.Ended (dead ++ ts)) :
    (dead.foldl Sched.reap s).Tallied ts ∧ (dead.foldl Sched.reap s).Ended ts := by
  induction dead generalizing s with
  | nil => exact ⟨h, he⟩
  | cons t dead ih =>
    obtain ⟨h₁, he₁⟩ := h.reap he
    exact ih h₁ he₁

/-- The whole invariant, for the tasks of the ring. -/
structure Held (s : Sched) : Prop where
  tallied : s.Tallied s.ring
  ended : s.Ended s.ring
  head : ∃ t ∈ s.ring, t.addr = s.head

theorem Held.lifetimes (h : s.Held) : s.Lifetimes :=
  ⟨h.tallied.counts, h.tallied.live, h.tallied.once, h.ended⟩

theorem Held.init : Sched.init.Held := by
  have hring : Sched.init.ring = [⟨0, 0, .running, kernelProcess, 0, .outside⟩] := rfl
  refine ⟨⟨rfl, ?_, ?_, ?_, ?_, fun _ => Nat.zero_le 1, ?_, ?_⟩, ?_, ?_⟩
  · rw [hring]
    exact fun t ht => List.mem_singleton.mp ht ▸ Nat.one_pos
  · exact fun _ _ => rfl
  · rw [hring]
    exact fun t ht => List.mem_singleton.mp ht ▸ rfl
  · intro p hl
    have hp : p = 0 := Nat.lt_one_iff.mp hl.1
    subst hp
    rfl
  · intro p _
    exact (by decide : (0 : ℤ) ≠ -1)
  · intro p hp
    have hne : p ≠ kernelProcess := Nat.ne_of_gt (Nat.lt_of_lt_of_le Nat.one_pos hp)
    exact decide_eq_false hne
  · intro p hk hst
    have hp : p = kernelProcess := of_decide_eq_true hst
    exact absurd hp hk
  · exact ⟨_, List.mem_cons_self, rfl⟩

/-! ## Steps -/

theorem reap_head (s : Sched) (t : KernTask) : (s.reap t).head = s.head := by
  unfold reap Sched.processExit
  dsimp only
  split_ifs <;> rfl

theorem wrapAround_head (s : Sched) (passed : List KernTask) :
    (s.wrapAround passed).head = s.head := by
  unfold wrapAround
  dsimp only
  split
  · rfl
  · split
    · rfl
    · split <;> rfl

/-- When a task is taken out of the ring, the head of the list moves to one that stays. -/
theorem headAfter_mem {passed ts : List KernTask} {t : KernTask}
    (h : ∃ u ∈ s.current :: (passed ++ t :: ts), u.addr = s.head) :
    ∃ u ∈ s.current :: (passed ++ ts),
      u.addr = s.headAfter (passed.getLastD s.current) t (ts.headD s.current) := by
  unfold headAfter
  by_cases ht : t.addr = s.head
  · rw [if_pos ht]
    split
    · refine ⟨_, ?_, rfl⟩
      rcases List.eq_nil_or_concat passed with rfl | ⟨us, u, rfl⟩
      · exact List.mem_cons_self
      · simp
    · refine ⟨_, ?_, rfl⟩
      cases ts with
      | nil => exact List.mem_cons_self
      | cons u us => simp
  · rw [if_neg ht]
    obtain ⟨u, hu, he⟩ := h
    refine ⟨u, ?_, he⟩
    have hne : u ≠ t := fun hut => ht (hut ▸ he)
    simp only [List.mem_cons, List.mem_append] at hu ⊢
    tauto

/-- The scan keeps the head of the list in the ring. -/
theorem scan_head (idleNeedsRun : Bool) (ts : List KernTask) (passed : List KernTask) (s : Sched)
    (h : ∃ t ∈ s.current :: (passed ++ ts), t.addr = s.head) :
    ∃ t ∈ (scan idleNeedsRun passed ts s).ring,
      t.addr = (scan idleNeedsRun passed ts s).head := by
  induction ts generalizing passed s with
  | nil =>
    rw [List.append_nil] at h
    obtain ⟨t, ht, he⟩ := h
    rw [scan, wrapAround_head]
    exact ⟨t, (wrapAround_spec s passed).1.mem_iff.mpr ht, he⟩
  | cons t ts ih =>
    rw [scan]
    by_cases hdead : t.state = .dead ∧ t.tid ≠ 0
    · rw [if_pos hdead]
      refine ih passed _ ?_
      rw [(reap_ring _ t).1, reap_head]
      exact headAfter_mem h
    rw [if_neg hdead]
    by_cases hpass : ¬ Sched.Runs t ∨ t.tid = 0 ∧ ¬ idleNeedsRun
    · rw [if_pos hpass]
      refine ih (passed ++ [t]) s ?_
      rwa [List.append_assoc, List.singleton_append]
    · rw [if_neg hpass]
      obtain ⟨u, hu, he⟩ := h
      refine ⟨u, ?_, he⟩
      have hturn : ((t :: ts) ++ s.current :: passed).Perm (s.current :: passed ++ t :: ts) :=
        List.perm_append_comm
      exact hturn.mem_iff.mpr hu

theorem Held.runNext (h : s.Held) (idleNeedsRun : Bool) : (s.schedRunNext idleNeedsRun).Held := by
  obtain ⟨dead, rest, -, hperm, hring, hprocs⟩ := schedRunNext_cases s idleNeedsRun
  have hall : s.ring.Perm (dead ++ s.current :: rest) :=
    (hperm.cons s.current).trans List.perm_middle.symm
  obtain ⟨ht, he⟩ := (h.tallied.perm hall).reapAll (h.ended.perm hall)
  exact ⟨(ht.congr hprocs).perm hring.symm, (he.congr hprocs).perm hring.symm,
    scan_head idleNeedsRun s.others [] s h.head⟩

/-- A change of the tasks that leaves each with its process and its place. -/
theorem Held.tasks (h : s.Held) (hs : SameProcs s s') (hhead : s'.head = s.head)
    (hm : s'.ring.map KernTask.process = s.ring.map KernTask.process)
    (ha : s'.ring.map KernTask.addr = s.ring.map KernTask.addr) : s'.Held := by
  refine ⟨(h.tallied.of_processes hm).congr hs, (h.ended.of_processes hm).congr hs, ?_⟩
  obtain ⟨t, ht, he⟩ := h.head
  rw [hhead, ← he]
  exact List.mem_map.mp (ha ▸ List.mem_map_of_mem ht)

theorem Held.mapTasks (h : s.Held) {f : KernTask → KernTask}
    (hf : ∀ t, (f t).process = t.process ∧ (f t).addr = t.addr) : (s.mapTasks f).Held := by
  have hring : (s.mapTasks f).ring = s.ring.map f := rfl
  refine h.tasks ⟨rfl, rfl, rfl, rfl, rfl⟩ rfl ?_ ?_ <;> rw [hring, List.map_map]
  · exact List.map_congr_left fun t _ => (hf t).1
  · exact List.map_congr_left fun t _ => (hf t).2

/-- A change of the current task alone. -/
theorem Held.current (h : s.Held) {c : KernTask} (hp : c.process = s.current.process)
    (ha : c.addr = s.current.addr) : ({ s with current := c } : Sched).Held := by
  refine h.tasks ⟨rfl, rfl, rfl, rfl, rfl⟩ rfl ?_ ?_
  · exact congrArg (· :: s.others.map KernTask.process) hp
  · exact congrArg (· :: s.others.map KernTask.addr) ha

theorem Held.setProc (h : s.Held) {p : ℕ} {x : KernProcess} (hpid : x.pid = (s.procs p).pid)
    (hcount : x.threadCount = (s.procs p).threadCount) : (s.setProc p x).Held :=
  ⟨h.tallied.setProc (fun hl => hpid ▸ h.tallied.pids p hl)
    fun hl => hcount.trans (h.tallied.counts p hl), h.ended, h.head⟩

/-- A new process has no task, and a pid of its own. -/
theorem Held.processCreate (h : s.Held) (outcome : AllocOutcome) (hlt : s.created < 2 ^ 31) :
    (s.processCreate outcome).Held := by
  unfold Sched.processCreate
  by_cases ho : outcome = .noObject
  · rw [if_pos ho]
    exact h
  rw [if_neg ho]
  have hids := h.tallied.ids
  have hpid : i32 (s.processIdC + 1) = s.created := by
    rw [hids]
    exact i32_of_lt hlt
  have hnone : ∀ t ∈ s.ring, t.process ≠ s.created := fun t ht => (h.tallied.valid t ht).ne
  have hlive : ∀ p, p ≠ s.created → p < s.created + 1 ∧
      Function.update s.releases s.created (if outcome = .ok then 0 else 1) p = 0 → s.IsLive p := by
    rintro p hp ⟨hle, hz⟩
    rw [Function.update_of_ne hp] at hz
    exact ⟨by omega, hz⟩
  refine ⟨⟨?_, fun t ht => ?_, fun t ht => ?_, h.tallied.begun, fun p hl => ?_, fun p => ?_,
    fun p hl => ?_, fun p hp => ?_⟩, fun p hk hst hn => ?_, h.head⟩
  · dsimp only
    rw [hpid]
    push_cast
    rfl
  · exact Nat.lt_succ_of_lt (h.tallied.valid t ht)
  · dsimp only
    rw [Function.update_of_ne (hnone t ht)]
    exact h.tallied.live t ht
  · by_cases hp : p = s.created
    · subst hp
      dsimp only
      rw [Function.update_self]
      exact congrArg Nat.cast (tasksOf_eq_zero.mpr hnone).symm
    · dsimp only
      rw [Function.update_of_ne hp]
      exact h.tallied.counts p (hlive p hp hl)
  · by_cases hp : p = s.created
    · subst hp
      dsimp only
      rw [Function.update_self]
      split <;> omega
    · dsimp only
      rw [Function.update_of_ne hp]
      exact h.tallied.once p
  · by_cases hp : p = s.created
    · subst hp
      dsimp only
      rw [Function.update_self]
      dsimp only
      omega
    · dsimp only
      rw [Function.update_of_ne hp]
      exact h.tallied.pids p (hlive p hp hl)
  · exact h.tallied.fresh p (by dsimp only at hp; omega)
  · have hp : p ≠ s.created := by
      rintro rfl
      have hst' : s.started s.created = true := hst
      rw [h.tallied.fresh _ le_rfl] at hst'
      exact absurd hst' (by simp)
    dsimp only
    rw [Function.update_of_ne hp]
    exact h.ended p hk hst hn

theorem insertAfter_perm {addr : ℕ} (new : KernTask) (h : ∃ t ∈ ts, t.addr = addr) :
    (insertAfter addr new ts).Perm (new :: ts) := by
  induction ts with
  | nil => exact absurd h (by simp)
  | cons t ts ih =>
    unfold insertAfter
    by_cases ht : t.addr = addr
    · rw [if_pos ht]
      exact List.Perm.swap new t ts
    · rw [if_neg ht]
      have hrest : ∃ u ∈ ts, u.addr = addr := by
        obtain ⟨u, hu, he⟩ := h
        rcases List.mem_cons.mp hu with rfl | hu
        · exact absurd he ht
        · exact ⟨u, hu, he⟩
      exact ((ih hrest).cons t).trans (List.Perm.swap new t ts)

/-- The new task comes behind the current one, wherever the head of the list is. -/
theorem insertAfter_head (addr : ℕ) (new t : KernTask) (ts : List KernTask) :
    t :: (insertAfter addr new (t :: ts)).tail = insertAfter addr new (t :: ts) := by
  unfold insertAfter
  split <;> rfl

theorem Held.taskCreateInternal (h : s.Held) {p : ℕ} (hl : s.IsLive p) (outcome : AllocOutcome) :
    (s.taskCreateInternal p outcome).Held := by
  cases outcome with
  | noObject => exact h
  | noPages => exact h.tasks ⟨rfl, rfl, rfl, rfl, rfl⟩ rfl rfl rfl
  | ok =>
    generalize hs' : s.taskCreateInternal p .ok = s'
    generalize htask : (⟨s.tasks, i32 (s.taskIdC + 1), .ready, p, 0, .outside⟩ : KernTask) = task
    have hproc : task.process = p := by rw [← htask]
    have hring : s'.ring = insertAfter s.head task s.ring := by
      rw [← hs', ← htask]
      exact insertAfter_head _ _ _ _
    have hperm : s'.ring.Perm (task :: s.ring) := hring ▸ insertAfter_perm task h.head
    have htally : s'.Tallied (task :: s.ring) := by
      rw [← hs']
      refine ⟨h.tallied.ids, ?_, ?_, ?_, fun q hq => ?_, h.tallied.once, fun q hq => ?_,
        fun q hq => ?_⟩
      · exact List.forall_mem_cons.mpr ⟨hproc ▸ hl.1, h.tallied.valid⟩
      · exact List.forall_mem_cons.mpr ⟨hproc ▸ hl.2, h.tallied.live⟩
      · refine List.forall_mem_cons.mpr ⟨?_, fun t ht => ?_⟩
        · rw [hproc]
          exact Function.update_self _ _ _
        · by_cases htp : t.process = p
          · rw [htp]
            exact Function.update_self _ _ _
          · have hold := h.tallied.begun t ht
            rw [← hold]
            exact Function.update_of_ne htp _ _
      · have hold := h.tallied.counts q hq
        unfold tasksOf at hold ⊢
        rw [List.map_cons, hproc]
        by_cases hqp : q = p
        · subst hqp
          simp [Sched.taskCreateInternal, Sched.setProc, hold]
        · rw [List.count_cons_of_ne (Ne.symm hqp)]
          simpa [Sched.taskCreateInternal, Sched.setProc, hqp] using hold
      · have hold := h.tallied.pids q hq
        by_cases hqp : q = p
        · subst hqp
          simpa [Sched.taskCreateInternal, Sched.setProc] using hold
        · simpa [Sched.taskCreateInternal, Sched.setProc, hqp] using hold
      · have hqp : q ≠ p := by
          rintro rfl
          exact absurd hl.1 (not_lt.mpr hq)
        have hold := h.tallied.fresh q hq
        rw [← hold]
        exact Function.update_of_ne hqp _ _
    have hended : s'.Ended (task :: s.ring) := by
      intro q hk hst hn
      have hqp : q ≠ p := fun hqp => hn task List.mem_cons_self (hproc.trans hqp.symm)
      rw [← hs'] at hst ⊢
      have hst' : s.started q = true := by
        rw [← hst]
        exact (Function.update_of_ne hqp _ _).symm
      exact h.ended q hk hst' fun t ht => hn t (List.mem_cons_of_mem _ ht)
    refine ⟨htally.perm hperm.symm, hended.perm hperm.symm, ?_⟩
    obtain ⟨t, ht, he⟩ := h.head
    have hhead : s'.head = s.head := by rw [← hs']; rfl
    exact ⟨t, hperm.mem_iff.mpr (List.mem_cons_of_mem _ ht), he.trans hhead.symm⟩

theorem processExit_ring (s : Sched) (p : ℕ) :
    (s.processExit p).ring = s.ring ∧ (s.processExit p).head = s.head ∧
      (s.processExit p).started = s.started := by
  unfold Sched.processExit
  split_ifs <;> exact ⟨rfl, rfl, rfl⟩

/-- A process that never had a task can be given up. -/
theorem Held.discard (h : s.Held) {p : ℕ} (hl : s.IsLive p) (hst : s.started p = false) :
    (s.processExit p).Held := by
  have hn : ∀ t ∈ s.ring, t.process ≠ p := by
    rintro t ht rfl
    rw [h.tallied.begun t ht] at hst
    exact absurd hst (by simp)
  obtain ⟨htally, -, hothers⟩ := h.tallied.processExit hl hn
  obtain ⟨hring, hhead, hstarted⟩ := processExit_ring s p
  refine ⟨hring.symm ▸ htally, fun q hk hstq hnq => ?_, ?_⟩
  · rw [hstarted] at hstq
    rw [hring] at hnq
    have hqp : q ≠ p := by
      rintro rfl
      rw [hst] at hstq
      exact absurd hstq (by simp)
    rw [hothers q hqp]
    exact h.ended q hk hstq hnq
  · rw [hring, hhead]
    exact h.head

theorem Held.killWhere (h : s.Held) (P : KernProcess → Bool) : (s.killWhere P).Held := by
  refine h.mapTasks fun t => ?_
  split <;> exact ⟨rfl, rfl⟩

theorem Held.takeSignals (h : s.Held) (mask : UInt32) : (s.takeSignals mask).Held :=
  h.setProc rfl rfl

theorem Held.ipcSignalSend (h : s.Held) (targetPid : ℤ) (mask : UInt32) :
    (s.ipcSignalSend targetPid mask).Held := by
  unfold Sched.ipcSignalSend
  split
  · exact h
  · cases s.schedGetByPid targetPid with
    | none => exact h
    | some target =>
      have hset := h.setProc (p := target.process) (x := { s.procs target.process with
        pendingSignals := (s.procs target.process).pendingSignals ||| mask }) rfl rfl
      refine hset.mapTasks fun t => ?_
      unfold unblock
      split_ifs <;> exact ⟨rfl, rfl⟩

theorem Held.continueWait (h : s.Held) (idleNeedsRun : Bool) : (s.continueWait idleNeedsRun).Held := by
  unfold Sched.continueWait
  cases s.current.point with
  | outside => exact h
  | check mask =>
    dsimp only
    split
    · exact (h.takeSignals mask).current rfl rfl
    · exact h.current rfl rfl
  | published mask => exact h.current rfl rfl
  | blocked mask =>
    have hcheck : ({ s with current := { s.current with point := .check mask } } : Sched).Held :=
      h.current rfl rfl
    exact hcheck.runNext idleNeedsRun

/-- There are pids left for a step that creates a process. -/
def PidsLeft (s : Sched) : TaskStep → Prop
  | .createProcess _ => s.created < 2 ^ 31
  | _ => True

/-- The invariant is kept by every step, but by the exit of a native application. -/
theorem Held.run (h : s.Held) {st : TaskStep} (hp : s.PidsLeft st) (hn : s.NoNativeExit st) :
    (st.run s).Held := by
  unfold TaskStep.run
  by_cases hown : st.IsOwn ∧ s.current.point ≠ .outside
  · rw [if_pos hown]
    exact h
  rw [if_neg hown]
  cases st with
  | createProcess outcome => exact h.processCreate outcome hp
  | createTask p outcome =>
    dsimp only
    split
    next hl => exact h.taskCreateInternal hl outcome
    next => exact h
  | discard p =>
    dsimp only
    split
    next hl => exact h.discard hl.1 hl.2
    next => exact h
  | adopt p =>
    dsimp only
    split
    · exact h.setProc rfl rfl
    · exact h
  | threadExit => exact h.current rfl rfl
  | killProcess pid =>
    dsimp only [schedKillProcess]
    split
    · exact h
    · exact h.killWhere _
  | killChildren parentPid =>
    dsimp only [schedKillChildren]
    split
    · exact h
    · exact h.killWhere _
  | runNext idleNeedsRun => exact h.runNext idleNeedsRun
  | quakeExit =>
    have hk : s.current.process = kernelProcess := by
      refine hn.resolve_left fun hpoint => hown ⟨trivial, hpoint⟩
    dsimp only
    unfold Sched.processExit
    rw [if_pos hk]
    exact h
  | signalSend targetPid mask => exact h.ipcSignalSend targetPid mask
  | signalPoll mask => exact h.takeSignals mask
  | signalWait mask =>
    dsimp only [ipcSignalWait]
    split
    · exact h
    · exact h.current rfl rfl
  | continueWait idleNeedsRun => exact h.continueWait idleNeedsRun

/-- The exit of a native application releases its process while its task is in the ring. -/
theorem noNativeExit_of_live (h : s.Held) {st : TaskStep} (hl : (st.run s).Lifetimes) :
    s.NoNativeExit st := by
  cases st with
  | quakeExit =>
    by_contra hn
    have hpoint : ¬ s.current.point ≠ .outside := fun hp => hn (.inl hp)
    have hk : s.current.process ≠ kernelProcess := fun hk => hn (.inr hk)
    have hcur : s.current ∈ s.ring := List.mem_cons_self
    have hlive : s.IsLive s.current.process :=
      ⟨h.tallied.valid _ hcur, h.tallied.live _ hcur⟩
    have hrun : TaskStep.quakeExit.run s = s.processExit s.current.process :=
      if_neg fun hown => hpoint hown.2
    rw [hrun] at hl
    have hzero := hl.live s.current ((processExit_ring s _).1 ▸ hcur)
    unfold Sched.processExit at hzero
    rw [if_neg hk, if_neg (h.tallied.pids _ hlive)] at hzero
    dsimp only at hzero
    rw [Function.update_self] at hzero
    omega
  | _ => trivial

end Sched

/-! ## Runs -/

/-- A step creates a process, or tries to. -/
def TaskStep.creates : TaskStep → Bool
  | .createProcess _ => true
  | _ => false

theorem created_processExit (s : Sched) (p : ℕ) : (s.processExit p).created = s.created := by
  unfold Sched.processExit
  split_ifs <;> rfl

theorem created_schedRunNext (s : Sched) (idleNeedsRun : Bool) :
    (s.schedRunNext idleNeedsRun).created = s.created := by
  obtain ⟨dead, -, -, -, -, hprocs⟩ := schedRunNext_cases s idleNeedsRun
  rw [hprocs.created]
  clear hprocs
  induction dead generalizing s with
  | nil => rfl
  | cons t dead ih =>
    rw [List.foldl_cons, ih]
    unfold Sched.reap
    dsimp only
    split
    · exact created_processExit _ _
    · rfl

theorem created_continueWait (s : Sched) (idleNeedsRun : Bool) :
    (s.continueWait idleNeedsRun).created = s.created := by
  unfold Sched.continueWait
  cases s.current.point with
  | check mask =>
    dsimp only
    split <;> rfl
  | blocked mask => exact created_schedRunNext _ _
  | outside | published mask => rfl

/-- Only the creation of a process counts up. -/
theorem created_run (s : Sched) (st : TaskStep) :
    (st.run s).created ≤ s.created + if st.creates then 1 else 0 := by
  unfold TaskStep.run
  split
  · exact Nat.le_add_right _ _
  cases st with
  | createProcess outcome =>
    dsimp only [Sched.processCreate]
    split
    · exact Nat.le_succ _
    · exact le_rfl
  | createTask p outcome =>
    dsimp only
    split
    · cases outcome <;> exact le_rfl
    · exact le_rfl
  | discard p =>
    dsimp only
    split
    · exact (created_processExit s p).le
    · exact le_rfl
  | adopt p =>
    dsimp only
    split <;> exact le_rfl
  | threadExit => exact le_rfl
  | killProcess pid =>
    dsimp only [schedKillProcess]
    split <;> exact le_rfl
  | killChildren parentPid =>
    dsimp only [schedKillChildren]
    split <;> exact le_rfl
  | runNext idleNeedsRun => exact (created_schedRunNext s idleNeedsRun).le
  | quakeExit => exact (created_processExit s _).le
  | signalSend targetPid mask =>
    dsimp only [ipcSignalSend]
    split
    · exact le_rfl
    · split <;> exact le_rfl
  | signalPoll mask => exact le_rfl
  | signalWait mask =>
    dsimp only [ipcSignalWait]
    split <;> exact le_rfl
  | continueWait idleNeedsRun => exact (created_continueWait s idleNeedsRun).le

/-- A run with fewer than 2^31 creations does not run out of pids. -/
theorem pidsLeft_run (steps : List TaskStep) {s : Sched}
    (h : s.created + steps.countP TaskStep.creates ≤ 2 ^ 31) :
    Along (fun s st => TaskStep.run s st) Sched.PidsLeft s steps := by
  induction steps generalizing s with
  | nil => trivial
  | cons st steps ih =>
    rw [List.countP_cons] at h
    have hle := created_run s st
    have hrest : (st.run s).created + steps.countP TaskStep.creates ≤ 2 ^ 31 := by omega
    refine ⟨?_, ih hrest⟩
    cases st with
    | createProcess outcome =>
      have hone : (if (TaskStep.createProcess outcome).creates then 1 else 0) = 1 := rfl
      rw [hone] at h
      exact Nat.lt_of_lt_of_le (by omega) h
    | _ => trivial

/-- The lifetime of processes. In every run from the start with fewer than 2^31 creations of processes, the
counters and releases are right in every state if and only if no native application takes its exit path
in a process of its own. -/
theorem lifetimes_iff (steps : List TaskStep) (h : steps.countP TaskStep.creates < 2 ^ 31) :
    Always (fun s st => TaskStep.run s st) Sched.Lifetimes Sched.init steps ↔
      Along (fun s st => TaskStep.run s st) Sched.NoNativeExit Sched.init steps := by
  have hpids : Along (fun s st => TaskStep.run s st) Sched.PidsLeft Sched.init steps := by
    refine pidsLeft_run steps ?_
    have hone : Sched.init.created = 1 := rfl
    omega
  constructor
  · exact fun hl => along_of_always_inv (I := Sched.Held)
      (fun s st hs _ hl => Sched.noNativeExit_of_live hs hl) (fun s st hs hp hn => hs.run hp hn)
      Sched.Held.init hpids hl
  · intro hn
    have hheld : Always (fun s st => TaskStep.run s st) Sched.Held Sched.init steps :=
      always_of_along (fun s st hs hc => hs.run hc.1 hc.2) Sched.Held.init (hpids.and hn)
    exact hheld.mono fun s hs => hs.lifetimes

/-- A process with a task, which ends and is reaped. -/
def oneProcess : List TaskStep :=
  [.createProcess .ok, .createTask 1 .ok, .runNext false, .threadExit, .runNext true, .runNext true]

theorem lifetimes_oneProcess :
    Always (fun s st => TaskStep.run s st) Sched.Lifetimes Sched.init oneProcess ↔
      Along (fun s st => TaskStep.run s st) Sched.NoNativeExit Sched.init oneProcess :=
  lifetimes_iff oneProcess (by decide +kernel)

/-- A native application that ends: its process is released, and its task is still the current one. -/
def nativeExit : List TaskStep :=
  [.createProcess .ok, .createTask 1 .ok, .runNext false, .quakeExit]

theorem nativeExit_not_lifetimes :
    ¬ Always (fun s st => TaskStep.run s st) Sched.Lifetimes Sched.init nativeExit := by
  intro h
  have hlive := h.last.live (runAll (fun s st => TaskStep.run s st) Sched.init nativeExit).current
    List.mem_cons_self
  exact absurd hlive (by decide +kernel)

end Sandflea
