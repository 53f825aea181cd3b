import Sandflea.Sched.Tasks

/-!
# What the scheduler does

`schedRunNext_cases` says all that `sched_run_next` can do: it reaps some dead tasks other than the
current one, one after the other, and turns the ring of the rest.
-/

namespace Sandflea

namespace Sched

/-- Two states have the same processes and counters. -/
structure SameProcs (s s' : Sched) : Prop where
  procs : s'.procs = s.procs
  created : s'.created = s.created
  processIdC : s'.processIdC = s.processIdC
  releases : s'.releases = s.releases
  started : s'.started = s.started

theorem SameProcs.refl (s : Sched) : SameProcs s s := ⟨rfl, rfl, rfl, rfl, rfl⟩

theorem SameProcs.symm {s s' : Sched} (h : SameProcs s s') : SameProcs s' s :=
  ⟨h.procs.symm, h.created.symm, h.processIdC.symm, h.releases.symm, h.started.symm⟩

theorem SameProcs.trans {s s' s'' : Sched} (h : SameProcs s s') (h' : SameProcs s' s'') :
    SameProcs s s'' :=
  ⟨h'.procs.trans h.procs, h'.created.trans h.created, h'.processIdC.trans h.processIdC,
    h'.releases.trans h.releases, h'.started.trans h.started⟩

theorem SameProcs.processExit {s s' : Sched} (h : SameProcs s s') (p : ℕ) :
    SameProcs (s.processExit p) (s'.processExit p) := by
  unfold Sched.processExit
  rw [h.procs]
  split_ifs
  · exact h
  · exact h
  · exact ⟨by simp only [setProc, h.procs], h.created, h.processIdC, by simp only [h.releases],
      h.started⟩

theorem SameProcs.reap {s s' : Sched} (h : SameProcs s s') (t : KernTask) :
    SameProcs (s.reap t) (s'.reap t) := by
  have hset : SameProcs
      (s.setProc t.process
        { s.procs t.process with threadCount := (s.procs t.process).threadCount - 1 })
      (s'.setProc t.process
        { s'.procs t.process with threadCount := (s'.procs t.process).threadCount - 1 }) :=
    ⟨by simp only [setProc, h.procs], h.created, h.processIdC, h.releases, h.started⟩
  unfold Sched.reap
  dsimp only
  rw [hset.procs]
  split
  · exact hset.processExit t.process
  · exact hset

theorem SameProcs.reapAll {s s' : Sched} (h : SameProcs s s') (dead : List KernTask) :
    SameProcs (dead.foldl Sched.reap s) (dead.foldl Sched.reap s') := by
  induction dead generalizing s s' with
  | nil => exact h
  | cons t dead ih => exact ih (h.reap t)

/-- Reaping a task leaves the ring to the scan. -/
theorem reap_ring (s : Sched) (t : KernTask) :
    (s.reap t).current = s.current ∧ (s.reap t).others = s.others := by
  unfold reap processExit
  dsimp only
  split_ifs <;> exact ⟨rfl, rfl⟩

/-- The list of the tasks passed over, cut at the first with the address of one of them. -/
theorem exists_dropWhile {passed : List KernTask} {idle : KernTask} (h : idle ∈ passed) :
    ∃ t ts, passed.dropWhile (fun t => t.addr ≠ idle.addr) = t :: ts ∧
      passed = passed.takeWhile (fun t => t.addr ≠ idle.addr) ++ t :: ts ∧ t.addr = idle.addr := by
  have hne : passed.dropWhile (fun t => decide (t.addr ≠ idle.addr)) ≠ [] := by
    intro hnil
    have hall := List.dropWhile_eq_nil_iff.mp hnil idle h
    exact absurd rfl (of_decide_eq_true hall)
  have haddr := List.head_dropWhile_not (fun t : KernTask => decide (t.addr ≠ idle.addr)) hne
  have hsplit := @List.takeWhile_append_dropWhile _ (fun t : KernTask => decide (t.addr ≠ idle.addr)) passed
  obtain ⟨t, ts, hdrop⟩ := List.exists_cons_of_ne_nil hne
  rw [hdrop] at hsplit
  simp only [hdrop, List.head_cons, decide_eq_false_iff_not, not_not] at haddr
  exact ⟨t, ts, hdrop, hsplit.symm, haddr⟩

/-- The tasks that stay, and the idle task at the end, are those that were passed over. -/
theorem wrapAround_spec (s : Sched) (passed : List KernTask) :
    (s.wrapAround passed).ring.Perm (s.current :: passed) ∧ SameProcs s (s.wrapAround passed) := by
  unfold wrapAround
  dsimp only
  split
  · exact ⟨List.Perm.refl _, rfl, rfl, rfl, rfl, rfl⟩
  cases (passed.filter fun t => decide (Runs t)).getLast? with
  | none => exact ⟨List.Perm.refl _, rfl, rfl, rfl, rfl, rfl⟩
  | some idle =>
    dsimp only
    have hsplit := List.takeWhile_append_dropWhile (p := fun t : KernTask => t.addr ≠ idle.addr)
      (l := passed)
    generalize passed.takeWhile (fun t => t.addr ≠ idle.addr) = before at hsplit ⊢
    generalize passed.dropWhile (fun t => t.addr ≠ idle.addr) = after at hsplit ⊢
    cases after with
    | nil => exact ⟨List.Perm.refl _, rfl, rfl, rfl, rfl, rfl⟩
    | cons t ts =>
      refine ⟨?_, rfl, rfl, rfl, rfl, rfl⟩
      rw [← hsplit]
      have hturn : ((t :: ts) ++ s.current :: before).Perm (s.current :: before ++ t :: ts) :=
        List.perm_append_comm
      exact hturn

/-- The scan reaps some dead tasks among those to come, and turns the ring of the rest. -/
theorem scan_cases (idleNeedsRun : Bool) (ts : List KernTask) (passed : List KernTask) (s : Sched) :
    ∃ dead rest, (∀ t ∈ dead, t.state = .dead ∧ t.tid ≠ 0) ∧ (passed ++ ts).Perm (dead ++ rest) ∧
      (scan idleNeedsRun passed ts s).ring.Perm (s.current :: rest) ∧
      SameProcs (dead.foldl reap s) (scan idleNeedsRun passed ts s) := by
  induction ts generalizing passed s with
  | nil =>
    obtain ⟨hring, hprocs⟩ := wrapAround_spec s passed
    refine ⟨[], passed, fun _ ht => absurd ht List.not_mem_nil, ?_, hring, hprocs⟩
    rw [List.append_nil, List.nil_append]
  | cons t ts ih =>
    rw [scan]
    by_cases hdead : t.state = .dead ∧ t.tid ≠ 0
    · rw [if_pos hdead]
      dsimp only
      generalize hhead : s.headAfter (passed.getLastD s.current) t (ts.headD s.current) = head
      obtain ⟨dead, rest, hall, hperm, hring, hprocs⟩ := ih passed ({ s with head := head }.reap t)
      refine ⟨t :: dead, rest, ?_, ?_, ?_, ?_⟩
      · exact List.forall_mem_cons.mpr ⟨hdead, hall⟩
      · exact List.perm_middle.trans (hperm.cons t)
      · rw [(reap_ring { s with head := head } t).1] at hring
        exact hring
      · have hsame : SameProcs s { s with head := head } := ⟨rfl, rfl, rfl, rfl, rfl⟩
        exact ((hsame.reap t).reapAll dead).trans hprocs
    rw [if_neg hdead]
    by_cases hpass : ¬ Runs t ∨ t.tid = 0 ∧ ¬ idleNeedsRun
    · rw [if_pos hpass]
      obtain ⟨dead, rest, hall, hperm, hring, hprocs⟩ := ih (passed ++ [t]) s
      rw [List.append_assoc, List.singleton_append] at hperm
      exact ⟨dead, rest, hall, hperm, hring, hprocs⟩
    · rw [if_neg hpass]
      refine ⟨[], passed ++ t :: ts, fun _ ht => absurd ht List.not_mem_nil, List.Perm.refl _, ?_,
        rfl, rfl, rfl, rfl, rfl⟩
      have hturn : ((t :: ts) ++ s.current :: passed).Perm (s.current :: passed ++ t :: ts) :=
        List.perm_append_comm
      exact hturn

/-- All that `sched_run_next` does. -/
theorem schedRunNext_cases (s : Sched) (idleNeedsRun : Bool) :
    ∃ dead rest, (∀ t ∈ dead, t.state = .dead ∧ t.tid ≠ 0) ∧ s.others.Perm (dead ++ rest) ∧
      (s.schedRunNext idleNeedsRun).ring.Perm (s.current :: rest) ∧
      SameProcs (dead.foldl reap s) (s.schedRunNext idleNeedsRun) :=
  scan_cases idleNeedsRun s.others [] s

/-- The current task can run at the end of the scan, if any task of the ring can. -/
theorem scan_runs (idleNeedsRun : Bool) (ts : List KernTask) (passed : List KernTask) (s : Sched)
    (hnodup : ((s.current :: (passed ++ ts)).map KernTask.addr).Nodup)
    (h : ∃ t ∈ s.current :: (passed ++ ts), Runs t) : Runs (scan idleNeedsRun passed ts s).current := by
  induction ts generalizing passed s with
  | nil =>
    rw [List.append_nil] at h hnodup
    rw [scan]
    unfold wrapAround
    dsimp only
    split
    next hcurrent => exact hcurrent
    next hcurrent =>
      obtain ⟨t, ht, hruns⟩ := h
      have hpassed : t ∈ passed := (List.mem_cons.mp ht).resolve_left fun he => hcurrent (he ▸ hruns)
      cases hidle : (passed.filter fun t => decide (Runs t)).getLast? with
      | none =>
        rw [List.getLast?_eq_none_iff, List.filter_eq_nil_iff] at hidle
        exact absurd (decide_eq_true hruns) (hidle t hpassed)
      | some idle =>
        have hmem := List.mem_filter.mp (List.mem_of_mem_getLast? hidle)
        obtain ⟨u, us, hdrop, hsplit, haddr⟩ := exists_dropWhile hmem.1
        have hu : u ∈ passed := hsplit ▸ List.mem_append_right _ List.mem_cons_self
        have hui : u = idle := List.inj_on_of_nodup_map (List.nodup_cons.mp hnodup).2 hu hmem.1 haddr
        dsimp only
        rw [hdrop, hui]
        exact of_decide_eq_true hmem.2
  | cons t ts ih =>
    have hperm : (s.current :: (passed ++ t :: ts)).Perm (t :: s.current :: (passed ++ ts)) :=
      (List.perm_middle.cons s.current).trans (List.Perm.swap t s.current _)
    rw [scan]
    by_cases hdead : t.state = .dead ∧ t.tid ≠ 0
    · rw [if_pos hdead]
      dsimp only
      generalize s.headAfter (passed.getLastD s.current) t (ts.headD s.current) = head
      have hnodup' := (hperm.map KernTask.addr).nodup_iff.mp hnodup
      refine ih passed ({ s with head := head }.reap t) ?_ ?_ <;>
        rw [(reap_ring { s with head := head } t).1]
      · exact (List.nodup_cons.mp hnodup').2
      · obtain ⟨u, hu, hruns⟩ := h
        refine ⟨u, (List.mem_cons.mp (hperm.mem_iff.mp hu)).resolve_left ?_, hruns⟩
        rintro rfl
        unfold Runs at hruns
        rw [hdead.1] at hruns
        exact absurd hruns (by decide)
    rw [if_neg hdead]
    by_cases hpass : ¬ Runs t ∨ t.tid = 0 ∧ ¬ idleNeedsRun
    · rw [if_pos hpass]
      have hpassed : passed ++ t :: ts = (passed ++ [t]) ++ ts := by
        rw [List.append_assoc, List.singleton_append]
      rw [hpassed] at h hnodup
      exact ih (passed ++ [t]) s hnodup h
    · rw [if_neg hpass]
      rw [not_or, not_not] at hpass
      exact hpass.1

/-- The tasks of the ring after `sched_run_next` were in it before. -/
theorem mem_ring_of_schedRunNext {s : Sched} {idleNeedsRun : Bool} {t : KernTask}
    (h : t ∈ (s.schedRunNext idleNeedsRun).ring) : t ∈ s.ring := by
  obtain ⟨dead, rest, -, hperm, hring, -⟩ := schedRunNext_cases s idleNeedsRun
  rcases List.mem_cons.mp (hring.mem_iff.mp h) with rfl | ht
  · exact List.mem_cons_self
  · exact List.mem_cons_of_mem _ (hperm.mem_iff.mpr (List.mem_append_right dead ht))

/-! ## What stays -/

theorem processExit_pending (s : Sched) (p q : ℕ) :
    ((s.processExit p).procs q).pendingSignals = (s.procs q).pendingSignals := by
  unfold processExit
  split_ifs
  · rfl
  · rfl
  · by_cases hq : q = p
    · subst hq
      simp [setProc]
    · simp [setProc, hq]

theorem reap_pending (s : Sched) (t : KernTask) (q : ℕ) :
    ((s.reap t).procs q).pendingSignals = (s.procs q).pendingSignals := by
  have hset : ((s.setProc t.process { s.procs t.process with
      threadCount := (s.procs t.process).threadCount - 1 }).procs q).pendingSignals =
        (s.procs q).pendingSignals := by
    by_cases hq : q = t.process
    · subst hq
      simp [setProc]
    · simp [setProc, hq]
  unfold reap
  dsimp only
  split
  · rw [processExit_pending, hset]
  · exact hset

theorem schedRunNext_pending (s : Sched) (idleNeedsRun : Bool) (q : ℕ) :
    ((s.schedRunNext idleNeedsRun).procs q).pendingSignals = (s.procs q).pendingSignals := by
  obtain ⟨dead, -, -, -, -, hprocs⟩ := schedRunNext_cases s idleNeedsRun
  rw [hprocs.procs]
  clear hprocs
  induction dead generalizing s with
  | nil => rfl
  | cons t dead ih => rw [List.foldl_cons, ih, reap_pending]

end Sched

end Sandflea
