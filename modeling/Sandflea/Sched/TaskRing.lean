import Sandflea.Lib.LinkedList
import Sandflea.Sched.Deaths

/-!
# The ring of tasks in memory

`sched_run_next` as it works on the pointers of the tasks: it walks from the current task along `next`,
takes dead tasks out behind `prev`, moves `task_list_head` when that was one of them, and looks once more
for a task to fall back on when it has come round. `scheduler_step` says that it keeps the ring one cycle,
reaps each task at most once, and leaves the CPU to a task that can run if there is one; the proof shows
that it does what `schedRunNext` does to the list of tasks (`schedRunNext_simulates`).

Reading a released task is a fault, and so is a loop that runs out of fuel; neither happens.
-/

namespace Sandflea

open LinkedList Sched

/-- What `sched_run_next` reads of a `kern_task_t`. -/
structure TaskNode where
  tid : ℤ
  state : TaskState
  stackBase : Option ℕ
  /-- Which process the task points to. -/
  process : ℕ
  next : ℕ
deriving DecidableEq, Repr

/-- The tasks in memory, and what was given to `kfree`. -/
structure TaskMemory where
  /-- The tasks that are allocated, by their addresses. -/
  nodes : ℕ → Option TaskNode
  taskListHead : Option ℕ
  currentTask : Option ℕ
  procs : ℕ → KernProcess
  /-- How often a process was released. -/
  procReleases : ℕ → ℕ
  /-- How often a task was released. -/
  taskReleases : ℕ → ℕ
  /-- How often a stack was released. -/
  stackReleases : ℕ → ℕ

namespace TaskMemory

/-- The pointer to the next task. -/
def next (m : TaskMemory) (a : ℕ) : Option ℕ := (m.nodes a).map TaskNode.next

/-- The write of a `next` pointer. -/
def setNext (m : TaskMemory) (a v : ℕ) : Option TaskMemory :=
  (m.nodes a).map fun n => { m with nodes := Function.update m.nodes a (some { n with next := v }) }

/-- `task_list_head` is moved away from a task that is taken out. -/
def moveHead (m : TaskMemory) (prev next : ℕ) : Option TaskMemory :=
  if m.taskListHead = some next then do
    let p ← m.nodes prev
    if p.state ≠ .dead then some { m with taskListHead := some prev }
    else do
      let n ← m.nodes next
      some { m with taskListHead := some n.next }
  else some m

/-- `process_exit`. What it does besides marking the process and releasing it leaves the tasks alone. -/
def processExit (m : TaskMemory) (p : ℕ) : TaskMemory :=
  if p = kernelProcess then m
  else if (m.procs p).pid = -1 then m
  else
    { m with
      procs := Function.update m.procs p { m.procs p with pid := -1 }
      procReleases := Function.update m.procReleases p (m.procReleases p + 1) }

/-- A process loses a thread, and exits with the last. -/
def dropThread (m : TaskMemory) (p : ℕ) : TaskMemory :=
  let m' := { m with
    procs := Function.update m.procs p { m.procs p with threadCount := (m.procs p).threadCount - 1 } }
  if (m'.procs p).threadCount = 0 then m'.processExit p else m'

/-- `kfree` of the stack of a task, if it has one. -/
def freeStack (m : TaskMemory) (stackBase : Option ℕ) : TaskMemory :=
  match stackBase with
  | none => m
  | some b => { m with stackReleases := Function.update m.stackReleases b (m.stackReleases b + 1) }

/-- `kfree` of a task -/
def freeTask (m : TaskMemory) (a : ℕ) : TaskMemory :=
  { m with
    nodes := Function.update m.nodes a none
    taskReleases := Function.update m.taskReleases a (m.taskReleases a + 1) }

/-- The branch of the loop for a dead task, which ends with the next one to look at. -/
def reapNext (m : TaskMemory) (prev next : ℕ) : Option (TaskMemory × ℕ) := do
  let dead ← m.nodes next
  let m ← m.setNext prev dead.next
  let m ← m.moveHead prev next
  let dead ← m.nodes next
  let m := (m.dropThread dead.process).freeStack dead.stackBase
  let p ← m.nodes prev
  some (m.freeTask next, p.next)

/-- The local variables of the loop. -/
structure Walk where
  prev : ℕ
  next : ℕ
  idleTask : Option ℕ
deriving DecidableEq, Repr

/-- The loop of `sched_run_next`. `idleNeedsRun` is `sched_idle_needs_run`. -/
def walk (idleNeedsRun : Bool) (start : ℕ) : ℕ → Walk → TaskMemory → Option (Walk × TaskMemory)
  | 0, _, _ => none
  | fuel + 1, w, m =>
    if some w.next = m.currentTask then some (w, m)
    else do
      let n ← m.nodes w.next
      if n.state = .dead ∧ n.tid ≠ 0 then do
        let (m, next) ← m.reapNext w.prev w.next
        walk idleNeedsRun start fuel { w with next := next } m
      else if n.state = .blocked ∨ n.state = .dead then
        walk idleNeedsRun start fuel { w with prev := w.next, next := n.next } m
      else if n.tid = 0 ∧ ¬ idleNeedsRun ∧ w.next ≠ start then
        walk idleNeedsRun start fuel ⟨w.next, n.next, some w.next⟩ m
      else some (w, m)

/-- The second loop, which looks for a task to fall back on. -/
def findFallback (m : TaskMemory) (start : ℕ) : ℕ → ℕ → Option ℕ
  | 0, _ => none
  | fuel + 1, fallback => do
    let n ← m.nodes fallback
    if (n.state = .dead ∨ n.state = .blocked) ∧ fallback ≠ start then
      findFallback m start fuel n.next
    else some fallback

/-- The end of `sched_run_next`, behind its loop. -/
def finish (m : TaskMemory) (fuel start : ℕ) (w : Walk) : Option TaskMemory :=
  if w.next = start then do
    let n ← m.nodes start
    if n.state = .dead ∨ n.state = .blocked then do
      let first := match w.idleTask with
        | some idle => if idle ≠ start then idle else n.next
        | none => n.next
      let fallback ← m.findFallback start fuel first
      if fallback ≠ start then some { m with currentTask := some fallback } else some m
    else some m
  else some { m with currentTask := some w.next }

/-- `sched_run_next` -/
def schedRunNext (idleNeedsRun : Bool) (fuel : ℕ) (m : TaskMemory) : Option TaskMemory :=
  match m.currentTask with
  | none => some m
  | some start => do
    let n ← m.nodes start
    let (w, m) ← walk idleNeedsRun start fuel ⟨start, n.next, none⟩ m
    m.finish fuel start w

/-- The task at an address may be given the CPU. -/
def Runs (m : TaskMemory) (a : ℕ) : Prop :=
  ∃ n, m.nodes a = some n ∧ (n.state = .ready ∨ n.state = .running)

/-- The tasks are linked in one cycle, with the current one and `task_list_head` among them. -/
structure WellFormed (m : TaskMemory) (ring : Cycle ℕ) : Prop where
  nodup : ring.Nodup
  cycle : IsCycle m.next ring
  node : ∀ a ∈ ring, (m.nodes a).isSome
  current : ∃ a ∈ ring, m.currentTask = some a
  head : ∃ a ∈ ring, m.taskListHead = some a

/-! ## What the memory represents -/

/-- The node of a task. -/
structure Holds (n : TaskNode) (t : KernTask) : Prop where
  tid : n.tid = t.tid
  state : n.state = t.state
  process : n.process = t.process

/-- The memory has the tasks of a ring, with the processes and the head of a scheduler. -/
structure Represents (m : TaskMemory) (s : Sched) (ring : List KernTask) : Prop where
  current : m.currentTask = some s.current.addr
  head : m.taskListHead = some s.head
  node : ∀ t ∈ ring, ∃ n, m.nodes t.addr = some n ∧ Holds n t
  cycle : IsCycle m.next (ring.map KernTask.addr : List ℕ)
  procs : m.procs = s.procs
  releases : m.procReleases = s.releases

variable {m m' : TaskMemory} {s : Sched}

/-- The ring may be written from any of its tasks on. -/
theorem Represents.rotate {ts us : List KernTask} (h : m.Represents s (ts ++ us)) :
    m.Represents s (us ++ ts) := by
  refine ⟨h.current, h.head, fun t ht => h.node t ?_, ?_, h.procs, h.releases⟩
  · exact List.mem_append.mpr (List.mem_append.mp ht).symm
  · have hcycle := h.cycle
    rw [List.map_append] at hcycle ⊢
    rw [coe_append_comm]
    exact hcycle

/-- The task behind another, in the ring. -/
theorem Represents.next_eq {ts us : List KernTask} {t : KernTask} (h : m.Represents s (ts ++ t :: us)) :
    m.next t.addr = some ((us ++ ts).headD t).addr := by
  have hcycle := h.cycle
  rw [List.map_append, List.map_cons] at hcycle
  rw [hcycle.next_eq, ← List.map_append]
  cases us ++ ts <;> rfl

/-- A task that comes after the first one of the ring, and the task behind it. -/
theorem Represents.behind {passed ts : List KernTask} {c t : KernTask}
    (h : m.Represents s (c :: (passed ++ t :: ts))) :
    ∃ n, m.nodes t.addr = some n ∧ Holds n t ∧ n.next = (ts.headD c).addr := by
  obtain ⟨n, hn, hholds⟩ := h.node t (by simp)
  have hnext : m.next t.addr = some (ts.headD c).addr := by
    rw [@Represents.next_eq m s (c :: passed) ts t h]
    cases ts <;> rfl
  unfold next at hnext
  rw [hn] at hnext
  exact ⟨n, hn, hholds, Option.some.inj hnext⟩

/-- The process part of a reap. -/
theorem dropThread_spec (hprocs : m.procs = s.procs) (hreleases : m.procReleases = s.releases)
    (t : KernTask) :
    (m.dropThread t.process).procs = (s.reap t).procs ∧
      (m.dropThread t.process).procReleases = (s.reap t).releases := by
  unfold dropThread reap
  dsimp only
  rw [← hprocs]
  have hcount : (s.setProc t.process { m.procs t.process with
      threadCount := (m.procs t.process).threadCount - 1 }).procs =
        Function.update m.procs t.process { m.procs t.process with
          threadCount := (m.procs t.process).threadCount - 1 } := by rw [hprocs]; rfl
  rw [hcount]
  split
  · unfold processExit Sched.processExit
    rw [hcount]
    dsimp only
    split_ifs
    · exact ⟨hcount.symm, hreleases⟩
    · exact ⟨hcount.symm, hreleases⟩
    · dsimp only [setProc] at hcount ⊢
      rw [hreleases, ← hprocs]
      exact ⟨rfl, rfl⟩
  · exact ⟨hcount.symm, hreleases⟩

theorem dropThread_frame (m : TaskMemory) (p : ℕ) :
    (m.dropThread p).nodes = m.nodes ∧ (m.dropThread p).taskListHead = m.taskListHead ∧
      (m.dropThread p).currentTask = m.currentTask ∧
      (m.dropThread p).taskReleases = m.taskReleases := by
  unfold dropThread processExit
  dsimp only
  split_ifs <;> exact ⟨rfl, rfl, rfl, rfl⟩

theorem freeStack_frame (m : TaskMemory) (b : Option ℕ) :
    (m.freeStack b).nodes = m.nodes ∧ (m.freeStack b).taskListHead = m.taskListHead ∧
      (m.freeStack b).currentTask = m.currentTask ∧
      (m.freeStack b).taskReleases = m.taskReleases ∧ (m.freeStack b).procs = m.procs ∧
      (m.freeStack b).procReleases = m.procReleases := by
  cases b <;> exact ⟨rfl, rfl, rfl, rfl, rfl, rfl⟩

theorem dropThread_congr (hprocs : m'.procs = m.procs) (hreleases : m'.procReleases = m.procReleases)
    (p : ℕ) : (m'.dropThread p).procs = (m.dropThread p).procs ∧
      (m'.dropThread p).procReleases = (m.dropThread p).procReleases := by
  unfold dropThread processExit
  dsimp only
  rw [hprocs, hreleases]
  split_ifs <;> exact ⟨rfl, rfl⟩

theorem moveHead_eq {prev next : ℕ} {p n : TaskNode} (hp : m.nodes prev = some p)
    (hn : m.nodes next = some n) : m.moveHead prev next = some { m with
      taskListHead := if m.taskListHead = some next then
        some (if p.state ≠ .dead then prev else n.next) else m.taskListHead } := by
  unfold moveHead
  by_cases hhead : m.taskListHead = some next
  · rw [if_pos hhead, if_pos hhead, hp, hn]
    dsimp only [Option.bind_eq_bind, Option.bind_some]
    split <;> rfl
  · rw [if_neg hhead, if_neg hhead]

/-- What `reapNext` does to the memory, for two tasks of it. -/
theorem reapNext_eq {prev next : ℕ} {p dead : TaskNode} (hp : m.nodes prev = some p)
    (hdead : m.nodes next = some dead) (hne : prev ≠ next) :
    ∃ m', m.reapNext prev next = some (m', dead.next) ∧
      m'.nodes = Function.update (Function.update m.nodes prev (some { p with next := dead.next }))
        next none ∧
      m'.taskListHead = (if m.taskListHead = some next then
        some (if p.state ≠ .dead then prev else dead.next) else m.taskListHead) ∧
      m'.currentTask = m.currentTask ∧
      m'.taskReleases = Function.update m.taskReleases next (m.taskReleases next + 1) ∧
      m'.procs = (m.dropThread dead.process).procs ∧
      m'.procReleases = (m.dropThread dead.process).procReleases := by
  have hset : m.setNext prev dead.next = some { m with
      nodes := Function.update m.nodes prev (some { p with next := dead.next }) } := by
    unfold setNext
    rw [hp]
    rfl
  generalize hm₁ : ({ m with
    nodes := Function.update m.nodes prev (some { p with next := dead.next }) } : TaskMemory) = m₁ at hset
  have hp₁ : m₁.nodes prev = some { p with next := dead.next } := by
    rw [← hm₁]
    exact Function.update_self _ _ _
  have hdead₁ : m₁.nodes next = some dead := by
    rw [← hm₁, ← hdead]
    exact Function.update_of_ne hne.symm _ _
  have hmove := moveHead_eq hp₁ hdead₁
  have hfields : m₁.taskListHead = m.taskListHead ∧ m₁.currentTask = m.currentTask ∧
      m₁.taskReleases = m.taskReleases ∧ m₁.procs = m.procs ∧ m₁.procReleases = m.procReleases := by
    rw [← hm₁]
    exact ⟨rfl, rfl, rfl, rfl, rfl⟩
  obtain ⟨hhead, hcurrent, htaskReleases, hprocs, hprocReleases⟩ := hfields
  have hnodes : m₁.nodes = Function.update m.nodes prev (some { p with next := dead.next }) := by
    rw [← hm₁]
  generalize hm₂ : ({ m₁ with
    taskListHead := if m₁.taskListHead = some next then
      some (if p.state ≠ .dead then prev else dead.next) else m₁.taskListHead } : TaskMemory) = m₂ at hmove
  have hnodes₂ : m₂.nodes = m₁.nodes := by rw [← hm₂]
  generalize hm₃ : (m₂.dropThread dead.process).freeStack dead.stackBase = m₃
  have hdrop := dropThread_frame m₂ dead.process
  have hfree := freeStack_frame (m₂.dropThread dead.process) dead.stackBase
  rw [hm₃] at hfree
  have hnodes₃ : m₃.nodes = m₁.nodes := by rw [hfree.1, hdrop.1, hnodes₂]
  have hprocs₂ : m₂.procs = m.procs := by rw [← hm₂, ← hprocs]
  have hprocReleases₂ : m₂.procReleases = m.procReleases := by rw [← hm₂, ← hprocReleases]
  have hcongr := dropThread_congr hprocs₂ hprocReleases₂ dead.process
  refine ⟨m₃.freeTask next, ?_, ?_, ?_, ?_, ?_, ?_, ?_⟩
  · unfold reapNext
    rw [hdead]
    simp only [Option.bind_eq_bind, Option.bind_some, hset, hmove, hnodes₂, hdead₁, hm₃, hnodes₃, hp₁]
  · rw [← hnodes, ← hnodes₃]
    rfl
  · have hlist : (m₃.freeTask next).taskListHead = m₂.taskListHead := by
      rw [← hdrop.2.1, ← hfree.2.1]
      rfl
    rw [hlist, ← hm₂, ← hhead]
  · have hcur : (m₃.freeTask next).currentTask = m₂.currentTask := by
      rw [← hdrop.2.2.1, ← hfree.2.2.1]
      rfl
    rw [hcur, ← hm₂, ← hcurrent]
  · have hrel : m₃.taskReleases = m.taskReleases := by
      rw [hfree.2.2.2.1, hdrop.2.2.2, ← hm₂]
      exact htaskReleases
    rw [← hrel]
    rfl
  · rw [← hcongr.1, ← hfree.2.2.2.2.1]
    rfl
  · rw [← hcongr.2, ← hfree.2.2.2.2.2]
    rfl

/-! ## The loop -/

/-- The task that was passed over last. -/
theorem exists_prev (c : KernTask) (passed : List KernTask) :
    ∃ xs, c :: passed = xs ++ [passed.getLastD c] := by
  rcases List.eq_nil_or_concat passed with rfl | ⟨us, u, rfl⟩
  · exact ⟨[], rfl⟩
  · refine ⟨c :: us, ?_⟩
    simp

/-- A dead task is taken out of the ring and reaped. -/
theorem Represents.reapNext {passed ts : List KernTask} {t : KernTask}
    (h : m.Represents s (s.current :: (passed ++ t :: ts)))
    (hnodup : ((s.current :: (passed ++ t :: ts)).map KernTask.addr).Nodup) :
    ∃ m', m.reapNext (passed.getLastD s.current).addr t.addr = some (m', (ts.headD s.current).addr) ∧
      m'.Represents
        ({ s with head := s.headAfter (passed.getLastD s.current) t (ts.headD s.current) }.reap t)
        (s.current :: (passed ++ ts)) ∧
      m'.taskReleases = Function.update m.taskReleases t.addr (m.taskReleases t.addr + 1) := by
  obtain ⟨xs, hxs⟩ := exists_prev s.current passed
  generalize hprev : passed.getLastD s.current = x at hxs ⊢
  have hring : s.current :: (passed ++ t :: ts) = xs ++ x :: t :: ts := by
    rw [← List.cons_append, hxs, List.append_assoc, List.singleton_append]
  have hring' : s.current :: (passed ++ ts) = xs ++ x :: ts := by
    rw [← List.cons_append, hxs, List.append_assoc, List.singleton_append]
  obtain ⟨d, hd, hdt, hdnext⟩ := h.behind
  rw [hring] at h hnodup
  rw [hring']
  obtain ⟨p, hp, hpx⟩ := h.node x (by simp)
  have hapart : x.addr ≠ t.addr ∧ ∀ z ∈ xs ++ ts, z.addr ≠ x.addr ∧ z.addr ≠ t.addr := by
    simp only [List.map_append, List.map_cons, List.nodup_append, List.nodup_cons, List.mem_cons,
      List.mem_map] at hnodup
    obtain ⟨-, ⟨hx, ht, -⟩, hcross⟩ := hnodup
    refine ⟨fun he => hx (.inl he), fun z hz => ?_⟩
    rcases List.mem_append.mp hz with hz | hz
    · exact ⟨hcross _ ⟨z, hz, rfl⟩ _ (.inl rfl), hcross _ ⟨z, hz, rfl⟩ _ (.inr (.inl rfl))⟩
    · exact ⟨fun he => hx (.inr ⟨z, hz, he⟩), fun he => ht ⟨z, hz, he⟩⟩
  obtain ⟨hne, hother⟩ := hapart
  obtain ⟨m', hreap, hnodes, hhead, hcurrent, htaskReleases, hprocs, hprocReleases⟩ :=
    reapNext_eq hp hd hne
  have hnodeOf : ∀ z ∈ xs ++ ts, m'.nodes z.addr = m.nodes z.addr := by
    intro z hz
    obtain ⟨hzx, hzt⟩ := hother z hz
    rw [hnodes, Function.update_of_ne hzt, Function.update_of_ne hzx]
  have hnodeX : m'.nodes x.addr = some { p with next := d.next } := by
    rw [hnodes, Function.update_of_ne hne, Function.update_self]
  have hdrop := @dropThread_spec m { s with head := s.headAfter x t (ts.headD s.current) }
    h.procs h.releases t
  refine ⟨m', hdnext ▸ hreap, ⟨?_, ?_, fun z hz => ?_, ?_, ?_, ?_⟩, htaskReleases⟩
  · rw [hcurrent, (reap_ring _ t).1]
    exact h.current
  · rw [hhead, reap_head, h.head, hpx.state, hdnext]
    unfold headAfter
    by_cases ht : t.addr = s.head
    · rw [if_pos ht, if_pos (congrArg some ht.symm)]
    · rw [if_neg ht, if_neg fun he => ht (Option.some.inj he).symm]
  · rcases List.mem_append.mp hz with hz | hz
    · rw [hnodeOf z (List.mem_append_left ts hz)]
      exact h.node z (List.mem_append_left _ hz)
    rcases List.mem_cons.mp hz with rfl | hz
    · exact ⟨_, hnodeX, hpx.tid, hpx.state, hpx.process⟩
    · rw [hnodeOf z (List.mem_append_right xs hz)]
      exact h.node z (by simp [hz])
  · have hcycle := h.cycle
    rw [List.map_append, List.map_cons, List.map_cons] at hcycle
    rw [List.map_append, List.map_cons]
    refine hcycle.remove ?_ fun z hz => ?_
    · unfold next
      rw [hnodeX, hd]
      rfl
    · rw [← List.map_append] at hz
      obtain ⟨u, hu, rfl⟩ := List.mem_map.mp hz
      unfold next
      rw [hnodeOf u hu]
  · rw [hprocs, hdt.process]
    exact hdrop.1
  · rw [hprocReleases, hdt.process]
    exact hdrop.2

theorem addr_ne_of_nodup {passed ts : List KernTask} {c t : KernTask}
    (hnodup : ((c :: (passed ++ t :: ts)).map KernTask.addr).Nodup) : t.addr ≠ c.addr := by
  intro he
  rw [List.map_cons, List.nodup_cons] at hnodup
  exact hnodup.1 (he ▸ List.mem_map_of_mem (by simp))

/-- A task that cannot be given the CPU is blocked or dead. -/
theorem Holds.stopped_iff {n : TaskNode} {t : KernTask} (h : Holds n t) :
    n.state = .blocked ∨ n.state = .dead ↔ ¬ Sched.Runs t := by
  unfold Sched.Runs
  rw [h.state]
  cases t.state <;> decide

/-- The second loop comes round when no task can run. -/
theorem findFallback_round {ts : List KernTask} : ∀ {passed : List KernTask} {fuel : ℕ},
    m.Represents s (s.current :: (passed ++ ts)) →
    ((s.current :: (passed ++ ts)).map KernTask.addr).Nodup →
    (∀ t ∈ ts, ¬ Sched.Runs t) → ts.length < fuel →
    m.findFallback s.current.addr fuel (ts.headD s.current).addr = some s.current.addr := by
  induction ts with
  | nil =>
    intro passed fuel h _ _ hfuel
    obtain ⟨fuel, rfl⟩ := Nat.exists_eq_add_one.mpr hfuel
    obtain ⟨n, hn, -⟩ := h.node s.current List.mem_cons_self
    unfold findFallback
    rw [List.headD_nil, hn]
    dsimp only [Option.bind_eq_bind, Option.bind_some]
    rw [if_neg fun hc => hc.2 rfl]
  | cons t ts ih =>
    intro passed fuel h hnodup hstop hfuel
    obtain ⟨fuel, rfl⟩ := Nat.exists_eq_add_one.mpr (Nat.lt_of_le_of_lt (Nat.zero_le _) hfuel)
    obtain ⟨n, hn, hholds, hnext⟩ := h.behind
    have hstopped := hholds.stopped_iff.mpr (hstop t List.mem_cons_self)
    have hne := addr_ne_of_nodup hnodup
    have hpassed : passed ++ t :: ts = (passed ++ [t]) ++ ts := by
      rw [List.append_assoc, List.singleton_append]
    rw [hpassed] at h hnodup
    unfold findFallback
    rw [List.headD_cons, hn]
    dsimp only [Option.bind_eq_bind, Option.bind_some]
    rw [if_pos ⟨hstopped.symm, hne⟩, hnext]
    exact ih h hnodup (fun u hu => hstop u (List.mem_cons_of_mem t hu))
      (Nat.lt_of_succ_lt_succ hfuel)

/-- The CPU goes to another task of the ring. -/
theorem Represents.switch {passed ts : List KernTask} {t : KernTask}
    (h : m.Represents s (s.current :: (passed ++ t :: ts))) :
    ({ m with currentTask := some t.addr } : TaskMemory).Represents
      { s with current := t, others := ts ++ s.current :: passed }
      (t :: (ts ++ s.current :: passed)) := by
  rw [← List.cons_append] at h
  have hturn := h.rotate
  exact ⟨rfl, hturn.head, hturn.node, hturn.cycle, hturn.procs, hturn.releases⟩

/-- The end of `sched_run_next` when its loop has come round. -/
theorem finish_round {passed : List KernTask} (h : m.Represents s (s.current :: passed))
    (hnodup : ((s.current :: passed).map KernTask.addr).Nodup) {fuel : ℕ}
    (hfuel : passed.length < fuel) (prev : ℕ) :
    ∃ m', m.finish fuel s.current.addr ⟨prev, s.current.addr,
        ((passed.filter fun t => decide (Sched.Runs t)).getLast?).map KernTask.addr⟩ = some m' ∧
      m'.Represents (s.wrapAround passed) (s.wrapAround passed).ring ∧
      m'.taskReleases = m.taskReleases := by
  obtain ⟨n, hn, hholds⟩ := h.node s.current List.mem_cons_self
  have hround : m.Represents { s with others := passed } (s.current :: passed) :=
    ⟨h.current, h.head, h.node, h.cycle, h.procs, h.releases⟩
  unfold finish wrapAround
  dsimp only
  rw [if_pos rfl, hn]
  dsimp only [Option.bind_eq_bind, Option.bind_some]
  by_cases hruns : Sched.Runs s.current
  · rw [if_pos hruns, if_neg fun hstopped => hholds.stopped_iff.mp hstopped.symm hruns]
    exact ⟨m, rfl, hround, rfl⟩
  rw [if_neg hruns, if_pos (hholds.stopped_iff.mpr hruns).symm]
  cases hidle : (passed.filter fun t => decide (Sched.Runs t)).getLast? with
  | none =>
    have hstop : ∀ t ∈ passed, ¬ Sched.Runs t := by
      rw [List.getLast?_eq_none_iff, List.filter_eq_nil_iff] at hidle
      exact fun t ht hr => hidle t ht (decide_eq_true hr)
    have hnext : n.next = (passed.headD s.current).addr := by
      have hbehind := @Represents.next_eq m s [] passed s.current h
      unfold next at hbehind
      rw [hn, List.append_nil] at hbehind
      exact Option.some.inj hbehind
    have hfind := @findFallback_round m s passed [] fuel h hnodup hstop hfuel
    dsimp only [Option.map_none]
    rw [hnext, hfind]
    dsimp only [Option.bind_some]
    rw [if_neg (not_not.mpr rfl)]
    exact ⟨m, rfl, hround, rfl⟩
  | some idle =>
    have hmem := List.mem_filter.mp (List.mem_of_mem_getLast? hidle)
    obtain ⟨t, ts, hdrop, hsplit, haddr⟩ := exists_dropWhile hmem.1
    dsimp only [Option.map_some]
    rw [hdrop]
    dsimp only
    generalize passed.takeWhile (fun t => decide (t.addr ≠ idle.addr)) = before at hsplit ⊢
    subst hsplit
    have hapart : idle.addr ≠ s.current.addr := haddr ▸ addr_ne_of_nodup hnodup
    obtain ⟨d, hd, hidled⟩ := h.node idle (List.mem_cons_of_mem _ hmem.1)
    have hrunning : ¬ (d.state = .dead ∨ d.state = .blocked) := fun hstopped =>
      hidled.stopped_iff.mp hstopped.symm (of_decide_eq_true hmem.2)
    have hfind : m.findFallback s.current.addr fuel idle.addr = some idle.addr := by
      obtain ⟨fuel, rfl⟩ := Nat.exists_eq_add_one.mpr (Nat.lt_of_le_of_lt (Nat.zero_le _) hfuel)
      unfold findFallback
      rw [hd]
      dsimp only [Option.bind_eq_bind, Option.bind_some]
      rw [if_neg fun hc => hrunning hc.1]
    rw [if_pos hapart, hfind]
    dsimp only [Option.bind_some]
    rw [if_pos hapart, ← haddr]
    exact ⟨_, rfl, h.switch, rfl⟩

/-- The releases of a task, and the places it has in a ring. -/
def held (m : TaskMemory) (ring : List KernTask) (a : ℕ) : ℕ :=
  m.taskReleases a + (ring.map KernTask.addr).count a

theorem held_perm {ring ring' : List KernTask} (h : ring'.Perm ring) (a : ℕ) :
    m.held ring' a = m.held ring a := by
  unfold held
  rw [(h.map KernTask.addr).count_eq]

/-- A reaped task is released, and leaves the ring. -/
theorem held_reap {ring ring' : List KernTask} {t : KernTask} (h : ring.Perm (t :: ring'))
    (hreleases : m'.taskReleases = Function.update m.taskReleases t.addr (m.taskReleases t.addr + 1))
    (a : ℕ) : m'.held ring' a = m.held ring a := by
  rw [held_perm h]
  unfold held
  rw [hreleases, List.map_cons]
  by_cases ha : a = t.addr
  · subst ha
    rw [Function.update_self, List.count_cons_self]
    omega
  · rw [Function.update_of_ne ha, List.count_cons_of_ne (Ne.symm ha)]

/-- The loop and what follows it do what the scan does to the list of tasks, with every task that leaves
the ring released. -/
theorem walk_simulates (idleNeedsRun : Bool) (ts : List KernTask) :
    ∀ {passed : List KernTask} {s : Sched} {m : TaskMemory} {fuel rest : ℕ},
      m.Represents s (s.current :: (passed ++ ts)) →
      ((s.current :: (passed ++ ts)).map KernTask.addr).Nodup →
      ts.length < fuel → passed.length + ts.length < rest →
      ∃ m', ((walk idleNeedsRun s.current.addr fuel ⟨(passed.getLastD s.current).addr,
            (ts.headD s.current).addr,
            ((passed.filter fun t => decide (Sched.Runs t)).getLast?).map KernTask.addr⟩ m).bind
          fun r => r.2.finish rest s.current.addr r.1) = some m' ∧
        m'.Represents (scan idleNeedsRun passed ts s) (scan idleNeedsRun passed ts s).ring ∧
        ∀ a, m'.held (scan idleNeedsRun passed ts s).ring a = m.held (s.current :: (passed ++ ts)) a := by
  induction ts with
  | nil =>
    intro passed s m fuel rest h hnodup hfuel hrest
    obtain ⟨fuel, rfl⟩ := Nat.exists_eq_add_one.mpr hfuel
    rw [List.append_nil] at h hnodup ⊢
    obtain ⟨m', hfinish, hrep, hreleases⟩ :=
      finish_round h hnodup hrest (passed.getLastD s.current).addr
    refine ⟨m', ?_, hrep, fun a => ?_⟩
    · unfold walk
      rw [List.headD_nil, if_pos h.current.symm]
      exact hfinish
    · rw [scan, held_perm (wrapAround_spec s passed).1]
      unfold held
      rw [hreleases]
  | cons t ts ih =>
    intro passed s m fuel rest h hnodup hfuel hrest
    obtain ⟨fuel, rfl⟩ := Nat.exists_eq_add_one.mpr (Nat.lt_of_le_of_lt (Nat.zero_le _) hfuel)
    obtain ⟨n, hn, hholds, hnext⟩ := h.behind
    have hne := addr_ne_of_nodup hnodup
    have hcurrent : some t.addr ≠ m.currentTask := by
      rw [h.current]
      exact fun he => hne (Option.some.inj he)
    rw [List.length_cons] at hfuel hrest
    unfold walk
    rw [List.headD_cons, if_neg hcurrent, hn]
    dsimp only [Option.bind_eq_bind, Option.bind_some]
    rw [scan, hholds.state, hholds.tid]
    by_cases hdead : t.state = .dead ∧ t.tid ≠ 0
    · rw [if_pos hdead, if_pos hdead]
      obtain ⟨m₁, hreap, hrep, hreleases⟩ := h.reapNext hnodup
      rw [hreap]
      dsimp only [Option.bind_some]
      generalize hs₁ : { s with
        head := s.headAfter (passed.getLastD s.current) t (ts.headD s.current) }.reap t = s₁ at hrep ⊢
      have hcur : s₁.current = s.current := by
        rw [← hs₁]
        exact (reap_ring _ t).1
      have hperm : (s.current :: (passed ++ t :: ts)).Perm (t :: s.current :: (passed ++ ts)) :=
        (List.perm_middle.cons s.current).trans (List.Perm.swap t s.current _)
      have hnodup₁ := (hperm.map KernTask.addr).nodup_iff.mp hnodup
      rw [List.map_cons, List.nodup_cons] at hnodup₁
      rw [← hcur] at hrep hnodup₁
      obtain ⟨m', hrun, hrep', hheld⟩ := @ih passed s₁ m₁ fuel rest hrep hnodup₁.2 (by omega) (by omega)
      rw [hcur] at hrun
      refine ⟨m', hrun, hrep', fun a => (hheld a).trans ?_⟩
      rw [hcur]
      exact held_reap hperm hreleases a
    rw [if_neg hdead, if_neg hdead]
    -- a task that is passed over stays in its place
    have hpassed : passed ++ t :: ts = (passed ++ [t]) ++ ts := by
      rw [List.append_assoc, List.singleton_append]
    have hlast : (passed ++ [t]).getLastD s.current = t := by simp
    have hpass : ∀ idle : Option ℕ, idle = (((passed ++ [t]).filter fun t =>
        decide (Sched.Runs t)).getLast?).map KernTask.addr →
        ∃ m', ((walk idleNeedsRun s.current.addr fuel ⟨t.addr, n.next, idle⟩ m).bind
            fun r => r.2.finish rest s.current.addr r.1) = some m' ∧
          m'.Represents (scan idleNeedsRun (passed ++ [t]) ts s)
            (scan idleNeedsRun (passed ++ [t]) ts s).ring ∧
          ∀ a, m'.held (scan idleNeedsRun (passed ++ [t]) ts s).ring a =
            m.held (s.current :: (passed ++ t :: ts)) a := by
      intro idle hidle
      rw [hpassed] at h hnodup ⊢
      have hrun := @ih (passed ++ [t]) s m fuel rest h hnodup (by omega)
        (by rw [List.length_append, List.length_singleton]; omega)
      rw [hlast, ← hnext, ← hidle] at hrun
      exact hrun
    by_cases hruns : Sched.Runs t
    swap
    · have hstopped := hholds.stopped_iff.mpr hruns
      rw [hholds.state] at hstopped
      rw [if_pos hstopped, if_pos (.inl hruns)]
      refine hpass _ ?_
      rw [List.filter_append, List.filter_singleton, decide_eq_false hruns]
      simp
    have hstopped := mt hholds.stopped_iff.mp (not_not.mpr hruns)
    rw [hholds.state] at hstopped
    rw [if_neg hstopped]
    by_cases hidle : t.tid = 0 ∧ ¬ idleNeedsRun
    · rw [if_pos ⟨hidle.1, hidle.2, hne⟩, if_pos (.inr hidle)]
      refine hpass _ ?_
      rw [List.filter_append, List.filter_singleton, decide_eq_true hruns]
      simp
    · rw [if_neg fun hc => hidle ⟨hc.1, hc.2.1⟩, if_neg (not_or.mpr ⟨not_not.mpr hruns, hidle⟩)]
      dsimp only [Option.bind_some]
      unfold finish
      dsimp only
      rw [if_neg hne]
      refine ⟨_, rfl, h.switch, fun a => ?_⟩
      have hturn : ((t :: ts) ++ s.current :: passed).Perm (s.current :: passed ++ t :: ts) :=
        List.perm_append_comm
      exact held_perm hturn a

/-- `sched_run_next` on the pointers does what it does to the list of tasks. -/
theorem schedRunNext_simulates {m : TaskMemory} {s : Sched} (h : m.Represents s s.ring)
    (hnodup : (s.ring.map KernTask.addr).Nodup) (idleNeedsRun : Bool) {fuel : ℕ}
    (hfuel : s.others.length < fuel) :
    ∃ m', m.schedRunNext idleNeedsRun fuel = some m' ∧
      m'.Represents (s.schedRunNext idleNeedsRun) (s.schedRunNext idleNeedsRun).ring ∧
      ∀ a, m'.held (s.schedRunNext idleNeedsRun).ring a = m.held s.ring a := by
  obtain ⟨n, hn, -⟩ := h.node s.current List.mem_cons_self
  have hnext : n.next = (s.others.headD s.current).addr := by
    have hbehind := @Represents.next_eq m s [] s.others s.current h
    unfold next at hbehind
    rw [hn, List.append_nil] at hbehind
    exact Option.some.inj hbehind
  obtain ⟨m', hrun, hrep, hheld⟩ := @walk_simulates idleNeedsRun s.others [] s m fuel fuel h hnodup hfuel
    (by rw [List.length_nil]; omega)
  refine ⟨m', ?_, hrep, hheld⟩
  unfold TaskMemory.schedRunNext
  rw [h.current]
  dsimp only
  rw [hn]
  dsimp only [Option.bind_eq_bind, Option.bind_some]
  rw [hnext]
  exact hrun

/-! ## A scheduler step -/

/-- What `sched_run_next` does to a list of different tasks. -/
theorem schedRunNext_spec {s : Sched} (hnodup : (s.ring.map KernTask.addr).Nodup)
    (hhead : ∃ t ∈ s.ring, t.addr = s.head) (idleNeedsRun : Bool) :
    ((s.schedRunNext idleNeedsRun).ring.map KernTask.addr).Nodup ∧
      (∃ t ∈ (s.schedRunNext idleNeedsRun).ring, t.addr = (s.schedRunNext idleNeedsRun).head) ∧
      (∀ t ∈ (s.schedRunNext idleNeedsRun).ring, t ∈ s.ring) ∧
      (∀ t ∈ s.ring, t ∉ (s.schedRunNext idleNeedsRun).ring →
        t ≠ s.current ∧ t.state = .dead ∧ t.tid ≠ 0) ∧
      ((∃ t ∈ s.ring, Sched.Runs t) → Sched.Runs (s.schedRunNext idleNeedsRun).current) := by
  obtain ⟨dead, rest, hdead, hperm, hring, -⟩ := schedRunNext_cases s idleNeedsRun
  have hall : s.ring.Perm (dead ++ s.current :: rest) :=
    (hperm.cons s.current).trans List.perm_middle.symm
  refine ⟨?_, scan_head idleNeedsRun s.others [] s hhead, fun t ht => mem_ring_of_schedRunNext ht,
    fun t ht hgone => ?_, scan_runs idleNeedsRun s.others [] s hnodup⟩
  · have hnodup' := (hall.map KernTask.addr).nodup_iff.mp hnodup
    rw [List.map_append] at hnodup'
    exact (hring.map KernTask.addr).nodup_iff.mpr hnodup'.of_append_right
  · have hstays : t ∉ s.current :: rest := fun hin => hgone (hring.mem_iff.mpr hin)
    have hreaped := (List.mem_append.mp (hall.mem_iff.mp ht)).resolve_right hstays
    exact ⟨fun he => hstays (he ▸ List.mem_cons_self), hdead t hreaped⟩

/-- The task at an address, as an element of a ring. -/
def taskAt (m : TaskMemory) (a : ℕ) : KernTask :=
  match m.nodes a with
  | some n => ⟨a, n.tid, n.state, n.process, 0, .outside⟩
  | none => ⟨a, 0, .dead, 0, 0, .outside⟩

theorem taskAt_addr (m : TaskMemory) (a : ℕ) : (m.taskAt a).addr = a := by
  unfold taskAt
  split <;> rfl

/-- A scheduler with the tasks of a memory, from the current one on. -/
def sched (m : TaskMemory) (current head : ℕ) (others : List ℕ) : Sched where
  current := m.taskAt current
  others := others.map m.taskAt
  head := head
  tasks := 0
  taskIdC := 0
  procs := m.procs
  created := 0
  processIdC := 0
  releases := m.procReleases
  started _ := true

theorem sched_addrs (m : TaskMemory) (current head : ℕ) (others : List ℕ) :
    (m.sched current head others).ring.map KernTask.addr = current :: others := by
  unfold sched ring
  rw [List.map_cons, List.map_map, taskAt_addr]
  have hid : KernTask.addr ∘ m.taskAt = id := funext fun a => m.taskAt_addr a
  rw [hid, List.map_id]

theorem holds_taskAt {a : ℕ} {n : TaskNode} (hn : m.nodes a = some n) : Holds n (m.taskAt a) := by
  unfold taskAt
  rw [hn]
  exact ⟨rfl, rfl, rfl⟩

/-- A task may be given the CPU in the memory if it may in the list. -/
theorem runs_iff {a : ℕ} {n : TaskNode} {t : KernTask} (hn : m.nodes a = some n) (h : Holds n t) :
    m.Runs a ↔ Sched.Runs t := by
  unfold Runs Sched.Runs
  rw [hn, ← h.state]
  constructor
  · rintro ⟨n', he, hruns⟩
    rwa [Option.some.inj he]
  · exact fun hruns => ⟨n, rfl, hruns⟩

/-- A ring of tasks in memory, written from the current task on. -/
theorem WellFormed.represents {ring : Cycle ℕ} (h : m.WellFormed ring) :
    ∃ current head others, ring = (current :: others : List ℕ) ∧
      (∃ t ∈ (m.sched current head others).ring, t.addr = head) ∧
      m.Represents (m.sched current head others) (m.sched current head others).ring := by
  obtain ⟨current, hcur, hcurrent⟩ := h.current
  obtain ⟨head, hhead, htaskListHead⟩ := h.head
  have hrep : ∃ l : List ℕ, (l : Cycle ℕ) = ring := Quot.exists_rep ring
  obtain ⟨l, rfl⟩ := hrep
  obtain ⟨before, after, rfl⟩ := List.append_of_mem (Cycle.mem_coe_iff.mp hcur)
  have hring : ((before ++ current :: after : List ℕ) : Cycle ℕ) =
      (current :: (after ++ before) : List ℕ) := coe_append_comm before (current :: after)
  refine ⟨current, head, after ++ before, hring, ?_, ?_, htaskListHead, fun t ht => ?_, ?_, rfl, rfl⟩
  · have hmem : head ∈ (m.sched current head (after ++ before)).ring.map KernTask.addr := by
      rw [sched_addrs]
      exact Cycle.mem_coe_iff.mp (hring ▸ hhead)
    exact List.mem_map.mp hmem
  · rw [hcurrent]
    exact congrArg some (m.taskAt_addr current).symm
  · have ht' : t ∈ (current :: (after ++ before)).map m.taskAt := ht
    obtain ⟨a, ha, rfl⟩ := List.mem_map.mp ht'
    obtain ⟨n, hn⟩ := Option.isSome_iff_exists.mp (h.node a (hring ▸ Cycle.mem_coe_iff.mpr ha))
    rw [taskAt_addr]
    exact ⟨n, hn, holds_taskAt hn⟩
  · rw [sched_addrs, ← hring]
    exact h.cycle

/-- A scheduler step. For every ring of tasks in memory `sched_run_next` comes to an end; the ring is again
one cycle, with the current task and the head of the list in it, and its tasks are as they were; those that
left it were dead, not the first task and not the current one, and were released once; and the current task
can run if any task of the ring can. -/
theorem scheduler_step (m : TaskMemory) (ring : Cycle ℕ) (hm : m.WellFormed ring) (idleNeedsRun : Bool)
    (fuel : ℕ) (hfuel : ring.length < fuel) :
    ∃ m' ring', m.schedRunNext idleNeedsRun fuel = some m' ∧ m'.WellFormed ring' ∧
      (∀ a ∈ ring', a ∈ ring ∧ ∃ n n', m.nodes a = some n ∧ m'.nodes a = some n' ∧
        n'.tid = n.tid ∧ n'.state = n.state ∧ n'.process = n.process) ∧
      (∀ a ∈ ring, a ∉ ring' → m.currentTask ≠ some a ∧
        (∃ n, m.nodes a = some n ∧ n.state = .dead ∧ n.tid ≠ 0) ∧
        m'.taskReleases a = m.taskReleases a + 1) ∧
      (∀ a, a ∉ ring ∨ a ∈ ring' → m'.taskReleases a = m.taskReleases a) ∧
      ((∃ a ∈ ring, m.Runs a) → ∃ c, m'.currentTask = some c ∧ m'.Runs c) := by
  obtain ⟨current, head, others, rfl, hhead, hrep⟩ := hm.represents
  have haddrs := m.sched_addrs current head others
  have hnodup : ((m.sched current head others).ring.map KernTask.addr).Nodup := by
    rw [haddrs]
    exact Cycle.nodup_coe_iff.mp hm.nodup
  have hlen : (m.sched current head others).others.length = others.length := List.length_map _
  obtain ⟨m', hrun, hrep', hheld⟩ := schedRunNext_simulates hrep hnodup idleNeedsRun
    (by rw [hlen]; exact Nat.lt_of_succ_lt hfuel)
  obtain ⟨hnodup', hhead', hold, hgone, hruns⟩ := schedRunNext_spec hnodup hhead idleNeedsRun
  rw [← haddrs]
  generalize m.sched current head others = s at *
  generalize s.schedRunNext idleNeedsRun = s' at *
  have hmem : ∀ a, a ∈ ((s'.ring.map KernTask.addr : List ℕ) : Cycle ℕ) → ∃ t ∈ s'.ring, t.addr = a :=
    fun a ha => List.mem_map.mp (Cycle.mem_coe_iff.mp ha)
  have hsub : ∀ a, a ∈ s'.ring.map KernTask.addr → a ∈ s.ring.map KernTask.addr := by
    intro a ha
    obtain ⟨t, ht, rfl⟩ := List.mem_map.mp ha
    exact List.mem_map_of_mem (hold t ht)
  have hreaped : ∀ a, a ∈ ((s.ring.map KernTask.addr : List ℕ) : Cycle ℕ) →
      a ∉ ((s'.ring.map KernTask.addr : List ℕ) : Cycle ℕ) →
      ∃ t ∈ s.ring, t.addr = a ∧ t ≠ s.current ∧ t.state = .dead ∧ t.tid ≠ 0 := by
    intro a ha hna
    obtain ⟨t, ht, rfl⟩ := List.mem_map.mp (Cycle.mem_coe_iff.mp ha)
    exact ⟨t, ht, rfl, hgone t ht fun hin => hna (Cycle.mem_coe_iff.mpr (List.mem_map_of_mem hin))⟩
  refine ⟨m', (s'.ring.map KernTask.addr : List ℕ), hrun, ⟨?_, hrep'.cycle, fun a ha => ?_, ?_, ?_⟩,
    fun a ha => ?_, fun a ha hna => ⟨?_, ?_, ?_⟩, fun a ha => ?_, fun hex => ?_⟩
  · exact Cycle.nodup_coe_iff.mpr hnodup'
  · obtain ⟨t, ht, rfl⟩ := hmem a ha
    obtain ⟨n, hn, -⟩ := hrep'.node t ht
    exact Option.isSome_iff_exists.mpr ⟨n, hn⟩
  · exact ⟨s'.current.addr, Cycle.mem_coe_iff.mpr List.mem_cons_self, hrep'.current⟩
  · obtain ⟨t, ht, he⟩ := hhead'
    exact ⟨s'.head, Cycle.mem_coe_iff.mpr (he ▸ List.mem_map_of_mem ht), hrep'.head⟩
  · obtain ⟨t, ht, rfl⟩ := hmem a ha
    obtain ⟨n, hn, hholds⟩ := hrep.node t (hold t ht)
    obtain ⟨n', hn', hholds'⟩ := hrep'.node t ht
    exact ⟨Cycle.mem_coe_iff.mpr (List.mem_map_of_mem (hold t ht)), n, n', hn, hn',
      hholds'.tid.trans hholds.tid.symm, hholds'.state.trans hholds.state.symm,
      hholds'.process.trans hholds.process.symm⟩
  · obtain ⟨t, ht, rfl, hne, -⟩ := hreaped a ha hna
    rw [hrep.current]
    intro he
    exact hne (List.inj_on_of_nodup_map hnodup ht List.mem_cons_self (Option.some.inj he).symm)
  · obtain ⟨t, ht, rfl, -, hdead, htid⟩ := hreaped a ha hna
    obtain ⟨n, hn, hholds⟩ := hrep.node t ht
    exact ⟨n, hn, hholds.state.trans hdead, hholds.tid ▸ htid⟩
  · have hheldA := hheld a
    unfold held at hheldA
    rw [List.count_eq_zero.mpr fun hin => hna (Cycle.mem_coe_iff.mpr hin),
      List.count_eq_one_of_mem hnodup (Cycle.mem_coe_iff.mp ha)] at hheldA
    exact hheldA
  · have hheldA := hheld a
    unfold held at hheldA
    rcases ha with hna | ha
    · have hna' : a ∉ s.ring.map KernTask.addr := fun hin => hna (Cycle.mem_coe_iff.mpr hin)
      rw [List.count_eq_zero.mpr hna', List.count_eq_zero.mpr (mt (hsub a) hna')] at hheldA
      exact hheldA
    · have hin := Cycle.mem_coe_iff.mp ha
      rw [List.count_eq_one_of_mem hnodup' hin, List.count_eq_one_of_mem hnodup (hsub a hin)] at hheldA
      omega
  · obtain ⟨a, ha, hr⟩ := hex
    obtain ⟨t, ht, rfl⟩ := List.mem_map.mp (Cycle.mem_coe_iff.mp ha)
    obtain ⟨n, hn, hholds⟩ := hrep.node t ht
    obtain ⟨c, hc, hholdsC⟩ := hrep'.node s'.current List.mem_cons_self
    have hcruns := hruns ⟨t, ht, (runs_iff hn hholds).mp hr⟩
    exact ⟨s'.current.addr, hrep'.current, (runs_iff hc hholdsC).mpr hcruns⟩

/-- A blocked task that is the current one, a dead one at the head of the list, and one that is ready. -/
def deadHead : TaskMemory where
  nodes a := [⟨0, .blocked, none, 0, 1⟩, ⟨1, .dead, some 7, 1, 2⟩, ⟨2, .ready, some 8, 2, 0⟩][a]?
  taskListHead := some 1
  currentTask := some 0
  procs p := ⟨p, 1, 0, 0⟩
  procReleases _ := 0
  taskReleases _ := 0
  stackReleases _ := 0

theorem deadHead_wellFormed : deadHead.WellFormed ([0, 1, 2] : List ℕ) where
  nodup := Cycle.nodup_coe_iff.mpr (by decide)
  cycle := isCycle_cons.mpr (by decide)
  node a ha := by
    have hall : ∀ a ∈ [0, 1, 2], (deadHead.nodes a).isSome := by decide
    exact hall a (Cycle.mem_coe_iff.mp ha)
  current := ⟨0, Cycle.mem_coe_iff.mpr (by decide), rfl⟩
  head := ⟨1, Cycle.mem_coe_iff.mpr (by decide), rfl⟩

theorem scheduler_step_deadHead : ∃ m' ring', deadHead.schedRunNext false 4 = some m' ∧
    m'.WellFormed ring' ∧ ∃ c, m'.currentTask = some c ∧ m'.Runs c := by
  obtain ⟨m', ring', hrun, hwf, -, -, -, hruns⟩ :=
    scheduler_step deadHead ([0, 1, 2] : List ℕ) deadHead_wellFormed false 4 (by decide)
  exact ⟨m', ring', hrun, hwf, hruns ⟨2, Cycle.mem_coe_iff.mpr (by decide), _, rfl, .inl rfl⟩⟩

end TaskMemory

end Sandflea
