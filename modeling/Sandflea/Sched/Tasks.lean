import Sandflea.Lib.Words

/-!
# Tasks and processes

The tasks and processes of `kern_sched.c`. The ring of tasks is kept from the current task on: `others`
are those behind it, in the order in which `sched_run_next` looks at them. Objects are known by the number
of their allocation, so that a pointer to a released one still says which it was; `releases` counts how
often each process was given to `kfree`.
-/

namespace Sandflea

/-- The state of a task. -/
inductive TaskState
  | ready
  | running
  | blocked
  | dead
deriving DecidableEq, Repr

/-- Where a task is in `ipc_signal_wait`, between two of its sections without interrupts. -/
inductive WaitPoint
  /-- Not in the call. -/
  | outside
  /-- About to look for a signal. -/
  | check (mask : UInt32)
  /-- The mask is published; about to call `sched_block_current`. -/
  | published (mask : UInt32)
  /-- In `sched_block_current`, about to call `sched_run_next`. -/
  | blocked (mask : UInt32)
deriving DecidableEq, Repr

/-- A task. -/
structure KernTask where
  /-- Which allocation the task is. -/
  addr : ℕ
  tid : ℤ
  state : TaskState
  /-- Which process the task points to. -/
  process : ℕ
  signalWaitMask : UInt32
  point : WaitPoint
deriving DecidableEq, Repr

/-- A process. -/
structure KernProcess where
  pid : ℤ
  threadCount : ℤ
  pendingSignals : UInt32
  stdoutParentPid : ℤ
deriving DecidableEq, Repr

/-- The tasks, the processes and the counters of the scheduler. -/
structure Sched where
  current : KernTask
  others : List KernTask
  /-- `task_list_head` -/
  head : ℕ
  /-- How many tasks were allocated. -/
  tasks : ℕ
  taskIdC : ℤ
  procs : ℕ → KernProcess
  /-- How many processes were allocated. -/
  created : ℕ
  processIdC : ℤ
  /-- How often a process was released. -/
  releases : ℕ → ℕ
  /-- The process has had a task. -/
  started : ℕ → Bool

/-- `kernel_process` -/
def kernelProcess : ℕ := 0

namespace Sched

/-- All tasks, from the current one on. -/
def ring (s : Sched) : List KernTask := s.current :: s.others

/-- The ring from `task_list_head` on. -/
def fromHead (s : Sched) : List KernTask :=
  s.ring.dropWhile (fun t => t.addr ≠ s.head) ++ s.ring.takeWhile (fun t => t.addr ≠ s.head)

/-- Change every task of the ring. -/
def mapTasks (s : Sched) (f : KernTask → KernTask) : Sched :=
  { s with current := f s.current, others := s.others.map f }

/-- Change a process. -/
def setProc (s : Sched) (p : ℕ) (x : KernProcess) : Sched :=
  { s with procs := Function.update s.procs p x }

/-- `sched_init` -/
def init : Sched where
  current := ⟨0, 0, .running, kernelProcess, 0, .outside⟩
  others := []
  head := 0
  tasks := 1
  taskIdC := 0
  procs _ := ⟨0, 1, 0, 0⟩
  created := 1
  processIdC := 0
  releases _ := 0
  started p := p = kernelProcess

/-! ## Processes -/

/-- The allocations of `process_create` (the process and a page for its tables) and of
`task_create_internal` (the task and its stack). -/
inductive AllocOutcome
  | ok
  /-- There is no memory for the first. -/
  | noObject
  /-- There is none for the second; the first is released. -/
  | noPages
deriving DecidableEq, Repr

/-- `process_create`. The number of the process is that of its allocation, `s.created`. -/
def processCreate (s : Sched) (outcome : AllocOutcome) : Sched :=
  if outcome = .noObject then s
  else
    { s with
      processIdC := i32 (s.processIdC + 1)
      procs := Function.update s.procs s.created ⟨i32 (s.processIdC + 1), 0, 0, -1⟩
      releases := Function.update s.releases s.created (if outcome = .ok then 0 else 1)
      created := s.created + 1 }

/-- `process_exit` -/
def processExit (s : Sched) (p : ℕ) : Sched :=
  if p = kernelProcess then s
  else if (s.procs p).pid = -1 then s
  else
    { s.setProc p { s.procs p with pid := -1 } with
      releases := Function.update s.releases p (s.releases p + 1) }

/-- A created process that was not released, which a caller may still hold. -/
def IsLive (s : Sched) (p : ℕ) : Prop := p < s.created ∧ s.releases p = 0

instance (s : Sched) (p : ℕ) : Decidable (s.IsLive p) :=
  inferInstanceAs (Decidable (p < s.created ∧ s.releases p = 0))

/-! ## Tasks -/

/-- Put a task behind the one at an address. -/
def insertAfter (addr : ℕ) (new : KernTask) : List KernTask → List KernTask
  | [] => []
  | t :: ts => if t.addr = addr then t :: new :: ts else t :: insertAfter addr new ts

/-- `task_create_internal` -/
def taskCreateInternal (s : Sched) (p : ℕ) (outcome : AllocOutcome) : Sched :=
  match outcome with
  | .noObject => s
  | .noPages => { s with taskIdC := i32 (s.taskIdC + 1) }
  | .ok =>
    let task : KernTask := ⟨s.tasks, i32 (s.taskIdC + 1), .ready, p, 0, .outside⟩
    let s' := s.setProc p { s.procs p with threadCount := (s.procs p).threadCount + 1 }
    { s' with
      tasks := s.tasks + 1
      taskIdC := i32 (s.taskIdC + 1)
      others := (insertAfter s.head task s.ring).tail
      started := Function.update s.started p true }

/-- `sched_thread_exit`, up to its loop over `sched_yield` -/
def schedThreadExit (s : Sched) : Sched := { s with current := { s.current with state := .dead } }

/-- `sched_get_by_pid` -/
def schedGetByPid (s : Sched) (pid : ℤ) : Option KernTask :=
  if pid < 0 then none else s.fromHead.find? fun t => (s.procs t.process).pid = pid

/-- Mark the tasks of some processes as dead. -/
def killWhere (s : Sched) (P : KernProcess → Bool) : Sched :=
  s.mapTasks fun t => if P (s.procs t.process) then { t with state := .dead } else t

/-- `sched_kill_process` -/
def schedKillProcess (s : Sched) (pid : ℤ) : Sched :=
  if pid < 0 then s else s.killWhere fun p => p.pid = pid

/-- `sched_kill_children` -/
def schedKillChildren (s : Sched) (parentPid : ℤ) : Sched :=
  if parentPid ≤ 0 then s
  else s.killWhere fun p => p.stdoutParentPid = parentPid && p.pid ≠ parentPid

/-! ## The scheduler -/

/-- A task that may be given the CPU. -/
def Runs (t : KernTask) : Prop := t.state = .ready ∨ t.state = .running

instance (t : KernTask) : Decidable (Runs t) :=
  inferInstanceAs (Decidable (t.state = .ready ∨ t.state = .running))

/-- Reap a dead task that was taken out of the ring. -/
def reap (s : Sched) (t : KernTask) : Sched :=
  let s' := s.setProc t.process
    { s.procs t.process with threadCount := (s.procs t.process).threadCount - 1 }
  if (s'.procs t.process).threadCount = 0 then s'.processExit t.process else s'

/-- `task_list_head` after a task is taken out from between two others -/
def headAfter (s : Sched) (prev t next : KernTask) : ℕ :=
  if t.addr = s.head then (if prev.state ≠ .dead then prev.addr else next.addr) else s.head

/-- The end of `sched_run_next` when no other task wants the CPU: a current task that cannot go on gives it
to the idle task, the only one that can and was passed over. -/
def wrapAround (s : Sched) (passed : List KernTask) : Sched :=
  let s := { s with others := passed }
  if Runs s.current then s
  else
    match (passed.filter fun t => decide (Runs t)).getLast? with
    | none => s
    | some idle =>
      match passed.dropWhile fun t => t.addr ≠ idle.addr with
      | [] => s
      | t :: ts =>
        { s with current := t
                 others := ts ++ s.current :: passed.takeWhile fun t => t.addr ≠ idle.addr }

/-- The scan of `sched_run_next`, with the tasks that it has passed over and those to come. Dead tasks are
reaped on the way; `idleNeedsRun` is `sched_idle_needs_run`. -/
def scan (idleNeedsRun : Bool) (passed : List KernTask) : List KernTask → Sched → Sched
  | [], s => s.wrapAround passed
  | t :: ts, s =>
    if t.state = .dead ∧ t.tid ≠ 0 then
      let head := s.headAfter (passed.getLastD s.current) t (ts.headD s.current)
      scan idleNeedsRun passed ts ({ s with head := head }.reap t)
    else if ¬ Runs t ∨ t.tid = 0 ∧ ¬ idleNeedsRun then scan idleNeedsRun (passed ++ [t]) ts s
    else { s with current := t, others := ts ++ s.current :: passed }

/-- `sched_run_next`, for `sched_yield` and the timer -/
def schedRunNext (s : Sched) (idleNeedsRun : Bool) : Sched := scan idleNeedsRun [] s.others s

end Sched

end Sandflea
