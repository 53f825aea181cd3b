import Sandflea.Lib.Runs
import Sandflea.Sched.Tasks

/-!
# Signals

`ipc_signal_send`, `ipc_signal_wait` and `ipc_signal_poll` of `kern_ipc.c` over the tasks of the
scheduler, and the steps of a kernel with them. A step is what runs without an interrupt: a call of the
scheduler, a whole send or poll, or one section of a wait, which is interruptible between looking for a
signal, blocking and giving up the CPU. The timer may run `sched_run_next` between any two steps.
-/

namespace Sandflea

namespace Sched

/-- `sched_unblock` -/
def unblock (t : KernTask) : KernTask := if t.state = .blocked then { t with state := .ready } else t

/-- The part of `ipc_signal_send` for a process that it found: make the signals pending, and wake the tasks
of the process that are blocked on one of them. -/
def signalProcess (s : Sched) (p : ℕ) (mask : UInt32) : Sched :=
  (s.setProc p { s.procs p with pendingSignals := (s.procs p).pendingSignals ||| mask }).mapTasks
    fun t => if t.process = p ∧ t.state = .blocked ∧ t.signalWaitMask &&& mask ≠ 0 then unblock t else t

/-- `ipc_signal_send` -/
def ipcSignalSend (s : Sched) (targetPid : ℤ) (mask : UInt32) : Sched :=
  if targetPid ≤ 0 ∨ mask = 0 then s
  else
    match s.schedGetByPid targetPid with
    | none => s
    | some target => s.signalProcess target.process mask

/-- Take the pending signals in a mask from the process of the current task. -/
def takeSignals (s : Sched) (mask : UInt32) : Sched :=
  let p := s.procs s.current.process
  s.setProc s.current.process
    { p with pendingSignals := p.pendingSignals &&& ~~~(p.pendingSignals &&& mask) }

/-- `ipc_signal_poll` -/
def ipcSignalPoll (s : Sched) (mask : UInt32) : Sched := s.takeSignals mask

/-- The start of `ipc_signal_wait` -/
def ipcSignalWait (s : Sched) (mask : UInt32) : Sched :=
  if mask = 0 then s else { s with current := { s.current with point := .check mask } }

/-- The next section of `ipc_signal_wait`, if the current task is in it. -/
def continueWait (s : Sched) (idleNeedsRun : Bool) : Sched :=
  match s.current.point with
  | .outside => s
  | .check mask =>
    if (s.procs s.current.process).pendingSignals &&& mask ≠ 0 then
      let s := s.takeSignals mask
      { s with current := { s.current with signalWaitMask := 0, point := .outside } }
    else { s with current := { s.current with signalWaitMask := mask, point := .published mask } }
  | .published mask =>
    -- `sched_block_current`, whatever has happened since the mask was published
    { s with current := { s.current with state := .blocked, point := .blocked mask } }
  | .blocked mask =>
    { s with current := { s.current with point := .check mask } }.schedRunNext idleNeedsRun

end Sched

/-- A step of the kernel. -/
inductive TaskStep
  /-- `process_create` -/
  | createProcess (outcome : Sched.AllocOutcome)
  /-- `task_create_internal` -/
  | createTask (p : ℕ) (outcome : Sched.AllocOutcome)
  /-- `process_exit` by a caller that could not create the first task of the process -/
  | discard (p : ℕ)
  /-- The caller of `process_create` fills in the parent. -/
  | adopt (p : ℕ)
  /-- `sched_thread_exit` -/
  | threadExit
  /-- `sched_kill_process` -/
  | killProcess (pid : ℤ)
  /-- `sched_kill_children` -/
  | killChildren (parentPid : ℤ)
  /-- `sched_run_next`, by the timer or as `sched_yield` -/
  | runNext (idleNeedsRun : Bool)
  /-- The end of `wasm_quake_game`: `process_exit` of the own process -/
  | quakeExit
  /-- `ipc_signal_send` -/
  | signalSend (targetPid : ℤ) (mask : UInt32)
  /-- `ipc_signal_poll` -/
  | signalPoll (mask : UInt32)
  /-- A call of `ipc_signal_wait` -/
  | signalWait (mask : UInt32)
  /-- The current task goes on with its call of `ipc_signal_wait`. -/
  | continueWait (idleNeedsRun : Bool)
deriving DecidableEq, Repr

/-- The current task runs its own code: in `ipc_signal_wait` it only goes on with that. -/
def TaskStep.IsOwn : TaskStep → Prop
  | .runNext _ | .continueWait _ => False
  | _ => True

instance (st : TaskStep) : Decidable st.IsOwn := by
  cases st <;> unfold TaskStep.IsOwn <;> infer_instance

open Sched in
/-- The state after a step. A caller has a process from `process_create`, and gives it up when it could
not create a task in it. -/
def TaskStep.run (s : Sched) (st : TaskStep) : Sched :=
  if st.IsOwn ∧ s.current.point ≠ .outside then s
  else
    match st with
    | .createProcess outcome => s.processCreate outcome
    | .createTask p outcome => if s.IsLive p then s.taskCreateInternal p outcome else s
    | .discard p => if s.IsLive p ∧ s.started p = false then s.processExit p else s
    | .adopt p =>
      if s.IsLive p ∧ s.started p = false then
        s.setProc p { s.procs p with stdoutParentPid := (s.procs s.current.process).pid }
      else s
    | .threadExit => s.schedThreadExit
    | .killProcess pid => s.schedKillProcess pid
    | .killChildren parentPid => s.schedKillChildren parentPid
    | .runNext idleNeedsRun => s.schedRunNext idleNeedsRun
    | .quakeExit => s.processExit s.current.process
    | .signalSend targetPid mask => s.ipcSignalSend targetPid mask
    | .signalPoll mask => s.ipcSignalPoll mask
    | .signalWait mask => s.ipcSignalWait mask
    | .continueWait idleNeedsRun => s.continueWait idleNeedsRun

end Sandflea
