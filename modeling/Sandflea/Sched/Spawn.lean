import Sandflea.Sched.Lifetime

/-!
# Spawning programs

`wasm_spawn` runs in a task of its own process, between steps of all other tasks: those of the child, of
the scheduler that reaps it, and of other spawns. After the child's task is created the spawner goes on
reading the child's process, to wait for it and to return its pid. `Spawn` is one call, with the pid that
was assigned and whether it has read a released object.
-/

namespace Sandflea

open Runs Sched

/-- Where a call of `wasm_spawn` is. -/
inductive SpawnPoint
  /-- The process is created. -/
  | created
  /-- The process is filled in. -/
  | filled
  /-- The task is created. -/
  | started
  /-- In the loop that waits for the child, with the pid that was read. -/
  | waiting (pid : ℤ)
  | returned (pid : ℤ)
  | failed
deriving DecidableEq, Repr

/-- The child has no task yet, and only the spawner knows of it. -/
def SpawnPoint.isUnstarted : SpawnPoint → Bool
  | created | filled => true
  | _ => false

/-- The call has not ended. -/
def SpawnPoint.isOpen : SpawnPoint → Bool
  | returned _ | failed => false
  | _ => true

/-- A call of `wasm_spawn`. -/
structure Spawn where
  /-- The task that makes the call. -/
  task : ℕ
  child : ℕ
  /-- The pid that `process_create` assigned to the child. -/
  pid : ℤ
  wait : Bool
  foreground : Bool
  point : SpawnPoint
  /-- The user has stopped the child. -/
  killed : Bool
  /-- The call has read a released object. -/
  faulted : Bool
deriving DecidableEq, Repr

/-- The scheduler, and the calls of `wasm_spawn` in the order in which they began. -/
structure SpawnState where
  sched : Sched
  begun : ℕ
  spawns : ℕ → Option Spawn

namespace SpawnState

/-- The state at the start. -/
def init : SpawnState := ⟨Sched.init, 0, fun _ => none⟩

/-- A process that only its spawner knows of. -/
def holds (s : SpawnState) (p : ℕ) : Bool :=
  (List.range s.begun).any fun k =>
    match s.spawns k with
    | none => false
    | some sp => sp.point.isUnstarted && sp.child = p

/-- The current task is in a call. -/
def isBusy (s : SpawnState) : Bool :=
  (List.range s.begun).any fun k =>
    match s.spawns k with
    | none => false
    | some sp => sp.point.isOpen && sp.task = s.sched.current.addr

/-- A call goes on. -/
def setSpawn (s : SpawnState) (k : ℕ) (sp : Spawn) : SpawnState :=
  { s with spawns := Function.update s.spawns k (some sp) }

/-- A process object was released. -/
def isReleased (s : SpawnState) (p : ℕ) : Bool := s.sched.releases p ≠ 0

/-- `proc->pid` of the child: what is found in a released object is anything. -/
def readPid (s : SpawnState) (sp : Spawn) (junk : ℤ) : ℤ :=
  if s.isReleased sp.child then junk else (s.sched.procs sp.child).pid

/-- `wasm_spawn`, up to `process_create` -/
def spawnBegin (s : SpawnState) (wait foreground : Bool) (outcome : AllocOutcome) : SpawnState :=
  let sched := s.sched.processCreate outcome
  if outcome = .ok then
    let sp : Spawn := ⟨s.sched.current.addr, s.sched.created, (sched.procs s.sched.created).pid, wait,
      foreground, .created, false, false⟩
    ⟨sched, s.begun + 1, Function.update s.spawns s.begun (some sp)⟩
  else { s with sched := sched }

/-- `wasm_spawn`, up to the creation of the task: the arguments are allocated, and the process is told its
parent, which is read. -/
def spawnFill (s : SpawnState) (k : ℕ) (sp : Spawn) (memory : Bool) : SpawnState :=
  if memory then
    let parent := s.sched.current.process
    let x := s.sched.procs sp.child
    { s with sched := s.sched.setProc sp.child { x with
        stdoutParentPid := (s.sched.procs parent).pid } }.setSpawn k
      { sp with point := .filled
                faulted := sp.faulted || s.isReleased sp.child || s.isReleased parent }
  else
    { s with sched := s.sched.processExit sp.child }.setSpawn k
      { sp with point := .failed, faulted := sp.faulted || s.isReleased sp.child }

/-- The creation of the task in `wasm_spawn` -/
def spawnStart (s : SpawnState) (k : ℕ) (sp : Spawn) (outcome : AllocOutcome) : SpawnState :=
  let sched := s.sched.taskCreateInternal sp.child outcome
  let faulted := sp.faulted || s.isReleased sp.child
  if outcome = .ok then
    { s with sched := sched }.setSpawn k { sp with point := .started, faulted := faulted }
  else
    { s with sched := sched.processExit sp.child }.setSpawn k
      { sp with point := .failed, faulted := faulted }

/-- The return of `wasm_spawn`: it reads the pid of the child. -/
def spawnReturn (s : SpawnState) (k : ℕ) (sp : Spawn) (junk : ℤ) : SpawnState :=
  s.setSpawn k { sp with point := .returned (s.readPid sp junk)
                         faulted := sp.faulted || s.isReleased sp.child }

/-- `wasm_spawn` from the creation of the task on: wait for the child, or return. A turn of the loop looks
through the ring; `ctrlC` says that the user stops the child. -/
def spawnNext (s : SpawnState) (k : ℕ) (sp : Spawn) (junk : ℤ) (ctrlC : Bool) : SpawnState :=
  match sp.point with
  | .started =>
    if sp.wait then
      s.setSpawn k { sp with point := .waiting (s.readPid sp junk)
                             faulted := sp.faulted || s.isReleased sp.child }
    else s.spawnReturn k sp junk
  | .waiting pid =>
    let sp := { sp with faulted := sp.faulted || s.sched.ring.any fun t => s.isReleased t.process }
    match s.sched.schedGetByPid pid with
    | none => s.spawnReturn k sp junk
    | some _ =>
      if sp.foreground && ctrlC && !sp.killed then
        { s with sched := s.sched.schedKillProcess pid }.setSpawn k { sp with killed := true }
      else s.setSpawn k sp
  | _ => s

end SpawnState

/-- A step of the kernel with spawns. -/
inductive SpawnStep
  /-- Any other step. -/
  | kernel (st : TaskStep)
  | spawn (wait foreground : Bool) (outcome : AllocOutcome)
  /-- The `k`-th spawn fills in the process. -/
  | fill (k : ℕ) (memory : Bool)
  /-- The `k`-th spawn creates the task. -/
  | start (k : ℕ) (outcome : AllocOutcome)
  /-- The `k`-th spawn goes on after that. -/
  | next (k : ℕ) (junk : ℤ) (ctrlC : Bool)
deriving DecidableEq, Repr

/-- The process that a caller of the scheduler has to hold for a step. -/
def TaskStep.subject : TaskStep → Option ℕ
  | .createTask p _ | .discard p | .adopt p => some p
  | _ => none

open SpawnState in
/-- The state after a step. The `k`-th spawn goes on in its task, which does nothing else meanwhile. -/
def SpawnStep.run (s : SpawnState) (st : SpawnStep) : SpawnState :=
  let own (k : ℕ) (f : Spawn → SpawnState) : SpawnState :=
    match s.spawns k with
    | none => s
    | some sp => if sp.task = s.sched.current.addr then f sp else s
  match st with
  | .kernel st =>
    if st.subject.any s.holds ∨ st.IsOwn ∧ s.isBusy then s else { s with sched := st.run s.sched }
  | .spawn wait foreground outcome =>
    if s.isBusy ∨ s.sched.current.point ≠ .outside then s else s.spawnBegin wait foreground outcome
  | .fill k memory => own k fun sp => if sp.point = .created then s.spawnFill k sp memory else s
  | .start k outcome => own k fun sp => if sp.point = .filled then s.spawnStart k sp outcome else s
  | .next k junk ctrlC => own k fun sp => s.spawnNext k sp junk ctrlC

end Sandflea
