import Mathlib

/-!
# Keyboard input of programs

Keys that are typed go to the queue `fg_key_queue`, from which `fd_read` of descriptor 0 takes them. There is
one queue, and `session_switch` saves it to the session that was active and restores that of the next.
A key press is a turn of the main loop that takes the key from the keyboard, or a turn of the loop in which
`wasm_spawn` waits for a foreground process. What was typed for whom and who took it is recorded in `typed` and
`eaten`, which no function reads.
-/

namespace Sandflea

/-- `FG_QUEUE_SIZE` -/
def fgQueueSize : ℕ := 256

/-- `MAX_SESSIONS` -/
def maxSessions : ℕ := 4

/-- `KEY_F1` -/
def keyF1 : UInt8 := 0x86

/-- `KEY_F4` -/
def keyF4 : UInt8 := 0x89

/-- `KEY_CTRL_C` -/
def keyCtrlC : UInt8 := 0x03

/-- The queue for the foreground process: `fg_key_queue` with its read and write pointers -/
structure FgQueue where
  keys : ℕ → UInt8
  readPtr : ℕ
  writePtr : ℕ

namespace FgQueue

/-- The zeroed queue -/
def zeroed : FgQueue := ⟨fun _ => 0, 0, 0⟩

/-- `keyboard_fg_push` -/
def push (q : FgQueue) (key : UInt8) : FgQueue :=
  let nextWrite := (q.writePtr + 1) % fgQueueSize
  if nextWrite ≠ q.readPtr then
    { q with keys := Function.update q.keys q.writePtr key, writePtr := nextWrite }
  else q

/-- `keyboard_fg_eat` -/
def eat (q : FgQueue) : UInt8 × FgQueue :=
  if q.readPtr = q.writePtr then (0, q)
  else (q.keys q.readPtr, { q with readPtr := (q.readPtr + 1) % fgQueueSize })

/-- `keyboard_fg_flush` -/
def flush (q : FgQueue) : FgQueue := { q with readPtr := q.writePtr }

end FgQueue

/-- A `fd_read` of descriptor 0 that is under way: the lengths of the buffers that are to be filled (one for
the function of `env`), and what is in the first of them. -/
structure StdinRead where
  wasi : Bool
  lens : List ℕ
  bytes : List UInt8
deriving DecidableEq, Repr

/-- What a session keeps of the keyboard while it is not active, and its foreground process. -/
structure SessionKeys where
  fgQueue : FgQueue
  foregroundProc : Option ℕ

/-- A key that a process took, with the foreground process of the active session at that time -/
structure EatenKey where
  reader : ℕ
  foreground : Option ℕ
  key : UInt8
deriving DecidableEq, Repr

/-- The keyboard as programs see it. -/
structure KeyRouting where
  fgQueue : FgQueue
  foregroundProc : Option ℕ
  active : ℕ
  sessions : ℕ → SessionKeys
  /-- `g_compositor_session_id`, when there is a compositor -/
  compositor : Option ℕ
  nextPid : ℕ
  /-- The processes whose tasks are dead -/
  dead : ℕ → Bool
  /-- The loops that wait for a foreground process, with their `killed` -/
  waiters : ℕ → Option Bool
  reads : ℕ → Option StdinRead
  typed : List (ℕ × UInt8)
  eaten : List EatenKey

/-- A step of the main loop or of a task. -/
inductive KeyRoutingStep
  /-- The main loop takes a key. -/
  | key (k : UInt8)
  /-- The loop that waits for a foreground process takes a key. -/
  | waiterKey (pid : ℕ) (k : UInt8)
  /-- `session_switch` from elsewhere -/
  | switch (id : ℕ)
  /-- `wasm_spawn`, which may fail to create the thread -/
  | spawn (foreground wait started : Bool)
  /-- `process_exit` -/
  | exit (pid : ℕ)
  /-- A compositor takes over a session, or ends. -/
  | compositor (session : Option ℕ)
  /-- A process calls `fd_read` of descriptor 0. -/
  | read (pid : ℕ) (wasi : Bool) (lens : List ℕ)
  /-- A turn of the loop of the call -/
  | turn (pid : ℕ)
deriving DecidableEq, Repr

namespace KeyRouting

/-- The state after boot -/
def boot : KeyRouting where
  fgQueue := .zeroed
  foregroundProc := none
  active := 0
  sessions _ := ⟨.zeroed, none⟩
  compositor := none
  nextPid := 1
  dead _ := false
  waiters _ := none
  reads _ := none
  typed := []
  eaten := []

/-- `active_session->foreground_proc` -/
def activeProc (s : KeyRouting) : Option ℕ := (s.sessions s.active).foregroundProc

/-- `compositor_is_active` -/
def compositorIsActive (s : KeyRouting) : Bool := s.compositor == some s.active

/-- `active_session->foreground_proc = proc` -/
def setActiveProc (s : KeyRouting) (proc : Option ℕ) : KeyRouting :=
  { s with
    sessions :=
      Function.update s.sessions s.active { s.sessions s.active with foregroundProc := proc } }

/-- `session_save_globals` and `session_restore_globals` -/
def sessionSwitch (s : KeyRouting) (id : ℕ) : KeyRouting :=
  if maxSessions ≤ id then s
  else if id = s.active then s
  else
    let sessions := Function.update s.sessions s.active ⟨s.fgQueue, s.foregroundProc⟩
    { s with
      sessions := sessions
      active := id
      fgQueue := (sessions id).fgQueue
      foregroundProc := (sessions id).foregroundProc }

/-- `keyboard_fg_push`, with a record of the process that the key is for -/
def pushKey (s : KeyRouting) (k : UInt8) : KeyRouting :=
  { s with
    fgQueue := s.fgQueue.push k
    typed := s.typed ++ (s.activeProc.map fun p => (p, k)).toList }

/-- `sched_kill_process` -/
def kill (s : KeyRouting) (pid : ℕ) : KeyRouting := { s with dead := Function.update s.dead pid true }

/-- `keyboard_fg_flush` -/
def flush (s : KeyRouting) : KeyRouting := { s with fgQueue := s.fgQueue.flush }

/-- The main loop's turn for a key. Without a foreground process the key goes to the prompt. -/
def mainLoopKey (s : KeyRouting) (k : UInt8) : KeyRouting :=
  if k = 0 then s
  else if keyF1 ≤ k ∧ k ≤ keyF4 then s.sessionSwitch (k - keyF1).toNat
  else if k = keyCtrlC then
    match s.activeProc with
    | some pid => ((s.kill pid).setActiveProc none).flush
    | none => s
  else if s.compositorIsActive then s
  else if s.activeProc.isSome then s.pushKey k
  else s

/-- The turn for a key in the loop of `wasm_spawn` that waits for a process -/
def waitLoopKey (s : KeyRouting) (pid : ℕ) (k : UInt8) : KeyRouting :=
  match s.waiters pid with
  | none => s
  | some killed =>
    if k = 0 then s
    else if k = keyCtrlC then
      if killed then s
      else { (s.kill pid).flush with waiters := Function.update s.waiters pid (some true) }
    else s.pushKey k

/-- `wasm_spawn`, as far as the keyboard goes -/
def spawn (s : KeyRouting) (foreground wait started : Bool) : KeyRouting :=
  let pid := s.nextPid
  let s := { s with nextPid := pid + 1 }
  let s :=
    if foreground then ({ s with foregroundProc := some pid }.setActiveProc (some pid)).flush else s
  if started then
    if foreground ∧ wait then { s with waiters := Function.update s.waiters pid (some false) } else s
  else
    let s := s.kill pid
    if foreground then { s with foregroundProc := none }.setActiveProc none else s

/-- `process_exit`, as far as the keyboard goes -/
def processExit (s : KeyRouting) (pid : ℕ) : KeyRouting :=
  { s.kill pid with
    foregroundProc := if s.foregroundProc = some pid then none else s.foregroundProc
    sessions := fun i =>
      if i < maxSessions ∧ (s.sessions i).foregroundProc = some pid then
        { s.sessions i with foregroundProc := none }
      else s.sessions i
    waiters := Function.update s.waiters pid none }

/-- The process runs. -/
def Running (s : KeyRouting) (pid : ℕ) : Prop := pid < s.nextPid ∧ s.dead pid = false

instance (s : KeyRouting) (pid : ℕ) : Decidable (s.Running pid) := inferInstanceAs (Decidable (_ ∧ _))

/-- A turn of the loop of `fd_read`. A buffer that is full, or ends with a line, is followed by the next.
Ctrl+D ends the call, but not that of WASI. -/
def readTurn (s : KeyRouting) (pid : ℕ) (r : StdinRead) : KeyRouting :=
  match r.lens with
  | [] => { s with reads := Function.update s.reads pid none }
  | len :: lens =>
    if len ≤ r.bytes.length then
      { s with reads := Function.update s.reads pid (some { r with lens := lens, bytes := [] }) }
    else
      let (k, fgQueue) := s.fgQueue.eat
      let s :=
        { s with
          fgQueue := fgQueue
          eaten := s.eaten ++
            if s.fgQueue.readPtr = s.fgQueue.writePtr then [] else [⟨pid, s.activeProc, k⟩] }
      if k = 0 then s
      else if k = 4 ∧ ¬ r.wasi then { s with reads := Function.update s.reads pid none }
      else
        let k := if k = 13 then 10 else k
        let r :=
          if k = 8 then { r with bytes := r.bytes.dropLast }
          else if k = 10 then { r with lens := lens, bytes := [] }
          else { r with bytes := r.bytes ++ [k] }
        { s with reads := Function.update s.reads pid (some r) }

/-- The state after a step -/
def step (s : KeyRouting) : KeyRoutingStep → KeyRouting
  | .key k => s.mainLoopKey k
  | .waiterKey pid k => s.waitLoopKey pid k
  | .switch id => s.sessionSwitch id
  | .spawn foreground wait started => s.spawn foreground wait started
  | .exit pid => s.processExit pid
  | .compositor session => { s with compositor := session }
  | .read pid wasi lens =>
    if s.Running pid ∧ s.reads pid = none then
      { s with reads := Function.update s.reads pid (some ⟨wasi, lens, []⟩) }
    else s
  | .turn pid =>
    if s.Running pid then
      match s.reads pid with
      | none => s
      | some r => s.readTurn pid r
    else s

end KeyRouting

end Sandflea
