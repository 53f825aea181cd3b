import Mathlib

/-!
# Commands of the shell

`shell_exec`, with which a program runs a command of the kernel's shell and gets what it prints, and the
commands typed at the prompt. The capture buffer is static, and so is `word`, where the command finds
its parsed words. What a command does is a parameter: a machine that reads `word` at every turn and may print.
What a child of the command prints while its parent waits goes to the parent's capture like its own output.
-/

namespace Sandflea

/-- The size of `k_capture_buf` -/
def captureSize : ℕ := 16384

/-- A call that prints: `term_write` or `screen_push_line` -/
inductive Printed
  | write (bytes : List UInt8)
  | line (str : List UInt8)
deriving DecidableEq, Repr

/-- The output of a call that prints -/
def Printed.bytes : Printed → List UInt8
  | .write bytes => bytes
  | .line str => str ++ [10]

/-- The capture buffer, and how many bytes of output a process has in it -/
structure Capture where
  buf : ℕ → UInt8
  len : ℕ

namespace Capture

/-- The loops of `term_write` and `screen_push_line` that capture bytes, as long as some cells are left -/
def append (margin : ℕ) : List UInt8 → Capture → Capture
  | [], c => c
  | b :: bs, c =>
    if c.len + margin < captureSize then
      append margin bs ⟨Function.update c.buf c.len b, c.len + 1⟩
    else c

/-- The byte behind the output -/
def terminate (c : Capture) : Capture := { c with buf := Function.update c.buf c.len 0 }

/-- What `term_write` and `screen_push_line` do for a process whose output is captured -/
def print (c : Capture) : Printed → Capture
  | .write bytes => (c.append 1 bytes).terminate
  | .line str => ((c.append 2 str).append 1 [10]).terminate

end Capture

/-- The commands, with parsed words `W`, states `K` of a command that runs, and what it may find at a turn
in `I` -/
structure ShellCommands (W K I : Type) where
  /-- `cmd_parse` -/
  parse : List UInt8 → Option W
  start : K
  /-- A turn of the command with the words that `word` points to -/
  turn : W → K → I → Option (K × Option Printed)

variable {W K I : Type}

/-- Where a call of `handle_command_str` is. -/
inductive ExecStage (K : Type)
  | called
  | running (k : K)
  | finished
  /-- The capture is off again. -/
  | collected (captured : ℕ)
deriving DecidableEq, Repr

/-- A call of `shell_exec`, or a command typed at the prompt. What the command found at its turns is
recorded. -/
structure ShellCall (K I : Type) where
  pid : ℕ
  captures : Bool
  command : List UInt8
  maxOut : ℕ
  stage : ExecStage K
  inputs : List I

/-- What a call of `shell_exec` wrote to its caller's buffer, of which `room` bytes are in memory. -/
structure Received (I : Type) where
  pid : ℕ
  command : List UInt8
  maxOut : ℕ
  room : ℕ
  inputs : List I
  bytes : List UInt8
deriving DecidableEq, Repr

/-- The state that commands share -/
structure ShellState (W K I : Type) where
  captureBuf : ℕ → UInt8
  /-- The words that `word` points to, none if they are freed -/
  word : Option W
  captureLen : ℕ → ℕ
  /-- `output_capture_buf` of a process is set. -/
  captureOn : ℕ → Bool
  calls : List (ShellCall K I)
  received : List (Received I)

/-- A step of a process -/
inductive ShellStep (I : Type)
  /-- `shell_exec` starts to capture. -/
  | shellExec (pid : ℕ) (command : List UInt8) (maxOut : ℕ)
  /-- A command is typed at the prompt, where the kernel process runs it. -/
  | typed (command : List UInt8)
  /-- `handle_command_str` parses the command. -/
  | parse (pid : ℕ)
  /-- A turn of the command -/
  | turn (pid : ℕ) (input : I)
  /-- `shell_exec` stops to capture. -/
  | collect (pid : ℕ)
  /-- It copies the output, to a buffer with some bytes in memory. -/
  | copy (pid room : ℕ)
  /-- Another thread or an older child of the process prints. -/
  | printElsewhere (pid : ℕ) (o : Printed)
deriving DecidableEq, Repr

namespace ShellState

/-- Nothing was executed. -/
def init : ShellState W K I where
  captureBuf _ := 0
  word := none
  captureLen _ := 0
  captureOn _ := false
  calls := []
  received := []

/-- The call of a process -/
def callOf (s : ShellState W K I) (pid : ℕ) : Option (ShellCall K I) := s.calls.find? (·.pid = pid)

/-- The call of a process goes on. -/
def setCall (s : ShellState W K I) (c : ShellCall K I) : ShellState W K I :=
  { s with calls := s.calls.map fun d => if d.pid = c.pid then c else d }

/-- The call of a process ends. -/
def endCall (s : ShellState W K I) (pid : ℕ) : ShellState W K I :=
  { s with calls := s.calls.filter (·.pid ≠ pid) }

/-- Output of a process -/
def print (s : ShellState W K I) (pid : ℕ) (o : Printed) : ShellState W K I :=
  if s.captureOn pid then
    let c := Capture.print ⟨s.captureBuf, s.captureLen pid⟩ o
    { s with captureBuf := c.buf, captureLen := Function.update s.captureLen pid c.len }
  else s

/-- `shell_exec` up to the call of `handle_command_str` -/
def shellExec (s : ShellState W K I) (pid : ℕ) (command : List UInt8) (maxOut : ℕ) : ShellState W K I :=
  match s.callOf pid with
  | some _ => s
  | none =>
    { s with
      captureBuf := Function.update s.captureBuf 0 0
      captureLen := Function.update s.captureLen pid 0
      captureOn := Function.update s.captureOn pid true
      calls := s.calls ++ [⟨pid, true, command, maxOut, .called, []⟩] }

/-- `handle_command` -/
def typed (s : ShellState W K I) (command : List UInt8) : ShellState W K I :=
  match s.callOf 0 with
  | some _ => s
  | none => { s with calls := s.calls ++ [⟨0, false, command, 0, .called, []⟩] }

/-- The command line: `shell_exec` copies 255 bytes, and a string ends with the first zero. -/
def commandLine (command : List UInt8) : List UInt8 := (command.take 255).takeWhile (· ≠ 0)

/-- The words of a command, if it has any -/
def words (C : ShellCommands W K I) (command : List UInt8) : Option W :=
  if commandLine command = [] then none else C.parse (commandLine command)

/-- The start of `handle_command_str` -/
def parse (C : ShellCommands W K I) (s : ShellState W K I) (c : ShellCall K I) : ShellState W K I :=
  match c.stage with
  | .called =>
    if commandLine c.command = [] then s.setCall { c with stage := .finished }
    else
      match C.parse (commandLine c.command) with
      | none => { s.setCall { c with stage := .finished } with word := none }
      | some w => { s.setCall { c with stage := .running C.start } with word := some w }
  | _ => s

/-- A turn of the command, and the end of `handle_command_str`, which frees the words -/
def turn (C : ShellCommands W K I) (s : ShellState W K I) (c : ShellCall K I) (input : I) :
    ShellState W K I :=
  match c.stage, s.word with
  | .running k, some w =>
    match C.turn w k input with
    | none => { s.setCall { c with stage := .finished, inputs := c.inputs ++ [input] } with word := none }
    | some (k, none) => s.setCall { c with stage := .running k, inputs := c.inputs ++ [input] }
    | some (k, some o) =>
      (s.setCall { c with stage := .running k, inputs := c.inputs ++ [input] }).print c.pid o
  | _, _ => s

/-- `shell_exec` after the call of `handle_command_str` -/
def collect (s : ShellState W K I) (c : ShellCall K I) : ShellState W K I :=
  match c.stage with
  | .finished =>
    if c.captures then
      { s.setCall { c with stage := .collected (s.captureLen c.pid) } with
        captureLen := Function.update s.captureLen c.pid 0
        captureOn := Function.update s.captureOn c.pid false }
    else s.endCall c.pid
  | _ => s

/-- The copy of the output to the caller's buffer -/
def copy (s : ShellState W K I) (c : ShellCall K I) (room : ℕ) : ShellState W K I :=
  match c.stage with
  | .collected captured =>
    { s.endCall c.pid with
      received := s.received ++ [⟨c.pid, c.command, c.maxOut, room, c.inputs,
        (List.range (min captured (min c.maxOut room))).map s.captureBuf⟩] }
  | _ => s

/-- The state after a step -/
def step (C : ShellCommands W K I) (s : ShellState W K I) : ShellStep I → ShellState W K I
  | .shellExec pid command maxOut => s.shellExec pid command maxOut
  | .typed command => s.typed command
  | .parse pid => (s.callOf pid).elim s fun c => s.parse C c
  | .turn pid input => (s.callOf pid).elim s fun c => s.turn C c input
  | .collect pid => (s.callOf pid).elim s fun c => s.collect c
  | .copy pid room => (s.callOf pid).elim s fun c => s.copy c room
  | .printElsewhere pid o => s.print pid o

end ShellState

end Sandflea
