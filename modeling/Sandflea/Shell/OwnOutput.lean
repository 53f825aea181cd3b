import Sandflea.Shell.ShellExec
import Sandflea.Lib.Runs

/-!
# Callers of shell_exec get their own output

Each call of `shell_exec` gets what its own command prints, in every run in which no command starts before the
last one is over and its output copied, nothing else prints for the process meanwhile, and the output fits
into the capture buffer (`own_output`). The buffer and `word` are shared by all calls: two of them at once
mix their output (`calls_mixed`).
-/

namespace Sandflea

namespace Capture

/-- What is captured -/
def bytes (c : Capture) : List UInt8 := (List.range c.len).map c.buf

/-- Bytes that fit are captured. -/
theorem bytes_append {margin : ℕ} {bs : List UInt8} {c : Capture}
    (hfits : c.len + bs.length + margin ≤ captureSize) :
    (c.append margin bs).bytes = c.bytes ++ bs ∧ (c.append margin bs).len = c.len + bs.length := by
  induction bs generalizing c with
  | nil => exact ⟨(List.append_nil _).symm, rfl⟩
  | cons b bs ih =>
    rw [List.length_cons] at hfits
    have hlt : c.len + margin < captureSize := by omega
    unfold append
    rw [if_pos hlt]
    obtain ⟨hbytes, hlen⟩ := @ih ⟨Function.update c.buf c.len b, c.len + 1⟩ (by simp only; omega)
    refine ⟨?_, by rw [hlen, List.length_cons]; simp only; omega⟩
    rw [hbytes]
    unfold bytes
    dsimp only
    rw [List.range_succ, List.map_append, List.map_singleton, Function.update_self, List.append_assoc,
      List.singleton_append]
    refine congrArg (· ++ b :: bs) (List.map_congr_left fun i hi => ?_)
    exact Function.update_of_ne (List.mem_range.mp hi).ne _ _

@[simp] theorem bytes_terminate (c : Capture) : c.terminate.bytes = c.bytes :=
  List.map_congr_left fun _ hi => Function.update_of_ne (List.mem_range.mp hi).ne _ _

@[simp] theorem len_terminate (c : Capture) : c.terminate.len = c.len := rfl

/-- Output that fits is captured. -/
theorem bytes_print {c : Capture} {o : Printed} (hfits : c.len + o.bytes.length < captureSize) :
    (c.print o).bytes = c.bytes ++ o.bytes := by
  cases o with
  | write bytes =>
    have hfits : c.len + bytes.length < captureSize := hfits
    show (c.append 1 bytes).terminate.bytes = c.bytes ++ bytes
    rw [bytes_terminate, (bytes_append (by omega)).1]
  | line str =>
    have hfits : c.len + (str ++ [10]).length < captureSize := hfits
    rw [List.length_append, List.length_singleton] at hfits
    have hstr : c.len + str.length + 2 ≤ captureSize := by omega
    obtain ⟨hbytes, hlen⟩ := bytes_append hstr
    show ((c.append 2 str).append 1 [10]).terminate.bytes = c.bytes ++ (str ++ [10])
    rw [bytes_terminate, (bytes_append (by rw [hlen, List.length_singleton]; omega)).1, hbytes,
      List.append_assoc]

end Capture

namespace ShellState

variable {W K I : Type} {C : ShellCommands W K I}

/-! ## The property and the condition -/

/-- A command that reads its own words at every turn: its state, if it is not over, and what it printed. -/
def follow (C : ShellCommands W K I) (w : W) (inputs : List I) : Option K × List Printed :=
  inputs.foldl (fun (k, out) input =>
    match k.bind fun k => C.turn w k input with
    | none => (none, out)
    | some (k, o) => (some k, out ++ o.toList)) (some C.start, [])

/-- What a command prints, with what it finds at its turns. -/
def output (C : ShellCommands W K I) (command : List UInt8) (inputs : List I) : List UInt8 :=
  match words C command with
  | none => []
  | some w => (follow C w inputs).2.flatMap Printed.bytes

/-- Each caller got what its own command printed, as far as its buffer goes. -/
def OwnOutput (C : ShellCommands W K I) (s : ShellState W K I) : Prop :=
  ∀ r ∈ s.received, r.bytes = (output C r.command r.inputs).take (min r.maxOut r.room)

/-- Captured output fits into the buffer. -/
def Fits (s : ShellState W K I) (pid : ℕ) (o : Printed) : Prop :=
  s.captureOn pid = true → s.captureLen pid + o.bytes.length < captureSize

instance (s : ShellState W K I) (pid : ℕ) (o : Printed) : Decidable (s.Fits pid o) :=
  inferInstanceAs (Decidable (_ → _))

/-- What a turn of a command prints -/
def turnOutput (C : ShellCommands W K I) (s : ShellState W K I) (pid : ℕ) (input : I) : Option Printed :=
  match (s.callOf pid).map ShellCall.stage, s.word with
  | some (.running k), some w => (C.turn w k input).bind Prod.snd
  | _, _ => none

/-- Commands do not overlap, their output fits, and nothing else prints for their processes. -/
def Alone (C : ShellCommands W K I) (s : ShellState W K I) : ShellStep I → Prop
  | .shellExec _ _ _ => s.calls.isEmpty = true
  | .typed _ => s.calls.isEmpty = true
  | .turn pid input => ∀ o ∈ s.turnOutput C pid input, s.Fits pid o
  | .printElsewhere pid _ => s.captureOn pid = false
  | _ => True

instance (s : ShellState W K I) : ∀ a, Decidable (s.Alone C a)
  | .shellExec _ _ _ | .typed _ => inferInstanceAs (Decidable (_ = _))
  | .turn pid input => inferInstanceAs (Decidable (∀ o ∈ s.turnOutput C pid input, _))
  | .printElsewhere _ _ => inferInstanceAs (Decidable (_ = _))
  | .parse _ | .collect _ | .copy _ _ => .isTrue trivial

/-! ## The invariant -/

/-- The words and the state of a command that runs are what they would be alone. -/
def StageOf (C : ShellCommands W K I) (s : ShellState W K I) (c : ShellCall K I) : ExecStage K → Prop
  | .called => c.inputs = []
  | .running k => ∃ w, words C c.command = some w ∧ s.word = some w ∧ (follow C w c.inputs).1 = some k
  | .finished => True
  | .collected captured =>
    c.captures = true ∧ (List.range captured).map s.captureBuf = output C c.command c.inputs

/-- What a call captured is what its command printed. -/
def CapturedBy (C : ShellCommands W K I) (s : ShellState W K I) (c : ShellCall K I) : Prop :=
  (Capture.mk s.captureBuf (s.captureLen c.pid)).bytes = output C c.command c.inputs

/-- The only call is as it would be alone. -/
structure CallAlone (C : ShellCommands W K I) (s : ShellState W K I) (c : ShellCall K I) : Prop where
  stage : StageOf C s c c.stage
  captured : c.captures = true → (∀ n, c.stage ≠ .collected n) →
    s.captureOn c.pid = true ∧ CapturedBy C s c
  others : ∀ p ≠ c.pid, s.captureOn p = false
  plain : c.captures = false → s.captureOn c.pid = false
  ended : ∀ n, c.stage = .collected n → s.captureOn c.pid = false

/-- What every step keeps that meets the condition -/
structure Quiet (C : ShellCommands W K I) (s : ShellState W K I) : Prop where
  own : OwnOutput C s
  call : s.calls = [] ∧ (∀ p, s.captureOn p = false) ∨ ∃ c, s.calls = [c] ∧ CallAlone C s c

theorem quiet_init : Quiet C init := ⟨fun _ hr => (nomatch hr), .inl ⟨rfl, fun _ => rfl⟩⟩

section

variable {s : ShellState W K I} {c : ShellCall K I}

/-- A command that finds something at one more turn -/
theorem follow_concat (w : W) (inputs : List I) (input : I) :
    follow C w (inputs ++ [input]) =
      match (follow C w inputs).1.bind fun k => C.turn w k input with
      | none => (none, (follow C w inputs).2)
      | some (k, o) => (some k, (follow C w inputs).2 ++ o.toList) := by
  unfold follow
  rw [List.foldl_append]
  rfl

theorem output_of_words {command : List UInt8} {w : W} (h : words C command = some w)
    (inputs : List I) :
    output C command inputs = (follow C w inputs).2.flatMap Printed.bytes := by rw [output, h]

theorem callOf_singleton (h : s.calls = [c]) (pid : ℕ) :
    s.callOf pid = if c.pid = pid then some c else none := by
  rw [callOf, h, List.find?_singleton]
  simp

theorem setCall_singleton (h : s.calls = [c]) {d : ShellCall K I} (hd : d.pid = c.pid) :
    (s.setCall d).calls = [d] := by
  show s.calls.map (fun e => if e.pid = d.pid then d else e) = [d]
  rw [h, List.map_singleton, if_pos hd.symm]

theorem endCall_singleton (h : s.calls = [c]) : (s.endCall c.pid).calls = [] := by
  show s.calls.filter (·.pid ≠ c.pid) = []
  rw [h]
  simp

/-- With the capture of the only call off, nothing is captured. -/
theorem CallAlone.allOff (h : CallAlone C s c) (hoff : s.captureOn c.pid = false) (p : ℕ) :
    s.captureOn p = false := by
  by_cases hp : p = c.pid
  · rw [hp]
    exact hoff
  · exact h.others p hp

/-- `shell_exec` starts with nothing captured. -/
theorem Quiet.shellExec (h : Quiet C s) (hnone : s.calls = []) (pid : ℕ) (command : List UInt8)
    (maxOut : ℕ) : Quiet C (s.shellExec pid command maxOut) := by
  have hoff : ∀ p, s.captureOn p = false := by
    rcases h.call with hcall | ⟨c, hc, -⟩
    · exact hcall.2
    · rw [hnone] at hc
      cases hc
  have hcallOf : s.callOf pid = none := by rw [callOf, hnone, List.find?_nil]
  unfold ShellState.shellExec
  rw [hcallOf]
  refine ⟨h.own, .inr ⟨⟨pid, true, command, maxOut, .called, []⟩, by simp [hnone], ⟨rfl, fun _ _ => ?_,
    fun p hp => (Function.update_of_ne hp _ _).trans (hoff p), fun hf => (nomatch hf),
    fun n hn => (nomatch hn)⟩⟩⟩
  refine ⟨Function.update_self _ _ _, ?_⟩
  have hempty : output C command [] = [] := by
    unfold output
    split <;> rfl
  unfold CapturedBy Capture.bytes
  simp only [Function.update_self, List.range_zero, List.map_nil]
  exact hempty.symm

/-- A command is typed. -/
theorem Quiet.typed (h : Quiet C s) (hnone : s.calls = []) (command : List UInt8) :
    Quiet C (s.typed command) := by
  have hoff : ∀ p, s.captureOn p = false := by
    rcases h.call with hcall | ⟨c, hc, -⟩
    · exact hcall.2
    · rw [hnone] at hc
      cases hc
  have hcallOf : s.callOf 0 = none := by rw [callOf, hnone, List.find?_nil]
  unfold ShellState.typed
  rw [hcallOf]
  exact ⟨h.own, .inr ⟨⟨0, false, command, 0, .called, []⟩, by simp [hnone],
    ⟨rfl, fun hf => (nomatch hf), fun p _ => hoff p, fun _ => hoff 0, fun _ _ => hoff 0⟩⟩⟩

/-- The command is parsed. -/
theorem CallAlone.parse (h : CallAlone C s c) (hcalls : s.calls = [c]) (hown : OwnOutput C s) :
    Quiet C (s.parse C c) := by
  have hstage := h.stage
  have hcap := h.captured
  unfold ShellState.parse
  cases hs : c.stage with
  | running k => exact ⟨hown, .inr ⟨c, hcalls, h⟩⟩
  | finished => exact ⟨hown, .inr ⟨c, hcalls, h⟩⟩
  | collected n => exact ⟨hown, .inr ⟨c, hcalls, h⟩⟩
  | called =>
    dsimp only
    rw [hs] at hstage hcap
    have hset : ∀ st, (s.setCall { c with stage := st }).calls = [{ c with stage := st }] := fun st =>
      setCall_singleton hcalls rfl
    have hinputs : c.inputs = [] := hstage
    have hcap' : c.captures = true → s.captureOn c.pid = true ∧ CapturedBy C s c := fun hc =>
      hcap hc fun n hn => nomatch hn
    split
    · exact ⟨hown, .inr ⟨_, hset _, ⟨trivial, fun hc _ => hcap' hc, h.others, h.plain, fun n hn => (nomatch hn)⟩⟩⟩
    · rename_i hline
      cases hparse : C.parse (commandLine c.command) with
      | none => exact ⟨hown, .inr ⟨_, hset _, ⟨trivial, fun hc _ => hcap' hc, h.others, h.plain, fun n hn => (nomatch hn)⟩⟩⟩
      | some w =>
        refine ⟨hown, .inr ⟨_, hset _, ⟨⟨w, ?_, rfl, ?_⟩, fun hc _ => hcap' hc, h.others, h.plain,
          fun n hn => (nomatch hn)⟩⟩⟩
        · rw [words, if_neg hline, hparse]
        · rw [hinputs]
          rfl

/-- The command takes a turn, with its own words. -/
theorem CallAlone.turn (h : CallAlone C s c) (hcalls : s.calls = [c]) (hown : OwnOutput C s) {input : I}
    (hfits : ∀ o ∈ s.turnOutput C c.pid input, s.Fits c.pid o) : Quiet C (s.turn C c input) := by
  have hstage := h.stage
  have hcap := h.captured
  have hsame : Quiet C s := ⟨hown, .inr ⟨c, hcalls, h⟩⟩
  unfold ShellState.turn
  cases hs : c.stage with
  | called => exact hsame
  | finished => exact hsame
  | collected n => exact hsame
  | running k =>
    rw [hs] at hstage hcap
    obtain ⟨w, hwords, hword, hfollow⟩ := hstage
    rw [hword]
    dsimp only
    have hnext := follow_concat (C := C) w c.inputs input
    rw [hfollow] at hnext
    have hnext : follow C w (c.inputs ++ [input]) = match C.turn w k input with
        | none => (none, (follow C w c.inputs).2)
        | some (k, o) => (some k, (follow C w c.inputs).2 ++ o.toList) := hnext
    have hset : ∀ st, (s.setCall { c with stage := st, inputs := c.inputs ++ [input] }).calls =
        [{ c with stage := st, inputs := c.inputs ++ [input] }] := fun st => setCall_singleton hcalls rfl
    cases hturn : C.turn w k input with
    | none =>
      rw [hturn] at hnext
      have hout : output C c.command (c.inputs ++ [input]) = output C c.command c.inputs := by
        rw [output_of_words hwords, output_of_words hwords, hnext]
      refine ⟨hown, .inr ⟨_, hset _, ⟨trivial, fun hc _ => ?_, h.others, h.plain, fun n hn => (nomatch hn)⟩⟩⟩
      obtain ⟨hon, hbytes⟩ := hcap hc fun n hn => nomatch hn
      exact ⟨hon, hbytes.trans hout.symm⟩
    | some r =>
      obtain ⟨k', o⟩ := r
      rw [hturn] at hnext
      have hstate : (follow C w (c.inputs ++ [input])).1 = some k' := by rw [hnext]
      cases o with
      | none =>
        have hout : output C c.command (c.inputs ++ [input]) = output C c.command c.inputs := by
          rw [output_of_words hwords, output_of_words hwords, hnext]
          exact congrArg _ (List.append_nil _)
        refine ⟨hown, .inr ⟨_, hset _, ⟨⟨w, hwords, hword, hstate⟩, fun hc _ => ?_, h.others, h.plain,
          fun n hn => (nomatch hn)⟩⟩⟩
        obtain ⟨hon, hbytes⟩ := hcap hc fun n hn => nomatch hn
        exact ⟨hon, hbytes.trans hout.symm⟩
      | some o =>
        have hout : output C c.command (c.inputs ++ [input]) =
            output C c.command c.inputs ++ o.bytes := by
          rw [output_of_words hwords, output_of_words hwords, hnext]
          simp
        have hprinted : o ∈ s.turnOutput C c.pid input := by
          unfold turnOutput
          rw [callOf_singleton hcalls, if_pos rfl, Option.map_some, hs, hword]
          simp [hturn]
        dsimp only
        unfold ShellState.print
        by_cases hon : s.captureOn c.pid = true
        · have hfit := hfits o hprinted hon
          rw [if_pos (show (s.setCall _).captureOn c.pid = true from hon)]
          refine ⟨hown, .inr ⟨_, hset _, ⟨⟨w, hwords, hword, hstate⟩, fun hc _ => ⟨hon, ?_⟩, h.others,
            h.plain, fun n hn => (nomatch hn)⟩⟩⟩
          obtain ⟨-, hbytes⟩ := hcap hc fun n hn => nomatch hn
          unfold CapturedBy
          dsimp only
          rw [Function.update_self, hout]
          have hbytes : (Capture.mk s.captureBuf (s.captureLen c.pid)).bytes =
            output C c.command c.inputs := hbytes
          rw [← hbytes]
          exact Capture.bytes_print hfit
        · rw [if_neg (show ¬ (s.setCall _).captureOn c.pid = true from hon)]
          exact ⟨hown, .inr ⟨_, hset _, ⟨⟨w, hwords, hword, hstate⟩,
            fun hc _ => absurd (hcap hc fun n hn => nomatch hn).1 hon, h.others, h.plain, fun n hn => (nomatch hn)⟩⟩⟩

/-- The capture ends. -/
theorem CallAlone.collect (h : CallAlone C s c) (hcalls : s.calls = [c]) (hown : OwnOutput C s) :
    Quiet C (s.collect c) := by
  have hcap := h.captured
  have hsame : Quiet C s := ⟨hown, .inr ⟨c, hcalls, h⟩⟩
  unfold ShellState.collect
  cases hs : c.stage with
  | called => exact hsame
  | running k => exact hsame
  | collected n => exact hsame
  | finished =>
    dsimp only
    rw [hs] at hcap
    cases hc : c.captures with
    | true =>
      rw [if_pos rfl]
      obtain ⟨-, hbytes⟩ := hcap hc fun n hn => nomatch hn
      exact ⟨hown, .inr ⟨_, setCall_singleton hcalls rfl, ⟨⟨rfl, hbytes⟩, fun _ hne => absurd rfl (hne _),
        fun p hp => (Function.update_of_ne hp _ _).trans (h.others p hp), fun hf => (nomatch hf),
        fun _ _ => Function.update_self _ _ _⟩⟩⟩
    | false =>
      rw [if_neg Bool.false_ne_true]
      exact ⟨hown, .inl ⟨endCall_singleton hcalls, h.allOff (h.plain hc)⟩⟩

/-- The output is copied to the caller. -/
theorem CallAlone.copy (h : CallAlone C s c) (hcalls : s.calls = [c]) (hown : OwnOutput C s) (room : ℕ) :
    Quiet C (s.copy c room) := by
  have hstage := h.stage
  have hcap := h.captured
  have hsame : Quiet C s := ⟨hown, .inr ⟨c, hcalls, h⟩⟩
  unfold ShellState.copy
  cases hs : c.stage with
  | called => exact hsame
  | running k => exact hsame
  | finished => exact hsame
  | collected captured =>
    rw [hs] at hstage
    obtain ⟨hc, hbytes⟩ := hstage
    refine ⟨fun r hr => ?_, .inl ⟨endCall_singleton hcalls, h.allOff (h.ended captured hs)⟩⟩
    rcases List.mem_append.mp hr with hr | hr
    · exact hown r hr
    · rw [List.mem_singleton.mp hr]
      dsimp only
      rw [← hbytes, ← List.map_take, List.take_range, Nat.min_comm captured]

/-- What else prints is not captured. -/
theorem Quiet.printElsewhere (h : Quiet C s) {pid : ℕ} (hoff : s.captureOn pid = false) (o : Printed) :
    Quiet C (s.print pid o) := by
  unfold ShellState.print
  rw [if_neg (Bool.eq_false_iff.mp hoff)]
  exact h

/-- A step of the only call -/
theorem Quiet.onCall (h : Quiet C s) {pid : ℕ} {f : ShellCall K I → ShellState W K I}
    (hf : ∀ c, s.calls = [c] → c.pid = pid → CallAlone C s c → Quiet C (f c)) :
    Quiet C ((s.callOf pid).elim s f) := by
  rcases h.call with ⟨hnone, -⟩ | ⟨c, hcalls, hc⟩
  · rw [callOf, hnone, List.find?_nil]
    exact h
  · rw [callOf_singleton hcalls]
    by_cases hpid : c.pid = pid
    · rw [if_pos hpid]
      exact hf c hcalls hpid hc
    · rw [if_neg hpid]
      exact h

/-- A step that meets the condition keeps the invariant. -/
theorem Quiet.step (h : Quiet C s) {a : ShellStep I} (ha : s.Alone C a) : Quiet C (s.step C a) := by
  cases a with
  | shellExec pid command maxOut => exact h.shellExec (List.isEmpty_iff.mp ha) pid command maxOut
  | typed command => exact h.typed (List.isEmpty_iff.mp ha) command
  | parse pid => exact h.onCall fun c hcalls _ hc => hc.parse hcalls h.own
  | turn pid input =>
    refine h.onCall fun c hcalls hpid hc => hc.turn hcalls h.own ?_
    rw [hpid]
    exact ha
  | collect pid => exact h.onCall fun c hcalls _ hc => hc.collect hcalls h.own
  | copy pid room => exact h.onCall fun c hcalls _ hc => hc.copy hcalls h.own room
  | printElsewhere pid o => exact h.printElsewhere ha o

end

/-- In every run whose steps meet the condition, with any commands, each caller of `shell_exec` gets what its
own command prints, in order, as far as its buffer goes. -/
theorem own_output (C : ShellCommands W K I) {as : List (ShellStep I)}
    (has : Runs.Along (step C) (Alone C) init as) : Runs.Always (step C) (OwnOutput C) init as :=
  (Runs.always_of_along (P := Quiet C) (fun _ _ h ha => h.step ha) quiet_init has).mono
    fun _ h => h.own

/-- Two commands of the shell: `pwd` in the directory `//A/`, and one that it does not know. -/
def pwdOrUnknown : ShellCommands (List UInt8) Bool Unit where
  parse command := some command
  start := false
  turn w printed _ :=
    if printed then none
    else if w = "pwd".toUTF8.toList then some (true, some (.line "//A/".toUTF8.toList))
    else some (true, some (.line "Failure to parse command".toUTF8.toList))

/-- A call of `shell_exec` from its start to its end -/
def callAtOnce (pid : ℕ) (command : String) : List (ShellStep Unit) :=
  [.shellExec pid command.toUTF8.toList 64, .parse pid, .turn pid (), .turn pid (), .collect pid,
    .copy pid 64]

/-- Two processes call `shell_exec`, one after the other. -/
theorem own_output_oneByOne :
    Runs.Always (step pwdOrUnknown) (OwnOutput pwdOrUnknown) init
      (callAtOnce 1 "pwd" ++ callAtOnce 2 "hello") :=
  own_output pwdOrUnknown (by decide +kernel)

/-- Process 2 calls `shell_exec` after `pwd` of process 1 printed: process 1 gets what the command of
process 2 printed, as far as its own output was long. -/
theorem calls_mixed :
    ¬ Runs.Always (step pwdOrUnknown) (OwnOutput pwdOrUnknown) init
      [.shellExec 1 "pwd".toUTF8.toList 64, .parse 1, .turn 1 (), .shellExec 2 "hello".toUTF8.toList 64,
        .parse 2, .turn 2 (), .turn 1 (), .collect 1, .copy 1 64] := by
  intro h
  have hown := h.last ⟨1, "pwd".toUTF8.toList, 64, 64, [(), ()], "Failu".toUTF8.toList⟩
    (by decide +kernel)
  exact absurd hown (by decide +kernel)

end ShellState

end Sandflea
