import Sandflea.Terminal.Capture
import Sandflea.Wasm.Memory

/-!
# What `shell_exec` returns

The output of a command goes from the capture buffer to the buffer of the caller, cut to the size that the
caller gave and to the end of its memory. `shell_exec` returns how much was captured, not how much it copied.
`shell_exec_reports_iff` says when the two are the same: when the output fits.
-/

namespace Sandflea

open Bytes Runs

/-- What a command does: what it prints, and the memory of the caller after it, which may have grown -/
structure CommandRun where
  prints : List Printed
  memory : Option Guest

/-- The capture buffer after some output, with what was in it before -/
def capturedFrom (old : ℕ → UInt8) (prints : List Printed) : CaptureBuffer :=
  runAll (CaptureBuffer.step captureSize) (.start (Function.update old 0 0)) prints

/-- The command that `shell_exec` takes from the memory of its caller -/
def commandText (g : Guest) (cmdOffset cmdLen : UInt32) : List UInt8 :=
  let clen := if cmdLen < 255 then cmdLen else 255
  (List.range clen.toNat).map fun i => g.bytes (cmdOffset.toNat + i)

/-- What `shell_exec` returns, the memory of the caller after it, and how many bytes were copied -/
structure ExecReply where
  result : ℤ
  memory : Option Guest
  stored : ℕ

/-- The end of `wasm_shell_exec`, with how many bytes were captured -/
def deliver (k_capture_buf : ℕ → UInt8) (captured outOffset maxOut : UInt32) : Option Guest → ExecReply
  | none => ⟨i32 captured.toNat, none, 0⟩
  | some g =>
    if outOffset < g.memSize ∧ 0 < maxOut then
      let copyLen := if maxOut < captured then maxOut else captured
      let copyLen := if g.memSize < outOffset + copyLen then g.memSize - outOffset else copyLen
      let b := copyInto g.bytes outOffset.toNat k_capture_buf 0 copyLen.toNat
      let b :=
        if copyLen < maxOut ∧ outOffset + copyLen < g.memSize then
          Function.update b (outOffset + copyLen).toNat 0
        else b
      ⟨i32 captured.toNat, some ⟨g.memSize, b⟩, copyLen.toNat⟩
    else ⟨i32 captured.toNat, some g, 0⟩

/-- `wasm_shell_exec`. There may be no current process, and then nothing is captured. -/
def wasmShellExec (proc : Bool) (old : ℕ → UInt8) (command : List UInt8 → CommandRun) (memory : Option Guest)
    (cmdOffset cmdLen outOffset maxOut : UInt32) : ExecReply :=
  match memory with
  | none => ⟨-1, none, 0⟩
  | some g =>
    if g.memSize < cmdOffset + cmdLen ∨ g.memSize ≤ outOffset then ⟨-1, some g, 0⟩
    else
      let run := command (commandText g cmdOffset cmdLen)
      let c := capturedFrom old run.prints
      deliver c.mem (if proc then UInt32.ofNat c.len else 0) outOffset maxOut run.memory

/-- The result is the number of bytes that were stored, which are no more than the caller gave room for, lie in
its memory, and are those of the text in the capture buffer. -/
structure ExecReply.Reports (outOffset maxOut : UInt32) (text : List UInt8) (r : ExecReply) : Prop where
  result : r.result = r.stored
  size : r.stored ≤ maxOut.toNat
  memory : ∀ i < r.stored, ∃ g, r.memory = some g ∧ outOffset.toNat + i < g.memSize.toNat ∧
    text[i]? = some (g.bytes (outOffset.toNat + i))

/-- The output, as far as the capture buffer holds it -/
def capturedLength (proc : Bool) (prints : List Printed) : ℕ :=
  if proc then min (prints.flatMap Printed.bytes).length (captureSize - 1) else 0

/-- There is room for so many bytes in the memory of the caller. -/
def RoomFor (outOffset maxOut : UInt32) (memory : Option Guest) (n : ℕ) : Prop :=
  n = 0 ∨ ∃ g, memory = some g ∧ n ≤ maxOut.toNat ∧ outOffset.toNat + n ≤ g.memSize.toNat

/-! ## The capture buffer -/

/-- What is printed is recorded. -/
theorem printed_runAll (c : CaptureBuffer) (prints : List Printed) :
    (runAll (CaptureBuffer.step captureSize) c prints).printed =
      c.printed ++ prints.flatMap Printed.bytes := by
  induction prints generalizing c with
  | nil => rw [runAll_nil, List.flatMap_nil, List.append_nil]
  | cons p prints ih =>
    rw [runAll_cons, ih, List.flatMap_cons, ← List.append_assoc]
    rfl

/-- The buffer keeps its invariant. -/
theorem inv_capturedFrom (old : ℕ → UInt8) {prints : List Printed} (hshort : ∀ p ∈ prints, p.Short) :
    CaptureBuffer.Inv captureSize (Function.update old 0 0) (capturedFrom old prints) := by
  have hsize : captureSize = 16384 := rfl
  suffices h : ∀ c, CaptureBuffer.Inv captureSize (Function.update old 0 0) c →
      CaptureBuffer.Inv captureSize (Function.update old 0 0)
        (runAll (CaptureBuffer.step captureSize) c prints) from
    h _ (.start (by decide) (Function.update_self 0 0 old))
  induction prints with
  | nil => exact fun c hc => hc
  | cons p prints ih =>
    intro c hc
    have hlt := hc.len_lt
    have hsum : c.SumFits p := by
      cases p with
      | write bytes => trivial
      | line str => exact fun _ => by omega
    have hstep := hc.step (by decide) (hshort p List.mem_cons_self) hsum
    exact ih (fun q hq => hshort q (List.mem_cons_of_mem p hq)) _ hstep.1

/-- How much of the output the buffer holds -/
theorem len_capturedFrom (old : ℕ → UInt8) {prints : List Printed} (hshort : ∀ p ∈ prints, p.Short) :
    (capturedFrom old prints).len = capturedLength true prints := by
  have h := inv_capturedFrom old hshort
  have hprinted : (capturedFrom old prints).printed = prints.flatMap Printed.bytes :=
    (printed_runAll _ prints).trans (List.nil_append _)
  have hsize : captureSize = 16384 := rfl
  rw [capturedLength, if_pos rfl, ← hprinted]
  rcases Nat.lt_or_ge (capturedFrom old prints).printed.length captureSize with hlt | hge
  · rw [h.length_captured hlt]
    omega
  · rw [(h.full hge).1]
    omega

/-! ## The copy -/

/-- A copy of output that fits -/
theorem deliver_of_fits (buf : ℕ → UInt8) {captured outOffset maxOut : UInt32} {g : Guest}
    (hpos : captured ≠ 0) (hsize : captured.toNat ≤ maxOut.toNat)
    (hroom : outOffset.toNat + captured.toNat ≤ g.memSize.toNat) :
    ∃ b, deliver buf captured outOffset maxOut (some g) =
        ⟨i32 captured.toNat, some ⟨g.memSize, b⟩, captured.toNat⟩ ∧
      ∀ i < captured.toNat, b (outOffset.toNat + i) = buf i := by
  have hmem := g.memSize.toNat_lt
  have hne : captured.toNat ≠ 0 := fun h => hpos (UInt32.toNat_inj.mp h)
  have hsum : (outOffset + captured).toNat = outOffset.toNat + captured.toNat := by
    rw [UInt32.toNat_add, Nat.mod_eq_of_lt (by omega)]
  have hinside : outOffset < g.memSize ∧ 0 < maxOut := by
    rw [UInt32.lt_iff_toNat_lt, UInt32.lt_iff_toNat_lt, UInt32.toNat_zero]
    omega
  have hcut : ¬ maxOut < captured := by
    rw [UInt32.lt_iff_toNat_lt]
    omega
  have hend : ¬ g.memSize < outOffset + captured := by
    rw [UInt32.lt_iff_toNat_lt, hsum]
    omega
  unfold deliver
  dsimp only
  rw [if_pos hinside, if_neg hcut, if_neg hend]
  refine ⟨_, rfl, fun i hi => ?_⟩
  have hcopied : copyInto g.bytes outOffset.toNat buf 0 captured.toNat (outOffset.toNat + i) = buf i := by
    rw [copyInto_of_mem (by omega) (by omega), Nat.add_sub_cancel_left, Nat.zero_add]
  split
  · rw [hsum, Function.update_of_ne (by omega)]
    exact hcopied
  · exact hcopied

/-- `shell_exec` returns what was captured, whatever it copies. -/
theorem deliver_result (buf : ℕ → UInt8) (captured outOffset maxOut : UInt32) (memory : Option Guest) :
    (deliver buf captured outOffset maxOut memory).result = i32 captured.toNat := by
  unfold deliver
  generalize i32 captured.toNat = result
  split
  · rfl
  · split
    · rfl
    · rfl

/-- The memory has the size that it had after the command. -/
theorem deliver_memSize (buf : ℕ → UInt8) (captured outOffset maxOut : UInt32) (memory : Option Guest) :
    (deliver buf captured outOffset maxOut memory).memory.map Guest.memSize = memory.map Guest.memSize := by
  unfold deliver
  generalize i32 captured.toNat = result
  split
  · rfl
  · split
    · rfl
    · rfl

/-- Nothing is copied when nothing was captured. -/
theorem deliver_stored_zero (buf : ℕ → UInt8) (outOffset maxOut : UInt32) (memory : Option Guest) :
    (deliver buf 0 outOffset maxOut memory).stored = 0 := by
  unfold deliver
  generalize i32 (0 : UInt32).toNat = result
  split
  · rfl
  · rename_i g
    split
    · rename_i hinside
      dsimp only
      have hcut : ¬ maxOut < 0 := UInt32.not_lt_zero
      have hend : ¬ g.memSize < outOffset + 0 := by
        rw [UInt32.add_zero]
        exact UInt32.lt_asymm hinside.1
      rw [if_neg hcut, if_neg hend]
      rfl
    · rfl

/-! ## The call -/

/-- A call whose arguments are accepted -/
theorem wasmShellExec_accepted {g : Guest} {cmdOffset cmdLen outOffset : UInt32}
    (hcmd : cmdOffset + cmdLen ≤ g.memSize) (hout : outOffset < g.memSize) (proc : Bool) (old : ℕ → UInt8)
    (command : List UInt8 → CommandRun) (maxOut : UInt32) :
    wasmShellExec proc old command (some g) cmdOffset cmdLen outOffset maxOut =
      deliver (capturedFrom old (command (commandText g cmdOffset cmdLen)).prints).mem
        (if proc then
          UInt32.ofNat (capturedFrom old (command (commandText g cmdOffset cmdLen)).prints).len else 0)
        outOffset maxOut (command (commandText g cmdOffset cmdLen)).memory := by
  have haccepted : ¬ (g.memSize < cmdOffset + cmdLen ∨ g.memSize ≤ outOffset) :=
    not_or.mpr ⟨UInt32.not_lt.mpr hcmd, UInt32.not_le.mpr hout⟩
  unfold wasmShellExec
  dsimp only
  rw [if_neg haccepted]

/-- What `shell_exec` returns is what it stored exactly if the output, as far as it was captured, fits into the
buffer of the caller. -/
theorem shell_exec_reports_iff {g : Guest} {cmdOffset cmdLen outOffset maxOut : UInt32} {proc : Bool}
    {old : ℕ → UInt8} {command : List UInt8 → CommandRun} (hcmd : cmdOffset + cmdLen ≤ g.memSize)
    (hout : outOffset < g.memSize)
    (hshort : ∀ p ∈ (command (commandText g cmdOffset cmdLen)).prints, p.Short) :
    (wasmShellExec proc old command (some g) cmdOffset cmdLen outOffset maxOut).Reports outOffset maxOut
        (capturedFrom old (command (commandText g cmdOffset cmdLen)).prints).captured ↔
      RoomFor outOffset maxOut (command (commandText g cmdOffset cmdLen)).memory
        (capturedLength proc (command (commandText g cmdOffset cmdLen)).prints) := by
  rw [wasmShellExec_accepted hcmd hout]
  generalize command (commandText g cmdOffset cmdLen) = run at hshort ⊢
  have hlen := len_capturedFrom old hshort
  have hcaptured : (if proc then UInt32.ofNat (capturedFrom old run.prints).len else 0).toNat =
      capturedLength proc run.prints := by
    cases proc with
    | false => rfl
    | true =>
      have hle : capturedLength true run.prints ≤ captureSize - 1 := min_le_right _ _
      have hlt : capturedLength true run.prints < UInt32.size := hle.trans_lt (by decide)
      rw [if_pos rfl, hlen, UInt32.toNat_ofNat_of_lt' hlt]
  have htext : ∀ i < capturedLength proc run.prints,
      (capturedFrom old run.prints).captured[i]? = some ((capturedFrom old run.prints).mem i) := by
    intro i hi
    have hlt : i < (capturedFrom old run.prints).len := by
      cases proc with
      | false => exact absurd hi (Nat.not_lt_zero i)
      | true =>
        rw [hlen]
        exact hi
    unfold CaptureBuffer.captured
    rw [List.getElem?_map, List.getElem?_range hlt]
    rfl
  generalize (if proc then UInt32.ofNat (capturedFrom old run.prints).len else 0) = captured at hcaptured ⊢
  generalize capturedFrom old run.prints = c at htext ⊢
  rw [← hcaptured] at htext ⊢
  have hresult : (deliver c.mem captured outOffset maxOut run.memory).result = captured.toNat := by
    rw [deliver_result]
    refine i32_of_lt ?_
    have hle : capturedLength proc run.prints ≤ 16383 := by
      unfold capturedLength captureSize
      split
      · exact min_le_right _ _
      · exact Nat.zero_le _
    omega
  constructor
  · intro h
    have hstored : captured.toNat = (deliver c.mem captured outOffset maxOut run.memory).stored :=
      Int.ofNat_inj.mp (hresult.symm.trans h.result)
    rcases Nat.eq_zero_or_pos captured.toNat with hzero | hpos
    · exact .inl hzero
    · -- The last byte that was stored is in memory.
      obtain ⟨g', hg', hlast, -⟩ := h.memory (captured.toNat - 1) (by omega)
      have hsame := deliver_memSize c.mem captured outOffset maxOut run.memory
      rw [hg', Option.map_some] at hsame
      obtain ⟨m, hm, hmsize⟩ := Option.map_eq_some_iff.mp hsame.symm
      refine .inr ⟨m, hm, hstored ▸ h.size, ?_⟩
      rw [hmsize]
      omega
  · intro h
    by_cases hzero : captured = 0
    · subst hzero
      have hnone := deliver_stored_zero c.mem outOffset maxOut run.memory
      refine ⟨?_, ?_, fun i hi => ?_⟩
      · rw [hresult, hnone]
        rfl
      · rw [hnone]
        exact Nat.zero_le _
      · rw [hnone] at hi
        exact absurd hi (Nat.not_lt_zero i)
    · have hne : captured.toNat ≠ 0 := fun h0 => hzero (UInt32.toNat_inj.mp h0)
      obtain ⟨m, hm, hsize, hroom⟩ := h.resolve_left hne
      obtain ⟨b, hdeliver, hbytes⟩ := deliver_of_fits c.mem hzero hsize hroom
      rw [hm, hdeliver] at hresult ⊢
      refine ⟨hresult, hsize, fun i hi => ⟨⟨m.memSize, b⟩, rfl, ?_, ?_⟩⟩
      · have hi : i < captured.toNat := hi
        show outOffset.toNat + i < m.memSize.toNat
        omega
      · rw [htext i hi]
        exact congrArg some (hbytes i hi).symm

/-- A command that prints three bytes, for a caller that gives room for two -/
def threeBytes : List UInt8 → CommandRun := fun _ => ⟨[.write [97, 98, 99]], some ⟨64, zeros⟩⟩

/-- There is room for three bytes. -/
theorem shell_exec_reports_threeBytes :
    (wasmShellExec true (fun _ => 7) threeBytes (some ⟨64, zeros⟩) 0 4 61 8).Reports 61 8
      (capturedFrom (fun _ => 7) [.write [97, 98, 99]]).captured :=
  (@shell_exec_reports_iff ⟨64, zeros⟩ 0 4 61 8 true (fun _ => 7) threeBytes (by decide) (by decide) fun p hp => by
    obtain rfl : p = .write [97, 98, 99] := List.mem_singleton.mp hp
    exact show 3 < 2 ^ 31 by decide).mpr (.inr ⟨⟨64, zeros⟩, rfl, by decide, by decide⟩)

/-- A command that prints 12000 bytes for the terminal program, whose buffer has 8192 bytes -/
def longOutput : List UInt8 → CommandRun := fun _ => ⟨[.write (List.replicate 12000 97)], some ⟨65536, zeros⟩⟩

/-- The result is an index behind the buffer of the terminal program. -/
theorem shell_exec_reports_more :
    (wasmShellExec true (fun _ => 0) longOutput (some ⟨65536, zeros⟩) 0 4 1024 8191).result = 12000 ∧
      ¬ (wasmShellExec true (fun _ => 0) longOutput (some ⟨65536, zeros⟩) 0 4 1024 8191).Reports 1024 8191
        (capturedFrom (fun _ => 0) [.write (List.replicate 12000 97)]).captured := by
  have hshort : ∀ p ∈ [Printed.write (List.replicate 12000 97)], p.Short := by
    intro p hp
    obtain rfl := List.mem_singleton.mp hp
    show (List.replicate 12000 97).length < 2 ^ 31
    rw [List.length_replicate]
    decide
  have hlen : (capturedFrom (fun _ => 0) [.write (List.replicate 12000 97)]).len = 12000 := by
    rw [len_capturedFrom _ hshort, capturedLength, if_pos rfl, List.flatMap_singleton, Printed.bytes,
      List.length_replicate]
    decide
  have hresult : (wasmShellExec true (fun _ => 0) longOutput (some ⟨65536, zeros⟩) 0 4 1024 8191).result =
      12000 := by
    rw [wasmShellExec_accepted (by decide) (by decide), deliver_result]
    show i32 (UInt32.ofNat (capturedFrom (fun _ => 0) [.write (List.replicate 12000 97)]).len).toNat = 12000
    rw [hlen]
    decide
  refine ⟨hresult, fun h => ?_⟩
  have hstored := h.result
  have hsize : _ ≤ 8191 := h.size
  rw [hresult] at hstored
  omega

end Sandflea
