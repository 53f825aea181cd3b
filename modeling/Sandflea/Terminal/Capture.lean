import Sandflea.Lib.Runs
import Sandflea.Lib.Words
import Sandflea.Shell.ShellExec

/-!
# The capture buffer

While the output of a process is captured, `term_write` and `screen_push_line` append to a buffer of
`output_capture_max` bytes, for the process and for its children. The counter `output_capture_len` and the
sums with it that the loops compare are of type `u32`.

`capture_sound` says that the buffer holds a beginning of the output in every run, as long as no line is
pushed when the counter is so large that `output_capture_len + 2` wraps around. This needs a full buffer of
`2 ^ 32 - 1` bytes.
-/

namespace Sandflea

open Runs

/-- The memory from `output_capture_buf` on, and `output_capture_len`. The output is recorded in `printed`,
which no function reads. -/
structure CaptureBuffer where
  mem : ℕ → UInt8
  len : ℕ
  printed : List UInt8

/-- How often a loop over some bytes turns, with their number in an `i32` -/
def captureTurns (bytes : List UInt8) : ℕ := (i32 bytes.length).toNat

namespace CaptureBuffer

/-- The buffer when the capture is turned on -/
def start (mem : ℕ → UInt8) : CaptureBuffer := ⟨mem, 0, []⟩

/-- `output_capture_buf[output_capture_len++] = b` -/
def push (c : CaptureBuffer) (b : UInt8) : CaptureBuffer :=
  { c with mem := Function.update c.mem c.len b, len := u32 (c.len + 1) }

/-- The loops that append bytes, as long as `output_capture_len + margin < output_capture_max` -/
def append (max margin : ℕ) : List UInt8 → CaptureBuffer → CaptureBuffer
  | [], c => c
  | b :: bs, c => if u32 (c.len + margin) < max then append max margin bs (c.push b) else c

/-- `output_capture_buf[output_capture_len] = '\0'` -/
def terminate (c : CaptureBuffer) : CaptureBuffer := { c with mem := Function.update c.mem c.len 0 }

/-- `term_write` -/
def termWrite (max : ℕ) (bytes : List UInt8) (c : CaptureBuffer) : CaptureBuffer :=
  if captureTurns bytes = 0 then c
  else (c.append max 1 (bytes.take (captureTurns bytes))).terminate

/-- `screen_push_line` -/
def screenPushLine (max : ℕ) (str : List UInt8) (c : CaptureBuffer) : CaptureBuffer :=
  ((c.append max 2 (str.take (captureTurns str))).append max 1 [10]).terminate

/-- A call that prints -/
def print (max : ℕ) (c : CaptureBuffer) : Printed → CaptureBuffer
  | .write bytes => c.termWrite max bytes
  | .line str => c.screenPushLine max str

/-- A call that prints, with a record of its output -/
def step (max : ℕ) (c : CaptureBuffer) (p : Printed) : CaptureBuffer :=
  { c.print max p with printed := c.printed ++ p.bytes }

/-- The bytes in the buffer -/
def captured (c : CaptureBuffer) : List UInt8 := (List.range c.len).map c.mem

/-- The text in the buffer ends in it, nothing behind it was written, and it is a beginning of the output,
with one line feed more if the output does not fit. -/
structure Sound (max : ℕ) (mem : ℕ → UInt8) (c : CaptureBuffer) : Prop where
  len_lt : c.len < max
  terminated : c.mem c.len = 0
  frame : ∀ i, max ≤ i → c.mem i = mem i
  captured : ∃ t, t <+: c.printed ∧
    (c.captured = t ∨ max ≤ c.printed.length ∧ c.captured = t ++ [10])

/-- The length does not decrease. -/
def Grows (max : ℕ) (c : CaptureBuffer) (p : Printed) : Prop := c.len ≤ (c.step max p).len

/-- The sum in the loop of `screen_push_line` does not wrap around. -/
def SumFits (c : CaptureBuffer) : Printed → Prop
  | .write _ => True
  | .line str => str ≠ [] → c.len + 2 < 2 ^ 32

end CaptureBuffer

/-- The number of bytes is an `i32`. -/
def Printed.Short : Printed → Prop
  | .write bytes => bytes.length < 2 ^ 31
  | .line str => str.length < 2 ^ 31

namespace CaptureBuffer

variable {max margin : ℕ} {mem : ℕ → UInt8} {c : CaptureBuffer} {p : Printed}

theorem take_captureTurns {bytes : List UInt8} (h : bytes.length < 2 ^ 31) :
    captureTurns bytes = bytes.length ∧ bytes.take (captureTurns bytes) = bytes := by
  have hturns : captureTurns bytes = bytes.length := by
    rw [captureTurns, i32_of_lt h]
    rfl
  exact ⟨hturns, by rw [hturns, List.take_length]⟩

theorem captured_push (h : c.len + 1 < 2 ^ 32) (b : UInt8) : (c.push b).captured = c.captured ++ [b] := by
  have hlen : (c.push b).len = c.len + 1 := u32_of_lt h
  rw [captured, hlen, List.range_succ, List.map_append]
  congr 1
  · refine List.map_congr_left fun i hi => ?_
    exact Function.update_of_ne (Nat.ne_of_lt (List.mem_range.mp hi)) _ _
  · simp [push]

theorem sumFits_line {str : List UInt8} :
    c.SumFits (.line str) ↔ (str ≠ [] → c.len + 2 < 2 ^ 32) := Iff.rfl

theorem step_len (c : CaptureBuffer) (p : Printed) : (c.step max p).len = (c.print max p).len := rfl

theorem push_len (c : CaptureBuffer) (b : UInt8) : (c.push b).len = u32 (c.len + 1) := rfl

/-! ## The loops -/

theorem append_cons_of_lt {b : UInt8} {bs : List UInt8} (h : u32 (c.len + margin) < max) :
    c.append max margin (b :: bs) = (c.push b).append max margin bs := if_pos h

/-- What a loop does while its sum does not wrap around: it appends as many bytes as there is room for. -/
structure Appends (max margin : ℕ) (bs : List UInt8) (c c' : CaptureBuffer) : Prop where
  len : c'.len = c.len + min bs.length (max - margin - c.len)
  captured : c'.captured = c.captured ++ bs.take (max - margin - c.len)
  frame : ∀ i, c.len + min bs.length (max - margin - c.len) ≤ i → c'.mem i = c.mem i
  printed : c'.printed = c.printed

theorem append_spec (hmargin : 0 < margin) (hmax : max < 2 ^ 32) (bs : List UInt8)
    (hsum : bs ≠ [] → c.len + margin < 2 ^ 32) : Appends max margin bs c (c.append max margin bs) := by
  induction bs generalizing c with
  | nil => exact ⟨by simp [append], by simp [append], fun _ _ => rfl, rfl⟩
  | cons b bs ih =>
    have hsum := hsum (List.cons_ne_nil b bs)
    rw [append, u32_of_lt hsum]
    by_cases hroom : c.len + margin < max
    · rw [if_pos hroom]
      have hlen : (c.push b).len = c.len + 1 := u32_of_lt (by omega)
      obtain ⟨n, hn⟩ : ∃ n, max - margin - c.len = n + 1 := ⟨max - margin - c.len - 1, by omega⟩
      have hnext : max - margin - (c.push b).len = n := by omega
      obtain ⟨hlen', hcaptured, hframe, hprinted⟩ := @ih (c.push b) fun _ => by omega
      rw [hnext] at hlen' hcaptured hframe
      rw [hlen] at hlen' hframe
      have hcount : c.len + 1 + min bs.length n = c.len + min (b :: bs).length (n + 1) := by
        rw [List.length_cons]
        omega
      refine ⟨?_, ?_, ?_, hprinted⟩
      · rw [hlen', hn, hcount]
      · rw [hcaptured, captured_push (by omega), hn, List.take_succ_cons, List.append_assoc]
        rfl
      · intro i hi
        rw [hn, ← hcount] at hi
        rw [hframe i hi]
        exact Function.update_of_ne (by omega) _ _
    · have hzero : max - margin - c.len = 0 := by omega
      rw [if_neg hroom]
      exact ⟨by simp [hzero], by simp [hzero], fun _ _ => rfl, rfl⟩

/-! ## One call -/

/-- The buffer has all of the output, or it is full. -/
structure Inv (max : ℕ) (mem : ℕ → UInt8) (c : CaptureBuffer) : Prop where
  len_lt : c.len < max
  terminated : c.mem c.len = 0
  frame : ∀ i, max ≤ i → c.mem i = mem i
  room : c.printed.length < max → c.captured = c.printed
  full : max ≤ c.printed.length → c.len = max - 1 ∧
    ∃ t, t <+: c.printed ∧ (c.captured = t ∨ c.captured = t ++ [10])

theorem Inv.sound (h : Inv max mem c) : Sound max mem c := by
  refine ⟨h.len_lt, h.terminated, h.frame, ?_⟩
  rcases Nat.lt_or_ge c.printed.length max with hlt | hle
  · exact ⟨c.printed, List.prefix_rfl, .inl (h.room hlt)⟩
  · obtain ⟨-, t, ht, heq⟩ := h.full hle
    exact ⟨t, ht, heq.imp_right fun h => ⟨hle, h⟩⟩

theorem Inv.start (hmax : 0 < max) (hmem : mem 0 = 0) : Inv max mem (start mem) :=
  ⟨hmax, hmem, fun _ _ => rfl, fun _ => rfl, fun h => absurd h (Nat.not_le_of_lt hmax)⟩

theorem Inv.length_captured (h : Inv max mem c) (hlt : c.printed.length < max) :
    c.len = c.printed.length := by
  have hlength : c.captured.length = c.len := by simp [CaptureBuffer.captured]
  rw [← hlength, h.room hlt]

/-- What is printed goes behind what is captured: all of it if it fits, else what there is room for, and the
buffer is full. -/
theorem Inv.extend {c' : CaptureBuffer} {new out : List UInt8} (h : Inv max mem c)
    (hlen : c'.len < max) (hterminated : c'.mem c'.len = 0) (hframe : ∀ i, max ≤ i → c'.mem i = c.mem i)
    (hcaptured : c'.captured = c.captured ++ new)
    (hroom : c.len + out.length < max → new = out)
    (hfull : max ≤ c.len + out.length → c'.len = max - 1 ∧
      ∃ t, t <+: out ∧ (new = t ∨ new = t ++ [10]))
    (hstop : c.len = max - 1 → new = [] ∧ c'.len = max - 1) :
    Inv max mem { c' with printed := c.printed ++ out } := by
  refine ⟨hlen, hterminated, fun i hi => (hframe i hi).trans (h.frame i hi), ?_, ?_⟩
  · intro hlt
    have hlt : (c.printed ++ out).length < max := hlt
    rw [List.length_append] at hlt
    have hold := h.length_captured (by omega)
    show c'.captured = c.printed ++ out
    rw [hcaptured, h.room (by omega), hroom (by omega)]
  · intro hle
    have hle : max ≤ (c.printed ++ out).length := hle
    rw [List.length_append] at hle
    rcases Nat.lt_or_ge c.printed.length max with hlt | hge
    · obtain ⟨hlast, t, ht, hnew⟩ := hfull (by rw [h.length_captured hlt]; exact hle)
      refine ⟨hlast, c.printed ++ t, (List.prefix_append_right_inj _).mpr ht, ?_⟩
      show c'.captured = _ ∨ c'.captured = _
      rw [hcaptured, h.room hlt]
      rcases hnew with rfl | rfl
      · exact .inl rfl
      · exact .inr (List.append_assoc _ _ _).symm
    · obtain ⟨hlast, t, ht, hold⟩ := h.full hge
      obtain ⟨rfl, hlast'⟩ := hstop hlast
      refine ⟨hlast', t, ht.trans (List.prefix_append _ _), ?_⟩
      show c'.captured = _ ∨ c'.captured = _
      rw [hcaptured, List.append_nil]
      exact hold

theorem terminate_len (c : CaptureBuffer) : c.terminate.len = c.len := rfl

theorem terminate_mem {i : ℕ} (hi : i ≠ c.len) : c.terminate.mem i = c.mem i :=
  Function.update_of_ne hi _ _

/-- The byte behind the text is no part of it. -/
theorem captured_terminate (c : CaptureBuffer) : c.terminate.captured = c.captured := by
  exact List.map_congr_left fun i hi => terminate_mem (Nat.ne_of_lt (List.mem_range.mp hi))

/-- `term_write` -/
theorem Inv.write (h : Inv max mem c) (hmax : max < 2 ^ 32) {bytes : List UInt8}
    (hshort : bytes.length < 2 ^ 31) :
    Inv max mem (c.step max (.write bytes)) ∧ Grows max c (.write bytes) := by
  obtain ⟨hturns, htake⟩ := take_captureTurns hshort
  have hlt := h.len_lt
  by_cases hempty : bytes = []
  · subst hempty
    have hprint : c.print max (.write []) = c := by
      rw [print, termWrite, hturns]
      exact if_pos rfl
    refine ⟨?_, by rw [Grows, step, hprint]⟩
    rw [step, hprint]
    exact h.extend hlt h.terminated (fun _ _ => rfl) (List.append_nil _).symm (fun _ => rfl)
      (fun hle => ⟨by simp [Printed.bytes] at hle; omega, [], List.prefix_rfl, .inl rfl⟩) fun hlast =>
        ⟨rfl, hlast⟩
  · have hprint : c.print max (.write bytes) = (c.append max 1 bytes).terminate := by
      have hne : captureTurns bytes ≠ 0 := by
        rw [hturns]
        exact fun h0 => hempty (List.length_eq_zero_iff.mp h0)
      rw [print, termWrite, if_neg hne, htake]
    obtain ⟨hlen, hcaptured, hframe, -⟩ :=
      @append_spec max 1 c Nat.one_pos hmax bytes fun _ => by omega
    have hcount : c.len + min bytes.length (max - 1 - c.len) < max := by omega
    refine ⟨?_, by rw [Grows, step, hprint]; exact hlen ▸ Nat.le_add_right _ _⟩
    rw [step, hprint]
    refine h.extend ?_ (Function.update_self _ _ _) ?_ ((captured_terminate _).trans hcaptured) ?_ ?_ ?_
    · exact hlen ▸ hcount
    · intro i hi
      exact (terminate_mem (by omega)).trans (hframe i (by omega))
    · intro hroom
      exact List.take_of_length_le (by simp [Printed.bytes] at hroom; omega)
    · intro hfull
      refine ⟨?_, _, List.take_prefix _ _, .inl rfl⟩
      simp only [Printed.bytes] at hfull
      exact hlen.trans (by omega)
    · intro hlast
      have hzero : max - 1 - c.len = 0 := by omega
      refine ⟨by rw [hzero]; rfl, hlen.trans (by omega)⟩

/-- `screen_push_line`, when its sum does not wrap around -/
theorem Inv.line (h : Inv max mem c) (hmax : max < 2 ^ 32) {str : List UInt8}
    (hshort : str.length < 2 ^ 31) (hsum : str ≠ [] → c.len + 2 < 2 ^ 32) :
    Inv max mem (c.step max (.line str)) ∧ Grows max c (.line str) := by
  obtain ⟨-, htake⟩ := take_captureTurns hshort
  have hlt := h.len_lt
  have hprint : c.print max (.line str) = ((c.append max 2 str).append max 1 [10]).terminate := by
    rw [print, screenPushLine, htake]
  obtain ⟨hlen, hcaptured, hframe, -⟩ := @append_spec max 2 c Nat.two_pos hmax str hsum
  generalize c.append max 2 str = c₁ at hprint hlen hcaptured hframe
  obtain ⟨hlen', hcaptured', hframe', -⟩ := @append_spec max 1 c₁ Nat.one_pos hmax [10] fun _ => by omega
  rw [hcaptured, List.append_assoc] at hcaptured'
  rw [List.length_singleton] at hlen' hframe'
  refine ⟨?_, by rw [Grows, step, hprint]; exact (by omega : c.len ≤ (c₁.append max 1 [10]).len)⟩
  rw [step, hprint]
  refine h.extend ?_ (Function.update_self _ _ _) ?_ ((captured_terminate _).trans hcaptured') ?_ ?_ ?_
  · exact (by omega : (c₁.append max 1 [10]).len < max)
  · intro i hi
    exact (terminate_mem (by omega)).trans ((hframe' i (by omega)).trans (hframe i (by omega)))
  · intro hroom
    simp only [Printed.bytes, List.length_append, List.length_singleton] at hroom
    rw [List.take_of_length_le (by omega), List.take_of_length_le (by rw [List.length_singleton]; omega)]
    rfl
  · intro hfull
    simp only [Printed.bytes, List.length_append, List.length_singleton] at hfull
    refine ⟨(by omega : (c₁.append max 1 [10]).len = max - 1), str.take (max - 2 - c.len), ?_, ?_⟩
    · exact (List.take_prefix _ _).trans (List.prefix_append _ _)
    · rcases Nat.eq_zero_or_pos (max - 1 - c₁.len) with hzero | hpos
      · rw [hzero]
        exact .inl (List.append_nil _)
      · rw [@List.take_of_length_le _ _ [10] (by rw [List.length_singleton]; omega)]
        exact .inr rfl
  · intro hlast
    have hzero : max - 2 - c.len = 0 := by omega
    have hzero' : max - 1 - c₁.len = 0 := by omega
    exact ⟨by rw [hzero, hzero']; rfl, (by omega : (c₁.append max 1 [10]).len = max - 1)⟩

/-- What a call keeps -/
theorem Inv.step (h : Inv max mem c) (hmax : max < 2 ^ 32) (hshort : p.Short) (hsum : c.SumFits p) :
    Inv max mem (c.step max p) ∧ Grows max c p := by
  cases p with
  | write bytes => exact h.write hmax hshort
  | line str => exact h.line hmax hshort hsum

/-- When the sum wraps around, the counter does so too, before two more bytes are there. -/
theorem length_wrapped (hlen : c.len = 2 ^ 32 - 2) (hmax : max = 2 ^ 32 - 1) (b : UInt8) (bs : List UInt8)
    (hshort : bs.length < 2 ^ 31) :
    ((c.append max 2 (b :: bs)).append max 1 [10]).len = bs.length := by
  have hlt : max < 2 ^ 32 := by omega
  have hfirst : (c.push b).len = 2 ^ 32 - 1 := by
    rw [push_len, hlen, u32_of_lt (by omega)]
    omega
  rw [@append_cons_of_lt max 2 c b bs (by rw [hlen, hmax]; norm_num [u32])]
  generalize c.push b = c₁ at hfirst
  cases bs with
  | nil =>
    rw [append, @append_cons_of_lt max 1 c₁ 10 [] (by rw [hfirst, hmax]; norm_num [u32]), append, push_len, hfirst]
    norm_num [u32]
  | cons b' bs =>
    rw [List.length_cons] at hshort ⊢
    rw [@append_cons_of_lt max 2 c₁ b' bs (by rw [hfirst, hmax]; norm_num [u32])]
    have hsecond : (c₁.push b').len = 0 := by
      rw [push_len, hfirst]
      norm_num [u32]
    have hrest := (@append_spec max 2 (c₁.push b') Nat.two_pos hlt bs fun _ => by omega).len
    generalize (c₁.push b').append max 2 bs = c₂ at hrest
    have hlast := (@append_spec max 1 c₂ Nat.one_pos hlt [10] fun _ => by omega).len
    rw [List.length_singleton] at hlast
    omega

/-- When the sum wraps around, the text gets shorter. -/
theorem Inv.not_grows (h : Inv max mem c) (hmax : max < 2 ^ 32) (hshort : p.Short) (hsum : ¬c.SumFits p) :
    ¬Grows max c p := by
  cases p with
  | write bytes => exact absurd trivial hsum
  | line str =>
    rw [sumFits_line, Classical.not_imp] at hsum
    obtain ⟨hne, hwrap⟩ := hsum
    have hlt := h.len_lt
    obtain ⟨b, bs, rfl⟩ := List.exists_cons_of_ne_nil hne
    have htake := (take_captureTurns hshort).2
    have hlength : bs.length < 2 ^ 31 := lt_trans (Nat.lt_succ_self _) hshort
    have hwrapped := @length_wrapped max c (by omega) (by omega) b bs hlength
    have hprint : (c.step max (.line (b :: bs))).len =
        ((c.append max 2 (b :: bs)).append max 1 [10]).len := by
      rw [step_len, print, screenPushLine, htake, terminate_len]
    rw [Grows, hprint, hwrapped]
    omega

/-! ## Runs -/

/-- The buffer is sound in every state of a run and its text never shrinks, exactly if the sum of
`screen_push_line` never wraps around. -/
theorem Inv.always_sound_iff (h : Inv max mem c) (hmax : max < 2 ^ 32) {ps : List Printed}
    (hshort : ∀ p ∈ ps, p.Short) :
    Always (CaptureBuffer.step max) (Sound max mem) c ps ∧ Along (CaptureBuffer.step max) (Grows max) c ps ↔
      Along (CaptureBuffer.step max) SumFits c ps := by
  induction ps generalizing c with
  | nil => exact ⟨fun _ => trivial, fun _ => ⟨h.sound, trivial⟩⟩
  | cons p ps ih =>
    have hp := hshort p List.mem_cons_self
    by_cases hsum : c.SumFits p
    · obtain ⟨hnext, hgrows⟩ := h.step hmax hp hsum
      have hrest := ih hnext fun q hq => hshort q (List.mem_cons_of_mem p hq)
      constructor
      · rintro ⟨⟨-, halways⟩, -, halong⟩
        exact ⟨hsum, hrest.mp ⟨halways, halong⟩⟩
      · rintro ⟨-, halong⟩
        obtain ⟨halways, halong⟩ := hrest.mpr halong
        exact ⟨⟨h.sound, halways⟩, hgrows, halong⟩
    · constructor
      · rintro ⟨-, hgrows, -⟩
        exact absurd hgrows (h.not_grows hmax hp hsum)
      · rintro ⟨hfits, -⟩
        exact absurd hfits hsum

/-! ## The buffer of `shell_exec` -/

/-- What a process finds of the buffer that `shell_exec` gave it -/
def toCapture (c : CaptureBuffer) : Capture := ⟨c.mem, c.len⟩

theorem toCapture_append (hmargin : margin ≤ 2) (h : c.len ≤ captureSize) (bs : List UInt8) :
    (c.append captureSize margin bs).toCapture = c.toCapture.append margin bs := by
  have hsize : captureSize = 16384 := rfl
  induction bs generalizing c with
  | nil => rfl
  | cons b bs ih =>
    rw [append, Capture.append, u32_of_lt (by omega)]
    by_cases hroom : c.len + margin < captureSize
    · have hpush : (c.push b).len = c.len + 1 := u32_of_lt (by omega)
      rw [if_pos hroom, ih (by omega), if_pos (show c.toCapture.len + margin < captureSize from hroom)]
      rw [toCapture, hpush]
      rfl
    · rw [if_neg hroom, if_neg (show ¬c.toCapture.len + margin < captureSize from hroom)]

/-- The capture of `shell_exec` is the one of a buffer of its size. -/
theorem Inv.toCapture_print (h : Inv captureSize mem c) (hshort : p.Short) :
    (c.print captureSize p).toCapture = c.toCapture.print p := by
  have hlt := h.len_lt
  have hsize : captureSize = 16384 := rfl
  cases p with
  | write bytes =>
    obtain ⟨hturns, htake⟩ := take_captureTurns hshort
    rw [print, termWrite, htake, Capture.print]
    by_cases hempty : captureTurns bytes = 0
    · obtain rfl : bytes = [] := List.length_eq_zero_iff.mp (hturns.symm.trans hempty)
      have hsame : Function.update c.mem c.len 0 = c.mem :=
        Function.update_eq_self_iff.mpr h.terminated.symm
      rw [if_pos hempty]
      exact congrArg (Capture.mk · c.len) hsame.symm
    · rw [if_neg hempty, ← toCapture_append (by decide) hlt.le]
      rfl
  | line str =>
    obtain ⟨-, htake⟩ := take_captureTurns hshort
    have hlen := (@append_spec captureSize 2 c Nat.two_pos (by decide) str fun _ => by omega).len
    rw [print, screenPushLine, htake, Capture.print, ← toCapture_append (by decide) hlt.le,
      ← toCapture_append (by decide) (by omega)]
    rfl

end CaptureBuffer

open CaptureBuffer

end Sandflea
