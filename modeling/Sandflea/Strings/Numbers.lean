import Sandflea.Lib.Bytes

/-!
# Numbers as text

`i64_to_sn` and `u64_to_sn` write a number in a base from 2 to 36, `sn_to_i64` reads one. Only in base 10 is a
number signed; in the others it is its 64 bits that are written. Reading wraps around, and gives back what was
written (`number_texts`).
-/

namespace Sandflea

/-! ## Writing -/

/-- The character of a digit -/
def digitChar (rem : ℕ) : UInt8 := if rem < 10 then UInt8.ofNat (rem + 48) else UInt8.ofNat (rem - 10 + 65)

/-- The loop over the digits, the last digit first. A number of 64 bits has no more than 64 digits. -/
def digitLoop (base : ℕ) : ℕ → ℕ → List UInt8
  | 0, _ => []
  | n + 1, u => if u = 0 then [] else digitChar (u % base) :: digitLoop base n (u / base)

/-- The digits in `temp_buf` -/
def tempDigits (base u : ℕ) : List UInt8 := if u = 0 then [48] else digitLoop base 64 u

/-- The copy of `temp_buf`, read backwards, to `out_buf` -/
def copyLoop (maxSize : ℕ) : List UInt8 → ℕ → Bytes → ℕ × Bytes
  | [], outLen, b => (outLen, b)
  | c :: cs, outLen, b =>
    if outLen < maxSize - 1 then copyLoop maxSize cs (outLen + 1) (Function.update b outLen c) else (outLen, b)

/-- The end of both functions: the copy, and the terminator -/
def copyOut (temp : List UInt8) (outBuf : Bytes) (maxSize : ℕ) : ℕ × Bytes :=
  let (outLen, b) := copyLoop maxSize temp.reverse 0 outBuf
  (outLen, Function.update b outLen 0)

/-- `is_negative` -/
def writesSign (base : ℕ) (val : Int64) : Prop := base = 10 ∧ val < 0

instance decidableWritesSign (base : ℕ) (val : Int64) : Decidable (writesSign base val) := inferInstanceAs (Decidable (_ ∧ _))

/-- `u_val` -/
def magnitude (base : ℕ) (val : Int64) : UInt64 :=
  if writesSign base val then (-(val + 1)).toUInt64 + 1 else val.toUInt64

/-- `temp_buf` in `i64_to_sn` -/
def i64Temp (base : ℕ) (val : Int64) : List UInt8 :=
  tempDigits base (magnitude base val).toNat ++ if writesSign base val then [45] else []

/-- `i64_to_sn`: the length, and the buffer -/
def i64ToSn (val : Int64) (outBuf : Bytes) (base maxSize : ℕ) : ℕ × Bytes :=
  if maxSize = 0 then (0, outBuf) else copyOut (i64Temp base val) outBuf maxSize

/-- `u64_to_sn`: the length, and the buffer -/
def u64ToSn (val : UInt64) (outBuf : Bytes) (base maxSize : ℕ) : ℕ × Bytes :=
  if maxSize = 0 then (0, outBuf) else copyOut (tempDigits base val.toNat) outBuf maxSize

/-! ## Reading -/

/-- The value of a character as a digit -/
def digitValue (c : UInt8) : Option ℕ :=
  if 48 ≤ c ∧ c ≤ 57 then some (c.toNat - 48)
  else if 97 ≤ c ∧ c ≤ 122 then some (c.toNat - 97 + 10)
  else if 65 ≤ c ∧ c ≤ 90 then some (c.toNat - 65 + 10)
  else none

/-- The loop of `sn_to_i64` over the `i`-th of `i + n` characters and those after it -/
def parseLoop (str : Bytes) (base : ℕ) : ℕ → ℕ → Int64 → Int64
  | 0, _, result => result
  | n + 1, i, result =>
    if str i = 0 then result
    else
      match digitValue (str i) with
      | none => result
      | some digit =>
        if base ≤ digit then result
        else parseLoop str base n (i + 1) (result * Int64.ofNat base + Int64.ofNat digit)

/-- `sn_to_i64` -/
def snToI64 (str : Bytes) (maxLen base : ℕ) : Int64 :=
  if maxLen = 0 ∨ base < 2 ∨ 36 < base then 0
  else if str 0 = 45 then parseLoop str base (maxLen - 1) 1 0 * -1
  else if str 0 = 43 then parseLoop str base (maxLen - 1) 1 0 * 1
  else parseLoop str base maxLen 0 0 * 1

/-! ## Digits -/

section

variable {base : ℕ}

/-- The digits of a number as they are written, the last one first -/
def writtenDigits (base u : ℕ) : List ℕ := if u = 0 then [0] else Nat.digits base u

theorem digitLoop_eq (hbase : 2 ≤ base) (n u : ℕ) (hu : u < base ^ n) :
    digitLoop base n u = (Nat.digits base u).map digitChar := by
  induction n generalizing u with
  | zero =>
    obtain rfl : u = 0 := by simpa using hu
    simp [digitLoop]
  | succ n ih =>
    unfold digitLoop
    split
    · rw [‹u = 0›]
      simp
    · rw [Nat.digits_def' (by omega) (by omega), List.map_cons, ih]
      exact Nat.div_lt_of_lt_mul (by rwa [pow_succ'] at hu)

theorem tempDigits_eq (hbase : 2 ≤ base) {u : ℕ} (hu : u < 2 ^ 64) :
    tempDigits base u = (writtenDigits base u).map digitChar := by
  unfold tempDigits writtenDigits
  split
  · rfl
  · exact digitLoop_eq hbase 64 u (lt_of_lt_of_le hu (Nat.pow_le_pow_left hbase 64))

theorem writtenDigits_lt (hbase : 2 ≤ base) (u : ℕ) : ∀ d ∈ writtenDigits base u, d < base := by
  unfold writtenDigits
  split
  · simp
    omega
  · exact fun d hd => Nat.digits_lt_base (by omega) hd

theorem ofDigits_writtenDigits (base u : ℕ) : Nat.ofDigits base (writtenDigits base u) = u := by
  unfold writtenDigits
  split
  · simp [‹u = 0›]
  · exact Nat.ofDigits_digits base u

/-- The first digit that is written is a zero only if it is the only one. -/
theorem head_writtenDigits (base u : ℕ) :
    ∃ d ds, (writtenDigits base u).reverse = d :: ds ∧ (d = 0 → ds = []) := by
  unfold writtenDigits
  split
  · exact ⟨0, [], rfl, fun _ => rfl⟩
  · have hne : Nat.digits base u ≠ [] := Nat.digits_ne_nil_iff_ne_zero.mpr ‹_›
    refine ⟨(Nat.digits base u).getLast hne, (Nat.digits base u).dropLast.reverse, ?_, fun h => ?_⟩
    · conv_lhs => rw [← List.dropLast_append_getLast hne]
      simp
    · exact absurd h (Nat.getLast_digit_ne_zero base ‹_›)

/-- The character of a digit is read as that digit. -/
theorem digitValue_digitChar : ∀ d < 36, digitValue (digitChar d) = some d ∧ digitChar d ≠ 0 ∧
    digitChar d ≠ 45 ∧ digitChar d ≠ 43 ∧ (digitChar d = 48 → d = 0) := by
  decide

end

/-! ## Texts in a buffer -/

/-- A buffer holds a text from some place on. -/
def HoldsText (b : Bytes) (i : ℕ) (text : List UInt8) : Prop := ∀ j (h : j < text.length), b (i + j) = text[j]

theorem HoldsText.cons_iff {b : Bytes} {i : ℕ} {c : UInt8} {cs : List UInt8} :
    HoldsText b i (c :: cs) ↔ b i = c ∧ HoldsText b (i + 1) cs := by
  constructor
  · intro h
    refine ⟨h 0 (Nat.succ_pos _), fun j hj => ?_⟩
    have hnext := h (j + 1) (Nat.succ_lt_succ hj)
    rwa [show i + (j + 1) = i + 1 + j by omega] at hnext
  · rintro ⟨hc, hcs⟩ j hj
    cases j with
    | zero => exact hc
    | succ j =>
      rw [show i + (j + 1) = i + 1 + j by omega]
      exact hcs j (Nat.lt_of_succ_lt_succ hj)

/-- A text that fits is copied. -/
theorem copyLoop_spec (maxSize : ℕ) (cs : List UInt8) (n : ℕ) (b : Bytes) (hfits : n + cs.length < maxSize) :
    ∃ b', copyLoop maxSize cs n b = (n + cs.length, b') ∧ HoldsText b' n cs ∧ ∀ i < n, b' i = b i := by
  induction cs generalizing n b with
  | nil => exact ⟨b, rfl, fun j hj => absurd hj (Nat.not_lt_zero j), fun _ _ => rfl⟩
  | cons c cs ih =>
    rw [List.length_cons] at hfits
    obtain ⟨b', hcopy, htext, hbelow⟩ := ih (n + 1) (Function.update b n c) (by omega)
    refine ⟨b', ?_, HoldsText.cons_iff.mpr ⟨?_, htext⟩, fun i hi => ?_⟩
    · rw [copyLoop, if_pos (by omega), hcopy, List.length_cons]
      congr 1
      omega
    · rw [hbelow n (Nat.lt_succ_self n), Function.update_self]
    · rw [hbelow i (by omega), Function.update_of_ne hi.ne]

/-- What is in the buffer after a copy that fits: the text, and a terminator. -/
theorem copyOut_spec (temp : List UInt8) (outBuf : Bytes) {maxSize : ℕ} (hfits : temp.length < maxSize) :
    (copyOut temp outBuf maxSize).1 = temp.length ∧ HoldsText (copyOut temp outBuf maxSize).2 0 temp.reverse ∧
      (copyOut temp outBuf maxSize).2 temp.length = 0 := by
  obtain ⟨b', hcopy, htext, -⟩ := copyLoop_spec maxSize temp.reverse 0 outBuf (by simpa using hfits)
  rw [Nat.zero_add, List.length_reverse] at hcopy
  unfold copyOut
  rw [hcopy]
  refine ⟨rfl, fun j hj => ?_, Function.update_self _ _ _⟩
  rw [List.length_reverse] at hj
  exact (Function.update_of_ne (by omega) _ _).trans (htext j (by simpa using hj))

section

variable {base : ℕ}

/-- Digits in a buffer, up to the end or a terminator, are read as their number. -/
theorem parseLoop_digits (hbase : base ≤ 36) {str : Bytes} (ds : List ℕ) (hds : ∀ d ∈ ds, d < base) {n i a : ℕ}
    (htext : HoldsText str i (ds.map digitChar)) (hn : ds.length ≤ n)
    (hend : ds.length < n → str (i + ds.length) = 0) :
    parseLoop str base n i (Int64.ofNat a) = Int64.ofNat (ds.foldl (fun a d => a * base + d) a) := by
  induction ds generalizing n i a with
  | nil =>
    cases n with
    | zero => rfl
    | succ n =>
      have hstop : str i = 0 := hend (Nat.succ_pos n)
      rw [parseLoop, if_pos hstop]
      rfl
  | cons d ds ih =>
    obtain ⟨hd, hrest⟩ := List.forall_mem_cons.mp hds
    rw [List.map_cons, HoldsText.cons_iff] at htext
    rw [List.length_cons] at hn hend
    obtain ⟨n, rfl⟩ : ∃ n', n = n' + 1 := ⟨n - 1, by omega⟩
    obtain ⟨hvalue, hnz, -⟩ := digitValue_digitChar d (by omega)
    rw [parseLoop, htext.1, if_neg hnz, hvalue]
    dsimp only
    rw [if_neg (by omega), ← Int64.ofNat_mul, ← Int64.ofNat_add]
    refine ih hrest htext.2 (by omega) fun hlt => ?_
    rw [show i + 1 + ds.length = i + (ds.length + 1) by omega]
    exact hend (by omega)

/-- The digits of a number, in the order in which they are read -/
theorem foldl_writtenDigits (base u : ℕ) :
    (writtenDigits base u).reverse.foldl (fun a d => a * base + d) 0 = u := by
  rw [List.foldl_reverse]
  conv_rhs => rw [← ofDigits_writtenDigits base u, Nat.ofDigits_eq_foldr]
  congr 1
  funext d a
  push_cast
  ring

/-- The written digits of a number are read as the number. -/
theorem parseLoop_tempDigits (hlo : 2 ≤ base) (hhi : base ≤ 36) {u : ℕ} (hu : u < 2 ^ 64) {str : Bytes} {n i : ℕ}
    (htext : HoldsText str i (tempDigits base u).reverse) (hn : (tempDigits base u).length ≤ n)
    (hend : str (i + (tempDigits base u).length) = 0) :
    parseLoop str base n i 0 = Int64.ofNat u := by
  rw [tempDigits_eq hlo hu] at htext hn hend
  rw [← List.map_reverse] at htext
  rw [List.length_map, ← List.length_reverse] at hn hend
  have hparse := parseLoop_digits hhi (a := 0) (writtenDigits base u).reverse
    (fun d hd => writtenDigits_lt hlo u d (List.mem_reverse.mp hd)) htext hn fun _ => hend
  rwa [foldl_writtenDigits] at hparse

end

/-! ## The round trip -/

/-- The text in a buffer, by its length -/
def textOf (r : ℕ × Bytes) : List UInt8 := (List.range r.1).map r.2

/-- Where the digits of a text start -/
def digitsStart (r : ℕ × Bytes) : ℕ := if r.2 0 = 45 then 1 else 0

/-- The text ends with the first NUL, and starts with a zero only if that is its only digit. -/
structure WellWritten (r : ℕ × Bytes) : Prop where
  terminated : r.2 r.1 = 0
  noNul : ∀ i < r.1, r.2 i ≠ 0
  digits : digitsStart r < r.1
  noLeadingZero : r.2 (digitsStart r) = 48 → r.1 = digitsStart r + 1

section

variable {base : ℕ}

/-- The characters that are written for a number, the first one first -/
theorem reverse_tempDigits (hlo : 2 ≤ base) (hhi : base ≤ 36) {u : ℕ} (hu : u < 2 ^ 64) :
    ∃ c cs, (tempDigits base u).reverse = c :: cs ∧ c ≠ 45 ∧ c ≠ 43 ∧ (c = 48 → cs = []) := by
  obtain ⟨d, ds, hrev, hzero⟩ := head_writtenDigits base u
  have hd : d < base := by
    refine writtenDigits_lt hlo u d ?_
    rw [← List.mem_reverse, hrev]
    exact List.mem_cons_self
  obtain ⟨-, -, hminus, hplus, hchar⟩ := digitValue_digitChar d (by omega)
  refine ⟨digitChar d, ds.map digitChar, ?_, hminus, hplus, fun h => ?_⟩
  · rw [tempDigits_eq hlo hu, ← List.map_reverse, hrev, List.map_cons]
  · rw [hzero (hchar h), List.map_nil]

theorem tempDigits_ne_zero (hlo : 2 ≤ base) (hhi : base ≤ 36) {u : ℕ} (hu : u < 2 ^ 64) :
    ∀ c ∈ tempDigits base u, c ≠ 0 := by
  rw [tempDigits_eq hlo hu]
  intro c hc
  obtain ⟨d, hd, rfl⟩ := List.mem_map.mp hc
  exact (digitValue_digitChar d ((writtenDigits_lt hlo u d hd).trans_le hhi)).2.1

/-- Without a sign, a copy that fits is well written and is read as the number. -/
theorem copyOut_unsigned (hlo : 2 ≤ base) (hhi : base ≤ 36) {u : ℕ} (hu : u < 2 ^ 64) (outBuf : Bytes) {maxSize : ℕ}
    (hfits : (tempDigits base u).length < maxSize) :
    WellWritten (copyOut (tempDigits base u) outBuf maxSize) ∧
      ∀ maxLen, (copyOut (tempDigits base u) outBuf maxSize).1 ≤ maxLen →
        snToI64 (copyOut (tempDigits base u) outBuf maxSize).2 maxLen base = Int64.ofNat u := by
  obtain ⟨hlen, htext, hend⟩ := copyOut_spec (tempDigits base u) outBuf hfits
  obtain ⟨c, cs, hrev, hminus, hplus, hzero⟩ := reverse_tempDigits hlo hhi hu
  generalize copyOut (tempDigits base u) outBuf maxSize = r at hlen htext hend
  have hlength : (tempDigits base u).length = cs.length + 1 := by
    rw [← List.length_reverse, hrev, List.length_cons]
  have hfirst : r.2 0 = c := by
    rw [hrev, HoldsText.cons_iff] at htext
    exact htext.1
  have hstart : digitsStart r = 0 := if_neg (by rwa [hfirst])
  constructor
  · refine ⟨by rw [hlen]; exact hend, fun i hi => ?_, by omega, fun h => ?_⟩
    · rw [hlen, ← List.length_reverse] at hi
      have hchar := htext i hi
      rw [Nat.zero_add] at hchar
      rw [hchar]
      exact tempDigits_ne_zero hlo hhi hu _ (List.mem_reverse.mp (List.getElem_mem hi))
    · rw [hstart, hfirst] at h
      rw [hlen, hlength, hzero h, hstart, List.length_nil]
  · intro maxLen hmax
    have hread := parseLoop_tempDigits hlo hhi hu htext (hlen ▸ hmax) (by rwa [Nat.zero_add])
    unfold snToI64
    rw [if_neg (by omega), if_neg (by rwa [hfirst]), if_neg (by rwa [hfirst]), hread]
    exact Int64.mul_one _

/-- With a minus sign, a copy that fits is well written and is read as the negated number. -/
theorem copyOut_negative (hlo : 2 ≤ base) (hhi : base ≤ 36) {u : ℕ} (hu : u < 2 ^ 64) (outBuf : Bytes) {maxSize : ℕ}
    (hfits : (tempDigits base u ++ [45]).length < maxSize) :
    WellWritten (copyOut (tempDigits base u ++ [45]) outBuf maxSize) ∧
      ∀ maxLen, (copyOut (tempDigits base u ++ [45]) outBuf maxSize).1 ≤ maxLen →
        snToI64 (copyOut (tempDigits base u ++ [45]) outBuf maxSize).2 maxLen base = Int64.ofNat u * -1 := by
  obtain ⟨hlen, htext, hend⟩ := copyOut_spec (tempDigits base u ++ [45]) outBuf hfits
  obtain ⟨c, cs, hrev, -, -, hzero⟩ := reverse_tempDigits hlo hhi hu
  generalize copyOut (tempDigits base u ++ [45]) outBuf maxSize = r at hlen htext hend
  rw [List.length_append, List.length_singleton] at hlen hend
  rw [List.reverse_append, List.reverse_singleton, List.singleton_append, HoldsText.cons_iff] at htext
  obtain ⟨hsign, htext⟩ := htext
  have hlength : (tempDigits base u).length = cs.length + 1 := by
    rw [← List.length_reverse, hrev, List.length_cons]
  have hstart : digitsStart r = 1 := if_pos hsign
  constructor
  · refine ⟨by rw [hlen]; exact hend, fun i hi => ?_, by omega, fun h => ?_⟩
    · cases i with
      | zero =>
        rw [hsign]
        decide
      | succ i =>
        have hi' : i < (tempDigits base u).reverse.length := by
          rw [List.length_reverse]
          omega
        have hchar := htext i hi'
        rw [Nat.zero_add, Nat.add_comm] at hchar
        rw [hchar]
        exact tempDigits_ne_zero hlo hhi hu _ (List.mem_reverse.mp (List.getElem_mem hi'))
    · rw [hrev, HoldsText.cons_iff] at htext
      rw [hstart] at h ⊢
      rw [hlen, hlength, hzero (htext.1.symm.trans h), List.length_nil]
  · intro maxLen hmax
    have hread := parseLoop_tempDigits (n := maxLen - 1) hlo hhi hu htext (by omega) (by rwa [Nat.add_comm])
    unfold snToI64
    rw [if_neg (by omega), if_pos hsign]
    exact congrArg (· * -1) hread

/-- What is read depends on the text alone. -/
theorem parseLoop_congr {str str' : Bytes} (n i : ℕ) (acc : Int64)
    (hsame : ∀ j, i ≤ j → j < i + n → str j = str' j) :
    parseLoop str base n i acc = parseLoop str' base n i acc := by
  induction n generalizing i acc with
  | zero => rfl
  | succ n ih =>
    have hnext := fun acc => ih (i + 1) acc fun j hj hjn => hsame j (by omega) (by omega)
    rw [parseLoop, parseLoop, hsame i le_rfl (by omega)]
    simp only [hnext]

/-- The same text is read as the same number. -/
theorem snToI64_congr {r r' : ℕ × Bytes} (hpos : 0 < r.1) (htext : textOf r = textOf r') :
    snToI64 r.2 r.1 base = snToI64 r'.2 r'.1 base := by
  have hlen : r.1 = r'.1 := by simpa [textOf] using congrArg List.length htext
  have hsame : ∀ j < r.1, r.2 j = r'.2 j := by
    intro j hj
    have hget := congrArg (fun l => l[j]?) htext
    simpa [textOf, hj, hlen ▸ hj] using hget
  have hparse : ∀ n i, i + n ≤ r.1 → parseLoop r.2 base n i 0 = parseLoop r'.2 base n i 0 := fun n i hin =>
    parseLoop_congr n i 0 fun j _ hj => hsame j (by omega)
  unfold snToI64
  rw [← hlen, ← hsame 0 hpos, hparse (r.1 - 1) 1 (by omega), hparse r.1 0 (by omega)]

/-- What `i64_to_sn` writes where there is room -/
theorem i64ToSn_spec (hlo : 2 ≤ base) (hhi : base ≤ 36) (v : Int64) (outBuf : Bytes) {maxSize : ℕ}
    (hfits : (i64Temp base v).length < maxSize) :
    WellWritten (i64ToSn v outBuf base maxSize) ∧
      ∀ maxLen, (i64ToSn v outBuf base maxSize).1 ≤ maxLen →
        snToI64 (i64ToSn v outBuf base maxSize).2 maxLen base = v := by
  have hbits : ∀ w : UInt64, Int64.ofNat w.toNat = w.toInt64 := fun w => by
    rw [← UInt64.toInt64_ofNat', UInt64.ofNat_toNat]
  rw [i64ToSn, if_neg (by omega)]
  unfold i64Temp magnitude at hfits ⊢
  split_ifs at hfits ⊢ with hsign
  · obtain ⟨hwritten, hread⟩ := copyOut_negative hlo hhi (UInt64.toNat_lt _) outBuf hfits
    refine ⟨hwritten, fun maxLen hmax => (hread maxLen hmax).trans ?_⟩
    rw [hbits]
    simp
    grind
  · rw [List.append_nil] at hfits ⊢
    obtain ⟨hwritten, hread⟩ := copyOut_unsigned hlo hhi (UInt64.toNat_lt _) outBuf hfits
    refine ⟨hwritten, fun maxLen hmax => (hread maxLen hmax).trans ?_⟩
    rw [hbits]
    simp

/-- What `u64_to_sn` writes where there is room -/
theorem u64ToSn_spec (hlo : 2 ≤ base) (hhi : base ≤ 36) (v : UInt64) (outBuf : Bytes) {maxSize : ℕ}
    (hfits : (tempDigits base v.toNat).length < maxSize) :
    WellWritten (u64ToSn v outBuf base maxSize) ∧
      ∀ maxLen, (u64ToSn v outBuf base maxSize).1 ≤ maxLen →
        (snToI64 (u64ToSn v outBuf base maxSize).2 maxLen base).toUInt64 = v := by
  rw [u64ToSn, if_neg (by omega)]
  obtain ⟨hwritten, hread⟩ := copyOut_unsigned hlo hhi v.toNat_lt outBuf hfits
  refine ⟨hwritten, fun maxLen hmax => ?_⟩
  rw [hread maxLen hmax]
  simp

/-- Where there is room for its digits, its sign and the terminator, a number is well written, and it is read again
as the number. So two numbers have two texts. -/
theorem number_texts (hlo : 2 ≤ base) (hhi : base ≤ 36) :
    (∀ v outBuf maxSize, (i64Temp base v).length < maxSize →
      WellWritten (i64ToSn v outBuf base maxSize) ∧
        ∀ maxLen, (i64ToSn v outBuf base maxSize).1 ≤ maxLen →
          snToI64 (i64ToSn v outBuf base maxSize).2 maxLen base = v) ∧
    (∀ v outBuf maxSize, (tempDigits base v.toNat).length < maxSize →
      WellWritten (u64ToSn v outBuf base maxSize) ∧
        ∀ maxLen, (u64ToSn v outBuf base maxSize).1 ≤ maxLen →
          (snToI64 (u64ToSn v outBuf base maxSize).2 maxLen base).toUInt64 = v) ∧
    (∀ v v' outBuf outBuf' maxSize maxSize', (i64Temp base v).length < maxSize → (i64Temp base v').length < maxSize' →
      textOf (i64ToSn v outBuf base maxSize) = textOf (i64ToSn v' outBuf' base maxSize') → v = v') ∧
    (∀ v v' outBuf outBuf' maxSize maxSize', (tempDigits base v.toNat).length < maxSize →
      (tempDigits base v'.toNat).length < maxSize' →
      textOf (u64ToSn v outBuf base maxSize) = textOf (u64ToSn v' outBuf' base maxSize') → v = v') := by
  refine ⟨fun v outBuf maxSize => i64ToSn_spec hlo hhi v outBuf,
    fun v outBuf maxSize => u64ToSn_spec hlo hhi v outBuf, ?_, ?_⟩
  · intro v v' outBuf outBuf' maxSize maxSize' hfits hfits' htext
    obtain ⟨hwritten, hread⟩ := i64ToSn_spec hlo hhi v outBuf hfits
    obtain ⟨-, hread'⟩ := i64ToSn_spec hlo hhi v' outBuf' hfits'
    rw [← hread _ le_rfl, ← hread' _ le_rfl]
    exact snToI64_congr (Nat.zero_lt_of_lt hwritten.digits) htext
  · intro v v' outBuf outBuf' maxSize maxSize' hfits hfits' htext
    obtain ⟨hwritten, hread⟩ := u64ToSn_spec hlo hhi v outBuf hfits
    obtain ⟨-, hread'⟩ := u64ToSn_spec hlo hhi v' outBuf' hfits'
    rw [← hread _ le_rfl, ← hread' _ le_rfl]
    exact congrArg _ (snToI64_congr (Nat.zero_lt_of_lt hwritten.digits) htext)

end

/-- The most negative number in base 10 -/
theorem number_texts_min :
    (i64ToSn (-2 ^ 63) Bytes.zeros 10 21).1 = 20 ∧
      snToI64 (i64ToSn (-2 ^ 63) Bytes.zeros 10 21).2 20 10 = -2 ^ 63 := by
  have hlen : (i64ToSn (-2 ^ 63) Bytes.zeros 10 21).1 = 20 := by decide +kernel
  exact ⟨hlen, ((number_texts (by decide) (by decide)).1 (-2 ^ 63) Bytes.zeros 21 (by decide +kernel)).2 20 hlen.le⟩

end Sandflea
