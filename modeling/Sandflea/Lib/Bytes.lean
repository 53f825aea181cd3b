import Mathlib

/-!
# Byte buffers

A buffer is a function from offsets to bytes, so that a copy, a fill, or a store is a pointwise
definition and a frame fact is a case split on an offset. Numbers are stored little-endian. The
three families of facts that programs over buffers need are here: a load after a store at the same
offset, a load after a store elsewhere, and a load that only sees the bytes on which two buffers
agree.
-/

/-- A byte buffer: the byte at every offset. The length of a buffer is its user's business. -/
abbrev Bytes := ℕ → UInt8

namespace Bytes

/-- The 16-bit little-endian number at offset `o`. -/
def u16At (b : Bytes) (o : ℕ) : ℕ := (b o).toNat + 256 * (b (o + 1)).toNat

/-- The 32-bit little-endian number at offset `o`. -/
def u32At (b : Bytes) (o : ℕ) : ℕ := u16At b o + 65536 * u16At b (o + 2)

/-- Store the low 16 bits of `v` at offset `o`. -/
def putU16 (b : Bytes) (o v : ℕ) : Bytes := fun i =>
  if i = o then UInt8.ofNat v else if i = o + 1 then UInt8.ofNat (v / 256) else b i

/-- Store the low 32 bits of `v` at offset `o`. -/
def putU32 (b : Bytes) (o v : ℕ) : Bytes := putU16 (putU16 b o v) (o + 2) (v / 65536)

/-- Copy `n` bytes of `src` from offset `s` over `dst` from offset `o`. -/
def copyInto (dst : Bytes) (o : ℕ) (src : Bytes) (s n : ℕ) : Bytes := fun i =>
  if o ≤ i ∧ i < o + n then src (s + (i - o)) else dst i

/-- Fill `n` bytes of `dst` from offset `o` with zero. -/
def zeroFill (dst : Bytes) (o n : ℕ) : Bytes := fun i =>
  if o ≤ i ∧ i < o + n then 0 else dst i

/-- The first `n` bytes of a buffer; what lies behind them reads as zero. -/
def trunc (n : ℕ) (b : Bytes) : Bytes := fun i => if i < n then b i else 0

/-- The buffer that holds zero everywhere. -/
def zeros : Bytes := fun _ => 0

@[simp] theorem zeros_apply (i : ℕ) : zeros i = 0 := rfl

theorem trunc_of_lt {n i : ℕ} (b : Bytes) (h : i < n) : trunc n b i = b i := by
  simp [trunc, h]

@[simp] theorem trunc_trunc (n : ℕ) (b : Bytes) : trunc n (trunc n b) = trunc n b := by
  funext i
  simp only [trunc]
  split_ifs <;> rfl

@[simp] theorem trunc_zeros (n : ℕ) : trunc n zeros = zeros := by
  funext i
  simp [trunc]

theorem copyInto_of_mem {dst src : Bytes} {o s n i : ℕ} (h1 : o ≤ i) (h2 : i < o + n) :
    copyInto dst o src s n i = src (s + (i - o)) := by
  simp [copyInto, h1, h2]

theorem copyInto_of_not_mem {dst src : Bytes} {o s n i : ℕ} (h : ¬ (o ≤ i ∧ i < o + n)) :
    copyInto dst o src s n i = dst i := by
  simp [copyInto, h]

theorem zeroFill_of_mem {dst : Bytes} {o n i : ℕ} (h1 : o ≤ i) (h2 : i < o + n) :
    zeroFill dst o n i = 0 := by
  simp [zeroFill, h1, h2]

theorem zeroFill_of_not_mem {dst : Bytes} {o n i : ℕ} (h : ¬ (o ≤ i ∧ i < o + n)) :
    zeroFill dst o n i = dst i := by
  simp [zeroFill, h]

/-! ## Loads -/

theorem u16At_lt (b : Bytes) (o : ℕ) : u16At b o < 65536 := by
  have h0 := (b o).toNat_lt
  have h1 := (b (o + 1)).toNat_lt
  unfold u16At
  omega

theorem u32At_lt (b : Bytes) (o : ℕ) : u32At b o < 2 ^ 32 := by
  have h0 := u16At_lt b o
  have h1 := u16At_lt b (o + 2)
  unfold u32At
  omega

@[simp] theorem u16At_zeros (o : ℕ) : u16At zeros o = 0 := rfl

@[simp] theorem u32At_zeros (o : ℕ) : u32At zeros o = 0 := rfl

/-- A 16-bit load sees two bytes. -/
theorem u16At_congr {b c : Bytes} {o p : ℕ} (h0 : b o = c p) (h1 : b (o + 1) = c (p + 1)) :
    u16At b o = u16At c p := by
  rw [u16At, u16At, h0, h1]

/-- A 32-bit load sees four bytes. -/
theorem u32At_congr {b c : Bytes} {o p : ℕ} (h : ∀ i < 4, b (o + i) = c (p + i)) :
    u32At b o = u32At c p := by
  have lo : u16At b o = u16At c p := u16At_congr (h 0 (by decide)) (h 1 (by decide))
  have hi : u16At b (o + 2) = u16At c (p + 2) := u16At_congr (h 2 (by decide)) (h 3 (by decide))
  rw [u32At, u32At, lo, hi]

theorem u16At_trunc {n o : ℕ} (b : Bytes) (h : o + 2 ≤ n) : u16At (trunc n b) o = u16At b o :=
  u16At_congr (trunc_of_lt b (by omega)) (trunc_of_lt b (by omega))

theorem u32At_trunc {n o : ℕ} (b : Bytes) (h : o + 4 ≤ n) : u32At (trunc n b) o = u32At b o :=
  u32At_congr fun i hi => trunc_of_lt b (by omega)

/-! ## Stores -/

/-- A store changes no byte outside its range. -/
theorem putU16_of_ne {b : Bytes} {o v i : ℕ} (h : i < o ∨ o + 2 ≤ i) : putU16 b o v i = b i := by
  rw [putU16, if_neg (by omega), if_neg (by omega)]

/-- A store changes no byte outside its range. -/
theorem putU32_of_ne {b : Bytes} {o v i : ℕ} (h : i < o ∨ o + 4 ≤ i) : putU32 b o v i = b i := by
  rw [putU32, putU16_of_ne (by omega), putU16_of_ne (by omega)]

theorem u16At_putU16 (b : Bytes) (o v : ℕ) : u16At (putU16 b o v) o = v % 65536 := by
  simp only [u16At, putU16, if_true, Nat.add_eq_left, one_ne_zero, if_false]
  simp only [UInt8.toNat_ofNat']
  omega

theorem u16At_putU16_of_disjoint {b : Bytes} {o p v : ℕ} (h : o + 2 ≤ p ∨ p + 2 ≤ o) :
    u16At (putU16 b p v) o = u16At b o :=
  u16At_congr (putU16_of_ne (by omega)) (putU16_of_ne (by omega))

theorem u32At_putU32 (b : Bytes) (o v : ℕ) : u32At (putU32 b o v) o = v % 2 ^ 32 := by
  rw [u32At, putU32, u16At_putU16, u16At_putU16_of_disjoint (by omega), u16At_putU16]
  omega

theorem u32At_putU32_of_disjoint {b : Bytes} {o p v : ℕ} (h : o + 4 ≤ p ∨ p + 4 ≤ o) :
    u32At (putU32 b p v) o = u32At b o :=
  u32At_congr fun i hi => putU32_of_ne (by omega)

theorem u16At_putU32_of_disjoint {b : Bytes} {o p v : ℕ} (h : o + 2 ≤ p ∨ p + 4 ≤ o) :
    u16At (putU32 b p v) o = u16At b o :=
  u16At_congr (putU32_of_ne (by omega)) (putU32_of_ne (by omega))

theorem u32At_putU16_of_disjoint {b : Bytes} {o p v : ℕ} (h : o + 4 ≤ p ∨ p + 2 ≤ o) :
    u32At (putU16 b p v) o = u32At b o :=
  u32At_congr fun i hi => putU16_of_ne (by omega)

/-- A store of a number keeps its low 32 bits. -/
theorem putU32_mod (b : Bytes) (o v : ℕ) : putU32 b o (v % 2 ^ 32) = putU32 b o v := by
  funext i
  have h0 : UInt8.ofNat (v % 2 ^ 32) = UInt8.ofNat v := by
    apply UInt8.toNat_inj.mp
    simp only [UInt8.toNat_ofNat']
    omega
  have h1 : UInt8.ofNat (v % 2 ^ 32 / 256) = UInt8.ofNat (v / 256) := by
    apply UInt8.toNat_inj.mp
    simp only [UInt8.toNat_ofNat']
    omega
  have h2 : UInt8.ofNat (v % 2 ^ 32 / 65536) = UInt8.ofNat (v / 65536) := by
    apply UInt8.toNat_inj.mp
    simp only [UInt8.toNat_ofNat']
    omega
  have h3 : UInt8.ofNat (v % 2 ^ 32 / 65536 / 256) = UInt8.ofNat (v / 65536 / 256) := by
    apply UInt8.toNat_inj.mp
    simp only [UInt8.toNat_ofNat']
    omega
  simp only [putU32, putU16, h0, h1, h2, h3]

/-- The second of two stores at one offset wins. -/
theorem putU32_putU32 (b : Bytes) (o v w : ℕ) : putU32 (putU32 b o v) o w = putU32 b o w := by
  funext i
  simp only [putU32, putU16]
  split_ifs <;> rfl

theorem trunc_putU32 {n o v : ℕ} {b : Bytes} (h : o + 4 ≤ n) :
    trunc n (putU32 b o v) = putU32 (trunc n b) o v := by
  funext i
  by_cases hi : i < n
  · rw [trunc_of_lt _ hi]
    simp only [putU32, putU16, trunc_of_lt _ hi]
  · rw [putU32_of_ne (by omega)]
    simp [trunc, hi]

/-! ## Bits

Bit `i` of a buffer is bit `i % 8` of byte `i / 8`, the numbering of an allocation bitmap. -/

/-- Whether bit `i` is set. -/
def bit (b : Bytes) (i : ℕ) : Bool := (b (i / 8)).toNat.testBit (i % 8)

/-- Set bit `i`. -/
def setBit (b : Bytes) (i : ℕ) : Bytes := fun j =>
  if j = i / 8 then UInt8.ofNat ((b j).toNat ||| 2 ^ (i % 8)) else b j

/-- Clear bit `i`. -/
def clearBit (b : Bytes) (i : ℕ) : Bytes := fun j =>
  if j = i / 8 then UInt8.ofNat ((b j).toNat &&& (255 - 2 ^ (i % 8))) else b j

/-- A byte is determined by its eight bits. -/
theorem eq_of_testBit {x y : UInt8} (h : ∀ i < 8, x.toNat.testBit i = y.toNat.testBit i) :
    x = y := by
  apply UInt8.toNat_inj.mp
  apply Nat.eq_of_testBit_eq
  intro i
  rcases lt_or_ge i 8 with hi | hi
  · exact h i hi
  · have hx := Nat.testBit_lt_two_pow (lt_of_lt_of_le x.toNat_lt (Nat.pow_le_pow_right (by norm_num) hi))
    have hy := Nat.testBit_lt_two_pow (lt_of_lt_of_le y.toNat_lt (Nat.pow_le_pow_right (by norm_num) hi))
    rw [hx, hy]

theorem bit_setBit (b : Bytes) (i j : ℕ) : bit (setBit b i) j = (bit b j || decide (j = i)) := by
  unfold bit setBit
  by_cases hb : j / 8 = i / 8
  · have hj : j % 8 < 8 := Nat.mod_lt _ (by norm_num)
    have hm : (i % 8 = j % 8) ↔ j = i := by omega
    rw [if_pos hb, UInt8.toNat_ofNat', Nat.testBit_mod_two_pow, Nat.testBit_or, Nat.testBit_two_pow]
    simp [hj, hm]
  · rw [if_neg hb, decide_eq_false (fun h => hb (by rw [h])), Bool.or_false]

/-- The mask that clears bit `x` of a byte has every other bit set. -/
theorem testBit_clear_mask : ∀ x < 8, ∀ y < 8, (255 - 2 ^ x).testBit y = !decide (x = y) := by
  decide

theorem bit_clearBit (b : Bytes) (i j : ℕ) :
    bit (clearBit b i) j = (bit b j && !decide (j = i)) := by
  unfold bit clearBit
  by_cases hb : j / 8 = i / 8
  · have hj : j % 8 < 8 := Nat.mod_lt _ (by norm_num)
    have hm : (i % 8 = j % 8) ↔ j = i := by omega
    have hmask := testBit_clear_mask (i % 8) (Nat.mod_lt _ (by norm_num)) (j % 8) hj
    rw [if_pos hb, UInt8.toNat_ofNat', Nat.testBit_mod_two_pow, Nat.testBit_and, hmask]
    simp [hj, hm]
  · rw [if_neg hb, decide_eq_false (fun h => hb (by rw [h])), Bool.not_false, Bool.and_true]

/-- Setting a bit changes no byte but its own. -/
theorem setBit_of_ne {b : Bytes} {i j : ℕ} (h : j ≠ i / 8) : setBit b i j = b j := by
  simp [setBit, h]

theorem trunc_setBit {n i : ℕ} {b : Bytes} (h : i / 8 < n) :
    trunc n (setBit b i) = setBit (trunc n b) i := by
  funext j
  by_cases hj : j = i / 8
  · subst hj
    simp [trunc, setBit, h]
  · simp [trunc, setBit, hj]

theorem trunc_clearBit {n i : ℕ} {b : Bytes} (h : i / 8 < n) :
    trunc n (clearBit b i) = clearBit (trunc n b) i := by
  funext j
  by_cases hj : j = i / 8
  · subst hj
    simp [trunc, clearBit, h]
  · simp [trunc, clearBit, hj]

theorem bit_trunc {n i : ℕ} (b : Bytes) (h : i / 8 < n) : bit (trunc n b) i = bit b i := by
  rw [bit, trunc_of_lt _ h, bit]

/-- Clearing a clear bit that was just set gives the buffer back. -/
theorem clearBit_setBit {b : Bytes} {i : ℕ} (h : bit b i = false) : clearBit (setBit b i) i = b := by
  funext j
  apply eq_of_testBit
  intro t ht
  have hdiv : (8 * j + t) / 8 = j := by omega
  have hmod : (8 * j + t) % 8 = t := by omega
  have key : bit (clearBit (setBit b i) i) (8 * j + t) = bit b (8 * j + t) := by
    rw [bit_clearBit, bit_setBit]
    by_cases hj : 8 * j + t = i
    · simp [hj, h]
    · simp [hj]
  simpa only [bit, hdiv, hmod] using key

end Bytes
