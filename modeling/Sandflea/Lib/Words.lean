import Mathlib

/-!
# Machine words

Numbers in words of 16, 32 and 64 bits, the signed numbers of 32-bit words, and the size of a page.
-/

namespace Sandflea

/-- A `u16` holds this of a number. -/
def u16 (n : ℕ) : ℕ := n % 2 ^ 16

/-- A `u32` holds this of a number. -/
def u32 (n : ℕ) : ℕ := n % 2 ^ 32

/-- A `u64` holds this of a number. -/
def u64 (n : ℕ) : ℕ := n % 2 ^ 64

/-- An `i32` holds this of a number. -/
def i32 (z : ℤ) : ℤ := z.bmod (2 ^ 32)

/-- `PAGE_SIZE` -/
def pageSize : ℕ := 4096

theorem u32_of_lt {n : ℕ} (h : n < 2 ^ 32) : u32 n = n := Nat.mod_eq_of_lt h

theorem u32_lt (n : ℕ) : u32 n < 2 ^ 32 := Nat.mod_lt n (by decide)

theorem u64_of_lt {n : ℕ} (h : n < 2 ^ 64) : u64 n = n := Nat.mod_eq_of_lt h

theorem u64_lt (n : ℕ) : u64 n < 2 ^ 64 := Nat.mod_lt n (by decide)

/-- A sum of two words wraps once if at all. -/
theorem u32_add {a b : ℕ} (ha : a < 2 ^ 32) (hb : b < 2 ^ 32) :
    u32 (a + b) = a + b ∨ 2 ^ 32 ≤ a + b ∧ u32 (a + b) = a + b - 2 ^ 32 := by
  unfold u32
  omega

theorem i32_of_lt {n : ℕ} (h : n < 2 ^ 31) : i32 n = n := by
  unfold i32
  rw [Int.bmod_eq_of_le] <;> omega

/-- An `i32` never shows more than the number. -/
theorem i32_le (n : ℕ) : i32 n ≤ n := by
  unfold i32
  rw [Int.bmod_def]
  split <;> omega

end Sandflea
