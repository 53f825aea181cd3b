import Sandflea.Lib.Bytes
import Sandflea.Lib.Words

/-!
# Linear memory

The linear memory of a guest program as `m3_GetMemory` gives it to a host function: the bytes from its
start on, and its size. A host function that computes a wrong offset goes on into the kernel memory
behind it, so `bytes` does not end at `memSize`.
-/

/-- The bytes of a list in a buffer, from an offset on. -/
def Bytes.putList (b : Bytes) (o : ℕ) (l : List UInt8) : Bytes :=
  copyInto b o (fun i => l.getD i 0) 0 l.length

namespace Sandflea

/-- The linear memory of a guest program. Its size is a `u32`. -/
structure Guest where
  memSize : UInt32
  bytes : Bytes

/-- A range of bytes. -/
structure Span where
  start : ℕ
  len : ℕ
deriving DecidableEq, Repr

namespace Span

/-- Every byte of a range is below a size. -/
def Within (size : ℕ) (s : Span) : Prop := s.len = 0 ∨ s.start + s.len ≤ size

instance (size : ℕ) (s : Span) : Decidable (s.Within size) :=
  inferInstanceAs (Decidable (s.len = 0 ∨ s.start + s.len ≤ size))

/-- Every byte of the first range is a byte of the second. -/
def Inside (s t : Span) : Prop := s.len = 0 ∨ t.start ≤ s.start ∧ s.start + s.len ≤ t.start + t.len

theorem Inside.within {s t : Span} (h : s.Inside t) {size : ℕ} (ht : t.Within size) :
    s.Within size := by
  unfold Inside at h
  unfold Within at ht ⊢
  omega

/-- `Within` says that every byte of the range is below the size. -/
theorem within_iff {s : Span} {size : ℕ} :
    s.Within size ↔ ∀ i, s.start ≤ i → i < s.start + s.len → i < size := by
  unfold Within
  constructor
  · intro h i h₁ h₂
    omega
  · intro h
    by_cases hz : s.len = 0
    · exact .inl hz
    · have hlast := h (s.start + s.len - 1) (by omega) (by omega)
      exact .inr (by omega)

end Span

end Sandflea
