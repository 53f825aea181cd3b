import Mathlib.Data.Int.Basic
import Mathlib.Tactic.Linarith
import Mathlib.Tactic.Ring

/-!
# LEB128

A number as groups of seven bits, the lowest first, each byte but the last with its high bit set. In the signed form the
highest bit of the last group is the sign. `unsigned` and `signed` are the shortest texts of a number, and the decoders
take any text and give back what follows it.
-/

namespace Leb128

/-! ## The texts and the decoders -/

/-- The shortest unsigned text -/
def unsigned (n : ℕ) : List UInt8 :=
  if n < 128 then [UInt8.ofNat n] else UInt8.ofNat (n % 128 + 128) :: unsigned (n / 128)

/-- The shortest signed text -/
def signed (v : ℤ) : List UInt8 :=
  if -64 ≤ v ∧ v < 64 then [UInt8.ofNat (v % 128).toNat] else UInt8.ofNat ((v % 128).toNat + 128) :: signed (v / 128)
termination_by v.natAbs

/-- The number whose unsigned text comes first, and what follows -/
def decodeUnsigned : List UInt8 → Option (ℕ × List UInt8)
  | [] => none
  | b :: bs =>
    if b.toNat < 128 then some (b.toNat, bs)
    else (decodeUnsigned bs).map fun (n, rest) => (b.toNat - 128 + 128 * n, rest)

/-- The number whose signed text comes first, and what follows -/
def decodeSigned : List UInt8 → Option (ℤ × List UInt8)
  | [] => none
  | b :: bs =>
    if b.toNat < 64 then some (b.toNat, bs)
    else if b.toNat < 128 then some (b.toNat - 128, bs)
    else (decodeSigned bs).map fun (v, rest) => (b.toNat - 128 + 128 * v, rest)

/-! ## One group -/

theorem unsigned_of_lt {n : ℕ} (h : n < 128) : unsigned n = [UInt8.ofNat n] := by
  rw [unsigned, if_pos h]

theorem unsigned_of_le {n : ℕ} (h : 128 ≤ n) : unsigned n = UInt8.ofNat (n % 128 + 128) :: unsigned (n / 128) := by
  rw [unsigned, if_neg (Nat.not_lt.mpr h)]

theorem signed_of_mem {v : ℤ} (h : -64 ≤ v ∧ v < 64) : signed v = [UInt8.ofNat (v % 128).toNat] := by
  rw [signed, if_pos h]

theorem signed_of_not_mem {v : ℤ} (h : ¬ (-64 ≤ v ∧ v < 64)) :
    signed v = UInt8.ofNat ((v % 128).toNat + 128) :: signed (v / 128) := by
  rw [signed, if_neg h]

theorem toNat_byte {n : ℕ} (h : n < 256) : (UInt8.ofNat n).toNat = n := UInt8.toNat_ofNat_of_lt' h

/-! ## Decoding what was encoded -/

theorem decodeUnsigned_unsigned (n : ℕ) (rest : List UInt8) : decodeUnsigned (unsigned n ++ rest) = some (n, rest) := by
  induction n using Nat.strongRecOn with
  | ind n ih =>
    rcases Nat.lt_or_ge n 128 with hlt | hge
    · rw [unsigned_of_lt hlt, List.singleton_append, decodeUnsigned, toNat_byte (by omega), if_pos hlt]
    · rw [unsigned_of_le hge, List.cons_append, decodeUnsigned, toNat_byte (by omega), if_neg (by omega),
        ih (n / 128) (by omega)]
      show some (n % 128 + 128 - 128 + 128 * (n / 128), rest) = some (n, rest)
      rw [show n % 128 + 128 - 128 + 128 * (n / 128) = n by omega]

theorem decodeSigned_signed (v : ℤ) (rest : List UInt8) : decodeSigned (signed v ++ rest) = some (v, rest) := by
  induction h : v.natAbs using Nat.strongRecOn generalizing v with
  | ind n ih =>
    by_cases hmem : -64 ≤ v ∧ v < 64
    · rw [signed_of_mem hmem, List.singleton_append, decodeSigned, toNat_byte (by omega)]
      rcases lt_or_ge v 0 with hneg | hpos
      · rw [if_neg (by omega), if_pos (by omega), show ((v % 128).toNat : ℤ) - 128 = v by omega]
      · rw [if_pos (by omega), show ((v % 128).toNat : ℤ) = v by omega]
    · rw [signed_of_not_mem hmem, List.cons_append, decodeSigned, toNat_byte (by omega), if_neg (by omega),
        if_neg (by omega), ih (v / 128).natAbs (by omega) (v / 128) rfl]
      show some ((((v % 128).toNat + 128 : ℕ) : ℤ) - 128 + 128 * (v / 128), rest) = some (v, rest)
      rw [show (((v % 128).toNat + 128 : ℕ) : ℤ) - 128 + 128 * (v / 128) = v by omega]

/-! ## There is no shorter text -/

theorem length_unsigned_le_of_decode {bs rest : List UInt8} {n : ℕ} (h : decodeUnsigned bs = some (n, rest)) :
    (unsigned n).length + rest.length ≤ bs.length := by
  induction bs generalizing n with
  | nil => cases h
  | cons b bs ih =>
    rw [decodeUnsigned] at h
    have hb := b.toNat_lt
    split at h
    · cases h
      rw [unsigned_of_lt ‹_›]
      exact (Nat.add_comm _ _).le
    · obtain ⟨⟨m, rest'⟩, hm, heq⟩ := Option.map_eq_some_iff.mp h
      cases heq
      have hrest := ih hm
      rcases Nat.lt_or_ge (b.toNat - 128 + 128 * m) 128 with hlt | hge
      · rw [unsigned_of_lt hlt, List.length_singleton, List.length_cons]
        omega
      · rw [unsigned_of_le hge, List.length_cons, List.length_cons,
          show (b.toNat - 128 + 128 * m) / 128 = m by omega]
        omega

theorem length_signed_le_of_decode {bs rest : List UInt8} {v : ℤ} (h : decodeSigned bs = some (v, rest)) :
    (signed v).length + rest.length ≤ bs.length := by
  induction bs generalizing v with
  | nil => cases h
  | cons b bs ih =>
    rw [decodeSigned] at h
    have hb := b.toNat_lt
    split at h
    · cases h
      rw [signed_of_mem (by omega)]
      exact (Nat.add_comm _ _).le
    · split at h
      · cases h
        rw [signed_of_mem (by omega)]
        exact (Nat.add_comm _ _).le
      · obtain ⟨⟨w, rest'⟩, hw, heq⟩ := Option.map_eq_some_iff.mp h
        cases heq
        have hrest := ih hw
        by_cases hmem : -64 ≤ (b.toNat : ℤ) - 128 + 128 * w ∧ (b.toNat : ℤ) - 128 + 128 * w < 64
        · rw [signed_of_mem hmem, List.length_singleton, List.length_cons]
          omega
        · rw [signed_of_not_mem hmem, List.length_cons, List.length_cons,
            show ((b.toNat : ℤ) - 128 + 128 * w) / 128 = w by omega]
          omega

/-! ## How long the texts are -/

theorem length_unsigned_pos (n : ℕ) : 0 < (unsigned n).length := by
  rcases Nat.lt_or_ge n 128 with hlt | hge
  · rw [unsigned_of_lt hlt]
    exact Nat.one_pos
  · rw [unsigned_of_le hge]
    exact Nat.succ_pos _

theorem length_unsigned_le {n k : ℕ} (h : n < 128 ^ (k + 1)) : (unsigned n).length ≤ k + 1 := by
  induction k generalizing n with
  | zero =>
    rw [unsigned_of_lt (by omega)]
    exact Nat.le_refl 1
  | succ k ih =>
    rcases Nat.lt_or_ge n 128 with hlt | hge
    · rw [unsigned_of_lt hlt]
      exact Nat.succ_le_succ (Nat.zero_le _)
    · have hdiv : n / 128 < 128 ^ (k + 1) := by
        rw [pow_succ] at h
        exact Nat.div_lt_of_lt_mul (by rwa [Nat.mul_comm])
      rw [unsigned_of_le hge]
      exact Nat.succ_le_succ (ih hdiv)

theorem length_signed_le {v : ℤ} {k : ℕ} (hlow : -(64 * 128 ^ k) ≤ v) (hhigh : v < 64 * 128 ^ k) :
    (signed v).length ≤ k + 1 := by
  induction k generalizing v with
  | zero =>
    rw [signed_of_mem (by omega)]
    exact Nat.le_refl 1
  | succ k ih =>
    by_cases hmem : -64 ≤ v ∧ v < 64
    · rw [signed_of_mem hmem]
      exact Nat.succ_le_succ (Nat.zero_le _)
    · rw [signed_of_not_mem hmem]
      rw [pow_succ] at hlow hhigh
      exact Nat.succ_le_succ (ih (by omega) (by omega))

end Leb128
