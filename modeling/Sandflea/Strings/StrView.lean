import Sandflea.Lib.Bytes

/-!
# String views

`str_view_t`: a pointer into memory that someone else owns, with a length. `str_view_eq` and `str_view_cmp` decide
by different ways whether two views are equal. They agree, except where one view has no memory behind it: an empty
view is not equal to one with a null pointer, but comes neither before nor after it (`orderedViews_iff`).
-/

namespace Sandflea

/-- `str_view_t` -/
structure StrView where
  /-- The address of the first byte; 0 is `null`. -/
  data : ℕ
  len : ℕ
  /-- `len` is a `u32`. -/
  len_lt : len < 2 ^ 32

/-- The bytes of a view, in a memory -/
def StrView.bytes (m : Bytes) (sv : StrView) : List UInt8 := (List.range sv.len).map fun i => m (sv.data + i)

/-- `local_memcmp`, from the `i`-th of `i + n` bytes on -/
def localMemcmp (a b : Bytes) : ℕ → ℕ → ℤ
  | _, 0 => 0
  | i, n + 1 => if a i ≠ b i then (a i).toNat - (b i).toNat else localMemcmp a b (i + 1) n

/-- The memory from an address on -/
def memFrom (m : Bytes) (addr : ℕ) : Bytes := fun i => m (addr + i)

/-- `str_view_eq` -/
def strViewEq (m : Bytes) (a b : StrView) : Bool :=
  if a.data = b.data ∧ a.len = b.len then true
  else if a.len ≠ b.len then false
  else if a.data = 0 ∨ b.data = 0 then false
  else localMemcmp (memFrom m a.data) (memFrom m b.data) 0 a.len = 0

/-- `str_view_cmp` -/
def strViewCmp (m : Bytes) (a b : StrView) : ℤ :=
  if a.data = b.data ∧ a.len = b.len then 0
  else
    let minLen := if a.len < b.len then a.len else b.len
    let cmp := localMemcmp (memFrom m a.data) (memFrom m b.data) 0 minLen
    if cmp ≠ 0 then cmp
    else if a.len < b.len then -1
    else if b.len < a.len then 1
    else 0

/-! ## Comparing bytes -/

/-- What a comparison must say of two lists: its sign tells which comes first. -/
structure Compares (r : ℤ) (xs ys : List UInt8) : Prop where
  neg_iff : r < 0 ↔ xs < ys
  pos_iff : 0 < r ↔ ys < xs

theorem Compares.zero_iff {r : ℤ} {xs ys : List UInt8} (h : Compares r xs ys) : r = 0 ↔ xs = ys := by
  have hneg := h.neg_iff
  have hpos := h.pos_iff
  constructor
  · rintro rfl
    rcases Std.lt_trichotomy xs ys with hlt | heq | hlt
    · exact absurd (hneg.mpr hlt) (lt_irrefl 0)
    · exact heq
    · exact absurd (hpos.mpr hlt) (lt_irrefl 0)
  · rintro rfl
    have h₁ : ¬ r < 0 := fun hr => Std.lt_irrefl (hneg.mp hr)
    have h₂ : ¬ 0 < r := fun hr => Std.lt_irrefl (hpos.mp hr)
    omega

theorem compares_refl (xs : List UInt8) : Compares 0 xs xs :=
  ⟨iff_of_false (lt_irrefl 0) Std.lt_irrefl, iff_of_false (lt_irrefl 0) Std.lt_irrefl⟩

/-- The bytes from the `i`-th of `i + n` on -/
def bytesFrom (a : Bytes) (i n : ℕ) : List UInt8 := (List.range' i n).map a

/-- `local_memcmp` compares in the lexicographic order. -/
theorem compares_localMemcmp (a b : Bytes) (i n : ℕ) :
    Compares (localMemcmp a b i n) (bytesFrom a i n) (bytesFrom b i n) := by
  induction n generalizing i with
  | zero => exact compares_refl []
  | succ n ih =>
    have hcons : ∀ c : Bytes, bytesFrom c i (n + 1) = c i :: bytesFrom c (i + 1) n := fun _ => rfl
    rw [hcons, hcons, localMemcmp]
    by_cases heq : a i = b i
    · rw [if_neg (not_not_intro heq), heq]
      constructor
      · rw [List.cons_lt_cons_iff, (ih (i + 1)).neg_iff]
        simp
      · rw [List.cons_lt_cons_iff, (ih (i + 1)).pos_iff]
        simp
    · rw [if_pos heq]
      constructor
      · rw [List.cons_lt_cons_iff, UInt8.lt_iff_toNat_lt]
        simp only [heq, false_and, or_false]
        omega
      · rw [List.cons_lt_cons_iff, UInt8.lt_iff_toNat_lt]
        simp only [Ne.symm heq, false_and, or_false]
        omega

/-- Of two lists that agree as far as both go, the shorter comes first. -/
theorem lt_iff_take {xs ys : List UInt8} {n : ℕ} (hn : n = min xs.length ys.length) :
    xs < ys ↔ xs.take n < ys.take n ∨ xs.take n = ys.take n ∧ xs.length < ys.length := by
  induction xs generalizing ys n with
  | nil =>
    subst hn
    cases ys <;> simp
  | cons x xs ih =>
    cases ys with
    | nil =>
      subst hn
      simp
    | cons y ys =>
      have hsucc : n = min xs.length ys.length + 1 := by simp [hn]
      rw [hsucc, List.take_succ_cons, List.take_succ_cons, List.cons_lt_cons_iff, List.cons_lt_cons_iff, ih rfl,
        List.cons.injEq, List.length_cons, List.length_cons, Nat.add_lt_add_iff_right]
      tauto

/-! ## Comparing views -/

section

variable (m : Bytes) (a b c : StrView)

@[simp] theorem StrView.length_bytes : (a.bytes m).length = a.len := by simp [StrView.bytes]

/-- The first bytes of a view -/
theorem StrView.take_bytes {n : ℕ} (hn : n ≤ a.len) : (a.bytes m).take n = bytesFrom (memFrom m a.data) 0 n := by
  rw [StrView.bytes, bytesFrom, ← List.map_take, List.take_range, min_eq_left hn, List.range_eq_range']
  rfl

theorem StrView.bytes_eq_bytesFrom : a.bytes m = bytesFrom (memFrom m a.data) 0 a.len := by
  have h := a.take_bytes m le_rfl
  rwa [List.take_of_length_le (a.length_bytes m).le] at h

/-- Views with the same pointer and length have the same bytes. -/
theorem StrView.bytes_congr {a b : StrView} (h : a.data = b.data ∧ a.len = b.len) : a.bytes m = b.bytes m := by
  rw [StrView.bytes, StrView.bytes, h.1, h.2]

/-- `str_view_cmp` compares in the lexicographic order. -/
theorem compares_strViewCmp : Compares (strViewCmp m a b) (a.bytes m) (b.bytes m) := by
  unfold strViewCmp
  by_cases hsame : a.data = b.data ∧ a.len = b.len
  · rw [if_pos hsame, StrView.bytes_congr m hsame]
    exact compares_refl _
  rw [if_neg hsame]
  have hmin : (if a.len < b.len then a.len else b.len) = min a.len b.len := by
    split <;> omega
  have hcmp := compares_localMemcmp (memFrom m a.data) (memFrom m b.data) 0 (min a.len b.len)
  have hab : min a.len b.len = min (a.bytes m).length (b.bytes m).length := by simp
  have hba : min a.len b.len = min (b.bytes m).length (a.bytes m).length := by simp [Nat.min_comm]
  rw [← a.take_bytes m (min_le_left _ _), ← b.take_bytes m (min_le_right _ _)] at hcmp
  dsimp only
  rw [hmin]
  generalize localMemcmp (memFrom m a.data) (memFrom m b.data) 0 (min a.len b.len) = r at hcmp ⊢
  have hzero := hcmp.zero_iff
  split_ifs with hr hlt hgt
  · -- The views differ in the first bytes.
    have hne := mt hzero.mpr hr
    constructor
    · rw [lt_iff_take hab, hcmp.neg_iff]
      exact (or_iff_left fun h => hne h.1).symm
    · rw [lt_iff_take hba, hcmp.pos_iff]
      exact (or_iff_left fun h => hne h.1.symm).symm
  all_goals
    have heq := hzero.mp (not_not.mp hr)
    constructor
    · rw [lt_iff_take hab, heq, StrView.length_bytes, StrView.length_bytes]
      simp [Std.lt_irrefl]
      omega
    · rw [lt_iff_take hba, heq, StrView.length_bytes, StrView.length_bytes]
      simp [Std.lt_irrefl]
      omega

/-- One of the views has a null pointer and the other one does not, but they have the same bytes. For views without
memory behind them that are empty, as they should be, this means that both are empty. -/
def NullAgainstData : Prop := (a.data = 0 ↔ b.data ≠ 0) ∧ a.bytes m = b.bytes m

/-- `str_view_eq` finds views with the same bytes equal, unless only one of them is null. -/
theorem strViewEq_iff : strViewEq m a b = true ↔ a.bytes m = b.bytes m ∧ ¬ NullAgainstData m a b := by
  unfold strViewEq NullAgainstData
  have hlen : a.bytes m = b.bytes m → a.len = b.len := fun h => by simpa using congrArg List.length h
  split_ifs with hsame hne hnull
  · have hbytes := StrView.bytes_congr m hsame
    simp [hbytes, hsame.1]
  · have hno : a.bytes m ≠ b.bytes m := fun h => hne (hlen h)
    simp [hno]
  · -- The lengths are equal, so the pointers are not.
    have hlens := not_not.mp hne
    have hdata : a.data ≠ b.data := fun h => hsame ⟨h, hlens⟩
    have hone : a.data = 0 ↔ b.data ≠ 0 := by omega
    simp [hone]
  · rw [decide_eq_true_iff, (compares_localMemcmp _ _ 0 a.len).zero_iff, ← StrView.bytes_eq_bytesFrom,
      not_not.mp hne, ← StrView.bytes_eq_bytesFrom]
    push Not at hnull
    simp [hnull.1, hnull.2]

/-- What the two comparisons must satisfy -/
structure OrderedViews : Prop where
  antisymm : (strViewCmp m b a).sign = -(strViewCmp m a b).sign
  trans : strViewCmp m a b ≤ 0 → strViewCmp m b c ≤ 0 → strViewCmp m a c ≤ 0
  lex : (strViewCmp m a b < 0 ↔ a.bytes m < b.bytes m) ∧ (0 < strViewCmp m a b ↔ b.bytes m < a.bytes m)
  eq_iff : strViewCmp m a b = 0 ↔ strViewEq m a b = true

/-- The sign of a comparison the other way round -/
theorem sign_strViewCmp : (strViewCmp m b a).sign = -(strViewCmp m a b).sign := by
  have hab := compares_strViewCmp m a b
  have hba := compares_strViewCmp m b a
  rcases lt_trichotomy (strViewCmp m a b) 0 with h | h | h
  · rw [Int.sign_eq_neg_one_of_neg h, Int.sign_eq_one_of_pos (hba.pos_iff.mpr (hab.neg_iff.mp h))]
    rfl
  · rw [h, hba.zero_iff.mpr (hab.zero_iff.mp h).symm]
    rfl
  · rw [Int.sign_eq_one_of_pos h, Int.sign_eq_neg_one_of_neg (hba.neg_iff.mpr (hab.pos_iff.mp h))]

theorem strViewCmp_nonpos_iff : strViewCmp m a b ≤ 0 ↔ a.bytes m ≤ b.bytes m := by
  rw [← not_lt, (compares_strViewCmp m a b).pos_iff, List.not_lt]

/-- The comparisons are as they must be exactly if the first two views are not a null view and another one with the
same bytes. -/
theorem orderedViews_iff : OrderedViews m a b c ↔ ¬ NullAgainstData m a b := by
  have hcmp := compares_strViewCmp m a b
  constructor
  · intro h hnull
    have heq := h.eq_iff.mp (hcmp.zero_iff.mpr hnull.2)
    exact ((strViewEq_iff m a b).mp heq).2 hnull
  · intro hnull
    refine ⟨sign_strViewCmp m a b, fun hab hbc => ?_, ⟨hcmp.neg_iff, hcmp.pos_iff⟩, ?_⟩
    · rw [strViewCmp_nonpos_iff] at hab hbc ⊢
      exact List.le_trans hab hbc
    · rw [strViewEq_iff, hcmp.zero_iff]
      exact (and_iff_left hnull).symm

end

/-- The view of the empty literal and the view of no string: neither comes before the other, but they are not
equal. -/
theorem empty_ne_null :
    ¬ OrderedViews Bytes.zeros ⟨4096, 0, by decide⟩ ⟨0, 0, by decide⟩ ⟨0, 0, by decide⟩ := fun h =>
  absurd (h.eq_iff.mp rfl) (by decide)

end Sandflea
