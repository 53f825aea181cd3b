import Sandflea.Lib.Bytes

/-!
# Painting words

A buffer from some base on is a sequence of 32-bit words. Painting stores one number in the words at a list
of indices; a word reads as the number if its index is in the list, and as before if not. A loop that stores
two words at once paints what one word at a time does (`paintPairs_eq`).
-/

namespace Bytes

/-- Store the low 64 bits of `v` at offset `o`. -/
def putU64 (b : Bytes) (o v : ℕ) : Bytes := putU32 (putU32 b o v) (o + 4) (v / 2 ^ 32)

/-- Store a number in the words at the indices. -/
def paint (b : Bytes) (base v : ℕ) (is : List ℕ) : Bytes := is.foldl (fun b i => putU32 b (base + 4 * i) v) b

/-- Store a number in the words from an index up to another, two at a time. -/
def paintPairs (b : Bytes) (base v i upTo : ℕ) : Bytes :=
  if i + 2 ≤ upTo then paintPairs (putU64 b (base + 4 * i) (v <<< 32 ||| v)) base v (i + 2) upTo
  else if i < upTo then putU32 b (base + 4 * i) v
  else b
termination_by upTo - i

section

variable {b : Bytes} {base v : ℕ}

@[simp] theorem paint_nil : paint b base v [] = b := rfl

@[simp] theorem paint_cons (i : ℕ) (is : List ℕ) :
    paint b base v (i :: is) = paint (putU32 b (base + 4 * i) v) base v is := rfl

theorem paint_append (is js : List ℕ) : paint b base v (is ++ js) = paint (paint b base v is) base v js :=
  List.foldl_append

/-- Words of several lists -/
theorem paint_flatMap {A : Type*} (as : List A) (f : A → List ℕ) :
    paint b base v (as.flatMap f) = as.foldl (fun b a => paint b base v (f a)) b :=
  List.foldl_flatMap

/-- The words from another base on -/
theorem paint_add (k n : ℕ) :
    paint b (base + 4 * k) v (List.range' 0 n) = paint b base v (List.range' k n) := by
  have hshift : List.range' k n = (List.range' 0 n).map (k + ·) := by
    rw [List.map_add_range', Nat.add_zero]
  unfold paint
  rw [hshift, List.foldl_map]
  refine List.foldl_ext _ _ _ fun c i _ => ?_
  rw [Nat.mul_add, Nat.add_assoc]

/-- A word that is painted reads as the number, another one as before. -/
theorem u32At_paint (hv : v < 2 ^ 32) (is : List ℕ) (j : ℕ) :
    u32At (paint b base v is) (base + 4 * j) = if j ∈ is then v else u32At b (base + 4 * j) := by
  induction is generalizing b with
  | nil => rfl
  | cons i is ih =>
    rw [paint_cons, ih]
    by_cases hj : j = i
    · subst hj
      rw [u32At_putU32, Nat.mod_eq_of_lt hv]
      simp
    · rw [u32At_putU32_of_disjoint (by omega)]
      simp [hj]

/-- Painting changes no byte behind the words. -/
theorem paint_of_le {is : List ℕ} {limit a : ℕ} (his : ∀ i ∈ is, base + 4 * i + 4 ≤ limit) (ha : limit ≤ a) :
    paint b base v is a = b a := by
  induction is generalizing b with
  | nil => rfl
  | cons i is ih =>
    have hi := his i List.mem_cons_self
    rw [paint_cons, ih fun j hj => his j (List.mem_cons_of_mem i hj), putU32_of_ne (by omega)]

/-- A store of the number twice is two stores. -/
theorem putU64_twice (hv : v < 2 ^ 32) (o : ℕ) :
    putU64 b o (v <<< 32 ||| v) = putU32 (putU32 b o v) (o + 4) v := by
  have htwice : v <<< 32 ||| v = v * 2 ^ 32 + v := by
    rw [← Nat.shiftLeft_add_eq_or_of_lt hv, Nat.shiftLeft_eq]
  have hlow : (v * 2 ^ 32 + v) % 2 ^ 32 = v := by omega
  have hhigh : (v * 2 ^ 32 + v) / 2 ^ 32 = v := by omega
  rw [putU64, htwice, hhigh, ← putU32_mod b o (v * 2 ^ 32 + v), hlow]

/-- The loop over pairs paints the words one by one. -/
theorem paintPairs_eq (hv : v < 2 ^ 32) (i upTo : ℕ) :
    paintPairs b base v i upTo = paint b base v (List.range' i (upTo - i)) := by
  fun_induction paintPairs b base v i upTo with
  | case1 b i hpair ih =>
    have hsplit : upTo - i = (upTo - (i + 2)) + 1 + 1 := by omega
    rw [ih, putU64_twice hv, hsplit, List.range'_succ, List.range'_succ, paint_cons, paint_cons]
    rfl
  | case2 b i hend hlast =>
    have hone : upTo - i = 1 := by omega
    rw [hone]
    rfl
  | case3 b i hend hdone =>
    have hzero : upTo - i = 0 := by omega
    rw [hzero]
    rfl

end

end Bytes
