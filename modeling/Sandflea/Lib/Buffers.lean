import Mathlib

/-!
# Buffers with checked accesses

A C buffer is the list of its elements. An access outside of it has no value, and neither has an unsigned
subtraction below zero, so that a program over buffers has a value exactly if all of these are in order.

What is known of a buffer is mostly how it begins (`t <+: buf`). The rules of `store` and `memCopy` extend
this beginning; those of `load` and `skip` read it.
-/

namespace Buffers

section

variable {α : Type}

/-- `buf[i]` -/
def load (buf : List α) (i : ℕ) : Option α := buf[i]?

/-- `buf[i] = x` -/
def store (buf : List α) (i : ℕ) (x : α) : Option (List α) :=
  if i < buf.length then some (buf.set i x) else none

/-- `n` elements of another buffer, from its index `s` on, to the index `d` of the buffer -/
def memCopy (buf : List α) (d : ℕ) (src : List α) (s n : ℕ) : Option (List α) :=
  if d + n ≤ buf.length ∧ s + n ≤ src.length then
    some (buf.take d ++ (src.drop s).take n ++ buf.drop (d + n))
  else none

/-- `a - b` in an unsigned type -/
def subtract (a b : ℕ) : Option ℕ := if b ≤ a then some (a - b) else none

/-- The index of the first element of a list that is not to be skipped -/
def skipList (p : α → Bool) : List α → ℕ → Option ℕ
  | [], _ => none
  | c :: cs, i => if p c then skipList p cs (i + 1) else some i

/-- `while (p(buf[i])) i++;` -/
def skip (p : α → Bool) (buf : List α) (i : ℕ) : Option ℕ := skipList p (buf.drop i) i

/-- How much of `n` elements fits into `size` places behind the first `pos`, if the last place is kept
free. The sum is one of 32 bits. -/
def room (size pos n : ℕ) : Option ℕ :=
  if (pos + n) % 2 ^ 32 ≥ size then do
    let last ← subtract size 1
    subtract last pos
  else some n

/-! ## Single elements -/

theorem bind_of_eq {β γ : Type} {x : Option β} {b : β} (h : x = some b) (f : β → Option γ) :
    (x >>= f) = f b := by
  rw [h]
  rfl

theorem load_of_prefix {t buf : List α} {i : ℕ} {x : α} (ht : t <+: buf) (hx : t[i]? = some x) :
    load buf i = some x := by
  obtain ⟨rest, rfl⟩ := ht
  have hi : i < t.length := (List.getElem?_eq_some_iff.mp hx).1
  unfold load
  rw [List.getElem?_append_left hi, hx]

theorem store_of_lt {buf : List α} {i : ℕ} (x : α) (hi : i < buf.length) :
    store buf i x = some (buf.set i x) := if_pos hi

/-- The element behind the beginning of a buffer -/
theorem store_prefix {t buf : List α} (x : α) (ht : t <+: buf) (hlt : t.length < buf.length) :
    ∃ buf', store buf t.length x = some buf' ∧ buf'.length = buf.length ∧ t ++ [x] <+: buf' := by
  obtain ⟨rest, rfl⟩ := ht
  have hne : rest ≠ [] := by
    rintro rfl
    rw [List.append_nil] at hlt
    omega
  obtain ⟨y, ys, rfl⟩ := List.exists_cons_of_ne_nil hne
  refine ⟨t ++ x :: ys, ?_, ?_, ys, ?_⟩
  · rw [store_of_lt x hlt, List.set_append_right _ _ le_rfl, Nat.sub_self, List.set_cons_zero]
  · rw [List.length_append, List.length_append, List.length_cons, List.length_cons]
  · rw [List.append_assoc, List.singleton_append]

/-! ## Copies -/

theorem subtract_of_le {a b : ℕ} (h : b ≤ a) : subtract a b = some (a - b) := if_pos h

/-- Elements behind the beginning of a buffer -/
theorem memCopy_prefix {t u buf src : List α} {s : ℕ} (ht : t <+: buf) (hu : u <+: src.drop s)
    (hs : s ≤ src.length) (hle : t.length + u.length ≤ buf.length) :
    ∃ buf', memCopy buf t.length src s u.length = some buf' ∧ buf'.length = buf.length ∧
      t ++ u <+: buf' := by
  have htake : buf.take t.length = t := (List.prefix_iff_eq_take.mp ht).symm
  have hcopied : (src.drop s).take u.length = u := (List.prefix_iff_eq_take.mp hu).symm
  have hsrc : s + u.length ≤ src.length := by
    have hlen := hu.length_le
    rw [List.length_drop] at hlen
    omega
  refine ⟨t ++ u ++ buf.drop (t.length + u.length), ?_, ?_, List.prefix_append _ _⟩
  · unfold memCopy
    rw [if_pos ⟨hle, hsrc⟩, htake, hcopied]
  · rw [List.length_append, List.length_append, List.length_drop]
    omega

theorem room_eq {size pos n : ℕ} (hpos : pos < size) (hn : pos + n < 2 ^ 32) :
    room size pos n = some (min n (size - 1 - pos)) := by
  unfold room
  rw [Nat.mod_eq_of_lt hn]
  split
  next h =>
    rw [subtract_of_le (by omega), Option.bind_eq_bind, Option.bind_some, subtract_of_le (by omega)]
    congr 1
    omega
  next h =>
    congr 1
    omega

/-- The part of a text that fits behind the beginning of a buffer -/
theorem memCopy_room {t u buf src : List α} {s : ℕ} (ht : t <+: buf) (hlt : t.length < buf.length)
    (hu : u <+: src.drop s) (hs : s ≤ src.length) (hn : t.length + u.length < 2 ^ 32) :
    ∃ n buf', room buf.length t.length u.length = some n ∧
      memCopy buf t.length src s n = some buf' ∧ buf'.length = buf.length ∧
      (t ++ u).take (buf.length - 1) <+: buf' ∧ ((t ++ u).take (buf.length - 1)).length = t.length + n := by
  have hcut : (t ++ u).take (buf.length - 1) = t ++ u.take (buf.length - 1 - t.length) := by
    rw [List.take_append, List.take_of_length_le (by omega)]
  have hlen : (u.take (buf.length - 1 - t.length)).length = min u.length (buf.length - 1 - t.length) := by
    rw [List.length_take, min_comm]
  obtain ⟨buf', hcopy, hsize, hbegins⟩ := memCopy_prefix ht ((List.take_prefix _ _).trans hu) hs
    (u := u.take (buf.length - 1 - t.length)) (by omega)
  rw [hlen] at hcopy
  refine ⟨_, buf', room_eq hlt hn, hcopy, hsize, ?_, ?_⟩
  · rw [hcut]
    exact hbegins
  · rw [hcut, List.length_append, hlen]

/-! ## Scans -/

/-- What is skipped depends on the test at the elements of the text alone. -/
theorem takeWhile_eq_of_forall {p q : α → Bool} {t : List α} (h : ∀ c ∈ t, p c = q c) :
    t.takeWhile p = t.takeWhile q := by
  induction t with
  | nil => rfl
  | cons c t ih =>
    rw [List.takeWhile_cons, List.takeWhile_cons, h c List.mem_cons_self,
      ih fun d hd => h d (List.mem_cons_of_mem c hd)]

/-- What is left behind a scan -/
theorem drop_skipped (p : α → Bool) (t : List α) (i : ℕ) :
    t.drop (i + ((t.drop i).takeWhile p).length) = (t.drop i).dropWhile p := by
  have hsplit : (t.drop i).takeWhile p ++ (t.drop i).dropWhile p = t.drop i :=
    List.takeWhile_append_dropWhile
  calc t.drop (i + ((t.drop i).takeWhile p).length)
      = (t.drop i).drop ((t.drop i).takeWhile p).length := List.drop_drop.symm
    _ = ((t.drop i).takeWhile p ++ (t.drop i).dropWhile p).drop ((t.drop i).takeWhile p).length := by
        rw [hsplit]
    _ = (t.drop i).dropWhile p := List.drop_left

theorem length_skipped_le (p : α → Bool) {t : List α} {i : ℕ} (hi : i ≤ t.length) :
    i + ((t.drop i).takeWhile p).length ≤ t.length := by
  have hle := (List.takeWhile_prefix (l := t.drop i) p).length_le
  rw [List.length_drop] at hle
  omega

theorem skipList_eq {p : α → Bool} {t rest : List α} {z : α} (hz : p z = false) (i : ℕ) :
    skipList p (t ++ z :: rest) i = some (i + (t.takeWhile p).length) := by
  induction t generalizing i with
  | nil =>
    change (if p z = true then _ else some i) = _
    rw [hz]
    rfl
  | cons c t ih =>
    change (if p c = true then skipList p (t ++ z :: rest) (i + 1) else some i) = _
    rw [List.takeWhile_cons]
    split
    · rw [ih, List.length_cons]
      congr 1
      omega
    · rfl

/-- In front of an element that ends it, a scan skips what it would skip in the text alone. -/
theorem skip_spec {p : α → Bool} {t buf : List α} {z : α} {i : ℕ} (ht : t ++ [z] <+: buf)
    (hz : p z = false) (hi : i ≤ t.length) :
    skip p buf i = some (i + ((t.drop i).takeWhile p).length) := by
  obtain ⟨rest, rfl⟩ := ht
  unfold skip
  rw [List.append_assoc, List.drop_append_of_le_length hi]
  exact skipList_eq hz i

end

end Buffers
