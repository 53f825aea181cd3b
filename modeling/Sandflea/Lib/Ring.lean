import Mathlib

/-!
# Ring buffers

A ring of `n` cells that holds a sequence from some position on: position `k` is in cell `k % n`. With the
cells to be read and written next kept below `n`, its `contents` are the cells between the two; it is full when
one cell is free. A `Queue` is a ring together with the two cells.
-/

namespace Ring

variable {A : Type*} {n lo : ℕ} {cell : ℕ → A} {xs : List A}

/-- The cells hold a sequence from position `lo` on. -/
def Holds (n : ℕ) (cell : ℕ → A) (xs : List A) (lo : ℕ) : Prop :=
  ∀ k x, lo ≤ k → xs[k]? = some x → cell (k % n) = x

/-- Positions less than a round apart are told apart by their cells. -/
theorem mod_eq_mod_iff {a b : ℕ} (hab : a ≤ b) (hb : b < a + n) : a % n = b % n ↔ a = b := by
  constructor
  · intro h
    obtain ⟨d, rfl⟩ := Nat.exists_eq_add_of_le hab
    have hd : n ∣ d := by
      have := (Nat.modEq_iff_dvd' (Nat.le_add_right a d)).mp h
      rwa [Nat.add_sub_cancel_left] at this
    have : d = 0 := Nat.eq_zero_of_dvd_of_lt hd (by omega)
    omega
  · rintro rfl
    rfl

/-- The next cell of one round holds what comes next. -/
theorem Holds.push (h : Holds n cell xs lo) (hroom : xs.length < lo + n) (x : A) :
    Holds n (Function.update cell (xs.length % n) x) (xs ++ [x]) lo := by
  intro k y hk hy
  by_cases hlast : k = xs.length
  · subst hlast
    rw [List.getElem?_concat_length] at hy
    rw [Function.update_self]
    exact Option.some.inj hy
  · have hlt : k < xs.length := by
      have := (List.getElem?_eq_some_iff.mp hy).1
      simp at this
      omega
    have hne : k % n ≠ xs.length % n := fun heq =>
      hlast ((mod_eq_mod_iff hlt.le (by omega)).mp heq)
    rw [List.getElem?_append_left hlt] at hy
    rw [Function.update_of_ne hne]
    exact h k y hk hy

/-- The cell of the first position holds the first element. -/
theorem Holds.first (h : Holds n cell xs lo) (hlo : lo < xs.length) :
    xs[lo]? = some (cell (lo % n)) := by
  rw [h lo xs[lo] le_rfl (List.getElem?_eq_getElem hlo)]
  exact List.getElem?_eq_getElem hlo

/-- A prefix with the element that comes next is a prefix. -/
theorem prefix_concat {ys : List A} {x : A} (h : ys <+: xs) (hx : xs[ys.length]? = some x) :
    ys ++ [x] <+: xs := by
  rw [List.prefix_iff_eq_take] at h ⊢
  rw [List.length_append, List.length_singleton, List.take_add_one, hx, ← h]
  rfl

/-- Only the cells count. -/
theorem Holds.congr (h : Holds n cell xs lo) (hn : 0 < n) {cell' : ℕ → A}
    (hcell : ∀ i < n, cell' i = cell i) : Holds n cell' xs lo := by
  intro k x hk hx
  rw [hcell (k % n) (Nat.mod_lt k hn)]
  exact h k x hk hx

theorem Holds.mono (h : Holds n cell xs lo) {lo' : ℕ} (hlo : lo ≤ lo') : Holds n cell xs lo' :=
  fun k x hk hx => h k x (hlo.trans hk) hx

/-! ## Contents -/

/-- How many cells there are from the one to be read up to the one to be written -/
def count (n read write : ℕ) : ℕ := if read ≤ write then write - read else write + n - read

/-- What is in the ring -/
def contents (n : ℕ) (cell : ℕ → A) (read write : ℕ) : List A :=
  (List.range (count n read write)).map fun i => cell ((read + i) % n)

section

variable {read write : ℕ}

theorem mod_eq_ite {a : ℕ} (h : a < 2 * n) : a % n = if a < n then a else a - n := by
  split
  · exact Nat.mod_eq_of_lt ‹_›
  · rw [Nat.mod_eq_sub_mod (by omega), Nat.mod_eq_of_lt (by omega)]

@[simp] theorem contents_self (n : ℕ) (cell : ℕ → A) (read : ℕ) : contents n cell read read = [] := by
  simp [contents, count]

/-- The cell to be written next is not part of the contents. -/
theorem contents_update_write (hr : read < n) (hw : write < n) (x : A) :
    contents n (Function.update cell write x) read write = contents n cell read write := by
  apply List.map_congr_left
  intro i hi
  have hi := List.mem_range.mp hi
  apply Function.update_of_ne
  unfold count at hi
  rw [mod_eq_ite (by split at hi <;> omega)]
  split at hi <;> split <;> omega

/-- What is pushed is in the ring after the rest. -/
theorem contents_push (hr : read < n) (hw : write < n) (hroom : (write + 1) % n ≠ read) (x : A) :
    contents n (Function.update cell write x) read ((write + 1) % n) =
      contents n cell read write ++ [x] := by
  have hnext := mod_eq_ite (n := n) (a := write + 1) (by omega)
  have hcount : count n read ((write + 1) % n) = count n read write + 1 := by
    rw [hnext] at hroom ⊢
    unfold count
    split_ifs at hroom ⊢ <;> omega
  have hlt : count n read write < n := by
    unfold count
    split <;> omega
  unfold contents
  rw [hcount, List.range_succ, List.map_append, List.map_singleton]
  have hlast : (read + count n read write) % n = write := by
    rw [mod_eq_ite (by omega)]
    unfold count
    split_ifs <;> omega
  rw [hlast, Function.update_self]
  exact congrArg (· ++ [x]) (contents_update_write hr hw x)

/-- What is popped was in the ring before the rest. -/
theorem contents_pop (hr : read < n) (hw : write < n) (hne : read ≠ write) :
    contents n cell read write = cell read :: contents n cell ((read + 1) % n) write := by
  have hnext := mod_eq_ite (n := n) (a := read + 1) (by omega)
  have hcount : count n read write = count n ((read + 1) % n) write + 1 := by
    rw [hnext]
    unfold count
    split_ifs <;> omega
  unfold contents
  rw [hcount, List.range_succ_eq_map, List.map_cons, List.map_map, Nat.add_zero, Nat.mod_eq_of_lt hr]
  refine congrArg (cell read :: ·) (List.map_congr_left fun i _ => ?_)
  show cell ((read + (i + 1)) % n) = cell (((read + 1) % n + i) % n)
  rw [Nat.mod_add_mod]
  congr 2
  omega

/-- The ring is empty if and only if it is the same cell that is read and written next. -/
theorem contents_eq_nil (hr : read < n) (hw : write < n) :
    contents n cell read write = [] ↔ read = write := by
  constructor
  · intro h
    by_contra hne
    rw [contents_pop hr hw hne] at h
    cases h
  · rintro rfl
    exact contents_self n cell read

end

/-! ## Queues -/

/-- A ring with the cells to be read and written next. -/
structure Queue (A : Type*) (n : ℕ) where
  cell : ℕ → A
  read : ℕ
  write : ℕ
  read_lt : read < n
  write_lt : write < n

namespace Queue

variable {q : Queue A n}

/-- What is in a queue -/
def toList (q : Queue A n) : List A := contents n q.cell q.read q.write

/-- Nothing fits into a queue when one cell is free. -/
def Full (q : Queue A n) : Prop := (q.write + 1) % n = q.read

instance (q : Queue A n) : Decidable q.Full := inferInstanceAs (Decidable (_ = _))

/-- Write behind the rest; what does not fit is dropped. -/
def push (q : Queue A n) (x : A) : Queue A n :=
  if q.Full then q
  else
    ⟨Function.update q.cell q.write x, q.read, (q.write + 1) % n, q.read_lt,
      Nat.mod_lt _ (Nat.zero_lt_of_lt q.read_lt)⟩

/-- Read what comes first. -/
def pop (q : Queue A n) : Option (A × Queue A n) :=
  if q.read = q.write then none
  else
    some (q.cell q.read,
      ⟨q.cell, (q.read + 1) % n, q.write, Nat.mod_lt _ (Nat.zero_lt_of_lt q.read_lt), q.write_lt⟩)

/-- Start over at the first cell. -/
def clear (q : Queue A n) : Queue A n :=
  ⟨q.cell, 0, 0, Nat.zero_lt_of_lt q.read_lt, Nat.zero_lt_of_lt q.read_lt⟩

/-- Pass over all that is there. -/
def skip (q : Queue A n) : Queue A n := ⟨q.cell, q.write, q.write, q.write_lt, q.write_lt⟩

/-- Read at most `left` elements, up to the first that does not fit where it is to go; `k` were read before. -/
def drain (fits : ℕ → Bool) : ℕ → ℕ → Queue A n → List A × Queue A n
  | 0, _, q => ([], q)
  | left + 1, k, q =>
    match q.pop with
    | none => ([], q)
    | some (x, q') =>
      if fits k then
        let (xs, q'') := drain fits left (k + 1) q'
        (x :: xs, q'')
      else ([], q)

theorem push_of_full (h : q.Full) (x : A) : q.push x = q := if_pos h

theorem toList_push (h : ¬ q.Full) (x : A) : (q.push x).toList = q.toList ++ [x] := by
  have hpush : q.push x = ⟨Function.update q.cell q.write x, q.read, (q.write + 1) % n, q.read_lt,
      Nat.mod_lt _ (Nat.zero_lt_of_lt q.read_lt)⟩ := if_neg h
  rw [hpush]
  exact contents_push q.read_lt q.write_lt h x

theorem toList_pop {x : A} {q' : Queue A n} (h : q.pop = some (x, q')) : q.toList = x :: q'.toList := by
  unfold pop at h
  obtain ⟨hne, heq⟩ := Option.ite_none_left_eq_some.mp h
  obtain ⟨rfl, rfl⟩ := Prod.mk.inj (Option.some.inj heq)
  exact contents_pop q.read_lt q.write_lt hne

/-- What a drain leaves alone: the cells and where to write next, and it makes no queue full. -/
structure Drained (q q' : Queue A n) : Prop where
  cell : q'.cell = q.cell
  write : q'.write = q.write
  full : q'.Full → q.Full

theorem drained_pop {x : A} {q' : Queue A n} (h : q.pop = some (x, q')) : Drained q q' := by
  unfold pop at h
  obtain ⟨hne, heq⟩ := Option.ite_none_left_eq_some.mp h
  obtain ⟨-, rfl⟩ := Prod.mk.inj (Option.some.inj heq)
  constructor
  · rfl
  · rfl
  · intro hfull
    -- One cell further than the one to be read there is no room only if there was nothing to be read.
    have hr := mod_eq_ite (n := n) (a := q.read + 1) (by have := q.read_lt; omega)
    have hw := mod_eq_ite (n := n) (a := q.write + 1) (by have := q.write_lt; omega)
    have heq : (q.write + 1) % n = (q.read + 1) % n := hfull
    have hread := q.read_lt
    have hwrite := q.write_lt
    rw [hr, hw] at heq
    split at heq <;> split at heq <;> omega

theorem drained_drain (fits : ℕ → Bool) (left k : ℕ) (q : Queue A n) :
    Drained q (q.drain fits left k).2 := by
  induction left generalizing k q with
  | zero => exact ⟨rfl, rfl, id⟩
  | succ left ih =>
    unfold drain
    split
    · exact ⟨rfl, rfl, id⟩
    · rename_i x q' hpop
      split
      · have h := drained_pop hpop
        have h' := ih (k + 1) q'
        exact ⟨h'.cell.trans h.cell, h'.write.trans h.write, fun hfull => h.full (h'.full hfull)⟩
      · exact ⟨rfl, rfl, id⟩

/-- What is drained was in the queue before the rest. -/
theorem toList_drain (fits : ℕ → Bool) (left k : ℕ) (q : Queue A n) :
    q.toList = (q.drain fits left k).1 ++ (q.drain fits left k).2.toList := by
  induction left generalizing k q with
  | zero => rfl
  | succ left ih =>
    unfold drain
    split
    · rfl
    · split
      · rw [toList_pop ‹_›, ih (k + 1)]
        rfl
      · rfl

/-- Something fits into a queue exactly if more than one cell is free. -/
theorem not_full_iff : ¬ q.Full ↔ q.toList.length + 1 < n := by
  have hr := q.read_lt
  have hw := q.write_lt
  have hnext := mod_eq_ite (n := n) (a := q.write + 1) (by omega)
  unfold Full toList contents count
  rw [List.length_map, List.length_range, hnext]
  split_ifs <;> omega

/-- What is pushed for which there is room is in the queue after the rest. -/
theorem toList_foldl_push {xs : List A} (hroom : q.toList.length + xs.length < n) :
    (xs.foldl push q).toList = q.toList ++ xs := by
  induction xs generalizing q with
  | nil => exact (List.append_nil _).symm
  | cons x xs ih =>
    rw [List.length_cons] at hroom
    have hpush : (q.push x).toList = q.toList ++ [x] := toList_push (not_full_iff.mpr (by omega)) x
    rw [List.foldl_cons, ih (by rw [hpush, List.length_append, List.length_singleton]; omega), hpush,
      List.append_assoc]
    rfl

/-- A part of what is in a queue grows by what is pushed exactly if that belongs to it and fits. -/
theorem filter_toList_push (p : A → Bool) (x : A) :
    (q.push x).toList.filter p = q.toList.filter p ↔ q.Full ∨ p x = false := by
  by_cases h : q.Full
  · simp [push_of_full h, h]
  · rw [toList_push h, List.filter_append]
    cases hx : p x <;> simp [h, hx]

end Queue

/-! ## Laps

With a bit for the lap, flipped whenever the cells have all been used once, a cell tells whether it has been
written in the lap of the one who reads it. -/

/-- The bit of the lap a position is in, set in the first lap -/
def lap (n k : ℕ) : Bool := k / n % 2 = 0

theorem lap_of_lt {k : ℕ} (hk : k < n) : lap n k = true := by
  unfold lap
  rw [Nat.div_eq_of_lt hk]
  rfl

/-- A lap later the bit is the other one. -/
theorem lap_add (hn : 0 < n) (k : ℕ) : lap n (k + n) = !lap n k := by
  unfold lap
  rw [Nat.add_div_right k hn]
  rcases Nat.mod_two_eq_zero_or_one (k / n) with h | h
  · rw [h, Nat.succ_mod_two_eq_one_iff.mpr h]
    rfl
  · rw [h, Nat.succ_mod_two_eq_zero_iff.mpr h]
    rfl

/-- From one position to the next the bit is flipped if and only if the cells start over. -/
theorem lap_succ (n k : ℕ) :
    lap n (k + 1) = if (k + 1) % n = 0 then !lap n k else lap n k := by
  unfold lap
  rw [Nat.succ_div]
  by_cases h : n ∣ k + 1
  · rw [if_pos h, if_pos (Nat.mod_eq_zero_of_dvd h)]
    rcases Nat.mod_two_eq_zero_or_one (k / n) with h | h
    · rw [h, Nat.succ_mod_two_eq_one_iff.mpr h]
      rfl
    · rw [h, Nat.succ_mod_two_eq_zero_iff.mpr h]
      rfl
  · rw [if_neg h, if_neg fun h' => h (Nat.dvd_of_mod_eq_zero h'), Nat.add_zero]

end Ring
