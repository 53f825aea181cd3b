import Mathlib

/-!
# Singly linked lists

Nodes with a pointer to the next one. `IsChain next p xs` says that the nodes from the pointer `p` on are
`xs`, and `follow` goes along them. The rules are for the two ends: `IsChain.drop` for nodes that are
taken off the head, and `IsChain.concat` for a node that is linked behind the last. `IsCycle` is for nodes
that are linked in a circle, with `IsCycle.remove` for one that is taken out.
-/

namespace LinkedList

variable {α : Type*}

/-- The nodes from a pointer on, in order. -/
def IsChain (next : α → Option α) : Option α → List α → Prop
  | p, [] => p = none
  | p, x :: xs => p = some x ∧ IsChain next (next x) xs

/-- The first `n` nodes from a pointer on. -/
def follow (next : α → Option α) : ℕ → Option α → List α
  | 0, _ => []
  | _ + 1, none => []
  | n + 1, some x => x :: follow next n (next x)

variable {next next' : α → Option α} {p : Option α} {x y : α} {xs ys : List α}

@[simp] theorem isChain_nil : IsChain next p [] ↔ p = none := Iff.rfl

@[simp] theorem isChain_cons : IsChain next p (x :: xs) ↔ p = some x ∧ IsChain next (next x) xs :=
  Iff.rfl

@[simp] theorem follow_none (n : ℕ) : follow next n none = [] := by cases n <;> rfl

theorem IsChain.head? (h : IsChain next p xs) : xs.head? = p := by
  cases xs with
  | nil => exact h.symm
  | cons x xs => exact h.1.symm

/-- With enough steps all nodes are found. -/
theorem IsChain.follow_eq (h : IsChain next p xs) {n : ℕ} (hn : xs.length ≤ n) :
    follow next n p = xs := by
  induction xs generalizing p n with
  | nil => rw [isChain_nil.mp h, follow_none]
  | cons x xs ih =>
    obtain ⟨rfl, hxs⟩ := h
    obtain ⟨n, rfl⟩ : ∃ m, n = m + 1 := ⟨n - 1, by simp only [List.length_cons] at hn; omega⟩
    have htail : follow next n (next x) = xs :=
      ih hxs (by simp only [List.length_cons] at hn; omega)
    rw [follow, htail]

/-- Only the pointers of the nodes count. -/
theorem IsChain.congr (h : IsChain next p xs) (hnext : ∀ x ∈ xs, next' x = next x) :
    IsChain next' p xs := by
  induction xs generalizing p with
  | nil => exact h
  | cons x xs ih =>
    refine ⟨h.1, ?_⟩
    rw [hnext x List.mem_cons_self]
    exact ih h.2 fun y hy => hnext y (List.mem_cons_of_mem x hy)

/-- From a node in the middle, the rest of the list. -/
theorem IsChain.of_append (h : IsChain next p (xs ++ x :: ys)) : IsChain next (some x) (x :: ys) := by
  induction xs generalizing p with
  | nil => exact ⟨rfl, h.2⟩
  | cons y xs ih => exact ih h.2

/-- The nodes that are left when the first ones are taken off. -/
theorem IsChain.drop (h : IsChain next p xs) (n : ℕ) : IsChain next (xs.drop n).head? (xs.drop n) := by
  induction xs generalizing p n with
  | nil => simp
  | cons x xs ih =>
    cases n with
    | zero => exact ⟨rfl, h.2⟩
    | succ n => simpa only [List.drop_succ_cons] using ih h.2 n

/-- A node `y` is linked behind the last node `x`. -/
theorem IsChain.concat (h : IsChain next p (xs ++ [x])) (hnext : ∀ z ∈ xs, next' z = next z)
    (hx : next' x = some y) (hy : next' y = none) : IsChain next' p (xs ++ [x] ++ [y]) := by
  induction xs generalizing p with
  | nil => exact ⟨h.1, hx, hy⟩
  | cons z xs ih =>
    refine ⟨h.1, ?_⟩
    rw [hnext z List.mem_cons_self]
    exact ih h.2 fun w hw => hnext w (List.mem_cons_of_mem z hw)

/-! ## Circles -/

/-- The nodes of a cycle are linked in this order, and the last to the first. -/
def IsCycle (next : α → Option α) (c : Cycle α) : Prop := c.Chain fun x y => next x = some y

theorem isCycle_cons : IsCycle next (x :: xs : List α) ↔
    List.IsChain (fun x y => next x = some y) (x :: (xs ++ [x])) :=
  Cycle.chain_coe_cons _ x xs

/-- A cycle begins at any of its nodes. -/
theorem coe_append_comm (xs ys : List α) : ((xs ++ ys : List α) : Cycle α) = (ys ++ xs : List α) :=
  Cycle.coe_eq_coe.mpr List.isRotated_append

/-- The node behind another. -/
theorem IsCycle.next_eq (h : IsCycle next (xs ++ x :: ys : List α)) :
    next x = some ((ys ++ xs).headD x) := by
  rw [coe_append_comm, List.cons_append, isCycle_cons] at h
  cases hrest : ys ++ xs with
  | nil =>
    rw [hrest] at h
    exact (List.isChain_cons_cons.mp h).1
  | cons y zs =>
    rw [hrest] at h
    exact (List.isChain_cons_cons.mp h).1

/-- The pointer of the last node does not count. -/
theorem isChain_congr (h : List.IsChain (fun x y => next x = some y) (xs ++ [x]))
    (hnext : ∀ y ∈ xs, next' y = next y) : List.IsChain (fun x y => next' x = some y) (xs ++ [x]) := by
  induction xs with
  | nil => exact List.isChain_singleton x
  | cons y xs ih =>
    have hy : next' y = next y := hnext y List.mem_cons_self
    have hxs : ∀ z ∈ xs, next' z = next z := fun z hz => hnext z (List.mem_cons_of_mem y hz)
    cases xs with
    | nil =>
      refine List.isChain_cons_cons.mpr ⟨?_, List.isChain_singleton x⟩
      rw [hy]
      exact (List.isChain_cons_cons.mp h).1
    | cons z zs =>
      obtain ⟨hyz, h⟩ := List.isChain_cons_cons.mp h
      refine List.isChain_cons_cons.mpr ⟨?_, ih h hxs⟩
      rw [hy]
      exact hyz

/-- Only the pointers of the nodes count. -/
theorem IsCycle.congr {c : Cycle α} (h : IsCycle next c) (hnext : ∀ x ∈ c, next' x = next x) :
    IsCycle next' c := by
  induction c using Cycle.induction_on with
  | nil => exact Cycle.Chain.nil _
  | cons x xs =>
    rw [isCycle_cons, ← List.cons_append] at h ⊢
    exact isChain_congr h fun y hy => hnext y (Cycle.mem_coe_iff.mpr hy)

/-- A node is taken out of a cycle: the one before it is linked to the one behind it. -/
theorem IsCycle.remove (h : IsCycle next (xs ++ x :: y :: ys : List α))
    (hx : next' x = next y) (hother : ∀ z ∈ xs ++ ys, next' z = next z) :
    IsCycle next' (xs ++ x :: ys : List α) := by
  rw [coe_append_comm, List.cons_append, List.cons_append, isCycle_cons, List.cons_append] at h
  rw [coe_append_comm, List.cons_append, isCycle_cons]
  obtain ⟨-, h⟩ := List.isChain_cons_cons.mp h
  have hmem : ∀ z ∈ ys ++ xs, next' z = next z := fun z hz =>
    hother z (List.mem_append.mpr (List.mem_append.mp hz).symm)
  generalize ys ++ xs = zs at h hmem
  cases zs with
  | nil =>
    refine List.isChain_cons_cons.mpr ⟨?_, List.isChain_singleton x⟩
    rw [hx]
    exact (List.isChain_cons_cons.mp h).1
  | cons z zs =>
    obtain ⟨hyz, h⟩ := List.isChain_cons_cons.mp h
    exact List.isChain_cons_cons.mpr ⟨hx.trans hyz, isChain_congr h hmem⟩

end LinkedList
