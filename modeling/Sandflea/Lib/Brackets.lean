import Mathlib.Data.List.Basic
import Mathlib.Data.Prod.Lex
import Mathlib.Order.Basic

/-!
# Brackets

A word of opening and closing brackets with labels is balanced if every closing bracket has the label that was opened
last and is not closed yet. Where the brackets are the ends of intervals in the order of a key, the word is balanced
exactly if no two intervals cross.
-/

namespace Brackets

variable {α β κ : Type*}

/-- Read from a stack of open labels: every closing bracket has the label on top, and none stays open. An opening
bracket is marked with `true`. -/
def Balanced : List α → List (Bool × α) → Prop
  | stack, [] => stack = []
  | stack, (true, x) :: word => Balanced (x :: stack) word
  | [], (false, _) :: _ => False
  | y :: stack, (false, x) :: word => y = x ∧ Balanced stack word

instance Balanced.decidable [DecidableEq α] : (stack : List α) → (word : List (Bool × α)) →
    Decidable (Balanced stack word)
  | stack, [] => inferInstanceAs (Decidable (stack = []))
  | stack, (true, x) :: word => Balanced.decidable (x :: stack) word
  | [], (false, _) :: _ => inferInstanceAs (Decidable False)
  | y :: stack, (false, x) :: word =>
    have := Balanced.decidable stack word
    inferInstanceAs (Decidable (y = x ∧ Balanced stack word))

/-- A balanced word stays balanced under other labels. -/
theorem Balanced.map (f : α → β) {stack : List α} {word : List (Bool × α)} (h : Balanced stack word) :
    Balanced (stack.map f) (word.map (Prod.map id f)) := by
  induction word generalizing stack with
  | nil => exact List.map_eq_nil_iff.mpr h
  | cons bracket word ih =>
    obtain ⟨_ | _, x⟩ := bracket
    · cases stack with
      | nil => exact h.elim
      | cons y stack => exact ⟨congrArg f h.1, ih h.2⟩
    · exact @ih (x :: stack) h

/-- With labels that tell the brackets apart, nothing is lost. -/
theorem Balanced.of_map {f : α → β} {stack : List α} {word : List (Bool × α)}
    (hf : ∀ x ∈ stack ++ word.map Prod.snd, ∀ y ∈ stack ++ word.map Prod.snd, f x = f y → x = y)
    (h : Balanced (stack.map f) (word.map (Prod.map id f))) : Balanced stack word := by
  induction word generalizing stack with
  | nil => exact List.map_eq_nil_iff.mp h
  | cons bracket word ih =>
    obtain ⟨_ | _, x⟩ := bracket
    · cases stack with
      | nil => exact h.elim
      | cons y stack =>
        refine ⟨hf y (by simp) x (by simp) h.1, ih (fun a ha b hb => ?_) h.2⟩
        refine hf a ?_ b ?_
        · simp only [List.mem_append, List.map_cons, List.mem_cons] at ha ⊢
          exact ha.elim (fun ha => .inl (.inr ha)) fun ha => .inr (.inr ha)
        · simp only [List.mem_append, List.map_cons, List.mem_cons] at hb ⊢
          exact hb.elim (fun hb => .inl (.inr hb)) fun hb => .inr (.inr hb)
    · refine @ih (x :: stack) (fun a ha b hb => hf a ?_ b ?_) h
      · simp only [List.cons_append, List.mem_append, List.map_cons, List.mem_cons] at ha ⊢
        tauto
      · simp only [List.cons_append, List.mem_append, List.map_cons, List.mem_cons] at hb ⊢
        tauto

section

variable [LinearOrder κ] (left right : α → κ)

/-- The place of a bracket -/
def place (bracket : Bool × α) : κ := if bracket.1 then left bracket.2 else right bracket.2

/-- An interval ends within another that began within it. -/
def Crosses (x y : α) : Prop := left x < left y ∧ left y < right x ∧ right x < right y

/-- What holds where a word is read: the stack has the intervals that have begun, the last one first, and what is left
has their ends and those of the intervals that are still to begin. -/
structure Reading (stack : List α) (word : List (Bool × α)) : Prop where
  sorted : word.Pairwise fun a b => place left right a < place left right b
  stack_sorted : stack.Pairwise fun x y => left y < left x
  begun : ∀ x ∈ stack, ∀ b ∈ word, left x < place left right b
  ends_of_stack : ∀ x ∈ stack, (false, x) ∈ word
  ends_of_begin : ∀ x, (true, x) ∈ word → (false, x) ∈ word
  ends : ∀ x, (false, x) ∈ word → x ∈ stack ∨ (true, x) ∈ word

variable {left right} {stack : List α} {word : List (Bool × α)} {x : α}

theorem Reading.opens (h : Reading left right stack ((true, x) :: word)) : Reading left right (x :: stack) word where
  sorted := h.sorted.of_cons
  stack_sorted := List.pairwise_cons.mpr
    ⟨fun y hy => h.begun y hy (true, x) List.mem_cons_self, h.stack_sorted⟩
  begun := by
    intro y hy b hb
    rcases List.mem_cons.mp hy with rfl | hy
    · exact (List.pairwise_cons.mp h.sorted).1 b hb
    · exact h.begun y hy b (List.mem_cons_of_mem _ hb)
  ends_of_stack := by
    intro y hy
    have hmem : (false, y) ∈ (true, x) :: word := by
      rcases List.mem_cons.mp hy with rfl | hy
      · exact h.ends_of_begin y List.mem_cons_self
      · exact h.ends_of_stack y hy
    exact (List.mem_cons.mp hmem).resolve_left (by simp)
  ends_of_begin := fun y hy =>
    (List.mem_cons.mp (h.ends_of_begin y (List.mem_cons_of_mem _ hy))).resolve_left (by simp)
  ends := by
    intro y hy
    rcases h.ends y (List.mem_cons_of_mem _ hy) with hstack | hword
    · exact .inl (List.mem_cons_of_mem _ hstack)
    · rcases List.mem_cons.mp hword with heq | hword
      · exact .inl (List.mem_cons.mpr (.inl (Prod.mk.inj heq).2))
      · exact .inr hword

/-- The end that comes next is that of an interval that has begun. -/
theorem Reading.mem_stack (hlt : ∀ x, left x < right x) (h : Reading left right stack ((false, x) :: word)) :
    x ∈ stack := by
  refine (h.ends x List.mem_cons_self).resolve_right fun hmem => ?_
  have hlater := (List.pairwise_cons.mp h.sorted).1 (true, x) ((List.mem_cons.mp hmem).resolve_left (by simp))
  exact absurd (hlt x) (lt_asymm hlater)

/-- What is still open when an end comes ends later. -/
theorem Reading.right_lt (h : Reading left right stack ((false, x) :: word)) {y : α} (hy : (false, y) ∈ word) :
    right x < right y :=
  (List.pairwise_cons.mp h.sorted).1 (false, y) hy

theorem Reading.closes (hlt : ∀ x, left x < right x) (h : Reading left right (x :: stack) ((false, x) :: word)) :
    Reading left right stack word where
  sorted := h.sorted.of_cons
  stack_sorted := h.stack_sorted.of_cons
  begun := fun y hy b hb => h.begun y (List.mem_cons_of_mem _ hy) b (List.mem_cons_of_mem _ hb)
  ends_of_stack := by
    intro y hy
    refine (List.mem_cons.mp (h.ends_of_stack y (List.mem_cons_of_mem _ hy))).resolve_left fun heq => ?_
    obtain rfl := (Prod.mk.inj heq).2
    exact lt_irrefl _ ((List.pairwise_cons.mp h.stack_sorted).1 y hy)
  ends_of_begin := by
    intro y hy
    refine (List.mem_cons.mp (h.ends_of_begin y (List.mem_cons_of_mem _ hy))).resolve_left fun heq => ?_
    obtain rfl := (Prod.mk.inj heq).2
    exact absurd (hlt y) (lt_asymm ((List.pairwise_cons.mp h.sorted).1 (true, y) hy))
  ends := by
    intro y hy
    rcases h.ends y (List.mem_cons_of_mem _ hy) with hstack | hword
    · rcases List.mem_cons.mp hstack with rfl | hstack
      · exact absurd (h.right_lt hy) (lt_irrefl _)
      · exact .inl hstack
    · exact .inr ((List.mem_cons.mp hword).resolve_left (by simp))

/-- A word in the order of its places is balanced exactly if no two intervals that end in it cross. -/
theorem balanced_iff (hlt : ∀ x, left x < right x) (h : Reading left right stack word) :
    Balanced stack word ↔ ∀ x y, (false, x) ∈ word → (false, y) ∈ word → ¬ Crosses left right x y := by
  induction word generalizing stack with
  | nil =>
    have hstack : stack = [] :=
      List.eq_nil_iff_forall_not_mem.mpr fun x hx => List.not_mem_nil (h.ends_of_stack x hx)
    exact ⟨fun _ x _ hx => absurd hx List.not_mem_nil, fun _ => hstack⟩
  | cons bracket word ih =>
    obtain ⟨_ | _, z⟩ := bracket
    · have hz : z ∈ stack := h.mem_stack hlt
      cases stack with
      | nil => exact absurd hz List.not_mem_nil
      | cons y stack =>
        rcases eq_or_ne y z with rfl | hne
        · -- The interval on top ends: it crosses none of those that are left.
          refine (and_iff_right rfl).trans ((ih (h.closes hlt)).trans ⟨fun hrest a b ha hb hab => ?_,
            fun hall a b ha hb => hall a b (List.mem_cons_of_mem _ ha) (List.mem_cons_of_mem _ hb)⟩)
          rcases List.mem_cons.mp ha with haz | haw
          · obtain rfl : a = y := (Prod.mk.inj haz).2
            have hb : (false, b) ∈ word := (List.mem_cons.mp hb).resolve_left fun heq =>
              absurd (Prod.mk.inj heq).2 fun hba => lt_irrefl _ (hba ▸ hab.1)
            rcases (h.closes hlt).ends b hb with hbs | hbw
            · exact lt_asymm hab.1 ((List.pairwise_cons.mp h.stack_sorted).1 b hbs)
            · exact lt_asymm hab.2.1 ((List.pairwise_cons.mp h.sorted).1 (true, b) hbw)
          · rcases List.mem_cons.mp hb with hbz | hb
            · obtain rfl : b = y := (Prod.mk.inj hbz).2
              exact lt_asymm hab.2.2 (h.right_lt haw)
            · exact hrest a b haw hb hab
        · -- Another interval ends: the one on top has begun in it and ends later.
          have hmem : z ∈ stack := (List.mem_cons.mp hz).resolve_left hne.symm
          have hy : (false, y) ∈ word := (List.mem_cons.mp (h.ends_of_stack y List.mem_cons_self)).resolve_left
            fun heq => hne (Prod.mk.inj heq).2
          refine ⟨fun hbal => absurd hbal.1 hne, fun hall => (hall z y List.mem_cons_self
            (List.mem_cons_of_mem _ hy) ⟨?_, ?_, h.right_lt hy⟩).elim⟩
          · exact (List.pairwise_cons.mp h.stack_sorted).1 z hmem
          · exact h.begun y List.mem_cons_self (false, z) List.mem_cons_self
    · refine (ih h.opens).trans ⟨fun hall a b ha hb => ?_, fun hall a b ha hb => ?_⟩
      · exact hall a b ((List.mem_cons.mp ha).resolve_left (by simp)) ((List.mem_cons.mp hb).resolve_left (by simp))
      · exact hall a b (List.mem_cons_of_mem _ ha) (List.mem_cons_of_mem _ hb)

end

end Brackets
