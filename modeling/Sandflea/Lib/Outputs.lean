import Sandflea.Lib.Runs

/-!
# Machines with outputs

A machine gives an output at every step. Two machines that stay related give the same outputs (`outputs_eq_of_sim`). The
relation may use up a budget: each step has a cost, and what is related with a budget for the whole run is related with
nothing left at its end.
-/

namespace Runs

variable {S T A B : Type*}

/-- The outputs of a run -/
def outputs (f : A → S → B × S) : List A → S → List B
  | [], _ => []
  | a :: as, s => (f a s).1 :: outputs f as (f a s).2

/-- The state after a run -/
def final (f : A → S → B × S) (as : List A) (s : S) : S := runAll (fun s a => (f a s).2) s as

theorem final_cons (f : A → S → B × S) (a : A) (as : List A) (s : S) : final f (a :: as) s = final f as (f a s).2 := rfl

/-- Steps that keep a relation and give the same outputs, within a budget -/
theorem outputs_eq_of_sim (cost : A → ℕ) {f : A → S → B × S} {g : A → T → B × T} {R : ℕ → S → T → Prop}
    {C : S → A → Prop}
    (hstep : ∀ n s t a, R (cost a + n) s t → C s a → (f a s).1 = (g a t).1 ∧ R n (f a s).2 (g a t).2)
    {as : List A} {s : S} {t : T} (h : R (as.map cost).sum s t) (hC : Along (fun s a => (f a s).2) C s as) :
    outputs f as s = outputs g as t ∧ R 0 (final f as s) (final g as t) := by
  induction as generalizing s t with
  | nil => exact ⟨rfl, h⟩
  | cons a as ih =>
    rw [List.map_cons, List.sum_cons] at h
    obtain ⟨hout, hR⟩ := hstep _ s t a h hC.1
    obtain ⟨houts, hfinal⟩ := ih hR hC.2
    exact ⟨by rw [outputs, outputs, hout, houts], hfinal⟩

end Runs
