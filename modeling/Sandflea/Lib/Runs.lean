import Mathlib

/-!
# Runs

A system that takes steps of some kind, one after the other. `Always` is a property of every state of a
run and `Along` a condition on every step in the state in which it is taken. The two rules are for
properties that steps keep under a condition (`always_of_along`) and for conditions that a property
forces (`along_of_always`).
-/

namespace Runs

variable {S A : Type*}

section

variable (step : S → A → S)

/-- The state after a sequence of steps. -/
def runAll (s : S) (as : List A) : S := as.foldl step s

/-- A property holds in every state of a run. -/
def Always (P : S → Prop) : S → List A → Prop
  | s, [] => P s
  | s, a :: as => P s ∧ Always P (step s a) as

/-- A condition holds for every step of a run, in the state in which it is taken. -/
def Along (C : S → A → Prop) : S → List A → Prop
  | _, [] => True
  | s, a :: as => C s a ∧ Along C (step s a) as

end

variable {step : S → A → S}

instance decidableAlways {P : S → Prop} [DecidablePred P] :
    ∀ s as, Decidable (Always step P s as)
  | s, [] => inferInstanceAs (Decidable (P s))
  | s, a :: as =>
    have : Decidable (Always step P (step s a) as) := decidableAlways (step s a) as
    inferInstanceAs (Decidable (P s ∧ Always step P (step s a) as))

instance decidableAlong {C : S → A → Prop} [∀ s a, Decidable (C s a)] :
    ∀ s as, Decidable (Along step C s as)
  | _, [] => .isTrue trivial
  | s, a :: as =>
    have : Decidable (Along step C (step s a) as) := decidableAlong (step s a) as
    inferInstanceAs (Decidable (C s a ∧ Along step C (step s a) as))

@[simp] theorem runAll_nil (s : S) : runAll step s [] = s := rfl

@[simp] theorem runAll_cons (s : S) (a : A) (as : List A) :
    runAll step s (a :: as) = runAll step (step s a) as := rfl

theorem runAll_append (s : S) (as bs : List A) :
    runAll step s (as ++ bs) = runAll step (runAll step s as) bs := List.foldl_append

theorem Always.head {P : S → Prop} {s : S} {as : List A} (h : Always step P s as) : P s := by
  cases as with
  | nil => exact h
  | cons a as => exact h.1

/-- A property of every state is a property of the last. -/
theorem Always.last {P : S → Prop} {s : S} {as : List A} (h : Always step P s as) :
    P (runAll step s as) := by
  induction as generalizing s with
  | nil => exact h
  | cons a as ih => exact ih h.2

theorem Always.mono {P Q : S → Prop} (hPQ : ∀ s, P s → Q s) {s : S} {as : List A}
    (h : Always step P s as) : Always step Q s as := by
  induction as generalizing s with
  | nil => exact hPQ s h
  | cons a as ih => exact ⟨hPQ s h.1, ih h.2⟩

/-- A property that every step keeps, if the step meets a condition, holds in every state of a run whose
steps meet the condition. -/
theorem always_of_along {P : S → Prop} {C : S → A → Prop}
    (hstep : ∀ s a, P s → C s a → P (step s a)) {s : S} (h : P s) {as : List A}
    (hC : Along step C s as) : Always step P s as := by
  induction as generalizing s with
  | nil => exact h
  | cons a as ih => exact ⟨h, ih (hstep s a h hC.1) hC.2⟩

/-- A condition that a step meets, if there is the property before and after it, is met by every step of
a run that has the property always. -/
theorem along_of_always {P : S → Prop} {C : S → A → Prop}
    (hstep : ∀ s a, P s → P (step s a) → C s a) {s : S} {as : List A} (h : Always step P s as) :
    Along step C s as := by
  induction as generalizing s with
  | nil => trivial
  | cons a as ih => exact ⟨hstep s a h.1 h.2.head, ih h.2⟩

/-- A property that a step keeps exactly if it meets a condition holds in every state of a run exactly if
the steps meet the condition. -/
theorem always_iff_along {P : S → Prop} {C : S → A → Prop}
    (hstep : ∀ s a, P s → (P (step s a) ↔ C s a)) {s : S} (h : P s) {as : List A} :
    Always step P s as ↔ Along step C s as := by
  constructor
  · exact along_of_always fun s a hs hs' => (hstep s a hs).mp hs'
  · exact always_of_along (fun s a hs hC => (hstep s a hs).mpr hC) h

/-- `along_of_always` for runs with an invariant: the steps keep it under the condition and a second one, and the
condition only has to be forced where the invariant holds. -/
theorem along_of_always_inv {P I : S → Prop} {B C : S → A → Prop}
    (hstep : ∀ s a, I s → B s a → P (step s a) → C s a)
    (hI : ∀ s a, I s → B s a → C s a → I (step s a)) {s : S} (h : I s) {as : List A}
    (hB : Along step B s as) (hP : Always step P s as) : Along step C s as := by
  induction as generalizing s with
  | nil => trivial
  | cons a as ih =>
    have hC := hstep s a h hB.1 hP.2.head
    exact ⟨hC, ih (hI s a h hB.1 hC) hB.2 hP.2⟩

/-- A condition on the steps alone. -/
theorem along_of_forall {C : S → A → Prop} {as : List A} (h : ∀ a ∈ as, ∀ s, C s a) (s : S) :
    Along step C s as := by
  induction as generalizing s with
  | nil => trivial
  | cons a as ih =>
    exact ⟨h a List.mem_cons_self s, ih (fun b hb => h b (List.mem_cons_of_mem a hb)) (step s a)⟩

/-- A condition that follows from another in the states that have a property. -/
theorem Along.imp {P : S → Prop} {C D : S → A → Prop} (hCD : ∀ s a, P s → C s a → D s a)
    {s : S} {as : List A} (hP : Always step P s as) (h : Along step C s as) : Along step D s as := by
  induction as generalizing s with
  | nil => trivial
  | cons a as ih => exact ⟨hCD s a hP.1 h.1, ih hP.2 h.2⟩

/-- A run in two parts. -/
theorem Along.append {C : S → A → Prop} {s : S} {as bs : List A} (h : Along step C s as)
    (h' : Along step C (runAll step s as) bs) : Along step C s (as ++ bs) := by
  induction as generalizing s with
  | nil => exact h'
  | cons a as ih => exact ⟨h.1, ih h.2 h'⟩

theorem Along.split {C : S → A → Prop} {s : S} {as bs : List A} (h : Along step C s (as ++ bs)) :
    Along step C s as ∧ Along step C (runAll step s as) bs := by
  induction as generalizing s with
  | nil => exact ⟨trivial, h⟩
  | cons a as ih =>
    obtain ⟨has, hbs⟩ := ih h.2
    exact ⟨⟨h.1, has⟩, hbs⟩

/-- Two conditions on the steps of one run. -/
theorem Along.and {C D : S → A → Prop} {s : S} {as : List A} (h : Along step C s as)
    (h' : Along step D s as) : Along step (fun s a => C s a ∧ D s a) s as := by
  induction as generalizing s with
  | nil => trivial
  | cons a as ih => exact ⟨⟨h.1, h'.1⟩, ih h.2 h'.2⟩

end Runs
