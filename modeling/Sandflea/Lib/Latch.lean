import Mathlib

/-!
# Latches

A flag that several keys share: a key of the group that goes down sets it, and one that goes up clears it. It
tells whether one of the keys is held as long as none goes up while another one stays held.
-/

namespace Latch

variable {K : Type*}

/-- One of the keys is held. -/
def AnyHeld (keys : List K) (held : K → Bool) : Prop := ∃ k ∈ keys, held k = true

instance decidableAnyHeld (keys : List K) (held : K → Bool) : Decidable (AnyHeld keys held) :=
  inferInstanceAs (Decidable (∃ k ∈ keys, held k = true))

@[simp] theorem not_anyHeld_none (keys : List K) : ¬ AnyHeld keys fun _ => false := by
  simp [AnyHeld]

variable [DecidableEq K]

/-- What is held after a key went down or up -/
def hold (held : K → Bool) (key : K) (isDown : Bool) : K → Bool := Function.update held key isDown

/-- The flag after a key went down or up -/
def latch (keys : List K) (flag : Bool) (key : K) (isDown : Bool) : Bool :=
  if key ∈ keys then isDown else flag

/-- A key of the group goes up while another one stays held. -/
def Hides (keys : List K) (held : K → Bool) (key : K) (isDown : Bool) : Prop :=
  isDown = false ∧ key ∈ keys ∧ ∃ k ∈ keys, k ≠ key ∧ held k = true

instance decidableHides (keys : List K) (held : K → Bool) (key : K) (isDown : Bool) :
    Decidable (Hides keys held key isDown) :=
  inferInstanceAs (Decidable (_ = _ ∧ _ ∈ _ ∧ ∃ k ∈ keys, k ≠ key ∧ held k = true))

section

variable {keys : List K} {held : K → Bool} {key : K} {isDown : Bool}

/-- A key outside the group changes nothing about it. -/
theorem anyHeld_hold_of_not_mem (hkey : key ∉ keys) :
    AnyHeld keys (hold held key isDown) ↔ AnyHeld keys held := by
  refine exists_congr fun k => and_congr_right fun hk => ?_
  have hne : k ≠ key := fun heq => hkey (heq ▸ hk)
  rw [hold, Function.update_of_ne hne]

/-- With a key that goes down, one is held. -/
theorem anyHeld_hold_down (hkey : key ∈ keys) : AnyHeld keys (hold held key true) :=
  ⟨key, hkey, Function.update_self ..⟩

/-- With a key that goes up, one is held if another one is. -/
theorem anyHeld_hold_up :
    AnyHeld keys (hold held key false) ↔ ∃ k ∈ keys, k ≠ key ∧ held k = true := by
  refine exists_congr fun k => and_congr_right fun _ => ?_
  rw [hold, Function.update_apply]
  split <;> simp_all

/-- The flag goes on to tell whether a key is held exactly if the key does not hide another one. -/
theorem latch_iff {flag : Bool} (h : flag = true ↔ AnyHeld keys held) :
    (latch keys flag key isDown = true ↔ AnyHeld keys (hold held key isDown)) ↔
      ¬ Hides keys held key isDown := by
  unfold latch Hides
  by_cases hkey : key ∈ keys
  · rw [if_pos hkey]
    cases isDown with
    | true => simp [anyHeld_hold_down hkey]
    | false => simp [anyHeld_hold_up, hkey]
  · rw [if_neg hkey, anyHeld_hold_of_not_mem hkey]
    simp [h, hkey]

end

end Latch
