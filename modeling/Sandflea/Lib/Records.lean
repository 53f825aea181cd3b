import Mathlib

/-!
# Buffers of consecutive records

A buffer can hold records one after the other, where each record says how long it is. `Tiled len stop o os` says
that the records at the offsets `os` fill the space from `o` to `stop`. The lengths are a function of the offset, so
that a change of one length is a change of that function at one point.
-/

/-- The records at the offsets `os` fill the space from `o` up to `stop`. -/
inductive Tiled (len : ℕ → ℕ) (stop : ℕ) : ℕ → List ℕ → Prop
  /-- Nothing is left to fill. -/
  | nil : Tiled len stop stop []
  /-- A record, and the records that follow it. -/
  | cons {o : ℕ} {os : List ℕ} (hpos : 0 < len o) (htail : Tiled len stop (o + len o) os) :
      Tiled len stop o (o :: os)

/-- The offsets of the records from `o` up to `stop`, at most `fuel` of them. -/
def recordsFrom (len : ℕ → ℕ) (stop : ℕ) : ℕ → ℕ → List ℕ
  | 0, _ => []
  | fuel + 1, o => if o < stop then o :: recordsFrom len stop fuel (o + len o) else []

namespace Tiled

variable {len len' : ℕ → ℕ} {stop o x : ℕ} {os os' : List ℕ}

theorem le (h : Tiled len stop o os) : o ≤ stop := by
  induction h with
  | nil => exact le_rfl
  | cons _ _ ih => omega

theorem lt_of_cons (h : Tiled len stop o (x :: os)) : x = o ∧ o < stop ∧ 0 < len o := by
  cases h with
  | cons hpos htail =>
    have hle := htail.le
    exact ⟨rfl, by omega, hpos⟩

/-- Every record lies in the space that is filled. -/
theorem bounds (h : Tiled len stop o os) (hx : x ∈ os) : o ≤ x ∧ 0 < len x ∧ x + len x ≤ stop := by
  induction h with
  | nil => cases hx
  | cons hpos htail ih =>
    rcases List.mem_cons.mp hx with rfl | hmem
    · exact ⟨le_rfl, hpos, htail.le⟩
    · have := ih hmem
      omega

/-- There are no more records than bytes. -/
theorem length_le (h : Tiled len stop o os) : o + os.length ≤ stop := by
  induction h with
  | nil => simp
  | cons hpos _ ih =>
    rw [List.length_cons]
    omega

/-- The offsets are those that `recordsFrom` finds. -/
theorem recordsFrom_eq (h : Tiled len stop o os) {fuel : ℕ} (hfuel : os.length ≤ fuel) :
    recordsFrom len stop fuel o = os := by
  induction h generalizing fuel with
  | nil => cases fuel <;> simp [recordsFrom]
  | cons hpos htail ih =>
    obtain ⟨n, rfl⟩ : ∃ n, fuel = n + 1 := ⟨fuel - 1, by rw [List.length_cons] at hfuel; omega⟩
    have hlt := htail.le
    rw [recordsFrom, if_pos (by omega), ih (by simpa using hfuel)]

/-- The tiling depends only on the lengths of its own records. -/
theorem congr (h : Tiled len stop o os) (hlen : ∀ y ∈ os, len' y = len y) : Tiled len' stop o os := by
  induction h with
  | nil => exact nil
  | cons hpos _ ih =>
    have hhead := hlen _ List.mem_cons_self
    refine cons (by omega) ?_
    rw [hhead]
    exact ih fun y hy => hlen y (List.mem_cons_of_mem _ hy)

/-- A tiling is one up to a record, and one from that record on. -/
theorem split (h : Tiled len stop o (os ++ x :: os')) :
    Tiled len x o os ∧ Tiled len stop x (x :: os') := by
  induction os generalizing o with
  | nil =>
    obtain ⟨rfl, -, -⟩ := h.lt_of_cons
    exact ⟨nil, h⟩
  | cons y os ih =>
    obtain ⟨rfl, -, -⟩ := h.lt_of_cons
    cases h with
    | cons hpos htail =>
      obtain ⟨hleft, hright⟩ := ih htail
      exact ⟨cons hpos hleft, hright⟩

theorem append (h : Tiled len x o os) (h' : Tiled len stop x os') : Tiled len stop o (os ++ os') := by
  induction h with
  | nil => exact h'
  | cons hpos _ ih => exact cons hpos ih

/-- Two tilings from one offset agree up to where the shorter one ends. -/
theorem prefix_of_le {rs : List ℕ} (h : Tiled len x o os) (h' : Tiled len stop o rs) (hx : x ≤ stop) :
    ∃ rs', rs = os ++ rs' ∧ Tiled len stop x rs' := by
  induction h generalizing rs with
  | nil => exact ⟨rs, rfl, h'⟩
  | cons hpos htail ih =>
    have hle := htail.le
    cases h' with
    | nil => omega
    | cons _ htail' =>
      obtain ⟨rs', rfl, hrest⟩ := ih htail'
      exact ⟨rs', rfl, hrest⟩

/-- A tiling of a nonempty space starts with a record. -/
theorem exists_cons (h : Tiled len stop o os) (hlt : o < stop) :
    ∃ os', os = o :: os' ∧ Tiled len stop (o + len o) os' := by
  cases h with
  | nil => omega
  | cons _ htail => exact ⟨_, rfl, htail⟩

/-- Divide a record in two: the first keeps `m` bytes, and the second has the others. -/
theorem divide (h : Tiled len stop o (os ++ x :: os')) {m : ℕ} (hm : 0 < m) (hlt : m < len x)
    (hpre : ∀ y ∈ os, len' y = len y) (hpost : ∀ y ∈ os', len' y = len y) (hfst : len' x = m)
    (hsnd : len' (x + m) = len x - m) : Tiled len' stop o (os ++ x :: (x + m) :: os') := by
  obtain ⟨hleft, hright⟩ := h.split
  cases hright with
  | cons hpos htail =>
    refine (hleft.congr hpre).append (cons (by omega) ?_)
    rw [hfst]
    refine cons (by omega) ?_
    rw [hsnd, Nat.add_assoc, Nat.add_sub_cancel' hlt.le]
    exact htail.congr hpost

end Tiled
