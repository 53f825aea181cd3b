import Mathlib

/-!
# Digital lines

The walk on the grid that follows a line with an error accumulator: from the origin, with a run `d` and a rise `e`,
it takes a step to the right, up, or both, as the error says. With no negative run or rise it takes one step along
the longer side each time, and is as high as the line, rounded (`walk_of_lt`). With a negative one it never leaves an
axis (`walk_fst_eq_zero`, `walk_snd_eq_zero`). So it is at a point after as many steps as that is away exactly if the
line passes there (`walk_eq_iff`).
-/

namespace DigitalLine

variable {d e : ℤ}

/-- The error at a point -/
def error (d e : ℤ) (p : ℤ × ℤ) : ℤ := (p.2 + 1) * d - (p.1 + 1) * e

/-- One step -/
def next (d e : ℤ) (p : ℤ × ℤ) : ℤ × ℤ :=
  (if -e ≤ 2 * error d e p then p.1 + 1 else p.1, if 2 * error d e p ≤ d then p.2 + 1 else p.2)

/-- The walk from the origin -/
def walk (d e : ℤ) : ℕ → ℤ × ℤ
  | 0 => (0, 0)
  | k + 1 => next d e (walk d e k)

/-- The mirrored walk follows the mirrored line. -/
theorem walk_swap (d e : ℤ) (k : ℕ) : walk e d k = (walk d e k).swap := by
  induction k with
  | zero => rfl
  | succ k ih =>
    have herror : error e d (walk d e k).swap = -error d e (walk d e k) := by
      simp only [error, Prod.fst_swap, Prod.snd_swap]
      ring
    have hfst : (-d ≤ 2 * -error d e (walk d e k)) ↔ (2 * error d e (walk d e k) ≤ d) := by omega
    have hsnd : (2 * -error d e (walk d e k) ≤ e) ↔ (-e ≤ 2 * error d e (walk d e k)) := by omega
    simp only [walk, ih, next, herror, hfst, hsnd, Prod.fst_swap, Prod.snd_swap, Prod.swap_prod_mk]

/-- The walk only goes to the right and up. -/
theorem walk_le_succ (d e : ℤ) (k : ℕ) :
    (walk d e k).1 ≤ (walk d e (k + 1)).1 ∧ (walk d e k).2 ≤ (walk d e (k + 1)).2 := by
  have hstep : walk d e (k + 1) = next d e (walk d e k) := rfl
  rw [hstep, next]
  constructor
  · dsimp only
    split <;> omega
  · dsimp only
    split <;> omega

/-- A step goes no further than to a neighbour. -/
theorem walk_succ_le (d e : ℤ) (k : ℕ) :
    (walk d e (k + 1)).1 ≤ (walk d e k).1 + 1 ∧ (walk d e (k + 1)).2 ≤ (walk d e k).2 + 1 := by
  have hstep : walk d e (k + 1) = next d e (walk d e k) := rfl
  rw [hstep, next]
  constructor
  · dsimp only
    split <;> omega
  · dsimp only
    split <;> omega

theorem walk_mono (d e : ℤ) {k l : ℕ} (h : k ≤ l) :
    (walk d e k).1 ≤ (walk d e l).1 ∧ (walk d e k).2 ≤ (walk d e l).2 := by
  induction h with
  | refl => exact ⟨le_rfl, le_rfl⟩
  | step _ ih => exact ⟨ih.1.trans (walk_le_succ d e _).1, ih.2.trans (walk_le_succ d e _).2⟩

theorem walk_nonneg (d e : ℤ) (k : ℕ) : 0 ≤ (walk d e k).1 ∧ 0 ≤ (walk d e k).2 := walk_mono d e (Nat.zero_le k)

/-! ## Where the walk goes -/

/-- How high the line is after `k` steps to the right, rounded -/
def height (d e : ℤ) (k : ℕ) : ℤ := (2 * k * e + d) / (2 * d)

theorem height_spec (hd : 0 < d) (k : ℕ) :
    (2 * height d e k - 1) * d ≤ 2 * k * e ∧ 2 * k * e < (2 * height d e k + 1) * d := by
  have hlow := Int.mul_ediv_self_le (x := 2 * k * e + d) (k := 2 * d) (by omega)
  have hhigh := Int.lt_mul_ediv_self_add (x := 2 * k * e + d) (k := 2 * d) (by omega)
  have hfold : (2 * k * e + d) / (2 * d) = height d e k := rfl
  rw [hfold] at hlow hhigh
  constructor
  · linarith
  · linarith

theorem height_unique (hd : 0 < d) {k : ℕ} {j : ℤ} (hlow : (2 * j - 1) * d ≤ 2 * k * e)
    (hhigh : 2 * k * e < (2 * j + 1) * d) : height d e k = j := by
  apply le_antisymm
  · exact Int.lt_add_one_iff.mp (Int.ediv_lt_of_lt_mul (by omega) (by linarith))
  · exact Int.le_ediv_of_mul_le (by omega) (by linarith)

/-- If the run is longer, every step goes to the right, and up where the line is at least half a step higher. -/
theorem walk_of_lt (he : 0 ≤ e) (hlt : e < d) (k : ℕ) : walk d e k = (↑k, height d e k) := by
  have hd : 0 < d := by omega
  induction k with
  | zero =>
    have hzero : height d e 0 = 0 := height_unique hd (by simp; omega) (by simp; omega)
    rw [hzero]
    rfl
  | succ k ih =>
    obtain ⟨hlow, hhigh⟩ := height_spec (e := e) hd k
    have hstep : walk d e (k + 1) = next d e (walk d e k) := rfl
    rw [hstep, ih, next]
    generalize height d e k = j at hlow hhigh
    have hright : -e ≤ 2 * error d e (↑k, j) := by
      unfold error
      nlinarith
    rw [if_pos hright]
    refine Prod.ext (by push_cast; rfl) ?_
    dsimp only
    unfold error
    dsimp only
    split
    · exact (height_unique hd (by push_cast; linarith) (by push_cast; linarith)).symm
    · exact (height_unique hd (by push_cast; linarith) (by push_cast; linarith)).symm

/-- If run and rise are the same, every step is diagonal. -/
theorem walk_self (hd : 0 ≤ d) (k : ℕ) : walk d d k = (↑k, ↑k) := by
  induction k with
  | zero => rfl
  | succ k ih =>
    have hstep : walk d d (k + 1) = next d d (walk d d k) := rfl
    have herror : error d d (↑k, ↑k) = 0 := sub_self _
    rw [hstep, ih, next, herror, if_pos (by omega), if_pos (by omega)]
    push_cast
    rfl

/-- With no negative run or rise, the walk is as many steps away as it has taken. -/
theorem max_walk (hd : 0 ≤ d) (he : 0 ≤ e) (k : ℕ) : max (walk d e k).1 (walk d e k).2 = k := by
  have hright : ∀ {d e : ℤ}, 0 ≤ e → e < d → max (walk d e k).1 (walk d e k).2 = k := by
    intro d e he hlt
    obtain ⟨hlow, -⟩ := height_spec (d := d) (e := e) (by omega) k
    have hk : (0 : ℤ) ≤ k := Int.natCast_nonneg k
    rw [walk_of_lt he hlt]
    apply max_eq_left
    dsimp only
    by_contra hgt
    nlinarith
  rcases lt_trichotomy e d with hlt | rfl | hlt
  · exact hright he hlt
  · rw [walk_self hd]
    exact max_self _
  · rw [walk_swap e d k, Prod.fst_swap, Prod.snd_swap, max_comm]
    exact hright hd hlt

/-- With no negative run or rise, the error is at most the doubled sum of both. -/
theorem abs_error_le (hd : 0 ≤ d) (he : 0 ≤ e) (k : ℕ) : |error d e (walk d e k)| ≤ 2 * (d + e) := by
  have hright : ∀ {d e : ℤ}, 0 ≤ e → e < d → |error d e (walk d e k)| ≤ 2 * (d + e) := by
    intro d e he hlt
    obtain ⟨hlow, hhigh⟩ := height_spec (d := d) (e := e) (by omega) k
    rw [walk_of_lt he hlt, abs_le]
    unfold error
    dsimp only
    constructor
    · linarith
    · linarith
  rcases lt_trichotomy e d with hlt | rfl | hlt
  · exact hright he hlt
  · rw [walk_self hd]
    simp [error]
    omega
  · have hswap := hright hd hlt
    rw [walk_swap d e k] at hswap
    have hneg : error e d (walk d e k).swap = -error d e (walk d e k) := by
      simp only [error, Prod.fst_swap, Prod.snd_swap]
      ring
    rwa [hneg, abs_neg, add_comm] at hswap

/-- With a negative run that is too large, the walk does not go to the right. -/
theorem walk_fst_eq_zero (hd : d < 0) (hde : 2 * d < e) (k : ℕ) : (walk d e k).1 = 0 := by
  induction k with
  | zero => rfl
  | succ k ih =>
    have hj := (walk_nonneg d e k).2
    have hstep : walk d e (k + 1) = next d e (walk d e k) := rfl
    have hstay : ¬ -e ≤ 2 * error d e (walk d e k) := by
      unfold error
      rw [ih]
      nlinarith
    rw [hstep, next]
    dsimp only
    rw [if_neg hstay, ih]

/-- With a negative rise that is too large, the walk does not go up. -/
theorem walk_snd_eq_zero (he : e < 0) (hde : e ≤ 2 * d) (k : ℕ) : (walk d e k).2 = 0 := by
  induction k with
  | zero => rfl
  | succ k ih =>
    have hi := (walk_nonneg d e k).1
    have hstep : walk d e (k + 1) = next d e (walk d e k) := rfl
    have hstay : ¬ 2 * error d e (walk d e k) ≤ d := by
      unfold error
      rw [ih]
      nlinarith
    rw [hstep, next]
    dsimp only
    rw [if_neg hstay, ih]

/-! ## Which points it meets -/

/-- The line with a run and a rise, rounded, passes a point. -/
def Passes (d e : ℤ) (D E : ℕ) : Prop :=
  0 ≤ d ∧ 0 ≤ e ∧ (e < d → E = height d e D) ∧ (d < e → D = height e d E) ∧ (d = e → D = E)

/-- The line from the origin to a point passes that point. -/
theorem passes_self (D E : ℕ) : Passes D E D E := by
  have hheight : ∀ D E : ℕ, (E : ℤ) < D → (E : ℤ) = height D E D := fun D E hlt =>
    (height_unique (by omega) (by linarith) (by linarith)).symm
  exact ⟨Int.natCast_nonneg D, Int.natCast_nonneg E, hheight D E, hheight E D, Int.natCast_inj.mp⟩

/-- The walk is at a point after as many steps as that is away exactly if the line passes there. A run or a rise may
be negative only if the point is not on the other axis. -/
theorem walk_eq_iff {D E : ℕ} (hD : d < 0 → 0 < D) (hE : e < 0 → 0 < E) :
    walk d e (max D E) = (↑D, ↑E) ↔ Passes d e D E := by
  constructor
  · intro hwalk
    have hd : 0 ≤ d := by
      by_contra hneg
      have hpos := hD (by omega)
      -- The walk stays on one of the axes.
      by_cases hde : 2 * d < e
      · have hzero := walk_fst_eq_zero (by omega) hde (max D E)
        rw [hwalk] at hzero
        dsimp only at hzero
        omega
      · have hzero := walk_snd_eq_zero (d := d) (e := e) (by omega) (by omega) (max D E)
        have hposE := hE (by omega)
        rw [hwalk] at hzero
        dsimp only at hzero
        omega
    have he : 0 ≤ e := by
      by_contra hneg
      have hposE := hE (by omega)
      have hzero := walk_snd_eq_zero (d := d) (e := e) (by omega) (by omega) (max D E)
      rw [hwalk] at hzero
      dsimp only at hzero
      omega
    refine ⟨hd, he, fun hlt => ?_, fun hlt => ?_, fun heq => ?_⟩
    · rw [walk_of_lt he hlt, Prod.mk.injEq] at hwalk
      rw [← hwalk.2, Int.natCast_inj.mp hwalk.1]
    · rw [walk_swap, walk_of_lt hd hlt, Prod.swap_prod_mk, Prod.mk.injEq] at hwalk
      rw [← hwalk.1, Int.natCast_inj.mp hwalk.2]
    · subst heq
      rw [walk_self hd, Prod.mk.injEq] at hwalk
      omega
  · rintro ⟨hd, he, hright, hup, hdiag⟩
    rcases lt_trichotomy e d with hlt | rfl | hlt
    · have hmax := max_walk hd he D
      rw [walk_of_lt he hlt, ← hright hlt] at hmax
      dsimp only at hmax
      rw [max_eq_left (by omega), walk_of_lt he hlt, ← hright hlt]
    · rw [walk_self hd, hdiag rfl, max_self]
    · have hmax := max_walk he hd E
      rw [walk_of_lt hd hlt, ← hup hlt] at hmax
      dsimp only at hmax
      rw [max_eq_right (by omega), walk_swap, walk_of_lt hd hlt, ← hup hlt]
      rfl

end DigitalLine
