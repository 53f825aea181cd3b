import Sandflea.Lib.DigitalLine

/-!
# Lines

`screen_draw_line` steps from one end to the other with an error accumulator and stops where both coordinates are
those of the end. Its run and its rise come from the macro `ABS`, which puts its argument into `-N` without
parentheses: to the left and upwards they are those of another line, unless the line starts at 0. The points are as
they should be exactly if that other line passes the end all the same (`drawsLine_iff`).
-/

namespace Sandflea

open DigitalLine

/-- `v2i_t` -/
structure V2i where
  x : Int32
  y : Int32
deriving DecidableEq

/-- `V2I` of two `i64` -/
def v2i (x y : ℤ) : V2i := ⟨Int32.ofInt x, Int32.ofInt y⟩

/-- `ABS(p - q)`: the macro gives `-p - q` where the difference is negative. -/
def absMacro (p q : ℤ) : ℤ := if p - q < 0 then -p - q else p - q

/-- A number fits into an `i64`. The arithmetic of C is undefined if one does not. -/
def FitsI64 (v : ℤ) : Prop := -2 ^ 63 ≤ v ∧ v < 2 ^ 63

instance decidableFitsI64 (v : ℤ) : Decidable (FitsI64 v) := inferInstanceAs (Decidable (_ ∧ _))

/-! ## The loop -/

/-- The variables of `screen_draw_line` that the loop does not change -/
structure LineVars where
  x1 : ℤ
  y1 : ℤ
  dx : ℤ
  sx : ℤ
  dy : ℤ
  sy : ℤ

/-- The variables that the loop changes -/
structure LineCursor where
  x0 : ℤ
  y0 : ℤ
  err : ℤ

/-- The variables of the loop are in range. -/
def LineCursor.Fits (s : LineCursor) : Prop := FitsI64 s.x0 ∧ FitsI64 s.y0 ∧ FitsI64 s.err

instance LineCursor.decidableFits (s : LineCursor) : Decidable s.Fits := inferInstanceAs (Decidable (_ ∧ _ ∧ _))

/-- The variables at the start -/
def lineVars (a b : V2i) : LineVars where
  x1 := b.x.toInt
  y1 := b.y.toInt
  dx := absMacro b.x.toInt a.x.toInt
  sx := if a.x.toInt < b.x.toInt then 1 else -1
  dy := -absMacro b.y.toInt a.y.toInt
  sy := if a.y.toInt < b.y.toInt then 1 else -1

/-- The variables at the start -/
def lineStart (a b : V2i) : LineCursor where
  x0 := a.x.toInt
  y0 := a.y.toInt
  err := (lineVars a b).dx + (lineVars a b).dy

/-- The step to the side -/
def stepX (l : LineVars) (e2 : ℤ) (s : LineCursor) : LineCursor :=
  if l.dy ≤ e2 then ⟨s.x0 + l.sx, s.y0, s.err + l.dy⟩ else s

/-- The step up or down -/
def stepY (l : LineVars) (e2 : ℤ) (s : LineCursor) : LineCursor :=
  if e2 ≤ l.dx then ⟨s.x0, s.y0 + l.sy, s.err + l.dx⟩ else s

/-- The end of one turn of the loop -/
def lineStep (l : LineVars) (s : LineCursor) : Option LineCursor :=
  let e2 := 2 * s.err
  let s₁ := stepX l e2 s
  let s₂ := stepY l e2 s₁
  if FitsI64 e2 ∧ s₁.Fits ∧ s₂.Fits then some s₂ else none

/-- The points that at most `fuel` turns of the loop give to `screen_put_pixel`, if it has ended then -/
def lineLoop (l : LineVars) : ℕ → LineCursor → Option (List V2i)
  | 0, _ => none
  | fuel + 1, s =>
    if s.x0 = l.x1 ∧ s.y0 = l.y1 then some [v2i s.x0 s.y0]
    else (lineStep l s).bind fun s' => (lineLoop l fuel s').map (v2i s.x0 s.y0 :: ·)

/-- `screen_draw_line` -/
def screenDrawLine (a b : V2i) (fuel : ℕ) : Option (List V2i) := lineLoop (lineVars a b) fuel (lineStart a b)

/-! ## What a line should be -/

/-- How many columns the ends are apart -/
def columnsApart (a b : V2i) : ℕ := (b.x.toInt - a.x.toInt).natAbs

/-- How many rows the ends are apart -/
def rowsApart (a b : V2i) : ℕ := (b.y.toInt - a.y.toInt).natAbs

/-- One of the eight neighbours of a point -/
def Neighbour (p q : V2i) : Prop :=
  p ≠ q ∧ |q.x.toInt - p.x.toInt| ≤ 1 ∧ |q.y.toInt - p.y.toInt| ≤ 1

/-- The loop ends, after one point for every step of the longer side and one more, from `a` to `b` and each a
neighbour of the one before. -/
def DrawsLine (a b : V2i) : Prop :=
  ∃ fuel ps, screenDrawLine a b fuel = some ps ∧ ps.length = max (columnsApart a b) (rowsApart a b) + 1 ∧
    ps.head? = some a ∧ ps.getLast? = some b ∧ ps.IsChain Neighbour

section

variable (a b : V2i)

/-- The run that the macro gives -/
def lineRun : ℤ := absMacro b.x.toInt a.x.toInt

/-- The rise that the macro gives -/
def lineRise : ℤ := absMacro b.y.toInt a.y.toInt

/-- Where the walk is after `k` steps -/
abbrev lineWalk (k : ℕ) : ℤ × ℤ := walk (lineRun a b) (lineRise a b) k

/-- The variables after `k` turns, if nothing overflows -/
def cursorAt (k : ℕ) : LineCursor where
  x0 := a.x.toInt + (lineWalk a b k).1 * (lineVars a b).sx
  y0 := a.y.toInt + (lineWalk a b k).2 * (lineVars a b).sy
  err := error (lineRun a b) (lineRise a b) (lineWalk a b k)

theorem lineStart_eq : lineStart a b = cursorAt a b 0 := by
  simp [lineStart, cursorAt, walk, error, lineVars, lineRun, lineRise]
  ring

/-- A turn takes the walk one step further, if nothing overflows. -/
theorem stepY_stepX (k : ℕ) :
    stepY (lineVars a b) (2 * (cursorAt a b k).err) (stepX (lineVars a b) (2 * (cursorAt a b k).err) (cursorAt a b k)) =
      cursorAt a b (k + 1) := by
  have hdx : (lineVars a b).dx = lineRun a b := rfl
  have hdy : (lineVars a b).dy = -lineRise a b := rfl
  have hwalk : lineWalk a b (k + 1) = next (lineRun a b) (lineRise a b) (lineWalk a b k) := rfl
  rw [stepX, stepY, cursorAt, cursorAt, hwalk, hdx, hdy, next]
  dsimp only
  unfold error
  split_ifs
  · congr 1
    · ring
    · ring
    · ring
  · congr 1
    · ring
    · ring
  · congr 1
    · ring
    · ring
  · rfl

/-- The loop is at the end exactly if the walk is. -/
theorem cursorAt_eq_iff (k : ℕ) :
    (cursorAt a b k).x0 = (lineVars a b).x1 ∧ (cursorAt a b k).y0 = (lineVars a b).y1 ↔
      lineWalk a b k = (↑(columnsApart a b), ↑(rowsApart a b)) := by
  have hi := (walk_nonneg (lineRun a b) (lineRise a b) k).1
  have hj := (walk_nonneg (lineRun a b) (lineRise a b) k).2
  have haxis : ∀ p q i : ℤ, 0 ≤ i → (p + i * (if p < q then 1 else -1) = q ↔ i = ((q - p).natAbs : ℕ)) := by
    intro p q i hi
    split <;> omega
  rw [cursorAt, lineVars, Prod.ext_iff]
  exact and_congr (haxis _ _ _ hi) (haxis _ _ _ hj)

/-- When the loop ends, the walk is at the end after as many steps as points have been drawn before. -/
theorem walk_of_lineLoop {fuel k : ℕ} {ps : List V2i} (h : lineLoop (lineVars a b) fuel (cursorAt a b k) = some ps) :
    ∃ n, ps.length = n + 1 ∧ lineWalk a b (k + n) = (↑(columnsApart a b), ↑(rowsApart a b)) := by
  induction fuel generalizing k ps with
  | zero => cases h
  | succ fuel ih =>
    rw [lineLoop] at h
    split_ifs at h with hend
    · obtain rfl := Option.some.inj h
      exact ⟨0, rfl, (cursorAt_eq_iff a b k).mp hend⟩
    · obtain ⟨s', hstep, hrest⟩ := Option.bind_eq_some_iff.mp h
      obtain ⟨ps', hloop, rfl⟩ := Option.map_eq_some_iff.mp hrest
      have hs' : s' = cursorAt a b (k + 1) := by
        obtain ⟨-, heq⟩ := Option.ite_none_right_eq_some.mp hstep
        rw [← Option.some.inj heq]
        exact stepY_stepX a b k
      rw [hs'] at hloop
      obtain ⟨n, hlen, hwalk⟩ := ih hloop
      refine ⟨n + 1, by rw [List.length_cons, hlen], ?_⟩
      rwa [show k + (n + 1) = k + 1 + n by omega]

/-! ## A line that passes its end -/

/-- The point that the `k`-th turn draws -/
def pointAt (k : ℕ) : V2i := v2i (cursorAt a b k).x0 (cursorAt a b k).y0

/-- What run and rise can be: negative only where the ends are apart. -/
theorem lineRun_bounds :
    lineRun a b ≤ 2 ^ 32 ∧ lineRise a b ≤ 2 ^ 32 ∧ (lineRun a b < 0 → 0 < columnsApart a b) ∧
      (lineRise a b < 0 → 0 < rowsApart a b) := by
  have haxis : ∀ p q : Int32, absMacro q.toInt p.toInt ≤ 2 ^ 32 ∧
      (absMacro q.toInt p.toInt < 0 → 0 < (q.toInt - p.toInt).natAbs) := by
    intro p q
    have hp := p.le_toInt
    have hp' := p.toInt_lt
    have hq := q.le_toInt
    have hq' := q.toInt_lt
    unfold absMacro
    constructor
    · split <;> omega
    · split <;> omega
  exact ⟨(haxis a.x b.x).1, (haxis a.y b.y).1, (haxis a.x b.x).2, (haxis a.y b.y).2⟩

/-- A coordinate between those of the ends is an `i32`. -/
theorem between_ends {p q : Int32} {i : ℤ} (hi : 0 ≤ i) (hiq : i ≤ ((q.toInt - p.toInt).natAbs : ℕ)) :
    -2 ^ 31 ≤ p.toInt + i * (if p.toInt < q.toInt then 1 else -1) ∧
      p.toInt + i * (if p.toInt < q.toInt then 1 else -1) < 2 ^ 31 := by
  have hp := p.le_toInt
  have hp' := p.toInt_lt
  have hq := q.le_toInt
  have hq' := q.toInt_lt
  constructor
  · split <;> omega
  · split <;> omega

section

variable {a b} (hpasses : Passes (lineRun a b) (lineRise a b) (columnsApart a b) (rowsApart a b)) {k : ℕ}

include hpasses

/-- Up to the end, the walk is between the ends. -/
theorem walk_le_ends (hk : k ≤ max (columnsApart a b) (rowsApart a b)) :
    (lineWalk a b k).1 ≤ columnsApart a b ∧ (lineWalk a b k).2 ≤ rowsApart a b := by
  obtain ⟨-, -, hrun, hrise⟩ := lineRun_bounds a b
  have hend := (walk_eq_iff hrun hrise).mpr hpasses
  have hmono := walk_mono (lineRun a b) (lineRise a b) hk
  rwa [hend] at hmono

/-- Up to the end, the coordinates are those of an `i32`. -/
theorem cursorAt_range (hk : k ≤ max (columnsApart a b) (rowsApart a b)) :
    (-2 ^ 31 ≤ (cursorAt a b k).x0 ∧ (cursorAt a b k).x0 < 2 ^ 31) ∧
      (-2 ^ 31 ≤ (cursorAt a b k).y0 ∧ (cursorAt a b k).y0 < 2 ^ 31) := by
  obtain ⟨hi, hj⟩ := walk_nonneg (lineRun a b) (lineRise a b) k
  obtain ⟨hcols, hrows⟩ := walk_le_ends hpasses hk
  exact ⟨between_ends hi hcols, between_ends hj hrows⟩

theorem toInt_pointAt (hk : k ≤ max (columnsApart a b) (rowsApart a b)) :
    (pointAt a b k).x.toInt = (cursorAt a b k).x0 ∧ (pointAt a b k).y.toInt = (cursorAt a b k).y0 := by
  obtain ⟨⟨hx, hx'⟩, hy, hy'⟩ := cursorAt_range hpasses hk
  exact ⟨Int32.toInt_ofInt_of_le hx hx', Int32.toInt_ofInt_of_le hy hy'⟩

/-- The error stays small. -/
theorem abs_err_le (k : ℕ) : |(cursorAt a b k).err| ≤ 2 ^ 34 := by
  obtain ⟨hrun, hrise, -⟩ := lineRun_bounds a b
  have herr : |(cursorAt a b k).err| ≤ 2 * (lineRun a b + lineRise a b) := abs_error_le hpasses.1 hpasses.2.1 k
  omega

/-- Before the end, nothing overflows. -/
theorem lineStep_cursorAt (hk : k < max (columnsApart a b) (rowsApart a b)) :
    lineStep (lineVars a b) (cursorAt a b k) = some (cursorAt a b (k + 1)) := by
  obtain ⟨hrun, hrise, -⟩ := lineRun_bounds a b
  obtain ⟨hx, hy⟩ := cursorAt_range hpasses hk.le
  obtain ⟨hx', hy'⟩ := cursorAt_range (k := k + 1) hpasses hk
  have herr := abs_le.mp (abs_err_le hpasses k)
  have herr' := abs_le.mp (abs_err_le hpasses (k + 1))
  have hnonneg := hpasses.2.1
  have hdy : (lineVars a b).dy = -lineRise a b := rfl
  have hsx : (lineVars a b).sx = 1 ∨ (lineVars a b).sx = -1 := by
    unfold lineVars
    dsimp only
    split
    · exact .inl rfl
    · exact .inr rfl
  unfold lineStep
  dsimp only
  rw [stepY_stepX, if_pos]
  refine ⟨⟨by omega, by omega⟩, ?_, ⟨by omega, by omega⟩, ⟨by omega, by omega⟩, by omega, by omega⟩
  unfold stepX
  split
  · refine ⟨⟨?_, ?_⟩, ⟨?_, ?_⟩, ?_, ?_⟩ <;> dsimp only <;> omega
  · exact ⟨⟨by omega, by omega⟩, ⟨by omega, by omega⟩, by omega, by omega⟩

/-- Before the end, the loop is not there. -/
theorem not_at_end (hk : k < max (columnsApart a b) (rowsApart a b)) :
    ¬((cursorAt a b k).x0 = (lineVars a b).x1 ∧ (cursorAt a b k).y0 = (lineVars a b).y1) := by
  rw [cursorAt_eq_iff]
  intro hend
  have hmax : max (lineWalk a b k).1 (lineWalk a b k).2 = k := max_walk hpasses.1 hpasses.2.1 k
  rw [hend] at hmax
  dsimp only at hmax
  omega

/-- One point is a neighbour of the next. -/
theorem neighbour_pointAt (hk : k < max (columnsApart a b) (rowsApart a b)) :
    Neighbour (pointAt a b k) (pointAt a b (k + 1)) := by
  obtain ⟨hx, hy⟩ := toInt_pointAt hpasses hk.le
  obtain ⟨hx', hy'⟩ := toInt_pointAt (k := k + 1) hpasses hk
  obtain ⟨hi, hj⟩ := walk_le_succ (lineRun a b) (lineRise a b) k
  obtain ⟨hi', hj'⟩ := walk_succ_le (lineRun a b) (lineRise a b) k
  have hmax := max_walk hpasses.1 hpasses.2.1 k
  have hmax' := max_walk hpasses.1 hpasses.2.1 (k + 1)
  have hdiff : ∀ p i i' : ℤ, ∀ r : Prop, [Decidable r] → i ≤ i' → i' ≤ i + 1 →
      |p + i' * (if r then 1 else -1) - (p + i * (if r then 1 else -1))| ≤ 1 ∧
        (p + i * (if r then 1 else -1) = p + i' * (if r then 1 else -1) → i = i') := by
    intro p i i' r _ h h'
    split
    · rw [abs_le]
      omega
    · rw [abs_le]
      omega
  have hcols := hdiff a.x.toInt _ _ (a.x.toInt < b.x.toInt) hi hi'
  have hrows := hdiff a.y.toInt _ _ (a.y.toInt < b.y.toInt) hj hj'
  refine ⟨fun heq => ?_, ?_, ?_⟩
  · -- Two points that are the same would be as far from the start.
    have hcol := hcols.2 (hx.symm.trans ((congrArg (·.x.toInt) heq).trans hx'))
    have hrow := hrows.2 (hy.symm.trans ((congrArg (·.y.toInt) heq).trans hy'))
    rw [← hcol, ← hrow] at hmax'
    omega
  · rw [hx, hx']
    exact hcols.1
  · rw [hy, hy']
    exact hrows.1

/-- From any turn on, the loop draws one point for every turn up to the end. -/
theorem lineLoop_spec {n : ℕ} (hn : k + n = max (columnsApart a b) (rowsApart a b)) :
    ∃ ps, lineLoop (lineVars a b) (n + 1) (cursorAt a b k) = some ps ∧ ps.length = n + 1 ∧
      ps.head? = some (pointAt a b k) ∧ ps.getLast? = some (pointAt a b (k + n)) ∧ ps.IsChain Neighbour := by
  induction n generalizing k with
  | zero =>
    obtain ⟨-, -, hrun, hrise⟩ := lineRun_bounds a b
    have hend := (walk_eq_iff hrun hrise).mpr hpasses
    rw [← hn, Nat.add_zero] at hend
    exact ⟨[pointAt a b k], if_pos ((cursorAt_eq_iff a b k).mpr hend), rfl, rfl, rfl, List.isChain_singleton _⟩
  | succ n ih =>
    have hk : k < max (columnsApart a b) (rowsApart a b) := by omega
    obtain ⟨ps, hloop, hlen, hhead, hlast, hchain⟩ := ih (k := k + 1) (by omega)
    obtain ⟨q, qs, rfl⟩ : ∃ q qs, ps = q :: qs := List.exists_cons_of_length_eq_add_one hlen
    obtain rfl : q = pointAt a b (k + 1) := Option.some.inj hhead
    refine ⟨pointAt a b k :: pointAt a b (k + 1) :: qs, ?_, by rw [List.length_cons, hlen], rfl, ?_, ?_⟩
    · rw [lineLoop, if_neg (not_at_end hpasses hk), lineStep_cursorAt hpasses hk, Option.bind_some, hloop]
      rfl
    · rw [List.getLast?_cons_cons, hlast, show k + 1 + n = k + (n + 1) by omega]
    · exact List.isChain_cons_cons.mpr ⟨neighbour_pointAt hpasses hk, hchain⟩

end

/-- If the loop draws as many points as it should, the line passes its end. -/
theorem passes_of_drawsLine (h : DrawsLine a b) :
    Passes (lineRun a b) (lineRise a b) (columnsApart a b) (rowsApart a b) := by
  obtain ⟨-, -, hrun, hrise⟩ := lineRun_bounds a b
  obtain ⟨fuel, ps, hdraw, hlen, -⟩ := h
  rw [screenDrawLine, lineStart_eq] at hdraw
  obtain ⟨n, hn, hend⟩ := walk_of_lineLoop a b hdraw
  rw [Nat.zero_add, show n = max (columnsApart a b) (rowsApart a b) by omega] at hend
  exact (walk_eq_iff hrun hrise).mp hend

/-- If the line passes its end, it is drawn as it should be. -/
theorem drawsLine_of_passes (hpasses : Passes (lineRun a b) (lineRise a b) (columnsApart a b) (rowsApart a b)) :
    DrawsLine a b := by
  obtain ⟨-, -, hrun, hrise⟩ := lineRun_bounds a b
  obtain ⟨ps, hloop, hlen, hhead, hlast, hchain⟩ := lineLoop_spec hpasses (k := 0) (Nat.zero_add _)
  have hfirst : pointAt a b 0 = a := by
    simp [pointAt, cursorAt, walk, v2i]
  have hfinal : pointAt a b (0 + max (columnsApart a b) (rowsApart a b)) = b := by
    obtain ⟨hx, hy⟩ := (cursorAt_eq_iff a b _).mpr ((walk_eq_iff hrun hrise).mpr hpasses)
    rw [Nat.zero_add, pointAt, hx, hy]
    simp [lineVars, v2i]
  rw [hfirst] at hhead
  rw [hfinal] at hlast
  rw [← lineStart_eq] at hloop
  exact ⟨_, ps, hloop, hlen, hhead, hlast, hchain⟩

/-- To the right and down, or from 0, a line is drawn as it should be. -/
theorem drawsLine_of_le (hx : a.x.toInt ≤ b.x.toInt ∨ a.x.toInt = 0) (hy : a.y.toInt ≤ b.y.toInt ∨ a.y.toInt = 0) :
    DrawsLine a b := by
  have haxis : ∀ p q : ℤ, p ≤ q ∨ p = 0 → absMacro q p = ((q - p).natAbs : ℕ) := by
    intro p q h
    unfold absMacro
    split <;> omega
  apply drawsLine_of_passes
  rw [lineRun, lineRise, haxis _ _ hx, haxis _ _ hy]
  exact passes_self _ _

/-- A line is drawn as it should be exactly if the line with the run and the rise of the macro passes its end. -/
theorem drawsLine_iff :
    DrawsLine a b ↔ Passes (lineRun a b) (lineRise a b) (columnsApart a b) (rowsApart a b) :=
  ⟨passes_of_drawsLine a b, drawsLine_of_passes a b⟩

end

/-- A line to the left along the top row never leaves its first column. -/
theorem not_drawsLine_leftward : ¬ DrawsLine ⟨10, 0⟩ ⟨0, 0⟩ := by
  intro h
  have hrun := (passes_of_drawsLine _ _ h).1
  exact absurd hrun (by decide)

end Sandflea
