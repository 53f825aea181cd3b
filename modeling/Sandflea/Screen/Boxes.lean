import Sandflea.Compositor.FillRect
import Sandflea.Screen.Line

/-!
# Boxes and clearing

`screen_draw_box` clips a box to the screen and fills its rows; `screen_clear` fills as many words as the screen has
pixels. The clipping compares signed coordinates with unsigned sides, so a box that reaches beyond the left or the
upper edge is not drawn at all; the clearing does not skip what is between the rows, so it ends too early if there is
anything (`screenExact_iff`).
-/

namespace Sandflea

/-- `draw_surface_t`, with the part of `address` that matters: whether it is null -/
structure DrawSurface where
  hasAddress : Bool
  width : UInt64
  height : UInt64
  pitch : UInt64
deriving DecidableEq, Repr

/-- The words of the buffer of a surface, from its start on -/
abbrev Words := ℕ → UInt32

/-- `mem_set32`: `count` words from an index on -/
def memSet32 (fb : Words) (dest : ℕ) (val : UInt32) (count : ℕ) : Words := fun i =>
  if dest ≤ i ∧ i < dest + count then val else fb i

/-- An `i64` as a `u64` -/
def asU64 (v : ℤ) : ℕ := (v % 2 ^ 64).toNat

namespace DrawSurface

/-- `pitch_pixels` -/
def pitchPixels (d : DrawSurface) : ℕ := d.pitch.toNat / 4

/-- A buffer for rows of words that are at least as long as the screen is wide -/
structure Sound (d : DrawSurface) : Prop where
  hasAddress : d.hasAddress = true
  words : d.pitch.toNat % 4 = 0
  rows : 4 * d.width.toNat ≤ d.pitch.toNat
  fits : d.pitch.toNat * d.height.toNat < 2 ^ 64

end DrawSurface

/-- The corners of a box, in order -/
def boxRect (p1 p2 : V2i) : FillRect where
  x0 := min p1.x.toInt p2.x.toInt
  x1 := max p1.x.toInt p2.x.toInt + 1
  y0 := min p1.y.toInt p2.y.toInt
  y1 := max p1.y.toInt p2.y.toInt + 1

/-- The smaller of a `u64` and an `i64`: they are compared as `u64`. -/
def minU64 (m : ℕ) (v : ℤ) : ℤ := if m < asU64 v then m else asU64 v

/-- The rows of `screen_draw_box`, from `y0` on -/
def drawRows (d : DrawSurface) (x0 x1 y0 y1 : ℤ) (color : UInt32) (fb : Words) : Words :=
  (List.range (y1 - y0 + 1).toNat).foldl
    (fun fb (i : ℕ) =>
      let y := y0 + i
      let count := asU64 (x1 - x0 + 1)
      if 0 < count then memSet32 fb (u64 (asU64 y * d.pitchPixels + asU64 x0)) color count else fb)
    fb

/-- `screen_draw_box` -/
def screenDrawBox (d : DrawSurface) (p1 p2 : V2i) (color : UInt32) (fb : Words) : Words :=
  if d.hasAddress = false then fb
  else
    let x0 := min p1.x.toInt p2.x.toInt
    let y0 := min p1.y.toInt p2.y.toInt
    let x1 := max p1.x.toInt p2.x.toInt
    let y1 := max p1.y.toInt p2.y.toInt
    if d.width.toNat ≤ asU64 x0 ∨ d.height.toNat ≤ asU64 y0 ∨ x1 < 0 ∨ y1 < 0 then fb
    else
      drawRows d (max 0 x0) (minU64 (u64 (d.width.toNat + 2 ^ 64 - 1)) x1) (max 0 y0)
        (minU64 (u64 (d.height.toNat + 2 ^ 64 - 1)) y1) color fb

/-- `screen_clear` -/
def screenClear (d : DrawSurface) (color : UInt32) (fb : Words) : Words :=
  memSet32 fb 0 color (u64 (d.width.toNat * d.height.toNat))

/-! ## What is claimed, and when it holds -/

/-- What is visible of a box -/
def DrawSurface.visible (d : DrawSurface) (p1 p2 : V2i) : FillRect where
  x0 := max (boxRect p1 p2).x0 0
  x1 := min (boxRect p1 p2).x1 d.width.toNat
  y0 := max (boxRect p1 p2).y0 0
  y1 := min (boxRect p1 p2).y1 d.height.toNat

/-- For all contents of the buffer and all colors, drawing a box sets exactly the pixels of it that are on the screen,
and clearing sets every pixel that is on the screen and nothing behind the buffer. -/
structure ScreenExact (d : DrawSurface) (p1 p2 : V2i) : Prop where
  box : ∀ color fb i, screenDrawBox d p1 p2 color fb i =
    if i ∈ (d.visible p1 p2).indices d.pitchPixels then color else fb i
  clear : ∀ color fb,
    (∀ px < d.width.toNat, ∀ py < d.height.toNat, screenClear d color fb (py * d.pitchPixels + px) = color) ∧
      ∀ i, d.pitchPixels * d.height.toNat ≤ i → screenClear d color fb i = fb i

/-- The box does not reach beyond the left or the upper edge, or nothing of it is on the screen. -/
def BoxOnScreen (d : DrawSurface) (p1 p2 : V2i) : Prop :=
  (0 ≤ (boxRect p1 p2).x0 ∧ 0 ≤ (boxRect p1 p2).y0) ∨ (d.visible p1 p2).Empty

/-- There is nothing between the rows of the screen. -/
def DrawSurface.Dense (d : DrawSurface) : Prop :=
  d.pitchPixels = d.width.toNat ∨ d.height.toNat ≤ 1 ∨ d.width.toNat = 0

/-! ## Filling rows -/

/-- A fill of several rows sets the words that one of them has. -/
theorem foldl_memSet32 (rows : List ℕ) (start : ℕ → ℕ) (count : ℕ) (color : UInt32) (fb : Words) (i : ℕ) :
    rows.foldl (fun fb r => memSet32 fb (start r) color count) fb i =
      if ∃ r ∈ rows, start r ≤ i ∧ i < start r + count then color else fb i := by
  induction rows generalizing fb with
  | nil => simp
  | cons r rows ih =>
    rw [List.foldl_cons, ih]
    by_cases hrest : ∃ r ∈ rows, start r ≤ i ∧ i < start r + count
    · have hall : ∃ r' ∈ r :: rows, start r' ≤ i ∧ i < start r' + count := by
        obtain ⟨r', hr', hin⟩ := hrest
        exact ⟨r', List.mem_cons_of_mem r hr', hin⟩
      rw [if_pos hrest, if_pos hall]
    · rw [if_neg hrest, memSet32]
      refine if_congr ?_ rfl rfl
      constructor
      · exact fun hin => ⟨r, List.mem_cons_self, hin⟩
      · rintro ⟨r', hr', hin⟩
        rcases List.mem_cons.mp hr' with rfl | hmem
        · exact hin
        · exact absurd ⟨r', hmem, hin⟩ hrest

theorem asU64_of_nonneg {v : ℤ} (h : 0 ≤ v) (hlt : v < 2 ^ 64) : asU64 v = v.toNat := by
  unfold asU64
  omega

theorem asU64_of_neg {v : ℤ} (h : v < 0) (hlt : -2 ^ 31 ≤ v) : 2 ^ 64 - 2 ^ 31 ≤ asU64 v := by
  unfold asU64
  omega

/-- The last coordinate that is clamped to the last one on the screen -/
theorem minU64_pred {n : ℕ} {v : ℤ} (hpos : 0 < n) (hn : n < 2 ^ 64) (hv : 0 ≤ v) (hlt : v < 2 ^ 31) :
    minU64 (u64 (n + 2 ^ 64 - 1)) v = min (n : ℤ) (v + 1) - 1 := by
  have hpred : u64 (n + 2 ^ 64 - 1) = n - 1 := by
    unfold u64
    omega
  rw [hpred, minU64, asU64_of_nonneg hv (by omega)]
  split <;> omega

/-- Rows inside the buffer are filled with the color, pixel by pixel. -/
theorem drawRows_eq {d : DrawSurface} (hd : d.Sound) {x0 x1 y0 y1 : ℤ} (hx0 : 0 ≤ x0) (hx : x0 ≤ x1)
    (hx1 : x1 < d.width.toNat) (hy0 : 0 ≤ y0) (hy1 : y1 < d.height.toNat) (color : UInt32) (fb : Words) (i : ℕ) :
    drawRows d x0 x1 y0 y1 color fb i =
      if i ∈ FillRect.indices ⟨x0, x1 + 1, y0, y1 + 1⟩ d.pitchPixels then color else fb i := by
  have hfits := hd.fits
  have hrows := hd.rows
  have hw := d.width.toNat_lt
  have hpitch : 4 * d.pitchPixels = d.pitch.toNat := by
    have := hd.words
    unfold DrawSurface.pitchPixels
    omega
  have hstart : ∀ r ∈ List.range (y1 - y0 + 1).toNat,
      u64 (asU64 (y0 + r) * d.pitchPixels + asU64 x0) = (y0.toNat + r) * d.pitchPixels + x0.toNat := by
    intro r hr
    have hr := List.mem_range.mp hr
    have hrow : (y0.toNat + r + 1) * d.pitchPixels ≤ d.height.toNat * d.pitchPixels :=
      Nat.mul_le_mul_right _ (by omega)
    have hall : 4 * (d.height.toNat * d.pitchPixels) < 2 ^ 64 := by
      calc 4 * (d.height.toNat * d.pitchPixels) = 4 * d.pitchPixels * d.height.toNat := by ring
        _ < 2 ^ 64 := by rwa [hpitch]
    have hh := d.height.toNat_lt
    rw [asU64_of_nonneg (by omega) (by omega), asU64_of_nonneg hx0 (by omega), u64_of_lt]
    · rw [show (y0 + r).toNat = y0.toNat + r by omega]
    · rw [show (y0 + r).toNat = y0.toNat + r by omega]
      rw [Nat.add_mul, Nat.one_mul] at hrow
      omega
  have hcount : asU64 (x1 - x0 + 1) = (x1 - x0 + 1).toNat := asU64_of_nonneg (by omega) (by omega)
  unfold drawRows
  rw [hcount]
  dsimp only
  have hpaint : (List.range (y1 - y0 + 1).toNat).foldl
      (fun fb (r : ℕ) => if 0 < (x1 - x0 + 1).toNat then
        memSet32 fb (u64 (asU64 (y0 + r) * d.pitchPixels + asU64 x0)) color (x1 - x0 + 1).toNat else fb) fb =
      (List.range (y1 - y0 + 1).toNat).foldl
        (fun fb r => memSet32 fb ((y0.toNat + r) * d.pitchPixels + x0.toNat) color (x1 - x0 + 1).toNat) fb := by
    refine List.foldl_ext _ _ _ fun fb r hr => ?_
    rw [if_pos (by omega), hstart r hr]
  rw [hpaint, foldl_memSet32]
  refine if_congr (Iff.trans ?_ (FillRect.mem_indices hx0 hy0).symm) rfl rfl
  constructor
  · rintro ⟨r, hr, hle, hlt⟩
    have hr := List.mem_range.mp hr
    refine ⟨i - (y0.toNat + r) * d.pitchPixels, y0.toNat + r, ?_, by omega⟩
    unfold FillRect.Has
    dsimp only
    omega
  · rintro ⟨px, py, hhas, rfl⟩
    unfold FillRect.Has at hhas
    dsimp only at hhas
    refine ⟨py - y0.toNat, List.mem_range.mpr (by omega), ?_⟩
    rw [show y0.toNat + (py - y0.toNat) = py by omega]
    omega

section

variable {d : DrawSurface} {p1 p2 : V2i}

/-- The corners are `i32`. -/
theorem boxRect_bounds (p1 p2 : V2i) :
    (-2 ^ 31 ≤ (boxRect p1 p2).x0 ∧ (boxRect p1 p2).x0 < (boxRect p1 p2).x1 ∧ (boxRect p1 p2).x1 ≤ 2 ^ 31) ∧
      (-2 ^ 31 ≤ (boxRect p1 p2).y0 ∧ (boxRect p1 p2).y0 < (boxRect p1 p2).y1 ∧ (boxRect p1 p2).y1 ≤ 2 ^ 31) := by
  have haxis : ∀ m n : Int32, -2 ^ 31 ≤ min m.toInt n.toInt ∧ min m.toInt n.toInt < max m.toInt n.toInt + 1 ∧
      max m.toInt n.toInt + 1 ≤ 2 ^ 31 := by
    intro m n
    have hm := m.le_toInt
    have hm' := m.toInt_lt
    have hn := n.le_toInt
    have hn' := n.toInt_lt
    omega
  exact ⟨haxis p1.x p2.x, haxis p1.y p2.y⟩

/-- The sides of a screen that is not empty -/
theorem sides_lt (hd : d.Sound) (hw : 0 < d.width.toNat) (hh : 0 < d.height.toNat) :
    d.width.toNat < 2 ^ 62 ∧ d.height.toNat < 2 ^ 62 := by
  have hfits := hd.fits
  have hrows := hd.rows
  have hwide : d.pitch.toNat ≤ d.pitch.toNat * d.height.toNat := Nat.le_mul_of_pos_right _ hh
  have hhigh : 4 * d.height.toNat ≤ d.pitch.toNat * d.height.toNat := Nat.mul_le_mul_right _ (by omega)
  omega

/-- A box that does not reach beyond the left or the upper edge is drawn as far as it is on the screen. -/
theorem screenDrawBox_of_nonneg (hd : d.Sound) (hx : 0 ≤ (boxRect p1 p2).x0) (hy : 0 ≤ (boxRect p1 p2).y0)
    (color : UInt32) (fb : Words) (i : ℕ) :
    screenDrawBox d p1 p2 color fb i =
      if i ∈ (d.visible p1 p2).indices d.pitchPixels then color else fb i := by
  obtain ⟨⟨-, hx01, hx1⟩, -, hy01, hy1⟩ := boxRect_bounds p1 p2
  have hsame : ∀ q : FillRect, q = boxRect p1 p2 → min p1.x.toInt p2.x.toInt = q.x0 ∧
      max p1.x.toInt p2.x.toInt = q.x1 - 1 ∧ min p1.y.toInt p2.y.toInt = q.y0 ∧
      max p1.y.toInt p2.y.toInt = q.y1 - 1 := by
    rintro q rfl
    unfold boxRect
    dsimp only
    omega
  obtain ⟨hminx, hmaxx, hminy, hmaxy⟩ := hsame _ rfl
  unfold screenDrawBox
  dsimp only
  rw [if_neg (by rw [hd.hasAddress]; decide), hminx, hmaxx, hminy, hmaxy, asU64_of_nonneg hx (by omega),
    asU64_of_nonneg hy (by omega)]
  unfold DrawSurface.visible
  generalize boxRect p1 p2 = q at *
  by_cases hout : d.width.toNat ≤ q.x0.toNat ∨ d.height.toNat ≤ q.y0.toNat ∨ q.x1 - 1 < 0 ∨ q.y1 - 1 < 0
  · have hempty : FillRect.Empty ⟨max q.x0 0, min q.x1 d.width.toNat, max q.y0 0, min q.y1 d.height.toNat⟩ := by
      unfold FillRect.Empty
      dsimp only
      omega
    rw [if_pos hout, indices_of_empty hempty, if_neg List.not_mem_nil]
  · push Not at hout
    obtain ⟨hwidth, hheight, -, -⟩ := hout
    obtain ⟨hlt, -⟩ := sides_lt hd (Nat.zero_lt_of_lt hwidth) (Nat.zero_lt_of_lt hheight)
    have hh := d.height.toNat_lt
    rw [if_neg (by omega), minU64_pred (by omega) (by omega) (by omega) (by omega),
      minU64_pred (by omega) (by omega) (by omega) (by omega),
      drawRows_eq hd (by omega) (by omega) (by omega) (by omega) (by omega)]
    have hrect : (⟨max 0 q.x0, min (d.width.toNat : ℤ) (q.x1 - 1 + 1) - 1 + 1, max 0 q.y0,
        min (d.height.toNat : ℤ) (q.y1 - 1 + 1) - 1 + 1⟩ : FillRect) =
        ⟨max q.x0 0, min q.x1 d.width.toNat, max q.y0 0, min q.y1 d.height.toNat⟩ := by
      congr 1
      · omega
      · omega
      · omega
      · omega
    rw [hrect]

/-- A box that reaches beyond the left or the upper edge is not drawn. -/
theorem screenDrawBox_of_neg (hd : d.Sound) (hneg : (boxRect p1 p2).x0 < 0 ∨ (boxRect p1 p2).y0 < 0)
    (color : UInt32) (fb : Words) : screenDrawBox d p1 p2 color fb = fb := by
  obtain ⟨⟨hx0, -⟩, hy0, -⟩ := boxRect_bounds p1 p2
  unfold screenDrawBox
  dsimp only
  rw [if_neg (by rw [hd.hasAddress]; decide), if_pos]
  -- As a `u64` a negative coordinate is larger than any side.
  by_cases hw : d.width.toNat = 0
  · exact .inl (by omega)
  by_cases hh : d.height.toNat = 0
  · exact .inr (.inl (by omega))
  obtain ⟨hwlt, hhlt⟩ := sides_lt hd (by omega) (by omega)
  have hside : 2 ^ 62 ≤ 2 ^ 64 - 2 ^ 31 := by norm_num
  rcases hneg with hx | hy
  · exact .inl ((hwlt.le.trans hside).trans (asU64_of_neg hx hx0))
  · exact .inr (.inl ((hhlt.le.trans hside).trans (asU64_of_neg hy hy0)))

/-- A rectangle that is not empty has a pixel. -/
theorem exists_mem_indices {r : FillRect} (hx : 0 ≤ r.x0) (hy : 0 ≤ r.y0) (h : ¬ r.Empty) (rowWords : ℕ) :
    ∃ i, i ∈ r.indices rowWords := by
  unfold FillRect.Empty at h
  refine ⟨r.y0.toNat * rowWords + r.x0.toNat, (FillRect.mem_indices hx hy).mpr ⟨r.x0.toNat, r.y0.toNat, ?_, rfl⟩⟩
  unfold FillRect.Has
  omega

/-- A box is drawn as it should be exactly if it does not reach beyond the left or the upper edge, or is off the
screen. -/
theorem box_exact_iff (hd : d.Sound) :
    (∀ color fb i, screenDrawBox d p1 p2 color fb i =
      if i ∈ (d.visible p1 p2).indices d.pitchPixels then color else fb i) ↔ BoxOnScreen d p1 p2 := by
  unfold BoxOnScreen
  by_cases hneg : (boxRect p1 p2).x0 < 0 ∨ (boxRect p1 p2).y0 < 0
  · rw [or_iff_right (by omega)]
    constructor
    · intro h
      by_contra hempty
      obtain ⟨i, hi⟩ := exists_mem_indices (le_max_right _ _) (le_max_right _ _) hempty d.pitchPixels
      -- A box of another color does not show.
      have hset := h 1 (fun _ => 0) i
      rw [screenDrawBox_of_neg hd hneg, if_pos hi] at hset
      exact absurd hset (by decide)
    · intro hempty color fb i
      rw [screenDrawBox_of_neg hd hneg, indices_of_empty hempty, if_neg List.not_mem_nil]
  · exact iff_of_true (screenDrawBox_of_nonneg hd (by omega) (by omega)) (.inl (by omega))

/-- Clearing sets the first words of the buffer, as many as the screen has pixels. -/
theorem screenClear_eq (hd : d.Sound) (color : UInt32) (fb : Words) (i : ℕ) :
    screenClear d color fb i = if i < d.width.toNat * d.height.toNat then color else fb i := by
  have hfits := hd.fits
  have hle : 4 * d.width.toNat * d.height.toNat ≤ d.pitch.toNat * d.height.toNat := Nat.mul_le_mul_right _ hd.rows
  rw [Nat.mul_assoc] at hle
  rw [screenClear, memSet32, u64_of_lt (by omega)]
  simp

/-- All pixels are among the first words exactly if there is nothing between the rows. -/
theorem clear_exact_iff (hd : d.Sound) :
    (∀ color fb,
      (∀ px < d.width.toNat, ∀ py < d.height.toNat, screenClear d color fb (py * d.pitchPixels + px) = color) ∧
        ∀ i, d.pitchPixels * d.height.toNat ≤ i → screenClear d color fb i = fb i) ↔ d.Dense := by
  have hrows : d.width.toNat ≤ d.pitchPixels := by
    have := hd.rows
    unfold DrawSurface.pitchPixels
    omega
  unfold DrawSurface.Dense
  constructor
  · intro h
    by_contra hpadded
    push Not at hpadded
    obtain ⟨hne, hheight, hwidth⟩ := hpadded
    -- The last pixel is behind the words that are cleared.
    have hlast := (h 1 fun _ => 0).1 (d.width.toNat - 1) (by omega) (d.height.toNat - 1) (by omega)
    rw [screenClear_eq hd] at hlast
    have hpad : (d.height.toNat - 1) * (d.width.toNat + 1) ≤ (d.height.toNat - 1) * d.pitchPixels :=
      Nat.mul_le_mul_left _ (by omega)
    have hsplit : d.width.toNat * d.height.toNat = (d.height.toNat - 1) * d.width.toNat + d.width.toNat := by
      rw [Nat.sub_mul, Nat.one_mul, Nat.sub_add_cancel (Nat.le_mul_of_pos_left _ (by omega)), Nat.mul_comm]
    rw [Nat.mul_add, Nat.mul_one] at hpad
    rw [if_neg (by omega)] at hlast
    exact absurd hlast (by decide)
  · intro hdense color fb
    refine ⟨fun px hpx py hpy => ?_, fun i hi => ?_⟩
    · rw [screenClear_eq hd, if_pos]
      rcases hdense with hdense | hrow | hzero
      · have hrow : (py + 1) * d.width.toNat ≤ d.height.toNat * d.width.toNat := Nat.mul_le_mul_right _ hpy
        rw [Nat.add_mul, Nat.one_mul] at hrow
        rw [hdense, Nat.mul_comm d.width.toNat]
        omega
      · obtain rfl : py = 0 := by omega
        have hone : d.height.toNat = 1 := by omega
        rw [hone]
        omega
      · omega
    · have hle : d.width.toNat * d.height.toNat ≤ d.pitchPixels * d.height.toNat := Nat.mul_le_mul_right _ hrows
      rw [screenClear_eq hd, if_neg (by omega)]

/-- Drawing a box and clearing are exact, exactly if the box does not reach beyond the left or the upper edge, or is
off the screen, and there is nothing between the rows of the screen. -/
theorem screenExact_iff (hd : d.Sound) : ScreenExact d p1 p2 ↔ BoxOnScreen d p1 p2 ∧ d.Dense := by
  constructor
  · exact fun h => ⟨(box_exact_iff hd).mp h.box, (clear_exact_iff hd).mp h.clear⟩
  · exact fun h => ⟨(box_exact_iff hd).mpr h.1, (clear_exact_iff hd).mpr h.2⟩

end

/-- A screen of four pixels by four, with rows of a number of bytes -/
def smallSurface (pitch : UInt64) : DrawSurface := ⟨true, 4, 4, pitch⟩

/-- A box from corner to corner of a small screen -/
theorem screenExact_small : ScreenExact (smallSurface 16) ⟨3, 3⟩ ⟨0, 0⟩ :=
  (screenExact_iff ⟨by decide, by decide, by decide, by decide⟩).mpr ⟨.inl (by decide), .inl (by decide)⟩

/-- A box that reaches beyond the left edge is not drawn, and on a screen with padded rows the last pixels are not
cleared. -/
theorem not_screenExact :
    ¬ ScreenExact (smallSurface 16) ⟨-1, 0⟩ ⟨1, 1⟩ ∧ ¬ ScreenExact (smallSurface 20) ⟨0, 0⟩ ⟨1, 1⟩ := by
  constructor
  · intro h
    have hset := h.box 1 (fun _ => 0) 0
    revert hset
    decide +kernel
  · intro h
    have hset := (h.clear 1 fun _ => 0).1 3 (by decide) 3 (by decide)
    revert hset
    decide +kernel

end Sandflea
