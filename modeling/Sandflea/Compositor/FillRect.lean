import Sandflea.Compositor.Blit
import Sandflea.Lib.Paint

/-!
# Filling rectangles

`fillRect` paints a rectangle of the surface in the memory of the caller, clipped to the screen. The right and
the lower end are sums of 32-bit numbers that can wrap. On a screen with sides below 2 ^ 31 it paints exactly
what is visible of the rectangle if neither sum wraps; if one does, it does so only where nothing is to be
seen and the wrapped rectangle is empty or reaches past the memory (`fill_rect_paints_iff`).
-/

namespace Sandflea

/-- The arguments of `fillRect` that give the rectangle -/
structure FillArgs where
  x : Int32
  y : Int32
  w : Int32
  h : Int32
deriving DecidableEq, Repr

/-- A rectangle, up to the ends -/
structure FillRect where
  x0 : ℤ
  x1 : ℤ
  y0 : ℤ
  y1 : ℤ
deriving DecidableEq, Repr

namespace FillRect

/-- There is no pixel in it. -/
def Empty (r : FillRect) : Prop := r.x1 ≤ r.x0 ∨ r.y1 ≤ r.y0

instance decidableEmpty (r : FillRect) : Decidable r.Empty := inferInstanceAs (Decidable (_ ∨ _))

/-- A pixel is in it. -/
def Has (r : FillRect) (px py : ℕ) : Prop := r.x0 ≤ px ∧ (px : ℤ) < r.x1 ∧ r.y0 ≤ py ∧ (py : ℤ) < r.y1

instance decidableHas (r : FillRect) (px py : ℕ) : Decidable (r.Has px py) :=
  inferInstanceAs (Decidable (_ ∧ _ ∧ _ ∧ _))

theorem not_has_of_empty {r : FillRect} (h : r.Empty) (px py : ℕ) : ¬ r.Has px py := by
  unfold Empty at h
  unfold Has
  omega

/-- The indices of its pixels, row by row, in rows of a given length -/
def indices (r : FillRect) (rowWords : ℕ) : List ℕ :=
  (List.range' r.y0.toNat (r.y1 - r.y0).toNat).flatMap fun py =>
    List.range' (py * rowWords + r.x0.toNat) (r.x1 - r.x0).toNat

theorem mem_indices {r : FillRect} (hx : 0 ≤ r.x0) (hy : 0 ≤ r.y0) {rowWords i : ℕ} :
    i ∈ r.indices rowWords ↔ ∃ px py, r.Has px py ∧ i = py * rowWords + px := by
  unfold indices Has
  simp only [List.mem_flatMap, List.mem_range'_1]
  constructor
  · rintro ⟨py, hpy, hi⟩
    exact ⟨i - py * rowWords, py, by omega, by omega⟩
  · rintro ⟨px, py, hin, rfl⟩
    exact ⟨py, by omega, by omega⟩

end FillRect

/-- The sides of the screen as `wasm_display_fill_rect` takes them -/
def Display.side (n : UInt64) : ℤ := n.toUInt32.toInt32.toInt

/-- The rectangle that `wasm_display_fill_rect` paints: the ends are sums of two `int`s. -/
def FillArgs.clipped (a : FillArgs) (d : Display) : FillRect where
  x0 := if a.x < 0 then 0 else a.x.toInt
  x1 := if Display.side d.width < (a.x + a.w).toInt then Display.side d.width else (a.x + a.w).toInt
  y0 := if a.y < 0 then 0 else a.y.toInt
  y1 := if Display.side d.height < (a.y + a.h).toInt then Display.side d.height else (a.y + a.h).toInt

/-- The `u64` that `wasm_display_fill_rect` compares with the size of the memory -/
def fillEnd (r : FillRect) (rowWords offset : ℕ) : ℕ :=
  let lastPixelOff := u64 (u64 ((r.y1 - 1).toNat * rowWords) + (r.x1 - 1).toNat)
  u64 (offset + u64 (u64 (lastPixelOff + 1) * 4))

/-- The loops of `wasm_display_fill_rect`. The index of a row is a `u32`. -/
def fillRows (b : Bytes) (r : FillRect) (rowWords offset color : ℕ) : Bytes :=
  (List.range' r.y0.toNat (r.y1 - r.y0).toNat).foldl (fun b py =>
    b.paintPairs (offset + 4 * u32 (u32 (py * rowWords) + r.x0.toNat)) color 0 (r.x1 - r.x0).toNat) b

/-- `wasm_display_fill_rect`: the result, and the memory afterwards -/
def wasmDisplayFillRect (disp : Option Display) (mem : Option Guest) (offset : UInt32) (a : FillArgs)
    (color : UInt32) : ℤ × Option Guest :=
  match disp, mem with
  | none, _ | _, none => (-1, mem)
  | some d, some g =>
    let r := a.clipped d
    if r.Empty then (0, some g)
    else
      let rowWords := d.width.toUInt32.toNat
      if g.memSize.toNat < fillEnd r rowWords offset.toNat then (-1, some g)
      else (0, some { g with bytes := fillRows g.bytes r rowWords offset.toNat color.toNat })

/-! ## What is claimed, and when it holds -/

/-- What is visible of the rectangle on the screen -/
def FillArgs.visible (a : FillArgs) (d : Display) : FillRect where
  x0 := max a.x.toInt 0
  x1 := min (a.x.toInt + a.w.toInt) d.width.toNat
  y0 := max a.y.toInt 0
  y1 := min (a.y.toInt + a.h.toInt) d.height.toNat

/-- The offset of a pixel of the surface -/
def pixelOffset (d : Display) (offset : UInt32) (px py : ℕ) : ℕ :=
  offset.toNat + 4 * (py * d.width.toNat + px)

/-- The call fails and writes nothing, or paints what is visible and changes no other pixel and nothing behind
the memory. -/
def Paints (d : Display) (g : Guest) (offset : UInt32) (a : FillArgs) (color : UInt32) : Prop :=
  match wasmDisplayFillRect (some d) (some g) offset a color with
  | (res, none) => res < 0
  | (res, some g') =>
    (res < 0 ∧ g' = g) ∨
      (res = 0 ∧ (∀ i, g.memSize.toNat ≤ i → g'.bytes i = g.bytes i) ∧
        ∀ px < d.width.toNat, ∀ py < d.height.toNat,
          Bytes.u32At g'.bytes (pixelOffset d offset px py) =
            if (a.visible d).Has px py then color.toNat else Bytes.u32At g.bytes (pixelOffset d offset px py))

/-- The sum of two numbers is an `int`. -/
def SumFits (m n : Int32) : Prop := -2 ^ 31 ≤ m.toInt + n.toInt ∧ m.toInt + n.toInt < 2 ^ 31

instance decidableSumFits (m n : Int32) : Decidable (SumFits m n) := inferInstanceAs (Decidable (_ ∧ _))

/-- The rectangle reaches past the end of the memory. -/
def FillArgs.ReachesPast (a : FillArgs) (d : Display) (memSize offset : UInt32) : Prop :=
  ¬ (a.clipped d).Empty ∧ memSize.toNat < fillEnd (a.clipped d) d.width.toUInt32.toNat offset.toNat

instance decidableReachesPast (a : FillArgs) (d : Display) (memSize offset : UInt32) :
    Decidable (a.ReachesPast d memSize offset) := inferInstanceAs (Decidable (_ ∧ _))

/-- The pixels that are painted, in rows of the length that the code takes, are those that are visible. -/
def FillArgs.SamePixels (a : FillArgs) (d : Display) : Prop :=
  ∀ px < d.width.toNat, ∀ py < d.height.toNat,
    py * d.width.toNat + px ∈ (a.clipped d).indices d.width.toUInt32.toNat ↔ (a.visible d).Has px py

/-- The condition -/
def FillArgs.FillsRight (a : FillArgs) (d : Display) (memSize offset : UInt32) : Prop :=
  if d.width.toNat < 2 ^ 31 ∧ d.height.toNat < 2 ^ 31 then
    (SumFits a.x a.w ∧ SumFits a.y a.h) ∨
      ((a.visible d).Empty ∧ ((a.clipped d).Empty ∨ a.ReachesPast d memSize offset))
  else a.SamePixels d ∨ a.ReachesPast d memSize offset

/-! ## What the call does -/

section

variable {d : Display} {g : Guest} {memSize offset color : UInt32} {a : FillArgs}

/-- A side is that of the screen, if an `int` holds it. -/
theorem side_eq (n : UInt64) : Display.side n = i32 n.toUInt32.toNat := by
  unfold Display.side i32
  show n.toUInt32.toInt32.toBitVec.toInt = _
  rw [BitVec.toInt_eq_toNat_bmod]
  rfl

/-- The start of the rectangle in one direction -/
theorem start_eq (m : Int32) : (if m < 0 then 0 else m.toInt) = max m.toInt 0 := by
  have hneg : m < 0 ↔ m.toInt < 0 := Int32.lt_iff_toInt_lt
  split
  · have := hneg.mp ‹_›
    omega
  · have := mt hneg.mpr ‹_›
    omega

/-- The bounds of the rectangle that is painted, if there is one. -/
structure InSurface (r : FillRect) (rowWords : ℕ) : Prop where
  x0 : 0 ≤ r.x0
  x1 : r.x1 ≤ rowWords
  y0 : 0 ≤ r.y0
  y1 : r.y1 < 2 ^ 31
  words : rowWords < 2 ^ 31
  nonempty : ¬ r.Empty

theorem clipped_inSurface (h : ¬ (a.clipped d).Empty) : InSurface (a.clipped d) d.width.toUInt32.toNat := by
  have hx0 : (a.clipped d).x0 = max a.x.toInt 0 := start_eq a.x
  have hy0 : (a.clipped d).y0 = max a.y.toInt 0 := start_eq a.y
  have hx1 : (a.clipped d).x1 ≤ Display.side d.width := by
    show (if Display.side d.width < _ then Display.side d.width else _) ≤ _
    split <;> omega
  have hy1 : (a.clipped d).y1 ≤ Display.side d.height := by
    show (if Display.side d.height < _ then Display.side d.height else _) ≤ _
    split <;> omega
  have hside := i32_le d.width.toUInt32.toNat
  rw [← side_eq] at hside
  have hwords : d.width.toUInt32.toNat < 2 ^ 31 := by
    -- a truncated width from 2 ^ 31 on is negative, and nothing is left of the screen
    by_contra hbig
    have hnum := d.width.toUInt32.toNat_lt
    have hneg : Display.side d.width < 0 := by
      rw [side_eq, i32, Int.bmod_def]
      split <;> omega
    exact h (.inl (by omega))
  refine ⟨by omega, by omega, by omega, ?_, hwords, h⟩
  exact hy1.trans_lt (Int32.toInt_lt _)

/-- The pixels up to the end of the rectangle -/
theorem mem_indices_lt {r : FillRect} {rowWords i : ℕ} (h : InSurface r rowWords) (hi : i ∈ r.indices rowWords) :
    i + 1 ≤ (r.y1 - 1).toNat * rowWords + r.x1.toNat := by
  obtain ⟨px, py, ⟨hx0, hx1, hy0, hy1⟩, rfl⟩ := (FillRect.mem_indices h.x0 h.y0).mp hi
  have hrow : py * rowWords ≤ (r.y1 - 1).toNat * rowWords := Nat.mul_le_mul_right _ (by omega)
  omega

/-- The check does not wrap: it looks at the end of the last pixel. -/
theorem fillEnd_eq {r : FillRect} {rowWords : ℕ} (h : InSurface r rowWords) (offset : UInt32) :
    fillEnd r rowWords offset.toNat = offset.toNat + 4 * ((r.y1 - 1).toNat * rowWords + r.x1.toNat) := by
  have hoff := offset.toNat_lt
  have hne := h.nonempty
  have hx1 := h.x1
  have hwords := h.words
  have hy1 := h.y1
  have hx0 := h.x0
  have hy0 := h.y0
  unfold FillRect.Empty at hne
  have hprod : (r.y1 - 1).toNat * rowWords ≤ (2 ^ 31 - 2) * (2 ^ 31 - 1) := Nat.mul_le_mul (by omega) (by omega)
  unfold fillEnd
  dsimp only
  rw [u64_of_lt (n := (r.y1 - 1).toNat * rowWords) (by omega),
    u64_of_lt (n := (r.y1 - 1).toNat * rowWords + (r.x1 - 1).toNat) (by omega),
    u64_of_lt (n := (r.y1 - 1).toNat * rowWords + (r.x1 - 1).toNat + 1) (by omega),
    u64_of_lt (n := ((r.y1 - 1).toNat * rowWords + (r.x1 - 1).toNat + 1) * 4) (by omega), u64_of_lt (by omega)]
  omega

/-- Within the memory, the loops paint the pixels of the rectangle one by one. -/
theorem fillRows_eq {r : FillRect} {rowWords : ℕ} (h : InSurface r rowWords)
    (hend : fillEnd r rowWords offset.toNat ≤ memSize.toNat) (b : Bytes) :
    fillRows b r rowWords offset.toNat color.toNat =
      b.paint offset.toNat color.toNat (r.indices rowWords) := by
  have hsize := memSize.toNat_lt
  have hne := h.nonempty
  have hy0 := h.y0
  rw [fillEnd_eq h] at hend
  unfold fillRows FillRect.indices
  rw [Bytes.paint_flatMap]
  refine List.foldl_ext _ _ _ fun c py hpy => ?_
  have hpy := List.mem_range'_1.mp hpy
  have hrow : py * rowWords ≤ (r.y1 - 1).toNat * rowWords := Nat.mul_le_mul_right _ (by omega)
  unfold FillRect.Empty at hne
  have hidx : u32 (u32 (py * rowWords) + r.x0.toNat) = py * rowWords + r.x0.toNat := by
    rw [u32_of_lt (n := py * rowWords) (by omega), u32_of_lt (by omega)]
  rw [hidx, Bytes.paintPairs_eq color.toNat_lt, Nat.sub_zero, Bytes.paint_add]

/-- A rectangle that is empty has no pixels. -/
theorem indices_of_empty {r : FillRect} (h : r.Empty) (rowWords : ℕ) : r.indices rowWords = [] := by
  unfold FillRect.Empty at h
  unfold FillRect.indices
  rcases h with hx | hy
  · have hzero : (r.x1 - r.x0).toNat = 0 := by omega
    simp [hzero]
  · have hzero : (r.y1 - r.y0).toNat = 0 := by omega
    simp [hzero]

/-- Past the end of the memory the call fails. -/
theorem fillRect_of_reachesPast (h : a.ReachesPast d g.memSize offset) :
    wasmDisplayFillRect (some d) (some g) offset a color = (-1, some g) := by
  unfold wasmDisplayFillRect
  dsimp only
  rw [if_neg h.1, if_pos h.2]

/-- Otherwise it paints the pixels of the clipped rectangle. -/
theorem fillRect_of_not_reachesPast (h : ¬ a.ReachesPast d g.memSize offset) :
    wasmDisplayFillRect (some d) (some g) offset a color =
      (0, some ⟨g.memSize, g.bytes.paint offset.toNat color.toNat
        ((a.clipped d).indices d.width.toUInt32.toNat)⟩) := by
  unfold wasmDisplayFillRect
  dsimp only
  by_cases hempty : (a.clipped d).Empty
  · rw [if_pos hempty, indices_of_empty hempty]
    rfl
  · have hend : ¬ g.memSize.toNat < fillEnd (a.clipped d) d.width.toUInt32.toNat offset.toNat :=
      fun hlt => h ⟨hempty, hlt⟩
    rw [if_neg hempty, if_neg hend, fillRows_eq (clipped_inSurface hempty) (not_lt.mp hend)]

/-- A byte that is not the low byte of a number -/
def otherByte (n : ℕ) : UInt8 := if n % 256 = 0 then 1 else 0

theorem u32At_otherByte_ne (n o : ℕ) : Bytes.u32At (fun _ => otherByte n) o ≠ n := by
  unfold Bytes.u32At Bytes.u16At otherByte
  split
  · simp
    omega
  · simp
    omega

/-- For every content of the memory the call does what is claimed, exactly if the pixels that it paints are those
that are visible, or it fails at the end of the memory. -/
theorem paints_iff_samePixels (d : Display) (memSize offset : UInt32) (a : FillArgs) (color : UInt32) :
    (∀ bytes, Paints d ⟨memSize, bytes⟩ offset a color) ↔
      a.SamePixels d ∨ a.ReachesPast d memSize offset := by
  by_cases hpast : a.ReachesPast d memSize offset
  · refine iff_of_true (fun bytes => ?_) (.inr hpast)
    unfold Paints
    rw [fillRect_of_reachesPast hpast]
    exact .inl ⟨by decide, rfl⟩
  · rw [or_iff_left hpast]
    have hread : ∀ (bytes : Bytes) (px py : ℕ),
        Bytes.u32At (bytes.paint offset.toNat color.toNat ((a.clipped d).indices d.width.toUInt32.toNat))
            (pixelOffset d offset px py) =
          if py * d.width.toNat + px ∈ (a.clipped d).indices d.width.toUInt32.toNat then color.toNat
          else Bytes.u32At bytes (pixelOffset d offset px py) :=
      fun bytes px py => Bytes.u32At_paint color.toNat_lt _ _
    constructor
    · intro h px hpx py hpy
      -- a memory without the color shows what is painted
      have hother := h fun _ => otherByte color.toNat
      unfold Paints at hother
      rw [fillRect_of_not_reachesPast hpast] at hother
      rcases hother with ⟨hneg, -⟩ | ⟨-, -, hpixels⟩
      · exact absurd hneg (by decide)
      · have hpixel := hpixels px hpx py hpy
        rw [hread] at hpixel
        have hne := u32At_otherByte_ne color.toNat (pixelOffset d offset px py)
        split_ifs at hpixel with hin hvis hvis
        · exact iff_of_true hin hvis
        · exact absurd hpixel.symm hne
        · exact absurd hpixel hne
        · exact iff_of_false hin hvis
    · intro h bytes
      unfold Paints
      rw [fillRect_of_not_reachesPast hpast]
      refine .inr ⟨rfl, fun i hi => ?_, fun px hpx py hpy => ?_⟩
      · by_cases hempty : (a.clipped d).Empty
        · rw [indices_of_empty hempty]
          rfl
        · have hsurface := clipped_inSurface hempty
          have hend : fillEnd (a.clipped d) d.width.toUInt32.toNat offset.toNat ≤ memSize.toNat :=
            not_lt.mp fun hlt => hpast ⟨hempty, hlt⟩
          rw [fillEnd_eq hsurface] at hend
          have hin : ∀ j ∈ (a.clipped d).indices d.width.toUInt32.toNat,
              offset.toNat + 4 * j + 4 ≤ memSize.toNat := by
            intro j hj
            have := mem_indices_lt hsurface hj
            omega
          exact Bytes.paint_of_le hin hi
      · dsimp only
        rw [hread]
        exact if_congr (h px hpx py hpy) rfl rfl

/-! ## When nothing wraps -/

/-- On a screen with small sides they are taken as they are. -/
theorem side_of_lt {n : UInt64} (h : n.toNat < 2 ^ 31) : Display.side n = n.toNat ∧ n.toUInt32.toNat = n.toNat := by
  have hlow : n.toUInt32.toNat = n.toNat := by
    rw [UInt64.toNat_toUInt32]
    omega
  exact ⟨by rw [side_eq, hlow, i32_of_lt h], hlow⟩

/-- A sum in an `int`: right, or a round of it away. -/
theorem sum_cases (m n : Int32) :
    (SumFits m n ∧ (m + n).toInt = m.toInt + n.toInt) ∨
      (2 ^ 31 ≤ m.toInt + n.toInt ∧ (m + n).toInt < 0) ∨
      (m.toInt + n.toInt < -2 ^ 31 ∧ 0 ≤ (m + n).toInt) := by
  have hm := m.toInt_lt
  have hm' := m.le_toInt
  have hn := n.toInt_lt
  have hn' := n.le_toInt
  unfold SumFits
  rw [Int32.toInt_add, Int.bmod_def]
  split <;> omega

/-- In rows of its own length the index tells the pixel. -/
theorem mem_indices_self {r : FillRect} (hx : 0 ≤ r.x0) (hy : 0 ≤ r.y0) {rowWords px py : ℕ}
    (hr : r.x1 ≤ rowWords) (hpx : px < rowWords) : py * rowWords + px ∈ r.indices rowWords ↔ r.Has px py := by
  rw [FillRect.mem_indices hx hy]
  constructor
  · rintro ⟨qx, qy, hin, heq⟩
    have hqx : qx < rowWords := by
      unfold FillRect.Has at hin
      omega
    have hrow : py = qy := by
      have hdiv := congrArg (· / rowWords) heq
      have hpos : 0 < rowWords := by omega
      simpa [Nat.add_comm, Nat.add_mul_div_right _ _ hpos, Nat.div_eq_of_lt hpx, Nat.div_eq_of_lt hqx] using hdiv
    subst hrow
    have hcol : px = qx := by omega
    exact hcol ▸ hin
  · intro hin
    exact ⟨px, py, hin, rfl⟩

/-- The ends of the painted rectangle on a screen with small sides -/
theorem clipped_ends (hw : d.width.toNat < 2 ^ 31) (hh : d.height.toNat < 2 ^ 31) :
    (a.clipped d).x0 = (a.visible d).x0 ∧ (a.clipped d).y0 = (a.visible d).y0 ∧
      (a.clipped d).x1 = min (a.x + a.w).toInt d.width.toNat ∧
      (a.clipped d).y1 = min (a.y + a.h).toInt d.height.toNat := by
  refine ⟨start_eq a.x, start_eq a.y, ?_, ?_⟩
  · show (if Display.side d.width < _ then Display.side d.width else _) = _
    rw [(side_of_lt hw).1]
    split <;> omega
  · show (if Display.side d.height < _ then Display.side d.height else _) = _
    rw [(side_of_lt hh).1]
    split <;> omega

/-- Without a wrap the painted rectangle is the visible one. -/
theorem clipped_eq_visible (hw : d.width.toNat < 2 ^ 31) (hh : d.height.toNat < 2 ^ 31)
    (hx : SumFits a.x a.w) (hy : SumFits a.y a.h) : a.clipped d = a.visible d := by
  obtain ⟨hx0, hy0, hx1, hy1⟩ := clipped_ends (a := a) hw hh
  have hsumx := sum_cases a.x a.w
  have hsumy := sum_cases a.y a.h
  have hvx : (a.visible d).x1 = min (a.x.toInt + a.w.toInt) d.width.toNat := rfl
  have hvy : (a.visible d).y1 = min (a.y.toInt + a.h.toInt) d.height.toNat := rfl
  unfold SumFits at hx hy
  generalize a.clipped d = r at *
  generalize a.visible d = v at *
  cases r
  cases v
  simp only [FillRect.mk.injEq] at *
  refine ⟨hx0, ?_, hy0, ?_⟩ <;> omega

/-- A sum that wraps leaves nothing to paint or nothing to see. -/
theorem empty_of_wraps (hw : d.width.toNat < 2 ^ 31) (hh : d.height.toNat < 2 ^ 31)
    (h : ¬ (SumFits a.x a.w ∧ SumFits a.y a.h)) : (a.clipped d).Empty ∨ (a.visible d).Empty := by
  obtain ⟨hx0, hy0, hx1, hy1⟩ := clipped_ends (a := a) hw hh
  have hsumx := sum_cases a.x a.w
  have hsumy := sum_cases a.y a.h
  have hvx0 : (a.visible d).x0 = max a.x.toInt 0 := rfl
  have hvy0 : (a.visible d).y0 = max a.y.toInt 0 := rfl
  have hvx1 : (a.visible d).x1 = min (a.x.toInt + a.w.toInt) d.width.toNat := rfl
  have hvy1 : (a.visible d).y1 = min (a.y.toInt + a.h.toInt) d.height.toNat := rfl
  unfold FillRect.Empty
  unfold SumFits at *
  omega

/-- With the same pixels, the painted rectangle is empty exactly if the visible one is. -/
theorem SamePixels.empty_iff (hw : d.width.toNat < 2 ^ 31) (hh : d.height.toNat < 2 ^ 31)
    (h : a.SamePixels d) : (a.clipped d).Empty ↔ (a.visible d).Empty := by
  have hvx1 : (a.visible d).x1 = min (a.x.toInt + a.w.toInt) d.width.toNat := rfl
  have hvy1 : (a.visible d).y1 = min (a.y.toInt + a.h.toInt) d.height.toNat := rfl
  have hvx0 : (a.visible d).x0 = max a.x.toInt 0 := rfl
  have hvy0 : (a.visible d).y0 = max a.y.toInt 0 := rfl
  constructor
  · intro hempty
    by_contra hseen
    unfold FillRect.Empty at hseen
    -- the first pixel that is visible would be painted
    have hpixel := (h (a.visible d).x0.toNat (by omega) (a.visible d).y0.toNat (by omega)).mpr
      ⟨by omega, by omega, by omega, by omega⟩
    rw [indices_of_empty hempty] at hpixel
    exact List.not_mem_nil hpixel
  · intro hunseen
    by_contra hpainted
    have hsurface := clipped_inSurface hpainted
    obtain ⟨hx0, hy0, hx1, hy1⟩ := clipped_ends (a := a) hw hh
    have hwords := (side_of_lt hw).2
    have hbound := hsurface.x1
    unfold FillRect.Empty at hpainted
    -- the first pixel that is painted would be visible
    have hpixel := (h (a.clipped d).x0.toNat (by omega) (a.clipped d).y0.toNat (by omega)).mp ?_
    · exact FillRect.not_has_of_empty hunseen _ _ hpixel
    · rw [hwords, mem_indices_self hsurface.x0 hsurface.y0 (hwords ▸ hbound) (by omega)]
      exact ⟨by omega, by omega, by omega, by omega⟩

/-- On a screen with small sides the pixels are the same, or the end is past the memory, exactly if no sum wraps or
nothing is to be seen. -/
theorem samePixels_or_reachesPast_iff (hw : d.width.toNat < 2 ^ 31) (hh : d.height.toNat < 2 ^ 31) :
    a.SamePixels d ∨ a.ReachesPast d memSize offset ↔
      (SumFits a.x a.w ∧ SumFits a.y a.h) ∨
        ((a.visible d).Empty ∧ ((a.clipped d).Empty ∨ a.ReachesPast d memSize offset)) := by
  by_cases hfits : SumFits a.x a.w ∧ SumFits a.y a.h
  · refine iff_of_true (.inl fun px hpx py _ => ?_) (.inl hfits)
    rw [clipped_eq_visible hw hh hfits.1 hfits.2, (side_of_lt hw).2]
    exact mem_indices_self (le_max_right _ _) (le_max_right _ _) (min_le_right _ _) hpx
  · rw [or_iff_right hfits]
    have hempty := empty_of_wraps hw hh hfits
    constructor
    · rintro (hsame | hpast)
      · have hiff := SamePixels.empty_iff hw hh hsame
        have hunseen : (a.visible d).Empty := hempty.elim hiff.mp id
        exact ⟨hunseen, .inl (hiff.mpr hunseen)⟩
      · exact ⟨hempty.resolve_left hpast.1, .inr hpast⟩
    · rintro ⟨hunseen, hclipped | hpast⟩
      · refine .inl fun px _ py _ => iff_of_false ?_ (FillRect.not_has_of_empty hunseen px py)
        rw [indices_of_empty hclipped]
        exact List.not_mem_nil
      · exact .inr hpast

end

/-- `fillRect` does what is claimed for every content of the memory, if and only if the condition holds: on a
screen with sides below 2 ^ 31, neither sum wraps, or nothing is visible and the wrapped rectangle is empty
or reaches past the memory. -/
theorem fill_rect_paints_iff (d : Display) (memSize offset : UInt32) (a : FillArgs) (color : UInt32) :
    (∀ bytes, Paints d ⟨memSize, bytes⟩ offset a color) ↔ a.FillsRight d memSize offset := by
  rw [paints_iff_samePixels]
  unfold FillArgs.FillsRight
  split
  · rename_i hsmall
    exact samePixels_or_reachesPast_iff hsmall.1 hsmall.2
  · rfl

/-- A rectangle from the second column on, as wide as an `int` can be: nothing is painted. -/
theorem fill_rect_not_paints : ¬ ∀ (d : Display) (g : Guest) (offset : UInt32) (a : FillArgs) (color : UInt32),
    Paints d g offset a color := by
  intro h
  have hpaints := h ⟨2, 1, 8, true⟩ ⟨8, Bytes.zeros⟩ 0 ⟨1, 0, 2147483647, 1⟩ 7
  rcases hpaints with ⟨hneg, -⟩ | ⟨-, -, hpixels⟩
  · exact absurd hneg (by decide)
  · exact absurd (hpixels 1 (by decide) 0 (by decide)) (by decide +kernel)

end Sandflea
