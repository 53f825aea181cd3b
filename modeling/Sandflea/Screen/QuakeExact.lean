import Sandflea.Screen.QuakeBlit

/-!
# When a frame of Quake comes out right

The image is right if the frame fits on the screen and its rows and those of the screen are whole words. A frame that
is larger than the screen is written far outside the buffer, since the subtraction that puts it into the middle
underflows; and the loop for scale 2 takes one pixel too many from a frame of odd width (`blitExact_spec`).
-/

namespace Sandflea.Quake

/-! ## What is claimed, and when it holds -/

/-- A byte of a pixel of the screen -/
def Screen.Visible (d : Screen) (i : ℕ) : Prop :=
  ∃ py < d.height.toNat, ∃ px < d.width.toNat, ∃ j < 4, i = py * d.pitch.toNat + 4 * px + j

section

variable (d : Screen) (f : Frame)

/-- How often the frame fits on the screen, and at least once -/
def scale : ℕ := max 1 (min (d.width.toNat / f.width.toNat) (d.height.toNat / f.height.toNat))

/-- Where the image starts on the screen, which it may not if it is larger -/
def originX : ℤ := (d.width.toNat - f.width.toNat * scale d f) / 2

/-- The same from the top -/
def originY : ℤ := (d.height.toNat - f.height.toNat * scale d f) / 2

/-- The function comes to an end, writes only pixels of the screen, reads only inside the frame, and makes each pixel
of the image that is on the screen one of the frame. -/
def BlitExact : Prop :=
  ∃ ops, quakeBlit d f = some ops ∧
    (∀ op ∈ ops, ∀ i ∈ op.writes, d.Visible i) ∧
    (∀ op ∈ ops, ∀ i ∈ op.reads, i < f.stride.toNat * f.height.toNat) ∧
    ∀ (frame fb : Bytes), ∀ ix < f.width.toNat * scale d f, ∀ iy < f.height.toNat * scale d f,
      ∀ px < d.width.toNat, ∀ py < d.height.toNat, (px : ℤ) = originX d f + ix → (py : ℤ) = originY d f + iy →
        ∀ j < 4, ops.foldl (BlitOp.exec frame) fb (py * d.pitch.toNat + 4 * px + j) =
          frame (iy / scale d f * f.stride.toNat + 4 * (ix / scale d f) + j)

/-- No 32-bit number of the function wraps. -/
structure NoWrap : Prop where
  buffer : d.pitch.toNat * d.height.toNat < 2 ^ 34
  one : f.width.toNat < 2 ^ 30
  two : scale d f = 2 → f.width.toNat < 2 ^ 29

/-- The frame fits on the screen; the rows of both are words, if there are any others than the first; and there is
room for one pixel more in each, if the width is odd and the scale is 2. -/
structure BlitFits : Prop where
  width_le : f.width.toNat ≤ d.width.toNat
  height_le : f.height.toNat ≤ d.height.toNat
  noWrap : NoWrap d f
  pitch : d.pitch.toNat % 4 = 0 ∨ originY d f + f.height.toNat * scale d f ≤ 1
  stride : f.stride.toNat % 4 = 0 ∨ f.height.toNat = 1
  odd : scale d f = 2 → f.width.toNat % 2 = 1 →
    (2 * f.width.toNat + 3 ≤ d.width.toNat ∨ d.pitch.toNat = 4 * d.width.toNat) ∧
      4 * f.width.toNat + 4 ≤ f.stride.toNat

end

/-! ## A frame that fits -/

section

variable {d : Screen} {f : Frame}

/-- What the check at the start says -/
theorem Frame.bounds (f : Frame) :
    0 < f.width.toNat ∧ 0 < f.height.toNat ∧ (f.width.toNat * 4) % 2 ^ 32 ≤ f.stride.toNat ∧
      f.stride.toNat * f.height.toNat < 2 ^ 32 := by
  have haccepted := f.accepted
  have hmemory := f.memorySize.toNat_lt
  push Not at haccepted
  obtain ⟨hwidth, hheight, hstride, -, hbytes⟩ := haccepted
  have hw : f.width.toNat ≠ 0 := fun h => hwidth (UInt32.toNat_inj.mp h)
  have hh : f.height.toNat ≠ 0 := fun h => hheight (UInt32.toNat_inj.mp h)
  rw [UInt32.lt_iff_toNat_lt, UInt32.toNat_mul] at hstride
  exact ⟨by omega, by omega, Nat.not_lt.mp hstride, by omega⟩

theorem scale_pos (d : Screen) (f : Frame) : 0 < scale d f := Nat.lt_of_lt_of_le Nat.zero_lt_one (le_max_left _ _)

/-- A side that fits fits as often as it is scaled. -/
theorem mul_scale_le {n m k : ℕ} (h : n ≤ m) (hk : k ≤ max 1 (m / n)) : n * k ≤ m := by
  rcases le_max_iff.mp hk with hone | hdiv
  · calc n * k ≤ n * 1 := Nat.mul_le_mul_left _ hone
      _ = n := Nat.mul_one n
      _ ≤ m := h
  · exact (Nat.mul_le_mul_left _ hdiv).trans (Nat.mul_div_le m n)

theorem width_mul_scale_le (h : f.width.toNat ≤ d.width.toNat) : f.width.toNat * scale d f ≤ d.width.toNat :=
  mul_scale_le h (max_le_max le_rfl (min_le_left _ _))

theorem height_mul_scale_le (h : f.height.toNat ≤ d.height.toNat) : f.height.toNat * scale d f ≤ d.height.toNat :=
  mul_scale_le h (max_le_max le_rfl (min_le_right _ _))

/-- Where the image starts -/
def left (d : Screen) (f : Frame) : ℕ := (d.width.toNat - f.width.toNat * scale d f) / 2

/-- The same from the top -/
def top (d : Screen) (f : Frame) : ℕ := (d.height.toNat - f.height.toNat * scale d f) / 2

theorem originX_eq (h : f.width.toNat ≤ d.width.toNat) : originX d f = left d f := by
  have := width_mul_scale_le h
  unfold originX left
  omega

theorem originY_eq (h : f.height.toNat ≤ d.height.toNat) : originY d f = top d f := by
  have := height_mul_scale_le h
  unfold originY top
  omega

/-- The word where a row of the image starts -/
def imageWord (d : Screen) (f : Frame) (r : ℕ) : ℕ := (top d f + r) * (d.pitch.toNat / 4) + left d f

/-- A row of the frame, without the wrapping -/
def imageRow (d : Screen) (f : Frame) (y : ℕ) : List BlitOp :=
  if scale d f = 1 then rowOne (imageWord d f (y * scale d f)) (y * (f.stride.toNat / 4)) f.width.toNat
  else if scale d f = 2 then
    rowTwo (imageWord d f (y * scale d f)) (imageWord d f (y * scale d f + 1)) (y * (f.stride.toNat / 4)) f.width.toNat
  else rowAny (fun sy => imageWord d f (y * scale d f + sy)) (y * (f.stride.toNat / 4)) f.width.toNat (scale d f)

/-- The rows of the image do not overlap. -/
theorem imageWord_add_le (h : f.width.toNat ≤ d.width.toNat) {s t : ℕ} (hst : s < t) :
    imageWord d f s + f.width.toNat * scale d f ≤ imageWord d f t := by
  have hrow : (top d f + s + 1) * (d.pitch.toNat / 4) ≤ (top d f + t) * (d.pitch.toNat / 4) :=
    Nat.mul_le_mul_right _ (by omega)
  have hwidth := width_mul_scale_le h
  have hpitch := d.rows_le
  rw [Nat.succ_mul] at hrow
  unfold imageWord
  omega

theorem rowAny_congr {dst dst' : ℕ → ℕ} {src width scale : ℕ} (h : ∀ sy < scale, dst sy = dst' sy) :
    rowAny dst src width scale = rowAny dst' src width scale := by
  refine List.flatMap_congr fun sy hsy => ?_
  rw [h sy (List.mem_range.mp hsy)]

/-- If the frame fits and nothing wraps, the function does one row of the frame after the other. -/
theorem quakeBlit_eq (hwidth : f.width.toNat ≤ d.width.toNat) (hheight : f.height.toNat ≤ d.height.toNat)
    (hwrap : NoWrap d f) : quakeBlit d f = some ((List.range f.height.toNat).flatMap (imageRow d f)) := by
  obtain ⟨hw, hh, -, hframe⟩ := f.bounds
  have hbuffer := hwrap.buffer
  have hpitch := d.rows_le
  have hsizeX := width_mul_scale_le hwidth
  have hsizeY := height_mul_scale_le hheight
  -- the sides of the screen, its pitch and the words of its buffer are 32-bit numbers
  have hrows : d.pitch.toNat * 1 ≤ d.pitch.toNat * d.height.toNat := Nat.mul_le_mul_left _ (by omega)
  have hcolumns : 4 * d.height.toNat ≤ d.pitch.toNat * d.height.toNat := Nat.mul_le_mul_right _ (by omega)
  have hwords : 4 * (d.height.toNat * (d.pitch.toNat / 4)) ≤ d.pitch.toNat * d.height.toNat := by
    calc 4 * (d.height.toNat * (d.pitch.toNat / 4)) = 4 * (d.pitch.toNat / 4) * d.height.toNat := by ring
      _ ≤ d.pitch.toNat * d.height.toNat := Nat.mul_le_mul_right _ (Nat.mul_div_le _ _)
  have hscale : (if (if u32 (d.width.toNat / f.width.toNat) < u32 (d.height.toNat / f.height.toNat) then
      u32 (d.width.toNat / f.width.toNat) else u32 (d.height.toNat / f.height.toNat)) < 1 then 1
      else (if u32 (d.width.toNat / f.width.toNat) < u32 (d.height.toNat / f.height.toNat) then
      u32 (d.width.toNat / f.width.toNat) else u32 (d.height.toNat / f.height.toNat))) = scale d f := by
    have hx : u32 (d.width.toNat / f.width.toNat) = d.width.toNat / f.width.toNat :=
      u32_of_lt ((Nat.div_le_self _ _).trans_lt (by omega))
    have hy : u32 (d.height.toNat / f.height.toNat) = d.height.toNat / f.height.toNat :=
      u32_of_lt ((Nat.div_le_self _ _).trans_lt (by omega))
    rw [hx, hy]
    unfold scale
    split_ifs <;> omega
  have hleft : u32 (u64 (d.width.toNat + 2 ^ 64 - u32 (f.width.toNat * scale d f)) / 2) = left d f := by
    rw [u32_of_lt (n := f.width.toNat * scale d f) (by omega)]
    unfold u32 u64 left
    omega
  have htop : u32 (u64 (d.height.toNat + 2 ^ 64 - u32 (f.height.toNat * scale d f)) / 2) = top d f := by
    rw [u32_of_lt (n := f.height.toNat * scale d f) (by omega)]
    unfold u32 u64 top
    omega
  have hdst : ∀ r < f.height.toNat * scale d f,
      dstWord (left d f) (top d f) (u32 (d.pitch.toNat / 4)) r = imageWord d f r := by
    intro r hr
    have hrow : top d f + r < d.height.toNat := by
      unfold top
      omega
    have hword : (top d f + r) * (d.pitch.toNat / 4) ≤ d.height.toNat * (d.pitch.toNat / 4) :=
      Nat.mul_le_mul_right _ hrow.le
    unfold dstWord imageWord
    rw [u32_of_lt (n := d.pitch.toNat / 4) (by omega), u32_of_lt (n := top d f + r) (by omega), u32_of_lt (by omega)]
  have hsrc : ∀ y < f.height.toNat, srcWord (f.stride.toNat / 4) y = y * (f.stride.toNat / 4) := by
    intro y hy
    have hword : y * (f.stride.toNat / 4) ≤ f.stride.toNat * f.height.toNat := by
      rw [Nat.mul_comm f.stride.toNat]
      exact Nat.mul_le_mul hy.le (Nat.div_le_self _ _)
    exact u32_of_lt (by omega)
  unfold quakeBlit
  dsimp only
  rw [hscale, hleft, htop]
  have hrow : ∀ y < f.height.toNat, ∀ sy < scale d f, y * scale d f + sy < f.height.toNat * scale d f := by
    intro y hy sy hsy
    have hnext : (y + 1) * scale d f ≤ f.height.toNat * scale d f := Nat.mul_le_mul_right _ hy
    rw [Nat.succ_mul] at hnext
    omega
  by_cases hone : scale d f = 1
  · rw [if_pos hone]
    refine congrArg some (List.flatMap_congr fun y hy => ?_)
    have hy := List.mem_range.mp hy
    have hstart := hrow y hy 0 (by omega)
    unfold imageRow
    rw [if_pos hone, hsrc y hy, ← hdst _ (by omega), hone, Nat.mul_one]
  · rw [if_neg hone]
    by_cases htwo : scale d f = 2
    · have hsmall := hwrap.two htwo
      rw [if_pos htwo, if_neg (by omega)]
      refine congrArg some (List.flatMap_congr fun y hy => ?_)
      have hy := List.mem_range.mp hy
      have hstart := hrow y hy 1 (by omega)
      unfold imageRow
      rw [if_neg hone, if_pos htwo, hsrc y hy, ← hdst _ (by omega), ← hdst _ hstart, htwo]
    · rw [if_neg htwo]
      refine congrArg some (List.flatMap_congr fun y hy => ?_)
      have hy := List.mem_range.mp hy
      unfold imageRow
      rw [if_neg hone, if_neg htwo, hsrc y hy]
      exact rowAny_congr fun sy hsy => hdst _ (hrow y hy sy hsy)

/-- The rows of the image are those of the frame, by the words of its rows. -/
theorem image_spec (hwidth : f.width.toNat ≤ d.width.toNat) (hheight : f.height.toNat ≤ d.height.toNat)
    (hwrap : NoWrap d f) (frame fb : Bytes) :
    (∀ r < f.height.toNat * scale d f, ∀ k < 4 * (f.width.toNat * scale d f),
      ((List.range f.height.toNat).flatMap (imageRow d f)).foldl (BlitOp.exec frame) fb (4 * imageWord d f r + k) =
        frame (4 * (r / scale d f * (f.stride.toNat / 4) + k / 4 / scale d f) + k % 4)) ∧
      ∀ i, 4 * imageWord d f (f.height.toNat * scale d f - 1) + 4 * (f.width.toNat * scale d f) ≤ i →
        ((List.range f.height.toNat).flatMap (imageRow d f)).foldl (BlitOp.exec frame) fb i = fb i := by
  have hbuffer := hwrap.buffer
  have hsize := width_mul_scale_le hwidth
  have hpitch := d.rows_le
  obtain ⟨hw, hh, -, -⟩ := f.bounds
  have hrows : d.pitch.toNat * 1 ≤ d.pitch.toNat * d.height.toNat := Nat.mul_le_mul_left _ (by omega)
  refine exec_rows (imageWord d f) (fun y => y * (f.stride.toNat / 4)) (scale_pos d f)
    (fun s t => imageWord_add_le hwidth) (fun y _ => ?_) fb
  unfold imageRow
  by_cases hone : scale d f = 1
  · rw [if_pos hone, hone]
    exact rowOne_sets (fun sy => imageWord d f (y * 1 + sy)) _ hwrap.one
  · rw [if_neg hone]
    by_cases htwo : scale d f = 2
    · rw [if_pos htwo, htwo]
      have hnext := imageWord_add_le (f := f) hwidth (Nat.lt_succ_self (y * 2))
      rw [htwo, Nat.mul_comm f.width.toNat] at hnext
      exact rowTwo_sets (fun sy => imageWord d f (y * 2 + sy)) _ hw (hwrap.two htwo) hnext
    · rw [if_neg htwo]
      exact rowAny_sets _ (scale_pos d f) (by omega) fun s t hst => imageWord_add_le hwidth (by omega)

/-! ### What is written and read -/

theorem mem_rowTwo {dst1 dst2 src width : ℕ} {op : BlitOp} (h : op ∈ rowTwo dst1 dst2 src width) :
    (∃ x < 2 * ((width + 1) / 2), op = .storePair (4 * dst1 + 8 * x) (4 * (src + x))) ∨
      op = .copyRow (4 * dst2) (4 * dst1) (u32 (width * 8)) := by
  unfold rowTwo at h
  dsimp only at h
  rw [flatMap_range_pairs fun x => BlitOp.storePair (4 * dst1 + 8 * x) (4 * (src + x)), List.mem_append,
    List.mem_singleton] at h
  refine h.imp_left fun hpair => ?_
  obtain ⟨x, hx, rfl⟩ := List.mem_map.mp hpair
  exact ⟨x, List.mem_range.mp hx, rfl⟩

/-- A column of the image -/
theorem column_lt {width scale x sx : ℕ} (hx : x < width) (hsx : sx < scale) : x * scale + sx < width * scale :=
  calc x * scale + sx < x * scale + scale := Nat.add_lt_add_left hsx _
    _ = (x + 1) * scale := (Nat.succ_mul x scale).symm
    _ ≤ width * scale := Nat.mul_le_mul_right _ hx

/-- A row of the frame writes its rows of the image, and two pixels behind a row if the width is odd. -/
theorem writes_imageRow (hwidth : f.width.toNat ≤ d.width.toNat) (hheight : f.height.toNat ≤ d.height.toNat)
    (hwrap : NoWrap d f) {y : ℕ} {op : BlitOp} (hop : op ∈ imageRow d f y) {i : ℕ} (hi : i ∈ op.writes) :
    (∃ sy < scale d f, ∃ k < 4 * (f.width.toNat * scale d f), i = 4 * imageWord d f (y * scale d f + sy) + k) ∨
      scale d f = 2 ∧ f.width.toNat % 2 = 1 ∧ ∃ k < 8, i = 4 * imageWord d f (y * 2) + 8 * f.width.toNat + k := by
  have hbuffer := hwrap.buffer
  have hpitch := d.rows_le
  have hsize := width_mul_scale_le hwidth
  obtain ⟨hw, hh, -, -⟩ := f.bounds
  have hrows : d.pitch.toNat * 1 ≤ d.pitch.toNat * d.height.toNat := Nat.mul_le_mul_left _ (by omega)
  unfold imageRow at hop
  by_cases hone : scale d f = 1
  · have hwide := hwrap.one
    rw [if_pos hone, rowOne, List.mem_singleton] at hop
    subst hop
    rw [BlitOp.writes, u32_of_lt (by omega), List.mem_range'_1] at hi
    have hmul : f.width.toNat * scale d f = f.width.toNat := by rw [hone, Nat.mul_one]
    exact .inl ⟨0, scale_pos d f, i - 4 * imageWord d f (y * scale d f), by omega, by rw [Nat.add_zero]; omega⟩
  · rw [if_neg hone] at hop
    by_cases htwo : scale d f = 2
    · have hwide := hwrap.two htwo
      have hmul : f.width.toNat * scale d f = f.width.toNat * 2 := by rw [htwo]
      rw [if_pos htwo] at hop
      rcases mem_rowTwo hop with ⟨x, hx, rfl⟩ | rfl
      · rw [BlitOp.writes, List.mem_range'_1] at hi
        by_cases hlast : x < f.width.toNat
        · exact .inl ⟨0, scale_pos d f, i - 4 * imageWord d f (y * scale d f), by omega, by rw [Nat.add_zero]; omega⟩
        · rw [htwo] at hi
          exact .inr ⟨htwo, by omega, i - 4 * imageWord d f (y * 2) - 8 * f.width.toNat, by omega, by omega⟩
      · rw [BlitOp.writes, u32_of_lt (by omega), List.mem_range'_1] at hi
        exact .inl ⟨1, by omega, i - 4 * imageWord d f (y * scale d f + 1), by omega, by omega⟩
    · rw [if_neg htwo] at hop
      simp only [rowAny, List.mem_flatMap, List.mem_map, List.mem_range] at hop
      obtain ⟨sy, hsy, x, hx, sx, hsx, rfl⟩ := hop
      have hcolumn := column_lt hx hsx
      rw [BlitOp.writes, u32_of_lt (by omega), List.mem_range'_1] at hi
      exact .inl ⟨sy, hsy, i - 4 * imageWord d f (y * scale d f + sy), by omega, by omega⟩

/-- A row of the frame reads itself, and one pixel behind it if the width is odd. -/
theorem reads_imageRow (hwrap : NoWrap d f) {y : ℕ} {op : BlitOp} (hop : op ∈ imageRow d f y) {i : ℕ}
    (hi : i ∈ op.reads) :
    i < 4 * (y * (f.stride.toNat / 4)) + 4 * f.width.toNat ∨
      scale d f = 2 ∧ f.width.toNat % 2 = 1 ∧ i < 4 * (y * (f.stride.toNat / 4)) + 4 * f.width.toNat + 4 := by
  unfold imageRow at hop
  by_cases hone : scale d f = 1
  · have hwide := hwrap.one
    rw [if_pos hone, rowOne, List.mem_singleton] at hop
    subst hop
    rw [BlitOp.reads, u32_of_lt (by omega), List.mem_range'_1] at hi
    exact .inl (by omega)
  · rw [if_neg hone] at hop
    by_cases htwo : scale d f = 2
    · rw [if_pos htwo] at hop
      rcases mem_rowTwo hop with ⟨x, hx, rfl⟩ | rfl
      · rw [BlitOp.reads, List.mem_range'_1] at hi
        by_cases hlast : x < f.width.toNat
        · exact .inl (by omega)
        · exact .inr ⟨htwo, by omega, by omega⟩
      · exact absurd hi List.not_mem_nil
    · rw [if_neg htwo] at hop
      simp only [rowAny, List.mem_flatMap, List.mem_map, List.mem_range] at hop
      obtain ⟨sy, hsy, x, hx, sx, hsx, rfl⟩ := hop
      rw [BlitOp.reads, List.mem_range'_1] at hi
      exact .inl (by omega)

/-! ### The claim -/

/-- A number of rows of words, in bytes -/
theorem four_mul_rows (bytes : ℕ) {r : ℕ} (h : bytes % 4 = 0 ∨ r = 0) : 4 * (r * (bytes / 4)) = r * bytes := by
  rcases h with hwords | rfl
  · calc 4 * (r * (bytes / 4)) = r * (4 * (bytes / 4)) := Nat.mul_left_comm _ _ _
      _ = r * bytes := by rw [Nat.mul_div_cancel' (Nat.dvd_of_mod_eq_zero hwords)]
  · simp

/-- Where a row of the image is on the screen -/
theorem imageWord_bytes (hheight : f.height.toNat ≤ d.height.toNat)
    (hpitch : d.pitch.toNat % 4 = 0 ∨ originY d f + f.height.toNat * scale d f ≤ 1) {r : ℕ}
    (hr : r < f.height.toNat * scale d f) :
    4 * imageWord d f r = (top d f + r) * d.pitch.toNat + 4 * left d f := by
  have hzero : d.pitch.toNat % 4 = 0 ∨ top d f + r = 0 := by
    refine hpitch.imp_right fun hone => ?_
    rw [originY_eq hheight] at hone
    omega
  rw [imageWord, Nat.mul_add, four_mul_rows _ hzero]

/-- A byte of the image is on the screen. -/
theorem visible_image (h : BlitFits d f) {r k : ℕ} (hr : r < f.height.toNat * scale d f)
    (hk : k < 4 * (f.width.toNat * scale d f)) : d.Visible (4 * imageWord d f r + k) := by
  have hsizeX := width_mul_scale_le h.width_le
  have hsizeY := height_mul_scale_le h.height_le
  rw [imageWord_bytes h.height_le h.pitch hr]
  refine ⟨top d f + r, ?_, left d f + k / 4, ?_, k % 4, Nat.mod_lt _ (by decide), by omega⟩
  · unfold top
    omega
  · unfold left
    omega

/-- So are the two pixels behind a row. -/
theorem visible_odd (h : BlitFits d f) (htwo : scale d f = 2) (hodd : f.width.toNat % 2 = 1) {y k : ℕ}
    (hy : y < f.height.toNat) (hk : k < 8) : d.Visible (4 * imageWord d f (y * 2) + 8 * f.width.toNat + k) := by
  have hsizeX := width_mul_scale_le h.width_le
  have hsizeY := height_mul_scale_le h.height_le
  rw [htwo] at hsizeX hsizeY
  have hrow : top d f + (y * 2 + 1) < d.height.toNat := by
    unfold top
    rw [htwo]
    omega
  rw [imageWord_bytes h.height_le h.pitch (by rw [htwo]; omega)]
  by_cases hinside : left d f + 2 * f.width.toNat + k / 4 < d.width.toNat
  · exact ⟨top d f + y * 2, by omega, _, hinside, k % 4, Nat.mod_lt _ (by decide), by omega⟩
  · -- the rows follow each other, and the pixels are the first ones of the next row
    rcases (h.odd htwo hodd).1 with hroom | hdense
    · unfold left at hinside
      rw [htwo] at hinside
      omega
    · refine ⟨top d f + (y * 2 + 1), hrow, left d f + 2 * f.width.toNat + k / 4 - d.width.toNat, ?_, k % 4,
        Nat.mod_lt _ (by decide), ?_⟩
      · unfold left
        rw [htwo]
        omega
      · have hnext : (top d f + (y * 2 + 1)) * d.pitch.toNat =
            (top d f + y * 2) * d.pitch.toNat + 4 * d.width.toNat := by
          rw [← Nat.add_assoc, Nat.succ_mul, hdense]
        omega

/-- The rows of the frame are inside the frame. -/
theorem row_le_bytes (bytes : ℕ) {rows y : ℕ} (hy : y < rows) : 4 * (y * (bytes / 4)) + bytes ≤ bytes * rows := by
  calc 4 * (y * (bytes / 4)) + bytes = y * (4 * (bytes / 4)) + bytes := by rw [Nat.mul_left_comm]
    _ ≤ y * bytes + bytes := Nat.add_le_add_right (Nat.mul_le_mul_left _ (Nat.mul_div_le _ _)) _
    _ = bytes * (y + 1) := by rw [Nat.mul_succ, Nat.mul_comm]
    _ ≤ bytes * rows := Nat.mul_le_mul_left _ hy

/-- A frame that fits comes out right. -/
theorem blitExact_of_fits (h : BlitFits d f) : BlitExact d f := by
  obtain ⟨-, -, hstride, -⟩ := f.bounds
  have hwide := h.noWrap.one
  have hrow : ∀ y < f.height.toNat, ∀ sy < scale d f, y * scale d f + sy < f.height.toNat * scale d f :=
    fun y hy sy hsy => column_lt hy hsy
  refine ⟨_, quakeBlit_eq h.width_le h.height_le h.noWrap, ?_, ?_, ?_⟩
  · intro op hop i hi
    obtain ⟨y, hy, hop⟩ := List.mem_flatMap.mp hop
    have hy := List.mem_range.mp hy
    rcases writes_imageRow h.width_le h.height_le h.noWrap hop hi with ⟨sy, hsy, k, hk, rfl⟩ | ⟨htwo, hodd, k, hk, rfl⟩
    · exact visible_image h (hrow y hy sy hsy) hk
    · exact visible_odd h htwo hodd hy hk
  · intro op hop i hi
    obtain ⟨y, hy, hop⟩ := List.mem_flatMap.mp hop
    have hinside := row_le_bytes f.stride.toNat (List.mem_range.mp hy)
    rcases reads_imageRow h.noWrap hop hi with hi | ⟨htwo, hodd, hi⟩
    · omega
    · have := (h.odd htwo hodd).2
      omega
  · intro frame fb ix hix iy hiy px hpx py hpy hx hy j hj
    rw [originX_eq h.width_le] at hx
    rw [originY_eq h.height_le] at hy
    have himage := (image_spec h.width_le h.height_le h.noWrap frame fb).1 iy hiy (4 * ix + j) (by omega)
    have hzero : f.stride.toNat % 4 = 0 ∨ iy / scale d f = 0 := by
      refine h.stride.imp_right fun hone => ?_
      rw [hone, Nat.one_mul] at hiy
      exact Nat.div_eq_of_lt hiy
    have hsrc := four_mul_rows _ hzero
    rw [imageWord_bytes h.height_le h.pitch hiy, show (4 * ix + j) / 4 = ix by omega,
      show (4 * ix + j) % 4 = j by omega, Nat.mul_add, hsrc] at himage
    obtain rfl : px = left d f + ix := by omega
    obtain rfl : py = top d f + iy := by omega
    have haddress : (top d f + iy) * d.pitch.toNat + 4 * (left d f + ix) + j =
        (top d f + iy) * d.pitch.toNat + 4 * left d f + (4 * ix + j) := by ring
    rw [haddress, himage, Nat.add_assoc]

/-! ### What goes wrong otherwise -/

theorem Screen.Visible.lt {i : ℕ} (h : d.Visible i) : i < d.pitch.toNat * d.height.toNat := by
  obtain ⟨py, hpy, px, hpx, j, hj, rfl⟩ := h
  have hrows := d.rows_le
  have hnext : (py + 1) * d.pitch.toNat ≤ d.height.toNat * d.pitch.toNat := Nat.mul_le_mul_right _ hpy
  rw [Nat.succ_mul] at hnext
  rw [Nat.mul_comm d.pitch.toNat]
  omega

/-- A difference in the middle, which underflows -/
def middle (side size : ℕ) : ℕ := u32 (u64 (side + 2 ^ 64 - u32 size) / 2)

/-- A frame that is larger than the screen is copied row by row. -/
theorem quakeBlit_larger (h : d.width.toNat < f.width.toNat ∨ d.height.toNat < f.height.toNat) :
    scale d f = 1 ∧ quakeBlit d f = some ((List.range f.height.toNat).flatMap fun y =>
      rowOne (dstWord (middle d.width.toNat f.width.toNat) (middle d.height.toNat f.height.toNat)
        (u32 (d.pitch.toNat / 4)) y) (srcWord (f.stride.toNat / 4) y) f.width.toNat) := by
  have hzero : d.width.toNat / f.width.toNat = 0 ∨ d.height.toNat / f.height.toNat = 0 :=
    h.imp Nat.div_eq_of_lt Nat.div_eq_of_lt
  have hscale : scale d f = 1 := by
    unfold scale
    omega
  have hcode : (if (if u32 (d.width.toNat / f.width.toNat) < u32 (d.height.toNat / f.height.toNat) then
      u32 (d.width.toNat / f.width.toNat) else u32 (d.height.toNat / f.height.toNat)) < 1 then 1
      else (if u32 (d.width.toNat / f.width.toNat) < u32 (d.height.toNat / f.height.toNat) then
      u32 (d.width.toNat / f.width.toNat) else u32 (d.height.toNat / f.height.toNat))) = 1 := by
    have hu32 : u32 0 = 0 := rfl
    rcases hzero with hzero | hzero <;> rw [hzero, hu32] <;> split_ifs <;> omega
  refine ⟨hscale, ?_⟩
  unfold quakeBlit
  dsimp only
  rw [hcode, if_pos rfl, Nat.mul_one, Nat.mul_one]
  rfl

/-- A pixel of the image on the screen -/
theorem exists_pixel (hwidth : 0 < d.width.toNat) (hheight : 0 < d.height.toNat) (hscale : scale d f = 1) :
    ∃ ix < f.width.toNat * scale d f, ∃ iy < f.height.toNat * scale d f, ∃ px < d.width.toNat,
      ∃ py < d.height.toNat, (px : ℤ) = originX d f + ix ∧ (py : ℤ) = originY d f + iy := by
  obtain ⟨hw, hh, -, -⟩ := f.bounds
  unfold originX originY
  rw [hscale, Nat.mul_one, Nat.mul_one]
  refine ⟨(-(((d.width.toNat : ℤ) - f.width.toNat * (1 : ℕ)) / 2)).toNat, by omega,
    (-(((d.height.toNat : ℤ) - f.height.toNat * (1 : ℕ)) / 2)).toNat, by omega,
    (((d.width.toNat : ℤ) - f.width.toNat * (1 : ℕ)) / 2).toNat, by omega,
    (((d.height.toNat : ℤ) - f.height.toNat * (1 : ℕ)) / 2).toNat, by omega, by omega, by omega⟩

section

variable (hwidth : 0 < d.width.toNat) (hheight : 0 < d.height.toNat)
  (hbuffer : d.pitch.toNat * d.height.toNat < 2 ^ 32) (h : BlitExact d f)

include hwidth hheight hbuffer h

theorem width_le_of_blitExact : f.width.toNat ≤ d.width.toNat := by
  by_contra hlarger
  have hlt := Nat.lt_of_not_le hlarger
  have hfw := f.width.toNat_lt
  have hrows := d.rows_le
  have hpitch : d.pitch.toNat * 1 ≤ d.pitch.toNat * d.height.toNat := Nat.mul_le_mul_left _ hheight
  obtain ⟨hw, hh, -, -⟩ := f.bounds
  obtain ⟨hscale, hblit⟩ := quakeBlit_larger (.inl hlt)
  obtain ⟨ops, hops, hwrites, -, himage⟩ := h
  obtain rfl := Option.some.inj (hblit.symm.trans hops)
  by_cases hlen : u32 (f.width.toNat * 4) = 0
  · -- nothing is copied, so no pixel is set
    obtain ⟨ix, hix, iy, hiy, px, hpx, py, hpy, hx, hy⟩ := exists_pixel hwidth hheight hscale
    have hpixel := himage (fun _ => 1) (fun _ => 0) ix hix iy hiy px hpx py hpy hx hy 0 (by decide)
    rw [foldl_keep (f := fun fb : Bytes => fb (py * d.pitch.toNat + 4 * px + 0))] at hpixel
    · exact absurd hpixel (by decide)
    · intro op hop fb
      obtain ⟨y, -, hop⟩ := List.mem_flatMap.mp hop
      rw [rowOne, List.mem_singleton] at hop
      rw [hop, exec_copyFrame, hlen, if_neg (by omega)]
  · -- the subtraction underflows, and the first row is written far behind the buffer
    have hvisible := hwrites _ (List.mem_flatMap.mpr ⟨0, List.mem_range.mpr hh, List.mem_singleton_self _⟩)
      (4 * dstWord (middle d.width.toNat f.width.toNat) (middle d.height.toNat f.height.toNat)
        (u32 (d.pitch.toNat / 4)) 0) (List.mem_range'_1.mpr (by omega))
    have hfar : 2 ^ 31 ≤ middle d.width.toNat f.width.toNat := by
      unfold middle u32 u64
      omega
    have hinside := hvisible.lt
    unfold dstWord at hinside
    omega

theorem height_le_of_blitExact : f.height.toNat ≤ d.height.toNat := by
  have hfits := width_le_of_blitExact hwidth hheight hbuffer h
  by_contra hlarger
  have hlt := Nat.lt_of_not_le hlarger
  have hfh := f.height.toNat_lt
  have hrows := d.rows_le
  have hpitch : d.pitch.toNat * 1 ≤ d.pitch.toNat * d.height.toNat := Nat.mul_le_mul_left _ hheight
  have hcolumns : 4 * d.height.toNat ≤ d.pitch.toNat * d.height.toNat := Nat.mul_le_mul_right _ (by omega)
  obtain ⟨hw, hh, -, -⟩ := f.bounds
  obtain ⟨-, hblit⟩ := quakeBlit_larger (.inr hlt)
  obtain ⟨ops, hops, hwrites, -, -⟩ := h
  obtain rfl := Option.some.inj (hblit.symm.trans hops)
  -- the row above the first row of the screen is the last one of all
  have hlast : u32 (middle d.height.toNat f.height.toNat + ((f.height.toNat - d.height.toNat + 1) / 2 - 1)) =
      2 ^ 32 - 1 := by
    unfold middle u32 u64
    omega
  have hfar : 2 ^ 32 - 2 ^ 30 ≤ u32 ((2 ^ 32 - 1) * u32 (d.pitch.toNat / 4)) := by
    rw [u32_of_lt (n := d.pitch.toNat / 4) (by omega)]
    obtain ⟨p, hp⟩ : ∃ p, d.pitch.toNat / 4 = p + 1 := ⟨d.pitch.toNat / 4 - 1, by omega⟩
    have hsplit : (2 ^ 32 - 1) * (p + 1) = 2 ^ 32 * p + (2 ^ 32 - 1 - p) := by omega
    rw [hp, hsplit, u32, Nat.mul_add_mod, Nat.mod_eq_of_lt (by omega)]
    omega
  have hvisible := hwrites _ (List.mem_flatMap.mpr ⟨(f.height.toNat - d.height.toNat + 1) / 2 - 1,
    List.mem_range.mpr (by omega), List.mem_singleton_self _⟩)
    (4 * dstWord (middle d.width.toNat f.width.toNat) (middle d.height.toNat f.height.toNat)
      (u32 (d.pitch.toNat / 4)) ((f.height.toNat - d.height.toNat + 1) / 2 - 1))
    (List.mem_range'_1.mpr (by rw [u32_of_lt (n := f.width.toNat * 4) (by omega)]; omega))
  have hinside := hvisible.lt
  unfold dstWord at hinside
  rw [hlast] at hinside
  omega

theorem noWrap_of_blitExact : NoWrap d f := by
  have hfits := width_le_of_blitExact hwidth hheight hbuffer h
  have hsize := width_mul_scale_le hfits
  have hrows := d.rows_le
  have hpitch : d.pitch.toNat * 1 ≤ d.pitch.toNat * d.height.toNat := Nat.mul_le_mul_left _ hheight
  refine ⟨by omega, by omega, fun htwo => ?_⟩
  rw [htwo] at hsize
  omega

/-- The rows of the screen are words, since the last byte of the last pixel is written. -/
theorem pitch_of_blitExact : d.pitch.toNat % 4 = 0 ∨ originY d f + f.height.toNat * scale d f ≤ 1 := by
  have hw := width_le_of_blitExact hwidth hheight hbuffer h
  have hh := height_le_of_blitExact hwidth hheight hbuffer h
  have hwrap := noWrap_of_blitExact hwidth hheight hbuffer h
  have hsizeX := width_mul_scale_le hw
  have hsizeY := height_mul_scale_le hh
  obtain ⟨hfw, hfh, -, -⟩ := f.bounds
  have hposX : 0 < f.width.toNat * scale d f := Nat.mul_pos hfw (scale_pos d f)
  have hposY : 0 < f.height.toNat * scale d f := Nat.mul_pos hfh (scale_pos d f)
  by_contra hpitch
  rw [originY_eq hh] at hpitch
  obtain ⟨ops, hops, -, -, himage⟩ := h
  obtain rfl := Option.some.inj ((quakeBlit_eq hw hh hwrap).symm.trans hops)
  have hpixel := himage (fun _ => 1) (fun _ => 0) (f.width.toNat * scale d f - 1) (by omega)
    (f.height.toNat * scale d f - 1) (by omega) (left d f + (f.width.toNat * scale d f - 1))
    (by unfold left; omega) (top d f + (f.height.toNat * scale d f - 1)) (by unfold top; omega)
    (by rw [originX_eq hw]; omega) (by rw [originY_eq hh]; omega) 3 (by decide)
  rw [(image_spec hw hh hwrap _ _).2] at hpixel
  · exact absurd hpixel (by decide)
  · -- the rows of the screen are further apart than those that are written
    have hrow : (top d f + (f.height.toNat * scale d f - 1)) * (4 * (d.pitch.toNat / 4) + 1) ≤
        (top d f + (f.height.toNat * scale d f - 1)) * d.pitch.toNat := Nat.mul_le_mul_left _ (by omega)
    rw [Nat.mul_add, Nat.mul_left_comm, Nat.mul_one] at hrow
    unfold imageWord
    omega

/-- The rows of the frame are words, since its last byte is read. -/
theorem stride_of_blitExact : f.stride.toNat % 4 = 0 ∨ f.height.toNat = 1 := by
  have hw := width_le_of_blitExact hwidth hheight hbuffer h
  have hh := height_le_of_blitExact hwidth hheight hbuffer h
  have hwrap := noWrap_of_blitExact hwidth hheight hbuffer h
  have hpitch := pitch_of_blitExact hwidth hheight hbuffer h
  have hsizeX := width_mul_scale_le hw
  have hsizeY := height_mul_scale_le hh
  have hscale := scale_pos d f
  obtain ⟨hfw, hfh, -, -⟩ := f.bounds
  have hposX : 0 < f.width.toNat * scale d f := Nat.mul_pos hfw hscale
  have hposY : 0 < f.height.toNat * scale d f := Nat.mul_pos hfh hscale
  have hlast : ∀ n, 0 < n → (n * scale d f - 1) / scale d f = n - 1 := by
    intro n hn
    obtain ⟨m, rfl⟩ : ∃ m, n = m + 1 := ⟨n - 1, by omega⟩
    rw [Nat.succ_mul, Nat.add_sub_assoc hscale, Nat.mul_comm m, Nat.mul_add_div hscale,
      Nat.div_eq_of_lt (by omega), Nat.add_zero, Nat.add_sub_cancel]
  by_contra hstride
  obtain ⟨ops, hops, -, -, himage⟩ := h
  obtain rfl := Option.some.inj ((quakeBlit_eq hw hh hwrap).symm.trans hops)
  -- a frame in which only the last byte is set
  have hpixel := himage
    (fun i => if i = (f.height.toNat - 1) * f.stride.toNat + 4 * (f.width.toNat - 1) + 3 then 1 else 0)
    (fun _ => 0) (f.width.toNat * scale d f - 1) (by omega) (f.height.toNat * scale d f - 1) (by omega)
    (left d f + (f.width.toNat * scale d f - 1)) (by unfold left; omega)
    (top d f + (f.height.toNat * scale d f - 1)) (by unfold top; omega)
    (by rw [originX_eq hw]; omega) (by rw [originY_eq hh]; omega) 3 (by decide)
  have hread := (image_spec hw hh hwrap
    (fun i => if i = (f.height.toNat - 1) * f.stride.toNat + 4 * (f.width.toNat - 1) + 3 then 1 else 0)
    (fun _ => 0)).1 (f.height.toNat * scale d f - 1) (by omega) (4 * (f.width.toNat * scale d f - 1) + 3) (by omega)
  rw [imageWord_bytes hh hpitch (by omega), show (4 * (f.width.toNat * scale d f - 1) + 3) / 4 =
    f.width.toNat * scale d f - 1 by omega, show (4 * (f.width.toNat * scale d f - 1) + 3) % 4 = 3 by omega,
    hlast _ hfw, hlast _ hfh] at hread
  rw [hlast _ hfw, hlast _ hfh, if_pos rfl] at hpixel
  have haddress : (top d f + (f.height.toNat * scale d f - 1)) * d.pitch.toNat + 4 * left d f +
      (4 * (f.width.toNat * scale d f - 1) + 3) = (top d f + (f.height.toNat * scale d f - 1)) * d.pitch.toNat +
      4 * (left d f + (f.width.toNat * scale d f - 1)) + 3 := by ring
  rw [haddress, hpixel] at hread
  have hrow : (f.height.toNat - 1) * (4 * (f.stride.toNat / 4) + 1) ≤ (f.height.toNat - 1) * f.stride.toNat :=
    Nat.mul_le_mul_left _ (by omega)
  rw [Nat.mul_add, Nat.mul_left_comm, Nat.mul_one] at hrow
  rw [if_neg (by omega)] at hread
  exact absurd hread (by decide)

/-- There is room for one pixel more, if the width is odd and the scale is 2. -/
theorem odd_of_blitExact (htwo : scale d f = 2) (hodd : f.width.toNat % 2 = 1) :
    (2 * f.width.toNat + 3 ≤ d.width.toNat ∨ d.pitch.toNat = 4 * d.width.toNat) ∧
      4 * f.width.toNat + 4 ≤ f.stride.toNat := by
  have hw := width_le_of_blitExact hwidth hheight hbuffer h
  have hh := height_le_of_blitExact hwidth hheight hbuffer h
  have hwrap := noWrap_of_blitExact hwidth hheight hbuffer h
  have hpitch := pitch_of_blitExact hwidth hheight hbuffer h
  have hstride := stride_of_blitExact hwidth hheight hbuffer h
  have hsizeX := width_mul_scale_le hw
  obtain ⟨hfw, hfh, -, -⟩ := f.bounds
  obtain ⟨ops, hops, hwrites, hreads, -⟩ := h
  obtain rfl := Option.some.inj ((quakeBlit_eq hw hh hwrap).symm.trans hops)
  -- the pixel behind a row of the frame
  have hextra : ∀ y < f.height.toNat, BlitOp.storePair (4 * imageWord d f (y * 2) + 8 * f.width.toNat)
      (4 * (y * (f.stride.toNat / 4) + f.width.toNat)) ∈ (List.range f.height.toNat).flatMap (imageRow d f) := by
    intro y hy
    refine List.mem_flatMap.mpr ⟨y, List.mem_range.mpr hy, ?_⟩
    unfold imageRow rowTwo
    dsimp only
    rw [if_neg (by omega), if_pos htwo, htwo, flatMap_range_pairs fun x =>
      BlitOp.storePair (4 * imageWord d f (y * 2) + 8 * x) (4 * (y * (f.stride.toNat / 4) + x))]
    exact List.mem_append_left _ (List.mem_map.mpr ⟨f.width.toNat, List.mem_range.mpr (by omega), rfl⟩)
  constructor
  · by_contra hroom
    push Not at hroom
    have hrows := d.rows_le
    rw [htwo] at hsizeX hpitch
    rw [originY_eq hh] at hpitch
    -- one of the two pixels that it is stored in is the first one behind the row of the screen
    have hvisible := hwrites _ (hextra 0 hfh) (4 * (top d f * (d.pitch.toNat / 4) + d.width.toNat)) <| by
      rw [BlitOp.writes, List.mem_range'_1]
      unfold imageWord left
      rw [htwo, Nat.zero_mul, Nat.add_zero]
      omega
    obtain ⟨py, hpy, px, hpx, j, hj, heq⟩ := hvisible
    have hrow := four_mul_rows d.pitch.toNat (r := py) (.inl (by omega))
    have hword : top d f * (d.pitch.toNat / 4) + d.width.toNat = py * (d.pitch.toNat / 4) + px := by omega
    have hcolumn : d.width.toNat = px := by
      calc d.width.toNat = (top d f * (d.pitch.toNat / 4) + d.width.toNat) % (d.pitch.toNat / 4) := by
            rw [Nat.mul_add_mod', Nat.mod_eq_of_lt (by omega)]
        _ = px := by rw [hword, Nat.mul_add_mod', Nat.mod_eq_of_lt (by omega)]
    omega
  · have hinside := hreads _ (hextra (f.height.toNat - 1) (by omega))
      (4 * ((f.height.toNat - 1) * (f.stride.toNat / 4) + f.width.toNat) + 3)
      (List.mem_range'_1.mpr (by omega))
    have hbytes := four_mul_rows f.stride.toNat (r := f.height.toNat - 1) (hstride.imp_right (by omega))
    have hlast : f.stride.toNat * f.height.toNat = (f.height.toNat - 1) * f.stride.toNat + f.stride.toNat := by
      rw [← Nat.succ_mul, Nat.mul_comm, Nat.succ_eq_add_one, Nat.sub_add_cancel hfh]
    omega

end

/-- A frame that fits comes out right. On a screen with pixels and a buffer of less than 4 GiB it has to fit. -/
theorem blitExact_spec (d : Screen) (f : Frame) :
    (BlitFits d f → BlitExact d f) ∧
      (0 < d.width.toNat → 0 < d.height.toNat → d.pitch.toNat * d.height.toNat < 2 ^ 32 →
        BlitExact d f → BlitFits d f) := by
  refine ⟨blitExact_of_fits, fun hwidth hheight hbuffer h => ?_⟩
  exact {
    width_le := width_le_of_blitExact hwidth hheight hbuffer h
    height_le := height_le_of_blitExact hwidth hheight hbuffer h
    noWrap := noWrap_of_blitExact hwidth hheight hbuffer h
    pitch := pitch_of_blitExact hwidth hheight hbuffer h
    stride := stride_of_blitExact hwidth hheight hbuffer h
    odd := odd_of_blitExact hwidth hheight hbuffer h }

/-- A frame of two pixels by two on a screen of four by four -/
theorem blitExact_small : BlitExact ⟨4, 4, 16, by decide⟩ ⟨16, 0, 2, 2, 8, by decide⟩ :=
  (blitExact_spec _ _).1 {
    width_le := by decide
    height_le := by decide
    noWrap := ⟨by decide, by decide, by decide⟩
    pitch := .inl (by decide)
    stride := .inl (by decide)
    odd := by decide }

/-- The same frame on a screen of one pixel is written outside of it, and a frame of one pixel on a screen of two by
two is read behind its end. -/
theorem not_blitExact :
    ¬ BlitExact ⟨1, 1, 4, by decide⟩ ⟨16, 0, 2, 2, 8, by decide⟩ ∧
      ¬ BlitExact ⟨2, 2, 8, by decide⟩ ⟨4, 0, 1, 1, 4, by decide⟩ := by
  constructor
  · intro h
    exact absurd (width_le_of_blitExact (by decide) (by decide) (by decide) h) (by decide)
  · intro h
    exact absurd (odd_of_blitExact (by decide) (by decide) (by decide) h (by decide) (by decide)).2 (by decide)

end

end Sandflea.Quake
