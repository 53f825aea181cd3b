import Sandflea.Lib.Copies
import Sandflea.Lib.Words

/-!
# The frames of Quake

`quake_blit` copies a frame from the memory of the game to the middle of the screen, each pixel as a square of pixels.
There are three loops: one that copies rows, one that stores two pixels of the frame at once and copies the row to
the next one, and one for all larger scales. Each row of the frame becomes the rows of the image it should
(`exec_rows`), as long as the image fits on the screen and no 32-bit number wraps.
-/

namespace Sandflea.Quake

/-! ## The function -/

/-- The screen; its rows are at least as long as it is wide. -/
structure Screen where
  width : UInt64
  height : UInt64
  pitch : UInt64
  rows_le : 4 * width.toNat ≤ pitch.toNat

/-- A frame that passes the check at the start -/
structure Frame where
  memorySize : UInt32
  offset : UInt32
  width : UInt32
  height : UInt32
  stride : UInt32
  accepted : ¬ (width = 0 ∨ height = 0 ∨ stride < width * 4 ∨ offset > memorySize ∨
    stride.toNat * height.toNat > memorySize.toNat - offset.toNat)

/-- An access to the buffer of the screen, with offsets in it and in the frame -/
inductive BlitOp
  /-- `mem_copy` from the frame -/
  | copyFrame (dst src len : ℕ)
  /-- `mem_copy` from the buffer -/
  | copyRow (dst src len : ℕ)
  /-- A store of a pixel -/
  | store (dst src : ℕ)
  /-- A store of a pixel twice, as a `u64` -/
  | storePair (dst src : ℕ)
deriving DecidableEq, Repr

namespace BlitOp

/-- The buffer after an access, given the memory from the frame on -/
def exec (frame fb : Bytes) : BlitOp → Bytes
  | copyFrame dst src len => fb.copyInto dst frame src len
  | copyRow dst src len => fb.copyForward dst src len
  | store dst src => fb.putU32 dst (frame.u32At src)
  | storePair dst src => fb.putU64 dst (frame.u32At src <<< 32 ||| frame.u32At src)

/-- The bytes of the buffer that are written -/
def writes : BlitOp → List ℕ
  | copyFrame dst _ len | copyRow dst _ len => List.range' dst len
  | store dst _ => List.range' dst 4
  | storePair dst _ => List.range' dst 8

/-- The bytes that are read, from the start of the frame on -/
def reads : BlitOp → List ℕ
  | copyFrame _ src len => List.range' src len
  | copyRow _ _ _ => []
  | store _ src | storePair _ src => List.range' src 4

end BlitOp

/-- The word in the buffer where a row starts: `dst + (start_y + r) * pitch + start_x` -/
def dstWord (startX startY pitch r : ℕ) : ℕ := u32 (u32 (startY + r) * pitch) + startX

/-- The word in the frame where a row starts: `src + y * src_stride_pixels` -/
def srcWord (srcStridePixels y : ℕ) : ℕ := u32 (y * srcStridePixels)

/-- A row at scale 1 -/
def rowOne (dst src width : ℕ) : List BlitOp := [.copyFrame (4 * dst) (4 * src) (u32 (width * 4))]

/-- A row at scale 2: the loop with `x += 2`, and the copy of what it stored -/
def rowTwo (dst1 dst2 src width : ℕ) : List BlitOp :=
  ((List.range ((width + 1) / 2)).flatMap fun i =>
    let x := 2 * i
    [.storePair (4 * dst1 + 8 * x) (4 * (src + x)), .storePair (4 * dst1 + 8 * (x + 1)) (4 * (src + (x + 1)))]) ++
      [.copyRow (4 * dst2) (4 * dst1) (u32 (width * 8))]

/-- A row at any other scale, given where its rows in the buffer start -/
def rowAny (dst : ℕ → ℕ) (src width scale : ℕ) : List BlitOp :=
  (List.range scale).flatMap fun sy =>
    (List.range width).flatMap fun x =>
      (List.range scale).map fun sx => .store (4 * (dst sy + u32 (x * scale + sx))) (4 * (src + x))

/-- `quake_blit` behind its check; `none` if it never ends, since `x += 2` passes over the largest width. -/
def quakeBlit (d : Screen) (f : Frame) : Option (List BlitOp) :=
  let width := f.width.toNat
  let height := f.height.toNat
  let scaleX := u32 (d.width.toNat / width)
  let scaleY := u32 (d.height.toNat / height)
  let scale := if scaleX < scaleY then scaleX else scaleY
  let scale := if scale < 1 then 1 else scale
  let startX := u32 (u64 (d.width.toNat + 2 ^ 64 - u32 (width * scale)) / 2)
  let startY := u32 (u64 (d.height.toNat + 2 ^ 64 - u32 (height * scale)) / 2)
  let pitch := u32 (d.pitch.toNat / 4)
  let srcStridePixels := f.stride.toNat / 4
  if scale = 1 then
    some ((List.range height).flatMap fun y =>
      rowOne (dstWord startX startY pitch y) (srcWord srcStridePixels y) width)
  else if scale = 2 then
    if width = 2 ^ 32 - 1 then none
    else
      some ((List.range height).flatMap fun y =>
        rowTwo (dstWord startX startY pitch (y * 2)) (dstWord startX startY pitch (y * 2 + 1))
          (srcWord srcStridePixels y) width)
  else
    some ((List.range height).flatMap fun y =>
      rowAny (fun sy => dstWord startX startY pitch (y * scale + sy)) (srcWord srcStridePixels y) width scale)

/-! ## A row of the frame -/

section

variable {frame : Bytes}

theorem exec_copyFrame (fb : Bytes) (dst src len i : ℕ) :
    BlitOp.exec frame fb (.copyFrame dst src len) i =
      if dst ≤ i ∧ i < dst + len then frame (src + (i - dst)) else fb i := rfl

theorem exec_store (fb : Bytes) (dst src i : ℕ) :
    BlitOp.exec frame fb (.store dst src) i =
      if dst ≤ i ∧ i < dst + 4 then frame (src + (i - dst)) else fb i := Bytes.putU32_u32At _ _ _ _ _

theorem exec_storePair (fb : Bytes) (dst src i : ℕ) :
    BlitOp.exec frame fb (.storePair dst src) i =
      if dst ≤ i ∧ i < dst + 8 then frame (src + (i - dst) % 4) else fb i := Bytes.putU64_u32At _ _ _ _ _

theorem exec_copyRow {dst src len : ℕ} (h : src + len ≤ dst) (fb : Bytes) (i : ℕ) :
    BlitOp.exec frame fb (.copyRow dst src len) i =
      if dst ≤ i ∧ i < dst + len then fb (src + (i - dst)) else fb i := by
  show fb.copyForward dst src len i = _
  rw [Bytes.copyForward_eq h]
  rfl

/-- What a row of the frame makes of the rows of the image that belong to it: it sets them, and leaves alone what is
before the first and behind the last of them. -/
structure SetsRows (dst : ℕ → ℕ) (src width scale : ℕ) (frame : Bytes) (ops : List BlitOp) : Prop where
  set : ∀ sy < scale, ∀ k < 4 * (width * scale), ∀ fb,
    ops.foldl (BlitOp.exec frame) fb (4 * dst sy + k) = frame (4 * (src + k / 4 / scale) + k % 4)
  keep : ∀ i, (i < 4 * dst 0 ∨ 4 * dst (scale - 1) + 4 * (width * scale) ≤ i) → ∀ fb,
    ops.foldl (BlitOp.exec frame) fb i = fb i

theorem rowOne_sets (dst : ℕ → ℕ) (src : ℕ) {width : ℕ} (hwidth : width < 2 ^ 30) :
    SetsRows dst src width 1 frame (rowOne (dst 0) src width) := by
  have hlen : u32 (width * 4) = 4 * width := by
    rw [u32_of_lt (by omega), Nat.mul_comm]
  constructor
  · intro sy hsy k hk fb
    obtain rfl : sy = 0 := by omega
    rw [rowOne, List.foldl_cons, List.foldl_nil, exec_copyFrame, hlen, if_pos (by omega)]
    congr 1
    omega
  · intro i hi fb
    rw [rowOne, List.foldl_cons, List.foldl_nil, exec_copyFrame, hlen, if_neg]
    rw [Nat.sub_self] at hi
    omega

/-- The loop stores each pixel twice, and one pixel more if the width is odd. -/
theorem foldl_pairs (dst src n : ℕ) (fb : Bytes) (i : ℕ) :
    ((List.range n).flatMap fun i =>
      [BlitOp.storePair (4 * dst + 8 * (2 * i)) (4 * (src + 2 * i)),
        .storePair (4 * dst + 8 * (2 * i + 1)) (4 * (src + (2 * i + 1)))]).foldl (BlitOp.exec frame) fb i =
      if 4 * dst ≤ i ∧ i < 4 * dst + 16 * n then frame (4 * (src + (i - 4 * dst) / 8) + (i - 4 * dst) % 4)
      else fb i := by
  rw [flatMap_range_pairs fun x => BlitOp.storePair (4 * dst + 8 * x) (4 * (src + x)), List.foldl_map,
    Bytes.foldl_overwrite (fun x => 4 * dst + 8 * x ≤ i ∧ i < 4 * dst + 8 * x + 8)
      (v := frame (4 * (src + (i - 4 * dst) / 8) + (i - 4 * dst) % 4))]
  · refine if_congr ?_ rfl rfl
    constructor
    · rintro ⟨x, hx, hle, hlt⟩
      have hx := List.mem_range.mp hx
      omega
    · rintro ⟨hle, hlt⟩
      exact ⟨(i - 4 * dst) / 8, List.mem_range.mpr (by omega), by omega, by omega⟩
  · intro x _ fb
    rw [exec_storePair]
    refine if_ctx_congr Iff.rfl (fun hin => ?_) fun _ => rfl
    have hx : (i - 4 * dst) / 8 = x := by omega
    rw [hx]
    congr 1
    omega

theorem rowTwo_sets (dst : ℕ → ℕ) (src : ℕ) {width : ℕ} (hpos : 0 < width) (hwidth : width < 2 ^ 29)
    (hdst : dst 0 + 2 * width ≤ dst 1) :
    SetsRows dst src width 2 frame (rowTwo (dst 0) (dst 1) src width) := by
  have hlen : u32 (width * 8) = 8 * width := by
    rw [u32_of_lt (by omega), Nat.mul_comm]
  have hrow : ∀ fb i, (rowTwo (dst 0) (dst 1) src width).foldl (BlitOp.exec frame) fb i =
      if 4 * dst 1 ≤ i ∧ i < 4 * dst 1 + 8 * width then
        frame (4 * (src + (i - 4 * dst 1) / 8) + (i - 4 * dst 1) % 4)
      else if 4 * dst 0 ≤ i ∧ i < 4 * dst 0 + 16 * ((width + 1) / 2) then
        frame (4 * (src + (i - 4 * dst 0) / 8) + (i - 4 * dst 0) % 4)
      else fb i := by
    intro fb i
    unfold rowTwo
    dsimp only
    rw [List.foldl_append, List.foldl_cons, List.foldl_nil, hlen, exec_copyRow (by omega)]
    refine if_ctx_congr Iff.rfl (fun hin => ?_) fun _ => foldl_pairs _ _ _ _ _
    rw [foldl_pairs, if_pos (by omega), Nat.add_sub_cancel_left]
  constructor
  · intro sy hsy k hk fb
    rw [hrow]
    interval_cases sy
    · rw [if_neg (by omega), if_pos (by omega), Nat.add_sub_cancel_left, Nat.div_div_eq_div_mul]
    · rw [if_pos (by omega), Nat.add_sub_cancel_left, Nat.div_div_eq_div_mul]
  · intro i hi fb
    rw [show 2 - 1 = 1 from rfl] at hi
    rw [hrow, if_neg (by omega), if_neg (by omega)]

/-- One row of the image at any other scale -/
theorem foldl_stores (dst src : ℕ) {width scale : ℕ} (hscale : 0 < scale) (hwidth : width * scale < 2 ^ 32)
    (fb : Bytes) (i : ℕ) :
    ((List.range width).flatMap fun x => (List.range scale).map fun sx =>
      BlitOp.store (4 * (dst + u32 (x * scale + sx))) (4 * (src + x))).foldl (BlitOp.exec frame) fb i =
      if 4 * dst ≤ i ∧ i < 4 * dst + 4 * (width * scale) then
        frame (4 * (src + (i - 4 * dst) / 4 / scale) + (i - 4 * dst) % 4)
      else fb i := by
  have hcolumn : ∀ x < width, ∀ sx < scale, x * scale + sx < width * scale := by
    intro x hx sx hsx
    calc x * scale + sx < x * scale + scale := Nat.add_lt_add_left hsx _
      _ = (x + 1) * scale := (Nat.succ_mul x scale).symm
      _ ≤ width * scale := Nat.mul_le_mul_right _ hx
  rw [Bytes.foldl_overwrite (fun op => i ∈ op.writes)
    (v := frame (4 * (src + (i - 4 * dst) / 4 / scale) + (i - 4 * dst) % 4))]
  · refine if_congr ?_ rfl rfl
    simp only [List.mem_flatMap, List.mem_map, List.mem_range]
    constructor
    · rintro ⟨op, ⟨x, hx, sx, hsx, rfl⟩, hi⟩
      have hlt := hcolumn x hx sx hsx
      rw [BlitOp.writes, u32_of_lt (by omega), List.mem_range'_1] at hi
      omega
    · rintro ⟨hle, hlt⟩
      have hsx : (i - 4 * dst) / 4 % scale < scale := Nat.mod_lt _ hscale
      have hx : (i - 4 * dst) / 4 / scale < width := by
        rw [Nat.div_lt_iff_lt_mul hscale]
        omega
      refine ⟨_, ⟨_, hx, _, hsx, rfl⟩, ?_⟩
      rw [BlitOp.writes, u32_of_lt (by have := hcolumn _ hx _ hsx; omega), Nat.div_add_mod', List.mem_range'_1]
      omega
  · intro op hop fb
    simp only [List.mem_flatMap, List.mem_map, List.mem_range] at hop
    obtain ⟨x, hx, sx, hsx, rfl⟩ := hop
    have hlt := hcolumn x hx sx hsx
    rw [BlitOp.writes, u32_of_lt (by omega), exec_store]
    refine if_ctx_congr (List.mem_range'_1.symm) (fun hin => ?_) fun _ => rfl
    have hword : (i - 4 * dst) / 4 = x * scale + sx := by
      have := List.mem_range'_1.mp hin
      omega
    have hdiv : (x * scale + sx) / scale = x := by
      rw [Nat.mul_comm, Nat.mul_add_div hscale, Nat.div_eq_of_lt hsx, Nat.add_zero]
    rw [hword, hdiv]
    congr 1
    have := List.mem_range'_1.mp hin
    omega

theorem rowAny_sets {dst : ℕ → ℕ} (src : ℕ) {width scale : ℕ} (hscale : 0 < scale)
    (hwidth : width * scale < 2 ^ 32) (hdst : ∀ s t, s < t → dst s + width * scale ≤ dst t) :
    SetsRows dst src width scale frame (rowAny dst src width scale) := by
  have hmono : ∀ s t, s ≤ t → dst s ≤ dst t := by
    intro s t hst
    rcases hst.eq_or_lt with rfl | hlt
    · exact le_rfl
    · exact (Nat.le_add_right _ _).trans (hdst s t hlt)
  constructor
  · intro sy hsy k hk fb
    unfold rowAny
    rw [List.foldl_flatMap]
    refine foldl_establish (fun sy fb => ∀ k < 4 * (width * scale),
      fb (4 * dst sy + k) = frame (4 * (src + k / 4 / scale) + k % 4)) ?_ ?_ fb sy (List.mem_range.mpr hsy) k hk
    · intro sy _ fb k hk
      rw [foldl_stores _ _ hscale hwidth, if_pos (by omega), Nat.add_sub_cancel_left]
    · intro sy _ sy' _ hne fb hfb k hk
      rw [foldl_stores _ _ hscale hwidth, if_neg, hfb k hk]
      rcases Nat.lt_or_gt_of_ne hne with hlt | hgt
      · have := hdst _ _ hlt
        omega
      · have := hdst _ _ hgt
        omega
  · intro i hi fb
    unfold rowAny
    rw [List.foldl_flatMap]
    refine foldl_keep (f := fun fb : Bytes => fb i) (fun sy hsy fb => ?_) fb
    have hfirst := hmono 0 sy (Nat.zero_le _)
    have hlast := hmono sy (scale - 1) (by have := List.mem_range.mp hsy; omega)
    rw [foldl_stores _ _ hscale hwidth, if_neg (by omega)]

/-! ## The image -/

/-- The rows of the frame, one after the other, make the image, and change nothing behind its last pixel. -/
theorem exec_rows (dst src : ℕ → ℕ) {width height scale : ℕ} {row : ℕ → List BlitOp} (hscale : 0 < scale)
    (hdst : ∀ s t, s < t → dst s + width * scale ≤ dst t)
    (hrow : ∀ y < height, SetsRows (fun sy => dst (y * scale + sy)) (src y) width scale frame (row y)) (fb : Bytes) :
    (∀ r < height * scale, ∀ k < 4 * (width * scale),
      ((List.range height).flatMap row).foldl (BlitOp.exec frame) fb (4 * dst r + k) =
        frame (4 * (src (r / scale) + k / 4 / scale) + k % 4)) ∧
      ∀ i, 4 * dst (height * scale - 1) + 4 * (width * scale) ≤ i →
        ((List.range height).flatMap row).foldl (BlitOp.exec frame) fb i = fb i := by
  have hmono : ∀ s t, s ≤ t → dst s ≤ dst t := by
    intro s t hst
    rcases hst.eq_or_lt with rfl | hlt
    · exact le_rfl
    · exact (Nat.le_add_right _ _).trans (hdst s t hlt)
  have hlast : ∀ y < height, y * scale + (scale - 1) ≤ height * scale - 1 := by
    intro y hy
    have hnext : (y + 1) * scale ≤ height * scale := Nat.mul_le_mul_right _ hy
    rw [Nat.succ_mul] at hnext
    omega
  rw [List.foldl_flatMap]
  constructor
  · intro r hr k hk
    have hy : r / scale < height := (Nat.div_lt_iff_lt_mul hscale).mpr hr
    have hsy : r % scale < scale := Nat.mod_lt _ hscale
    have hset := foldl_establish (fun y fb => ∀ sy < scale, ∀ k < 4 * (width * scale),
        fb (4 * dst (y * scale + sy) + k) = frame (4 * (src y + k / 4 / scale) + k % 4))
      (fun y hy fb sy hsy k hk => (hrow y (List.mem_range.mp hy)).set sy hsy k hk fb) ?_ fb _
      (List.mem_range.mpr hy) _ hsy k hk
    · rwa [Nat.div_add_mod'] at hset
    · -- another row of the frame keeps to its own rows of the image
      intro y hy y' hy' hne fb hfb sy hsy k hk
      rw [(hrow y' (List.mem_range.mp hy')).keep _ _ fb, hfb sy hsy k hk]
      rcases Nat.lt_or_gt_of_ne hne with hlt | hgt
      · left
        have hnext : (y + 1) * scale ≤ y' * scale := Nat.mul_le_mul_right _ hlt
        rw [Nat.succ_mul] at hnext
        have := hdst (y * scale + sy) (y' * scale + 0) (by omega)
        omega
      · right
        have hnext : (y' + 1) * scale ≤ y * scale := Nat.mul_le_mul_right _ hgt
        rw [Nat.succ_mul] at hnext
        have := hdst (y' * scale + (scale - 1)) (y * scale + sy) (by omega)
        omega
  · intro i hi
    refine foldl_keep (f := fun fb : Bytes => fb i) (fun y hy fb => ?_) fb
    have hy := List.mem_range.mp hy
    refine (hrow y hy).keep i (.inr ?_) fb
    have := hmono _ _ (hlast y hy)
    omega

end

end Sandflea.Quake
