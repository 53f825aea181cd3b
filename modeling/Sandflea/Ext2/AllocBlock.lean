import Sandflea.Ext2.Alloc

/-!
# The block allocator and the layout of an ext2 image

In the layout of ext2 bit `i` of the block bitmap of group `g` stands for block
`first_data_block + g * blocks_per_group + i`. `ext2_alloc_block` numbers it
`g * blocks_per_group + i`, and it reads the descriptor of every group that it scans from the one
block of the table that the mount cached. `RespectsLayout` says what a call must do;
`respectsLayout_iff` says exactly when it does it, over every valid image and every outcome of
`kmalloc`.
-/

namespace Sandflea

open Bytes Kern Kernel

/-- The number of block groups of an image. -/
def Superblock.realGroups (sb : Superblock) : ℕ :=
  (sb.totalBlocks - sb.firstDataBlock + sb.blocksPerGroup - 1) / sb.blocksPerGroup

/-- What the block bitmaps of a valid image satisfy. The descriptors are those of the cached block of
the table. -/
structure ValidImage (k : PlainKernel) : Prop where
  /-- Blocks have 1024 to 65536 bytes. -/
  shift_le : k.sb.blockSizeShift ≤ 6
  /-- The first data block is 0 or 1. -/
  firstDataBlock_le : k.sb.firstDataBlock ≤ 1
  /-- The image has a data block. -/
  firstDataBlock_lt : k.sb.firstDataBlock < k.sb.totalBlocks
  /-- Block numbers are 32-bit. -/
  totalBlocks_lt : k.sb.totalBlocks < 2 ^ 32
  /-- A group has blocks. -/
  blocksPerGroup_pos : 0 < k.sb.blocksPerGroup
  /-- The bitmap of a group is one block. -/
  blocksPerGroup_le : k.sb.blocksPerGroup ≤ k.sb.blockSize * 8
  /-- Behind the last group the table is zero. -/
  unused : ∀ g < k.sb.cachedDescs, k.sb.realGroups ≤ g → (k.bgdt g).blockBitmap = 0
  /-- No two groups share a bitmap. -/
  inj : ∀ g < k.sb.realGroups, ∀ g' < k.sb.realGroups, g < k.sb.cachedDescs →
    g' < k.sb.cachedDescs → (k.bgdt g).blockBitmap = (k.bgdt g').blockBitmap → g = g'
  /-- The bits behind the last block are set. -/
  padded : ∀ g < k.sb.realGroups, g < k.sb.cachedDescs → ∀ i < k.sb.blocksPerGroup,
    k.sb.totalBlocks - k.sb.firstDataBlock ≤ g * k.sb.blocksPerGroup + i →
    Bytes.bit (k.blk (k.bgdt g).blockBitmap) i = true
  /-- Block 0 is in use. -/
  boot : k.sb.firstDataBlock = 0 → Bytes.bit (k.blk (k.bgdt 0).blockBitmap) 0 = true

/-- The group of block `b` in the layout. -/
def Superblock.groupOf (sb : Superblock) (b : ℕ) : ℕ := (b - sb.firstDataBlock) / sb.blocksPerGroup

/-- The bit of block `b` in the bitmap of its group. -/
def Superblock.bitOf (sb : Superblock) (b : ℕ) : ℕ := (b - sb.firstDataBlock) % sb.blocksPerGroup

/-- The bitmap block of block `b`. -/
def Kernel.bitmapOf (k : PlainKernel) (b : ℕ) : ℕ := (k.bgdt (k.sb.groupOf b)).blockBitmap

/-- A call of `ext2_alloc_block` reads no descriptor outside the cached table, and either returns 0
and leaves every bitmap and counter as it was, or returns a block of the image whose bit was clear,
and sets that bit and no other. -/
def RespectsLayout (k : PlainKernel) : Prop :=
  ∃ b k', ext2AllocBlock.exec k = some (b, k') ∧
    (b = 0 ∧ k'.blk = k.blk ∧ k'.bgdt = k.bgdt ∨
      b ≠ 0 ∧ k.sb.firstDataBlock ≤ b ∧ b < k.sb.totalBlocks ∧
        Bytes.bit (k.blk (k.bitmapOf b)) (k.sb.bitOf b) = false ∧
        k'.blk = Function.update k.blk (k.bitmapOf b)
          (setBit (k.blk (k.bitmapOf b)) (k.sb.bitOf b)))

/-- The scan ends before it reaches a descriptor that is not cached. -/
def StaysInTable (k : PlainKernel) : Prop :=
  ∀ g < k.sb.scanned, k.sb.cachedDescs ≤ g → ∃ g' < g, (k.usableBit blockBitmaps g').isSome

/-- The scan finds no bit to take. -/
def TakesNothing (k : PlainKernel) : Prop :=
  ∀ g < k.sb.scanned, g < k.sb.cachedDescs → k.usableBit blockBitmaps g = none

/-! ## The bit that a scan takes -/

variable {k : PlainKernel}

/-- What a usable bit is: a clear bit of a bitmap, in a group of the image. -/
theorem ValidImage.usableBit (hv : ValidImage k) {g i : ℕ} (hg : g < k.sb.cachedDescs)
    (h : k.usableBit blockBitmaps g = some i) :
    g < k.sb.realGroups ∧ i ∈ blockBitmaps.bits k.sb g ∧ i < k.sb.blocksPerGroup ∧
      Bytes.bit (k.blk (k.bgdt g).blockBitmap) i = false := by
  rw [Kernel.usableBit] at h
  split at h
  swap
  · cases h
  have hmem := List.mem_of_head? h
  rw [clearBits] at hmem
  split at hmem
  · cases hmem
  next hne =>
  rw [List.mem_filter] at hmem
  obtain ⟨hi, hclear⟩ := hmem
  refine ⟨?_, hi, (BitmapKind.bits_lt hi).1, (Bool.not_eq_true' _).mp hclear⟩
  by_contra hreal
  exact hne (hv.unused g hg (not_lt.mp hreal))

/-- A usable bit stands for a block of the image, when the image starts with block 0. -/
theorem ValidImage.number_lt (hv : ValidImage k) {g i : ℕ} (hg : g < k.sb.cachedDescs)
    (h : k.usableBit blockBitmaps g = some i) :
    k.sb.firstDataBlock + (g * k.sb.blocksPerGroup + i) < k.sb.totalBlocks := by
  obtain ⟨hreal, -, hi, hclear⟩ := hv.usableBit hg h
  by_contra hlt
  have hset := hv.padded g hreal hg i hi (by omega)
  rw [hclear] at hset
  cases hset

/-- A run that does not fault stayed in the table. -/
theorem staysInTable_of_exec {r : ℕ × PlainKernel} (h : ext2AllocBlock.exec k = some r) :
    StaysInTable k := by
  rcases exec_alloc_outcome blockBitmaps k with ⟨-, hnone⟩ | ⟨ht, -⟩
  · rw [ext2AllocBlock, hnone] at h
    cases h
  · exact ht

/-- The bit that the scan takes is the bit of the block that it returns, when the image starts with
block 0. -/
theorem ValidImage.groupOf_number (hv : ValidImage k) (h0 : k.sb.firstDataBlock = 0) {g i : ℕ}
    (hg : g < k.sb.cachedDescs) (h : k.usableBit blockBitmaps g = some i) :
    k.sb.groupOf (blockBitmaps.number k.sb g i) = g ∧
      k.sb.bitOf (blockBitmaps.number k.sb g i) = i := by
  have hlt := hv.number_lt hg h
  have hi := (hv.usableBit hg h).2.2.1
  have htotal := hv.totalBlocks_lt
  have hnum : blockBitmaps.number k.sb g i = g * k.sb.blocksPerGroup + i :=
    Nat.mod_eq_of_lt (by omega)
  rw [hnum, Superblock.groupOf, Superblock.bitOf, h0, Nat.sub_zero, Nat.mul_comm]
  refine ⟨?_, ?_⟩
  · rw [Nat.mul_add_div hv.blocksPerGroup_pos, Nat.div_eq_of_lt hi, Nat.add_zero]
  · rw [Nat.mul_add_mod, Nat.mod_eq_of_lt hi]

/-- Two clear bits whose setting gives the same blocks are one bit. -/
theorem setBit_update_inj {f : ℕ → Bytes} {c d i j : ℕ} (hi : Bytes.bit (f c) i = false)
    (h : Function.update f c (setBit (f c) i) = Function.update f d (setBit (f d) j)) :
    c = d ∧ i = j := by
  have hc := congrArg (fun f => Bytes.bit (f c) i) h
  simp only [Function.update_self, bit_setBit, decide_true, Bool.or_true] at hc
  by_cases hcd : c = d
  · subst hcd
    simp only [Function.update_self, bit_setBit, hi, Bool.false_or] at hc
    exact ⟨rfl, of_decide_eq_true hc.symm⟩
  · rw [Function.update_of_ne hcd, hi] at hc
    cases hc

/-! ## The law -/

/-- A call that takes a bit respects the layout exactly when the image starts with block 0. -/
theorem ValidImage.respects_of_take (hv : ValidImage k) {g i : ℕ} {k' : PlainKernel}
    (hg : g < k.sb.cachedDescs) (h : k.usableBit blockBitmaps g = some i)
    (hrun : ext2AllocBlock.exec k = some (blockBitmaps.number k.sb g i, k'))
    (hk' : k'.blk = (k.takeBit blockBitmaps g i).blk) :
    RespectsLayout k ↔ k.sb.firstDataBlock = 0 := by
  obtain ⟨hreal, hmem, hi, hclear⟩ := hv.usableBit hg h
  have hlt := hv.number_lt hg h
  have htotal := hv.totalBlocks_lt
  have hnum : blockBitmaps.number k.sb g i = g * k.sb.blocksPerGroup + i :=
    Nat.mod_eq_of_lt (by omega)
  rw [takeBit_blk _ _ hmem] at hk'
  constructor
  · rintro ⟨b, k'', hrun', hcase⟩
    rw [hrun, Option.some.injEq, Prod.mk.injEq] at hrun'
    obtain ⟨rfl, rfl⟩ := hrun'
    by_contra hfdb
    have hone : k.sb.firstDataBlock = 1 := by
      have := hv.firstDataBlock_le
      omega
    rcases hcase with ⟨-, hsame, -⟩ | ⟨hne, -, -, -, hupd⟩
    · -- a bit was set, so the blocks are not the same
      have := congrArg (fun f => Bytes.bit (f (k.bgdt g).blockBitmap) i) (hk'.symm.trans hsame)
      simp [blockBitmaps, bit_setBit, hclear] at this
    · -- the bit of the block that is returned is the one before the bit that was set
      obtain ⟨hbm, hbit⟩ := setBit_update_inj hclear (hk'.symm.trans hupd)
      have hgroup : k.sb.groupOf (blockBitmaps.number k.sb g i) ≤ g := by
        rw [Superblock.groupOf, hnum, hone]
        refine le_trans (Nat.div_le_div_right (Nat.sub_le _ _)) ?_
        rw [Nat.mul_comm, Nat.mul_add_div hv.blocksPerGroup_pos, Nat.div_eq_of_lt hi]
        omega
      have hgg := hv.inj g hreal _ (lt_of_le_of_lt hgroup hreal) hg (lt_of_le_of_lt hgroup hg) hbm
      have hdiv := Nat.div_add_mod (blockBitmaps.number k.sb g i - 1) k.sb.blocksPerGroup
      rw [Superblock.groupOf, hone] at hgg
      rw [Superblock.bitOf, hone] at hbit
      rw [← hgg, ← hbit, Nat.mul_comm, ← hnum] at hdiv
      omega
  · intro h0
    obtain ⟨hgroup, hbit⟩ := hv.groupOf_number h0 hg h
    refine ⟨_, k', hrun, Or.inr ⟨?_, ?_, ?_, ?_, ?_⟩⟩
    · rw [hnum]
      intro hzero
      obtain ⟨hg0, rfl⟩ := Nat.add_eq_zero_iff.mp hzero
      have hg0' : g = 0 := (Nat.mul_eq_zero.mp hg0).resolve_right hv.blocksPerGroup_pos.ne'
      subst hg0'
      rw [hv.boot h0] at hclear
      cases hclear
    · omega
    · rw [hnum]
      omega
    · rw [bitmapOf, hgroup, hbit]
      exact hclear
    · rw [bitmapOf, hgroup, hbit]
      exact hk'

/-- The allocator respects the layout of a valid image, for every outcome of `kmalloc`, exactly when
the scan ends inside the cached descriptors and, in an image whose first data block is not block 0,
takes nothing. -/
theorem respectsLayout_iff (k : PlainKernel) (hv : ValidImage k) :
    RespectsLayout k ↔ StaysInTable k ∧ (k.sb.firstDataBlock = 0 ∨ TakesNothing k) := by
  by_cases ht : StaysInTable k
  swap
  · refine ⟨?_, fun h => absurd h.1 ht⟩
    rintro ⟨b, k', hrun, -⟩
    exact absurd (staysInTable_of_exec hrun) ht
  have hrun := exec_alloc blockBitmaps k
  cases hs : scanStop blockBitmaps k (List.range k.sb.scanned) with
  | none =>
    rw [hs] at hrun
    have hnothing : TakesNothing k := by
      intro g hg _
      rw [scanStop, List.find?_eq_none] at hs
      have := hs g (List.mem_range.mpr hg)
      simpa using (fun h => this (by simp [h]) : ¬ (k.usableBit blockBitmaps g).isSome = true)
    exact ⟨fun _ => ⟨ht, Or.inr hnothing⟩, fun _ => ⟨0, _, hrun, Or.inl ⟨rfl, rfl, rfl⟩⟩⟩
  | some g =>
    have hg := (inTable_iff blockBitmaps k).mp ht g hs
    obtain ⟨i, hi⟩ := usableBit_of_scanStop hs hg
    rw [hs] at hrun
    simp only [if_pos hg, hi, Option.map_some] at hrun
    rw [hv.respects_of_take hg hi hrun rfl]
    have htakes : ¬ TakesNothing k := by
      intro hnothing
      have hmem := (List.find?_range_eq_some.mp hs).2.1
      rw [hnothing g (List.mem_range.mp hmem) hg] at hi
      cases hi
    simp [ht, htakes]

/-! ## A small image -/

/-- An image of one group of eight blocks from block `fdb`, the first five of them in use: for
`fdb = 1` the superblock, the descriptors, the two bitmaps, and the inode table. -/
def tinyImage (fdb : ℕ) : PlainKernel :=
  let sb : Superblock :=
    { totalInodes := 16, totalBlocks := fdb + 8, firstDataBlock := fdb, blockSizeShift := 0,
      blocksPerGroup := 8, inodesPerGroup := 16, magicSignature := ext2Signature, majorVersion := 1,
      firstInode := 11, inodeSize := 128 }
  let desc : GroupDesc :=
    { blockBitmap := 3, inodeBitmap := 4, inodeTable := 5, freeBlocksCount := 3,
      freeInodesCount := 6 }
  Kernel.oneDrive
    { name := str "hda", present := true, sb,
      bgdtCache := fun g => if g = 0 then desc else GroupDesc.ofBytes zeros 0 }
    fun b i => if b = 3 ∧ i = 0 then 0b00011111 else 0

/-- The small images are valid. -/
theorem tinyImage_valid {fdb : ℕ} (h : fdb ≤ 1) : ValidImage (tinyImage fdb) := by
  have hgroups : (tinyImage fdb).sb.realGroups = 1 := by
    change (fdb + 8 - fdb + 8 - 1) / 8 = 1
    omega
  refine ⟨by decide +revert, h, ?_, ?_, by decide +revert, by decide +revert, ?_, ?_, ?_, ?_⟩
  · change fdb < fdb + 8
    omega
  · change fdb + 8 < 2 ^ 32
    omega
  · intro g _ hg
    rw [hgroups] at hg
    change (if g = 0 then _ else _ : GroupDesc).blockBitmap = 0
    rw [if_neg (by omega)]
    rfl
  · intro g hg g' hg' _ _ _
    omega
  · intro g hg _ i hi hle
    rw [hgroups] at hg
    obtain rfl : g = 0 := by omega
    change fdb + 8 - fdb ≤ 0 * 8 + i at hle
    change i < 8 at hi
    omega
  · intro h0
    obtain rfl : fdb = 0 := h0
    decide

/-- Without a first data block the law holds of the small image. -/
theorem tinyImage_respectsLayout :
    RespectsLayout (tinyImage 0) ↔
      StaysInTable (tinyImage 0) ∧ ((tinyImage 0).sb.firstDataBlock = 0 ∨ TakesNothing (tinyImage 0)) :=
  respectsLayout_iff (tinyImage 0) (tinyImage_valid (by decide))

/-- With a first data block the allocator hands out block 5 of the small image, which is the inode
table. -/
theorem tinyImage_not_respectsLayout :
    ValidImage (tinyImage 1) ∧ (ext2AllocBlock.exec (tinyImage 1)).map Prod.fst = some 5 ∧
      ((tinyImage 1).bgdt 0).inodeTable = 5 ∧
      ¬ RespectsLayout (tinyImage 1) := by
  have hbit : (tinyImage 1).usableBit blockBitmaps 0 = some 5 := by decide
  have hrun := exec_alloc blockBitmaps (tinyImage 1)
  have hstop : scanStop blockBitmaps (tinyImage 1) (List.range (tinyImage 1).sb.scanned) = some 0 := by
    decide
  have hcached : 0 < (tinyImage 1).sb.cachedDescs := by decide
  rw [hstop] at hrun
  simp only [if_pos hcached, hbit, Option.map_some] at hrun
  have hv := tinyImage_valid (Nat.le_refl 1)
  refine ⟨hv, by decide, rfl, ?_⟩
  rw [hv.respects_of_take hcached hbit hrun rfl]
  decide

end Sandflea
