import Sandflea.Lib.Bytes

/-!
# The on-disk records

The records of `kern_ext2.h`: the superblock, a block group descriptor, an inode, and the header of
a directory entry. An inode keeps its 128 bytes, since the driver copies it whole and reads its
block pointers as text when it is a short symlink; the other records are decoded into the fields
that the driver reads.
-/

namespace Sandflea

open Bytes

/-- A C string without its terminator. -/
abbrev Str := List UInt8

/-- The bytes of an ASCII text. -/
def str (s : String) : Str := s.toList.map fun c => UInt8.ofNat c.toNat

/-- The character `/`. -/
def slash : UInt8 := 47

/-- `ext2_superblock_t`: the fields that the driver reads. -/
structure Superblock where
  /-- `total_inodes` -/
  totalInodes : ℕ
  /-- `total_blocks` -/
  totalBlocks : ℕ
  /-- `superblock_block_number`, the first data block: 1 for blocks of 1024 bytes, else 0. -/
  firstDataBlock : ℕ
  /-- `block_size`, as a shift: blocks have `1024 << block_size` bytes. -/
  blockSizeShift : ℕ
  /-- `blocks_per_group` -/
  blocksPerGroup : ℕ
  /-- `inodes_per_group` -/
  inodesPerGroup : ℕ
  /-- `magic_signature` -/
  magicSignature : ℕ
  /-- `major_version` -/
  majorVersion : ℕ
  /-- `first_inode` -/
  firstInode : ℕ
  /-- `inode_size` -/
  inodeSize : ℕ
deriving DecidableEq, Repr

/-- The superblock that 1024 bytes hold. -/
def Superblock.ofBytes (b : Bytes) : Superblock where
  totalInodes := u32At b 0
  totalBlocks := u32At b 4
  firstDataBlock := u32At b 20
  blockSizeShift := u32At b 24
  blocksPerGroup := u32At b 32
  inodesPerGroup := u32At b 40
  magicSignature := u16At b 56
  majorVersion := u32At b 76
  firstInode := u32At b 84
  inodeSize := u16At b 88

/-- `EXT2_SIGNATURE` -/
def ext2Signature : ℕ := 0xEF53

/-- The block size of a mounted drive, `1024 << sb.block_size`. -/
def Superblock.blockSize (sb : Superblock) : ℕ := 1024 * 2 ^ sb.blockSizeShift

theorem Superblock.blockSize_pos (sb : Superblock) : 0 < sb.blockSize := by
  unfold Superblock.blockSize
  positivity

/-- A block holds a whole number of sectors. -/
theorem Superblock.sector_dvd_blockSize (sb : Superblock) : 512 ∣ sb.blockSize :=
  Dvd.dvd.mul_right (by norm_num) _

theorem Superblock.le_blockSize (sb : Superblock) : 1024 ≤ sb.blockSize :=
  Nat.le_mul_of_pos_right _ (by positivity)

/-- The number of pointers in an indirect block. -/
def Superblock.ptrs (sb : Superblock) : ℕ := sb.blockSize / 4

theorem Superblock.four_mul_ptrs (sb : Superblock) : 4 * sb.ptrs = sb.blockSize :=
  Nat.mul_div_cancel' (dvd_trans (by norm_num) sb.sector_dvd_blockSize)

theorem Superblock.le_ptrs (sb : Superblock) : 256 ≤ sb.ptrs := by
  have := sb.four_mul_ptrs
  have := sb.le_blockSize
  omega

/-- `ext2_bgd_t`: the fields of a group descriptor that the driver reads or counts with. -/
structure GroupDesc where
  /-- `block_bitmap` -/
  blockBitmap : ℕ
  /-- `inode_bitmap` -/
  inodeBitmap : ℕ
  /-- `inode_table` -/
  inodeTable : ℕ
  /-- `free_blocks_count` -/
  freeBlocksCount : ℕ
  /-- `free_inodes_count` -/
  freeInodesCount : ℕ
deriving DecidableEq, Repr

/-- The descriptor at an offset of a descriptor table. -/
def GroupDesc.ofBytes (b : Bytes) (o : ℕ) : GroupDesc where
  blockBitmap := u32At b o
  inodeBitmap := u32At b (o + 4)
  inodeTable := u32At b (o + 8)
  freeBlocksCount := u16At b (o + 12)
  freeInodesCount := u16At b (o + 14)

/-- The bytes of a descriptor, `sizeof(ext2_bgd_t)`. -/
def groupDescSize : ℕ := 32

/-- The number of descriptors in the one block of the table that a mount caches. -/
def Superblock.cachedDescs (sb : Superblock) : ℕ := sb.blockSize / groupDescSize

/-! ## Inodes -/

/-- `sizeof(ext2_inode_t)` -/
def inodeBytes : ℕ := 128

/-- `ext2_inode_t`: its 128 bytes. -/
@[ext]
structure Inode where
  /-- The bytes of the record. -/
  raw : Bytes
  /-- There are no bytes behind the record. -/
  tail : ∀ i, inodeBytes ≤ i → raw i = 0

namespace Inode

/-- The inode that a buffer starts with. -/
def ofBytes (b : Bytes) : Inode := ⟨trunc inodeBytes b, fun i hi => by simp [trunc, not_lt.mpr hi]⟩

/-- The zeroed inode. -/
def zero : Inode := ofBytes zeros

@[simp] theorem ofBytes_raw (x : Inode) : ofBytes x.raw = x := by
  refine Inode.ext (funext fun i => ?_)
  by_cases hi : i < inodeBytes
  · exact trunc_of_lt _ hi
  · rw [x.tail i (by omega), (ofBytes x.raw).tail i (by omega)]

/-- Inodes agree when their 128 bytes do. -/
theorem ofBytes_congr {b c : Bytes} (h : ∀ i < inodeBytes, b i = c i) : ofBytes b = ofBytes c := by
  refine Inode.ext (funext fun i => ?_)
  by_cases hi : i < inodeBytes
  · simp only [ofBytes, trunc_of_lt _ hi, h i hi]
  · rw [(ofBytes b).tail i (by omega), (ofBytes c).tail i (by omega)]

/-- `inode->mode` -/
def mode (x : Inode) : ℕ := u16At x.raw 0

/-- `inode->size` -/
def size (x : Inode) : ℕ := u32At x.raw 4

/-- `inode->blocks`, in sectors -/
def blocks (x : Inode) : ℕ := u32At x.raw 28

/-- `inode->block[i]` -/
def block (x : Inode) (i : ℕ) : ℕ := u32At x.raw (40 + 4 * i)

/-- `inode->block` as text: the target of a short symlink. -/
def blockText (x : Inode) (n : ℕ) : Str := (List.range n).map fun i => x.raw (40 + i)

/-- Assign `inode->mode`. -/
def setMode (x : Inode) (v : ℕ) : Inode := ofBytes (putU16 x.raw 0 v)

/-- Assign `inode->size`. -/
def setSize (x : Inode) (v : ℕ) : Inode := ofBytes (putU32 x.raw 4 v)

/-- Assign `inode->links_count`. -/
def setLinksCount (x : Inode) (v : ℕ) : Inode := ofBytes (putU16 x.raw 26 v)

/-- Assign `inode->blocks`. -/
def setBlocks (x : Inode) (v : ℕ) : Inode := ofBytes (putU32 x.raw 28 v)

/-- Assign `inode->block[i]`. -/
def setBlock (x : Inode) (i v : ℕ) : Inode := ofBytes (putU32 x.raw (40 + 4 * i) v)

/-- Copy the text of a short symlink over `inode->block`. -/
def setBlockText (x : Inode) (t : Str) : Inode :=
  ofBytes (copyInto x.raw 40 (fun i => t.getD i 0) 0 t.length)

/-- `inode->blocks += n` -/
def addSectors (x : Inode) (n : ℕ) : Inode := x.setBlocks (x.blocks + n)

theorem u32At_ofBytes {b : Bytes} {o : ℕ} (h : o + 4 ≤ inodeBytes) :
    u32At (ofBytes b).raw o = u32At b o :=
  u32At_trunc b h

theorem u16At_ofBytes {b : Bytes} {o : ℕ} (h : o + 2 ≤ inodeBytes) :
    u16At (ofBytes b).raw o = u16At b o :=
  u16At_trunc b h

theorem size_lt (x : Inode) : x.size < 2 ^ 32 := u32At_lt _ _

theorem block_lt (x : Inode) (i : ℕ) : x.block i < 2 ^ 32 := u32At_lt _ _

theorem blocks_lt (x : Inode) : x.blocks < 2 ^ 32 := u32At_lt _ _

@[simp] theorem size_setSize (x : Inode) (v : ℕ) : (x.setSize v).size = v % 2 ^ 32 := by
  rw [size, setSize, u32At_ofBytes (by decide), u32At_putU32]

@[simp] theorem blocks_setBlocks (x : Inode) (v : ℕ) : (x.setBlocks v).blocks = v % 2 ^ 32 := by
  rw [blocks, setBlocks, u32At_ofBytes (by decide), u32At_putU32]

@[simp] theorem size_setBlocks (x : Inode) (v : ℕ) : (x.setBlocks v).size = x.size := by
  rw [size, setBlocks, u32At_ofBytes (by decide), u32At_putU32_of_disjoint (by decide), size]

@[simp] theorem blocks_setSize (x : Inode) (v : ℕ) : (x.setSize v).blocks = x.blocks := by
  rw [blocks, setSize, u32At_ofBytes (by decide), u32At_putU32_of_disjoint (by decide), blocks]

@[simp] theorem size_setBlock (x : Inode) (i v : ℕ) : (x.setBlock i v).size = x.size := by
  rw [size, setBlock, u32At_ofBytes (by decide), u32At_putU32_of_disjoint (by omega), size]

@[simp] theorem blocks_setBlock (x : Inode) (i v : ℕ) : (x.setBlock i v).blocks = x.blocks := by
  rw [blocks, setBlock, u32At_ofBytes (by decide), u32At_putU32_of_disjoint (by omega), blocks]

@[simp] theorem block_setSize {x : Inode} {i v : ℕ} (hi : i < 15) :
    (x.setSize v).block i = x.block i := by
  rw [block, setSize, u32At_ofBytes (by unfold inodeBytes; omega),
    u32At_putU32_of_disjoint (by omega), block]

@[simp] theorem block_setBlocks {x : Inode} {i v : ℕ} (hi : i < 15) :
    (x.setBlocks v).block i = x.block i := by
  rw [block, setBlocks, u32At_ofBytes (by unfold inodeBytes; omega),
    u32At_putU32_of_disjoint (by omega), block]

@[simp] theorem mode_setSize (x : Inode) (v : ℕ) : (x.setSize v).mode = x.mode := by
  rw [mode, setSize, u16At_ofBytes (by decide), u16At_putU32_of_disjoint (by decide), mode]

@[simp] theorem mode_setBlocks (x : Inode) (v : ℕ) : (x.setBlocks v).mode = x.mode := by
  rw [mode, setBlocks, u16At_ofBytes (by decide), u16At_putU32_of_disjoint (by decide), mode]

@[simp] theorem mode_setBlock (x : Inode) (i v : ℕ) : (x.setBlock i v).mode = x.mode := by
  rw [mode, setBlock, u16At_ofBytes (by decide), u16At_putU32_of_disjoint (by omega), mode]

@[simp] theorem mode_addSectors (x : Inode) (n : ℕ) : (x.addSectors n).mode = x.mode :=
  mode_setBlocks _ _

@[simp] theorem block_addSectors {x : Inode} {i n : ℕ} (hi : i < 15) :
    (x.addSectors n).block i = x.block i :=
  block_setBlocks hi

@[simp] theorem size_addSectors (x : Inode) (n : ℕ) : (x.addSectors n).size = x.size :=
  size_setBlocks _ _

@[simp] theorem blocks_addSectors (x : Inode) (n : ℕ) :
    (x.addSectors n).blocks = (x.blocks + n) % 2 ^ 32 :=
  blocks_setBlocks _ _

theorem block_setBlock_self {x : Inode} {i v : ℕ} (hi : i < 15) :
    (x.setBlock i v).block i = v % 2 ^ 32 := by
  rw [block, setBlock, u32At_ofBytes (by unfold inodeBytes; omega), u32At_putU32]

theorem block_setBlock_of_ne {x : Inode} {i j v : ℕ} (hi : i < 15) (hij : i ≠ j) :
    (x.setBlock j v).block i = x.block i := by
  rw [block, setBlock, u32At_ofBytes (by unfold inodeBytes; omega),
    u32At_putU32_of_disjoint (by omega), block]

/-- The second inode is the first with `n` more sectors counted. -/
structure Counted (x x' : Inode) (n : ℕ) : Prop where
  mode : x'.mode = x.mode
  size : x'.size = x.size
  block : ∀ i < 15, x'.block i = x.block i
  blocks : x'.blocks = (x.blocks + n) % 2 ^ 32

theorem Counted.refl (x : Inode) : Counted x x 0 :=
  ⟨rfl, rfl, fun _ _ => rfl, (Nat.mod_eq_of_lt x.blocks_lt).symm⟩

theorem counted_addSectors (x : Inode) (n : ℕ) : Counted x (x.addSectors n) n :=
  ⟨mode_addSectors _ _, size_addSectors _ _, fun _ hi => block_addSectors hi, blocks_addSectors _ _⟩

theorem Counted.trans {x y z : Inode} {m n : ℕ} (h : Counted x y m) (h' : Counted y z n) :
    Counted x z (m + n) where
  mode := h'.mode.trans h.mode
  size := h'.size.trans h.size
  block i hi := (h'.block i hi).trans (h.block i hi)
  blocks := by
    rw [h'.blocks, h.blocks]
    omega

end Inode

/-! ## File types -/

/-- `mode & 0xF000` -/
def Inode.fileType (x : Inode) : ℕ := x.mode / 4096 * 4096

/-- `EXT2_S_IFDIR` -/
def ext2SIfdir : ℕ := 0x4000

/-- `EXT2_S_IFLNK` -/
def ext2SIflnk : ℕ := 0xA000

/-- `EXT2_FT_REG_FILE` -/
def ext2FtRegFile : ℕ := 1

/-- `EXT2_FT_SYMLINK` -/
def ext2FtSymlink : ℕ := 7

end Sandflea
