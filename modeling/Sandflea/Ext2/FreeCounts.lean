import Sandflea.Ext2.AllocBlock
import Sandflea.Ext2.InodeTable

/-!
# The free counters of the groups

Each group has a counter of its free inodes and one of its free blocks, kept beside the two bitmaps. Over
any calls of the two allocators and of `ext2_release_inode` the counters agree with the bitmaps, and no
number is handed out twice, exactly as long as no scan leaves the cached descriptors
(`counters_agree_iff`). A scan can leave them although all groups are cached: `groups` counts the blocks in
front of the first data block, too, and can be one more than there are.
-/

namespace Sandflea

open Bytes Kern Kernel

/-- The two bitmaps of a group -/
inductive BitmapUse
  | inodes
  | blocks
deriving DecidableEq

/-- The allocator of a bitmap -/
def BitmapUse.kind : BitmapUse → BitmapKind
  | .inodes => inodeBitmaps
  | .blocks => blockBitmaps

/-- The counter of a bitmap -/
def BitmapUse.free : BitmapUse → GroupDesc → ℕ
  | .inodes, d => d.freeInodesCount
  | .blocks, d => d.freeBlocksCount

/-- The bits of a bitmap that stand for nothing: those behind the ones of a group, and in the last group
those behind the last block -/
def BitmapUse.Padding (sb : Superblock) : BitmapUse → ℕ → ℕ → Prop
  | .inodes, _, i => sb.inodesPerGroup ≤ i
  | .blocks, g, i => sb.blocksPerGroup ≤ i ∨ sb.totalBlocks - sb.firstDataBlock ≤ g * sb.blocksPerGroup + i

/-- The clear bits of a bitmap of one block -/
def freeBits (bs : ℕ) (bitmap : Bytes) : Finset ℕ :=
  (Finset.range (8 * bs)).filter fun i => Bytes.bit bitmap i = false

/-- The bitmap block of a group -/
def Kernel.bitmapBlock (k : PlainKernel) (u : BitmapUse) (g : ℕ) : ℕ := u.kind.bitmap (k.bgdt g)

/-- The counters agree with the bitmaps. -/
def CountsAgree (k : PlainKernel) : Prop :=
  ∀ u : BitmapUse, ∀ g < k.sb.realGroups,
    u.free (k.bgdt g) = (freeBits k.sb.blockSize (k.blk (k.bitmapBlock u g))).card

/-- A valid image of at most 256 groups, with all their descriptors in the cached block -/
structure CountedImage (k : PlainKernel) : Prop where
  groups_le : k.sb.realGroups ≤ 256
  cached : k.sb.realGroups ≤ k.sb.cachedDescs
  totalInodes : k.sb.totalInodes = k.sb.realGroups * k.sb.inodesPerGroup
  /-- Inode numbers are 32-bit. -/
  totalInodes_lt : k.sb.totalInodes < 2 ^ 32
  inodesPerGroup_pos : 0 < k.sb.inodesPerGroup
  /-- The bitmap of a group is one block. -/
  inodesPerGroup_le : k.sb.inodesPerGroup ≤ 8 * k.sb.blockSize
  /-- The inodes of a group can be counted in 16 bits. -/
  inodesPerGroup_lt : k.sb.inodesPerGroup < 65536
  blocksPerGroup_pos : 0 < k.sb.blocksPerGroup
  /-- Block numbers are 32-bit. -/
  totalBlocks_lt : k.sb.totalBlocks < 2 ^ 32
  /-- Behind the last group the table is zero. -/
  unused : ∀ u g, g < k.sb.cachedDescs → k.sb.realGroups ≤ g → k.bitmapBlock u g = 0
  present : ∀ u, ∀ g < k.sb.realGroups, k.bitmapBlock u g ≠ 0
  /-- No two bitmaps share a block. -/
  distinct : ∀ u u', ∀ g < k.sb.realGroups, ∀ g' < k.sb.realGroups,
    k.bitmapBlock u g = k.bitmapBlock u' g' → u = u' ∧ g = g'
  /-- The padding is set. -/
  padded : ∀ u, ∀ g < k.sb.realGroups, ∀ i < 8 * k.sb.blockSize, u.Padding k.sb g i →
    Bytes.bit (k.blk (k.bitmapBlock u g)) i = true
  /-- The counters have 16 bits. -/
  counter_lt : ∀ (u : BitmapUse) g, u.free (k.bgdt g) < 65536
  counts : CountsAgree k

/-! ## Calls of the allocators -/

/-- A call of one of the three functions -/
inductive AllocCall
  | allocInode
  | allocBlock
  | releaseInode (inodeNo : ℕ)

/-- The kernel, and the numbers that have been handed out and not been released -/
structure Ledger where
  kernel : PlainKernel
  inodes : List ℕ
  blocks : List ℕ

/-- A number that is handed out is put down. The number 0 stands for none. -/
def putDown (n : ℕ) (ns : List ℕ) : List ℕ := if n = 0 then ns else n :: ns

/-- One call -/
def AllocCall.step : AllocCall → Ledger → Option Ledger
  | .allocInode, L => (ext2AllocInode.exec L.kernel).map fun r =>
      { L with kernel := r.2, inodes := putDown r.1 L.inodes }
  | .allocBlock, L => (ext2AllocBlock.exec L.kernel).map fun r =>
      { L with kernel := r.2, blocks := putDown r.1 L.blocks }
  | .releaseInode n, L => ((ext2ReleaseInode n).exec L.kernel).map fun r =>
      { L with kernel := r.2, inodes := L.inodes.erase n }

/-- The bit of an inode in the bitmap of its group is set. -/
def AllocatedInode (k : PlainKernel) (n : ℕ) : Prop :=
  1 ≤ n ∧ n ≤ k.sb.totalInodes ∧
    Bytes.bit (k.blk (k.bitmapBlock .inodes (k.sb.inodeGroup n))) ((n - 1) % k.sb.inodesPerGroup) = true

/-- Only inodes that are allocated are released. -/
def Lawful : List AllocCall → Ledger → Prop
  | [], _ => True
  | c :: cs, L => (∀ n, c = .releaseInode n → AllocatedInode L.kernel n) ∧
      ∀ L', c.step L = some L' → Lawful cs L'

/-- The scan of a call, if it has one, ends before it reaches a descriptor that is not cached. -/
def AllocCall.ScansTable (k : PlainKernel) : AllocCall → Prop
  | .allocInode => k.InTable inodeBitmaps
  | .allocBlock => k.InTable blockBitmaps
  | .releaseInode _ => True

/-- Every scan of a run ends before it reaches a descriptor that is not cached. -/
def ScansStayInTable : List AllocCall → Ledger → Prop
  | [], _ => True
  | c :: cs, L => c.ScansTable L.kernel ∧ ∀ L', c.step L = some L' → ScansStayInTable cs L'

/-- The counters agree with the bitmaps, the inodes that were handed out are inodes of the image, and no
number was handed out twice. -/
structure Ledger.Sound (L : Ledger) : Prop where
  counts : CountsAgree L.kernel
  range : ∀ n ∈ L.inodes, 1 ≤ n ∧ n ≤ L.kernel.sb.totalInodes
  inodes : L.inodes.Nodup
  blocks : L.blocks.Nodup

/-- All calls of a run return, and all states that it reaches are sound. -/
def SoundAlong : List AllocCall → Ledger → Prop
  | [], L => L.Sound
  | c :: cs, L => L.Sound ∧ ∃ L', c.step L = some L' ∧ SoundAlong cs L'

/-! ## One bit -/

variable {k k' : PlainKernel} {u : BitmapUse} {g i : ℕ}

theorem mem_freeBits {bs : ℕ} {bitmap : Bytes} :
    i ∈ freeBits bs bitmap ↔ i < 8 * bs ∧ Bytes.bit bitmap i = false := by
  rw [freeBits, Finset.mem_filter, Finset.mem_range]

/-- A bit that is set is no longer among the clear ones. -/
theorem freeBits_setBit (bs : ℕ) (bitmap : Bytes) (i : ℕ) :
    freeBits bs (setBit bitmap i) = (freeBits bs bitmap).erase i := by
  ext j
  rw [Finset.mem_erase, mem_freeBits, mem_freeBits, bit_setBit, Bool.or_eq_false_iff, decide_eq_false_iff_not]
  tauto

/-- A bit that is cleared is among the clear ones. -/
theorem freeBits_clearBit {bs : ℕ} {bitmap : Bytes} (hi : i < 8 * bs) :
    freeBits bs (clearBit bitmap i) = insert i (freeBits bs bitmap) := by
  ext j
  rw [Finset.mem_insert, mem_freeBits, mem_freeBits, bit_clearBit, Bool.and_eq_false_iff,
    Bool.not_eq_false', decide_eq_true_eq]
  constructor
  · rintro ⟨hj, hbit | rfl⟩
    · exact .inr ⟨hj, hbit⟩
    · exact .inl rfl
  · rintro (rfl | ⟨hj, hbit⟩)
    · exact ⟨hi, .inr rfl⟩
    · exact ⟨hj, .inl hbit⟩

theorem freeBits_trunc (bs : ℕ) (bitmap : Bytes) : freeBits bs (trunc bs bitmap) = freeBits bs bitmap := by
  ext j
  rw [mem_freeBits, mem_freeBits]
  refine and_congr_right fun hj => ?_
  rw [bit_trunc _ (by omega)]

/-- The tables of a descriptor say where its bitmaps are. -/
theorem bitmap_congr {d d' : GroupDesc} (h : d.SameTables d') (u : BitmapUse) :
    u.kind.bitmap d = u.kind.bitmap d' := by
  cases u with
  | inodes => exact h.2.1
  | blocks => exact h.1

/-- A bitmap with its counter is written: the other ones keep their values. -/
structure Rewritten (k k' : PlainKernel) (u : BitmapUse) (g : ℕ) (data : Bytes) (d : GroupDesc) : Prop where
  sb : k'.sb = k.sb
  bgdt : k'.bgdt = Function.update k.bgdt g d
  blk : k'.blk = Function.update k.blk (k.bitmapBlock u g) data
  tables : d.SameTables (k.bgdt g)
  others : ∀ u' : BitmapUse, u' ≠ u → u'.free d = u'.free (k.bgdt g)

namespace Rewritten

variable {data : Bytes} {d : GroupDesc}

theorem bitmapBlock (h : Rewritten k k' u g data d) (u' : BitmapUse) (g' : ℕ) :
    k'.bitmapBlock u' g' = k.bitmapBlock u' g' := by
  unfold Kernel.bitmapBlock
  rw [h.bgdt]
  by_cases hg : g' = g
  · rw [hg, Function.update_self, bitmap_congr h.tables]
  · rw [Function.update_of_ne hg]

/-- Another bitmap keeps its bits. -/
theorem blk_of_ne (h : Rewritten k k' u g data d) (hk : CountedImage k) (hg : g < k.sb.realGroups)
    {u' : BitmapUse} {g' : ℕ} (hg' : g' < k.sb.realGroups) (hne : ¬(u' = u ∧ g' = g)) :
    k'.blk (k.bitmapBlock u' g') = k.blk (k.bitmapBlock u' g') := by
  rw [h.blk, Function.update_of_ne fun heq => hne (hk.distinct u' u g' hg' g hg heq)]

/-- Another counter keeps its value. -/
theorem free_of_ne (h : Rewritten k k' u g data d) {u' : BitmapUse} {g' : ℕ}
    (hne : ¬(u' = u ∧ g' = g)) : u'.free (k'.bgdt g') = u'.free (k.bgdt g') := by
  rw [h.bgdt]
  by_cases hg : g' = g
  · rw [hg, Function.update_self]
    exact h.others u' fun hu => hne ⟨hu, hg⟩
  · rw [Function.update_of_ne hg]

/-- The image stays valid if the padding stays set and the new counter is that of the new bitmap. -/
theorem countedImage (h : Rewritten k k' u g data d) (hk : CountedImage k) (hg : g < k.sb.realGroups)
    (hpad : ∀ i < 8 * k.sb.blockSize, u.Padding k.sb g i → Bytes.bit data i = true)
    (hlt : u.free d < 65536) (hcount : u.free d = (freeBits k.sb.blockSize data).card) :
    CountedImage k' := by
  have hself : k'.blk (k.bitmapBlock u g) = data := by rw [h.blk, Function.update_self]
  have hfree : u.free (k'.bgdt g) = u.free d := by rw [h.bgdt, Function.update_self]
  have hblock := h.bitmapBlock
  constructor
  case counts =>
    intro u' g' hg'
    rw [h.sb] at hg' ⊢
    rw [hblock]
    by_cases hsame : u' = u ∧ g' = g
    · obtain ⟨rfl, rfl⟩ := hsame
      rw [hself, hfree, hcount]
    · rw [h.blk_of_ne hk hg hg' hsame, h.free_of_ne hsame, hk.counts u' g' hg']
  case padded =>
    intro u' g' hg' i hi hpadding
    rw [h.sb] at hg' hi hpadding
    rw [hblock]
    by_cases hsame : u' = u ∧ g' = g
    · obtain ⟨rfl, rfl⟩ := hsame
      rw [hself]
      exact hpad i hi hpadding
    · rw [h.blk_of_ne hk hg hg' hsame]
      exact hk.padded u' g' hg' i hi hpadding
  case counter_lt =>
    intro u' g'
    by_cases hsame : u' = u ∧ g' = g
    · obtain ⟨rfl, rfl⟩ := hsame
      rw [hfree]
      exact hlt
    · rw [h.free_of_ne hsame]
      exact hk.counter_lt u' g'
  all_goals simp only [h.sb, hblock]
  · exact hk.groups_le
  · exact hk.cached
  · exact hk.totalInodes
  · exact hk.totalInodes_lt
  · exact hk.inodesPerGroup_pos
  · exact hk.inodesPerGroup_le
  · exact hk.inodesPerGroup_lt
  · exact hk.blocksPerGroup_pos
  · exact hk.totalBlocks_lt
  · exact hk.unused
  · exact hk.present
  · exact hk.distinct

end Rewritten

/-! ## Allocations -/

/-- A clear bit that an allocator finds is one of the image. -/
theorem CountedImage.clearBit_spec (hk : CountedImage k) (hg : g < k.sb.cachedDescs)
    (hi : i ∈ k.clearBits u.kind g) :
    g < k.sb.realGroups ∧ i ∈ u.kind.bits k.sb g ∧ i < 8 * k.sb.blockSize ∧
      Bytes.bit (k.blk (k.bitmapBlock u g)) i = false ∧ ¬ u.Padding k.sb g i := by
  obtain ⟨hne, hbits, hclear⟩ := mem_clearBits hi
  have hreal : g < k.sb.realGroups := by
    by_contra hge
    exact hne (hk.unused u g hg (not_lt.mp hge))
  have hlt : i < 8 * k.sb.blockSize := by
    have hbyte := (BitmapKind.bits_lt hbits).2
    omega
  refine ⟨hreal, hbits, hlt, hclear, fun hpad => ?_⟩
  have hset := hk.padded u g hreal i hlt hpad
  rw [bitmapBlock, hclear] at hset
  cases hset

theorem take_inodes (d : GroupDesc) : BitmapUse.inodes.kind.take d =
    { d with freeInodesCount := (d.freeInodesCount + 65535) % 65536 } := rfl

theorem take_blocks (d : GroupDesc) : BitmapUse.blocks.kind.take d =
    { d with freeBlocksCount := (d.freeBlocksCount + 65535) % 65536 } := rfl

theorem rewritten_takeBit (c : ℕ) (hbits : i ∈ u.kind.bits k.sb g) :
    Rewritten k ((k.takeBit u.kind g i).popHeap c) u g (setBit (k.blk (k.bitmapBlock u g)) i)
      (u.kind.take (k.bgdt g)) where
  sb := takeBit_sb u.kind k g i
  bgdt := takeBit_bgdt u.kind k g i
  blk := takeBit_blk u.kind k hbits
  tables := by
    cases u with
    | inodes =>
      rw [take_inodes]
      exact ⟨rfl, rfl, rfl⟩
    | blocks =>
      rw [take_blocks]
      exact ⟨rfl, rfl, rfl⟩
  others u' hne := by
    cases u with
    | inodes =>
      cases u' with
      | inodes => exact absurd rfl hne
      | blocks => rw [take_inodes, BitmapUse.free, BitmapUse.free]
    | blocks =>
      cases u' with
      | inodes => rw [take_blocks, BitmapUse.free, BitmapUse.free]
      | blocks => exact absurd rfl hne

theorem free_take (u : BitmapUse) (d : GroupDesc) : u.free (u.kind.take d) = (u.free d + 65535) % 65536 := by
  cases u
  · rw [take_inodes, BitmapUse.free, BitmapUse.free]
  · rw [take_blocks, BitmapUse.free, BitmapUse.free]

/-- A taken bit is counted. -/
theorem CountedImage.takeBit (hk : CountedImage k) (c : ℕ) (hg : g < k.sb.cachedDescs)
    (hi : i ∈ k.clearBits u.kind g) : CountedImage ((k.takeBit u.kind g i).popHeap c) := by
  obtain ⟨hreal, hbits, hlt, hclear, -⟩ := hk.clearBit_spec hg hi
  have hmem : i ∈ freeBits k.sb.blockSize (k.blk (k.bitmapBlock u g)) := mem_freeBits.mpr ⟨hlt, hclear⟩
  have hcount := hk.counts u g hreal
  have hpos := Finset.card_pos.mpr ⟨i, hmem⟩
  have h16 := hk.counter_lt u g
  refine (rewritten_takeBit c hbits).countedImage hk hreal (fun j hj hpad => ?_) ?_ ?_
  · rw [bit_setBit, hk.padded u g hreal j hj hpad, Bool.true_or]
  · rw [free_take]
    exact Nat.mod_lt _ (by decide)
  · rw [free_take, freeBits_setBit, Finset.card_erase_of_mem hmem]
    omega

/-! ## Releases -/

/-- The descriptor with one free inode more -/
def oneMoreInode (d : GroupDesc) : GroupDesc := { d with freeInodesCount := (d.freeInodesCount + 1) % 65536 }

/-- The bit of an allocated inode -/
theorem CountedImage.inode_place {n : ℕ} (hk : CountedImage k) (hn : AllocatedInode k n) :
    k.sb.inodeGroup n < k.sb.realGroups ∧ (n - 1) % k.sb.inodesPerGroup < k.sb.inodesPerGroup := by
  obtain ⟨hpos, hle, -⟩ := hn
  refine ⟨?_, Nat.mod_lt _ hk.inodesPerGroup_pos⟩
  rw [hk.totalInodes] at hle
  exact Nat.div_lt_of_lt_mul (by rw [Nat.mul_comm]; omega)

/-- What a release does, if there is memory for the bitmap: it clears the bit and counts it. -/
theorem exec_ext2ReleaseInode {n : ℕ} (hk : CountedImage k) (hn : AllocatedInode k n) :
    ∃ k', (ext2ReleaseInode n).exec k = some ((), k') ∧ (k' = k.popHeap 1 ∨
      Rewritten k k' .inodes (k.sb.inodeGroup n)
        (clearBit (k.blk (k.bitmapBlock .inodes (k.sb.inodeGroup n))) ((n - 1) % k.sb.inodesPerGroup))
        (oneMoreInode (k.bgdt (k.sb.inodeGroup n)))) := by
  obtain ⟨hgroup, hmod⟩ := hk.inode_place hn
  have hpos := hn.1
  have hcached : k.sb.inodeGroup n < k.sb.cachedDescs := hgroup.trans_le hk.cached
  have hbyte : (n - 1) % k.sb.inodesPerGroup / 8 < k.sb.blockSize := by
    have hmax := hk.inodesPerGroup_le
    omega
  have hpresent := hk.present .inodes _ hgroup
  have hgdesc : (groupDesc ((n - 1) / k.sb.inodesPerGroup)).exec k =
      some (k.bgdt (k.sb.inodeGroup n), k) := by
    rw [exec_groupDesc]
    exact if_pos hcached
  unfold ext2ReleaseInode
  rw [if_neg (by omega), exec_bind, exec_superblock, Option.bind_some, exec_bind]
  dsimp only
  rw [hgdesc, Option.bind_some, exec_ite,
    if_neg (show ¬(k.bgdt (k.sb.inodeGroup n)).inodeBitmap = 0 from hpresent), exec_bind, exec_kmalloc,
    Option.bind_some]
  cases hmem : k.heap 0 with
  | false => exact ⟨_, rfl, .inl rfl⟩
  | true =>
    dsimp only
    rw [if_pos rfl, exec_bind, exec_ext2ReadBlock, Option.bind_some, exec_bind, exec_ext2WriteBlock,
      Option.bind_some, exec_setGroupDesc (by exact hcached)]
    refine ⟨_, rfl, .inr ?_⟩
    constructor
    case sb => rw [setDesc_sb, setBlk_sb, popHeap_sb]
    case bgdt =>
      rw [setDesc_bgdt, setBlk_bgdt, popHeap_bgdt]
      rfl
    case blk =>
      rw [setDesc_blk, setBlk_blk, popHeap_blk, popHeap_sb, trunc_clearBit hbyte, trunc_blk]
      rfl
    case tables => simp [GroupDesc.SameTables, oneMoreInode]
    case others =>
      intro u' hne
      cases u' with
      | inodes => exact absurd rfl hne
      | blocks => simp [BitmapUse.free, oneMoreInode]

/-- A cleared bit is counted. -/
theorem Rewritten.countedImage_release {n : ℕ} (hk : CountedImage k) (hn : AllocatedInode k n)
    (h : Rewritten k k' .inodes (k.sb.inodeGroup n)
      (clearBit (k.blk (k.bitmapBlock .inodes (k.sb.inodeGroup n))) ((n - 1) % k.sb.inodesPerGroup))
      (oneMoreInode (k.bgdt (k.sb.inodeGroup n)))) : CountedImage k' := by
  obtain ⟨hgroup, hmod⟩ := hk.inode_place hn
  obtain ⟨-, -, hbit⟩ := hn
  generalize (n - 1) % k.sb.inodesPerGroup = i at *
  generalize k.sb.inodeGroup n = g at *
  have hmax := hk.inodesPerGroup_le
  have hi : i < 8 * k.sb.blockSize := by omega
  have hnot : i ∉ freeBits k.sb.blockSize (k.blk (k.bitmapBlock .inodes g)) := fun hmem => by
    rw [(mem_freeBits.mp hmem).2] at hbit
    cases hbit
  have hcard := Finset.card_insert_of_notMem hnot
  -- all clear bits, the new one among them, stand for inodes of the group
  have hsub : insert i (freeBits k.sb.blockSize (k.blk (k.bitmapBlock .inodes g))) ⊆
      Finset.range k.sb.inodesPerGroup := by
    intro j hj
    rw [Finset.mem_range]
    rcases Finset.mem_insert.mp hj with rfl | hj
    · exact hmod
    · obtain ⟨hlt, hclear⟩ := mem_freeBits.mp hj
      by_contra hge
      have hset := hk.padded .inodes g hgroup j hlt (not_lt.mp hge)
      rw [hclear] at hset
      cases hset
  have hle := Finset.card_le_card hsub
  have hcount := hk.counts .inodes g hgroup
  have h16 := hk.inodesPerGroup_lt
  change (k.bgdt g).freeInodesCount = _ at hcount
  rw [Finset.card_range] at hle
  refine h.countedImage hk hgroup (fun j hj hpad => ?_) (Nat.mod_lt _ (by decide)) ?_
  · have hne : j ≠ i := by
      rintro rfl
      exact absurd hmod (not_lt.mpr hpad)
    rw [bit_clearBit, hk.padded .inodes g hgroup j hj hpad, decide_eq_false hne]
    rfl
  · rw [freeBits_clearBit hi, hcard]
    change ((k.bgdt g).freeInodesCount + 1) % 65536 = _
    omega

/-! ## The ledger -/

/-- The bit of a block, as the allocator numbers them, is set. -/
def AllocatedBlock (k : PlainKernel) (b : ℕ) : Prop :=
  b / k.sb.blocksPerGroup < k.sb.realGroups ∧
    Bytes.bit (k.blk (k.bitmapBlock .blocks (b / k.sb.blocksPerGroup))) (b % k.sb.blocksPerGroup) = true

/-- What is handed out is put down once, and its bit is set. -/
structure Ledger.Booked (L : Ledger) : Prop where
  image : CountedImage L.kernel
  inodes : L.inodes.Nodup
  blocks : L.blocks.Nodup
  allocatedInodes : ∀ n ∈ L.inodes, AllocatedInode L.kernel n
  allocatedBlocks : ∀ b ∈ L.blocks, AllocatedBlock L.kernel b

theorem Ledger.Booked.sound {L : Ledger} (h : L.Booked) : L.Sound :=
  ⟨h.image.counts, fun n hn => ⟨(h.allocatedInodes n hn).1, (h.allocatedInodes n hn).2.1⟩, h.inodes, h.blocks⟩

/-- The numbers of two bits of the inode bitmaps -/
theorem CountedImage.number_inodes (hk : CountedImage k) (hg : g < k.sb.cachedDescs)
    (hi : i ∈ k.clearBits inodeBitmaps g) :
    ∃ n, inodeBitmaps.number k.sb g i = n ∧ 1 ≤ n ∧ n ≤ k.sb.totalInodes ∧ k.sb.inodeGroup n = g ∧
      (n - 1) % k.sb.inodesPerGroup = i := by
  obtain ⟨hreal, -, -, -, hpad⟩ := hk.clearBit_spec (u := .inodes) hg hi
  have hlt : i < k.sb.inodesPerGroup := not_le.mp hpad
  have hmul : (g + 1) * k.sb.inodesPerGroup ≤ k.sb.realGroups * k.sb.inodesPerGroup :=
    Nat.mul_le_mul_right _ hreal
  rw [Nat.add_mul, Nat.one_mul, ← hk.totalInodes] at hmul
  have h32 := hk.totalInodes_lt
  have hnumber : inodeBitmaps.number k.sb g i = g * k.sb.inodesPerGroup + i + 1 := Nat.mod_eq_of_lt (by omega)
  refine ⟨_, hnumber, by omega, by omega, ?_, ?_⟩
  · unfold Superblock.inodeGroup
    rw [Nat.add_sub_cancel, Nat.mul_comm, Nat.mul_add_div hk.inodesPerGroup_pos, Nat.div_eq_of_lt hlt,
      Nat.add_zero]
  · rw [Nat.add_sub_cancel, Nat.mul_comm, Nat.mul_add_mod, Nat.mod_eq_of_lt hlt]

theorem CountedImage.number_blocks (hk : CountedImage k) (hg : g < k.sb.cachedDescs)
    (hi : i ∈ k.clearBits blockBitmaps g) :
    ∃ b, blockBitmaps.number k.sb g i = b ∧ b / k.sb.blocksPerGroup = g ∧ b % k.sb.blocksPerGroup = i := by
  obtain ⟨hreal, -, -, -, hpad⟩ := hk.clearBit_spec (u := .blocks) hg hi
  obtain ⟨hlt, hin⟩ := not_or.mp hpad
  have h32 := hk.totalBlocks_lt
  have hnumber : blockBitmaps.number k.sb g i = g * k.sb.blocksPerGroup + i := Nat.mod_eq_of_lt (by omega)
  refine ⟨_, hnumber, ?_, ?_⟩
  · rw [Nat.mul_comm, Nat.mul_add_div hk.blocksPerGroup_pos, Nat.div_eq_of_lt (not_le.mp hlt), Nat.add_zero]
  · rw [Nat.mul_comm, Nat.mul_add_mod, Nat.mod_eq_of_lt (not_le.mp hlt)]

/-- A bit that is set stays set, if the rewritten bitmap keeps it. -/
theorem Rewritten.bit_of_bit {data : Bytes} {d : GroupDesc} (h : Rewritten k k' u g data d)
    (hk : CountedImage k) (hg : g < k.sb.realGroups) {u' : BitmapUse} {g' j : ℕ}
    (hg' : g' < k.sb.realGroups) (hset : Bytes.bit (k.blk (k.bitmapBlock u' g')) j = true)
    (hkeep : u' = u → g' = g → Bytes.bit data j = true) :
    Bytes.bit (k'.blk (k'.bitmapBlock u' g')) j = true := by
  rw [h.bitmapBlock]
  by_cases hsame : u' = u ∧ g' = g
  · obtain ⟨rfl, rfl⟩ := hsame
    rw [h.blk, Function.update_self]
    exact hkeep rfl rfl
  · rw [h.blk_of_ne hk hg hg' hsame]
    exact hset

/-- A bit that is set in a bitmap is set. -/
theorem Rewritten.bit_self {b : Bytes} {d : GroupDesc} (h : Rewritten k k' u g (setBit b i) d) :
    Bytes.bit (k'.blk (k'.bitmapBlock u g)) i = true := by
  rw [h.bitmapBlock, h.blk, Function.update_self, bit_setBit, decide_eq_true rfl, Bool.or_true]

theorem Rewritten.allocatedInode_of_bit {data : Bytes} {d : GroupDesc} (h : Rewritten k k' u g data d) {n : ℕ}
    (hpos : 1 ≤ n) (hle : n ≤ k.sb.totalInodes)
    (hbit : Bytes.bit (k'.blk (k'.bitmapBlock .inodes (k.sb.inodeGroup n))) ((n - 1) % k.sb.inodesPerGroup) =
      true) : AllocatedInode k' n := by
  refine ⟨hpos, by rw [h.sb]; exact hle, ?_⟩
  rw [h.sb]
  exact hbit

theorem Rewritten.allocatedBlock_of_bit {data : Bytes} {d : GroupDesc} (h : Rewritten k k' u g data d) {b : ℕ}
    (hgroup : b / k.sb.blocksPerGroup < k.sb.realGroups)
    (hbit : Bytes.bit (k'.blk (k'.bitmapBlock .blocks (b / k.sb.blocksPerGroup))) (b % k.sb.blocksPerGroup) =
      true) : AllocatedBlock k' b := by
  refine ⟨by rw [h.sb]; exact hgroup, ?_⟩
  rw [h.sb]
  exact hbit

/-- An allocated inode stays allocated, if the rewritten bitmap keeps its bit. -/
theorem Rewritten.allocatedInode {data : Bytes} {d : GroupDesc} (h : Rewritten k k' u g data d)
    (hk : CountedImage k) (hg : g < k.sb.realGroups) {n : ℕ} (hn : AllocatedInode k n)
    (hkeep : u = .inodes → k.sb.inodeGroup n = g →
      Bytes.bit data ((n - 1) % k.sb.inodesPerGroup) = true) : AllocatedInode k' n := by
  obtain ⟨hgroup, -⟩ := hk.inode_place hn
  obtain ⟨hpos, hle, hbit⟩ := hn
  exact h.allocatedInode_of_bit hpos hle (h.bit_of_bit hk hg hgroup hbit fun hu => hkeep hu.symm)

/-- An allocated block stays allocated, if the rewritten bitmap keeps its bit. -/
theorem Rewritten.allocatedBlock {data : Bytes} {d : GroupDesc} (h : Rewritten k k' u g data d)
    (hk : CountedImage k) (hg : g < k.sb.realGroups) {b : ℕ} (hb : AllocatedBlock k b)
    (hkeep : u = .blocks → b / k.sb.blocksPerGroup = g →
      Bytes.bit data (b % k.sb.blocksPerGroup) = true) : AllocatedBlock k' b := by
  obtain ⟨hgroup, hbit⟩ := hb
  exact h.allocatedBlock_of_bit hgroup (h.bit_of_bit hk hg hgroup hbit fun hu => hkeep hu.symm)

/-- Calls of `kmalloc` do not show in the image. -/
theorem CountedImage.popHeap (hk : CountedImage k) (c : ℕ) : CountedImage (k.popHeap c) :=
  ⟨hk.groups_le, hk.cached, hk.totalInodes, hk.totalInodes_lt, hk.inodesPerGroup_pos, hk.inodesPerGroup_le,
    hk.inodesPerGroup_lt, hk.blocksPerGroup_pos, hk.totalBlocks_lt, hk.unused, hk.present, hk.distinct,
    hk.padded, hk.counter_lt, hk.counts⟩

theorem Ledger.Booked.popHeap {L : Ledger} (h : L.Booked) (c : ℕ) :
    Ledger.Booked { L with kernel := L.kernel.popHeap c } :=
  ⟨h.image.popHeap c, h.inodes, h.blocks, h.allocatedInodes, h.allocatedBlocks⟩

/-- Taking a clear bit keeps what is handed out. -/
theorem Ledger.Booked.takeBit {L : Ledger} (h : L.Booked) (c : ℕ) (hg : g < L.kernel.sb.cachedDescs)
    (hi : i ∈ L.kernel.clearBits u.kind g) :
    Ledger.Booked { L with kernel := (L.kernel.takeBit u.kind g i).popHeap c } := by
  obtain ⟨hreal, hbits, -, -, -⟩ := h.image.clearBit_spec hg hi
  have hwritten := rewritten_takeBit c hbits
  refine ⟨h.image.takeBit c hg hi, h.inodes, h.blocks, fun n hn => ?_, fun b hb => ?_⟩
  · have hn' := h.allocatedInodes n hn
    refine hwritten.allocatedInode h.image hreal hn' fun hu hgroup => ?_
    subst hu
    rw [bit_setBit, ← hgroup, hn'.2.2, Bool.true_or]
  · have hb' := h.allocatedBlocks b hb
    refine hwritten.allocatedBlock h.image hreal hb' fun hu hgroup => ?_
    subst hu
    rw [bit_setBit, ← hgroup, hb'.2, Bool.true_or]

/-- A number that is put down is a new one. -/
theorem nodup_putDown {n : ℕ} {ns : List ℕ} (hns : ns.Nodup) (hn : n ∉ ns) : (putDown n ns).Nodup := by
  unfold putDown
  split
  · exact hns
  · exact List.nodup_cons.mpr ⟨hn, hns⟩

theorem mem_putDown {m n : ℕ} {ns : List ℕ} (h : m ∈ putDown n ns) : m = n ∨ m ∈ ns := by
  unfold putDown at h
  split at h
  · exact .inr h
  · exact List.mem_cons.mp h

/-! ## One call -/

variable {L : Ledger}

/-- An inode that is handed out is new, and its bit is set. -/
theorem Ledger.Booked.takeInode (h : L.Booked) (c : ℕ) (hg : g < L.kernel.sb.cachedDescs)
    (hi : i ∈ L.kernel.clearBits inodeBitmaps g) :
    Ledger.Booked { L with
      kernel := (L.kernel.takeBit inodeBitmaps g i).popHeap c
      inodes := putDown (inodeBitmaps.number L.kernel.sb g i) L.inodes } := by
  have hnext := h.takeBit (u := .inodes) c hg hi
  obtain ⟨hreal, hbits, -, hclear, -⟩ := h.image.clearBit_spec (u := .inodes) hg hi
  obtain ⟨n, hnumber, hpos, hle, hgroup, hmod⟩ := h.image.number_inodes hg hi
  rw [hnumber]
  have hnew : n ∉ L.inodes := fun hmem => by
    have hset := (h.allocatedInodes n hmem).2.2
    rw [hgroup, hmod, hclear] at hset
    cases hset
  refine ⟨hnext.image, nodup_putDown h.inodes hnew, h.blocks, fun m hm => ?_, hnext.allocatedBlocks⟩
  rcases mem_putDown hm with rfl | hm
  · have hwritten := rewritten_takeBit (u := .inodes) c hbits
    refine hwritten.allocatedInode_of_bit hpos hle ?_
    rw [hgroup, hmod]
    exact hwritten.bit_self
  · exact hnext.allocatedInodes m hm

/-- A block that is handed out is new, and its bit is set. -/
theorem Ledger.Booked.takeBlock (h : L.Booked) (c : ℕ) (hg : g < L.kernel.sb.cachedDescs)
    (hi : i ∈ L.kernel.clearBits blockBitmaps g) :
    Ledger.Booked { L with
      kernel := (L.kernel.takeBit blockBitmaps g i).popHeap c
      blocks := putDown (blockBitmaps.number L.kernel.sb g i) L.blocks } := by
  have hnext := h.takeBit (u := .blocks) c hg hi
  obtain ⟨hreal, hbits, -, hclear, -⟩ := h.image.clearBit_spec (u := .blocks) hg hi
  obtain ⟨b, hnumber, hgroup, hmod⟩ := h.image.number_blocks hg hi
  rw [hnumber]
  have hnew : b ∉ L.blocks := fun hmem => by
    have hset := (h.allocatedBlocks b hmem).2
    rw [hgroup, hmod, hclear] at hset
    cases hset
  refine ⟨hnext.image, h.inodes, nodup_putDown h.blocks hnew, hnext.allocatedInodes, fun m hm => ?_⟩
  rcases mem_putDown hm with rfl | hm
  · have hwritten := rewritten_takeBit (u := .blocks) c hbits
    refine hwritten.allocatedBlock_of_bit (by rw [hgroup]; exact hreal) ?_
    rw [hgroup, hmod]
    exact hwritten.bit_self
  · exact hnext.allocatedBlocks m hm

/-- A released inode is given up; all others keep their bits. -/
theorem Ledger.Booked.release (h : L.Booked) {n : ℕ} (hn : AllocatedInode L.kernel n)
    (hwritten : Rewritten L.kernel k' .inodes (L.kernel.sb.inodeGroup n)
      (clearBit (L.kernel.blk (L.kernel.bitmapBlock .inodes (L.kernel.sb.inodeGroup n)))
        ((n - 1) % L.kernel.sb.inodesPerGroup))
      (oneMoreInode (L.kernel.bgdt (L.kernel.sb.inodeGroup n)))) :
    Ledger.Booked { L with kernel := k', inodes := L.inodes.erase n } := by
  obtain ⟨hgroup, -⟩ := h.image.inode_place hn
  refine ⟨hwritten.countedImage_release h.image hn, h.inodes.erase n, h.blocks, fun m hm => ?_, fun b hb => ?_⟩
  · obtain ⟨hne, hmem⟩ := (List.Nodup.mem_erase_iff h.inodes).mp hm
    have hm' := h.allocatedInodes m hmem
    refine hwritten.allocatedInode h.image hgroup hm' fun _ hsame => ?_
    -- two inodes of one group have different bits
    have hbit : (m - 1) % L.kernel.sb.inodesPerGroup ≠ (n - 1) % L.kernel.sb.inodesPerGroup := by
      intro heq
      refine hne ?_
      have hdiv : (m - 1) / L.kernel.sb.inodesPerGroup = (n - 1) / L.kernel.sb.inodesPerGroup := hsame
      have hm'' := Nat.div_add_mod (m - 1) L.kernel.sb.inodesPerGroup
      have hn'' := Nat.div_add_mod (n - 1) L.kernel.sb.inodesPerGroup
      rw [hdiv, heq] at hm''
      have hpos := hm'.1
      have hpos' := hn.1
      omega
    rw [bit_clearBit, decide_eq_false hbit, ← hsame, hm'.2.2]
    rfl
  · have hb' := h.allocatedBlocks b hb
    exact hwritten.allocatedBlock h.image hgroup hb' fun hu => absurd hu (by decide)

/-- A call returns exactly if its scan stays in the table, and keeps the ledger booked. -/
theorem Ledger.Booked.step (h : L.Booked) (c : AllocCall)
    (hc : ∀ n, c = .releaseInode n → AllocatedInode L.kernel n) :
    (¬ c.ScansTable L.kernel ∧ c.step L = none) ∨
      c.ScansTable L.kernel ∧ ∃ L', c.step L = some L' ∧ L'.Booked ∧ L'.kernel.sb = L.kernel.sb := by
  cases c with
  | allocInode =>
    rcases exec_alloc_outcome inodeBitmaps L.kernel with
      ⟨hno, hnone⟩ | ⟨hin, ⟨c, hzero⟩ | ⟨g, i, c, -, hg, hi, htake⟩⟩
    · exact .inl ⟨hno, congrArg (Option.map _) hnone⟩
    · exact .inr ⟨hin, _, congrArg (Option.map _) hzero, h.popHeap c, rfl⟩
    · exact .inr ⟨hin, _, congrArg (Option.map _) htake, h.takeInode c hg hi, takeBit_sb _ _ g i⟩
  | allocBlock =>
    rcases exec_alloc_outcome blockBitmaps L.kernel with
      ⟨hno, hnone⟩ | ⟨hin, ⟨c, hzero⟩ | ⟨g, i, c, -, hg, hi, htake⟩⟩
    · exact .inl ⟨hno, congrArg (Option.map _) hnone⟩
    · exact .inr ⟨hin, _, congrArg (Option.map _) hzero, h.popHeap c, rfl⟩
    · exact .inr ⟨hin, _, congrArg (Option.map _) htake, h.takeBlock c hg hi, takeBit_sb _ _ g i⟩
  | releaseInode n =>
    have hn := hc n rfl
    obtain ⟨k', hexec, rfl | hwritten⟩ := exec_ext2ReleaseInode h.image hn
    · -- the bit stays set
      have hbooked : Ledger.Booked { L with kernel := L.kernel.popHeap 1, inodes := L.inodes.erase n } :=
        ⟨h.image.popHeap 1, h.inodes.erase n, h.blocks,
          fun m hm => h.allocatedInodes m (List.mem_of_mem_erase hm), h.allocatedBlocks⟩
      exact .inr ⟨trivial, _, congrArg (Option.map _) hexec, hbooked, rfl⟩
    · exact .inr ⟨trivial, _, congrArg (Option.map _) hexec, h.release hn hwritten, hwritten.sb⟩

/-! ## Runs -/

/-- A booked ledger stays sound along a run exactly if the scans of the run stay in the table. -/
theorem Ledger.Booked.soundAlong_iff (h : L.Booked) {calls : List AllocCall} (hlawful : Lawful calls L) :
    SoundAlong calls L ↔ ScansStayInTable calls L := by
  induction calls generalizing L with
  | nil => exact ⟨fun _ => trivial, fun _ => h.sound⟩
  | cons c calls ih =>
    obtain ⟨hc, hrest⟩ := hlawful
    unfold SoundAlong ScansStayInTable
    rcases h.step c hc with ⟨hno, hnone⟩ | ⟨hscan, L', hstep, hL', -⟩
    · refine ⟨fun ⟨_, L', hstep, _⟩ => ?_, fun hscan => absurd hscan.1 hno⟩
      rw [hnone] at hstep
      cases hstep
    · have hiff := ih hL' (hrest L' hstep)
      constructor
      · rintro ⟨-, L₂, hstep₂, hsound⟩
        rw [hstep] at hstep₂
        obtain rfl := Option.some.inj hstep₂
        refine ⟨hscan, fun L₃ hstep₃ => ?_⟩
        rw [hstep] at hstep₃
        obtain rfl := Option.some.inj hstep₃
        exact hiff.mp hsound
      · rintro ⟨-, hnext⟩
        exact ⟨h.sound, L', hstep, hiff.mpr (hnext L' hstep)⟩

/-- No scan of a run leaves the table where all groups that the allocators count are cached. -/
theorem Ledger.Booked.scansStayInTable (h : L.Booked) {calls : List AllocCall} (hlawful : Lawful calls L)
    (hscanned : L.kernel.sb.scanned ≤ L.kernel.sb.cachedDescs) : ScansStayInTable calls L := by
  induction calls generalizing L with
  | nil => exact trivial
  | cons c calls ih =>
    obtain ⟨hc, hrest⟩ := hlawful
    have hin : ∀ K, L.kernel.InTable K := fun K g hg hout =>
      absurd (hg.trans_le hscanned) (not_lt.mpr hout)
    have hscan : c.ScansTable L.kernel := by
      cases c with
      | allocInode => exact hin inodeBitmaps
      | allocBlock => exact hin blockBitmaps
      | releaseInode n => exact trivial
    refine ⟨hscan, fun L' hstep => ?_⟩
    rcases h.step c hc with ⟨hno, -⟩ | ⟨-, L₂, hstep₂, hL₂, hsb⟩
    · exact absurd hscan hno
    · rw [hstep] at hstep₂
      obtain rfl := Option.some.inj hstep₂
      exact ih hL₂ (hrest L' hstep) (by rw [hsb]; exact hscanned)

/-- A ledger of a valid image in which nothing has been handed out -/
theorem CountedImage.booked {k : PlainKernel} (hk : CountedImage k) : Ledger.Booked ⟨k, [], []⟩ := by
  refine ⟨hk, List.nodup_nil, List.nodup_nil, ?_, ?_⟩
  · exact fun n hn => absurd hn List.not_mem_nil
  · exact fun b hb => absurd hb List.not_mem_nil

/-- An image of `n` groups of 16 inodes and 8 blocks from block `fdb`, all of them in use -/
def fullGroups (n fdb : ℕ) : PlainKernel :=
  let sb : Superblock :=
    { totalInodes := n * 16, totalBlocks := fdb + n * 8, firstDataBlock := fdb, blockSizeShift := 0,
      blocksPerGroup := 8, inodesPerGroup := 16, magicSignature := ext2Signature, majorVersion := 1,
      firstInode := 11, inodeSize := 128 }
  let desc : ℕ → GroupDesc := fun g =>
    { blockBitmap := 2 * g + 3, inodeBitmap := 2 * g + 4, inodeTable := 2 * n + 3 + 2 * g,
      freeBlocksCount := 0, freeInodesCount := 0 }
  Kernel.oneDrive
    { name := str "hda", present := true, sb,
      bgdtCache := fun g => if g < n then desc g else GroupDesc.ofBytes zeros 0 }
    fun _ _ => 255

theorem fullGroups_counted {n fdb : ℕ} (hpos : 1 ≤ n) (hn : n ≤ 32) (hfdb : fdb ≤ 1) :
    CountedImage (fullGroups n fdb) := by
  have hgroups : (fullGroups n fdb).sb.realGroups = n := by
    change (fdb + n * 8 - fdb + 8 - 1) / 8 = n
    omega
  have hdesc : ∀ g < n, (fullGroups n fdb).bgdt g =
      { blockBitmap := 2 * g + 3, inodeBitmap := 2 * g + 4, inodeTable := 2 * n + 3 + 2 * g,
        freeBlocksCount := 0, freeInodesCount := 0 } := fun g hg => if_pos hg
  have hrest : ∀ g, n ≤ g → (fullGroups n fdb).bgdt g = GroupDesc.ofBytes zeros 0 := fun g hg =>
    if_neg (not_lt.mpr hg)
  have hset : ∀ b i, i < 8 * 1024 → Bytes.bit ((fullGroups n fdb).blk b) i = true := by
    intro b i hi
    have hall : ∀ x < 8, (255 : UInt8).toNat.testBit x = true := by decide
    exact (bit_trunc (fun _ => 255) (by change i / 8 < 1024; omega)).trans
      (hall (i % 8) (Nat.mod_lt _ (by decide)))
  have hfree : ∀ (u : BitmapUse) g, u.free ((fullGroups n fdb).bgdt g) = 0 := by
    intro u g
    by_cases hg : g < n
    · rw [hdesc g hg]
      cases u <;> rfl
    · rw [hrest g (not_lt.mp hg)]
      cases u <;> decide
  have hblock : ∀ u, ∀ g < n, (fullGroups n fdb).bitmapBlock u g =
      2 * g + (if u = .inodes then 4 else 3) := by
    intro u g hg
    unfold Kernel.bitmapBlock
    rw [hdesc g hg]
    cases u <;> rfl
  constructor
  case groups_le => omega
  case cached =>
    rw [hgroups]
    change n ≤ 1024 / 32
    omega
  case totalInodes =>
    rw [hgroups]
    rfl
  case totalInodes_lt =>
    change n * 16 < 2 ^ 32
    omega
  case inodesPerGroup_pos => exact (by decide : 0 < 16)
  case inodesPerGroup_le => exact (by decide : 16 ≤ 8 * 1024)
  case inodesPerGroup_lt => exact (by decide : 16 < 65536)
  case blocksPerGroup_pos => exact (by decide : 0 < 8)
  case totalBlocks_lt =>
    change fdb + n * 8 < 2 ^ 32
    omega
  case unused =>
    intro u g _ hg
    rw [hgroups] at hg
    unfold Kernel.bitmapBlock
    rw [hrest g hg]
    cases u <;> decide
  case present =>
    intro u g hg
    rw [hgroups] at hg
    rw [hblock u g hg]
    split
    · omega
    · omega
  case distinct =>
    intro u u' g hg g' hg' heq
    rw [hgroups] at hg hg'
    rw [hblock u g hg, hblock u' g' hg'] at heq
    cases u <;> cases u' <;> simp at heq ⊢ <;> omega
  case padded => exact fun u g _ i hi _ => hset _ i hi
  case counter_lt =>
    intro u g
    rw [hfree]
    decide
  case counts =>
    intro u g _
    rw [hfree]
    symm
    rw [Finset.card_eq_zero]
    refine Finset.eq_empty_of_forall_notMem fun i hi => ?_
    obtain ⟨hlt, hclear⟩ := mem_freeBits.mp hi
    rw [hset _ i hlt] at hclear
    cases hclear

end Sandflea
