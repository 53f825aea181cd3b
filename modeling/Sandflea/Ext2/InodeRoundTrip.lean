import Sandflea.Ext2.Image
import Sandflea.Ext2.InodeTable

/-!
# The inode table of a whole image

An image has an inode table in each group, with the records one after the other. `inode_round_trip` says exactly
when the driver reads back what it wrote for every inode, leaves the others and every byte outside the record
alone, and stays in the descriptors that it has cached: when the descriptors of all groups are in the one block
that a mount caches, the offset of no record wraps around, and there is memory for the block.
-/

namespace Sandflea

open Bytes Kern Kernel

/-- The blocks of the inode table of a group -/
def Superblock.inodeTableBlocks (sb : Superblock) : ℕ :=
  (sb.inodesPerGroup * sb.diskInodeSize + sb.blockSize - 1) / sb.blockSize

/-- The group of the last inode -/
def Superblock.lastInodeGroup (sb : Superblock) : ℕ := sb.inodeGroup sb.totalInodes

/-- The last index that an inode has in its group -/
def Superblock.lastInodeIndex (sb : Superblock) : ℕ := min sb.inodesPerGroup sb.totalInodes - 1

/-- What the inode tables of a valid image satisfy. The descriptors are those that are cached. -/
structure ValidInodeTables (k : PlainKernel) : Prop where
  /-- Blocks have 1024 to 65536 bytes. -/
  shift_le : k.sb.blockSizeShift ≤ 6
  inodes_pos : 0 < k.sb.totalInodes
  perGroup_pos : 0 < k.sb.inodesPerGroup
  /-- A record has at least the 128 bytes of the driver's inode, and a block has a whole number of records. -/
  size_ge : inodeBytes ≤ k.sb.diskInodeSize
  size_dvd : k.sb.diskInodeSize ∣ k.sb.blockSize
  /-- The table of a group is in the image. -/
  fits : ∀ g ≤ k.sb.lastInodeGroup, g < k.sb.cachedDescs →
    (k.bgdt g).inodeTable + k.sb.inodeTableBlocks ≤ k.sb.totalBlocks
  /-- Block numbers are 32-bit. -/
  totalBlocks_lt : k.sb.totalBlocks < 2 ^ 32
  /-- The tables of two groups do not overlap. -/
  apart : ∀ g ≤ k.sb.lastInodeGroup, ∀ g' ≤ k.sb.lastInodeGroup, g < k.sb.cachedDescs →
    g' < k.sb.cachedDescs → g ≠ g' →
    (k.bgdt g).inodeTable + k.sb.inodeTableBlocks ≤ (k.bgdt g').inodeTable ∨
      (k.bgdt g').inodeTable + k.sb.inodeTableBlocks ≤ (k.bgdt g).inodeTable

/-- Where the record of an inode is in the image: its block, and its offset there -/
def Kernel.recordOf (k : PlainKernel) (n : ℕ) : ℕ × ℕ :=
  let offset := (n - 1) % k.sb.inodesPerGroup * k.sb.diskInodeSize
  ((k.bgdt (k.sb.inodeGroup n)).inodeTable + offset / k.sb.blockSize, offset % k.sb.blockSize)

/-- A byte of a block is one of the 128 bytes of an inode. -/
def Kernel.InRecord (k : PlainKernel) (n b o : ℕ) : Prop :=
  b = (k.recordOf n).1 ∧ (k.recordOf n).2 ≤ o ∧ o < (k.recordOf n).2 + inodeBytes

/-- Write inode `i` and read inode `j`: the read gives what was written if it is the same inode, and what it gave
before if it is another; no byte outside the record of `i` changes, and the descriptor of `i` is a cached one. -/
def InodeLaw (k : PlainKernel) (i j : ℕ) (x out : Inode) : Prop :=
  ∃ before k₁ k₂ k₃, (ext2GetInode j out).exec k = some (some before, k₁) ∧
    (ext2WriteInode i x).exec k = some ((), k₂) ∧
    (ext2GetInode j out).exec k₂ = some (some (if j = i then x else before), k₃) ∧
    (∀ b, ∀ o < k.sb.blockSize, ¬k.InRecord i b o → k₂.blk b o = k.blk b o) ∧
    k.sb.inodeGroup i < k.sb.cachedDescs

/-- The descriptors of all groups are cached, no offset in a table wraps around, and the next two calls of `kmalloc`
find memory. -/
structure TablesInReach (k : PlainKernel) : Prop where
  heap : k.heap 0 = true ∧ k.heap 1 = true
  cached : k.sb.lastInodeGroup < k.sb.cachedDescs
  offset : k.sb.lastInodeIndex * k.sb.diskInodeSize < 2 ^ 32

/-! ## Places -/

variable {k : PlainKernel} {i j n : ℕ}

namespace ValidInodeTables

theorem blockSize_dvd (hv : ValidInodeTables k) : k.sb.blockSize ∣ 2 ^ 32 := by
  have hshift := hv.shift_le
  unfold Superblock.blockSize
  rw [show 1024 = 2 ^ 10 by norm_num, ← pow_add]
  exact pow_dvd_pow 2 (by omega)

theorem group_le (hn : n ≤ k.sb.totalInodes) : k.sb.inodeGroup n ≤ k.sb.lastInodeGroup :=
  Nat.div_le_div_right (by omega)

theorem index_le (hv : ValidInodeTables k) (hn : n ≤ k.sb.totalInodes) :
    (n - 1) % k.sb.inodesPerGroup ≤ k.sb.lastInodeIndex := by
  have hlt := Nat.mod_lt (n - 1) hv.perGroup_pos
  have hle := Nat.mod_le (n - 1) k.sb.inodesPerGroup
  unfold Superblock.lastInodeIndex
  omega

/-- A record is in the table of its group. -/
theorem block_lt (hv : ValidInodeTables k) (m : ℕ) :
    m % k.sb.inodesPerGroup * k.sb.diskInodeSize / k.sb.blockSize < k.sb.inodeTableBlocks := by
  have hpos := k.sb.blockSize_pos
  have hlt := Nat.mod_lt m hv.perGroup_pos
  have hsize := hv.size_ge
  have hmul : (m % k.sb.inodesPerGroup + 1) * k.sb.diskInodeSize ≤
      k.sb.inodesPerGroup * k.sb.diskInodeSize := Nat.mul_le_mul_right _ hlt
  rw [Nat.add_mul, Nat.one_mul] at hmul
  unfold Superblock.inodeTableBlocks
  rw [Nat.lt_div_iff_mul_lt hpos]
  have hdiv := Nat.div_mul_le_self (m % k.sb.inodesPerGroup * k.sb.diskInodeSize) k.sb.blockSize
  unfold inodeBytes at hsize
  omega

/-- A record does not cross the end of its block. -/
theorem offset_fits (hv : ValidInodeTables k) (m : ℕ) :
    m * k.sb.diskInodeSize % k.sb.blockSize + k.sb.diskInodeSize ≤ k.sb.blockSize := by
  have hpos := k.sb.blockSize_pos
  obtain ⟨q, hq⟩ := hv.size_dvd
  have hsize : 0 < k.sb.diskInodeSize := Nat.lt_of_lt_of_le (by decide) hv.size_ge
  have hqpos : 0 < q := by
    rcases Nat.eq_zero_or_pos q with h0 | h0
    · rw [h0, Nat.mul_zero] at hq
      omega
    · exact h0
  rw [hq, Nat.mul_comm m, Nat.mul_mod_mul_left]
  have hlt := Nat.mod_lt m hqpos
  calc k.sb.diskInodeSize * (m % q) + k.sb.diskInodeSize
      = k.sb.diskInodeSize * (m % q + 1) := by ring
    _ ≤ k.sb.diskInodeSize * q := Nat.mul_le_mul_left _ hlt

/-- The driver finds a record in its place, if its offset does not wrap around. -/
theorem place_eq (hv : ValidInodeTables k) (hn : n ≤ k.sb.totalInodes)
    (hcached : k.sb.inodeGroup n < k.sb.cachedDescs)
    (hoff : (n - 1) % k.sb.inodesPerGroup * k.sb.diskInodeSize < 2 ^ 32) : k.place n = k.recordOf n := by
  have hblock := hv.block_lt (n - 1)
  have hfits := hv.fits _ (group_le hn) hcached
  have htotal := hv.totalBlocks_lt
  unfold Kernel.place inodePlace Superblock.inodeOffset Kernel.recordOf
  rw [Nat.mod_eq_of_lt hoff, Nat.mod_eq_of_lt (by omega)]

theorem validInode (hv : ValidInodeTables k) (h : TablesInReach k) (hpos : 1 ≤ n)
    (hn : n ≤ k.sb.totalInodes) : ValidInode k n ∧ k.place n = k.recordOf n := by
  have hcached : k.sb.inodeGroup n < k.sb.cachedDescs := (group_le hn).trans_lt h.cached
  have hoff : (n - 1) % k.sb.inodesPerGroup * k.sb.diskInodeSize < 2 ^ 32 :=
    (Nat.mul_le_mul_right _ (hv.index_le hn)).trans_lt h.offset
  have hplace := hv.place_eq hn hcached hoff
  refine ⟨⟨by omega, hn, hcached, hv.size_ge, ?_⟩, hplace⟩
  rw [hplace]
  exact (Nat.add_le_add_left hv.size_ge _).trans (hv.offset_fits _)

/-- The records of two inodes are apart. -/
theorem records_apart (hv : ValidInodeTables k) (h : TablesInReach k) (hi : 1 ≤ i) (hj : 1 ≤ j)
    (hi' : i ≤ k.sb.totalInodes) (hj' : j ≤ k.sb.totalInodes) (hne : j ≠ i) :
    (k.recordOf j).1 ≠ (k.recordOf i).1 ∨ (k.recordOf j).2 + inodeBytes ≤ (k.recordOf i).2 ∨
      (k.recordOf i).2 + inodeBytes ≤ (k.recordOf j).2 := by
  have hblock := hv.block_lt (i - 1)
  have hblock' := hv.block_lt (j - 1)
  by_cases hg : k.sb.inodeGroup j = k.sb.inodeGroup i
  · -- In one table the offsets differ by a record at least.
    have hidx : (j - 1) % k.sb.inodesPerGroup ≠ (i - 1) % k.sb.inodesPerGroup := by
      intro heq
      have h₁ := Nat.div_add_mod (i - 1) k.sb.inodesPerGroup
      have h₂ := Nat.div_add_mod (j - 1) k.sb.inodesPerGroup
      have hg : (j - 1) / k.sb.inodesPerGroup = (i - 1) / k.sb.inodesPerGroup := hg
      rw [heq, hg] at h₂
      omega
    have hstep : ∀ {a b : ℕ}, a < b → a * k.sb.diskInodeSize + inodeBytes ≤ b * k.sb.diskInodeSize := by
      intro a b hab
      calc a * k.sb.diskInodeSize + inodeBytes ≤ a * k.sb.diskInodeSize + k.sb.diskInodeSize :=
            Nat.add_le_add_left hv.size_ge _
        _ = (a + 1) * k.sb.diskInodeSize := by ring
        _ ≤ b * k.sb.diskInodeSize := Nat.mul_le_mul_right _ hab
    unfold Kernel.recordOf
    dsimp only
    rw [hg]
    have d₁ := Nat.div_add_mod ((i - 1) % k.sb.inodesPerGroup * k.sb.diskInodeSize) k.sb.blockSize
    have d₂ := Nat.div_add_mod ((j - 1) % k.sb.inodesPerGroup * k.sb.diskInodeSize) k.sb.blockSize
    by_cases hsame : (j - 1) % k.sb.inodesPerGroup * k.sb.diskInodeSize / k.sb.blockSize =
        (i - 1) % k.sb.inodesPerGroup * k.sb.diskInodeSize / k.sb.blockSize
    · rw [hsame] at d₂
      rcases Nat.lt_or_gt_of_ne hidx with hlt | hgt
      · have := hstep hlt
        exact .inr (.inl (by omega))
      · have := hstep hgt
        exact .inr (.inr (by omega))
    · exact .inl (by omega)
  · refine .inl ?_
    have hapart := hv.apart _ (group_le hj') _ (group_le hi') ((group_le hj').trans_lt h.cached)
      ((group_le hi').trans_lt h.cached) hg
    unfold Kernel.recordOf
    dsimp only
    generalize (i - 1) % k.sb.inodesPerGroup * k.sb.diskInodeSize / k.sb.blockSize = a at hblock ⊢
    generalize (j - 1) % k.sb.inodesPerGroup * k.sb.diskInodeSize / k.sb.blockSize = b at hblock' ⊢
    omega

end ValidInodeTables

/-! ## The law -/

theorem inodeLaw_of_inReach (hv : ValidInodeTables k) (h : TablesInReach k) (hi : 1 ≤ i) (hj : 1 ≤ j)
    (hi' : i ≤ k.sb.totalInodes) (hj' : j ≤ k.sb.totalInodes) (x out : Inode) : InodeLaw k i j x out := by
  obtain ⟨hvi, hplace⟩ := hv.validInode h hi hi'
  obtain ⟨hvj, hplace'⟩ := hv.validInode h hj hj'
  obtain ⟨hheap₀, hheap₁⟩ := h.heap
  have hdisk := diskOnly_storeInode (k.popHeap 1) i x
  have hplace₂ : ∀ m, ((k.popHeap 1).storeInode i x).place m = k.place m := fun m => hdisk.place m
  have hvj₂ : ValidInode ((k.popHeap 1).storeInode i x) j :=
    ⟨hvj.ne_zero, by rw [hdisk.sb]; exact hvj.le, by rw [hdisk.sb]; exact hvj.cached,
      by rw [hdisk.sb]; exact hvj.size, by rw [hplace₂, hdisk.sb]; exact hvj.fits⟩
  have hheap₂ : ((k.popHeap 1).storeInode i x).heap 0 = true := hheap₁
  refine ⟨k.loadInode j, k.popHeap 1, (k.popHeap 1).storeInode i x,
    ((k.popHeap 1).storeInode i x).popHeap 1, exec_ext2GetInode_of_heap hheap₀ hvj out,
    exec_ext2WriteInode_of_heap hheap₀ hvi x, ?_, ?_, hvi.cached⟩
  · rw [exec_ext2GetInode_of_heap hheap₂ hvj₂ out]
    by_cases hji : j = i
    · subst hji
      have hstore : ((k.popHeap 1).storeInode j x).loadInode j = x := loadInode_storeInode hvj.fits x
      rw [hstore, if_pos rfl]
    · have hapart := hv.records_apart h hi hj hi' hj' hji
      rw [← hplace, ← hplace'] at hapart
      have hsame : ((k.popHeap 1).storeInode i x).loadInode j = k.loadInode j :=
        loadInode_storeInode_of_disjoint (k := k.popHeap 1) x hvj.fits hapart
      rw [hsame, if_neg hji]
  · intro b o ho hnot
    rw [storeInode_blk]
    show Function.update k.blk (k.place i).1 _ b o = _
    by_cases hb : b = (k.place i).1
    · rw [hb, Function.update_self, popHeap_sb, trunc_of_lt _ ho, copyInto_of_not_mem]
      · rfl
      · intro hmem
        refine hnot ?_
        unfold Kernel.InRecord
        rw [← hplace]
        exact ⟨hb, hmem⟩
    · rw [Function.update_of_ne hb]

/-- An inode is in a cached group, and what the driver takes for its place is in one block, even if its offset has
wrapped around. -/
theorem validInode_of_cached (hv : ValidInodeTables k) (hpos : 1 ≤ n) (hn : n ≤ k.sb.totalInodes)
    (hcached : k.sb.inodeGroup n < k.sb.cachedDescs) :
    ValidInode k n ∧ (k.place n).2 = (k.recordOf n).2 := by
  have hoff : (k.place n).2 = (k.recordOf n).2 := Nat.mod_mod_of_dvd _ hv.blockSize_dvd
  refine ⟨⟨by omega, hn, hcached, hv.size_ge, ?_⟩, hoff⟩
  rw [hoff]
  exact (Nat.add_le_add_left hv.size_ge _).trans (hv.offset_fits _)

/-- If the offset of a record wraps around, a write goes to another block. -/
theorem not_inodeLaw_of_wrap (hv : ValidInodeTables k) (hpos : 1 ≤ n) (hn : n ≤ k.sb.totalInodes)
    (hcached : k.sb.inodeGroup n < k.sb.cachedDescs) (hheap : k.heap 0 = true)
    (hwrap : 2 ^ 32 ≤ (n - 1) % k.sb.inodesPerGroup * k.sb.diskInodeSize) :
    ∃ x, ∀ out, ¬InodeLaw k n n x out := by
  obtain ⟨hvn, hoff⟩ := validInode_of_cached hv hpos hn hcached
  have hfits := hvn.fits
  have hblock : (k.place n).1 ≠ (k.recordOf n).1 := by
    have htable := hv.fits _ (ValidInodeTables.group_le hn) hcached
    have htotal := hv.totalBlocks_lt
    have hrec := hv.block_lt (n - 1)
    have hle : (n - 1) % k.sb.inodesPerGroup * k.sb.diskInodeSize % 2 ^ 32 / k.sb.blockSize ≤
        (n - 1) % k.sb.inodesPerGroup * k.sb.diskInodeSize / k.sb.blockSize :=
      Nat.div_le_div_right (Nat.mod_le _ _)
    intro heq
    unfold Kernel.place inodePlace Superblock.inodeOffset Kernel.recordOf at heq
    dsimp only at heq
    rw [Nat.mod_eq_of_lt (by omega)] at heq
    have hdiv := Nat.add_left_cancel heq
    -- Block and offset would be those of the offset itself.
    have hmod := Nat.mod_mod_of_dvd ((n - 1) % k.sb.inodesPerGroup * k.sb.diskInodeSize) hv.blockSize_dvd
    have d₁ := Nat.div_add_mod ((n - 1) % k.sb.inodesPerGroup * k.sb.diskInodeSize) k.sb.blockSize
    have d₂ := Nat.div_add_mod ((n - 1) % k.sb.inodesPerGroup * k.sb.diskInodeSize % 2 ^ 32)
      k.sb.blockSize
    rw [hdiv, hmod, d₁] at d₂
    have hlt := Nat.mod_lt ((n - 1) % k.sb.inodesPerGroup * k.sb.diskInodeSize) (by norm_num : 0 < 2 ^ 32)
    omega
  obtain ⟨v, hv'⟩ : ∃ v : UInt8, v ≠ k.blk (k.place n).1 (k.place n).2 := by
    by_cases h0 : k.blk (k.place n).1 (k.place n).2 = 0
    · exact ⟨1, by rw [h0]; decide⟩
    · exact ⟨0, fun h => h0 h.symm⟩
  refine ⟨Inode.ofBytes fun _ => v, fun out hlaw => ?_⟩
  obtain ⟨before, k₁, k₂, k₃, -, hwrite, -, hframe, -⟩ := hlaw
  rw [exec_ext2WriteInode_of_heap hheap hvn, Option.some.injEq, Prod.mk.injEq] at hwrite
  obtain ⟨-, rfl⟩ := hwrite
  have hin : (k.place n).2 < k.sb.blockSize := by
    unfold inodeBytes at hfits
    omega
  have hsame := hframe (k.place n).1 (k.place n).2 hin fun hrec => hblock hrec.1
  rw [storeInode_blk] at hsame
  have hsame : Function.update k.blk (k.place n).1 (trunc k.sb.blockSize
      (copyInto (k.blk (k.place n).1) (k.place n).2 (Inode.ofBytes fun _ => v).raw 0 inodeBytes))
      (k.place n).1 (k.place n).2 = k.blk (k.place n).1 (k.place n).2 := hsame
  rw [Function.update_self, trunc_of_lt _ hin, copyInto_of_mem le_rfl (Nat.lt_add_of_pos_right (by decide))] at hsame
  refine hv' (hsame ▸ ?_)
  rw [Nat.sub_self]
  rfl

/-- Round trip and frame of the inode table. On a valid image every inode can be written and read back, with the
others and every byte outside its record left alone and no descriptor read that is not cached, if and only if the
descriptors of all groups are cached, no offset in a table wraps around and there is memory for the block. -/
theorem inode_round_trip (hv : ValidInodeTables k) :
    (∀ i j, 1 ≤ i → 1 ≤ j → i ≤ k.sb.totalInodes → j ≤ k.sb.totalInodes →
      ∀ x out, InodeLaw k i j x out) ↔ TablesInReach k := by
  constructor
  · intro hlaw
    have hone := hv.inodes_pos
    have hgroup : k.sb.inodeGroup 1 < k.sb.cachedDescs :=
      (hlaw 1 1 le_rfl le_rfl hone hone Inode.zero Inode.zero).choose_spec.choose_spec.choose_spec.choose_spec.2.2.2.2
    have hheap₀ : k.heap 0 = true := by
      obtain ⟨before, k₁, -, -, hget, -⟩ := hlaw 1 1 le_rfl le_rfl hone hone Inode.zero Inode.zero
      by_contra hno
      rw [exec_ext2GetInode_of_no_heap (Bool.eq_false_iff.mpr hno) (by omega) hgroup] at hget
      cases hget
    have hheap₁ : k.heap 1 = true := by
      obtain ⟨before, k₁, k₂, k₃, -, hwrite, hget, -⟩ := hlaw 1 1 le_rfl le_rfl hone hone Inode.zero Inode.zero
      have hv₁ := (validInode_of_cached hv le_rfl hone hgroup).1
      rw [exec_ext2WriteInode_of_heap hheap₀ hv₁, Option.some.injEq, Prod.mk.injEq] at hwrite
      obtain ⟨-, rfl⟩ := hwrite
      have hdisk := diskOnly_storeInode (k.popHeap 1) 1 Inode.zero
      by_contra hno
      rw [exec_ext2GetInode_of_no_heap (k := (k.popHeap 1).storeInode 1 Inode.zero)
        (Bool.eq_false_iff.mpr hno) (by rw [hdisk.sb, popHeap_sb]; omega)
        (by rw [hdisk.sb, popHeap_sb]; exact hgroup)] at hget
      cases hget
    refine ⟨⟨hheap₀, hheap₁⟩, ?_, ?_⟩
    · exact (hlaw _ _ hone hone le_rfl le_rfl Inode.zero
        Inode.zero).choose_spec.choose_spec.choose_spec.choose_spec.2.2.2.2
    · by_contra hwrap
      have hperGroup := hv.perGroup_pos
      have hidx : k.sb.lastInodeIndex + 1 = min k.sb.inodesPerGroup k.sb.totalInodes := by
        unfold Superblock.lastInodeIndex
        omega
      have hmod : (k.sb.lastInodeIndex + 1 - 1) % k.sb.inodesPerGroup = k.sb.lastInodeIndex :=
        Nat.mod_eq_of_lt (by omega)
      have hzero : k.sb.inodeGroup (k.sb.lastInodeIndex + 1) = 0 := Nat.div_eq_of_lt (by omega)
      have hfirst : k.sb.inodeGroup (k.sb.lastInodeIndex + 1) < k.sb.cachedDescs := by
        rw [hzero]
        exact (Nat.zero_le _).trans_lt hgroup
      obtain ⟨x, hx⟩ := not_inodeLaw_of_wrap hv (n := k.sb.lastInodeIndex + 1) (by omega) (by omega) hfirst
        hheap₀ (by rw [hmod]; omega)
      exact hx Inode.zero (hlaw _ _ (by omega) (by omega) (by omega) (by omega) x Inode.zero)
  · intro h i j hi hj hi' hj' x out
    exact inodeLaw_of_inReach hv h hi hj hi' hj' x out

/-- The one group of the sample image has its descriptor in the cache. -/
theorem inode_round_trip_sample :
    let k := Kernel.oneDrive (sampleDrive (str "A")) (blocksOf sampleRoot)
    ValidInodeTables k ∧ ∀ i j, 1 ≤ i → 1 ≤ j → i ≤ 16 → j ≤ 16 → ∀ x out, InodeLaw k i j x out := by
  intro k
  have hv : ValidInodeTables k := by
    have hgroup : ∀ g ≤ k.sb.lastInodeGroup, g = 0 := by
      intro g hg
      have hlast : k.sb.lastInodeGroup = 0 := by decide
      omega
    refine ⟨by decide, by decide, by decide, by decide, by decide, ?_, by decide, ?_⟩
    · intro g hg _
      rw [hgroup g hg]
      decide
    · intro g hg g' hg' _ _ hne
      exact absurd ((hgroup g hg).trans (hgroup g' hg').symm) hne
  exact ⟨hv, (inode_round_trip hv).mpr ⟨⟨rfl, rfl⟩, by decide, by decide⟩⟩

/-- An image of 33 groups of 16 inodes, with blocks of 1024 bytes -/
def manyGroups : PlainKernel :=
  Kernel.oneDrive
    { name := str "A", present := true,
      sb := { sampleSb with
        totalInodes := 528, totalBlocks := 265, firstDataBlock := 1, blockSizeShift := 0, blocksPerGroup := 8 },
      bgdtCache := fun g => { sampleDesc with inodeTable := 5 + 8 * g } }
    fun _ => zeros

/-- The descriptor of the last group is not in the block that a mount caches. -/
theorem last_group_not_cached :
    ValidInodeTables manyGroups ∧ ¬InodeLaw manyGroups 528 528 Inode.zero Inode.zero := by
  have hdescs : manyGroups.sb.cachedDescs = 32 := by decide
  have hblocks : manyGroups.sb.inodeTableBlocks = 2 := by decide
  refine ⟨⟨by decide, by decide, by decide, by decide, by decide, ?_, by decide, ?_⟩, ?_⟩
  · intro g _ hg
    rw [hdescs] at hg
    rw [hblocks]
    show 5 + 8 * g + 2 ≤ 265
    omega
  · intro g _ g' _ _ _ hne
    rw [hblocks]
    show 5 + 8 * g + 2 ≤ 5 + 8 * g' ∨ 5 + 8 * g' + 2 ≤ 5 + 8 * g
    omega
  · rintro ⟨-, -, -, -, -, -, -, -, hcached⟩
    rw [hdescs] at hcached
    exact absurd hcached (by decide)

end Sandflea
