import Sandflea.Ext2.FreeBlocks

/-!
# The inode table

`ext2_get_inode` and `ext2_write_inode`. Where an inode lies is `inodePlace`; what is read back after
a write is what was written (`loadInode_storeInode`), and an inode in another place is not touched
(`loadInode_storeInode_of_disjoint`).
-/

namespace Sandflea

open Bytes Kern Kernel

/-- The bytes of an inode on the disk. -/
def Superblock.diskInodeSize (sb : Superblock) : ℕ := if 1 ≤ sb.majorVersion then sb.inodeSize else 128

/-- `copy_size`, the bytes of an inode that the driver reads and writes. -/
def Superblock.copySize (sb : Superblock) : ℕ := min sb.diskInodeSize inodeBytes

/-- The group of an inode. -/
def Superblock.inodeGroup (sb : Superblock) (inodeNo : ℕ) : ℕ := (inodeNo - 1) / sb.inodesPerGroup

/-- The offset of an inode in the inode table of its group. -/
def Superblock.inodeOffset (sb : Superblock) (inodeNo : ℕ) : ℕ :=
  (inodeNo - 1) % sb.inodesPerGroup * sb.diskInodeSize % 2 ^ 32

/-- `final_block` and `offset_in_block`: where an inode lies, given the inode table of its group. -/
def inodePlace (sb : Superblock) (inodeTable inodeNo : ℕ) : ℕ × ℕ :=
  ((inodeTable + sb.inodeOffset inodeNo / sb.blockSize) % 2 ^ 32,
    sb.inodeOffset inodeNo % sb.blockSize)

/-- `ext2_get_inode` into a buffer that held `out`; `none` is a null pointer. -/
def ext2GetInode (inodeNo : ℕ) (out : Inode) : Kern (Option Inode) := do
  let sb ← superblock
  if inodeNo = 0 ∨ sb.totalInodes < inodeNo then pure none
  else do
    let bd ← groupDesc (sb.inodeGroup inodeNo)
    let place := inodePlace sb bd.inodeTable inodeNo
    let mem ← kmalloc sb.blockSize
    if mem then do
      let buf ← ext2ReadBlock place.1
      pure (some (Inode.ofBytes (copyInto out.raw 0 buf place.2 sb.copySize)))
    else fault

/-- `ext2_write_inode` -/
def ext2WriteInode (inodeNo : ℕ) (inode : Inode) : Kern Unit := do
  let sb ← superblock
  if inodeNo = 0 ∨ sb.totalInodes < inodeNo then pure ()
  else do
    let bd ← groupDesc (sb.inodeGroup inodeNo)
    let place := inodePlace sb bd.inodeTable inodeNo
    let mem ← kmalloc sb.blockSize
    if mem then do
      let buf ← ext2ReadBlock place.1
      ext2WriteBlock place.1 (copyInto buf place.2 inode.raw 0 sb.copySize)
    else pure ()

/-! ## Reading what was written -/

variable {k : PlainKernel} {n : ℕ}

/-- The place of an inode on the active drive. -/
def Kernel.place (k : PlainKernel) (n : ℕ) : ℕ × ℕ :=
  inodePlace k.sb (k.bgdt (k.sb.inodeGroup n)).inodeTable n

/-- The inode on the active drive. -/
def Kernel.loadInode (k : PlainKernel) (n : ℕ) : Inode :=
  Inode.ofBytes fun i => k.blk (k.place n).1 ((k.place n).2 + i)

/-- The active drive with another inode. -/
def Kernel.storeInode (k : PlainKernel) (n : ℕ) (x : Inode) : PlainKernel :=
  k.setBlk (k.place n).1 (copyInto (k.blk (k.place n).1) (k.place n).2 x.raw 0 inodeBytes)

/-- An inode that the driver can read: its number is in range, its descriptor is cached, and its
record of at least 128 bytes does not cross a block. -/
structure ValidInode (k : PlainKernel) (n : ℕ) : Prop where
  ne_zero : n ≠ 0
  le : n ≤ k.sb.totalInodes
  cached : k.sb.inodeGroup n < k.sb.cachedDescs
  size : inodeBytes ≤ k.sb.diskInodeSize
  fits : (k.place n).2 + inodeBytes ≤ k.sb.blockSize

theorem ValidInode.copySize (h : ValidInode k n) : k.sb.copySize = inodeBytes :=
  min_eq_right h.size

theorem ValidInode.inRange (h : ValidInode k n) : ¬ (n = 0 ∨ k.sb.totalInodes < n) := by
  have := h.ne_zero
  have := h.le
  omega

/-- A read of an inode, if there is memory for the block. -/
theorem exec_ext2GetInode_of_heap (hk : k.heap 0 = true) (h : ValidInode k n) (out : Inode) :
    (ext2GetInode n out).exec k = some (some (k.loadInode n), k.popHeap 1) := by
  simp only [ext2GetInode, exec_bind, exec_superblock, Option.bind_some, if_neg h.inRange,
    exec_groupDesc, if_pos h.cached, exec_kmalloc, hk, if_true, exec_ext2ReadBlock,
    exec_pure, h.copySize]
  congr 3
  refine Inode.ofBytes_congr fun i hi => ?_
  rw [copyInto_of_mem (Nat.zero_le _) (by omega), Nat.sub_zero]
  rfl

/-- A write of an inode, if there is memory for the block. -/
theorem exec_ext2WriteInode_of_heap (hk : k.heap 0 = true) (h : ValidInode k n) (x : Inode) :
    (ext2WriteInode n x).exec k = some ((), (k.popHeap 1).storeInode n x) := by
  simp only [ext2WriteInode, exec_bind, exec_superblock, Option.bind_some, if_neg h.inRange,
    exec_groupDesc, if_pos h.cached, exec_kmalloc, hk, if_true, exec_ext2ReadBlock,
    exec_ext2WriteBlock, h.copySize]
  rfl

/-- Without memory for the block a read of an inode goes through a null pointer. -/
theorem exec_ext2GetInode_of_no_heap (hk : k.heap 0 = false) (hrange : ¬(n = 0 ∨ k.sb.totalInodes < n))
    (hcached : k.sb.inodeGroup n < k.sb.cachedDescs) (out : Inode) : (ext2GetInode n out).exec k = none := by
  simp only [ext2GetInode, exec_bind, exec_superblock, Option.bind_some, if_neg hrange, exec_groupDesc,
    if_pos hcached, exec_kmalloc, hk, Bool.false_eq_true, if_false, exec_fault]

/-- Without memory for the block a write of an inode does nothing. -/
theorem exec_ext2WriteInode_of_no_heap (hk : k.heap 0 = false) (h : ValidInode k n) (x : Inode) :
    (ext2WriteInode n x).exec k = some ((), k.popHeap 1) := by
  simp only [ext2WriteInode, exec_bind, exec_superblock, Option.bind_some, if_neg h.inRange, exec_groupDesc,
    if_pos h.cached, exec_kmalloc, hk, Bool.false_eq_true, if_false, exec_pure]

theorem exec_ext2GetInode (hk : k.HeapOk) (h : ValidInode k n) (out : Inode) :
    (ext2GetInode n out).exec k = some (some (k.loadInode n), k) := by
  rw [exec_ext2GetInode_of_heap (hk 0) h, hk.popHeap]

theorem exec_ext2WriteInode (hk : k.HeapOk) (h : ValidInode k n) (x : Inode) :
    (ext2WriteInode n x).exec k = some ((), k.storeInode n x) := by
  rw [exec_ext2WriteInode_of_heap (hk 0) h, hk.popHeap]

theorem storeInode_blk (x : Inode) : (k.storeInode n x).blk = Function.update k.blk (k.place n).1
    (trunc k.sb.blockSize
      (copyInto (k.blk (k.place n).1) (k.place n).2 x.raw 0 inodeBytes)) :=
  setBlk_blk _ _ _

/-- Storing the inode that is there changes no block. -/
theorem storeInode_loadInode (k : PlainKernel) (n : ℕ) : (k.storeInode n (k.loadInode n)).blk = k.blk := by
  rw [storeInode_blk]
  refine Function.update_eq_self_iff.mpr (funext fun i => ?_)
  unfold trunc
  split
  · by_cases hmem : (k.place n).2 ≤ i ∧ i < (k.place n).2 + inodeBytes
    · have hlt : 0 + (i - (k.place n).2) < inodeBytes := by omega
      rw [copyInto_of_mem hmem.1 hmem.2]
      refine (trunc_of_lt (fun j => k.blk (k.place n).1 ((k.place n).2 + j)) hlt).trans ?_
      exact congrArg (k.blk (k.place n).1) (by omega)
    · rw [copyInto_of_not_mem hmem]
  · next hi =>
    rw [blk, trunc, if_neg hi]

/-- The place of an inode does not depend on the contents of the blocks. -/
theorem Kernel.DiskOnly.place {k' : PlainKernel} (h : DiskOnly k k') (n : ℕ) : k'.place n = k.place n := by
  rw [Kernel.place, Kernel.place, h.sb, (h.tables _).2.2]

theorem diskOnly_storeInode (k : PlainKernel) (n : ℕ) (x : Inode) : DiskOnly k (k.storeInode n x) :=
  diskOnly_setBlk _ _ _

/-- Reading back the inode that was written. -/
theorem loadInode_storeInode (hfits : (k.place n).2 + inodeBytes ≤ k.sb.blockSize) (x : Inode) :
    (k.storeInode n x).loadInode n = x := by
  rw [loadInode, DiskOnly.place (diskOnly_storeInode k n x), storeInode_blk, Function.update_self,
    ← Inode.ofBytes_raw x]
  refine Inode.ofBytes_congr fun i hi => ?_
  rw [trunc_of_lt _ (by omega), copyInto_of_mem (by omega) (by omega), Inode.ofBytes_raw]
  congr 1
  omega

/-- An inode in another place is not touched. -/
theorem loadInode_storeInode_of_disjoint {m : ℕ} (x : Inode)
    (hfits : (k.place m).2 + inodeBytes ≤ k.sb.blockSize)
    (h : (k.place m).1 ≠ (k.place n).1 ∨ (k.place m).2 + inodeBytes ≤ (k.place n).2 ∨
      (k.place n).2 + inodeBytes ≤ (k.place m).2) :
    (k.storeInode n x).loadInode m = k.loadInode m := by
  rw [loadInode, loadInode, DiskOnly.place (diskOnly_storeInode k n x), storeInode_blk]
  refine Inode.ofBytes_congr fun i hi => ?_
  by_cases hb : (k.place m).1 = (k.place n).1
  · have hdisjoint := h.resolve_left (fun hne => hne hb)
    rw [hb, Function.update_self, trunc_of_lt _ (by omega), copyInto_of_not_mem (by omega)]
  · rw [Function.update_of_ne hb]

/-- An inode depends only on its block. -/
theorem loadInode_congr {k' : PlainKernel} (h : DiskOnly k k')
    (hblk : k'.blk (k.place n).1 = k.blk (k.place n).1) : k'.loadInode n = k.loadInode n := by
  rw [loadInode, loadInode, h.place, hblk]

end Sandflea
