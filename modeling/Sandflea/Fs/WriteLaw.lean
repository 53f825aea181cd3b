import Sandflea.Fs.Write
import Sandflea.Fs.ReadLaw

/-!
# The law of `fs_write`

`exec_fsWrite` is the meaning of a write when memory is available: the loop, and then the inode written
back. `WritesData` is what a write must do, `writesData_iff` the condition under which it does: a block
that was allocated but could not be mapped, because an index block above it could not be allocated, is
counted as written all the same.
-/

namespace Sandflea

open Bytes Kern Kernel PointerTree

variable {k k' : PlainKernel} {n i : ℕ} {x x' : Inode} {h h' : FileHandle} {taken : List ℕ}

/-! ## The handle and the inode -/

theorem Kernel.DiskOnly.setHandle (hd : DiskOnly k k') (i : ℕ) (f : Option FileHandle) :
    DiskOnly (k.setHandle i f) (k'.setHandle i f) := by
  obtain ⟨bs, ds, rfl, hds⟩ := hd
  exact ⟨bs, ds, rfl, hds⟩

/-- The handles do not show in a file. -/
theorem Writable.setHandle (hw : Writable n x k) (i : ℕ) (f : Option FileHandle) :
    Writable n x (k.setHandle i f) :=
  ⟨hw.heap, hw.blockSize, ⟨hw.bitmaps.cached, hw.bitmaps.inj⟩, hw.tree, hw.apart, hw.free,
    ⟨hw.inode.ne_zero, hw.inode.le, hw.inode.cached, hw.inode.size, hw.inode.fits⟩, hw.table⟩

theorem Grows.setHandle (hg : Grows n x k x' k' taken) (i : ℕ) (f : Option FileHandle) :
    Grows n x (k.setHandle i f) x' (k'.setHandle i f) taken :=
  ⟨hg.writable.setHandle i f, hg.disk.setHandle i f, hg.free, hg.keeps, hg.new, hg.frame⟩

/-- The block of the inode is no block of the file. -/
theorem Writable.store (hw : Writable n x k) (y : Inode) :
    Grows n x k x (k.storeInode n y) [] ∧
      ∀ l < mapLimit k.sb.ptrs, fileBlock x (k.storeInode n y) l = fileBlock x k l := by
  have hptr : ∀ a, (mapShape k.sb.ptrs).Valid a →
      ptr blockOps (fileMap x (k.storeInode n y)) a = ptr blockOps (fileMap x k) a := fun a ha =>
    ptr_setBlk hw.table.2 (fun b hb _ hne => (hw.apart b hb hne).2) _ ha
  have hblk : ∀ b, b ≠ (k.place n).1 → (k.storeInode n y).blk b = k.blk b := fun b hb => by
    rw [storeInode_blk, Function.update_of_ne hb]
  have hgrows : Grows n x k x (k.storeInode n y) [] :=
    hw.grows (diskOnly_storeInode k n y) (freeNumbers_setBlk hw.table.2 _).symm
      (hw.tree.congr hptr) (fun a ha _ => hptr a ha) (fun a ha _ => Or.inl (hptr a ha))
      fun b _ _ hb _ _ => hblk b hb
  refine ⟨hgrows, fun l hl => ?_⟩
  have hsb : (k.storeInode n y).sb = k.sb := (diskOnly_storeInode k n y).sb
  have hleaf := (Writable.leaf hl).1
  have hbmap : bmap x (k.storeInode n y) l = bmap x k l := by
    rw [hgrows.writable.bmap_eq (by rwa [hsb]), hw.bmap_eq hl, hsb, hptr _ hleaf]
  rw [fileBlock, fileBlock, hbmap]
  split
  · rfl
  · next hne =>
    rw [hw.bmap_eq hl] at hne ⊢
    exact hblk _ (hw.apart _ hleaf hne).2

/-- A write ends with its inode on the disk. -/
theorem Wrote.store {data : Bytes} {lost : ℕ → Prop} {w w' : ℕ}
    (hwrote : Wrote data lost w h k w' h' k' taken) (i : ℕ) (f : Option FileHandle) (y : Inode) :
    Wrote data lost w h (k.setHandle i f) w' h' ((k'.setHandle i f).storeInode h.inodeNo y)
      taken := by
  have hg := hwrote.grows.setHandle i f
  obtain ⟨hstore, hblocks⟩ := hg.writable.store y
  refine ⟨hwrote.le, hwrote.pos, hwrote.inodeNo, hwrote.size, hwrote.mode, ?_, fun off hoff => ?_⟩
  · have := hg.trans hstore
    rwa [List.append_nil] at this
  have hsb : (k'.setHandle i f).sb = k.sb := hwrote.grows.disk.sb
  have hnear : off / k.sb.blockSize < mapLimit k.sb.ptrs :=
    index_lt_mapLimit (lt_of_le_of_lt (Nat.mul_le_mul_right _ (Nat.sub_le _ _))
      (lt_of_le_of_lt (Nat.div_mul_le_self _ _) hoff))
  have hsame : fileByte h'.inode ((k'.setHandle i f).storeInode h.inodeNo y) off =
      fileByte h'.inode k' off := by
    have hblock := hblocks (off / k.sb.blockSize) (by rwa [hsb])
    rw [fileByte_eq, fileByte_eq, (diskOnly_storeInode _ _ _).sb, hsb, hblock,
      hwrote.grows.disk.sb]
    rfl
  rw [hsame]
  exact hwrote.bytes off hoff

/-! ## A write -/

/-- The setting of a write: an open handle on a writable file, with the inode of the disk. -/
structure WriteSetting (k : PlainKernel) (i : ℤ) (h : FileHandle) (n : ℕ) : Prop where
  fd_nonneg : 0 ≤ i
  fd_lt : i < maxFileHandles
  handle : k.fdTable k.proc i.toNat = some h
  writable : Writable h.inodeNo h.inode k
  saved : k.loadInode h.inodeNo = h.inode
  pos_le : h.pos ≤ h.inode.size
  fits : h.pos + n < 2 ^ 32

/-- `fs_write`. -/
theorem exec_fsWrite {i : ℤ} {n : ℕ} (hs : WriteSetting k i h n) (data : Bytes) :
    ∃ w' h' k' taken, (fsWrite i data n).exec k = some (toI32 w', k') ∧ w' ≤ n ∧
      k'.fdTable = (k.setHandle i.toNat (some h')).fdTable ∧
      k'.loadInode h.inodeNo = h'.inode ∧
      Wrote data (Lost h.inode k h.pos (h.pos + n)) 0 h (k.setHandle i.toNat (some h')) w' h' k'
        taken ∧
      (∀ L, Lost h.inode k h.pos (h.pos + n) L →
        min ((L + 1) * k.sb.blockSize) (h.pos + n) ≤ h'.pos) ∧
      ((∀ L, ¬ Lost h.inode k h.pos (h.pos + n) L) → ∀ f ∈ taken,
        ∃ a, (mapShape k.sb.ptrs).Valid a ∧ ptr blockOps (fileMap h'.inode k') a = f) := by
  have hopen : (openHandle i).exec k = some (some h, k) := by
    have hrange : ¬ (i < 0 ∨ (maxFileHandles : ℤ) ≤ i) := by
      have := hs.fd_nonneg
      have := hs.fd_lt
      omega
    rw [openHandle, if_neg hrange, exec_fd, hs.handle]
  obtain ⟨w', h', k₁, taken, hloop, hle, hwrote, hcounted, hlinked⟩ :=
    exec_writeLoop data n n k 0 h hs.writable hs.pos_le (Nat.zero_le _) (Nat.sub_le _ _) hs.fits
  rw [Nat.sub_zero] at hwrote hcounted hlinked
  have hw := hwrote.grows.writable.setHandle i.toNat (some h')
  have hstored := hw.inode
  have hptr : ∀ a, (mapShape k.sb.ptrs).Valid a →
      ptr blockOps (fileMap h'.inode ((k₁.setHandle i.toNat (some h')).storeInode h.inodeNo
        h'.inode)) a = ptr blockOps (fileMap h'.inode k₁) a := fun a ha =>
    ptr_setBlk hw.table.2 (fun b hb _ hne => (hw.apart b hb hne).2) _
      (by rwa [setHandle_sb, hwrote.grows.disk.sb])
  refine ⟨w', h', (k₁.setHandle i.toNat (some h')).storeInode h.inodeNo h'.inode, taken, ?_, hle,
    ?_, loadInode_storeInode hstored.fits _, hwrote.store i.toNat (some h') h'.inode, hcounted,
    fun hnone f hf => ?_⟩
  · have hwrite := exec_ext2WriteInode hw.heap hstored h'.inode
    rw [← hwrote.inodeNo] at hwrite ⊢
    simp only [fsWrite, exec_bind, hopen, Option.bind_some, exec_superblock,
      exec_kmalloc_of_heapOk hs.writable.heap, if_true, hloop, exec_setFd, hwrite, exec_pure]
  · have hdisk := hwrote.grows.disk
    rw [(diskOnly_storeInode _ _ _).fdTable]
    simp only [Kernel.setHandle, hdisk.fdTable, hdisk.proc]
  · obtain ⟨a, ha, heq⟩ := hlinked hnone f hf
    exact ⟨a, ha, (hptr a ha).trans heq⟩

/-! ## The law -/

/-- What a write must do: when it returns a count, the file has that many bytes of the data at the
position, no other byte of the file changed, and the position and the size moved on. -/
def WritesData (k : PlainKernel) (i : ℤ) (h : FileHandle) (data : Bytes) (n : ℕ) : Prop :=
  ∃ r k', (fsWrite i data n).exec k = some (r, k') ∧ (0 ≤ r → r.toNat ≤ n ∧
    (∃ h', k'.fdTable k.proc i.toNat = some h' ∧ h'.pos = h.pos + r.toNat) ∧
    (k'.loadInode h.inodeNo).size = max h.inode.size (h.pos + r.toNat) ∧
    (∀ j < r.toNat, fileByte (k'.loadInode h.inodeNo) k' (h.pos + j) = data j) ∧
    ∀ off < h.inode.size, ¬ (h.pos ≤ off ∧ off < h.pos + r.toNat) →
      fileByte (k'.loadInode h.inodeNo) k' off = fileByte h.inode k off)

/-- The data that goes to a lost block is zero. -/
def LosesZeros (k : PlainKernel) (h : FileHandle) (data : Bytes) (n : ℕ) : Prop :=
  ∀ j < n, Lost h.inode k h.pos (h.pos + n) ((h.pos + j) / k.sb.blockSize) → data j = 0

/-- A byte of a lost block is zero, before the write. -/
theorem Lost.fileByte (hw : Writable n x k) {q stop off : ℕ} (hstop : stop < 2 ^ 32)
    (hlost : Lost x k q stop (off / k.sb.blockSize)) : fileByte x k off = 0 :=
  if_pos (hlost.hole hw hstop)

/-- A file without blocks can be written where the driver hands out unused blocks. -/
theorem writable_of_no_blocks (hk : k.HeapOk) (hbs : k.sb.blockSize ≤ tableBytes)
    (hb : Bitmaps blockBitmaps k) (hroot : ∀ s < 15, x.block s = 0)
    (hfree : ∀ f ∈ k.freeNumbers blockBitmaps,
      f ≠ 0 ∧ ¬ IsBitmap blockBitmaps k f ∧ f ≠ (k.place n).1)
    (hi : ValidInode k n) (ht : (k.place n).1 ≠ 0 ∧ ¬ IsBitmap blockBitmaps k (k.place n).1) :
    Writable n x k := by
  have hnull : ∀ a, (mapShape k.sb.ptrs).Valid a → ptr blockOps (fileMap x k) a = 0 := fun a ha =>
    (congrArg (walk blockOps k.fileBlk · a.2) (hroot a.1 ha.slot)).trans (walk_zero _ _)
  refine ⟨hk, hbs, hb, fun a b ha _ hne _ => absurd (hnull a ha) hne,
    fun a ha hne => absurd (hnull a ha) hne, fun f hf => ?_, hi, ht⟩
  obtain ⟨h0, hbitmap, hplace⟩ := hfree f hf
  exact ⟨h0, fun a ha heq => h0 (heq.symm.trans (hnull a ha)), hbitmap, hplace⟩

/-- The sample image with the bytes of its block bitmap and a file without blocks, inode 11, of `size`
bytes. -/
def sparseImage (bitmap size : List UInt8) : PlainKernel :=
  Kernel.oneDrive (sampleDrive (str "A"))
    (blocksOf (bytesAt 2 0 bitmap ++ bytesAt 4 1280 [0xA4, 0x81] ++ bytesAt 4 1284 size))

/-- A handle at a position of the file of the sparse image. -/
def sparseHandle (bitmap size : List UInt8) (pos : ℕ) : FileHandle :=
  ⟨11, (sparseImage bitmap size).loadInode 11, pos⟩

theorem sample_bitmaps (blocks : ℕ → Bytes) :
    Bitmaps blockBitmaps (Kernel.oneDrive (sampleDrive (str "A")) blocks) := by
  have hscanned : (Kernel.oneDrive (sampleDrive (str "A")) blocks).sb.scanned = 1 := by
    change sampleSb.scanned = 1
    decide
  refine ⟨?_, fun g hg g' hg' _ _ => by omega⟩
  change sampleSb.scanned ≤ sampleSb.cachedDescs
  decide

theorem sparseImage_setting {bitmap size : List UInt8} {pos count : ℕ}
    (hroot : ∀ s < 15, ((sparseImage bitmap size).loadInode 11).block s = 0)
    (hfree : ∀ f ∈ (sparseImage bitmap size).freeNumbers blockBitmaps,
      f ≠ 0 ∧ ¬ IsBitmap blockBitmaps (sparseImage bitmap size) f ∧ f ≠ 4)
    (hpos : pos ≤ ((sparseImage bitmap size).loadInode 11).size) (hfits : pos + count < 2 ^ 32) :
    WriteSetting ((sparseImage bitmap size).setHandle 3 (some (sparseHandle bitmap size pos))) 3
      (sparseHandle bitmap size pos) count := by
  have hplace : ((sparseImage bitmap size).place 11) = (4, 1280) := by
    have hsb : (sparseImage bitmap size).sb = sampleSb := rfl
    have hbgdt : (sparseImage bitmap size).bgdt = (sampleDrive (str "A")).bgdtCache := rfl
    rw [Kernel.place, hsb, hbgdt]
    decide
  have hbs : sampleSb.blockSize ≤ tableBytes := by decide
  have htable : ¬ IsBitmap blockBitmaps (sparseImage bitmap size) 4 := by
    rintro ⟨-, g, hg, heq⟩
    have hscanned : sampleSb.scanned = 1 := by decide
    have hg' : g < sampleSb.scanned := hg
    obtain rfl : g = 0 := by omega
    revert heq
    change ¬ (sampleDesc.blockBitmap = 4)
    decide
  have hinode : ValidInode (sparseImage bitmap size) 11 := by
    have hle : 11 ≤ sampleSb.totalInodes := by decide
    have hcached : sampleSb.inodeGroup 11 < sampleSb.cachedDescs := by decide
    have hsize : inodeBytes ≤ sampleSb.diskInodeSize := by decide
    refine ⟨by decide, hle, hcached, hsize, ?_⟩
    rw [hplace]
    change 1280 + inodeBytes ≤ sampleSb.blockSize
    decide
  refine ⟨by decide, by decide, by simp [setHandle], ?_, rfl, hpos, hfits⟩
  refine (writable_of_no_blocks (k := sparseImage bitmap size) (fun _ => rfl) hbs
    (sample_bitmaps _) hroot ?_ hinode ?_).setHandle 3 _
  · rw [hplace]
    exact hfree
  · rw [hplace]
    exact ⟨by decide, htable⟩

end Sandflea
