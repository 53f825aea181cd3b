import Sandflea.Lib.Outputs
import Sandflea.Ext2.BlockCache
import Sandflea.Ext2.Commands

/-!
# The block layer over the cache and the drives

`ext2_read_block`, `ext2_read_blocks`, `ext2_write_block`, and the sector writes of `ext2_set_bmap`, over the IDE
drives, the RAM disks, and the block cache. `cached` is the block layer that they make, and `Mirrors` relates its states
to those of `plain`, where a drive is the contents of its blocks.

An access is in order (`InOrder`) if its blocks are on the drive, which for an IDE drive are the blocks within 28 bits
of sectors. What they read is what was written last (`Mirrors.outputs_eq`). The sector writes go past the cache, so
that it also needs a zeroed block not to be cached. The transfers of the IDE drives are taken to succeed.
-/

namespace Sandflea

open Bytes Runs BlockCache

/-- `drive_backend_t` -/
inductive Backend
  | none
  | ide
  | ramdisk
deriving DecidableEq

/-- `drive_t`: what the block layer reads of it -/
structure DriveDev where
  /-- `present` -/
  present : Bool
  /-- `backend` -/
  backend : Backend
  /-- `ide_drive_sel` -/
  ideDriveSel : ℕ
  /-- Whether `ram_base` is not null -/
  ramBase : Bool
  /-- `ram_size` -/
  ramSize : ℕ
  /-- `drive_id` -/
  driveId : ℕ
  /-- `block_size` -/
  blockSize : ℕ

/-- The state of the block layer -/
structure BlockIo where
  /-- The block cache -/
  cache : BlockCache
  /-- The IDE drives, by the value that selects them -/
  ide : ℕ → Bytes
  /-- The RAM disks, by the index of the drive -/
  ram : ℕ → Bytes
  /-- How many commands the IDE drives have been given -/
  commands : ℕ

namespace BlockIo

/-! ## The code -/

/-- The first byte of a sector on the drive: the registers take 28 bits of its number. -/
def sectorAt (lba : ℕ) : ℕ := lba % 2 ^ 28 * 512

/-- `ide_read_sectors` where the drive gives every sector. The count is a byte. -/
def ideReadSectors (io : BlockIo) (sel lba count : ℕ) (out : Bytes) (off : ℕ) : Bytes × BlockIo :=
  (copyInto out off (io.ide sel) (sectorAt lba) (count % 256 * 512), { io with commands := io.commands + 1 })

/-- `ide_write_sectors` where the drive takes every sector -/
def ideWriteSectors (io : BlockIo) (sel lba count : ℕ) (src : Bytes) : BlockIo :=
  { io with
    ide := Function.update io.ide sel (copyInto (io.ide sel) (sectorAt lba) src 0 (count % 256 * 512))
    commands := io.commands + 1 }

/-- The loop of `ext2_read_blocks` over chunks of 255 sectors -/
def readChunks (io : BlockIo) (sel remaining sector : ℕ) (out : Bytes) (off : ℕ) : Bytes × BlockIo :=
  if 0 < remaining then
    let chunk := if 255 < remaining then 255 else remaining
    let (out, io) := io.ideReadSectors sel sector chunk out off
    readChunks io sel (remaining - chunk) ((sector + chunk) % 2 ^ 32) out (off + chunk * 512)
  else (out, io)
termination_by remaining
decreasing_by split <;> omega

section

variable (xxh64 : ℕ → ℕ)

/-- The loop of `ext2_read_blocks` that looks for every block in the cache, up to the first that is not there -/
def lookupRun (ds bs start : ℕ) : ℕ → ℕ → Bytes → BlockCache → Bool × Bytes × BlockCache
  | 0, _, out, c => (true, out, c)
  | n + 1, i, out, c =>
    let (hit, out, c) := c.bcLookup xxh64 ds ((start + i) % 2 ^ 32) bs out (i * bs % 2 ^ 32)
    if hit then lookupRun ds bs start n (i + 1) out c else (false, out, c)

/-- The loop of `ext2_read_blocks` that puts every block into the cache -/
def insertRun (ds bs start : ℕ) (src : Bytes) : ℕ → ℕ → BlockCache → BlockCache
  | 0, _, c => c
  | n + 1, i, c =>
    insertRun ds bs start src n (i + 1) (c.bcInsert xxh64 ds ((start + i) % 2 ^ 32) bs src (i * bs % 2 ^ 32))

variable (drives : ℕ → DriveDev)

/-- `ext2_read_block` with the drive of an index as the active one -/
def ext2ReadBlock (io : BlockIo) (drive bs block : ℕ) (buffer : Bytes) : Bytes × BlockIo :=
  let d := drives drive
  if bs = 0 ∨ !d.present then (buffer, io)
  else if d.backend = .ramdisk then
    let offset := block * bs
    if offset + bs ≤ d.ramSize ∧ d.ramBase then (copyInto buffer 0 (io.ram drive) offset bs, io)
    else (zeroFill buffer 0 bs, io)
  else
    let c := io.cache.start
    let (hit, buffer, c) := c.bcLookup xxh64 d.driveId block bs buffer 0
    if hit then (buffer, { io with cache := c })
    else
      let sectors := bs / 512
      let (buffer, io) :=
        ideReadSectors { io with cache := c } d.ideDriveSel (block * sectors % 2 ^ 32) sectors buffer 0
      (buffer, { io with cache := io.cache.bcInsert xxh64 d.driveId block bs buffer 0 })

/-- `ext2_read_blocks` -/
def ext2ReadBlocks (io : BlockIo) (drive bs start count : ℕ) (buffer : Bytes) : Bytes × BlockIo :=
  let d := drives drive
  if bs = 0 ∨ count = 0 ∨ !d.present then (buffer, io)
  else if count = 1 then io.ext2ReadBlock xxh64 drives drive bs start buffer
  else if d.backend = .ramdisk then
    let offset := start * bs
    let bytes := count * bs
    if offset + bytes ≤ d.ramSize ∧ d.ramBase then (copyInto buffer 0 (io.ram drive) offset bytes, io)
    else (zeroFill buffer 0 bytes, io)
  else
    let c := io.cache.start
    let (allCached, buffer, c) :=
      if c.table.isSome then lookupRun xxh64 d.driveId bs start count 0 buffer c else (false, buffer, c)
    if allCached then (buffer, { io with cache := c })
    else
      let sectors := bs / 512
      let (buffer, io) := readChunks { io with cache := c } d.ideDriveSel (count * sectors % 2 ^ 32)
        (start * sectors % 2 ^ 32) buffer 0
      if io.cache.table.isSome ∧ count ≤ io.cache.cap then
        (buffer, { io with cache := insertRun xxh64 d.driveId bs start buffer count 0 io.cache })
      else (buffer, io)

/-- `ext2_write_block` -/
def ext2WriteBlock (io : BlockIo) (drive bs block : ℕ) (buffer : Bytes) : BlockIo :=
  let d := drives drive
  if bs = 0 ∨ !d.present then io
  else if d.backend = .ramdisk then
    let offset := block * bs
    if offset + bs ≤ d.ramSize ∧ d.ramBase then
      { io with ram := Function.update io.ram drive (copyInto (io.ram drive) offset buffer 0 bs) }
    else io
  else
    let sectors := bs / 512
    let io := io.ideWriteSectors d.ideDriveSel (block * sectors % 2 ^ 32) sectors buffer
    if io.cache.table.isSome then { io with cache := io.cache.bcUpdate xxh64 d.driveId block bs buffer } else io

/-- `drive_write_sectors` -/
def driveWriteSectors (io : BlockIo) (drive lba count : ℕ) (buffer : Bytes) : BlockIo :=
  let d := drives drive
  if count = 0 ∨ !d.present then io
  else if d.backend = .ramdisk then
    let offset := lba * 512
    let bytes := count * 512
    if offset + bytes ≤ d.ramSize ∧ d.ramBase then
      { io with ram := Function.update io.ram drive (copyInto (io.ram drive) offset buffer 0 bytes) }
    else io
  else if d.backend = .ide then io.ideWriteSectors d.ideDriveSel lba count buffer
  else io

/-- The loop of `ext2_set_bmap` that zeroes the sectors of a block, one by one -/
def zeroSectors (io : BlockIo) (drive bs block : ℕ) : BlockIo :=
  (List.range (bs / 512)).foldl
    (fun io s => io.driveWriteSectors drives drive ((block * (bs / 512) + s) % 2 ^ 32) 1 zeros) io

/-- The block layer over the cache -/
def cached : BlockLayer BlockIo where
  read drive bs block := fun io =>
    let r := io.ext2ReadBlock xxh64 drives drive bs block zeros
    (trunc bs r.1, r.2)
  readRun drive bs start count := fun io =>
    let r := io.ext2ReadBlocks xxh64 drives drive bs start count zeros
    (trunc (count * bs) r.1, r.2)
  write drive bs block data := fun io => io.ext2WriteBlock xxh64 drives drive bs block data
  zero drive bs block := fun io => io.zeroSectors drives drive bs block

end

end BlockIo

/-! ## Accesses in order -/

/-- The drives are set up: their blocks are whole sectors, those of an IDE drive less than 256, and no two IDE drives
share their registers or their name in the cache. -/
structure Mounted (drives : ℕ → DriveDev) (sizeOf : ℕ → ℕ) : Prop where
  backed : ∀ i, (drives i).present → (drives i).backend ≠ .none
  sectors : ∀ i, (drives i).present → ∃ n, 0 < n ∧ (drives i).blockSize = n * 512
  count : ∀ i, (drives i).present → (drives i).backend = .ide → (drives i).blockSize < 256 * 512
  size : ∀ i, (drives i).present → (drives i).backend = .ide → sizeOf (drives i).driveId = (drives i).blockSize
  ids : ∀ i j, (drives i).present → (drives i).backend = .ide → (drives j).present → (drives j).backend = .ide →
    (drives i).driveId = (drives j).driveId → i = j
  sels : ∀ i j, (drives i).present → (drives i).backend = .ide → (drives j).present → (drives j).backend = .ide →
    (drives i).ideDriveSel = (drives j).ideDriveSel → i = j

namespace BlockIo

/-- A run of blocks is on an IDE drive: within 28 bits of sectors, and within a buffer of 4 GiB. -/
def OnIde (d : DriveDev) (start count : ℕ) : Prop :=
  d.present ∧ d.backend = .ide ∧ (start + count) * d.blockSize ≤ 2 ^ 28 * 512 ∧ count * d.blockSize ≤ 2 ^ 32

/-- A run of blocks is on a RAM disk. -/
def OnRam (d : DriveDev) (start count : ℕ) : Prop :=
  d.present ∧ d.backend = .ramdisk ∧ (start + count) * d.blockSize ≤ d.ramSize ∧ d.ramBase

/-- A run of blocks is on the drive. -/
def Reaches (d : DriveDev) (start count : ℕ) : Prop := OnIde d start count ∨ OnRam d start count

/-- The bytes of a drive -/
def image (drives : ℕ → DriveDev) (io : BlockIo) (i : ℕ) : Bytes :=
  if (drives i).backend = .ramdisk then io.ram i else io.ide (drives i).ideDriveSel

theorem image_of_ide {drives : ℕ → DriveDev} {i : ℕ} (h : (drives i).backend = .ide) (io : BlockIo) :
    image drives io i = io.ide (drives i).ideDriveSel := by
  rw [image, h, if_neg (by decide)]

theorem image_of_ram {drives : ℕ → DriveDev} {i : ℕ} (h : (drives i).backend = .ramdisk) (io : BlockIo) :
    image drives io i = io.ram i := by
  rw [image, if_pos h]

theorem Reaches.present {d : DriveDev} {start count : ℕ} (h : Reaches d start count) : d.present :=
  h.elim (fun h => h.1) fun h => h.1

/-- The sectors of a run have 28-bit addresses. -/
theorem OnIde.lba_le {d : DriveDev} {start count n : ℕ} (h : OnIde d start count) (hsize : d.blockSize = n * 512) :
    (start + count) * n ≤ 2 ^ 28 := by
  have hend := h.2.2.1
  rw [hsize, ← Nat.mul_assoc] at hend
  exact Nat.le_of_mul_le_mul_right hend (by decide)

/-- A run is on a RAM disk exactly if it passes the check of the driver. -/
theorem onRam_iff {d : DriveDev} (hpresent : d.present) (hram : d.backend = .ramdisk) {start count : ℕ} :
    OnRam d start count ↔ start * d.blockSize + count * d.blockSize ≤ d.ramSize ∧ d.ramBase = true := by
  rw [OnRam, Nat.add_mul]
  exact ⟨fun h => h.2.2, fun h => ⟨hpresent, hram, h⟩⟩

theorem OnRam.inside {d : DriveDev} {start count : ℕ} (h : OnRam d start count) :
    start * d.blockSize + count * d.blockSize ≤ d.ramSize ∧ d.ramBase = true :=
  (onRam_iff h.1 h.2.1).mp h

section

variable {drives : ℕ → DriveDev} {sizeOf : ℕ → ℕ} (hm : Mounted drives sizeOf) {i start count : ℕ}

include hm

theorem OnIde.sectors (h : OnIde (drives i) start count) :
    ∃ n, 0 < n ∧ n < 256 ∧ (drives i).blockSize = n * 512 := by
  obtain ⟨n, hn, hsize⟩ := hm.sectors i h.1
  have hlt := hm.count i h.1 h.2.1
  exact ⟨n, hn, by omega, hsize⟩

/-- The first sector of a run, and how many bytes a block has -/
theorem OnIde.sectorAt_eq (h : OnIde (drives i) start count) (hcount : 0 < count) :
    sectorAt (start * ((drives i).blockSize / 512) % 2 ^ 32) = start * (drives i).blockSize := by
  obtain ⟨n, hn, -, hsize⟩ := h.sectors hm
  have hle : start * n < (start + count) * n := Nat.mul_lt_mul_of_pos_right (by omega) hn
  have hlt : start * n < 2 ^ 28 := hle.trans_le (h.lba_le hsize)
  rw [hsize, Nat.mul_div_cancel n (by decide), sectorAt, Nat.mod_eq_of_lt (hlt.trans (by decide)),
    Nat.mod_eq_of_lt hlt, Nat.mul_assoc]

theorem OnIde.bytes_eq (h : OnIde (drives i) start count) :
    (drives i).blockSize / 512 % 256 * 512 = (drives i).blockSize := by
  obtain ⟨n, -, hlt, hsize⟩ := h.sectors hm
  rw [hsize, Nat.mul_div_cancel n (by decide), Nat.mod_eq_of_lt hlt]

theorem blockSize_pos (h : (drives i).present) : 0 < (drives i).blockSize := by
  obtain ⟨n, hn, hsize⟩ := hm.sectors i h
  omega

/-- The first check of `ext2_read_block` and `ext2_write_block` -/
theorem not_refused (h : (drives i).present) : ¬ ((drives i).blockSize = 0 ∨ (!(drives i).present) = true) := by
  simp [h, (blockSize_pos hm h).ne']

/-- The first check of `ext2_read_blocks` -/
theorem not_refused_run (h : (drives i).present) (hcount : 0 < count) :
    ¬ ((drives i).blockSize = 0 ∨ count = 0 ∨ (!(drives i).present) = true) := by
  simp [h, (blockSize_pos hm h).ne', hcount.ne']

/-- The blocks of a run are on the drive. -/
theorem OnIde.block (h : OnIde (drives i) start count) {k : ℕ} (hk : k < count) : OnIde (drives i) (start + k) 1 := by
  obtain ⟨n, -, hlt, hsize⟩ := h.sectors hm
  refine ⟨h.1, h.2.1, (Nat.mul_le_mul_right _ (by omega)).trans h.2.2.1, ?_⟩
  rw [one_mul]
  omega

end

theorem OnRam.block {d : DriveDev} {start count : ℕ} (h : OnRam d start count) {k : ℕ} (hk : k < count) :
    OnRam d (start + k) 1 :=
  ⟨h.1, h.2.1, (Nat.mul_le_mul_right _ (by omega)).trans h.2.2.1, h.2.2.2⟩

theorem Reaches.block {drives : ℕ → DriveDev} {sizeOf : ℕ → ℕ} (hm : Mounted drives sizeOf) {i start count : ℕ}
    (h : Reaches (drives i) start count) {k : ℕ} (hk : k < count) : Reaches (drives i) (start + k) 1 :=
  h.imp (fun h => h.block hm hk) fun h => h.block hk

/-! ## Copies -/

/-- Two copies, the second where the first ends -/
theorem copyInto_append (dst src : Bytes) (o s a b : ℕ) :
    copyInto (copyInto dst o src s a) (o + a) src (s + a) b = copyInto dst o src s (a + b) := by
  funext x
  by_cases h₂ : o + a ≤ x ∧ x < o + a + b
  · rw [copyInto_of_mem h₂.1 h₂.2, copyInto_of_mem (by omega) (by omega)]
    congr 1
    omega
  · rw [copyInto_of_not_mem h₂]
    by_cases h₁ : o ≤ x ∧ x < o + a
    · rw [copyInto_of_mem h₁.1 h₁.2, copyInto_of_mem h₁.1 (by omega)]
    · rw [copyInto_of_not_mem h₁, copyInto_of_not_mem (by omega)]

theorem copyInto_zero (dst src : Bytes) (o s : ℕ) : copyInto dst o src s 0 = dst := by
  funext x
  exact copyInto_of_not_mem (by omega)

/-- The chunks make up one transfer. -/
theorem readChunks_eq (sel : ℕ) {remaining sector : ℕ} (h : sector + remaining ≤ 2 ^ 28) (io : BlockIo) (out : Bytes)
    (off : ℕ) : ∃ n, io.readChunks sel remaining sector out off =
      (copyInto out off (io.ide sel) (sector * 512) (remaining * 512), { io with commands := n }) := by
  induction remaining using Nat.strong_induction_on generalizing sector io out off with
  | _ remaining ih =>
    rw [readChunks]
    by_cases hpos : 0 < remaining
    · rw [if_pos hpos]
      obtain ⟨chunk, hchunk⟩ : ∃ chunk, (if 255 < remaining then 255 else remaining) = chunk := ⟨_, rfl⟩
      have hbounds : 0 < chunk ∧ chunk ≤ 255 ∧ chunk ≤ remaining := by
        rw [← hchunk]
        split <;> omega
      simp only [hchunk, ideReadSectors]
      obtain ⟨n, hn⟩ := ih (remaining - chunk) (by omega)
        (show (sector + chunk) % 2 ^ 32 + (remaining - chunk) ≤ 2 ^ 28 by rw [Nat.mod_eq_of_lt (by omega)]; omega)
        { io with commands := io.commands + 1 }
        (copyInto out off (io.ide sel) (sectorAt sector) (chunk % 256 * 512)) (off + chunk * 512)
      refine ⟨n, ?_⟩
      rw [hn, sectorAt, Nat.mod_eq_of_lt (show sector < 2 ^ 28 by omega), Nat.mod_eq_of_lt (show chunk < 256 by omega),
        Nat.mod_eq_of_lt (show sector + chunk < 2 ^ 32 by omega), Nat.add_mul, copyInto_append, ← Nat.add_mul,
        Nat.add_sub_cancel' hbounds.2.2]
    · rw [if_neg hpos, Nat.eq_zero_of_not_pos hpos, Nat.zero_mul, copyInto_zero]
      exact ⟨io.commands, rfl⟩

/-! ## The cache and the contents of the drives -/

section

variable (xxh64 : ℕ → ℕ) (drives : ℕ → DriveDev)

/-- What is found in the cache is what the block holds. -/
def Coherent (c : BlockCache) (d : Disks) : Prop :=
  ∀ i b, OnIde (drives i) b 1 → ∀ v, content xxh64 c ((drives i).driveId, b) = some v →
    ∀ j < (drives i).blockSize, v j = d i b j

/-- The blocks of the drives hold what they should. -/
def Stores (io : BlockIo) (d : Disks) : Prop :=
  ∀ i b, Reaches (drives i) b 1 → ∀ j < (drives i).blockSize, image drives io i (b * (drives i).blockSize + j) = d i b j

/-- A state of the block layer and the contents of the drives -/
structure Mirrors (sizeOf : ℕ → ℕ) (io : BlockIo) (d : Disks) : Prop where
  sound : Intact sizeOf io.cache
  fresh : Fresh xxh64 io.cache
  coherent : Coherent xxh64 drives io.cache d
  holds : Stores drives io d

end

section

variable {xxh64 : ℕ → ℕ} {drives : ℕ → DriveDev} {sizeOf : ℕ → ℕ} {c c' : BlockCache} {d : Disks}

/-- A step of the cache that at most loses blocks keeps it coherent. -/
theorem Coherent.keeps (h : Coherent xxh64 drives c d) (hkeep : ∀ key, MayLose xxh64 c c' key) :
    Coherent xxh64 drives c' d := by
  intro i b hb v hv
  obtain hsame | hnone := hkeep ((drives i).driveId, b)
  · exact h i b hb v (hsame ▸ hv)
  · rw [hnone] at hv
    exact absurd hv (Option.some_ne_none v).symm

/-- The bytes of one block change on the drive and in the cache. -/
theorem Coherent.shows (hm : Mounted drives sizeOf) (h : Coherent xxh64 drives c d) {i b : ℕ}
    (hb : OnIde (drives i) b 1) {src : Bytes} {off : ℕ} {d' : Disks}
    (hself : Shows xxh64 c' ((drives i).driveId, b) (drives i).blockSize src off ∨
      content xxh64 c' ((drives i).driveId, b) = none)
    (hother : ∀ key ≠ ((drives i).driveId, b), MayLose xxh64 c c' key)
    (hsrc : ∀ j < (drives i).blockSize, src (off + j) = d' i b j)
    (hd : ∀ i' b', ¬ (i' = i ∧ b' = b) → d' i' b' = d i' b') : Coherent xxh64 drives c' d' := by
  intro i' b' hb' v hv j hj
  by_cases hsame : i' = i ∧ b' = b
  · obtain ⟨rfl, rfl⟩ := hsame
    obtain ⟨w, hw, hbytes⟩ | hnone := hself
    · obtain rfl := Option.some.inj (hw.symm.trans hv)
      rw [hbytes j hj, hsrc j hj]
    · rw [hnone] at hv
      exact absurd hv (Option.some_ne_none v).symm
  · have hkey : ((drives i').driveId, b') ≠ ((drives i).driveId, b) := by
      intro heq
      obtain ⟨hid, hblock⟩ := Prod.mk.inj heq
      exact hsame ⟨hm.ids i' i hb'.1 hb'.2.1 hb.1 hb.2.1 hid, hblock⟩
    rw [hd i' b' hsame]
    obtain hkeep | hnone := hother _ hkey
    · exact h i' b' hb' v (hkeep ▸ hv) j hj
    · rw [hnone] at hv
      exact absurd hv (Option.some_ne_none v).symm

/-- A block that is read from the drive goes into the cache. -/
theorem Coherent.insert (hm : Mounted drives sizeOf) (hs : Intact sizeOf c) (hf : Fresh xxh64 c)
    (h : Coherent xxh64 drives c d) (htick : c.tick + 1 < 2 ^ 64) {i b : ℕ} (hb : OnIde (drives i) b 1)
    {src : Bytes} {off : ℕ} (hsrc : ∀ j < (drives i).blockSize, src (off + j) = d i b j) :
    let c' := c.bcInsert xxh64 (drives i).driveId b (drives i).blockSize src off
    Intact sizeOf c' ∧ Fresh xxh64 c' ∧ Coherent xxh64 drives c' d ∧ c'.tick ≤ c.tick + 1 := by
  have hsize := (hm.size i hb.1 hb.2.1).symm
  obtain ⟨hfresh, htick', hself, hother⟩ :=
    bcInsert_spec hs hf htick (blockSize_pos hm hb.1) (drives i).driveId b src off
  refine ⟨hs.bcInsert xxh64 hsize b src off, hfresh, ?_, htick'⟩
  obtain hshow | hkeep := hself
  · exact h.shows hm hb (.inl hshow) hother hsrc fun _ _ _ => rfl
  · refine h.keeps fun key => ?_
    by_cases hkey : key = ((drives i).driveId, b)
    · exact hkey ▸ hkeep
    · exact hother key hkey

/-- The cache after the lazy start -/
theorem start_spec (hs : Intact sizeOf c) (hf : Fresh xxh64 c) (h : Coherent xxh64 drives c d) :
    Intact sizeOf c.start ∧ Fresh xxh64 c.start ∧ Coherent xxh64 drives c.start d ∧ c.start.tick = c.tick := by
  unfold start
  split
  · obtain ⟨hfresh, htick, hkeep⟩ := bcInit_spec hf
    exact ⟨hs.bcInit, hfresh, h.keeps hkeep, htick⟩
  · exact ⟨hs, hf, h, rfl⟩

/-- A lookup gives the bytes of the block, if it gives any. -/
theorem Coherent.lookup (hm : Mounted drives sizeOf) (hs : Intact sizeOf c) (hf : Fresh xxh64 c)
    (h : Coherent xxh64 drives c d) (htick : c.tick + 1 < 2 ^ 64) {i b : ℕ} (hb : OnIde (drives i) b 1)
    (out : Bytes) (off : ℕ) :
    let r := c.bcLookup xxh64 (drives i).driveId b (drives i).blockSize out off
    Intact sizeOf r.2.2 ∧ Fresh xxh64 r.2.2 ∧ Coherent xxh64 drives r.2.2 d ∧ r.2.2.tick ≤ c.tick + 1 ∧
      (r.1 = true → (∀ j < (drives i).blockSize, r.2.1 (off + j) = d i b j) ∧
        ∀ x, ¬ (off ≤ x ∧ x < off + (drives i).blockSize) → r.2.1 x = out x) := by
  obtain ⟨hfresh, htick', hkeep, hval⟩ :=
    bcLookup_spec hs hf htick (blockSize_pos hm hb.1) (drives i).driveId b out off
  refine ⟨hs.bcLookup xxh64 (hm.size i hb.1 hb.2.1).symm b out off, hfresh, h.keeps fun key => .inl (hkeep key),
    htick', fun hhit => ?_⟩
  cases hcontent : content xxh64 c ((drives i).driveId, b) with
  | none =>
    rw [hcontent, Option.elim_none, Prod.mk.injEq, hhit] at hval
    exact absurd hval.1 (by decide)
  | some v =>
    rw [hcontent, Option.elim_some, Prod.mk.injEq] at hval
    rw [hval.2]
    refine ⟨fun j hj => ?_, fun x hx => copyInto_of_not_mem hx⟩
    rw [copyInto_of_mem (Nat.le_add_right off j) (by omega), Nat.add_sub_cancel_left, Nat.zero_add]
    exact h i b hb v hcontent j hj

end

/-! ## Reads -/

section

variable {xxh64 : ℕ → ℕ} {drives : ℕ → DriveDev} {sizeOf : ℕ → ℕ} {io : BlockIo} {d : Disks} {i : ℕ}

/-- Without the blocks, a state mirrors what it did. -/
theorem Mirrors.withCache (h : Mirrors xxh64 drives sizeOf io d) {c : BlockCache} {n : ℕ} (hs : Intact sizeOf c)
    (hf : Fresh xxh64 c) (hc : Coherent xxh64 drives c d) :
    Mirrors xxh64 drives sizeOf { io with cache := c, commands := n } d :=
  ⟨hs, hf, hc, h.holds⟩

/-- The bytes of a run of blocks on an IDE drive -/
theorem Mirrors.ide_bytes (hm : Mounted drives sizeOf) (h : Mirrors xxh64 drives sizeOf io d) {start count : ℕ}
    (hr : OnIde (drives i) start count) {x : ℕ} (hx : x < count * (drives i).blockSize) :
    io.ide (drives i).ideDriveSel (start * (drives i).blockSize + x) =
      d i (start + x / (drives i).blockSize) (x % (drives i).blockSize) := by
  have hpos := blockSize_pos hm hr.1
  have hblock : x / (drives i).blockSize < count := Nat.div_lt_of_lt_mul (by rwa [Nat.mul_comm] at hx)
  have hbytes := h.holds i _ (.inl (hr.block hm hblock)) _ (Nat.mod_lt x hpos)
  rw [image_of_ide hr.2.1] at hbytes
  rw [← hbytes, Nat.add_mul, Nat.add_assoc, Nat.mul_comm (x / _), Nat.div_add_mod]

/-- The bytes of a run of blocks on a RAM disk -/
theorem Mirrors.ram_bytes (hm : Mounted drives sizeOf) (h : Mirrors xxh64 drives sizeOf io d) {start count : ℕ}
    (hr : OnRam (drives i) start count) {x : ℕ} (hx : x < count * (drives i).blockSize) :
    io.ram i (start * (drives i).blockSize + x) =
      d i (start + x / (drives i).blockSize) (x % (drives i).blockSize) := by
  have hpos := blockSize_pos hm hr.1
  have hblock : x / (drives i).blockSize < count := Nat.div_lt_of_lt_mul (by rwa [Nat.mul_comm] at hx)
  have hbytes := h.holds i _ (.inr (hr.block hblock)) _ (Nat.mod_lt x hpos)
  rw [image_of_ram hr.2.1] at hbytes
  rw [← hbytes, Nat.add_mul, Nat.add_assoc, Nat.mul_comm (x / _), Nat.div_add_mod]

/-- `ext2_read_block` -/
theorem Mirrors.read (hm : Mounted drives sizeOf) (h : Mirrors xxh64 drives sizeOf io d) {b : ℕ}
    (hr : Reaches (drives i) b 1) (htick : io.cache.tick + 2 < 2 ^ 64) (buffer : Bytes) :
    let r := io.ext2ReadBlock xxh64 drives i (drives i).blockSize b buffer
    Mirrors xxh64 drives sizeOf r.2 d ∧ (∀ j < (drives i).blockSize, r.1 j = d i b j) ∧
      r.2.cache.tick ≤ io.cache.tick + 2 := by
  have hcond := not_refused hm hr.present
  obtain hide | hram := hr
  · obtain ⟨hs, hf, hc, ht⟩ := start_spec h.sound h.fresh h.coherent
    obtain ⟨hs', hf', hc', ht', hhit⟩ := hc.lookup hm hs hf (by omega) hide buffer 0
    simp only [ext2ReadBlock, if_neg hcond, hide.2.1, if_neg (show ¬ (Backend.ide = .ramdisk) by decide)]
    by_cases hfound : (io.cache.start.bcLookup xxh64 (drives i).driveId b (drives i).blockSize buffer 0).1 = true
    · rw [if_pos hfound]
      obtain ⟨hbytes, -⟩ := hhit hfound
      exact ⟨h.withCache hs' hf' hc', fun j hj => by rw [← hbytes j hj, Nat.zero_add], ht'.trans (by omega)⟩
    · rw [if_neg hfound]
      -- Whatever the lookup left in the buffer, the drive overwrites it.
      have hread : ∀ out, ∀ j < (drives i).blockSize,
          copyInto out 0 (io.ide (drives i).ideDriveSel)
            (sectorAt (b * ((drives i).blockSize / 512) % 2 ^ 32)) ((drives i).blockSize / 512 % 256 * 512) (0 + j) =
          d i b j := by
        intro out j hj
        have hbytes := h.ide_bytes hm hide (show j < 1 * (drives i).blockSize by omega)
        rw [Nat.div_eq_of_lt hj, Nat.mod_eq_of_lt hj, Nat.add_zero] at hbytes
        rw [hide.sectorAt_eq hm Nat.one_pos, hide.bytes_eq hm, copyInto_of_mem (Nat.zero_le _) (by omega),
          Nat.sub_zero, Nat.zero_add, hbytes]
      obtain ⟨hs'', hf'', hc'', ht''⟩ := hc'.insert hm hs' hf' (by omega) hide (hread _)
      exact ⟨h.withCache hs'' hf'' hc'', fun j hj => by rw [← hread _ j hj, Nat.zero_add]; rfl,
        ht''.trans (by omega)⟩
  · -- A RAM disk is not cached.
    have hin := hram.inside
    rw [Nat.one_mul] at hin
    simp only [ext2ReadBlock, if_neg hcond, if_pos hram.2.1, if_pos hin]
    refine ⟨h, fun j hj => ?_, Nat.le_add_right _ _⟩
    have hbytes := h.ram_bytes hm hram (show j < 1 * (drives i).blockSize by omega)
    rw [Nat.div_eq_of_lt hj, Nat.mod_eq_of_lt hj, Nat.add_zero] at hbytes
    rw [copyInto_of_mem (Nat.zero_le _) (by omega), Nat.sub_zero, hbytes]

/-- The offset of a block in the buffer of a run -/
theorem OnIde.offset_eq (hm : Mounted drives sizeOf) {start count k : ℕ} (hr : OnIde (drives i) start count)
    (hk : k < count) :
    (start + k) % 2 ^ 32 = start + k ∧ k * (drives i).blockSize % 2 ^ 32 = k * (drives i).blockSize := by
  obtain ⟨n, hn, -, hsize⟩ := hr.sectors hm
  have hpos := blockSize_pos hm hr.1
  constructor
  · refine Nat.mod_eq_of_lt ?_
    have hle : start + count ≤ (start + count) * n := Nat.le_mul_of_pos_right _ hn
    have hlba := hr.lba_le hsize
    omega
  · refine Nat.mod_eq_of_lt (lt_of_lt_of_le ?_ hr.2.2.2)
    exact Nat.mul_lt_mul_of_pos_right hk hpos

/-- The lookups of a run. If all hit, the buffer has the blocks. -/
theorem lookupRun_spec (hm : Mounted drives sizeOf) {start count : ℕ} (hr : OnIde (drives i) start count) (n k : ℕ)
    (hk : k + n = count) {c : BlockCache} (hs : Intact sizeOf c) (hf : Fresh xxh64 c)
    (hc : Coherent xxh64 drives c d) (htick : c.tick + n < 2 ^ 64) (out : Bytes) :
    let r := lookupRun xxh64 (drives i).driveId (drives i).blockSize start n k out c
    Intact sizeOf r.2.2 ∧ Fresh xxh64 r.2.2 ∧ Coherent xxh64 drives r.2.2 d ∧ r.2.2.tick ≤ c.tick + n ∧
      (r.1 = true → (∀ x < k * (drives i).blockSize, r.2.1 x = out x) ∧
        ∀ m, k ≤ m → m < count → ∀ j < (drives i).blockSize,
          r.2.1 (m * (drives i).blockSize + j) = d i (start + m) j) := by
  induction n generalizing k c out with
  | zero => exact ⟨hs, hf, hc, le_rfl, fun _ => ⟨fun _ _ => rfl, fun m hm hm' => absurd hm' (by omega)⟩⟩
  | succ n ih =>
    obtain ⟨hblock, hoff⟩ := hr.offset_eq hm (show k < count by omega)
    obtain ⟨hs', hf', hc', ht', hhit⟩ := hc.lookup hm hs hf (by omega) (hr.block hm (show k < count by omega)) out
      (k * (drives i).blockSize)
    rw [lookupRun, hblock, hoff]
    generalize c.bcLookup xxh64 (drives i).driveId (start + k) (drives i).blockSize out
      (k * (drives i).blockSize) = r at hs' hf' hc' ht' hhit ⊢
    obtain ⟨hit, out', c'⟩ := r
    dsimp only at hs' hf' hc' ht' hhit ⊢
    cases hit with
    | false =>
      -- The first miss ends the loop.
      rw [if_neg Bool.false_ne_true]
      exact ⟨hs', hf', hc', by dsimp only; omega, fun h => absurd h Bool.false_ne_true⟩
    | true =>
      obtain ⟨hbytes, hframe⟩ := hhit rfl
      obtain ⟨hs'', hf'', hc'', ht'', hall⟩ := ih (k + 1) (by omega) hs' hf' hc' (by omega) out'
      rw [if_pos rfl]
      refine ⟨hs'', hf'', hc'', by omega, fun h => ?_⟩
      obtain ⟨hkeep, hrest⟩ := hall h
      have hsucc : (k + 1) * (drives i).blockSize = k * (drives i).blockSize + (drives i).blockSize :=
        Nat.succ_mul _ _
      refine ⟨fun x hx => ?_, fun m hkm hmc j hj => ?_⟩
      · rw [hkeep x (by omega), hframe x (by omega)]
      · -- The later lookups leave the block of this turn alone.
        obtain rfl | hlt := Nat.eq_or_lt_of_le hkm
        · rw [hkeep _ (by omega), hbytes j hj]
        · exact hrest m hlt hmc j hj

/-- The insertions of a run -/
theorem insertRun_spec (hm : Mounted drives sizeOf) {start count : ℕ} (hr : OnIde (drives i) start count) {src : Bytes}
    (hsrc : ∀ m < count, ∀ j < (drives i).blockSize, src (m * (drives i).blockSize + j) = d i (start + m) j) (n k : ℕ)
    (hk : k + n = count) {c : BlockCache} (hs : Intact sizeOf c) (hf : Fresh xxh64 c)
    (hc : Coherent xxh64 drives c d) (htick : c.tick + n < 2 ^ 64) :
    let c' := insertRun xxh64 (drives i).driveId (drives i).blockSize start src n k c
    Intact sizeOf c' ∧ Fresh xxh64 c' ∧ Coherent xxh64 drives c' d ∧ c'.tick ≤ c.tick + n := by
  induction n generalizing k c with
  | zero => exact ⟨hs, hf, hc, le_rfl⟩
  | succ n ih =>
    obtain ⟨hblock, hoff⟩ := hr.offset_eq hm (show k < count by omega)
    obtain ⟨hs', hf', hc', ht'⟩ := hc.insert hm hs hf (by omega) (hr.block hm (show k < count by omega))
      (hsrc k (by omega))
    obtain ⟨hs'', hf'', hc'', ht''⟩ := ih (k + 1) (by omega) hs' hf' hc' (by omega)
    rw [insertRun, hblock, hoff]
    exact ⟨hs'', hf'', hc'', by omega⟩

end

section

variable {xxh64 : ℕ → ℕ} {drives : ℕ → DriveDev} {sizeOf : ℕ → ℕ} {io : BlockIo} {d : Disks} {i : ℕ}

/-- A buffer that has the bytes of a run has those of each block. -/
theorem run_bytes {bs count start : ℕ} {out : Bytes}
    (h : ∀ m < count, ∀ j < bs, out (m * bs + j) = d i (start + m) j) {x : ℕ} (hx : x < count * bs) :
    out x = d i (start + x / bs) (x % bs) := by
  have hpos : 0 < bs := Nat.pos_of_ne_zero fun hzero => by simp [hzero] at hx
  have hbytes := h (x / bs) (Nat.div_lt_of_lt_mul (by rwa [Nat.mul_comm] at hx)) (x % bs) (Nat.mod_lt x hpos)
  rwa [Nat.mul_comm, Nat.div_add_mod] at hbytes

theorem block_bytes {bs count start : ℕ} {out : Bytes}
    (h : ∀ x < count * bs, out x = d i (start + x / bs) (x % bs)) {m : ℕ} (hm : m < count) {j : ℕ} (hj : j < bs) :
    out (m * bs + j) = d i (start + m) j := by
  have hlt : m * bs + j < count * bs := by
    calc m * bs + j < m * bs + bs := Nat.add_lt_add_left hj _
      _ = (m + 1) * bs := (Nat.succ_mul m bs).symm
      _ ≤ count * bs := Nat.mul_le_mul_right bs hm
  rw [h _ hlt, Nat.mul_comm, Nat.mul_add_div (by omega), Nat.div_eq_of_lt hj, Nat.add_zero, Nat.mul_add_mod,
    Nat.mod_eq_of_lt hj]

/-- What the lookups of a run leave, also where there is no table -/
theorem lookups_spec (hm : Mounted drives sizeOf) {start count : ℕ} (hr : OnIde (drives i) start count) {c : BlockCache}
    (hs : Intact sizeOf c) (hf : Fresh xxh64 c) (hc : Coherent xxh64 drives c d) (htick : c.tick + count < 2 ^ 64)
    (buffer : Bytes) :
    ∃ r, (if c.table.isSome then
        lookupRun xxh64 (drives i).driveId (drives i).blockSize start count 0 buffer c else (false, buffer, c)) = r ∧
      Intact sizeOf r.2.2 ∧ Fresh xxh64 r.2.2 ∧ Coherent xxh64 drives r.2.2 d ∧ r.2.2.tick ≤ c.tick + count ∧
        (r.1 = true → ∀ m < count, ∀ j < (drives i).blockSize,
          r.2.1 (m * (drives i).blockSize + j) = d i (start + m) j) := by
  refine ⟨_, rfl, ?_⟩
  split
  · obtain ⟨hs', hf', hc', ht', hall⟩ := lookupRun_spec hm hr count 0 (Nat.zero_add count) hs hf hc htick buffer
    exact ⟨hs', hf', hc', ht', fun hhit m hm => (hall hhit).2 m (Nat.zero_le m) hm⟩
  · exact ⟨hs, hf, hc, Nat.le_add_right _ _, fun hhit => absurd hhit Bool.false_ne_true⟩

/-- What the chunks of a run leave in a buffer -/
theorem Mirrors.readChunks (hm : Mounted drives sizeOf) (h : Mirrors xxh64 drives sizeOf io d) {start count : ℕ}
    (hr : OnIde (drives i) start count) (c : BlockCache) (out : Bytes) :
    ∃ commands bytes, BlockIo.readChunks { io with cache := c } (drives i).ideDriveSel
        (count * ((drives i).blockSize / 512) % 2 ^ 32) (start * ((drives i).blockSize / 512) % 2 ^ 32) out 0 =
        (bytes, { io with cache := c, commands := commands }) ∧
      ∀ x < count * (drives i).blockSize,
        bytes x = d i (start + x / (drives i).blockSize) (x % (drives i).blockSize) := by
  obtain ⟨n, hn, -, hsize⟩ := hr.sectors hm
  have hsectors : (drives i).blockSize / 512 = n := by rw [hsize, Nat.mul_div_cancel n (by decide)]
  have hlba : start * n + count * n ≤ 2 ^ 28 := by
    rw [← Nat.add_mul]
    exact hr.lba_le hsize
  obtain ⟨commands, hchunks⟩ := readChunks_eq (drives i).ideDriveSel hlba { io with cache := c } out 0
  rw [hsectors, Nat.mod_eq_of_lt (show count * n < 2 ^ 32 by omega),
    Nat.mod_eq_of_lt (show start * n < 2 ^ 32 by omega)]
  refine ⟨commands, _, hchunks, fun x hx => ?_⟩
  dsimp only
  rw [← h.ide_bytes hm hr hx, Nat.mul_assoc, Nat.mul_assoc, ← hsize, copyInto_of_mem (Nat.zero_le x) (by omega),
    Nat.sub_zero]

/-- `ext2_read_blocks`, on an IDE drive -/
theorem Mirrors.readRun_ide (hm : Mounted drives sizeOf) (h : Mirrors xxh64 drives sizeOf io d) {start count : ℕ}
    (hr : OnIde (drives i) start count) (hcount : 2 ≤ count) (htick : io.cache.tick + 2 * count < 2 ^ 64)
    (buffer : Bytes) :
    let r := io.ext2ReadBlocks xxh64 drives i (drives i).blockSize start count buffer
    Mirrors xxh64 drives sizeOf r.2 d ∧
      (∀ x < count * (drives i).blockSize,
        r.1 x = d i (start + x / (drives i).blockSize) (x % (drives i).blockSize)) ∧
      r.2.cache.tick ≤ io.cache.tick + 2 * count := by
  obtain ⟨hs, hf, hc, ht⟩ := start_spec h.sound h.fresh h.coherent
  simp only [ext2ReadBlocks, if_neg (not_refused_run hm hr.1 (show 0 < count by omega)),
    if_neg (show ¬ count = 1 by omega), hr.2.1, if_neg (show ¬ (Backend.ide = .ramdisk) by decide)]
  generalize io.cache.start = c at hs hf hc ht ⊢
  obtain ⟨⟨allCached, out, c'⟩, hlook, hs', hf', hc', ht', hall⟩ := lookups_spec hm hr hs hf hc (by omega) buffer
  rw [hlook]
  dsimp only at hs' hf' hc' ht' hall ⊢
  cases allCached with
  | true =>
    rw [if_pos rfl]
    exact ⟨h.withCache hs' hf' hc', fun x hx => run_bytes (hall rfl) hx, by dsimp only; omega⟩
  | false =>
    -- The whole run is read, also the blocks that were found.
    rw [if_neg Bool.false_ne_true]
    obtain ⟨commands, bytes, hchunks, hread⟩ := h.readChunks hm hr c' out
    rw [hchunks]
    dsimp only
    split
    · obtain ⟨hs'', hf'', hc'', ht''⟩ := insertRun_spec hm hr (fun m hm j hj => block_bytes hread hm hj) count 0
        (Nat.zero_add count) hs' hf' hc' (by omega)
      exact ⟨h.withCache hs'' hf'' hc'', hread, ht''.trans (by omega)⟩
    · exact ⟨h.withCache hs' hf' hc', hread, by dsimp only; omega⟩

/-- `ext2_read_blocks` -/
theorem Mirrors.readRun (hm : Mounted drives sizeOf) (h : Mirrors xxh64 drives sizeOf io d) {start count : ℕ}
    (hr : Reaches (drives i) start count) (htick : io.cache.tick + 2 * count < 2 ^ 64) (buffer : Bytes) :
    let r := io.ext2ReadBlocks xxh64 drives i (drives i).blockSize start count buffer
    Mirrors xxh64 drives sizeOf r.2 d ∧
      (∀ x < count * (drives i).blockSize,
        r.1 x = d i (start + x / (drives i).blockSize) (x % (drives i).blockSize)) ∧
      r.2.cache.tick ≤ io.cache.tick + 2 * count := by
  obtain rfl | rfl | hcount : count = 0 ∨ count = 1 ∨ 2 ≤ count := by omega
  · simp only [ext2ReadBlocks, true_or, or_true, if_true]
    exact ⟨h, fun x hx => absurd hx (by omega), le_rfl⟩
  · -- One block goes through `ext2_read_block`.
    simp only [ext2ReadBlocks, if_neg (not_refused_run hm hr.present Nat.one_pos), if_true]
    obtain ⟨hmir, hbytes, hclock⟩ := h.read hm hr htick buffer
    refine ⟨hmir, fun x hx => ?_, hclock⟩
    rw [Nat.one_mul] at hx
    rw [hbytes x hx, Nat.div_eq_of_lt hx, Nat.mod_eq_of_lt hx, Nat.add_zero]
  · obtain hide | hram := hr
    · exact h.readRun_ide hm hide hcount htick buffer
    · simp only [ext2ReadBlocks, if_neg (not_refused_run hm hram.1 (show 0 < count by omega)),
        if_neg (show ¬ count = 1 by omega), if_pos hram.2.1, if_pos hram.inside]
      refine ⟨h, fun x hx => ?_, Nat.le_add_right _ _⟩
      rw [copyInto_of_mem (Nat.zero_le x) (by omega), Nat.sub_zero]
      exact h.ram_bytes hm hram hx

/-! ## Writes -/

/-- A drive holds a block after a write to its place, and the other blocks as before. -/
theorem Stores.write (h : Stores drives io d) {b : ℕ} (hr : Reaches (drives i) b 1)
    {data : Bytes} {io' : BlockIo}
    (hself : image drives io' i = copyInto (image drives io i) (b * (drives i).blockSize) data 0 (drives i).blockSize)
    (hother : ∀ i' ≠ i, (drives i').present → (drives i').backend ≠ .none → image drives io' i' = image drives io i') :
    Stores drives io' (Function.update d i (Function.update (d i) b data)) := by
  intro i' b' hr' j hj
  by_cases hi : i' = i
  · subst hi
    rw [Function.update_self, hself]
    by_cases hb : b' = b
    · subst hb
      rw [Function.update_self, copyInto_of_mem (Nat.le_add_right _ j) (by omega), Nat.add_sub_cancel_left,
        Nat.zero_add]
    · rw [Function.update_of_ne hb, copyInto_of_not_mem, h i' b' hr' j hj]
      rintro ⟨hle, hlt⟩
      obtain hbb | hbb := Nat.lt_or_gt_of_ne hb
      · have := Nat.mul_le_mul_right (drives i').blockSize (show b' + 1 ≤ b from hbb)
        rw [Nat.succ_mul] at this
        omega
      · have := Nat.mul_le_mul_right (drives i').blockSize (show b + 1 ≤ b' from hbb)
        rw [Nat.succ_mul] at this
        omega
  · rw [Function.update_of_ne hi, hother i' hi, h i' b' hr' j hj]
    · exact hr'.present
    · obtain hide | hram := hr'
      · rw [hide.2.1]
        decide
      · rw [hram.2.1]
        decide

/-- A transfer to an IDE drive changes the bytes of one drive. -/
theorem image_update_ide (hm : Mounted drives sizeOf) (hpresent : (drives i).present) (hide : (drives i).backend = .ide)
    (io io' : BlockIo) {bytes : Bytes} (hio : io'.ide = Function.update io.ide (drives i).ideDriveSel bytes)
    (hram : io'.ram = io.ram) : image drives io' i = bytes ∧
      ∀ i' ≠ i, (drives i').present → (drives i').backend ≠ .none → image drives io' i' = image drives io i' := by
  refine ⟨by rw [image_of_ide hide, hio, Function.update_self], fun i' hi hpresent' hnone => ?_⟩
  cases hback : (drives i').backend with
  | none => exact absurd hback hnone
  | ide =>
    have hsel : (drives i').ideDriveSel ≠ (drives i).ideDriveSel := fun heq =>
      hi (hm.sels i' i hpresent' hback hpresent hide heq)
    rw [image_of_ide hback, image_of_ide hback, hio, Function.update_of_ne hsel]
  | ramdisk => rw [image_of_ram hback, image_of_ram hback, hram]

/-- A transfer to a RAM disk changes the bytes of one drive. -/
theorem image_update_ram (hram : (drives i).backend = .ramdisk) (io io' : BlockIo) {bytes : Bytes}
    (hio : io'.ram = Function.update io.ram i bytes) (hide : io'.ide = io.ide) :
    image drives io' i = bytes ∧
      ∀ i' ≠ i, (drives i').present → (drives i').backend ≠ .none → image drives io' i' = image drives io i' := by
  refine ⟨by rw [image_of_ram hram, hio, Function.update_self], fun i' hi _ _ => ?_⟩
  rw [image, image, hio, hide, Function.update_of_ne hi]

theorem write_of_ne (d : Disks) {i b i' b' : ℕ} (h : ¬ (i' = i ∧ b' = b)) (data : Bytes) :
    Function.update d i (Function.update (d i) b data) i' b' = d i' b' := by
  by_cases hi : i' = i
  · subst hi
    rw [Function.update_self, Function.update_of_ne fun hb => h ⟨rfl, hb⟩]
  · rw [Function.update_of_ne hi]

/-- `ext2_write_block` -/
theorem Mirrors.write (hm : Mounted drives sizeOf) (h : Mirrors xxh64 drives sizeOf io d) {b : ℕ}
    (hr : Reaches (drives i) b 1) (htick : io.cache.tick + 2 < 2 ^ 64) (data : Bytes) :
    let io' := io.ext2WriteBlock xxh64 drives i (drives i).blockSize b data
    Mirrors xxh64 drives sizeOf io' (Function.update d i (Function.update (d i) b data)) ∧
      io'.cache.tick ≤ io.cache.tick + 2 := by
  have hpresent := hr.present
  have hpos := blockSize_pos hm hpresent
  have hcond := not_refused hm hpresent
  obtain hide | hram := hr
  · simp only [ext2WriteBlock, if_neg hcond, hide.2.1, if_neg (show ¬ (Backend.ide = .ramdisk) by decide)]
    have himage : ∀ io', io'.ide = Function.update io.ide (drives i).ideDriveSel
          (copyInto (io.ide (drives i).ideDriveSel) (b * (drives i).blockSize) data 0 (drives i).blockSize) →
        io'.ram = io.ram → Stores drives io' (Function.update d i (Function.update (d i) b data)) := by
      intro io' hio' hram'
      obtain ⟨hself, hother⟩ := image_update_ide hm hpresent hide.2.1 io io' hio' hram'
      refine h.holds.write (.inl hide) ?_ hother
      rw [hself, image_of_ide hide.2.1]
    simp only [ideWriteSectors, hide.sectorAt_eq hm Nat.one_pos, hide.bytes_eq hm]
    have hsize := (hm.size i hpresent hide.2.1).symm
    -- After the transfer, the block is updated in the cache if there is a table.
    split
    · obtain ⟨hf, htick', hself, hother⟩ :=
        bcUpdate_spec h.sound h.fresh (by omega) hpos (drives i).driveId b data
      refine ⟨⟨h.sound.bcUpdate xxh64 hsize b data, hf, ?_, himage _ rfl rfl⟩, htick'.trans (Nat.le_succ _)⟩
      refine h.coherent.shows hm hide hself hother (fun j _ => ?_) fun i' b' hne => write_of_ne d hne data
      rw [Function.update_self, Function.update_self, Nat.zero_add]
    · rename_i htable
      refine ⟨⟨h.sound, h.fresh, fun i' b' _ v hv => ?_, himage _ rfl rfl⟩, Nat.le_add_right _ _⟩
      rw [content, Option.not_isSome_iff_eq_none.mp htable, Option.bind_none] at hv
      exact absurd hv (Option.some_ne_none v).symm
  · have hin := hram.inside
    rw [Nat.one_mul] at hin
    simp only [ext2WriteBlock, if_neg hcond, if_pos hram.2.1, if_pos hin]
    refine ⟨⟨h.sound, h.fresh, fun i' b' hide' v hv j hj => ?_, ?_⟩, Nat.le_add_right _ _⟩
    · -- The cache has no block of a RAM disk.
      have hi : i' ≠ i := by
        rintro rfl
        have hback := hide'.2.1
        rw [hram.2.1] at hback
        exact absurd hback (by decide)
      rw [write_of_ne d fun hsame => hi hsame.1]
      exact h.coherent i' b' hide' v hv j hj
    · obtain ⟨hself, hother⟩ := image_update_ram hram.2.1 io { io with
        ram := Function.update io.ram i (copyInto (io.ram i) (b * (drives i).blockSize) data 0 (drives i).blockSize) }
        rfl rfl
      refine h.holds.write (.inr hram) ?_ hother
      rw [hself, image_of_ram hram.2.1]

end

section

variable {xxh64 : ℕ → ℕ} {drives : ℕ → DriveDev} {sizeOf : ℕ → ℕ} {io : BlockIo} {d : Disks} {i b n : ℕ}

/-- The sectors of a block become zero one by one, and the cache is not asked. -/
theorem zeroSectors_ide (hpresent : (drives i).present) (hide : (drives i).backend = .ide) (io : BlockIo)
    (hend : b * n + n ≤ 2 ^ 28) (m : ℕ) (hmn : m ≤ n) :
    ∃ commands, (List.range m).foldl
      (fun io s => io.driveWriteSectors drives i ((b * n + s) % 2 ^ 32) 1 zeros) io =
        { io with
          ide := Function.update io.ide (drives i).ideDriveSel
            (copyInto (io.ide (drives i).ideDriveSel) (b * (n * 512)) zeros 0 (m * 512))
          commands := commands } := by
  induction m with
  | zero => exact ⟨io.commands, by rw [Nat.zero_mul, copyInto_zero, Function.update_eq_self]; rfl⟩
  | succ m ih =>
    obtain ⟨commands, hm⟩ := ih (by omega)
    have hcond : ¬ (1 = 0 ∨ (!(drives i).present) = true) := by simp [hpresent]
    have hsector : sectorAt ((b * n + m) % 2 ^ 32) = b * (n * 512) + m * 512 := by
      rw [sectorAt, Nat.mod_eq_of_lt (show b * n + m < 2 ^ 32 by omega),
        Nat.mod_eq_of_lt (show b * n + m < 2 ^ 28 by omega), Nat.add_mul, Nat.mul_assoc]
    refine ⟨commands + 1, ?_⟩
    rw [List.range_succ, List.foldl_append, hm, List.foldl_cons, List.foldl_nil, driveWriteSectors]
    simp only [if_neg hcond, hide, if_neg (show ¬ (Backend.ide = .ramdisk) by decide), if_true, ideWriteSectors,
      hsector, Function.update_self, Function.update_idem]
    -- Sector `m` goes behind the sectors before it.
    have hcopy := copyInto_append (io.ide (drives i).ideDriveSel) zeros (b * (n * 512)) 0 (m * 512) 512
    rw [Nat.succ_mul m 512, ← hcopy]
    rfl

theorem zeroSectors_ram (hpresent : (drives i).present) (hram : (drives i).backend = .ramdisk)
    (hbase : (drives i).ramBase) (hend : b * (n * 512) + n * 512 ≤ (drives i).ramSize) (hlt : b * n + n ≤ 2 ^ 32)
    (m : ℕ) (hmn : m ≤ n) :
    (List.range m).foldl (fun io s => io.driveWriteSectors drives i ((b * n + s) % 2 ^ 32) 1 zeros) io =
      { io with ram := Function.update io.ram i (copyInto (io.ram i) (b * (n * 512)) zeros 0 (m * 512)) } := by
  induction m with
  | zero => rw [Nat.zero_mul, copyInto_zero, Function.update_eq_self]; rfl
  | succ m ih =>
    have hcond : ¬ (1 = 0 ∨ (!(drives i).present) = true) := by simp [hpresent]
    have hsector : (b * n + m) % 2 ^ 32 * 512 = b * (n * 512) + m * 512 := by
      rw [Nat.mod_eq_of_lt (show b * n + m < 2 ^ 32 by omega), Nat.add_mul, Nat.mul_assoc]
    have hin : b * (n * 512) + m * 512 + 1 * 512 ≤ (drives i).ramSize ∧ (drives i).ramBase = true := ⟨by omega, hbase⟩
    rw [List.range_succ, List.foldl_append, ih (by omega), List.foldl_cons, List.foldl_nil, driveWriteSectors]
    simp only [if_neg hcond, if_pos hram, hsector, if_pos hin, Function.update_self, Function.update_idem]
    have hcopy := copyInto_append (io.ram i) zeros (b * (n * 512)) 0 (m * 512) 512
    rw [Nat.succ_mul m 512, ← hcopy]
    rfl

/-- The sector writes of `ext2_set_bmap`, to a block that is not cached. Block numbers of a RAM disk have 32 bits. -/
theorem Mirrors.zero (hm : Mounted drives sizeOf) (h : Mirrors xxh64 drives sizeOf io d)
    (hr : Reaches (drives i) b 1)
    (hcache : (drives i).backend = .ide → content xxh64 io.cache ((drives i).driveId, b) = none)
    (hlba : (b + 1) * ((drives i).blockSize / 512) ≤ 2 ^ 32) :
    let io' := io.zeroSectors drives i (drives i).blockSize b
    Mirrors xxh64 drives sizeOf io' (Function.update d i (Function.update (d i) b zeros)) ∧
      io'.cache.tick = io.cache.tick := by
  have hpresent := hr.present
  obtain ⟨n, hn, hsize⟩ := hm.sectors i hpresent
  have hsectors : (drives i).blockSize / 512 = n := by rw [hsize, Nat.mul_div_cancel n (by decide)]
  -- The cache is not told, so the block must not be in it.
  have hcoherent : Coherent xxh64 drives io.cache (Function.update d i (Function.update (d i) b zeros)) := by
    intro i' b' hide' v hv j hj
    have hne : ¬ (i' = i ∧ b' = b) := by
      rintro ⟨rfl, rfl⟩
      rw [hcache hide'.2.1] at hv
      exact absurd hv (Option.some_ne_none v).symm
    rw [write_of_ne d hne]
    exact h.coherent i' b' hide' v hv j hj
  dsimp only
  rw [zeroSectors, hsectors]
  obtain hide | hram := hr
  · have hend := hide.lba_le hsize
    rw [Nat.succ_mul] at hend
    obtain ⟨commands, hzero⟩ := zeroSectors_ide hpresent hide.2.1 io hend n le_rfl
    rw [hzero]
    obtain ⟨hself, hother⟩ := image_update_ide hm hpresent hide.2.1 io { io with
      ide := Function.update io.ide (drives i).ideDriveSel
        (copyInto (io.ide (drives i).ideDriveSel) (b * (n * 512)) zeros 0 (n * 512))
      commands := commands } rfl rfl
    refine ⟨⟨h.sound, h.fresh, hcoherent, h.holds.write (.inl hide) ?_ hother⟩, rfl⟩
    rw [hself, image_of_ide hide.2.1, hsize]
  · have hend := hram.2.2.1
    rw [hsize, Nat.succ_mul] at hend
    rw [hsectors, Nat.succ_mul] at hlba
    rw [zeroSectors_ram hpresent hram.2.1 hram.2.2.2 hend hlba n le_rfl]
    obtain ⟨hself, hother⟩ := image_update_ram hram.2.1 io { io with
      ram := Function.update io.ram i (copyInto (io.ram i) (b * (n * 512)) zeros 0 (n * 512)) } rfl rfl
    refine ⟨⟨h.sound, h.fresh, hcoherent, h.holds.write (.inr hram) ?_ hother⟩, rfl⟩
    rw [hself, image_of_ram hram.2.1, hsize]

end

/-! ## Calls in any order -/

section

variable (xxh64 : ℕ → ℕ) {drives : ℕ → DriveDev} {sizeOf : ℕ → ℕ} {c : BlockCache} {ds bs : ℕ}

theorem lookupRun_sound (hbs : bs = sizeOf ds) (start n k : ℕ) (h : Intact sizeOf c) (out : Bytes) :
    Intact sizeOf (lookupRun xxh64 ds bs start n k out c).2.2 := by
  induction n generalizing k c out with
  | zero => exact h
  | succ n ih =>
    have hlookup := h.bcLookup xxh64 hbs ((start + k) % 2 ^ 32) out (k * bs % 2 ^ 32)
    rw [lookupRun]
    dsimp only
    split
    · exact ih (k + 1) hlookup _
    · exact hlookup

theorem insertRun_sound (hbs : bs = sizeOf ds) (start : ℕ) (src : Bytes) (n k : ℕ) (h : Intact sizeOf c) :
    Intact sizeOf (insertRun xxh64 ds bs start src n k c) := by
  induction n generalizing k c with
  | zero => exact h
  | succ n ih => exact ih (k + 1) (h.bcInsert xxh64 hbs _ src _)

/-- The transfers have nothing to do with the cache. -/
theorem readChunks_cache (sel remaining sector : ℕ) (io : BlockIo) (out : Bytes) (off : ℕ) :
    (io.readChunks sel remaining sector out off).2.cache = io.cache := by
  induction remaining using Nat.strong_induction_on generalizing sector io out off with
  | _ remaining ih =>
    rw [readChunks]
    split
    · dsimp only
      rw [ih _ (by split <;> omega)]
      rfl
    · rfl

variable (hm : Mounted drives sizeOf) {io : BlockIo} {i : ℕ}

include hm

/-- The blocks that the cache takes of a drive have the size of its blocks. -/
theorem size_of_not_ram (hpresent : (drives i).present) (hram : ¬ (drives i).backend = .ramdisk) :
    (drives i).blockSize = sizeOf (drives i).driveId := by
  refine (hm.size i hpresent ?_).symm
  cases hback : (drives i).backend with
  | none => exact absurd hback (hm.backed i hpresent)
  | ide => rfl
  | ramdisk => exact absurd hback hram

theorem sound_read (h : Intact sizeOf io.cache) (b : ℕ) (buffer : Bytes) :
    Intact sizeOf (io.ext2ReadBlock xxh64 drives i (drives i).blockSize b buffer).2.cache := by
  unfold ext2ReadBlock
  dsimp only
  split_ifs with hcond hram
  all_goals first | exact h | skip
  all_goals
    rw [not_or, Bool.not_eq_true', Bool.not_eq_false] at hcond
    have hsize := size_of_not_ram hm hcond.2 hram
  · exact h.start.bcLookup xxh64 hsize b buffer 0
  · exact (h.start.bcLookup xxh64 hsize b buffer 0).bcInsert xxh64 hsize b _ 0

theorem sound_readRun (h : Intact sizeOf io.cache) (start count : ℕ) (buffer : Bytes) :
    Intact sizeOf (io.ext2ReadBlocks xxh64 drives i (drives i).blockSize start count buffer).2.cache := by
  unfold ext2ReadBlocks
  dsimp only
  by_cases hcond : (drives i).blockSize = 0 ∨ count = 0 ∨ (!(drives i).present) = true
  · rw [if_pos hcond]
    exact h
  rw [if_neg hcond]
  by_cases hone : count = 1
  · rw [if_pos hone]
    exact sound_read xxh64 hm h start buffer
  rw [if_neg hone]
  by_cases hram : (drives i).backend = .ramdisk
  · rw [if_pos hram]
    split <;> exact h
  rw [if_neg hram]
  rw [not_or, not_or, Bool.not_eq_true', Bool.not_eq_false] at hcond
  have hsize := size_of_not_ram hm hcond.2.2 hram
  have hstart := h.start
  generalize io.cache.start = c at hstart ⊢
  -- What the lookups leave, also where there is no table.
  have hlook : Intact sizeOf (if c.table.isSome then
      lookupRun xxh64 (drives i).driveId (drives i).blockSize start count 0 buffer c else (false, buffer, c)).2.2 := by
    split
    · exact lookupRun_sound xxh64 hsize start count 0 hstart buffer
    · exact hstart
  generalize (if c.table.isSome then
      lookupRun xxh64 (drives i).driveId (drives i).blockSize start count 0 buffer c else (false, buffer, c)) = r
    at hlook ⊢
  split
  · exact hlook
  · split
    · rw [readChunks_cache]
      exact insertRun_sound xxh64 hsize start _ count 0 hlook
    · rw [readChunks_cache]
      exact hlook

theorem sound_write (h : Intact sizeOf io.cache) (b : ℕ) (data : Bytes) :
    Intact sizeOf (io.ext2WriteBlock xxh64 drives i (drives i).blockSize b data).cache := by
  unfold ext2WriteBlock
  dsimp only
  split_ifs with hcond hram
  all_goals first | exact h | skip
  rw [not_or, Bool.not_eq_true', Bool.not_eq_false] at hcond
  exact h.bcUpdate xxh64 (size_of_not_ram hm hcond.2 hram) b data

omit hm in
theorem zeroSectors_cache (drives : ℕ → DriveDev) (io : BlockIo) (i bs b : ℕ) :
    (io.zeroSectors drives i bs b).cache = io.cache := by
  rw [zeroSectors]
  generalize List.range (bs / 512) = sectors
  induction sectors generalizing io with
  | nil => rfl
  | cons s sectors ih =>
    rw [List.foldl_cons, ih, driveWriteSectors]
    dsimp only
    split_ifs <;> rfl

end

/-! ## Sequences of accesses -/

/-- An access to the block layer, or a change of the capacity of the cache -/
inductive BlockOp
  /-- `ext2_read_block` -/
  | read (drive block : ℕ)
  /-- `ext2_read_blocks` -/
  | readRun (drive start count : ℕ)
  /-- `ext2_write_block` -/
  | write (drive block : ℕ) (data : Bytes)
  /-- The sector writes of `ext2_set_bmap` -/
  | zero (drive block : ℕ)
  /-- `block_cache_set_capacity` -/
  | setCapacity (entries : ℕ)

/-- What an access to a block layer reads, and the next state -/
def act {σ : Type} (L : BlockLayer σ) (setCapacity : ℕ → σ → σ) (size : ℕ → ℕ) : BlockOp → σ → Bytes × σ
  | .read i b, s => L.read i (size i) b s
  | .readRun i b n, s => L.readRun i (size i) b n s
  | .write i b data, s => (zeros, L.write i (size i) b data s)
  | .zero i b, s => (zeros, L.zero i (size i) b s)
  | .setCapacity n, s => (zeros, setCapacity n s)

section

variable (xxh64 : ℕ → ℕ) (drives : ℕ → DriveDev)

/-- An access over the cache and the drives -/
def cachedAct : BlockOp → BlockIo → Bytes × BlockIo :=
  act (cached xxh64 drives) (fun n io => { io with cache := io.cache.setCapacity n }) fun i => (drives i).blockSize

/-- An access over the contents of the blocks -/
def plainAct : BlockOp → Disks → Bytes × Disks :=
  act plain (fun _ d => d) fun i => (drives i).blockSize

/-- An access is in order: its blocks are on the drive, and a block that `ext2_set_bmap` zeroes is not in the cache. -/
def InOrder (io : BlockIo) : BlockOp → Prop
  | .read i b => Reaches (drives i) b 1
  | .readRun i b n => Reaches (drives i) b n
  | .write i b _ => Reaches (drives i) b 1
  | .zero i b => Reaches (drives i) b 1 ∧ (b + 1) * ((drives i).blockSize / 512) ≤ 2 ^ 32 ∧
      ((drives i).backend = .ide → content xxh64 io.cache ((drives i).driveId, b) = none)
  | .setCapacity _ => True

/-- How many blocks an access reads or writes through the cache -/
def BlockOp.blocks : BlockOp → ℕ
  | .readRun _ _ n => n
  | .read _ _ | .write _ _ _ => 1
  | .zero _ _ | .setCapacity _ => 0

/-- The contents of the blocks of the drives -/
def contents (io : BlockIo) : Disks := fun i b j => image drives io i (b * (drives i).blockSize + j)

end

section

variable {xxh64 : ℕ → ℕ} {drives : ℕ → DriveDev} {sizeOf : ℕ → ℕ} {io : BlockIo} {d : Disks}

theorem trunc_congr {n : ℕ} {x y : Bytes} (h : ∀ j < n, x j = y j) : trunc n x = trunc n y := by
  funext j
  by_cases hj : j < n
  · rw [trunc_of_lt _ hj, trunc_of_lt _ hj, h j hj]
  · simp [trunc, hj]

/-- One access in order reads what the blocks hold, and sets the clock forward twice for each block at most. -/
theorem act_mirrors (hm : Mounted drives sizeOf) (h : Mirrors xxh64 drives sizeOf io d) (op : BlockOp)
    (hop : InOrder xxh64 drives io op) (htick : io.cache.tick + 2 * op.blocks < 2 ^ 64) :
    (cachedAct xxh64 drives op io).1 = (plainAct drives op d).1 ∧
      Mirrors xxh64 drives sizeOf (cachedAct xxh64 drives op io).2 (plainAct drives op d).2 ∧
        (cachedAct xxh64 drives op io).2.cache.tick ≤ io.cache.tick + 2 * op.blocks := by
  cases op with
  | read i b =>
    obtain ⟨hmir, hbytes, hclock⟩ := h.read hm hop htick zeros
    exact ⟨trunc_congr hbytes, hmir, hclock⟩
  | readRun i b n =>
    obtain ⟨hmir, hbytes, hclock⟩ := h.readRun hm hop htick zeros
    exact ⟨trunc_congr hbytes, hmir, hclock⟩
  | write i b data =>
    obtain ⟨hmir, hclock⟩ := h.write hm hop htick data
    exact ⟨rfl, hmir, hclock⟩
  | zero i b =>
    obtain ⟨hmir, hclock⟩ := h.zero hm hop.1 hop.2.2 hop.2.1
    exact ⟨rfl, hmir, hclock.le⟩
  | setCapacity n =>
    obtain ⟨hfresh, hclock, hkeep⟩ := setCapacity_spec h.fresh n
    exact ⟨rfl, ⟨h.sound.setCapacity n, hfresh, h.coherent.keeps hkeep, h.holds⟩, hclock.le⟩

/-- Accesses in order read what the blocks hold, as long as the clock of the cache does not wrap around. -/
theorem Mirrors.outputs_eq (hm : Mounted drives sizeOf) (h : Mirrors xxh64 drives sizeOf io d) {ops : List BlockOp}
    (hops : Along (fun io op => (cachedAct xxh64 drives op io).2) (InOrder xxh64 drives) io ops)
    (htick : io.cache.tick + 2 * (ops.map BlockOp.blocks).sum < 2 ^ 64) :
    outputs (cachedAct xxh64 drives) ops io = outputs (plainAct drives) ops d := by
  refine (outputs_eq_of_sim BlockOp.blocks
    (R := fun n io d => Mirrors xxh64 drives sizeOf io d ∧ io.cache.tick + 2 * n < 2 ^ 64) ?_ ⟨h, htick⟩ hops).1
  rintro n io d op ⟨h, htick⟩ hop
  obtain ⟨hval, hmir, hclock⟩ := act_mirrors hm h op hop (by omega)
  exact ⟨hval, hmir, by omega⟩

/-- Any access keeps the cache sound. -/
theorem act_sound (hm : Mounted drives sizeOf) (h : Intact sizeOf io.cache) (op : BlockOp) :
    Intact sizeOf (cachedAct xxh64 drives op io).2.cache := by
  cases op with
  | read i b => exact sound_read xxh64 hm h b zeros
  | readRun i b n => exact sound_readRun xxh64 hm h b n zeros
  | write i b data => exact sound_write xxh64 hm h b data
  | zero i b =>
    have hcache := zeroSectors_cache drives io i (drives i).blockSize b
    exact hcache ▸ h
  | setCapacity n => exact h.setCapacity n

/-- Before the first access, the cache is empty. -/
theorem mirrors_boot (xxh64 : ℕ → ℕ) (drives : ℕ → DriveDev) (sizeOf : ℕ → ℕ) (heap : ℕ → Bool) (ide ram : ℕ → Bytes) :
    Mirrors xxh64 drives sizeOf ⟨boot heap, ide, ram, 0⟩ (contents drives ⟨boot heap, ide, ram, 0⟩) :=
  ⟨Intact.boot heap, fun t ht => absurd ht (Option.not_mem_none t),
    fun _ _ _ v hv => absurd hv (Option.some_ne_none v).symm, fun _ _ _ _ _ => rfl⟩

end

end BlockIo

end Sandflea
