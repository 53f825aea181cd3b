import Sandflea.Ext2.Cache

/-!
# The block layer from boot on

`ext2_init` probes the IDE drives and falls back to a boot module. What it leaves is a table of drives as
`Ext2/Cache.lean` assumes it (`ext2Init_mounted`), so that its results hold from boot on: what is read is what was
written (`boot_outputs`, and `boot_agree` for the programs of the file system), and the cache is sound after any calls
at all (`boot_sound`). The cache is an LRU list of blocks as long as there is memory (`runBc_lists`), which is why a run
of blocks that fits is not read from the drive again (`readRun_twice`).
-/

namespace Sandflea

open Bytes Runs Probing BlockCache BlockIo

/-! ## The drives -/

/-- `struct limine_file`: what `ext2_init` reads of a boot module -/
structure BootModule where
  /-- Whether `address` is not null -/
  address : Bool
  /-- `size` -/
  size : ℕ
  /-- The bytes at `address` -/
  bytes : Bytes

/-- An entry of `drives` before `ext2_init` -/
def DriveDev.zero : DriveDev := ⟨false, .none, 0, false, 0, 0, 0⟩

/-- `drive_read_sectors` of the superblock, into a buffer of 1024 bytes -/
def superblockBytes (d : DriveDev) (bytes : Bytes) : Bytes :=
  if d.backend = .ramdisk then
    if 1024 + 1024 ≤ d.ramSize ∧ d.ramBase then fun i => bytes (1024 + i) else zeros
  else fun i => bytes (1024 + i)

/-- `ext2_init_drive`: what it does to the drive, with the bytes that the drive holds -/
def ext2InitDrive (d : DriveDev) (bytes : Bytes) : DriveDev :=
  if !d.present then d
  else
    let sb := Superblock.ofBytes (superblockBytes d bytes)
    if sb.magicSignature ≠ ext2Signature then { d with present := false }
    else { d with blockSize := sb.blockSize }

/-- The loop of `ext2_init` over the boot modules, with the bytes of the one that is mounted -/
def mountModule (d : DriveDev) : List BootModule → ℕ → DriveDev × Bytes
  | [], _ => (d, zeros)
  | m :: ms, i =>
    if !m.address || m.size = 0 then mountModule d ms (i + 1)
    else
      let d := ext2InitDrive { d with
        backend := .ramdisk
        ramBase := true
        ramSize := m.size
        driveId := (i + 1) % 256
        present := true } m.bytes
      if d.present then (d, m.bytes) else mountModule d ms (i + 1)

section

variable (detect : ℕ → Bool) (ide : ℕ → Bytes) (modules : List BootModule)

/-- Drive A, as `ext2_init` leaves it, with the bytes of its RAM disk -/
def initDriveA : DriveDev × Bytes :=
  let d := DriveDev.zero
  let d := if detect 0xE0 then
      ext2InitDrive { d with backend := .ide, ideDriveSel := 0xE0, driveId := 0xE0, present := true } (ide 0xE0)
    else d
  if d.present then (d, zeros) else mountModule d modules 0

/-- Drive B, as `ext2_init` leaves it -/
def initDriveB : DriveDev :=
  ext2InitDrive { DriveDev.zero with
    driveId := 0xF0
    backend := .ide
    ideDriveSel := 0xF0
    present := detect 0xF0 } (ide 0xF0)

/-- `drives` after `ext2_init` -/
def ext2Init : ℕ → DriveDev
  | 0 => (initDriveA detect ide modules).1
  | 1 => initDriveB detect ide
  | _ => .zero

/-- The block layer after `ext2_init`, before the first access -/
def bootIo (heap : ℕ → Bool) : BlockIo :=
  ⟨boot heap, ide, Function.update (fun _ => zeros) 0 (initDriveA detect ide modules).2, 0⟩

/-- The blocks of the IDE drives have less than 256 sectors. -/
def SmallBlocks : Prop :=
  ∀ i, (ext2Init detect ide modules i).present → (ext2Init detect ide modules i).backend = .ide →
    (ext2Init detect ide modules i).blockSize < 256 * 512

end

/-- `ext2_init_drive` sets the block size of the drives that it mounts, and nothing else of them. -/
theorem ext2InitDrive_present {d : DriveDev} {bytes : Bytes} (h : (ext2InitDrive d bytes).present) :
    ∃ sb : Superblock, ext2InitDrive d bytes = { d with blockSize := sb.blockSize } := by
  unfold ext2InitDrive at h ⊢
  by_cases hpresent : d.present = true
  · simp only [hpresent, Bool.not_true, Bool.false_eq_true, if_false] at h ⊢
    split at h
    · exact absurd h Bool.false_ne_true
    · rename_i hmagic
      rw [if_neg hmagic, ← hpresent]
      exact ⟨_, rfl⟩
  · rw [Bool.not_eq_true] at hpresent
    simp [hpresent] at h

/-- A drive that does not mount keeps its registers. -/
theorem ext2InitDrive_backend (d : DriveDev) (bytes : Bytes) : (ext2InitDrive d bytes).backend = d.backend := by
  unfold ext2InitDrive
  dsimp only
  split_ifs <;> rfl

/-- What is mounted from a boot module is a RAM disk. -/
theorem mountModule_present {d : DriveDev} (hd : d.present = false) (ms : List BootModule) (i : ℕ)
    (h : (mountModule d ms i).1.present) :
    (mountModule d ms i).1.backend = .ramdisk ∧ ∃ sb : Superblock, (mountModule d ms i).1.blockSize = sb.blockSize := by
  induction ms generalizing d i with
  | nil => exact absurd (hd.symm.trans h) Bool.false_ne_true
  | cons m ms ih =>
    rw [mountModule] at h ⊢
    dsimp only at h ⊢
    split_ifs at h ⊢ with hskip hmount
    · exact ih hd (i + 1) h
    · obtain ⟨sb, hsb⟩ := ext2InitDrive_present hmount
      exact ⟨ext2InitDrive_backend _ _, sb, by rw [hsb]⟩
    · exact ih (Bool.not_eq_true _ ▸ hmount) (i + 1) h

section

variable {detect : ℕ → Bool} {ide : ℕ → Bytes} {modules : List BootModule}

/-- The drives that `ext2_init` mounts: drive A by its registers or as a RAM disk, and drive B by its registers -/
theorem ext2Init_present {i : ℕ} (h : (ext2Init detect ide modules i).present) :
    (∃ sb : Superblock, (ext2Init detect ide modules i).blockSize = sb.blockSize) ∧
      ((ext2Init detect ide modules i).backend = .ramdisk ∨ (ext2Init detect ide modules i).backend = .ide ∧
        ((i = 0 ∧ (ext2Init detect ide modules i).driveId = 0xE0 ∧
            (ext2Init detect ide modules i).ideDriveSel = 0xE0) ∨
          (i = 1 ∧ (ext2Init detect ide modules i).driveId = 0xF0 ∧
            (ext2Init detect ide modules i).ideDriveSel = 0xF0))) := by
  rcases i with _ | _ | i
  · simp only [ext2Init, initDriveA] at h ⊢
    by_cases hdetect : detect 0xE0 = true
    · rw [if_pos hdetect] at h ⊢
      split at h
      · rename_i hmount
        rw [if_pos hmount]
        obtain ⟨sb, hsb⟩ := ext2InitDrive_present hmount
        rw [hsb]
        exact ⟨⟨sb, rfl⟩, .inr ⟨rfl, .inl ⟨trivial, rfl, rfl⟩⟩⟩
      · rename_i hmount
        rw [if_neg hmount]
        obtain ⟨hram, hsize⟩ := mountModule_present (Bool.not_eq_true _ ▸ hmount) modules 0 h
        exact ⟨hsize, .inl hram⟩
    · rw [if_neg hdetect, if_neg (by decide)] at h ⊢
      obtain ⟨hram, hsize⟩ := mountModule_present rfl modules 0 h
      exact ⟨hsize, .inl hram⟩
  · simp only [ext2Init, initDriveB] at h ⊢
    obtain ⟨sb, hsb⟩ := ext2InitDrive_present h
    rw [hsb]
    exact ⟨⟨sb, rfl⟩, .inr ⟨rfl, .inr ⟨trivial, rfl, rfl⟩⟩⟩
  · exact absurd h Bool.false_ne_true

theorem ext2Init_ide {i : ℕ} (h : (ext2Init detect ide modules i).present)
    (hide : (ext2Init detect ide modules i).backend = .ide) :
    (i = 0 ∧ (ext2Init detect ide modules i).driveId = 0xE0 ∧ (ext2Init detect ide modules i).ideDriveSel = 0xE0) ∨
      (i = 1 ∧ (ext2Init detect ide modules i).driveId = 0xF0 ∧
        (ext2Init detect ide modules i).ideDriveSel = 0xF0) := by
  obtain hram | ⟨-, hcases⟩ := (ext2Init_present h).2
  · exact absurd (hram.symm.trans hide) (by decide)
  · exact hcases

/-- The block sizes of the IDE drives, by their names in the cache -/
def sizeOfId (drives : ℕ → DriveDev) (ds : ℕ) : ℕ :=
  if ds = 0xE0 then (drives 0).blockSize else (drives 1).blockSize

/-- `ext2_init` sets the drives up. -/
theorem ext2Init_mounted (hsmall : SmallBlocks detect ide modules) :
    Mounted (ext2Init detect ide modules) (sizeOfId (ext2Init detect ide modules)) := by
  refine ⟨fun i hi => ?_, fun i hi => ?_, hsmall, fun i hi hide => ?_, fun i j hi hide hj hjde h => ?_,
    fun i j hi hide hj hjde h => ?_⟩
  · obtain hram | ⟨hide, -⟩ := (ext2Init_present hi).2
    · rw [hram]
      decide
    · rw [hide]
      decide
  · obtain ⟨⟨sb, hsb⟩, -⟩ := ext2Init_present hi
    obtain ⟨n, hn⟩ := sb.sector_dvd_blockSize
    have hpos := sb.blockSize_pos
    exact ⟨n, by omega, by rw [hsb, hn, Nat.mul_comm]⟩
  · obtain ⟨rfl, hid, -⟩ | ⟨rfl, hid, -⟩ := ext2Init_ide hi hide
    · rw [hid]
      rfl
    · rw [hid]
      rfl
  · obtain ⟨rfl, hid, -⟩ | ⟨rfl, hid, -⟩ := ext2Init_ide hi hide <;>
      obtain ⟨rfl, hid', -⟩ | ⟨rfl, hid', -⟩ := ext2Init_ide hj hjde
    · rfl
    · exact absurd (hid.symm.trans (h.trans hid')) (by decide)
    · exact absurd (hid.symm.trans (h.trans hid')) (by decide)
    · rfl
  · obtain ⟨rfl, -, hsel⟩ | ⟨rfl, -, hsel⟩ := ext2Init_ide hi hide <;>
      obtain ⟨rfl, -, hsel'⟩ | ⟨rfl, -, hsel'⟩ := ext2Init_ide hj hjde
    · rfl
    · exact absurd (hsel.symm.trans (h.trans hsel')) (by decide)
    · exact absurd (hsel.symm.trans (h.trans hsel')) (by decide)
    · rfl

end

/-- Two empty IDE drives with blocks of 1 KiB -/
def emptyIde : ℕ → Bytes := fun _ o => if o = 1080 then 0x53 else if o = 1081 then 0xEF else 0

theorem emptyIde_small : SmallBlocks (fun _ => true) emptyIde [] := by
  intro i hi _
  rcases i with _ | _ | i
  · decide
  · decide
  · exact absurd hi Bool.false_ne_true

theorem emptyIde_onIde {i start count : ℕ} (hi : i < 2) (hstart : start + count < 2 ^ 20) :
    OnIde (ext2Init (fun _ => true) emptyIde [] i) start count := by
  have hsize : (ext2Init (fun _ => true) emptyIde [] i).present = true ∧
      (ext2Init (fun _ => true) emptyIde [] i).backend = .ide ∧
        (ext2Init (fun _ => true) emptyIde [] i).blockSize = 1024 := by
    obtain rfl | rfl : i = 0 ∨ i = 1 := by omega
    · decide
    · decide
  refine ⟨hsize.1, hsize.2.1, ?_, ?_⟩
  · rw [hsize.2.2]
    omega
  · rw [hsize.2.2]
    omega

/-! ## From boot on -/

section

variable {detect : ℕ → Bool} {ide : ℕ → Bytes} {modules : List BootModule}

/-- Whatever the blocks, the order of the calls, the hash function, and the outcomes of `kmalloc`: the counter of the
cache is the number of its entries, at most its capacity; each entry has its own buffer of the right size, and no buffer
is lost; and no access to the cache leaves its buffer. -/
theorem boot_sound (hsmall : SmallBlocks detect ide modules) (xxh64 : ℕ → ℕ) (heap : ℕ → Bool) (ops : List BlockOp) :
    Always (fun io op => (cachedAct xxh64 (ext2Init detect ide modules) op io).2)
      (fun io => Intact (sizeOfId (ext2Init detect ide modules)) io.cache ∧ io.cache.used ≤ io.cache.cap)
      (bootIo detect ide modules heap) ops := by
  have hm := ext2Init_mounted hsmall
  have hstep : ∀ io op, Intact (sizeOfId (ext2Init detect ide modules)) io.cache → True →
      Intact (sizeOfId (ext2Init detect ide modules)) (cachedAct xxh64 (ext2Init detect ide modules) op io).2.cache :=
    fun io op h _ => act_sound hm h op
  have hboot : Intact (sizeOfId (ext2Init detect ide modules)) (bootIo detect ide modules heap).cache :=
    Intact.boot heap
  have halways : Always (fun io op => (cachedAct xxh64 (ext2Init detect ide modules) op io).2)
      (fun io => Intact (sizeOfId (ext2Init detect ide modules)) io.cache) (bootIo detect ide modules heap) ops :=
    always_of_along hstep hboot (along_of_forall (fun _ _ _ => trivial) _)
  exact halways.mono fun io h => ⟨h, h.used_le⟩

/-- Two empty drives, a cache of 64 entries that gets no memory after the first 20 calls -/
theorem boot_sound_emptyIde :
    Always (fun io op => (cachedAct id (ext2Init (fun _ => true) emptyIde []) op io).2)
      (fun io => Intact (sizeOfId (ext2Init (fun _ => true) emptyIde [])) io.cache ∧ io.cache.used ≤ io.cache.cap)
      (bootIo (fun _ => true) emptyIde [] fun n => decide (n < 20))
      [.readRun 0 2 60, .write 1 7 zeros, .read 0 4000000000, .setCapacity 5] :=
  boot_sound emptyIde_small id _ _

end

/-! ## Programs of the file system -/

/-- The kernel with another state of the block layer -/
def Kernel.withStore {σ τ : Type} (k : Kernel σ) (s : τ) : Kernel τ where
  drives := k.drives
  driveCount := k.driveCount
  active := k.active
  store := s
  heap := k.heap
  proc := k.proc
  procCwd := k.procCwd
  sessionCwd := k.sessionCwd
  cwd := k.cwd
  fdTable := k.fdTable

section

variable (xxh64 : ℕ → ℕ) (drives : ℕ → DriveDev)

/-- The access of a command, with the active drive -/
def accessOf (active : ℕ) : Op → Option BlockOp
  | .readBlock b => some (.read active b)
  | .readBlocks b n => some (.readRun active b n)
  | .writeBlock b data => some (.write active b data)
  | .zeroSectors b => some (.zero active b)
  | _ => none

/-- The access of a command is in order, and the clock of the cache does not wrap around. -/
def OpInOrder (op : Op) (k : Kernel BlockIo) : Prop :=
  ∀ a ∈ accessOf k.active op, InOrder xxh64 drives k.store a ∧ k.store.cache.tick + 2 * a.blocks < 2 ^ 64

/-- The kernel over the cache and the drives, and the kernel over plain blocks -/
structure KernelMirrors (sizeOf : ℕ → ℕ) (k : Kernel BlockIo) (k' : PlainKernel) : Prop where
  rest : k' = k.withStore k'.store
  sizes : ∀ i, (drives i).present → (k.drives i).sb.blockSize = (drives i).blockSize
  store : Mirrors xxh64 drives sizeOf k.store k'.store

end

section

variable {xxh64 : ℕ → ℕ} {drives : ℕ → DriveDev} {sizeOf : ℕ → ℕ}

theorem present_of_inOrder {io : BlockIo} {a : BlockOp} (h : InOrder xxh64 drives io a) {i : ℕ} {op : Op}
    (ha : accessOf i op = some a) : (drives i).present := by
  cases op <;> simp only [accessOf, Option.some.injEq, reduceCtorEq] at ha <;> subst ha
  · exact Reaches.present h
  · exact Reaches.present h
  · exact Reaches.present h
  · exact Reaches.present h.1

/-- A command in order does the same over the cache and over plain blocks. -/
theorem kernelStep_agree (hm : Mounted drives sizeOf) (op : Op) {k : Kernel BlockIo} {k' : PlainKernel}
    (h : KernelMirrors xxh64 drives sizeOf k k') (hop : OpInOrder xxh64 drives op k) :
    Prog.Agree (KernelMirrors xxh64 drives sizeOf) (kernelStep (cached xxh64 drives) op k)
      (kernelStep plain op k') := by
  obtain ⟨hrest, hsizes, hstore⟩ := h
  -- Only the accesses look at the block layer.
  have haccess : ∀ a, accessOf k.active op = some a →
      k.sb.blockSize = (drives k.active).blockSize ∧
        (cachedAct xxh64 drives a k.store).1 = (plainAct drives a k'.store).1 ∧
          Mirrors xxh64 drives sizeOf (cachedAct xxh64 drives a k.store).2 (plainAct drives a k'.store).2 := by
    intro a ha
    obtain ⟨horder, htick⟩ := hop a ha
    obtain ⟨hval, hmir, -⟩ := act_mirrors hm hstore a horder htick
    exact ⟨hsizes k.active (present_of_inOrder horder ha), hval, hmir⟩
  generalize k'.store = d at hrest hstore haccess
  subst hrest
  cases op with
  | readBlock b =>
    obtain ⟨hsize, hval, hmir⟩ := haccess _ rfl
    simp only [kernelStep, Prog.Agree, Kernel.withStore, Kernel.sb] at hsize ⊢
    rw [hsize]
    exact ⟨hval, rfl, hsizes, hmir⟩
  | readBlocks b n =>
    obtain ⟨hsize, hval, hmir⟩ := haccess _ rfl
    simp only [kernelStep, Prog.Agree, Kernel.withStore, Kernel.sb] at hsize ⊢
    rw [hsize]
    exact ⟨hval, rfl, hsizes, hmir⟩
  | writeBlock b data =>
    obtain ⟨hsize, -, hmir⟩ := haccess _ rfl
    simp only [kernelStep, Prog.Agree, Kernel.withStore, Kernel.sb] at hsize ⊢
    rw [hsize]
    exact ⟨trivial, rfl, hsizes, hmir⟩
  | zeroSectors b =>
    obtain ⟨hsize, -, hmir⟩ := haccess _ rfl
    simp only [kernelStep, Prog.Agree, Kernel.withStore, Kernel.sb] at hsize ⊢
    rw [hsize]
    exact ⟨trivial, rfl, hsizes, hmir⟩
  | kmalloc n => exact ⟨rfl, rfl, hsizes, hstore⟩
  | superblock => exact ⟨rfl, rfl, hsizes, hstore⟩
  | groupDesc g =>
    simp only [kernelStep]
    by_cases hg : g < k.sb.cachedDescs
    · rw [if_pos hg, if_pos (show g < (k.withStore d).sb.cachedDescs from hg)]
      exact ⟨rfl, rfl, hsizes, hstore⟩
    · rw [if_neg hg, if_neg (show ¬ g < (k.withStore d).sb.cachedDescs from hg)]
      trivial
  | setGroupDesc g desc =>
    simp only [kernelStep]
    by_cases hg : g < k.sb.cachedDescs
    · rw [if_pos hg, if_pos (show g < (k.withStore d).sb.cachedDescs from hg)]
      refine ⟨rfl, rfl, fun i hi => ?_, hstore⟩
      by_cases hactive : i = k.active
      · subst hactive
        simpa only [Function.update_self] using hsizes k.active hi
      · simpa only [Function.update_of_ne hactive] using hsizes i hi
    · rw [if_neg hg, if_neg (show ¬ g < (k.withStore d).sb.cachedDescs from hg)]
      trivial
  | driveList => exact ⟨rfl, rfl, hsizes, hstore⟩
  | switchDrive i =>
    simp only [kernelStep, Prog.Agree, true_and]
    by_cases hpresent : (k.drives i).present = true
    · rw [if_pos hpresent, if_pos (show ((k.withStore d).drives i).present = true from hpresent)]
      exact ⟨rfl, hsizes, hstore⟩
    · rw [if_neg hpresent, if_neg (show ¬ ((k.withStore d).drives i).present = true from hpresent)]
      exact ⟨rfl, hsizes, hstore⟩
  | activeName => exact ⟨rfl, rfl, hsizes, hstore⟩
  | cwds => exact ⟨rfl, rfl, hsizes, hstore⟩
  | fd i => exact ⟨rfl, rfl, hsizes, hstore⟩
  | setFd i f => exact ⟨rfl, rfl, hsizes, hstore⟩
  | fault => trivial

end

/-- A kernel with the two empty drives -/
def emptyKernel : Kernel BlockIo :=
  (Kernel.oneDrive
    ⟨str "A", true, Superblock.ofBytes fun o => emptyIde 0 (1024 + o), fun g => GroupDesc.ofBytes zeros g⟩
    fun _ => zeros).withStore (bootIo (fun _ => true) emptyIde [] fun _ => false)

/-- A call of the functions of the cache -/
inductive BcOp
  /-- `bc_lookup` -/
  | lookup (ds bid bs : ℕ) (out : Bytes) (off : ℕ)
  /-- `bc_insert` -/
  | insert (ds bid bs : ℕ) (src : Bytes) (off : ℕ)
  /-- `bc_update` -/
  | update (ds bid bs : ℕ) (src : Bytes)
  /-- `block_cache_set_capacity` -/
  | setCapacity (entries : ℕ)

/-- A call, and whether it was a hit -/
def BcOp.run (xxh64 : ℕ → ℕ) : BcOp → BlockCache → Bool × BlockCache
  | .lookup ds bid bs out off, c =>
    let r := c.bcLookup xxh64 ds bid bs out off
    (r.1, r.2.2)
  | .insert ds bid bs src off, c => (false, c.bcInsert xxh64 ds bid bs src off)
  | .update ds bid bs src, c => (false, c.bcUpdate xxh64 ds bid bs src)
  | .setCapacity n, c => (false, c.setCapacity n)

/-- What a cache is for: so many keys, those that were used last, from the newest to the oldest -/
structure LruList where
  /-- How many keys there can be -/
  cap : ℕ
  /-- The keys -/
  keys : List (ℕ × ℕ)

/-- The same call of the list. A lookup of a key that is not there changes nothing; another capacity begins anew. -/
def BcOp.spec : BcOp → LruList → Bool × LruList
  | .lookup ds bid _ _ _, l =>
    if (ds, bid) ∈ l.keys then (true, { l with keys := Table.touch l.cap (ds, bid) l.keys }) else (false, l)
  | .insert ds bid _ _ _, l => (false, { l with keys := Table.touch l.cap (ds, bid) l.keys })
  | .update ds bid _ _, l => (false, { l with keys := Table.touch l.cap (ds, bid) l.keys })
  | .setCapacity n, l =>
    let cap := roundUp (clamp n) 32 1
    (false, if cap = l.cap then l else ⟨cap, []⟩)

/-- The sizes of the blocks are right. -/
def BcOp.Sized (sizeOf : ℕ → ℕ) : BcOp → Prop
  | .lookup ds _ bs _ _ | .insert ds _ bs _ _ | .update ds _ bs _ => 0 < bs ∧ bs = sizeOf ds
  | .setCapacity _ => True

/-- The cache is such a list, with memory for any block and so many ticks of its clock left. -/
structure IsList (xxh64 sizeOf : ℕ → ℕ) (n : ℕ) (c : BlockCache) (l : LruList) : Prop where
  sound : Intact sizeOf c
  fresh : Fresh xxh64 c
  lists : Lists xxh64 c l.keys
  cap : c.cap = l.cap
  target : c.cap = roundUp (clamp c.target) 32 1
  heap : ∀ i, c.heap i = true
  clock : c.tick + n < 2 ^ 64

section

variable {xxh64 sizeOf : ℕ → ℕ} {c : BlockCache} {ds bid bs : ℕ} {l : List (ℕ × ℕ)}

theorem clamp_clamp (n : ℕ) : clamp (clamp n) = clamp n := by
  obtain ⟨hmin, hmax⟩ := clamp_bounds n
  rw [clamp, if_neg (not_lt.mpr hmin), if_neg (not_lt.mpr hmax)]

/-- `bc_lookup`, `bc_insert`, and `bc_update` leave the target alone. -/
theorem bcInsert_target (c : BlockCache) (src : Bytes) (off : ℕ) :
    (c.bcInsert xxh64 ds bid bs src off).target = c.target := by
  unfold BlockCache.bcInsert BlockCache.fill BlockCache.kmalloc
  dsimp only
  split
  · rfl
  · split
    · rfl
    · split
      · rfl
      · split_ifs <;> rfl
      · split_ifs <;> rfl

theorem bcLookup_target (c : BlockCache) (out : Bytes) (off : ℕ) :
    (c.bcLookup xxh64 ds bid bs out off).2.2.target = c.target := by
  unfold BlockCache.bcLookup
  split
  · rfl
  · split
    · rfl
    · dsimp only
      split <;> rfl

theorem bcUpdate_target (c : BlockCache) (src : Bytes) : (c.bcUpdate xxh64 ds bid bs src).target = c.target := by
  unfold BlockCache.bcUpdate
  split
  · rfl
  · split
    · rfl
    · split
      · rfl
      · exact bcInsert_target c src 0

/-- An update puts the block in front of the list. -/
theorem bcUpdate_lists (hs : Intact sizeOf c) (hf : Fresh xxh64 c) (htick : c.tick + 1 < 2 ^ 64) (hpos : 0 < bs)
    (hheap : c.heap 0 = true) (h : Lists xxh64 c l) (ds bid : ℕ) (src : Bytes) :
    let c' := c.bcUpdate xxh64 ds bid bs src
    Lists xxh64 c' (Table.touch c.cap (ds, bid) l) ∧ c'.cap = c.cap ∧
      (c'.heap = c.heap ∨ c'.heap = fun i => c.heap (i + 1)) := by
  obtain ⟨t, slots, ht, -, -, -⟩ := id h
  have hok := (hs.full t ht).1
  unfold BlockCache.bcUpdate
  simp only [ht, if_neg (hok.usable hpos)]
  cases hprobe : bcProbe xxh64 t c.cap ds bid with
  | none => exact bcInsert_lists hs hf htick hpos hheap h ds bid src 0
  | some slot =>
    obtain ⟨hvalid, hdrive, hblock⟩ := bcProbe_some hok hprobe
    rw [bcProbe_eq xxh64 hok.pow] at hprobe
    obtain ⟨before, after, hplace⟩ := Table.find_eq_some hprobe
    exact ⟨h.hit hs hf htick ht hplace (List.find?_some hprobe) (e := { t slot with
      data := (t slot).data.map fun b => { b with bytes := copyInto b.bytes 0 src 0 bs }
      lastAccess := c.nextTick }) hvalid (by rw [hdrive, hblock]) rfl rfl rfl, rfl, .inl rfl⟩

/-- A new table is an empty list. -/
theorem bcInit_lists (hs : Intact sizeOf c) (hf : Fresh xxh64 c) (hheap : ∀ i, c.heap i = true) {n : ℕ}
    (hclock : c.tick + n < 2 ^ 64) (hnew : ¬ (c.table.isSome ∧ c.cap = roundUp (clamp c.target) 32 1)) :
    IsList xxh64 sizeOf n c.bcInit ⟨roundUp (clamp c.target) 32 1, []⟩ := by
  obtain ⟨hfresh, htick, -⟩ := bcInit_spec hf
  refine ⟨hs.bcInit, hfresh, ?_, ?_, ?_, ?_, by omega⟩
  · refine ⟨fun _ => .zero, [], by simp [BlockCache.bcInit, hnew, BlockCache.kmalloc, hheap 0], ?_, ⟨?_, .nil, ?_⟩, rfl⟩
    · exact fun key => List.pairwise_of_forall fun _ x hx => absurd hx (by simp [Table.holds, entries, BcEntry.zero])
    · exact fun x => iff_of_false List.not_mem_nil (by simp [entries, BcEntry.zero])
    · exact fun key x _ hx => absurd hx (by simp [Table.holds, entries, BcEntry.zero])
  · simp [BlockCache.bcInit, hnew, BlockCache.kmalloc, hheap 0]
  · simp [BlockCache.bcInit, hnew, BlockCache.kmalloc, hheap 0, clamp_clamp]
  · intro i
    simp [BlockCache.bcInit, hnew, BlockCache.kmalloc, hheap]

/-- A heap that always has memory has it after a call of `kmalloc`, too. -/
theorem heap_shift (h : ∀ i, c.heap i = true) {c' : BlockCache}
    (hc' : c'.heap = c.heap ∨ c'.heap = fun i => c.heap (i + 1)) (i : ℕ) : c'.heap i = true := by
  obtain heq | heq := hc'
  · rw [heq, h]
  · rw [heq]
    exact h (i + 1)

/-- A call of the cache and the same call of the list -/
theorem BcOp.run_spec {n : ℕ} {l : LruList} (op : BcOp) (hop : op.Sized sizeOf)
    (h : IsList xxh64 sizeOf (1 + n) c l) :
    (op.run xxh64 c).1 = (op.spec l).1 ∧ IsList xxh64 sizeOf n (op.run xxh64 c).2 (op.spec l).2 := by
  obtain ⟨hs, hf, hl, hcap, htarget, hheap, hclock⟩ := h
  cases op with
  | lookup ds bid bs out off =>
    obtain ⟨hfresh, htick, -, -⟩ := bcLookup_spec hs hf (by omega) hop.1 ds bid out off
    obtain ⟨hhit, hl', hcap', hheap'⟩ := bcLookup_lists hs hf (by omega) hop.1 hl ds bid out off
    have hsound := hs.bcLookup xxh64 hop.2 bid out off
    simp only [BcOp.run, BcOp.spec]
    by_cases hmem : (ds, bid) ∈ l.keys
    · rw [if_pos hmem, hcap] at hl'
      rw [if_pos hmem]
      exact ⟨hhit.mpr hmem, hsound, hfresh, hl', hcap'.trans hcap, by rw [hcap', bcLookup_target, htarget],
        heap_shift hheap (.inl hheap'), by omega⟩
    · rw [if_neg hmem] at hl'
      rw [if_neg hmem]
      exact ⟨Bool.eq_false_iff.mpr fun htrue => hmem (hhit.mp htrue), hsound, hfresh, hl', hcap'.trans hcap,
        by rw [hcap', bcLookup_target, htarget], heap_shift hheap (.inl hheap'), by omega⟩
  | insert ds bid bs src off =>
    obtain ⟨hfresh, htick, -, -⟩ := bcInsert_spec hs hf (by omega) hop.1 ds bid src off
    obtain ⟨hl', hcap', hheap'⟩ := bcInsert_lists hs hf (by omega) hop.1 (hheap 0) hl ds bid src off
    rw [hcap] at hl'
    exact ⟨rfl, hs.bcInsert xxh64 hop.2 bid src off, hfresh, hl', hcap'.trans hcap,
      by rw [BcOp.run, hcap', bcInsert_target, htarget], heap_shift hheap hheap',
      by dsimp only [BcOp.run] at htick ⊢; omega⟩
  | update ds bid bs src =>
    obtain ⟨hfresh, htick, -, -⟩ := bcUpdate_spec hs hf (by omega) hop.1 ds bid src
    obtain ⟨hl', hcap', hheap'⟩ := bcUpdate_lists hs hf (by omega) hop.1 (hheap 0) hl ds bid src
    rw [hcap] at hl'
    exact ⟨rfl, hs.bcUpdate xxh64 hop.2 bid src, hfresh, hl', hcap'.trans hcap,
      by rw [BcOp.run, hcap', bcUpdate_target, htarget], heap_shift hheap hheap',
      by dsimp only [BcOp.run] at htick ⊢; omega⟩
  | setCapacity m =>
    obtain ⟨t, slots, ht, -⟩ := id hl
    have hset : c.setCapacity m = if clamp m = c.target then c else bcInit { c with target := clamp m } := by
      simp only [BlockCache.setCapacity, ht, Option.isSome_some, and_true]
    refine ⟨rfl, ?_⟩
    simp only [BcOp.run, BcOp.spec, hset]
    -- The target may change while the capacity, which is a power of two, does not.
    by_cases htgt : clamp m = c.target
    · have hsame : roundUp (clamp m) 32 1 = l.cap := by rw [← hcap, htarget, ← htgt, clamp_clamp]
      rw [if_pos htgt, if_pos hsame]
      exact ⟨hs, hf, hl, hcap, htarget, hheap, by omega⟩
    · rw [if_neg htgt]
      by_cases hsame : roundUp (clamp m) 32 1 = l.cap
      · have hnoop : BlockCache.bcInit { c with target := clamp m } = { c with target := clamp m } := by
          simp [BlockCache.bcInit, ht, clamp_clamp, hsame, hcap]
        rw [if_pos hsame, hnoop]
        exact ⟨⟨hs.full, hs.empty, hs.fault⟩, hf, hl, hcap, by rw [clamp_clamp, hsame, hcap], hheap,
          Nat.lt_of_le_of_lt (Nat.add_le_add_left (Nat.le_add_left n 1) _) hclock⟩
      · have hinit : IsList xxh64 sizeOf n (bcInit { c with target := clamp m }) ⟨roundUp (clamp (clamp m)) 32 1, []⟩ :=
          bcInit_lists (c := { c with target := clamp m }) ⟨hs.full, hs.empty, hs.fault⟩ hf hheap
          (Nat.lt_of_le_of_lt (Nat.add_le_add_left (Nat.le_add_left n 1) _) hclock)
          (by simp [clamp_clamp, hcap, Ne.symm hsame])
        rw [if_neg hsame]
        rwa [clamp_clamp] at hinit

/-- As long as there is memory and the clock does not wrap around, the cache behaves as the list of the blocks that were
used last: the same lookups hit, in any order of calls. -/
theorem boot_lru (xxh64 : ℕ → ℕ) {sizeOf : ℕ → ℕ} {ops : List BcOp} (hops : ∀ op ∈ ops, op.Sized sizeOf)
    (hclock : ops.length < 2 ^ 64) :
    outputs (BcOp.run xxh64) ops (boot fun _ => true).bcInit = outputs BcOp.spec ops ⟨64, []⟩ ∧
      IsList xxh64 sizeOf 0 (final (BcOp.run xxh64) ops (boot fun _ => true).bcInit)
        (final BcOp.spec ops ⟨64, []⟩) := by
  refine outputs_eq_of_sim (fun _ => 1) (C := fun _ op => op.Sized sizeOf) (R := IsList xxh64 sizeOf)
    (fun n c l op h hop => op.run_spec hop h) ?_ (along_of_forall (fun op hop _ => hops op hop) _)
  rw [List.map_const', List.sum_replicate, smul_eq_mul, Nat.mul_one]
  have hfresh : Fresh xxh64 (boot fun _ => true) := fun t ht => absurd ht (Option.not_mem_none t)
  exact bcInit_lists (Intact.boot _) hfresh (fun _ => rfl) (by rw [boot, Nat.zero_add]; exact hclock) (by simp [boot])

theorem boot_lru_four :
    outputs (BcOp.run id) [.insert 0xE0 3 1024 zeros 0, .lookup 0xE0 3 1024 zeros 0, .setCapacity 5,
        .lookup 0xE0 3 1024 zeros 0] (boot fun _ => true).bcInit =
      outputs BcOp.spec [.insert 0xE0 3 1024 zeros 0, .lookup 0xE0 3 1024 zeros 0, .setCapacity 5,
        .lookup 0xE0 3 1024 zeros 0] ⟨64, []⟩ :=
  (@boot_lru id (fun _ => 1024) _ (by simp [BcOp.Sized]) (by decide)).1

end

/-! ## Runs that stay in the cache -/

/-- The cache lists its blocks, has memory for any block, and so many ticks of its clock left. -/
structure Listed (xxh64 sizeOf : ℕ → ℕ) (n : ℕ) (c : BlockCache) (l : List (ℕ × ℕ)) : Prop where
  sound : Intact sizeOf c
  fresh : Fresh xxh64 c
  lists : Lists xxh64 c l
  heap : ∀ i, c.heap i = true
  clock : c.tick + n < 2 ^ 64

section

variable {xxh64 sizeOf : ℕ → ℕ} {c : BlockCache} {ds bid bs n : ℕ} {l : List (ℕ × ℕ)}

theorem Listed.mono (h : Listed xxh64 sizeOf n c l) {m : ℕ} (hm : m ≤ n) : Listed xxh64 sizeOf m c l :=
  ⟨h.sound, h.fresh, h.lists, h.heap, by have := h.clock; omega⟩

theorem Listed.length_le (h : Listed xxh64 sizeOf n c l) : l.length ≤ c.cap := by
  obtain ⟨t, slots, ht, -, hrec, rfl⟩ := h.lists
  rw [Table.length_keys fun x hx => (hrec.mem x).mp hx]
  exact hrec.length_le (occupied_lt (h.sound.full t ht).1)

/-- Two lists of one cache have the same blocks. -/
theorem Listed.mem (h : Listed xxh64 sizeOf n c l) {m : ℕ} {l' : List (ℕ × ℕ)} (h' : Listed xxh64 sizeOf m c l')
    {key : ℕ × ℕ} (hkey : key ∈ l) : key ∈ l' := by
  obtain ⟨t, slots, ht, -, hrec, rfl⟩ := h.lists
  obtain ⟨t', slots', ht', -, hrec', rfl⟩ := h'.lists
  obtain rfl := Option.some.inj (ht.symm.trans ht')
  have hok := (h.sound.full t ht).1
  exact (mem_keys_iff_find xxh64 hok hrec' key).mpr ((mem_keys_iff_find xxh64 hok hrec key).mp hkey)

theorem Listed.table (h : Listed xxh64 sizeOf n c l) : c.table.isSome := by
  obtain ⟨t, slots, ht, -⟩ := h.lists
  rw [ht]
  rfl

/-- A lookup of a block of the list keeps the blocks of the list. -/
theorem Listed.lookup (h : Listed xxh64 sizeOf (n + 1) c l) (hpos : 0 < bs) (hbs : bs = sizeOf ds) (bid : ℕ)
    (out : Bytes) (off : ℕ) :
    let r := c.bcLookup xxh64 ds bid bs out off
    (r.1 = true ↔ (ds, bid) ∈ l) ∧ r.2.2.cap = c.cap ∧
      ∃ l', Listed xxh64 sizeOf n r.2.2 l' ∧ ∀ key, key ∈ l' ↔ key ∈ l := by
  have hclock := h.clock
  obtain ⟨hfresh, htick, -, -⟩ := bcLookup_spec h.sound h.fresh (by omega) hpos ds bid out off
  obtain ⟨hhit, hlists, hcap, hheap⟩ := bcLookup_lists h.sound h.fresh (by omega) hpos h.lists ds bid out off
  refine ⟨hhit, hcap, _, ⟨h.sound.bcLookup xxh64 hbs bid out off, hfresh, hlists, fun i => by rw [hheap, h.heap],
    by omega⟩, fun key => ?_⟩
  split
  · rename_i hmem
    exact Table.mem_touch hmem h.length_le
  · exact Iff.rfl

/-- An insertion puts a block in front of the list. -/
theorem Listed.insert (h : Listed xxh64 sizeOf (n + 1) c l) (hpos : 0 < bs) (hbs : bs = sizeOf ds) (bid : ℕ)
    (src : Bytes) (off : ℕ) :
    let c' := c.bcInsert xxh64 ds bid bs src off
    c'.cap = c.cap ∧ Listed xxh64 sizeOf n c' (Table.touch c.cap (ds, bid) l) := by
  have hclock := h.clock
  obtain ⟨hfresh, htick, -, -⟩ := bcInsert_spec h.sound h.fresh (by omega) hpos ds bid src off
  obtain ⟨hlists, hcap, hheap⟩ := bcInsert_lists h.sound h.fresh (by omega) hpos (h.heap 0) h.lists ds bid src off
  exact ⟨hcap, h.sound.bcInsert xxh64 hbs bid src off, hfresh, hlists, heap_shift h.heap hheap, by omega⟩

/-- The blocks of a run -/
def runKeys (ds start k n : ℕ) : List (ℕ × ℕ) := (List.range' k n).map fun i => (ds, (start + i) % 2 ^ 32)

/-- The lookups of a run hit if all blocks are in the list. -/
theorem lookupRun_listed (hpos : 0 < bs) (hbs : bs = sizeOf ds) (start m k : ℕ)
    (h : Listed xxh64 sizeOf (m + n) c l) (out : Bytes) :
    let r := lookupRun xxh64 ds bs start m k out c
    (r.1 = true ↔ ∀ key ∈ runKeys ds start k m, key ∈ l) ∧ r.2.2.cap = c.cap ∧
      ∃ l', Listed xxh64 sizeOf n r.2.2 l' ∧ ∀ key, key ∈ l' ↔ key ∈ l := by
  induction m generalizing k c l out with
  | zero =>
    rw [Nat.zero_add] at h
    exact ⟨iff_of_true rfl fun key hkey => absurd hkey List.not_mem_nil, rfl, l, h, fun _ => Iff.rfl⟩
  | succ m ih =>
    rw [show m + 1 + n = m + n + 1 by omega] at h
    obtain ⟨hhit, hcap, l', hl', hmem⟩ :=
      h.lookup hpos hbs ((start + k) % 2 ^ 32) out (k * bs % 2 ^ 32)
    rw [lookupRun, runKeys, List.range'_succ, List.map_cons, List.forall_mem_cons, ← hhit]
    generalize c.bcLookup xxh64 ds ((start + k) % 2 ^ 32) bs out (k * bs % 2 ^ 32) = r at hhit hcap hl' ⊢
    obtain ⟨hit, out', c'⟩ := r
    dsimp only at hhit hcap hl' ⊢
    cases hit with
    | false =>
      rw [if_neg Bool.false_ne_true]
      exact ⟨iff_of_false Bool.false_ne_true fun hall => Bool.false_ne_true hall.1, hcap, l', hl'.mono (by omega),
        hmem⟩
    | true =>
      obtain ⟨hrest, hcap', l'', hl'', hmem'⟩ := ih (k + 1) hl' out'
      rw [if_pos rfl]
      refine ⟨hrest.trans ⟨fun hall => ⟨rfl, fun key hkey => (hmem key).mp (hall key hkey)⟩,
        fun hall key hkey => (hmem key).mpr (hall.2 key hkey)⟩, hcap'.trans hcap, l'', hl'',
        fun key => (hmem' key).trans (hmem key)⟩

/-- The insertions of a run -/
theorem insertRun_listed (hpos : 0 < bs) (hbs : bs = sizeOf ds) (start : ℕ) (src : Bytes) (m k : ℕ)
    (h : Listed xxh64 sizeOf (m + n) c l) :
    let c' := insertRun xxh64 ds bs start src m k c
    c'.cap = c.cap ∧
      Listed xxh64 sizeOf n c' ((runKeys ds start k m).foldl (fun l key => Table.touch c.cap key l) l) := by
  induction m generalizing k c l with
  | zero =>
    rw [Nat.zero_add] at h
    exact ⟨rfl, h⟩
  | succ m ih =>
    rw [show m + 1 + n = m + n + 1 by omega] at h
    obtain ⟨hcap, hl'⟩ := h.insert hpos hbs ((start + k) % 2 ^ 32) src (k * bs % 2 ^ 32)
    obtain ⟨hcap', hl''⟩ := ih (k + 1) hl'
    rw [hcap] at hl''
    rw [insertRun, runKeys, List.range'_succ, List.map_cons, List.foldl_cons]
    exact ⟨hcap'.trans hcap, hl''⟩

theorem length_runKeys (ds start k m : ℕ) : (runKeys ds start k m).length = m := by
  rw [runKeys, List.length_map, List.length_range']

/-- The blocks of a run are distinct. -/
theorem nodup_runKeys {start m : ℕ} (hm : start + m ≤ 2 ^ 32) (ds : ℕ) : (runKeys ds start 0 m).Nodup := by
  refine (List.nodup_range' (s := 0) (n := m)).map_on ?_
  intro i hi j hj hij
  have hlt : ∀ x ∈ List.range' 0 m, x < m := fun x hx => by
    have := (List.mem_range'_1.mp hx).2
    omega
  have heq := (Prod.mk.inj hij).2
  rw [Nat.mod_eq_of_lt (by have := hlt i hi; omega), Nat.mod_eq_of_lt (by have := hlt j hj; omega)] at heq
  omega

end

/-- The cache, if there is a table, lists its blocks. -/
structure Ready (xxh64 sizeOf : ℕ → ℕ) (n : ℕ) (c : BlockCache) : Prop where
  sound : Intact sizeOf c
  fresh : Fresh xxh64 c
  lists : c.table.isSome → ∃ l, Lists xxh64 c l
  heap : ∀ i, c.heap i = true
  clock : c.tick + n < 2 ^ 64

section

variable {xxh64 sizeOf : ℕ → ℕ} {c : BlockCache} {ds bid bs n : ℕ} {l : List (ℕ × ℕ)}

theorem Listed.ready (h : Listed xxh64 sizeOf n c l) : Ready xxh64 sizeOf n c :=
  ⟨h.sound, h.fresh, fun _ => ⟨l, h.lists⟩, h.heap, h.clock⟩

theorem Ready.listed (h : Ready xxh64 sizeOf n c) (ht : c.table.isSome) : ∃ l, Listed xxh64 sizeOf n c l := by
  obtain ⟨l, hl⟩ := h.lists ht
  exact ⟨l, h.sound, h.fresh, hl, h.heap, h.clock⟩

/-- A new table is ready, whatever was before. -/
theorem Ready.bcInit (h : Ready xxh64 sizeOf n c) : Ready xxh64 sizeOf n c.bcInit := by
  by_cases hnew : c.table.isSome ∧ c.cap = roundUp (clamp c.target) 32 1
  · have hsame : c.bcInit = c := by simp only [BlockCache.bcInit, if_pos hnew]
    rw [hsame]
    exact h
  · have hinit := bcInit_lists h.sound h.fresh h.heap h.clock hnew
    exact ⟨hinit.sound, hinit.fresh, fun _ => ⟨_, hinit.lists⟩, hinit.heap, hinit.clock⟩

theorem Ready.start (h : Ready xxh64 sizeOf n c) : ∃ l, Listed xxh64 sizeOf n c.start l := by
  unfold BlockCache.start
  split
  · rename_i hnone
    have hnew : ¬ (c.table.isSome ∧ c.cap = roundUp (clamp c.target) 32 1) := fun hsome => by
      simp [Option.isNone_iff_eq_none.mp hnone] at hsome
    have hinit := bcInit_lists h.sound h.fresh h.heap h.clock hnew
    exact ⟨_, hinit.sound, hinit.fresh, hinit.lists, hinit.heap, hinit.clock⟩
  · rename_i hsome
    exact h.listed (Option.isSome_iff_ne_none.mpr (by simpa using hsome))

theorem Ready.setCapacity (h : Ready xxh64 sizeOf n c) (m : ℕ) : Ready xxh64 sizeOf n (c.setCapacity m) := by
  unfold BlockCache.setCapacity
  dsimp only
  split
  · exact h
  · exact Ready.bcInit (c := { c with target := clamp m })
      ⟨⟨h.sound.full, h.sound.empty, h.sound.fault⟩, h.fresh, h.lists, h.heap, h.clock⟩

/-- An update puts a block in front of the list. -/
theorem Listed.update (h : Listed xxh64 sizeOf (n + 1) c l) (hpos : 0 < bs) (hbs : bs = sizeOf ds) (bid : ℕ)
    (src : Bytes) :
    Listed xxh64 sizeOf n (c.bcUpdate xxh64 ds bid bs src) (Table.touch c.cap (ds, bid) l) := by
  have hclock := h.clock
  obtain ⟨hfresh, htick, -, -⟩ := bcUpdate_spec h.sound h.fresh (by omega) hpos ds bid src
  obtain ⟨hlists, -, hheap⟩ := bcUpdate_lists h.sound h.fresh (by omega) hpos (h.heap 0) h.lists ds bid src
  exact ⟨h.sound.bcUpdate xxh64 hbs bid src, hfresh, hlists, heap_shift h.heap hheap, by omega⟩

variable {drives : ℕ → DriveDev} {io : BlockIo} {i start count : ℕ}

/-- After a read of a run of blocks that fits, all of them are in the list. The drive is asked only if they were not. -/
theorem readRun_listed (hm : Mounted drives sizeOf) (hpresent : (drives i).present)
    (hram : ¬ (drives i).backend = .ramdisk) (hcount : 2 ≤ count)
    (h : Ready xxh64 sizeOf (2 * count + n) io.cache) (start : ℕ) (buffer : Bytes) :
    let r := io.ext2ReadBlocks xxh64 drives i (drives i).blockSize start count buffer
    ∃ l l', Listed xxh64 sizeOf (2 * count + n) io.cache.start l ∧ Listed xxh64 sizeOf n r.2.cache l' ∧
      r.2.cache.cap = io.cache.start.cap ∧
      ((∀ key ∈ runKeys (drives i).driveId start 0 count, key ∈ l) → r.2.commands = io.commands) ∧
      (count ≤ io.cache.start.cap → start + count ≤ 2 ^ 32 →
        ∀ key ∈ runKeys (drives i).driveId start 0 count, key ∈ l') := by
  have hpos := blockSize_pos hm hpresent
  have hsize := size_of_not_ram hm hpresent hram
  have hcond := not_refused_run hm hpresent (show 0 < count by omega)
  obtain ⟨l, hl⟩ := h.start
  rw [show 2 * count + n = count + (count + n) by omega] at hl
  obtain ⟨hhit, hcap, l₁, hl₁, hmem⟩ := lookupRun_listed hpos hsize start count 0 hl buffer
  simp only [ext2ReadBlocks, if_neg hcond, if_neg (show ¬ count = 1 by omega), if_neg hram, if_pos hl.table]
  generalize lookupRun xxh64 (drives i).driveId (drives i).blockSize start count 0 buffer io.cache.start = r
    at hhit hcap hl₁ ⊢
  obtain ⟨allCached, out, c'⟩ := r
  dsimp only at hhit hcap hl₁ ⊢
  refine ⟨l, ?_⟩
  cases allCached with
  | true =>
    simp only [if_true]
    exact ⟨l₁, by rwa [show 2 * count + n = count + (count + n) by omega], hl₁.mono (by omega), hcap, fun _ => trivial,
      fun _ _ key hkey => (hmem key).mpr (hhit.mp rfl key hkey)⟩
  | false =>
    simp only [if_false, Bool.false_eq_true, readChunks_cache, hl₁.table, hcap, true_and]
    have hnot : ¬ ∀ key ∈ runKeys (drives i).driveId start 0 count, key ∈ l := fun hall =>
      Bool.false_ne_true (hhit.mpr hall)
    by_cases hfits : count ≤ io.cache.start.cap
    · simp only [if_pos hfits]
      obtain ⟨hcap', hl₂⟩ := insertRun_listed hpos hsize start
        (readChunks { cache := c', ide := io.ide, ram := io.ram, commands := io.commands } (drives i).ideDriveSel
          (count * ((drives i).blockSize / 512) % 2 ^ 32) (start * ((drives i).blockSize / 512) % 2 ^ 32) out 0).1
        count 0 hl₁
      refine ⟨_, by rwa [show 2 * count + n = count + (count + n) by omega], hl₂, hcap'.trans hcap,
        fun hall => absurd hall hnot, fun _ hrange key hkey => ?_⟩
      have hprefix := Table.foldl_touch_prefix (nodup_runKeys hrange (drives i).driveId)
        (show _ ≤ c'.cap by rw [length_runKeys, hcap]; exact hfits) l₁
      exact hprefix.subset (List.mem_reverse.mpr hkey)
    · simp only [if_neg hfits, readChunks_cache]
      exact ⟨l₁, by rwa [show 2 * count + n = count + (count + n) by omega], hl₁.mono (by omega), hcap,
        fun hall => absurd hall hnot, fun h => absurd h hfits⟩

theorem Ready.mono (h : Ready xxh64 sizeOf n c) {m : ℕ} (hm : m ≤ n) : Ready xxh64 sizeOf m c :=
  ⟨h.sound, h.fresh, h.lists, h.heap, by have := h.clock; omega⟩

/-- One block, the same -/
theorem read_listed (hm : Mounted drives sizeOf) (hpresent : (drives i).present)
    (hram : ¬ (drives i).backend = .ramdisk) (h : Ready xxh64 sizeOf (2 + n) io.cache) (b : ℕ) (buffer : Bytes) :
    let r := io.ext2ReadBlock xxh64 drives i (drives i).blockSize b buffer
    ∃ l l', Listed xxh64 sizeOf (2 + n) io.cache.start l ∧ Listed xxh64 sizeOf n r.2.cache l' ∧
      r.2.cache.cap = io.cache.start.cap ∧ (((drives i).driveId, b) ∈ l → r.2.commands = io.commands) ∧
        (0 < io.cache.start.cap → ((drives i).driveId, b) ∈ l') := by
  have hpos := blockSize_pos hm hpresent
  have hsize := size_of_not_ram hm hpresent hram
  have hcond := not_refused hm hpresent
  obtain ⟨l, hl⟩ := h.start
  rw [show 2 + n = n + 1 + 1 by omega] at hl ⊢
  obtain ⟨hhit, hcap, l₁, hl₁, hmem⟩ := hl.lookup hpos hsize b buffer 0
  simp only [ext2ReadBlock, if_neg hcond, if_neg hram]
  generalize io.cache.start.bcLookup xxh64 (drives i).driveId b (drives i).blockSize buffer 0 = r at hhit hcap hl₁ ⊢
  obtain ⟨hit, out, c'⟩ := r
  dsimp only at hhit hcap hl₁ ⊢
  cases hit with
  | true =>
    rw [if_pos rfl]
    exact ⟨l, l₁, hl, hl₁.mono (by omega), hcap, fun _ => rfl, fun _ => (hmem _).mpr (hhit.mp rfl)⟩
  | false =>
    rw [if_neg Bool.false_ne_true]
    obtain ⟨hcap', hl₂⟩ := hl₁.insert hpos hsize b
      (ideReadSectors { io with cache := c' } (drives i).ideDriveSel (b * ((drives i).blockSize / 512) % 2 ^ 32)
        ((drives i).blockSize / 512) out 0).1 0
    refine ⟨l, _, hl, hl₂, hcap'.trans hcap, fun hin => absurd (hhit.mpr hin) Bool.false_ne_true, fun hroom => ?_⟩
    rw [← hcap] at hroom
    rw [Table.touch, ← Nat.succ_pred_eq_of_pos hroom, List.take_succ_cons]
    exact List.mem_cons_self

/-- Every access keeps the cache ready. -/
theorem act_ready (hm : Mounted drives sizeOf) (op : BlockOp) (h : Ready xxh64 sizeOf (2 * op.blocks + n) io.cache) :
    Ready xxh64 sizeOf n (cachedAct xxh64 drives op io).2.cache := by
  have hkeep := h.mono (Nat.le_add_left n (2 * op.blocks))
  -- An access to a drive that is not there, or that is a RAM disk, has nothing to do with the cache.
  have hread : ∀ i b buffer, Ready xxh64 sizeOf (2 + n) io.cache →
      Ready xxh64 sizeOf n (io.ext2ReadBlock xxh64 drives i (drives i).blockSize b buffer).2.cache := by
    intro i b buffer h
    have hkeep := h.mono (Nat.le_add_left n 2)
    by_cases hpresent : (drives i).present = true
    · by_cases hram : (drives i).backend = .ramdisk
      · simp only [ext2ReadBlock, if_pos hram]
        split_ifs <;> exact hkeep
      · obtain ⟨_, l', -, hl', -⟩ := read_listed hm hpresent hram h b buffer
        exact hl'.ready
    · simp only [ext2ReadBlock, if_pos (show _ ∨ (!(drives i).present) = true from .inr (by simpa using hpresent))]
      exact hkeep
  cases op with
  | read i b => exact hread i b zeros h
  | readRun i b m =>
    by_cases hpresent : (drives i).present = true
    · by_cases hram : (drives i).backend = .ramdisk
      · simp only [cachedAct, act, cached, ext2ReadBlocks, ext2ReadBlock, if_pos hram]
        split_ifs <;> exact hkeep
      · obtain rfl | rfl | hcount : m = 0 ∨ m = 1 ∨ 2 ≤ m := by omega
        · simp only [cachedAct, act, cached, ext2ReadBlocks, true_or, or_true, if_true]
          exact hkeep
        · have hcond := not_refused_run hm hpresent Nat.one_pos
          simp only [cachedAct, act, cached, ext2ReadBlocks, if_neg hcond, if_true]
          exact hread i b zeros h
        · obtain ⟨_, l', -, hl', -⟩ := readRun_listed hm hpresent hram hcount h b zeros
          exact hl'.ready
    · simp only [cachedAct, act, cached, ext2ReadBlocks,
        if_pos (show _ ∨ m = 0 ∨ (!(drives i).present) = true from .inr (.inr (by simpa using hpresent)))]
      exact hkeep
  | write i b data =>
    simp only [cachedAct, act, cached, ext2WriteBlock]
    by_cases hcond : (drives i).blockSize = 0 ∨ (!(drives i).present) = true
    · rw [if_pos hcond]
      exact hkeep
    rw [if_neg hcond]
    by_cases hram : (drives i).backend = .ramdisk
    · rw [if_pos hram]
      split <;> exact hkeep
    rw [if_neg hram]
    split
    · rename_i htable
      rw [not_or, Bool.not_eq_true', Bool.not_eq_false] at hcond
      obtain ⟨l, hl⟩ := h.listed htable
      have hl' : Listed xxh64 sizeOf (n + 1) io.cache l := hl.mono (by dsimp only [BlockOp.blocks]; omega)
      exact (hl'.update (Nat.pos_of_ne_zero hcond.1) (size_of_not_ram hm hcond.2 hram) b data).ready
    · exact hkeep
  | zero i b =>
    have hcache := zeroSectors_cache drives io i (drives i).blockSize b
    exact hcache ▸ hkeep
  | setCapacity m => exact hkeep.setCapacity m

/-- Every run of accesses keeps the cache ready. -/
theorem ready_final (hm : Mounted drives sizeOf) {ops : List BlockOp}
    (h : Ready xxh64 sizeOf (2 * (ops.map BlockOp.blocks).sum + n) io.cache) :
    Ready xxh64 sizeOf n (final (cachedAct xxh64 drives) ops io).cache := by
  induction ops generalizing io with
  | nil => rwa [List.map_nil, List.sum_nil, Nat.mul_zero, Nat.zero_add] at h
  | cons op ops ih =>
    rw [List.map_cons, List.sum_cons, Nat.mul_add, Nat.add_assoc] at h
    rw [final_cons]
    exact ih (act_ready hm op h)

theorem Ready.boot (h : n < 2 ^ 64) : Ready xxh64 sizeOf n (boot fun _ => true) :=
  ⟨Intact.boot _, fun t ht => absurd ht (Option.not_mem_none t), fun h => absurd h Bool.false_ne_true, fun _ => rfl,
    by rwa [BlockCache.boot, Nat.zero_add]⟩

theorem start_of_table (hc : c.table.isSome) : c.start = c := by
  rw [BlockCache.start, if_neg (by simpa [Option.isSome_iff_ne_none] using hc)]

/-- A run of blocks that fits is read from the drive only once: read again, after any accesses and with memory for every
block, it comes from the cache. -/
theorem boot_readRun_twice {detect : ℕ → Bool} {ide : ℕ → Bytes} {modules : List BootModule}
    (hsmall : SmallBlocks detect ide modules) (xxh64 : ℕ → ℕ) (ops : List BlockOp) {i start count : ℕ}
    (hon : OnIde (ext2Init detect ide modules i) start count) (hcount : 2 ≤ count)
    (hclock : (ops.map BlockOp.blocks).sum + 2 * count < 2 ^ 63) (buffer buffer' : Bytes) :
    let drives := ext2Init detect ide modules
    let io := final (cachedAct xxh64 drives) ops (bootIo detect ide modules fun _ => true)
    let io₁ := (io.ext2ReadBlocks xxh64 drives i (drives i).blockSize start count buffer).2
    let io₂ := (io₁.ext2ReadBlocks xxh64 drives i (drives i).blockSize start count buffer').2
    count ≤ io.cache.start.cap → io₂.commands = io₁.commands := by
  have hm := ext2Init_mounted hsmall
  have hram : ¬ (ext2Init detect ide modules i).backend = .ramdisk := by
    rw [hon.2.1]
    decide
  have hrange : start + count ≤ 2 ^ 32 := by
    obtain ⟨hblock, -⟩ := hon.offset_eq hm (show count - 1 < count by omega)
    have := Nat.mod_lt (start + (count - 1)) (show 0 < 2 ^ 32 by decide)
    omega
  have hboot : Ready xxh64 (sizeOfId (ext2Init detect ide modules))
      (2 * (ops.map BlockOp.blocks).sum + (2 * count + 2 * count))
      (bootIo detect ide modules fun _ => true).cache := Ready.boot (by omega)
  dsimp only
  intro hcap
  obtain ⟨l, l', hl, hl', -, -, hall⟩ :=
    readRun_listed hm hon.1 hram hcount (ready_final hm hboot) start buffer
  have hmem := hall hcap hrange
  obtain ⟨l₂, -, hl₂, -, -, hquiet, -⟩ :=
    readRun_listed (n := 0) hm hon.1 hram hcount hl'.ready start buffer'
  -- The second read looks at the list that the first one has left.
  rw [start_of_table hl'.table] at hl₂
  exact hquiet fun key hkey => hl'.mem hl₂ (hmem key hkey)

theorem boot_readRun_twice_emptyIde :
    let drives := ext2Init (fun _ => true) emptyIde []
    let io := final (cachedAct id drives) [.setCapacity 30, .read 1 9]
      (bootIo (fun _ => true) emptyIde [] fun _ => true)
    let io₁ := (io.ext2ReadBlocks id drives 0 (drives 0).blockSize 5 20 zeros).2
    let io₂ := (io₁.ext2ReadBlocks id drives 0 (drives 0).blockSize 5 20 zeros).2
    io₂.commands = io₁.commands :=
  boot_readRun_twice emptyIde_small id [.setCapacity 30, .read 1 9]
    (emptyIde_onIde (by decide) (by decide)) (by decide) (by decide) zeros zeros (by decide)

end

/-! ## Runs and single blocks -/

section

variable {drives : ℕ → DriveDev} {sizeOf : ℕ → ℕ} {i : ℕ}

/-- A block of a RAM disk is read as its bytes in the image, or as zeros if it is not inside the image. -/
theorem readBlock_ram (xxh64 : ℕ → ℕ) (hm : Mounted drives sizeOf) (hpresent : (drives i).present)
    (hram : (drives i).backend = .ramdisk) (io : BlockIo) (b : ℕ) (buffer : Bytes) {j : ℕ}
    (hj : j < (drives i).blockSize) :
    let out := (io.ext2ReadBlock xxh64 drives i (drives i).blockSize b buffer).1
    (OnRam (drives i) b 1 → out j = io.ram i (b * (drives i).blockSize + j)) ∧
      (¬ OnRam (drives i) b 1 → out j = 0) := by
  simp only [ext2ReadBlock, if_neg (not_refused hm hpresent), if_pos hram, onRam_iff hpresent hram, Nat.one_mul]
  constructor
  · intro hin
    rw [if_pos hin]
    exact copyInto_of_mem (Nat.zero_le j) (by omega)
  · intro hout
    rw [if_neg hout]
    exact zeroFill_of_mem (Nat.zero_le j) (by omega)

/-- A run of blocks, the same: it is inside the image as a whole, or all of it is zeros. -/
theorem readRun_ram (xxh64 : ℕ → ℕ) (hm : Mounted drives sizeOf) (hpresent : (drives i).present)
    (hram : (drives i).backend = .ramdisk) (io : BlockIo) (start : ℕ) {count : ℕ} (hcount : 2 ≤ count) (buffer : Bytes)
    {j : ℕ} (hj : j < count * (drives i).blockSize) :
    let out := (io.ext2ReadBlocks xxh64 drives i (drives i).blockSize start count buffer).1
    (OnRam (drives i) start count → out j = io.ram i (start * (drives i).blockSize + j)) ∧
      (¬ OnRam (drives i) start count → out j = 0) := by
  have hcond := not_refused_run hm hpresent (show 0 < count by omega)
  simp only [ext2ReadBlocks, if_neg hcond, if_neg (show ¬ count = 1 by omega), if_pos hram, onRam_iff hpresent hram]
  constructor
  · intro hin
    rw [if_pos hin]
    exact copyInto_of_mem (Nat.zero_le j) (by omega)
  · intro hout
    rw [if_neg hout]
    exact zeroFill_of_mem (Nat.zero_le j) (by omega)

end

/-- On a RAM disk, a read of a run gives the blocks that single reads give exactly if the run is inside the image, or
the blocks of it that are inside hold zeros: a run that ends behind the image is cleared as a whole. -/
theorem readRun_ram_iff (xxh64 : ℕ → ℕ) {drives : ℕ → DriveDev} {sizeOf : ℕ → ℕ} (hm : Mounted drives sizeOf) {i : ℕ}
    (hpresent : (drives i).present) (hram : (drives i).backend = .ramdisk) (io : BlockIo) (start : ℕ) {count : ℕ}
    (hcount : 2 ≤ count) (buffer buffer' : Bytes) :
    let bs := (drives i).blockSize
    (∀ k < count, ∀ j < bs, (io.ext2ReadBlocks xxh64 drives i bs start count buffer).1 (k * bs + j) =
        (io.ext2ReadBlock xxh64 drives i bs (start + k) buffer').1 j) ↔
      OnRam (drives i) start count ∨
        ∀ k < count, OnRam (drives i) (start + k) 1 → ∀ j < bs, io.ram i ((start + k) * bs + j) = 0 := by
  dsimp only
  have hlt : ∀ k < count, ∀ j < (drives i).blockSize, k * (drives i).blockSize + j < count * (drives i).blockSize := by
    intro k hk j hj
    calc k * (drives i).blockSize + j < (k + 1) * (drives i).blockSize := by rw [Nat.succ_mul]; omega
      _ ≤ count * (drives i).blockSize := Nat.mul_le_mul_right _ hk
  have hrun (k : ℕ) (hk : k < count) (j : ℕ) (hj : j < (drives i).blockSize) :=
    readRun_ram xxh64 hm hpresent hram io start hcount buffer (hlt k hk j hj)
  have hone (b j : ℕ) (hj : j < (drives i).blockSize) := readBlock_ram xxh64 hm hpresent hram io b buffer' hj
  by_cases hon : OnRam (drives i) start count
  · refine iff_of_true (fun k hk j hj => ?_) (.inl hon)
    rw [(hrun k hk j hj).1 hon, (hone _ j hj).1 (hon.block hk), Nat.add_mul, Nat.add_assoc]
  · -- The run is cleared as a whole, also where its blocks are inside the image.
    rw [or_iff_right hon]
    refine forall₂_congr fun k hk => ?_
    constructor
    · intro h hblock j hj
      have hval := h j hj
      rw [(hrun k hk j hj).2 hon, (hone _ j hj).1 hblock] at hval
      exact hval.symm
    · intro h j hj
      rw [(hrun k hk j hj).2 hon]
      by_cases hblock : OnRam (drives i) (start + k) 1
      · rw [(hone _ j hj).1 hblock, h hblock j hj]
      · rw [(hone _ j hj).2 hblock]

/-- RAM disks of three blocks -/
def ramDrives : ℕ → DriveDev := fun _ => ⟨true, .ramdisk, 0xE0, true, 3072, 1, 1024⟩

theorem ramDrives_mounted : Mounted ramDrives fun _ => 1024 where
  backed _ _ h := Backend.noConfusion h
  sectors _ _ := ⟨2, by decide, rfl⟩
  count _ _ h := Backend.noConfusion h
  size _ _ h := Backend.noConfusion h
  ids _ _ _ h := Backend.noConfusion h
  sels _ _ _ h := Backend.noConfusion h

/-- RAM disks that hold nothing but sevens -/
def sevens : BlockIo := ⟨boot fun _ => true, fun _ => zeros, fun _ _ => 7, 0⟩

theorem readRun_ram_iff_ramDrives :
    let bs := (ramDrives 0).blockSize
    (∀ k < 2, ∀ j < bs, (sevens.ext2ReadBlocks id ramDrives 0 bs 2 2 zeros).1 (k * bs + j) =
        (sevens.ext2ReadBlock id ramDrives 0 bs (2 + k) zeros).1 j) ↔
      OnRam (ramDrives 0) 2 2 ∨
        ∀ k < 2, OnRam (ramDrives 0) (2 + k) 1 → ∀ j < bs, sevens.ram 0 ((2 + k) * bs + j) = 0 :=
  readRun_ram_iff id ramDrives_mounted rfl rfl sevens 2 (by decide) zeros zeros

end Sandflea
