import Sandflea.Lib.Program
import Sandflea.Ext2.Layout

/-!
# The kernel state and its commands

The file system code is sequential code over global state: the drive table and the active drive, the
blocks of the drives, the kernel heap, and the file descriptors of the current process. Each access
that the code makes to that state is a command (`Op`), and a function of the source is a program over
the commands (`Kern`).

How blocks are stored is a parameter (`BlockLayer`). `plain` keeps the contents of every block, and is
what the file system is verified over. `Ext2/Cache.lean` has the layer of the source, the block cache
over the device drivers.

A mounted drive is assumed: the checks of the source for a null `active_drive`, a null `sb_ptr`, or a
zero `block_size` do not fail after the first mount and are left out, and so is the check for a null
current process.
-/

namespace Sandflea

open Bytes

/-- `drive_t`: what the file system code reads of it. -/
structure Drive where
  /-- `name` -/
  name : Str
  /-- `present` -/
  present : Bool
  /-- `sb` -/
  sb : Superblock
  /-- `bgdt_cache`, the cached block of the group descriptor table. -/
  bgdtCache : ℕ → GroupDesc

/-- `file_handle_t` -/
structure FileHandle where
  /-- `inode_no` -/
  inodeNo : ℕ
  /-- `inode`, the handle's own copy of the inode. -/
  inode : Inode
  /-- `pos` -/
  pos : ℕ

/-- `MAX_FILE_HANDLES` -/
def maxFileHandles : ℕ := 128

/-- The kernel state, over a state `σ` of the block layer. -/
structure Kernel (σ : Type) where
  /-- `drives` -/
  drives : ℕ → Drive
  /-- `drive_count` -/
  driveCount : ℕ
  /-- `active_drive`, as an index; `sb_ptr`, `block_size`, and `bgdt_cache` always point into it. -/
  active : ℕ
  /-- The blocks of the drives. -/
  store : σ
  /-- Whether each coming call of `kmalloc` finds memory. -/
  heap : ℕ → Bool
  /-- `current_process` -/
  proc : ℕ
  /-- `proc->cwd` of every process. -/
  procCwd : ℕ → Str
  /-- `active_session->cwd` -/
  sessionCwd : Str
  /-- The global `cwd`. -/
  cwd : Str
  /-- `proc->fd_table` of every process. -/
  fdTable : ℕ → ℕ → Option FileHandle

/-- The superblock of the active drive, `*sb_ptr`. -/
def Kernel.sb {σ : Type} (k : Kernel σ) : Superblock := (k.drives k.active).sb

/-- The commands that the file system code issues. -/
inductive Op
  /-- `kmalloc(size)`. -/
  | kmalloc (size : ℕ)
  /-- `ext2_read_block(block, buf)` into a buffer of one block. -/
  | readBlock (block : ℕ)
  /-- `ext2_read_blocks(start, count, buf)` into a buffer of `count` blocks. -/
  | readBlocks (start count : ℕ)
  /-- `ext2_write_block(block, data)`. -/
  | writeBlock (block : ℕ) (data : Bytes)
  /-- `drive_write_sectors` of a zeroed sector over each sector of a block. -/
  | zeroSectors (block : ℕ)
  /-- Read `*sb_ptr`. -/
  | superblock
  /-- Read `bgdt[g]`. -/
  | groupDesc (g : ℕ)
  /-- Assign `bgdt[g]`. -/
  | setGroupDesc (g : ℕ) (d : GroupDesc)
  /-- Read the names of `drives[0 .. drive_count)` and whether each is present. -/
  | driveList
  /-- `ext2_switch_drive(&drives[i])`. -/
  | switchDrive (i : ℕ)
  /-- Read `active_drive->name`. -/
  | activeName
  /-- Read `proc->cwd`, `active_session->cwd`, and `cwd`. -/
  | cwds
  /-- Read `proc->fd_table[fd]`. -/
  | fd (fd : ℕ)
  /-- Assign `proc->fd_table[fd]`, or the fields of the handle that it points to. -/
  | setFd (fd : ℕ) (h : Option FileHandle)
  /-- An access through a null pointer. -/
  | fault

/-- What each command returns. -/
@[reducible]
def Op.Resp : Op → Type
  | .kmalloc _ => Bool
  | .readBlock _ => Bytes
  | .readBlocks _ _ => Bytes
  | .writeBlock _ _ => Unit
  | .zeroSectors _ => Unit
  | .superblock => Superblock
  | .groupDesc _ => GroupDesc
  | .setGroupDesc _ _ => Unit
  | .driveList => List (Str × Bool)
  | .switchDrive _ => Unit
  | .activeName => Str
  | .cwds => Str × Str × Str
  | .fd _ => Option FileHandle
  | .setFd _ _ => Unit
  | .fault => Empty

/-- A function of the file system code. -/
abbrev Kern (α : Type) := Prog Op Op.Resp α

namespace Kern

/-- `kmalloc`, as whether it returns memory. -/
def kmalloc (size : ℕ) : Kern Bool := Prog.issue (Op.kmalloc size)

/-- `ext2_read_block` -/
def ext2ReadBlock (block : ℕ) : Kern Bytes := Prog.issue (Op.readBlock block)

/-- `ext2_read_blocks` -/
def ext2ReadBlocks (start count : ℕ) : Kern Bytes := Prog.issue (Op.readBlocks start count)

/-- `ext2_write_block` -/
def ext2WriteBlock (block : ℕ) (data : Bytes) : Kern Unit := Prog.issue (Op.writeBlock block data)

/-- Zero the sectors of a block with `drive_write_sectors`. -/
def zeroSectors (block : ℕ) : Kern Unit := Prog.issue (Op.zeroSectors block)

/-- `*sb_ptr` -/
def superblock : Kern Superblock := Prog.issue Op.superblock

/-- `bgdt[g]` -/
def groupDesc (g : ℕ) : Kern GroupDesc := Prog.issue (Op.groupDesc g)

/-- `bgdt[g] = d` -/
def setGroupDesc (g : ℕ) (d : GroupDesc) : Kern Unit := Prog.issue (Op.setGroupDesc g d)

/-- The drive table. -/
def driveList : Kern (List (Str × Bool)) := Prog.issue Op.driveList

/-- `ext2_switch_drive` -/
def ext2SwitchDrive (i : ℕ) : Kern Unit := Prog.issue (Op.switchDrive i)

/-- `active_drive->name` -/
def activeName : Kern Str := Prog.issue Op.activeName

/-- The three working directories that `fs_get_cwd` chooses from. -/
def cwds : Kern (Str × Str × Str) := Prog.issue Op.cwds

/-- `proc->fd_table[fd]` -/
def fd (i : ℕ) : Kern (Option FileHandle) := Prog.issue (Op.fd i)

/-- `proc->fd_table[fd] = h` -/
def setFd (i : ℕ) (h : Option FileHandle) : Kern Unit := Prog.issue (Op.setFd i h)

/-- An access through a null pointer: the kernel stops. -/
def fault {α : Type} : Kern α := .call Op.fault Empty.elim

end Kern

/-! ## The meaning of the commands -/

/-- The block operations on the drive of an index, whose blocks have `bs` bytes. -/
structure BlockLayer (σ : Type) where
  /-- Read a block. -/
  read (drive bs block : ℕ) : σ → Bytes × σ
  /-- Read a run of blocks. -/
  readRun (drive bs start count : ℕ) : σ → Bytes × σ
  /-- Write a block. -/
  write (drive bs block : ℕ) (data : Bytes) : σ → σ
  /-- Zero the sectors of a block. -/
  zero (drive bs block : ℕ) : σ → σ

/-- The meaning of the commands over a block layer. A descriptor behind the cached block of the
table and an access through a null pointer fault. -/
def kernelStep {σ : Type} (L : BlockLayer σ) : Handler Op Op.Resp (Kernel σ)
  | .kmalloc _, k => some (k.heap 0, { k with heap := fun i => k.heap (i + 1) })
  | .readBlock b, k =>
    let r := L.read k.active k.sb.blockSize b k.store
    some (r.1, { k with store := r.2 })
  | .readBlocks b n, k =>
    let r := L.readRun k.active k.sb.blockSize b n k.store
    some (r.1, { k with store := r.2 })
  | .writeBlock b data, k =>
    some ((), { k with store := L.write k.active k.sb.blockSize b data k.store })
  | .zeroSectors b, k => some ((), { k with store := L.zero k.active k.sb.blockSize b k.store })
  | .superblock, k => some (k.sb, k)
  | .groupDesc g, k =>
    if g < k.sb.cachedDescs then some ((k.drives k.active).bgdtCache g, k) else none
  | .setGroupDesc g d, k =>
    if g < k.sb.cachedDescs then
      let drive := k.drives k.active
      let drive' := { drive with bgdtCache := Function.update drive.bgdtCache g d }
      some ((), { k with drives := Function.update k.drives k.active drive' })
    else none
  | .driveList, k =>
    some ((List.range k.driveCount).map fun i => ((k.drives i).name, (k.drives i).present), k)
  | .switchDrive i, k =>
    some ((), if (k.drives i).present then { k with active := i } else k)
  | .activeName, k => some ((k.drives k.active).name, k)
  | .cwds, k => some ((k.procCwd k.proc, k.sessionCwd, k.cwd), k)
  | .fd i, k => some (k.fdTable k.proc i, k)
  | .setFd i h, k =>
    let table := Function.update (k.fdTable k.proc) i h
    some ((), { k with fdTable := Function.update k.fdTable k.proc table })
  | .fault, _ => none

/-- The contents of the blocks of every drive. -/
abbrev Disks := ℕ → ℕ → Bytes

/-- The block layer that keeps the contents of every block. -/
def plain : BlockLayer Disks where
  read drive bs block := fun d => (trunc bs (d drive block), d)
  readRun drive bs start count := fun d =>
    (trunc (count * bs) fun i => d drive (start + i / bs) (i % bs), d)
  write drive _ block data := fun d => Function.update d drive (Function.update (d drive) block data)
  zero drive _ block := fun d => Function.update d drive (Function.update (d drive) block zeros)

/-- The kernel over plain blocks. -/
abbrev PlainKernel := Kernel Disks

/-- The run of a function of the file system code over plain blocks. -/
def Kern.exec {α : Type} (p : Kern α) (k : PlainKernel) : Option (α × PlainKernel) :=
  p.run (kernelStep plain) k

namespace Kernel

/-- The blocks of the active drive, each with the bytes of one block. -/
def blk (k : PlainKernel) (b : ℕ) : Bytes := trunc k.sb.blockSize (k.store k.active b)

/-- The descriptor table that the active drive caches. -/
def bgdt {σ : Type} (k : Kernel σ) : ℕ → GroupDesc := (k.drives k.active).bgdtCache

/-- The state after `n` calls of `kmalloc`. -/
def popHeap {σ : Type} (k : Kernel σ) (n : ℕ) : Kernel σ := { k with heap := fun i => k.heap (i + n) }

/-- The state after a write of a block of the active drive. -/
def setBlk (k : PlainKernel) (b : ℕ) (data : Bytes) : PlainKernel :=
  { k with store := Function.update k.store k.active (Function.update (k.store k.active) b data) }

/-- The state after an assignment to a cached descriptor of the active drive. -/
def setDesc {σ : Type} (k : Kernel σ) (g : ℕ) (d : GroupDesc) : Kernel σ :=
  let drive' := { k.drives k.active with bgdtCache := Function.update k.bgdt g d }
  { k with drives := Function.update k.drives k.active drive' }

/-- The state after an assignment to a file descriptor of the current process. -/
def setHandle {σ : Type} (k : Kernel σ) (i : ℕ) (h : Option FileHandle) : Kernel σ :=
  { k with fdTable := Function.update k.fdTable k.proc (Function.update (k.fdTable k.proc) i h) }

/-- Every call of `kmalloc` finds memory. -/
def HeapOk {σ : Type} (k : Kernel σ) : Prop := ∀ i, k.heap i = true

/-- When `kmalloc` always finds memory, its calls do not show in the state. -/
theorem HeapOk.popHeap {σ : Type} {k : Kernel σ} (hk : k.HeapOk) (n : ℕ) : k.popHeap n = k := by
  have h : (fun i => k.heap (i + n)) = k.heap := funext fun i => by rw [hk, hk]
  rw [Kernel.popHeap, h]

@[simp] theorem popHeap_popHeap {σ : Type} (k : Kernel σ) (m n : ℕ) :
    (k.popHeap m).popHeap n = k.popHeap (m + n) := by
  simp [popHeap, Nat.add_comm, Nat.add_left_comm]

@[simp] theorem popHeap_zero {σ : Type} (k : Kernel σ) : k.popHeap 0 = k := rfl

end Kernel

/-- A kernel with one mounted drive, nothing open, and memory to spare. -/
def Kernel.oneDrive (drive : Drive) (blocks : ℕ → Bytes) : PlainKernel where
  drives _ := drive
  driveCount := 1
  active := 0
  store _ := blocks
  heap _ := true
  proc := 0
  procCwd _ := str "/"
  sessionCwd := str "/"
  cwd := str "/"
  fdTable _ _ := none

/-! ## Runs of single commands -/

namespace Kern

open Kernel

variable {α β : Type} (k : PlainKernel)

@[simp] theorem exec_pure (a : α) : exec (pure a) k = some (a, k) := rfl

@[simp] theorem exec_bind (p : Kern α) (f : α → Kern β) :
    exec (p >>= f) k = (p.exec k).bind fun r => (f r.1).exec r.2 :=
  Prog.run_bind _ p f k

@[simp] theorem exec_kmalloc (n : ℕ) : (kmalloc n).exec k = some (k.heap 0, k.popHeap 1) := rfl

@[simp] theorem exec_ext2ReadBlock (b : ℕ) :
    (ext2ReadBlock b).exec k = some (k.blk b, k) := rfl

@[simp] theorem exec_ext2ReadBlocks (b n : ℕ) :
    (ext2ReadBlocks b n).exec k = some (trunc (n * k.sb.blockSize)
      fun i => k.blk (b + i / k.sb.blockSize) (i % k.sb.blockSize), k) := by
  have h : ∀ i, k.blk (b + i / k.sb.blockSize) (i % k.sb.blockSize) =
      k.store k.active (b + i / k.sb.blockSize) (i % k.sb.blockSize) := fun i =>
    trunc_of_lt _ (Nat.mod_lt _ k.sb.blockSize_pos)
  simp only [h]
  rfl

@[simp] theorem exec_ext2WriteBlock (b : ℕ) (data : Bytes) :
    (ext2WriteBlock b data).exec k = some ((), k.setBlk b data) := rfl

@[simp] theorem exec_zeroSectors (b : ℕ) : (zeroSectors b).exec k = some ((), k.setBlk b zeros) := rfl

@[simp] theorem exec_superblock : superblock.exec k = some (k.sb, k) := rfl

theorem exec_groupDesc (g : ℕ) :
    (groupDesc g).exec k = if g < k.sb.cachedDescs then some (k.bgdt g, k) else none :=
  Prog.run_issue (kernelStep plain) (Op.groupDesc g) k

theorem exec_setGroupDesc {k : PlainKernel} {g : ℕ} (hg : g < k.sb.cachedDescs) (d : GroupDesc) :
    (setGroupDesc g d).exec k = some ((), k.setDesc g d) :=
  (Prog.run_issue (kernelStep plain) (Op.setGroupDesc g d) k).trans (if_pos hg)

@[simp] theorem exec_fd (i : ℕ) : (fd i).exec k = some (k.fdTable k.proc i, k) := rfl

@[simp] theorem exec_setFd (i : ℕ) (h : Option FileHandle) :
    (setFd i h).exec k = some ((), k.setHandle i h) := rfl

@[simp] theorem exec_fault : (fault : Kern α).exec k = none := rfl

theorem exec_ite {c : Prop} [Decidable c] (p q : Kern α) :
    exec (if c then p else q) k = if c then p.exec k else q.exec k := by
  split <;> rfl

end Kern

/-! ## The fields of an updated state -/

namespace Kernel

variable (k : PlainKernel) (b g i : ℕ) (data : Bytes) (d : GroupDesc) (h : Option FileHandle)

@[simp] theorem setBlk_sb : (k.setBlk b data).sb = k.sb := rfl

@[simp] theorem setBlk_bgdt : (k.setBlk b data).bgdt = k.bgdt := rfl

@[simp] theorem setBlk_active : (k.setBlk b data).active = k.active := rfl

@[simp] theorem setBlk_blk :
    (k.setBlk b data).blk = Function.update k.blk b (trunc k.sb.blockSize data) := by
  funext c
  by_cases hc : c = b
  · subst hc
    simp [blk, setBlk, Kernel.sb]
  · simp [blk, setBlk, Kernel.sb, hc]

@[simp] theorem setBlk_heap : (k.setBlk b data).heap = k.heap := rfl

@[simp] theorem setDesc_sb : (k.setDesc g d).sb = k.sb := by
  simp [Kernel.sb, setDesc]

@[simp] theorem setDesc_bgdt : (k.setDesc g d).bgdt = Function.update k.bgdt g d := by
  simp [bgdt, setDesc]

@[simp] theorem setDesc_blk : (k.setDesc g d).blk = k.blk := by
  funext c
  simp only [blk, setDesc_sb]
  rfl

@[simp] theorem setDesc_heap : (k.setDesc g d).heap = k.heap := rfl

@[simp] theorem setDesc_active : (k.setDesc g d).active = k.active := rfl

@[simp] theorem popHeap_sb (n : ℕ) : (k.popHeap n).sb = k.sb := rfl

@[simp] theorem popHeap_bgdt (n : ℕ) : (k.popHeap n).bgdt = k.bgdt := rfl

@[simp] theorem popHeap_blk (n : ℕ) : (k.popHeap n).blk = k.blk := rfl

theorem popHeap_heap (n : ℕ) : (k.popHeap n).heap i = k.heap (i + n) := rfl

@[simp] theorem setHandle_sb : (k.setHandle i h).sb = k.sb := rfl

@[simp] theorem setHandle_bgdt : (k.setHandle i h).bgdt = k.bgdt := rfl

@[simp] theorem setHandle_blk : (k.setHandle i h).blk = k.blk := rfl

@[simp] theorem setHandle_heap : (k.setHandle i h).heap = k.heap := rfl

@[simp] theorem setHandle_active : (k.setHandle i h).active = k.active := rfl

end Kernel

end Sandflea
