import Sandflea.Lib.Bytes
import Sandflea.Lib.Words

/-!
# Shared memory regions

The shared memory of `kern_ipc.c`: the global list of regions, the handle table of each process, and
the physical page allocator under them (`pmm_alloc_page` and `pmm_free` of `kern_vmm.c`).

Pages also leave the allocator for other uses: for the kernel heap when a `kmalloc` expands it, and
for the page tables of a mapping. How many each call takes is an argument of the step, as the outcome
of its `kmalloc` is. The allocator records who took each page (`owner`), which the kernel does not.
The free list runs through the first words of its pages; it is a list here, since nobody writes to a
free page as long as the owners keep to their pages.
-/

namespace Sandflea

open Bytes

/-- A process, by its pid, a positive `i32`. -/
abbrev Pid := Fin (2 ^ 31)

instance Pid.neZero : NeZero (2 ^ 31) := ⟨by decide⟩

/-- `proc_shmem_entry_t` -/
structure ShmemEntry where
  active : Bool
  shmId : ℕ
  virtAddr : ℕ
  pageCount : ℕ
deriving DecidableEq, Repr

/-- A zeroed entry. -/
def ShmemEntry.zeroed : ShmemEntry := ⟨false, 0, 0, 0⟩

/-- `kern_shmem_t` -/
structure Region where
  shmId : ℕ
  physBase : ℕ
  pageCount : ℕ
  flags : ℕ
  refCount : ℕ
deriving DecidableEq, Repr

/-- The fields of `kern_process_t` that shared memory uses. The capacity of the table is its length;
no table is the empty one. -/
structure ShmemProc where
  cr3 : ℕ
  heapVptr : ℕ
  shmemTable : List ShmemEntry
  shmemCount : ℕ
deriving DecidableEq, Repr

/-- Who took a page from the allocator. -/
inductive PageOwner
  /-- The page is in the free list, or was never in it. -/
  | nobody
  /-- The creation of a region, which got the page `base`. -/
  | region (base : ℕ)
  /-- Anything else. -/
  | other
deriving DecidableEq, Repr

/-- The state of the page allocator and of shared memory, with a record of the regions that were
freed (`freedIds`). -/
structure Ipc where
  regions : List Region
  nextShmId : ℕ
  procs : Pid → ShmemProc
  freeList : List ℕ
  owner : ℕ → PageOwner
  phys : Bytes
  freedIds : List ℕ

namespace Ipc

/-! ## Physical pages -/

/-- `pmm_alloc_page` for `owner`: the first page of the free list, zeroed, or 0. -/
def pmmAllocPage (owner : ℕ → PageOwner) (s : Ipc) : ℕ × Ipc :=
  match s.freeList with
  | [] => (0, s)
  | page :: rest =>
    (page, { s with
      freeList := rest
      owner := Function.update s.owner page (owner page)
      phys := zeroFill s.phys page pageSize })

/-- `pmm_free`: the page goes to the front of the free list, and its first word gets the link. -/
def pmmFree (page : ℕ) (s : Ipc) : Ipc :=
  if page = 0 then s
  else { s with
    freeList := page :: s.freeList
    owner := Function.update s.owner page .nobody
    phys := copyInto s.phys page (fun i => .ofNat (s.freeList.headD 0 / 256 ^ i)) 0 8 }

/-- Pages taken for other uses. -/
def takePages : ℕ → Ipc → Ipc
  | 0, s => s
  | n + 1, s => takePages n (s.pmmAllocPage fun _ => .other).2

/-- What a `kmalloc` does: whether it gives memory, and how many pages the heap takes for it. -/
structure KmallocOutcome where
  ok : Bool
  pages : ℕ
deriving DecidableEq, Repr

/-- The pages of a region. -/
def regionPages (r : Region) : List ℕ :=
  (List.range r.pageCount).map fun k => r.physBase + k * pageSize

/-- The loop that returns the pages of a region. -/
def freePages (pages : List ℕ) (s : Ipc) : Ipc := pages.foldl (fun s page => s.pmmFree page) s

/-! ## The list of regions -/

/-- `shmem_find_global` -/
def shmemFindGlobal (s : Ipc) (shmId : ℕ) : Option Region :=
  s.regions.find? fun r => r.shmId == shmId

/-- Change the first region with an id. -/
def modifyRegion (shmId : ℕ) (f : Region → Region) : List Region → List Region
  | [] => []
  | r :: rs => if r.shmId = shmId then f r :: rs else r :: modifyRegion shmId f rs

/-- Unlink the first region with an id. -/
def unlinkRegion (shmId : ℕ) : List Region → List Region
  | [] => []
  | r :: rs => if r.shmId = shmId then rs else r :: unlinkRegion shmId rs

/-- `shmem_create_region` -/
def shmemCreateRegion (pageCount flags : ℕ) (heap : KmallocOutcome) (s : Ipc) : ℤ × Ipc :=
  let pageCount := if pageCount = 0 then 1 else pageCount
  let (phys, s) := s.pmmAllocPage .region
  if phys = 0 then (-1, s)
  else
    let s := s.takePages heap.pages
    if heap.ok then
      let shmId := s.nextShmId
      let next := u32 (shmId + 1)
      (i32 shmId, { s with
        nextShmId := if next = 0 then 1 else next
        regions := ⟨shmId, phys, pageCount, flags, 0⟩ :: s.regions })
    else (-1, s.pmmFree phys)

/-! ## Handle tables -/

/-- Change a process. -/
def setProc (s : Ipc) (p : Pid) (proc : ShmemProc) : Ipc :=
  { s with procs := Function.update s.procs p proc }

/-- `proc_alloc_shmem_slot` -/
def procAllocShmemSlot (p : Pid) (heap : KmallocOutcome) (s : Ipc) : ℤ × Ipc :=
  let proc := s.procs p
  let capacity := proc.shmemTable.length
  match proc.shmemTable.findIdx? fun e => !e.active with
  | some i => (i32 i, s)
  | none =>
    let newCap := if capacity = 0 then 4 else u32 (capacity * 2)
    let s := s.takePages heap.pages
    -- `kmalloc` of no bytes gives no memory.
    if heap.ok ∧ newCap ≠ 0 then
      let table := proc.shmemTable ++ List.replicate (newCap - capacity) .zeroed
      (i32 capacity, s.setProc p { proc with shmemTable := table })
    else (-1, s)

/-- `shmem_attach_proc`. Its mapping takes `tables` pages for page tables. -/
def shmemAttachProc (p : Pid) (shmId : ℕ) (heap : KmallocOutcome) (tables : ℕ) (s : Ipc) :
    ℤ × Ipc :=
  if shmId = 0 ∨ (s.procs p).cr3 = 0 then (-1, s)
  else
    match s.shmemFindGlobal shmId with
    | none => (-1, s)
    | some sh =>
      if sh.pageCount = 0 ∨ sh.physBase = 0 then (-1, s)
      else
        match (s.procs p).shmemTable.findIdx? fun e => e.active && e.shmId == shmId with
        | some i => (i32 i, s)
        | none =>
          let (slot, s) := procAllocShmemSlot p heap s
          if slot < 0 then (-1, s)
          else
            let proc := s.procs p
            let entry : ShmemEntry := ⟨true, shmId, proc.heapVptr, sh.pageCount⟩
            let s := s.takePages tables
            let s := s.setProc p { proc with
              heapVptr := u64 (proc.heapVptr + sh.pageCount * pageSize)
              shmemTable := proc.shmemTable.set slot.toNat entry
              shmemCount := u32 (proc.shmemCount + 1) }
            (slot, { s with
              regions := modifyRegion shmId
                (fun r => { r with refCount := u32 (r.refCount + 1) }) s.regions })

/-- The end of `shmem_detach_proc`: one attachment less for the region. -/
def dropRef (shmId : ℕ) (s : Ipc) : Ipc :=
  match s.shmemFindGlobal shmId with
  | none => s
  | some r =>
    if r.refCount - 1 = 0 then
      { s.freePages (regionPages r) with
        regions := unlinkRegion shmId s.regions
        freedIds := shmId :: s.freedIds }
    else
      { s with
        regions := modifyRegion shmId (fun r => { r with refCount := r.refCount - 1 }) s.regions }

/-- The entry that a handle of a process denotes. -/
def entryAt (s : Ipc) (p : Pid) (handle : ℤ) : Option ShmemEntry :=
  if handle < 0 then none
  else ((s.procs p).shmemTable[handle.toNat]?).filter fun e => e.active

/-- The process after `shmem_detach_proc` clears a slot of its table. -/
def clearSlot (proc : ShmemProc) (slot : ℕ) : ShmemProc :=
  { proc with
    shmemTable := proc.shmemTable.set slot .zeroed
    shmemCount := proc.shmemCount - 1 }

/-- `shmem_detach_proc` -/
def shmemDetachProc (p : Pid) (handle : ℤ) (s : Ipc) : Bool × Ipc :=
  match s.entryAt p handle with
  | none => (false, s)
  | some entry => (true, (s.setProc p (clearSlot (s.procs p) handle.toNat)).dropRef entry.shmId)

/-- The loop of `ipc_process_cleanup` over the handles. -/
def detachAll (p : Pid) (handles : List ℕ) (s : Ipc) : Ipc :=
  handles.foldl (fun s (i : ℕ) => (shmemDetachProc p (i32 i) s).2) s

/-- `ipc_process_cleanup` -/
def ipcProcessCleanup (p : Pid) (s : Ipc) : Ipc :=
  if (s.procs p).shmemTable = [] then s
  else
    let s := detachAll p (List.range (s.procs p).shmemTable.length) s
    s.setProc p { s.procs p with shmemTable := [], shmemCount := 0 }

/-- The state before the first region: no process has a handle. -/
def boot (cr3 heapVptr : Pid → ℕ) (freeList : List ℕ) (phys : Bytes) : Ipc where
  regions := []
  nextShmId := 1
  procs := fun p => ⟨cr3 p, heapVptr p, [], 0⟩
  freeList := freeList
  owner := fun _ => .nobody
  phys := phys
  freedIds := []

end Ipc

/-! ## Runs -/

/-- A call on shared memory, or a page that goes from or to another user. -/
inductive ShmemOp
  /-- `shmem_create_region` -/
  | create (pageCount flags : ℕ) (heap : Ipc.KmallocOutcome)
  /-- `shmem_attach_proc` -/
  | attach (p : Pid) (shmId : ℕ) (heap : Ipc.KmallocOutcome) (tables : ℕ)
  /-- `shmem_detach_proc` -/
  | detach (p : Pid) (handle : ℤ)
  /-- `ipc_process_cleanup` -/
  | cleanup (p : Pid)
  /-- Another user takes a page. -/
  | takePage
  /-- Another user returns a page that it has. -/
  | givePage (page : ℕ)
deriving DecidableEq, Repr

open Ipc in
/-- The state after a step. -/
def ShmemOp.run (s : Ipc) : ShmemOp → Ipc
  | .create pageCount flags heap => (s.shmemCreateRegion pageCount flags heap).2
  | .attach p shmId heap tables => (s.shmemAttachProc p shmId heap tables).2
  | .detach p handle => (s.shmemDetachProc p handle).2
  | .cleanup p => s.ipcProcessCleanup p
  | .takePage => s.takePages 1
  | .givePage page => if s.owner page = .other then s.pmmFree page else s

/-- The state after a sequence of steps. -/
def Ipc.runAll (s : Ipc) (ops : List ShmemOp) : Ipc := ops.foldl ShmemOp.run s

/-- The step creates a region: the call does not fail. -/
def ShmemOp.creates (s : Ipc) : ShmemOp → Bool
  | .create pageCount flags heap => (s.shmemCreateRegion pageCount flags heap).1 != -1
  | _ => false

/-- The number of regions that a sequence of steps creates. -/
def Ipc.creations (s : Ipc) : List ShmemOp → ℕ
  | [] => 0
  | op :: ops => (if op.creates s then 1 else 0) + creations (op.run s) ops

end Sandflea
