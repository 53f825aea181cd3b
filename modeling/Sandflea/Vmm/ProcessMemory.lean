import Sandflea.Vmm.AddressSpaces
import Sandflea.Ipc.Shmem

/-!
# The memory of a process

What a process takes from the page allocator and returns to it: `process_create`, `pmalloc` and `pfree`,
shared memory, and `process_exit`.

The calls of `kmalloc` succeed. When one of them makes the kernel heap grow, it takes its pages before the
call does anything else to memory, and this growth is an operation of its own. The lists of the pages that the
heap took and of the freed pages of shared regions are records, as is `failed`: no function reads them.
-/

namespace Sandflea

namespace PhysMem

/-- The loops of `vmm_free_pml4_user` below a table with `level` levels of tables below it. The table is freed
after those that its entries point to. -/
def freeTable : ℕ → ℕ → PhysMem → PhysMem
  | 0, table, m => m.pmmFree table
  | level + 1, table, m =>
    ((List.range 512).foldl
      (fun m i => if Present (m.words table i) then freeTable level (entryAddr (m.words table i)) m else m)
      m).pmmFree table

/-- `vmm_free_pml4_user` -/
def freePml4User (pml4 : ℕ) (m : PhysMem) : PhysMem :=
  if pml4 = 0 then m
  else
    ((List.range 256).foldl
      (fun m i => if Present (m.words pml4 i) then freeTable 2 (entryAddr (m.words pml4 i)) m else m)
      m).pmmFree pml4

/-- A page of a region is freed and unmapped, if it is mapped. -/
def releasePage (cr3 : ℕ) (m : PhysMem) (vaddr : ℕ) : PhysMem :=
  let phys := m.getPhysInPml4 cr3 vaddr
  if phys ≠ 0 then (m.pmmFree phys).unmapPageInPml4 cr3 vaddr else m

end PhysMem

/-- `kern_mem_region_t` -/
structure MemRegion where
  virt : ℕ
  pageCount : ℕ
deriving DecidableEq, Repr

/-- The addresses of the pages of a region -/
def MemRegion.addrs (r : MemRegion) : List ℕ :=
  (List.range r.pageCount).map fun i => u64 (r.virt + i * pageSize)

/-- The memory with one process. -/
structure ProcessMemory where
  mem : PhysMem
  cr3 : ℕ
  heapVptr : ℕ
  memRegions : List MemRegion
  shmemTable : List ShmemEntry
  shmemCount : ℕ
  /-- `g_shmem_head` -/
  regions : List Region
  /-- `pmm_alloc_page` found no page for the process or the heap. -/
  failed : Bool
  heapPages : List ℕ
  freedShared : List ℕ

namespace ProcessMemory

/-- `process_create`, with the shared regions that there are -/
def processCreate (mem : PhysMem) (kernelCr3 : ℕ) (regions : List Region) : ProcessMemory :=
  let (pml4, mem) := mem.pmmAllocPage
  { mem := if pml4 = 0 then mem else mem.copyKernelHalf kernelCr3 pml4
    cr3 := pml4
    heapVptr := 0x1000000
    memRegions := []
    shmemTable := []
    shmemCount := 0
    regions := regions
    failed := pml4 = 0
    heapPages := []
    freedShared := [] }

/-- The kernel heap takes a page. -/
def heapPage (s : ProcessMemory) : ProcessMemory :=
  let (page, mem) := s.mem.pmmAllocPage
  if page = 0 then { s with failed := true }
  else { s with mem := mem, heapPages := page :: s.heapPages }

/-! ## `pmalloc` and `pfree` -/

/-- A page is allocated and mapped at an address. -/
def mapNewPage (s : ProcessMemory) (vaddr : ℕ) : ProcessMemory :=
  let (phys, mem) := s.mem.pmmAllocPage
  { s with
    mem := mem.mapPageInPml4 s.cr3 phys vaddr (pagePresent ||| pageRw ||| pageUser)
    failed := s.failed || phys = 0 }

/-- How many pages `pmalloc` maps -/
def pagesFor (size : ℕ) : ℕ := u64 (size + pageSize - 1) / pageSize

/-- `pmalloc` -/
def pmalloc (size : ℕ) (s : ProcessMemory) : ℕ × ProcessMemory :=
  if size = 0 then (0, s)
  else
    let region : MemRegion := ⟨s.heapVptr, pagesFor size⟩
    let s := region.addrs.foldl mapNewPage s
    (region.virt,
      { s with
        memRegions := region :: s.memRegions
        heapVptr := u64 (s.heapVptr + region.pageCount * pageSize) })

/-- `pfree` -/
def pfree (ptr : ℕ) (s : ProcessMemory) : ProcessMemory :=
  if ptr = 0 then s
  else
    match s.memRegions.find? fun r => r.virt = ptr with
    | none => s
    | some r =>
      { s with
        mem := r.addrs.foldl (PhysMem.releasePage s.cr3) s.mem
        memRegions := s.memRegions.eraseP fun r => r.virt = ptr }

/-! ## Shared memory -/

/-- `proc_alloc_shmem_slot` -/
def procAllocShmemSlot (s : ProcessMemory) : ℤ × ProcessMemory :=
  let capacity := s.shmemTable.length
  match s.shmemTable.findIdx? fun e => !e.active with
  | some i => (i32 i, s)
  | none =>
    let newCap := if capacity = 0 then 4 else u32 (capacity * 2)
    -- `kmalloc` of no bytes gives no memory.
    if newCap = 0 then (-1, s)
    else
      (i32 capacity,
        { s with shmemTable := s.shmemTable ++ List.replicate (newCap - capacity) .zeroed })

/-- The first half of `shmem_attach_proc`: the region that is to be mapped. -/
def toAttach (shmId : ℕ) (s : ProcessMemory) : Option Region :=
  if shmId = 0 ∨ s.cr3 = 0 then none
  else
    match s.regions.find? fun r => r.shmId == shmId with
    | none => none
    | some sh =>
      if sh.pageCount = 0 ∨ sh.physBase = 0 then none
      else if s.shmemTable.any fun e => e.active && e.shmId == shmId then none
      else some sh

/-- The pages of a shared region are mapped at an address. -/
def mapShared (cr3 va : ℕ) (sh : Region) (m : PhysMem) : PhysMem :=
  (List.range sh.pageCount).foldl
    (fun m p => m.mapPageInPml4 cr3 (sh.physBase + p * pageSize) (u64 (va + p * pageSize))
      (sh.flags &&& (pageRw ||| pageUser) ||| pageUser)) m

/-- `shmem_attach_proc` -/
def shmemAttachProc (shmId : ℕ) (s : ProcessMemory) : ProcessMemory :=
  match s.toAttach shmId with
  | none => s
  | some sh =>
    let (slot, s) := s.procAllocShmemSlot
    if slot < 0 then s
    else
      { s with
        mem := mapShared s.cr3 s.heapVptr sh s.mem
        heapVptr := u64 (s.heapVptr + sh.pageCount * pageSize)
        shmemTable := s.shmemTable.set slot.toNat ⟨true, shmId, s.heapVptr, sh.pageCount⟩
        shmemCount := u32 (s.shmemCount + 1)
        regions := Ipc.modifyRegion shmId (fun r => { r with refCount := u32 (r.refCount + 1) }) s.regions }

/-- The end of `shmem_detach_proc`: one attachment less for the region. -/
def dropRef (shmId : ℕ) (s : ProcessMemory) : ProcessMemory :=
  match s.regions.find? fun r => r.shmId == shmId with
  | none => s
  | some r =>
    if r.refCount - 1 = 0 then
      { s with
        mem := (Ipc.regionPages r).foldl PhysMem.pmmFree s.mem
        regions := Ipc.unlinkRegion shmId s.regions
        freedShared := Ipc.regionPages r ++ s.freedShared }
    else
      { s with
        regions := Ipc.modifyRegion shmId (fun r => { r with refCount := r.refCount - 1 }) s.regions }

/-- The pages of a handle are unmapped and its entry is cleared. -/
def clearEntry (handle : ℕ) (e : ShmemEntry) (s : ProcessMemory) : ProcessMemory :=
  { s with
    mem := (List.range e.pageCount).foldl
      (fun m p => m.unmapPageInPml4 s.cr3 (u64 (e.virtAddr + p * pageSize))) s.mem
    shmemTable := s.shmemTable.set handle .zeroed
    shmemCount := s.shmemCount - 1 }

/-- `shmem_detach_proc` -/
def shmemDetachProc (handle : ℤ) (s : ProcessMemory) : ProcessMemory :=
  if handle < 0 then s
  else
    match (s.shmemTable[handle.toNat]?).filter fun e => e.active with
    | none => s
    | some e => (s.clearEntry handle.toNat e).dropRef e.shmId

/-- `ipc_process_cleanup` -/
def ipcProcessCleanup (s : ProcessMemory) : ProcessMemory :=
  let s := (List.range s.shmemTable.length).foldl (fun s (i : ℕ) => s.shmemDetachProc (i32 i)) s
  { s with shmemTable := [], shmemCount := 0 }

/-! ## The end of the process -/

/-- `process_exit`, as far as the pages of the process go -/
def processExit (s : ProcessMemory) : ProcessMemory :=
  let s := s.ipcProcessCleanup
  let mem := s.memRegions.foldl (fun m r => r.addrs.foldl (PhysMem.releasePage s.cr3) m) s.mem
  { s with mem := mem.freePml4User s.cr3, memRegions := [] }

end ProcessMemory

/-- What a process does with memory. -/
inductive MemoryOp
  /-- The kernel heap takes a page. -/
  | heapPage
  | pmalloc (size : ℕ)
  | pfree (ptr : ℕ)
  /-- `shmem_attach_proc` -/
  | attach (shmId : ℕ)
  /-- `shmem_detach_proc` -/
  | detach (handle : ℤ)
deriving DecidableEq, Repr

/-- The state after an operation -/
def ProcessMemory.step (s : ProcessMemory) : MemoryOp → ProcessMemory
  | .heapPage => s.heapPage
  | .pmalloc size => (s.pmalloc size).2
  | .pfree ptr => s.pfree ptr
  | .attach shmId => s.shmemAttachProc shmId
  | .detach handle => s.shmemDetachProc handle

end Sandflea
