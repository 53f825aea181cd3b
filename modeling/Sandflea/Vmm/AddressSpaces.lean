import Sandflea.Vmm.PhysMem
import Sandflea.Heap.Kmalloc

/-!
# Address spaces

The PML4s of the processes, and the operations that put kernel mappings into them: `process_create`, the
switch at the end of `sched_run_next`, `heap_expand`, `vmm_map_page` and the mappings of devices. The
scheduler's choice of the process to switch to is a parameter.
-/

namespace Sandflea

/-- `MMIO_VIRT_BASE` -/
def mmioVirtBase : ℕ := 0xFFFFFFFF20000000

/-- `WC_VIRT_BASE` -/
def wcVirtBase : ℕ := 0xFFFFFFFF30000000

/-- The first address of the kernel half -/
def kernelHalf : ℕ := 0xFFFF800000000000

/-- `PAGE_PWT` and `PAGE_WC` -/
def pagePwt : ℕ := 8

/-- `PAGE_PCD` -/
def pagePcd : ℕ := 16

/-- The memory, the processes and the address space in use. -/
structure AddressSpaces where
  mem : PhysMem
  /-- `cr3` of the kernel process -/
  kernelCr3 : ℕ
  /-- `cr3` of the other processes, in the order in which they were created -/
  cr3s : List ℕ
  /-- The process of the current task: 0 is the kernel process. -/
  current : ℕ
  /-- What `read_cr3` returns -/
  cr3 : ℕ
  heapEndAddr : ℕ
  mmioVirtNext : ℕ
  wcVirtNext : ℕ

/-- Copy the kernel half of a PML4 to another. -/
def PhysMem.copyKernelHalf (m : PhysMem) (src dst : ℕ) : PhysMem :=
  { m with
    words := Function.update m.words dst fun i => if i < 256 then m.words dst i else m.words src i }

namespace AddressSpaces

/-- `cr3` of a process -/
def cr3Of (s : AddressSpaces) (p : ℕ) : Option ℕ := (s.kernelCr3 :: s.cr3s)[p]?

/-- `process_create`, as far as its PML4 goes -/
def processCreate (s : AddressSpaces) : AddressSpaces :=
  let (pml4, mem) := s.mem.pmmAllocPage
  if pml4 = 0 then { s with mem := mem }
  else { s with mem := mem.copyKernelHalf s.kernelCr3 pml4, cr3s := s.cr3s ++ [pml4] }

/-- `sched_sync_kernel_pml4` -/
def schedSyncKernelPml4 (s : AddressSpaces) (cr3 : ℕ) : AddressSpaces :=
  if cr3 ≠ 0 ∧ cr3 ≠ s.kernelCr3 then { s with mem := s.mem.copyKernelHalf s.kernelCr3 cr3 } else s

/-- The part of `task_switch_asm` that is about the address space -/
def taskSwitch (s : AddressSpaces) (next cr3 : ℕ) : AddressSpaces :=
  if next = s.current ∨ cr3 = 0 then { s with current := next }
  else { s with current := next, cr3 := cr3 }

/-- The end of `sched_run_next`: switch to a task of a process. -/
def contextSwitch (s : AddressSpaces) (next : ℕ) : AddressSpaces :=
  match s.cr3Of next with
  | none => s
  | some cr3 => (s.schedSyncKernelPml4 cr3).taskSwitch next cr3

/-- `vmm_map_page` -/
def mapPage (s : AddressSpaces) (phys virt flags : ℕ) : AddressSpaces :=
  if kernelHalf ≤ virt then
    let mem := s.mem.mapPageInPml4 s.kernelCr3 phys virt flags
    { s with
      mem :=
        if s.kernelCr3 ≠ s.cr3 then
          mem.setWord s.cr3 (pml4Index virt) (mem.words s.kernelCr3 (pml4Index virt))
        else mem }
  else { s with mem := s.mem.mapPageInPml4 s.cr3 phys virt flags }

/-- The loop of `heap_expand`, with how many pages there are to map. It says whether it came to its end. -/
def expandPages : ℕ → AddressSpaces → Bool × AddressSpaces
  | 0, s => (true, s)
  | n + 1, s =>
    let (physPage, mem) := s.mem.pmmAllocPage
    if physPage = 0 then (false, { s with mem := mem })
    else
      expandPages n { s with
        mem := mem.mapPageInPml4 s.kernelCr3 physPage s.heapEndAddr (pagePresent ||| pageRw)
        heapEndAddr := u64 (s.heapEndAddr + pageSize) }

/-- The end of the heap that `heap_expand` is to reach -/
def targetEnd (s : AddressSpaces) (needed : ℕ) : ℕ :=
  let targetEnd := u64 (s.heapEndAddr + needed)
  if targetEnd % pageSize ≠ 0 then u64 (targetEnd - targetEnd % pageSize + pageSize) else targetEnd

/-- `heap_expand` -/
def heapExpand (s : AddressSpaces) (needed : ℕ) : AddressSpaces :=
  match s.expandPages ((s.targetEnd needed - s.heapEndAddr) / pageSize) with
  | (false, s) => s
  | (true, s) =>
    if s.kernelCr3 ≠ s.cr3 then
      { s with mem := s.mem.setWord s.cr3 511 (s.mem.words s.kernelCr3 511) }
    else s

/-- The loop of the two mappings of devices -/
def mapPages (phys virt flags : ℕ) : ℕ → AddressSpaces → AddressSpaces
  | 0, s => s
  | n + 1, s =>
    (mapPages phys virt flags n s).mapPage (u64 (phys + n * pageSize)) (u64 (virt + n * pageSize)) flags

/-- How many pages a device takes -/
def pageCount (size : ℕ) : ℕ := u64 (size + pageSize - 1) / pageSize

/-- `vmm_mmio_map_phys` -/
def mmioMapPhys (s : AddressSpaces) (phys size : ℕ) : AddressSpaces :=
  if kheapStartAddr ≤ u64 (s.mmioVirtNext + pageCount size * pageSize) then s
  else
    { s.mapPages (phys - phys % pageSize) s.mmioVirtNext (pageRw ||| pagePcd ||| pagePwt)
        (pageCount size) with
      mmioVirtNext := u64 (s.mmioVirtNext + pageCount size * pageSize) }

/-- `vmm_wc_map_phys` -/
def wcMapPhys (s : AddressSpaces) (phys size : ℕ) : AddressSpaces :=
  if kheapStartAddr ≤ u64 (s.wcVirtNext + pageCount size * pageSize) then s
  else
    { s.mapPages (phys - phys % pageSize) s.wcVirtNext (pageRw ||| pagePwt) (pageCount size) with
      wcVirtNext := u64 (s.wcVirtNext + pageCount size * pageSize) }

end AddressSpaces

/-- An operation that a task may ask for. -/
inductive SpaceOp
  | processCreate
  | contextSwitch (next : ℕ)
  | heapExpand (needed : ℕ)
  | mapPage (phys virt flags : ℕ)
  | mmioMap (phys size : ℕ)
  | wcMap (phys size : ℕ)
deriving DecidableEq, Repr

/-- The state after an operation -/
def AddressSpaces.step (s : AddressSpaces) : SpaceOp → AddressSpaces
  | .processCreate => s.processCreate
  | .contextSwitch next => s.contextSwitch next
  | .heapExpand needed => s.heapExpand needed
  | .mapPage phys virt flags => s.mapPage phys virt flags
  | .mmioMap phys size => s.mmioMapPhys phys size
  | .wcMap phys size => s.wcMapPhys phys size

end Sandflea
