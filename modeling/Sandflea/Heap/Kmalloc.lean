import Sandflea.Lib.Words

/-!
# The kernel heap

`heap_expand`, `kmalloc`, `kern_realloc` and `kfree` of `kern_vmm.c`, over the words of the memory. The
memory is read and written at addresses that are multiples of 8; a header is three words, and the fourth
is never used. Expansion takes the outcomes of `pmm_alloc_page` one by one, and the loops over the block
list are bounded by the number of headers that fit below the end of the heap.
-/

namespace Sandflea

/-- `KHEAP_START_ADDR` -/
def kheapStartAddr : ℕ := 0xFFFFFFFF88000000

/-- `HEAP_MIN_SIZE` -/
def heapMinSize : ℕ := 0x40000

/-- `sizeof(heap_header_t)` -/
def headerSize : ℕ := 32

/-- The memory, the start of the block list and the end of the heap. -/
structure Heap where
  /-- The word at an address. -/
  mem : ℕ → ℕ
  /-- `heap_ptr` -/
  heapPtr : ℕ
  /-- `heap_end_addr` -/
  heapEnd : ℕ

/-- What the page allocator gives for the next page of the heap. -/
inductive PageOutcome
  | page
  /-- There is no page. -/
  | noPage
  /-- There is a page, but none for the page table that it needs: the entry is written to page 0, which is
  not mapped, and the kernel stops. -/
  | noTable
deriving DecidableEq, Repr

/-- `align_size` -/
def alignSize (size : ℕ) : ℕ :=
  if size % 16 = 0 then size else u64 (size + (16 - size % 16))

/-! ## Headers -/

/-- `size` of a header -/
def sizeAt (mem : ℕ → ℕ) (p : ℕ) : ℕ := mem p

/-- `is_free` of a header -/
def isFreeAt (mem : ℕ → ℕ) (p : ℕ) : ℕ := mem (p + 8)

/-- `next` of a header -/
def nextAt (mem : ℕ → ℕ) (p : ℕ) : ℕ := mem (p + 16)

/-- Write `is_free` of a header. -/
def setIsFree (mem : ℕ → ℕ) (p v : ℕ) : ℕ → ℕ := Function.update mem (p + 8) v

/-- Write `next` of a header. -/
def setNext (mem : ℕ → ℕ) (p v : ℕ) : ℕ → ℕ := Function.update mem (p + 16) v

/-- Write a header. -/
def setHeader (mem : ℕ → ℕ) (p size isFree next : ℕ) : ℕ → ℕ :=
  setNext (setIsFree (Function.update mem p size) p isFree) p next

namespace Heap

/-- No more headers than this fit below the end of the heap. -/
def limit (h : Heap) : ℕ := h.heapEnd / headerSize

/-! ## Expansion -/

/-- A page is mapped at the end of the heap. It is zeroed. -/
def mapPage (h : Heap) : Heap :=
  { h with
    mem := fun a => if h.heapEnd ≤ a ∧ a < h.heapEnd + pageSize then 0 else h.mem a
    heapEnd := u64 (h.heapEnd + pageSize) }

/-- The loop of `heap_expand`. `none` says that the kernel has stopped. -/
def expandTo (targetEnd : ℕ) : List PageOutcome → Heap → Option (Heap × List PageOutcome)
  | [], h => some (h, [])
  | o :: pages, h =>
    if h.heapEnd < targetEnd then
      match o with
      | .page => expandTo targetEnd pages h.mapPage
      | .noPage => some (h, pages)
      | .noTable => none
    else some (h, o :: pages)

/-- `heap_expand`. It gives the outcomes that it has not used. -/
def heapExpand (needed : ℕ) (pages : List PageOutcome) (h : Heap) :
    Option (Heap × List PageOutcome) :=
  let targetEnd := u64 (h.heapEnd + needed)
  let targetEnd := if targetEnd % pageSize ≠ 0 then u64 (targetEnd - targetEnd % pageSize + pageSize)
    else targetEnd
  expandTo targetEnd pages h

/-- The heap before `kmalloc_init` -/
def boot : Heap := ⟨fun _ => 0, kheapStartAddr, kheapStartAddr⟩

/-- `kmalloc_init` -/
def kmallocInit (pages : List PageOutcome) : Option Heap :=
  (boot.heapExpand heapMinSize pages).map fun (h, _) =>
    { h with mem := setHeader h.mem h.heapPtr (heapMinSize - headerSize) 1 0 }

/-! ## Allocation -/

/-- The search of `kmalloc`, from a block on: the first free block that is large enough, or the last
block. -/
def findFit (mem : ℕ → ℕ) (alignedSize : ℕ) : ℕ → ℕ → ℕ → ℕ ⊕ ℕ
  | 0, _, last => .inr last
  | n + 1, curr, last =>
    if curr = 0 then .inr last
    else if isFreeAt mem curr ≠ 0 ∧ alignedSize ≤ sizeAt mem curr then .inl curr
    else findFit mem alignedSize n (nextAt mem curr) curr

/-- `kmalloc` uses a free block, and splits it if there is room for another. -/
def takeBlock (h : Heap) (curr alignedSize : ℕ) : Heap × ℕ :=
  let size := sizeAt h.mem curr
  let mem :=
    if u64 (alignedSize + headerSize + 16) ≤ size then
      let newBlock := u64 (curr + headerSize + alignedSize)
      let mem := setHeader h.mem newBlock (u64 (size + 2 ^ 64 - alignedSize - headerSize)) 1
        (nextAt h.mem curr)
      setNext (Function.update mem curr alignedSize) curr newBlock
    else h.mem
  ({ h with mem := setIsFree mem curr 0 }, u64 (curr + headerSize))

/-- `kmalloc` puts the new part of the heap behind the last block. -/
def addBlock (h : Heap) (oldEnd last : ℕ) : Heap :=
  let mem := setHeader h.mem oldEnd (h.heapEnd - oldEnd - headerSize) 1 0
  if last = 0 then { h with mem := mem, heapPtr := oldEnd }
  else { h with mem := setNext mem last oldEnd }

/-- The loop of `kmalloc` -/
def kmallocLoop (alignedSize : ℕ) : ℕ → List PageOutcome → Heap → Option (Heap × ℕ)
  | 0, _, h => some (h, 0)
  | n + 1, pages, h =>
    match findFit h.mem alignedSize h.limit h.heapPtr 0 with
    | .inl curr => some (h.takeBlock curr alignedSize)
    | .inr last =>
      match h.heapExpand (u64 (alignedSize + headerSize)) pages with
      | none => none
      | some (h', pages') =>
        if h'.heapEnd = h.heapEnd then some (h', 0)
        else kmallocLoop alignedSize n pages' (h'.addBlock h.heapEnd last)

/-- A turn of `kmalloc` that finds no block -/
theorem kmallocLoop_of_full {alignedSize n last : ℕ} {pages : List PageOutcome} {h : Heap}
    (hfull : findFit h.mem alignedSize h.limit h.heapPtr 0 = .inr last) :
    kmallocLoop alignedSize (n + 1) pages h =
      match h.heapExpand (u64 (alignedSize + headerSize)) pages with
      | none => none
      | some (h', pages') =>
        if h'.heapEnd = h.heapEnd then some (h', 0)
        else kmallocLoop alignedSize n pages' (h'.addBlock h.heapEnd last) := by
  rw [kmallocLoop, hfull]

/-- `kmalloc`. Every turn but the last uses a page. -/
def kmalloc (size : ℕ) (pages : List PageOutcome) (h : Heap) : Option (Heap × ℕ) :=
  if size = 0 then some (h, 0) else kmallocLoop (alignSize size) (pages.length + 1) pages h

/-! ## Release -/

/-- The loop of `kfree`, which joins free blocks that lie behind one another -/
def coalesce (heapEnd : ℕ) : ℕ → ℕ → (ℕ → ℕ) → ℕ → ℕ
  | 0, _, mem => mem
  | n + 1, curr, mem =>
    let next := nextAt mem curr
    if curr = 0 ∨ next = 0 then mem
    else if next < kheapStartAddr ∨ heapEnd ≤ next then setNext mem curr 0
    else if isFreeAt mem curr ≠ 0 ∧ isFreeAt mem next ≠ 0 ∧
        u64 (curr + headerSize + sizeAt mem curr) = next then
      let mem := Function.update mem curr (u64 (sizeAt mem curr + (headerSize + sizeAt mem next)))
      coalesce heapEnd n curr (setNext mem curr (nextAt mem next))
    else coalesce heapEnd n next mem

/-- `kfree` -/
def kfree (h : Heap) (ptr : ℕ) : Heap :=
  if ptr = 0 then h
  else if ptr < kheapStartAddr ∨ h.heapEnd ≤ ptr then h
  else
    let header := ptr - headerSize
    if isFreeAt h.mem header ≠ 0 then h
    else { h with mem := coalesce h.heapEnd h.limit h.heapPtr (setIsFree h.mem header 1) }

/-- `mem_copy`, word by word -/
def memCopy (dest src : ℕ) : ℕ → (ℕ → ℕ) → ℕ → ℕ
  | 0, mem => mem
  | n + 1, mem => Function.update (memCopy dest src n mem) (dest + 8 * n)
      (memCopy dest src n mem (src + 8 * n))

/-- `kern_realloc` -/
def kernRealloc (h : Heap) (ptr size : ℕ) (pages : List PageOutcome) : Option (Heap × ℕ) :=
  if ptr = 0 then h.kmalloc size pages
  else if size = 0 then some (h.kfree ptr, 0)
  else if ptr < kheapStartAddr ∨ h.heapEnd ≤ ptr then some (h, 0)
  else
    let oldSize := sizeAt h.mem (ptr - headerSize)
    if size ≤ oldSize then some (h, ptr)
    else
      match h.kmalloc size pages with
      | none => none
      | some (h', newPtr) =>
        if newPtr = 0 then some (h', 0)
        else some ({ h' with mem := memCopy newPtr ptr (oldSize / 8) h'.mem }.kfree ptr, newPtr)

end Heap

end Sandflea
