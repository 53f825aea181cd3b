import Sandflea.Heap.Blocks
import Sandflea.Lib.Runs

/-!
# The heap tiles its range

Clients allocate, resize and release, and write into what they hold. `Client.Sound` is what they rely on:
the block list is in the order of the addresses and fills the heap exactly, and what they hold lies in
blocks in use that are aligned, large enough and apart.

`heap_sound` says that this is always so if no request is for more than `2^64 - 16` bytes, which
`align_size` rounds up to a size that is no less. `kmalloc` is called with fewer; `kern_realloc` passes
on any size.
-/

namespace Sandflea

open BlockList Runs

/-- An allocation that a client holds: the pointer and the size that was asked for. -/
structure Allocation where
  ptr : ℕ
  size : ℕ
deriving DecidableEq, Repr

/-- The heap, and what is allocated. -/
structure Client where
  heap : Heap
  live : List Allocation

/-- What a client does. -/
inductive HeapStep
  | kmalloc (size : ℕ) (pages : List PageOutcome)
  | kfree (ptr : ℕ)
  | kernRealloc (ptr size : ℕ) (pages : List PageOutcome)
  /-- Write a word of the payload. -/
  | write (ptr word value : ℕ)
deriving Repr

namespace Client

/-- A pointer that was allocated and not released. -/
def IsLive (c : Client) (ptr : ℕ) : Prop := ∃ x ∈ c.live, x.ptr = ptr

instance (c : Client) (ptr : ℕ) : Decidable (c.IsLive ptr) :=
  inferInstanceAs (Decidable (∃ x ∈ c.live, x.ptr = ptr))

/-- The size of the block that a pointer points into. -/
def blockSize (c : Client) (ptr : ℕ) : ℕ := sizeAt c.heap.mem (ptr - headerSize)

/-- What is allocated except at a pointer. -/
def without (c : Client) (ptr : ℕ) : List Allocation := c.live.filter fun x => x.ptr ≠ ptr

end Client

/-- The state after a step. Only live pointers are released and resized, and only their payloads are
written. A call that stops the kernel has no result. -/
def HeapStep.run (c : Client) : HeapStep → Client
  | .kmalloc size pages =>
    match c.heap.kmalloc size pages with
    | none => c
    | some (h, ptr) => if ptr = 0 then { c with heap := h } else ⟨h, ⟨ptr, size⟩ :: c.live⟩
  | .kfree ptr => if c.IsLive ptr then ⟨c.heap.kfree ptr, c.without ptr⟩ else c
  | .kernRealloc ptr size pages =>
    if c.IsLive ptr then
      match c.heap.kernRealloc ptr size pages with
      | none => c
      | some (h, newPtr) =>
        if size = 0 then ⟨h, c.without ptr⟩
        else if newPtr = 0 then { c with heap := h }
        else ⟨h, ⟨newPtr, size⟩ :: c.without ptr⟩
    else c
  | .write ptr word value =>
    if c.IsLive ptr ∧ 8 * word + 8 ≤ c.blockSize ptr then
      { c with heap := { c.heap with
          mem := Function.update c.heap.mem (ptr + 8 * word) (u64 value) } }
    else c

/-- The block list is in order and fills the heap, and what is allocated lies in blocks in use that are
aligned, large enough and apart. -/
structure Client.Sound (c : Client) : Prop where
  blocks : ∃ bs : List HeapBlock,
    Seg heapLayout c.heap.mem c.heap.heapPtr bs 0 ∧
    bs.Pairwise (fun b d => b.addr < d.addr) ∧
    Tiles heapLayout kheapStartAddr bs c.heap.heapEnd ∧
    ∀ x ∈ c.live, ∃ b ∈ bs, b.isFree = false ∧ b.addr + headerSize = x.ptr ∧ x.size ≤ b.size
  aligned : ∀ x ∈ c.live, x.ptr % 16 = 0
  apart : c.live.Pairwise fun x y =>
    x.ptr + c.blockSize x.ptr ≤ y.ptr ∨ y.ptr + c.blockSize y.ptr ≤ x.ptr

/-- A request that `align_size` does not make smaller. -/
def HeapStep.Fits : HeapStep → Prop
  | .kmalloc size _ => size ≤ 2 ^ 64 - 16
  | .kernRealloc _ size _ => size ≤ 2 ^ 64 - 16
  | _ => True

instance (st : HeapStep) : Decidable st.Fits := by
  cases st <;> unfold HeapStep.Fits <;> infer_instance

/-! ## The invariant -/

/-- An allocation lies in a block in use. -/
def InBlock (bs : List HeapBlock) (x : Allocation) : Prop :=
  ∃ b ∈ bs, b.isFree = false ∧ b.addr + headerSize = x.ptr ∧ x.size ≤ b.size

/-- What is allocated is in blocks of the list, each in its own. -/
structure Client.Placed (c : Client) (bs : List HeapBlock) : Prop where
  shaped : Shaped c.heap bs
  inBlock : ∀ x ∈ c.live, InBlock bs x
  nodup : c.live.Pairwise fun x y => x.ptr ≠ y.ptr

namespace Client

variable {c : Client} {bs : List HeapBlock}

/-- The header of a block says its size. -/
theorem sizeAt_of_mem {h : Heap} (hs : Shaped h bs) {b : HeapBlock} (hb : b ∈ bs) :
    sizeAt h.mem b.addr = b.size := (hs.laid.seg.holds hb).elim fun _ hh => hh.2.1

theorem Placed.sound (h : c.Placed bs) : c.Sound := by
  have hhead : headerSize = 32 := rfl
  have hseg := h.shaped.laid.seg
  rw [← h.shaped.start] at hseg
  refine ⟨⟨bs, hseg, h.shaped.laid.tiles.sorted, h.shaped.laid.tiles, h.inBlock⟩, fun x hx => ?_, ?_⟩
  · obtain ⟨b, hb, -, hptr, -⟩ := h.inBlock x hx
    have ha := h.shaped.aligned hb
    omega
  · refine List.Pairwise.imp_of_mem (fun {x y} hx hy hne => ?_) h.nodup
    obtain ⟨b, hb, -, hbx, -⟩ := h.inBlock x hx
    obtain ⟨d, hd, -, hdy, -⟩ := h.inBlock y hy
    have hsize : ∀ e ∈ bs, c.blockSize (e.addr + headerSize) = e.size := by
      intro e he
      unfold blockSize
      rw [Nat.add_sub_cancel]
      exact sizeAt_of_mem h.shaped he
    rw [← hbx, ← hdy, hsize b hb, hsize d hd]
    rcases h.shaped.laid.tiles.apart hb hd with rfl | hle | hle
    · exact absurd (hbx.symm.trans hdy) hne
    · have hle' : b.addr + (headerSize + b.size) ≤ d.addr := hle
      omega
    · have hle' : d.addr + (headerSize + d.size) ≤ b.addr := hle
      omega

/-- The block of a live pointer. -/
theorem Placed.block (h : c.Placed bs) {ptr : ℕ} (hl : c.IsLive ptr) :
    ∃ b ∈ bs, b.isFree = false ∧ b.addr + headerSize = ptr := by
  obtain ⟨x, hx, rfl⟩ := hl
  obtain ⟨b, hb, hf, hptr, -⟩ := h.inBlock x hx
  exact ⟨b, hb, hf, hptr⟩

/-- What is left when the block of a pointer is given up. -/
theorem Placed.without {bs' : List HeapBlock} (h : c.Placed bs) {b : HeapBlock} {h' : Heap}
    (hs : Shaped h' bs') (hkeep : ∀ d ∈ bs, d.isFree = false → d ≠ b → d ∈ bs') :
    Placed ⟨h', c.without (b.addr + headerSize)⟩ bs' := by
  refine ⟨hs, fun x hx => ?_, h.nodup.filter _⟩
  obtain ⟨hx, hne⟩ := List.mem_filter.mp hx
  obtain ⟨d, hd, hf, hptr, hle⟩ := h.inBlock x hx
  refine ⟨d, hkeep d hd hf fun he => ?_, hf, hptr, hle⟩
  rw [← hptr, he] at hne
  simp at hne

/-- A new allocation in a block that holds none. -/
theorem Placed.cons {d : HeapBlock} (h : c.Placed bs) {ptr size : ℕ} (hd : d ∈ bs)
    (hused : d.isFree = false) (hptr : d.addr + headerSize = ptr) (hle : size ≤ d.size)
    (hfresh : ∀ x ∈ c.live, x.ptr ≠ ptr) : Placed ⟨c.heap, ⟨ptr, size⟩ :: c.live⟩ bs := by
  refine ⟨h.shaped, List.forall_mem_cons.mpr ⟨⟨d, hd, hused, hptr, hle⟩, h.inBlock⟩, ?_⟩
  exact List.Pairwise.cons (fun x hx => (hfresh x hx).symm) h.nodup

/-- Every step keeps the invariant. -/
theorem Placed.run (h : c.Placed bs) {st : HeapStep} (hfits : st.Fits) :
    ∃ bs', Placed (st.run c) bs' := by
  have hhead : headerSize = 32 := rfl
  cases st with
  | kmalloc size pages =>
    dsimp only [HeapStep.run]
    cases hk : c.heap.kmalloc size pages with
    | none => exact ⟨bs, h⟩
    | some result =>
      obtain ⟨h', ptr⟩ := result
      obtain ⟨bs', hserved⟩ := kmalloc_spec h.shaped hfits hk
      have hkept : Placed ⟨h', c.live⟩ bs' := by
        refine ⟨hserved.shaped, fun x hx => ?_, h.nodup⟩
        obtain ⟨b, hb, hf, hptr, hle⟩ := h.inBlock x hx
        exact ⟨b, hserved.keeps b hb hf, hf, hptr, hle⟩
      dsimp only
      by_cases hz : ptr = 0
      · rw [if_pos hz]
        exact ⟨bs', hkept⟩
      · rw [if_neg hz]
        obtain ⟨d, hd⟩ := hserved.given.resolve_left hz
        refine ⟨bs', hkept.cons hd.mem hd.used hd.payload hd.fits fun x hx he => ?_⟩
        obtain ⟨b, hb, hf, hptr, -⟩ := h.inBlock x hx
        have hpay := hd.payload
        exact hd.fresh b hb hf (by omega)
  | kfree ptr =>
    dsimp only [HeapStep.run]
    split
    next hl =>
      obtain ⟨b, hb, hf, rfl⟩ := h.block hl
      obtain ⟨bs', hs, -, -, hkeep⟩ := kfree_spec h.shaped hb hf
      exact ⟨bs', h.without hs hkeep⟩
    next => exact ⟨bs, h⟩
  | kernRealloc ptr size pages =>
    dsimp only [HeapStep.run]
    split
    next hl =>
      obtain ⟨b, hb, hf, rfl⟩ := h.block hl
      cases hk : c.heap.kernRealloc (b.addr + headerSize) size pages with
      | none => exact ⟨bs, h⟩
      | some result =>
        obtain ⟨h', newPtr⟩ := result
        dsimp only
        by_cases hz : size = 0
        · rw [if_pos hz]
          unfold Heap.kernRealloc at hk
          rw [if_neg (by omega), if_pos hz, Option.some.injEq, Prod.mk.injEq] at hk
          obtain ⟨rfl, -⟩ := hk
          obtain ⟨bs', hs, -, -, hkeep⟩ := kfree_spec h.shaped hb hf
          exact ⟨bs', h.without hs hkeep⟩
        rw [if_neg hz]
        obtain ⟨bs', hs, hkeep, hres⟩ := kernRealloc_spec h.shaped hb hf hz hfits hk
        by_cases hnull : newPtr = 0
        · rw [if_pos hnull]
          have hmem : b ∈ bs' := by
            rcases hres with ⟨-, hmem⟩ | ⟨d, -, -, hptr, -⟩
            · exact hmem
            · omega
          refine ⟨bs', hs, fun x hx => ?_, h.nodup⟩
          obtain ⟨d, hd, hdf, hptr, hle⟩ := h.inBlock x hx
          by_cases hdb : d = b
          · exact ⟨d, hdb ▸ hmem, hdf, hptr, hle⟩
          · exact ⟨d, hkeep d hd hdf hdb, hdf, hptr, hle⟩
        · rw [if_neg hnull]
          obtain ⟨d, hd, hdf, hptr, hle, hfresh⟩ := hres.resolve_left fun hr => hnull hr.1
          refine ⟨bs', (h.without hs hkeep).cons hd hdf hptr hle fun x hx he => ?_⟩
          obtain ⟨hx, hne⟩ := List.mem_filter.mp hx
          obtain ⟨e, he', hef, heptr, -⟩ := h.inBlock x hx
          refine hfresh e he' hef (fun heb => ?_) (by omega)
          rw [← heptr, heb] at hne
          simp at hne
    next => exact ⟨bs, h⟩
  | write ptr word value =>
    dsimp only [HeapStep.run]
    split
    next hw =>
      obtain ⟨b, hb, hf, rfl⟩ := h.block hw.1
      have hsize := hw.2
      unfold blockSize at hsize
      rw [Nat.add_sub_cancel, sizeAt_of_mem h.shaped hb] at hsize
      refine ⟨bs, h.shaped.write hb fun x hx => ?_, h.inBlock, h.nodup⟩
      exact Function.update_of_ne (by omega) _ _
    next => exact ⟨bs, h⟩

/-- `kmalloc_init` makes one free block of the whole heap. -/
theorem placed_init {pages : List PageOutcome} {h : Heap} (hi : Heap.kmallocInit pages = some h)
    (hend : h.heapEnd = kheapStartAddr + heapMinSize) : ∃ bs, Placed ⟨h, []⟩ bs := by
  unfold Heap.kmallocInit at hi
  rw [Option.map_eq_some_iff] at hi
  obtain ⟨⟨h', pages'⟩, hexp, rfl⟩ := hi
  have he := heapExpand_spec (by decide) (by decide) hexp
  have hptr : h'.heapPtr = kheapStartAddr := he.start
  have hend' : h'.heapEnd = kheapStartAddr + heapMinSize := hend
  have hnew := holds_setHeader h'.mem (heapMinSize - headerSize) 0 true (p := kheapStartAddr)
    (by decide)
  refine ⟨[⟨kheapStartAddr, heapMinSize - headerSize, true⟩], ⟨hptr, ⟨?_, ?_⟩, List.cons_ne_nil _ _,
    ?_, ?_, ?_⟩, fun x hx => (nomatch hx), List.Pairwise.nil⟩
  · dsimp only
    rw [hptr]
    exact ⟨rfl, 0, hnew, rfl⟩
  · dsimp only
    rw [hend']
    exact ⟨rfl, by decide, rfl⟩
  · intro b hb
    rw [List.mem_singleton] at hb
    subst hb
    exact ⟨rfl, by decide⟩
  · exact he.endLt
  · exact he.endPage

end Client

/-- What is allocated is in blocks of the list, in every state of a run. -/
theorem placed_along {pages : List PageOutcome} {h : Heap} (hi : Heap.kmallocInit pages = some h)
    (hend : h.heapEnd = kheapStartAddr + heapMinSize) {steps : List HeapStep}
    (hfits : ∀ st ∈ steps, st.Fits) :
    Always (fun c st => HeapStep.run c st) (fun c => ∃ bs, c.Placed bs) ⟨h, []⟩ steps := by
  have hstep : ∀ (c : Client) (st : HeapStep), (∃ bs, c.Placed bs) → st.Fits →
      ∃ bs, (st.run c).Placed bs := fun c st ⟨bs, hp⟩ hf => hp.run hf
  have halong : Along (fun c st => HeapStep.run c st) (fun _ st => st.Fits) ⟨h, []⟩ steps :=
    along_of_forall (fun st hst _ => hfits st hst) _
  exact always_of_along hstep (Client.placed_init hi hend) halong

/-- The heap is sound. From a `kmalloc_init` whose expansion succeeds, in every run of allocations,
releases, resizes and writes into payloads, whatever the page allocator gives, the block list fills the
heap and what is allocated is aligned, large enough and apart, as long as no request is for more than
`2^64 - 16` bytes. -/
theorem heap_sound {pages : List PageOutcome} {h : Heap} (hi : Heap.kmallocInit pages = some h)
    (hend : h.heapEnd = kheapStartAddr + heapMinSize) (steps : List HeapStep)
    (hfits : ∀ st ∈ steps, st.Fits) :
    Always (fun c st => HeapStep.run c st) Client.Sound ⟨h, []⟩ steps :=
  (placed_along hi hend hfits).mono fun _ ⟨_, hp⟩ => hp.sound

/-- The pages of the first expansion. -/
def bootPages : List PageOutcome := List.replicate 64 .page

/-- Two allocations, a release that leaves a hole, one that needs more pages, of which there is one, and
a resize into the hole. -/
def partialExpansion : List HeapStep :=
  [.kmalloc 100 [], .kmalloc 50 [], .kfree (kheapStartAddr + 32), .kmalloc 0x40000 [.page, .noPage],
    .kernRealloc (kheapStartAddr + 176) 60 [], .write (kheapStartAddr + 176) 0 7]

theorem heap_sound_partialExpansion : ∃ h, Heap.kmallocInit bootPages = some h ∧
    Always (fun c st => HeapStep.run c st) Client.Sound ⟨h, []⟩ partialExpansion := by
  have hinit : (Heap.kmallocInit bootPages).map Heap.heapEnd = some (kheapStartAddr + heapMinSize) := by
    decide +kernel
  obtain ⟨h, hi, hend⟩ := Option.map_eq_some_iff.mp hinit
  exact ⟨h, hi, heap_sound hi hend partialExpansion (by decide)⟩

/-- A resize to `2^64 - 1` bytes, which `align_size` rounds to none: the client is given a block of no
bytes. -/
def hugeRealloc : List HeapStep :=
  [.kmalloc 16 [], .kernRealloc (kheapStartAddr + 32) (2 ^ 64 - 1) []]

theorem hugeRealloc_not_sound : ∃ h, Heap.kmallocInit bootPages = some h ∧
    h.heapEnd = kheapStartAddr + heapMinSize ∧
    ¬ Always (fun c st => HeapStep.run c st) Client.Sound ⟨h, []⟩ hugeRealloc := by
  have hinit : (Heap.kmallocInit bootPages).map (fun h => (h.heapEnd,
      (runAll (fun c st => HeapStep.run c st) ⟨h, []⟩ hugeRealloc).live,
      sizeAt (runAll (fun c st => HeapStep.run c st) ⟨h, []⟩ hugeRealloc).heap.mem
        (kheapStartAddr + 48))) =
      some (kheapStartAddr + heapMinSize, [⟨kheapStartAddr + 80, 2 ^ 64 - 1⟩], 0) := by
    decide +kernel
  obtain ⟨h, hi, hres⟩ := Option.map_eq_some_iff.mp hinit
  simp only [Prod.mk.injEq] at hres
  obtain ⟨hend, hlive, hsize⟩ := hres
  refine ⟨h, hi, hend, fun hall => ?_⟩
  obtain ⟨bs, hseg, -, -, hblocks⟩ := hall.last.blocks
  obtain ⟨b, hb, -, hptr, hle⟩ := hblocks ⟨kheapStartAddr + 80, 2 ^ 64 - 1⟩ (by rw [hlive]; simp)
  obtain ⟨r, hholds⟩ := hseg.holds hb
  have haddr : b.addr = kheapStartAddr + 48 := by
    have hhead : headerSize = 32 := rfl
    dsimp only at hptr
    omega
  have hzero : b.size = 0 := by
    rw [← hholds.2.1, haddr]
    exact hsize
  rw [hzero] at hle
  exact absurd hle (by decide)

end Sandflea
