import Sandflea.Heap.Tiling

/-!
# What a release leaves

`kfree` marks a block as free and walks the whole list to join free blocks. After it no free block begins
where another ends, the other blocks in use are where they were, and the blocks with their headers still
make up the heap. `kfree_releases` says so of every state of a run, under the condition of `heap_sound`.
-/

namespace Sandflea

open BlockList Runs

/-- What a list of blocks takes of the heap, with the headers -/
def bytesOf (bs : List HeapBlock) : ℕ := (bs.map fun b => headerSize + b.size).sum

/-- The release of a pointer leaves no free block that begins where another ends, keeps the other blocks
in use where they are and as large as they are, and the heap is still made up of its blocks. -/
structure Client.Releases (c : Client) (ptr : ℕ) : Prop where
  blocks : ∃ bs bs' : List HeapBlock,
    Seg heapLayout c.heap.mem c.heap.heapPtr bs 0 ∧
    Seg heapLayout (c.heap.kfree ptr).mem (c.heap.kfree ptr).heapPtr bs' 0 ∧
    (∀ b ∈ bs', ∀ d ∈ bs', b.addr + headerSize + b.size = d.addr →
      ¬ (b.isFree = true ∧ d.isFree = true)) ∧
    (∀ b ∈ bs, b.isFree = false → b.addr + headerSize ≠ ptr → b ∈ bs') ∧
    kheapStartAddr + bytesOf bs' = (c.heap.kfree ptr).heapEnd
  heapEnd : (c.heap.kfree ptr).heapEnd = c.heap.heapEnd

namespace Client

variable {c : Client} {bs : List HeapBlock}

/-- What is allocated can be released. -/
theorem Placed.releases (h : c.Placed bs) {ptr : ℕ} (hl : c.IsLive ptr) : c.Releases ptr := by
  obtain ⟨b, hb, hused, rfl⟩ := h.block hl
  obtain ⟨bs', hs', hco, hend, hkeep⟩ := kfree_spec h.shaped hb hused
  have hseg := h.shaped.laid.seg
  have hseg' := hs'.laid.seg
  rw [← h.shaped.start] at hseg
  rw [← hs'.start] at hseg'
  refine ⟨⟨bs, bs', hseg, hseg', fun d hd f hf hdf => ?_, fun d hd hf hne => ?_, hs'.laid.tiles.sum⟩,
    hend⟩
  · refine hs'.laid.tiles.adjacent hco hd hf ?_
    calc heapLayout.addr d + heapLayout.extent d
        = d.addr + headerSize + d.size := (Nat.add_assoc _ _ _).symm
      _ = heapLayout.addr f := hdf
  · refine hkeep d hd hf ?_
    rintro rfl
    exact hne rfl

end Client

/-- A release joins all that is free and conserves the memory. From a `kmalloc_init` whose expansion
succeeds, in every state of every run of allocations, releases, resizes and writes into payloads, whatever
the page allocator gives, it is so for every live pointer, as long as no request is for more than
`2^64 - 16` bytes. -/
theorem kfree_releases {pages : List PageOutcome} {h : Heap} (hi : Heap.kmallocInit pages = some h)
    (hend : h.heapEnd = kheapStartAddr + heapMinSize) (steps : List HeapStep)
    (hfits : ∀ st ∈ steps, st.Fits) :
    Always (fun c st => HeapStep.run c st) (fun c => ∀ ptr, c.IsLive ptr → c.Releases ptr) ⟨h, []⟩
      steps :=
  (placed_along hi hend hfits).mono fun _ ⟨_, hp⟩ _ hl => hp.releases hl

theorem kfree_releases_partialExpansion : ∃ h, Heap.kmallocInit bootPages = some h ∧
    Always (fun c st => HeapStep.run c st) (fun c => ∀ ptr, c.IsLive ptr → c.Releases ptr) ⟨h, []⟩
      partialExpansion := by
  have hinit : (Heap.kmallocInit bootPages).map Heap.heapEnd = some (kheapStartAddr + heapMinSize) := by
    decide +kernel
  obtain ⟨h, hi, hend⟩ := Option.map_eq_some_iff.mp hinit
  exact ⟨h, hi, kfree_releases hi hend partialExpansion (by decide)⟩

/-- After the resize to `2^64 - 1` bytes the old contents lie over the header of the free rest of the heap,
and the release of the new block leaves a list that ends there. -/
theorem hugeRealloc_not_releases : ∃ h, Heap.kmallocInit bootPages = some h ∧
    h.heapEnd = kheapStartAddr + heapMinSize ∧
    ¬ Always (fun c st => HeapStep.run c st) (fun c => ∀ ptr, c.IsLive ptr → c.Releases ptr) ⟨h, []⟩
      hugeRealloc := by
  have hinit : (Heap.kmallocInit bootPages).map (fun h =>
      let c := runAll (fun c st => HeapStep.run c st) ⟨h, []⟩ hugeRealloc
      let freed := c.heap.kfree (kheapStartAddr + 80)
      (c.live, [h.heapEnd, freed.heapEnd, freed.heapPtr, sizeAt freed.mem kheapStartAddr,
        nextAt freed.mem kheapStartAddr, sizeAt freed.mem (kheapStartAddr + 80),
        nextAt freed.mem (kheapStartAddr + 80)])) =
      some ([⟨kheapStartAddr + 80, 2 ^ 64 - 1⟩], [kheapStartAddr + heapMinSize,
        kheapStartAddr + heapMinSize, kheapStartAddr, 48, kheapStartAddr + 80, 0, 0]) := by
    decide +kernel
  obtain ⟨h, hi, hres⟩ := Option.map_eq_some_iff.mp hinit
  simp only [Prod.mk.injEq, List.cons.injEq, and_true] at hres
  obtain ⟨hlive, hend, hfreed, hptr, hsize, hnext, hsize', hnext'⟩ := hres
  refine ⟨h, hi, hend, fun hall => ?_⟩
  obtain ⟨bs, bs', -, hseg, -, -, hsum⟩ := (hall.last (kheapStartAddr + 80)
    ⟨_, by rw [hlive]; exact List.mem_cons_self, rfl⟩).blocks
  rw [hptr] at hseg
  rw [hfreed] at hsum
  -- the list is the block at the start and the one behind it
  match bs', hseg with
  | [], hseg =>
    have hzero : kheapStartAddr = 0 := hseg
    exact absurd hzero (by decide)
  | [b], hseg =>
    obtain ⟨hb, r, hholds, hr⟩ := hseg
    have haddr : b.addr = kheapStartAddr := hb
    have hlast := hholds.2.2.2
    rw [haddr, hnext] at hlast
    exact absurd (hlast.trans hr) (by decide)
  | b :: d :: bs', hseg =>
    obtain ⟨hb, r, hholds, hd, q, hholds', hrest⟩ := hseg
    have haddr : b.addr = kheapStartAddr := hb
    have haddr' : d.addr = kheapStartAddr + 80 := by
      have hlast := hholds.2.2.2
      rw [haddr, hnext] at hlast
      exact Eq.trans hd hlast.symm
    have hbsize := hholds.2.1
    have hdsize := hholds'.2.1
    have hq := hholds'.2.2.2
    rw [haddr, hsize] at hbsize
    rw [haddr', hsize'] at hdsize
    rw [haddr', hnext'] at hq
    subst hq
    cases bs' with
    | nil =>
      unfold bytesOf at hsum
      simp only [List.map_cons, List.map_nil, List.sum_cons, List.sum_nil, ← hbsize, ← hdsize] at hsum
      exact absurd hsum (by decide)
    | cons f bs' =>
      obtain ⟨hf, _, hholds'', -⟩ := hrest
      exact hholds''.1 hf

end Sandflea
