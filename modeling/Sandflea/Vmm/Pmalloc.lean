import Sandflea.Vmm.PageUses
import Sandflea.Vmm.DeviceMaps

/-!
# `pmalloc` when memory runs out

`pmalloc` takes its pages one by one and looks neither at what `pmm_alloc_page` returns nor at what
`vmm_map_page_in_pml4` could do, and nothing of what it has done is undone. So it is all or nothing exactly when
memory does not run out in the middle of it (`pmalloc_all_or_nothing_iff`): the heap has memory for the record of
the region, there is a free page for each page of the region and for each table that is missing on the way to
them, and the pages end in the user half.

`Filled` is what the loop does for a list of pages. It is put together from what it does for one.
-/

namespace Sandflea

open PointerTree

/-- Where the addresses of the user half end -/
def userEnd : ℕ := 2 ^ 47

/-- A page in the list of free pages -/
def PhysMem.IsFree (m : PhysMem) (q : ℕ) : Prop :=
  ∃ free, FreeChain m.words m.freeListHead free ∧ 0 ∉ free ∧ q ∈ free

/-- The paths of indices from a PML4 to the three tables for a page -/
def tablePaths (virt : ℕ) : Finset (List ℕ) :=
  {[pml4Index virt], [pml4Index virt, pdptIndex virt], [pml4Index virt, pdptIndex virt, pdIndex virt]}

/-- How many tables below a PML4 are missing for some pages from an address on -/
def PhysMem.missingUserTables (m : PhysMem) (pml4 virt n : ℕ) : ℕ :=
  (((Finset.range n).biUnion fun i => tablePaths (virt + i * pageSize)).filter
    fun is => m.follow pml4 is = none).card

namespace ProcessMemory

/-- The kernel heap takes pages, as long as there are any. -/
def heapGrows : ℕ → ProcessMemory → ProcessMemory
  | 0, s => s
  | n + 1, s => if s.mem.freeListHead = 0 then s else heapGrows n s.heapPage

/-- `pmalloc`, with what the `kmalloc` of its `kern_mem_region_t` does. Where there is no memory, the record is
written to address 0, which is not mapped, and the kernel stops. -/
def pmallocOf (heap : Ipc.KmallocOutcome) (size : ℕ) (s : ProcessMemory) : Option (ℕ × ProcessMemory) :=
  if size = 0 then some (0, s)
  else if heap.ok then some ((s.heapGrows heap.pages).pmalloc size)
  else none

/-- A page of the user half is mapped to a frame that belongs to nobody else: it is not free, it is no PML4, no
table and no page of the heap, and nothing else is mapped to it. -/
structure OwnFrame (roots : List ℕ) (s : ProcessMemory) (virt frame : ℕ) : Prop where
  user : virt + pageSize ≤ userEnd
  mapped : s.mem.getPhysInPml4 s.cr3 virt = frame
  notNull : frame ≠ 0
  notFree : ¬ s.mem.IsFree frame
  notPml4 : frame ∉ roots
  notTable : ∀ p ∈ roots, ∀ level, ¬ IsTable s.mem p level frame
  notHeap : frame ∉ s.heapPages
  alone : ∀ p ∈ roots, ∀ w, pml4Index w < 256 → s.mem.getPhysInPml4 p w = frame →
    p = s.cr3 ∧ pageOf w = pageOf virt

/-- The regions of a process, its mappings and those of all others, its heap pointer and the free pages are as
before. -/
structure Untouched (roots : List ℕ) (s s' : ProcessMemory) : Prop where
  memRegions : s'.memRegions = s.memRegions
  heapVptr : s'.heapVptr = s.heapVptr
  free : ∀ free, 0 ∉ free →
    (FreeChain s'.mem.words s'.mem.freeListHead free ↔ FreeChain s.mem.words s.mem.freeListHead free)
  mapped : ∀ p ∈ roots, ∀ w, pml4Index w < 256 → s'.mem.getPhysInPml4 p w = s.mem.getPhysInPml4 p w

/-- `pmalloc` returns. If it does not return null, the pages of the range are mapped to different frames that were
free, and belong to nobody else. If there was no memory, it returns null, and everything is as before. -/
def AllOrNothing (roots : List ℕ) (heap : Ipc.KmallocOutcome) (size : ℕ) (s : ProcessMemory) : Prop :=
  ∃ r, s.pmallocOf heap size = some r ∧
    (r.1 ≠ 0 → ∃ frame : ℕ → ℕ, Set.InjOn frame (Set.Iio (wholePages size)) ∧
      ∀ i < wholePages size, s.mem.IsFree (frame i) ∧ OwnFrame roots r.2 (r.1 + i * pageSize) (frame i)) ∧
    (r.2.failed = true ∨ r.2.mem.starved = true → r.1 = 0 ∧ Untouched roots s r.2)

/-- Memory suffices: there is some for the record of the region, the pages end in the user half, and there are
enough free pages for them and for the tables that are missing. -/
structure HasMemory (heap : Ipc.KmallocOutcome) (size : ℕ) (s : ProcessMemory) : Prop where
  record : heap.ok = true
  user : s.heapVptr + wholePages size * pageSize ≤ userEnd
  pages : wholePages size + s.mem.missingUserTables s.cr3 s.heapVptr (wholePages size) ≤
    s.mem.pmmFreePageCount - heap.pages

instance decidableHasMemory (heap : Ipc.KmallocOutcome) (size : ℕ) (s : ProcessMemory) :
    Decidable (HasMemory heap size s) :=
  decidable_of_iff
    (heap.ok = true ∧ s.heapVptr + wholePages size * pageSize ≤ userEnd ∧
      wholePages size + s.mem.missingUserTables s.cr3 s.heapVptr (wholePages size) ≤
        s.mem.pmmFreePageCount - heap.pages)
    ⟨fun h => ⟨h.1, h.2.1, h.2.2⟩, fun h => ⟨h.record, h.user, h.pages⟩⟩

/-- A process in memory whose free pages belong to nobody, and in which no page was missing so far. -/
structure Orderly (roots : List ℕ) (own : ℕ → PageUse) (free : List ℕ) (s : ProcessMemory) : Prop where
  uses : Uses roots own s.mem free
  root : s.cr3 ∈ roots
  heapPages : ∀ q ∈ s.heapPages, own q = .heap
  mapped : ∀ p ∈ roots, ∀ w, pml4Index w < 256 → own (s.mem.getPhysInPml4 p w) ≠ .free
  failed : s.failed = false
  starved : s.mem.starved = false

/-- The pages at some addresses are mapped to pages that were free, and the missing tables are made. -/
structure Filled (roots : List ℕ) (own own' : ℕ → PageUse) (s s' : ProcessMemory) (free free' : List ℕ)
    (vs fs : List ℕ) : Prop where
  uses : Uses roots own' s'.mem free'
  nodup : fs.Nodup
  taken : ∀ f ∈ fs, own f = .free ∧ own' f = .page
  kept : ∀ q, own q ≠ .free → own' q = own q
  freed : ∀ q, own' q = .free → own q = .free
  count : free.length = free'.length +
    (fs.length + (missingAt roots s.mem (vs.toFinset.biUnion (tableAddrs s.cr3))).card)
  null : ∀ a, vmmShape.Valid a → (tableAt roots s'.mem a = 0 ↔
    tableAt roots s.mem a = 0 ∧ a ∉ vs.toFinset.biUnion (tableAddrs s.cr3))
  mapped : List.Forall₂ (fun v f => s'.mem.getPhysInPml4 s.cr3 v = f) vs fs
  others : ∀ p ∈ roots, ∀ w, pml4Index w < 256 → (p = s.cr3 → ∀ v ∈ vs, pageOf w ≠ pageOf v) →
    s'.mem.getPhysInPml4 p w = s.mem.getPhysInPml4 p w
  failed : s'.failed = s.failed
  starved : s'.mem.starved = s.mem.starved
  rest : s' = { s with mem := s'.mem, failed := s'.failed }

/-! ## Missing tables -/

section

variable {roots free free' : List ℕ} {own own' own'' : ℕ → PageUse} {m m' : PhysMem} {s s' s'' : ProcessMemory}

/-- Where there are the same tables, the same are missing. -/
theorem missingAt_congr {as : Finset Addr} (has : ∀ a ∈ as, vmmShape.Valid a)
    (hsame : ∀ a, vmmShape.Valid a → tableAt roots m' a = tableAt roots m a) :
    missingAt roots m' as = missingAt roots m as :=
  Finset.filter_congr fun a ha => by rw [hsame a (has a ha)]

/-- The addresses of the tables for a page are valid. -/
theorem valid_tableAddrs {pml4 virt : ℕ} (hpage : IsPage pml4) (huser : pml4Index virt < 256) :
    ∀ a ∈ tableAddrs pml4 virt, vmmShape.Valid a := by
  have hleaf : vmmShape.Valid (slotOf pml4 (pml4Index virt), [pdptIndex virt] ++ [pdIndex virt]) :=
    (leaf_ptAddr hpage huser).1
  have hpd : vmmShape.Valid (slotOf pml4 (pml4Index virt), [] ++ [pdptIndex virt]) := hleaf.init
  intro a ha
  simp only [tableAddrs, Finset.mem_union, Finset.mem_singleton] at ha
  rcases ha with (rfl | rfl) | rfl
  · exact hpd.init
  · exact hpd
  · exact hleaf

theorem valid_biUnion {pml4 : ℕ} (hpage : IsPage pml4) {vs : List ℕ} (hvs : ∀ v ∈ vs, pml4Index v < 256) :
    ∀ a ∈ vs.toFinset.biUnion (tableAddrs pml4), vmmShape.Valid a := by
  intro a ha
  obtain ⟨v, hv, hav⟩ := Finset.mem_biUnion.mp ha
  exact valid_tableAddrs hpage (hvs v (List.mem_toFinset.mp hv)) a hav

/-- A path of indices from a PML4 as an address -/
def pathAddr (pml4 : ℕ) : List ℕ → Addr
  | [] => (0, [])
  | i :: is => (slotOf pml4 i, is)

theorem tableAddrs_eq (pml4 virt : ℕ) : tableAddrs pml4 virt = (tablePaths virt).image (pathAddr pml4) := by
  unfold tablePaths
  rw [Finset.image_insert, Finset.image_insert, Finset.image_singleton, Finset.insert_eq, Finset.insert_eq,
    ← Finset.union_assoc]
  rfl

/-- A path from a PML4 leads to the table at the address. -/
theorem follow_user (ht : Tables roots free m) {pml4 i : ℕ} (hroot : pml4 ∈ roots) (hi : i < 256)
    {is : List ℕ} (hv : vmmShape.Valid (slotOf pml4 i, is)) :
    m.follow pml4 (i :: is) = if tableAt roots m (slotOf pml4 i, is) = 0 then none
      else some (ptrTable (tableAt roots m (slotOf pml4 i, is))) := by
  induction is using List.reverseRecOn with
  | nil =>
    rw [tableAt_root (ht.rootPages pml4 hroot).1 hroot hi, ← nextTable_eq]
    exact Option.bind_fun_some _
  | append_singleton is j ih =>
    rw [← List.cons_append, PhysMem.follow_concat, ih hv.init, tableAt_concat]
    by_cases h : tableAt roots m (slotOf pml4 i, is) = 0
    · rw [if_pos h, if_pos h, if_pos rfl]
      rfl
    · rw [if_neg h, if_neg h]
      exact nextTable_eq m _ j

/-- The tables that are missing, by what paths lead to -/
theorem missing_card (ht : Tables roots free m) {pml4 virt n : ℕ} (hroot : pml4 ∈ roots)
    (huser : ∀ i < n, pml4Index (virt + i * pageSize) < 256) :
    m.missingUserTables pml4 virt n = (missingAt roots m
      (((List.range n).map fun i => virt + i * pageSize).toFinset.biUnion (tableAddrs pml4))).card := by
  have hpage := ht.rootPages pml4 hroot
  have haddrs : ((List.range n).map fun i => virt + i * pageSize).toFinset.biUnion (tableAddrs pml4) =
      ((Finset.range n).biUnion fun i => tablePaths (virt + i * pageSize)).image (pathAddr pml4) := by
    ext a
    simp only [Finset.mem_biUnion, Finset.mem_image, List.mem_toFinset, List.mem_map, List.mem_range,
      Finset.mem_range, tableAddrs_eq]
    constructor
    · rintro ⟨v, ⟨i, hi, rfl⟩, is, his, rfl⟩
      exact ⟨is, ⟨i, hi, his⟩, rfl⟩
    · rintro ⟨is, ⟨i, hi, his⟩, rfl⟩
      exact ⟨_, ⟨i, hi, rfl⟩, is, his, rfl⟩
  -- Every path starts with the index of an entry of the user half.
  have hcons : ∀ is ∈ (Finset.range n).biUnion fun i => tablePaths (virt + i * pageSize),
      ∃ j js, is = j :: js ∧ j < 256 ∧ vmmShape.Valid (slotOf pml4 j, js) := by
    intro is his
    obtain ⟨i, hi, hmem⟩ := Finset.mem_biUnion.mp his
    have hlt := huser i (Finset.mem_range.mp hi)
    have hvalid : vmmShape.Valid (pathAddr pml4 is) := by
      refine valid_tableAddrs hpage hlt _ ?_
      rw [tableAddrs_eq]
      exact Finset.mem_image_of_mem _ hmem
    simp only [tablePaths, Finset.mem_insert, Finset.mem_singleton] at hmem
    rcases hmem with rfl | rfl | rfl
    · exact ⟨_, _, rfl, hlt, hvalid⟩
    · exact ⟨_, _, rfl, hlt, hvalid⟩
    · exact ⟨_, _, rfl, hlt, hvalid⟩
  rw [haddrs, missingAt, Finset.filter_image, Finset.card_image_of_injOn, PhysMem.missingUserTables]
  · refine congrArg Finset.card (Finset.filter_congr fun is his => ?_)
    obtain ⟨j, js, rfl, hj, hv⟩ := hcons is his
    rw [follow_user ht hroot hj hv]
    by_cases hzero : tableAt roots m (slotOf pml4 j, js) = 0
    · rw [if_pos hzero]
      exact ⟨fun _ => hzero, fun _ => rfl⟩
    · rw [if_neg hzero]
      exact ⟨fun hsome => absurd hsome (Option.some_ne_none _), fun heq => absurd heq hzero⟩
  · intro is his js hjs heq
    obtain ⟨i, is', rfl, hi, -⟩ := hcons is (Finset.mem_filter.mp his).1
    obtain ⟨j, js', rfl, hj, -⟩ := hcons js (Finset.mem_filter.mp hjs).1
    obtain ⟨hslot, hrest⟩ := Prod.mk.inj heq
    rw [(slotOf_inj hpage.1 hpage.1 hi hj hslot).2, hrest]

/-! ## One page -/

/-- A note that there was no page stays. -/
theorem flags_mapNewPage {v : ℕ} (h : (s.mapNewPage v).failed = false ∧ (s.mapNewPage v).mem.starved = false) :
    s.failed = false ∧ s.mem.starved = false := by
  refine ⟨(Bool.or_eq_false_iff.mp h.1).1, ?_⟩
  rw [← starved_pmmAllocPage]
  exact starved_mapPageInPml4 h.2

theorem flags_mapNewPages {vs : List ℕ}
    (h : (vs.foldl mapNewPage s).failed = false ∧ (vs.foldl mapNewPage s).mem.starved = false) :
    s.failed = false ∧ s.mem.starved = false := by
  induction vs generalizing s with
  | nil => exact h
  | cons v vs ih => exact flags_mapNewPage (ih h)

/-- An entry for a page of a process -/
theorem entryPhys_userPage {phys : ℕ} (h : IsPage phys) :
    entryPhys (phys ||| (pagePresent ||| pageRw ||| pageUser) ||| pagePresent) = phys := by
  rw [entryPhys, if_pos (present_or_right _ present_pagePresent), entryAddr_map h.1 h.2 (by decide)]

/-- A turn of the loop, with a page for the address and one for each table, or if none was missing. -/
theorem filled_mapNewPage (h : Uses roots own s.mem free) (hroot : s.cr3 ∈ roots) {v : ℕ}
    (huser : pml4Index v < 256)
    (hroom : 1 + (missingAt roots s.mem (tableAddrs s.cr3 v)).card ≤ free.length ∨
      (s.mapNewPage v).failed = false ∧ (s.mapNewPage v).mem.starved = false) :
    ∃ own' free' f, Filled roots own own' s (s.mapNewPage v) free free' [v] [f] := by
  have hroots := h.tables.rootPages
  have hhead : s.mem.freeListHead ≠ 0 := by
    intro hzero
    rcases hroom with hlen | ⟨hfailed, -⟩
    · obtain ⟨p, rest, rfl⟩ := List.exists_cons_of_length_pos (l := free) (by omega)
      exact (h.tables.freePages p List.mem_cons_self).1 (h.tables.chain.1.symm.trans hzero)
    · have hnone : s.mem.pmmAllocPage.1 = 0 := by rw [PhysMem.pmmAllocPage, if_pos hzero]
      have hsome : decide (s.mem.pmmAllocPage.1 = 0) = false := (Bool.or_eq_false_iff.mp hfailed).2
      exact of_decide_eq_false hsome hnone
  obtain ⟨free₁, hfree, -⟩ := h.tables.free_cons hhead
  generalize s.mem.freeListHead = f at hfree
  subst hfree
  have hf := h.tables.freePages f List.mem_cons_self
  have hown : own f = .free := (h.free_iff f).mp List.mem_cons_self
  have hplain : PageUse.page.Plain := ⟨by decide, by decide, by decide⟩
  obtain ⟨hfst, h₁, hs₁, -⟩ := h.alloc hplain
  obtain ⟨-, -, hsame, -⟩ := h.tables.alloc
  have heq : s.mapNewPage v = { s with
      mem := s.mem.pmmAllocPage.2.mapPageInPml4 s.cr3 f v (pagePresent ||| pageRw ||| pageUser)
      failed := s.failed } := by
    unfold mapNewPage
    dsimp only
    rw [hfst, decide_eq_false hf.1, Bool.or_false]
  rw [heq] at hroom ⊢
  generalize s.mem.pmmAllocPage.2 = m₁ at h₁ hs₁ hsame hroom ⊢
  have hvalid := valid_tableAddrs (hroots _ hroot) huser
  have hmissing := missingAt_congr hvalid hsame
  have hroom₁ : (missingAt roots m₁ (tableAddrs s.cr3 v)).card ≤ free₁.length ∨
      (m₁.mapPageInPml4 s.cr3 f v (pagePresent ||| pageRw ||| pageUser)).starved = false := by
    rw [hmissing]
    refine hroom.imp (fun hlen => ?_) And.right
    rw [List.length_cons] at hlen
    omega
  obtain ⟨own', free', hg, hset, -, hstarved⟩ := h₁.mapPage hroot huser hroom₁
  have hne : ∀ q, q ≠ f → Function.update own f PageUse.page q = own q := fun q hq =>
    Function.update_of_ne hq _ _
  have hvs : [v].toFinset.biUnion (tableAddrs s.cr3) = tableAddrs s.cr3 v := Finset.singleton_biUnion
  refine ⟨own', free', f, ⟨hg.uses, List.nodup_singleton f, fun q hq => ?_, fun q hq => ?_, fun q hq => ?_, ?_,
    fun a ha => ?_, .cons ?_ .nil, fun p hp w hw hother => ?_, rfl, hstarved.trans hs₁.starved, rfl⟩⟩
  · obtain rfl := List.mem_singleton.mp hq
    have hpage : Function.update own q PageUse.page q = .page := Function.update_self _ _ _
    refine ⟨hown, (hg.retabled.of_ne ?_).trans hpage⟩
    rw [hpage]
    decide
  · have hqf : q ≠ f := fun heq => hq (heq ▸ hown)
    rw [← hne q hqf]
    exact hg.retabled.of_ne (by rw [hne q hqf]; exact hq)
  · have hback : own' q = Function.update own f PageUse.page q :=
      hg.retabled.eq_of_ne_table (by rw [hq]; decide)
    by_cases hqf : q = f
    · rw [hqf]
      exact hown
    · rw [← hne q hqf, ← hback, hq]
  · rw [hvs, ← hmissing, List.length_cons, hg.count, List.length_singleton]
    omega
  · rw [hvs, hg.null a ha, hsame a ha]
  · exact (hset.getPhys hroots hroot huser hroot huser).trans
      ((if_pos ⟨rfl, rfl⟩).trans (entryPhys_userPage hf.2))
  · refine ((hset.getPhys hroots hroot huser hp hw).trans (if_neg fun hand => ?_)).trans
      (hs₁.getPhys hroots hp hw)
    exact hother hand.1 v List.mem_cons_self hand.2

/-! ## The loop -/

theorem Filled.cr3 {vs fs : List ℕ} (h : Filled roots own own' s s' free free' vs fs) : s'.cr3 = s.cr3 := by
  rw [h.rest]

theorem Filled.nil (h : Uses roots own s.mem free) : Filled roots own own s s free free [] [] where
  uses := h
  nodup := List.nodup_nil
  taken _ hf := absurd hf List.not_mem_nil
  kept _ _ := rfl
  freed _ hq := hq
  count := rfl
  null _ _ := ⟨fun hzero => ⟨hzero, Finset.notMem_empty _⟩, And.left⟩
  mapped := .nil
  others _ _ _ _ _ := rfl
  failed := rfl
  starved := rfl
  rest := rfl

/-- Pages are mapped after others, at other pages of the process. -/
theorem Filled.append {free'' vs fs ws gs : List ℕ} (h : Filled roots own own' s s' free free' vs fs)
    (h' : Filled roots own' own'' s' s'' free' free'' ws gs) (hroot : s.cr3 ∈ roots)
    (hvs : ∀ v ∈ vs, pml4Index v < 256) (hws : ∀ w ∈ ws, pml4Index w < 256)
    (hapart : ∀ v ∈ vs, ∀ w ∈ ws, pageOf v ≠ pageOf w) :
    Filled roots own own'' s s'' free free'' (vs ++ ws) (fs ++ gs) := by
  have hcr3 := h.cr3
  have hpage := h.uses.tables.rootPages _ hroot
  have hvalid := valid_biUnion hpage hws
  have hunion : (vs ++ ws).toFinset.biUnion (tableAddrs s.cr3) =
      vs.toFinset.biUnion (tableAddrs s.cr3) ∪ ws.toFinset.biUnion (tableAddrs s.cr3) := by
    rw [List.toFinset_append, Finset.union_biUnion]
  have hnull := h'.null
  have hcount := h'.count
  rw [hcr3] at hnull hcount
  have hlater : ∀ f ∈ fs, own'' f = own' f := fun f hf =>
    h'.kept f (by rw [(h.taken f hf).2]; nofun)
  refine ⟨h'.uses, ?_, fun f hf => ?_, fun q hq => ?_, fun q hq => h.freed q (h'.freed q hq), ?_, fun a ha => ?_, ?_,
    fun p hp w hw hother => ?_, h'.failed.trans h.failed, h'.starved.trans h.starved, ?_⟩
  · refine List.nodup_append'.mpr ⟨h.nodup, h'.nodup, fun f hf hg => ?_⟩
    have hfree := (h'.taken f hg).1
    rw [(h.taken f hf).2] at hfree
    cases hfree
  · rcases List.mem_append.mp hf with hf | hf
    · exact ⟨(h.taken f hf).1, (hlater f hf).trans (h.taken f hf).2⟩
    · exact ⟨h.freed f (h'.taken f hf).1, (h'.taken f hf).2⟩
  · have hkept := h.kept q hq
    exact (h'.kept q (by rw [hkept]; exact hq)).trans hkept
  · rw [hunion, h.count, hcount, List.length_append]
    have hcard : (missingAt roots s.mem (vs.toFinset.biUnion (tableAddrs s.cr3) ∪
        ws.toFinset.biUnion (tableAddrs s.cr3))).card = _ :=
      card_empty_union fun b hb => h.null b (hvalid b hb)
    unfold missingAt at hcard ⊢
    omega
  · rw [hunion, hnull a ha, h.null a ha, Finset.mem_union, not_or, and_assoc]
  · have hmapped := h'.mapped
    rw [hcr3] at hmapped
    refine List.rel_append ?_ hmapped
    refine List.forall₂_iff_zip.mpr ⟨h.mapped.length_eq, fun {v f} hvf => ?_⟩
    have hv := (List.of_mem_zip hvf).1
    rw [h'.others s.cr3 hroot v (hvs v hv) fun _ w hw => hapart v hv w hw]
    exact (List.forall₂_iff_zip.mp h.mapped).2 hvf
  · rw [h'.others p hp w hw fun hpc v hv => hother (hpc.trans hcr3) v (List.mem_append_right _ hv)]
    exact h.others p hp w hw fun hpc v hv => hother hpc v (List.mem_append_left _ hv)
  · rw [h'.rest, h.rest]

/-- The loop of `pmalloc`, with a free page for each page and each table that is missing, or if none was missing -/
theorem filled_mapNewPages {vs : List ℕ} (h : Uses roots own s.mem free) (hroot : s.cr3 ∈ roots)
    (huser : ∀ v ∈ vs, pml4Index v < 256) (hapart : vs.Pairwise fun v w => pageOf v ≠ pageOf w)
    (hroom : vs.length + (missingAt roots s.mem (vs.toFinset.biUnion (tableAddrs s.cr3))).card ≤ free.length ∨
      (vs.foldl mapNewPage s).failed = false ∧ (vs.foldl mapNewPage s).mem.starved = false) :
    ∃ own' free' fs, Filled roots own own' s (vs.foldl mapNewPage s) free free' vs fs := by
  induction vs generalizing s own free with
  | nil => exact ⟨own, free, [], .nil h⟩
  | cons v vs ih =>
    obtain ⟨hhead, htail⟩ := List.pairwise_cons.mp hapart
    have hv := huser v List.mem_cons_self
    have hvs : ∀ w ∈ vs, pml4Index w < 256 := fun w hw => huser w (List.mem_cons_of_mem _ hw)
    have hunion : (v :: vs).toFinset.biUnion (tableAddrs s.cr3) =
        [v].toFinset.biUnion (tableAddrs s.cr3) ∪ vs.toFinset.biUnion (tableAddrs s.cr3) := by
      rw [← List.singleton_append, List.toFinset_append, Finset.union_biUnion]
    have hvone : [v].toFinset.biUnion (tableAddrs s.cr3) = tableAddrs s.cr3 v := Finset.singleton_biUnion
    rw [hunion, List.length_cons] at hroom
    obtain ⟨own₁, free₁, f, h₁⟩ := filled_mapNewPage h hroot hv (by
      refine hroom.imp (fun hlen => ?_) fun hflags => flags_mapNewPages hflags
      have hsub : [v].toFinset.biUnion (tableAddrs s.cr3) ⊆
          [v].toFinset.biUnion (tableAddrs s.cr3) ∪ vs.toFinset.biUnion (tableAddrs s.cr3) :=
        Finset.subset_union_left
      have hle := Finset.card_le_card (Finset.filter_subset_filter (fun a => tableAt roots s.mem a = 0) hsub)
      rw [hvone] at hle hlen
      unfold missingAt at hlen ⊢
      omega)
    have hcr3 := h₁.cr3
    have hvalid := valid_biUnion (h.tables.rootPages _ hroot) hvs
    -- What is missing for the rest is what the first page has not filled.
    have hcard : (missingAt roots s.mem ([v].toFinset.biUnion (tableAddrs s.cr3) ∪
        vs.toFinset.biUnion (tableAddrs s.cr3))).card = _ :=
      card_empty_union fun b hb => h₁.null b (hvalid b hb)
    have hcount := h₁.count
    obtain ⟨own', free', fs, h'⟩ := ih h₁.uses (hcr3.symm ▸ hroot) hvs htail (by
      refine hroom.imp_left fun hlen => ?_
      rw [hcr3]
      rw [List.length_singleton] at hcount
      unfold missingAt at hcard hcount hlen ⊢
      omega)
    refine ⟨own', free', f :: fs, h₁.append h' hroot (fun w hw => ?_) hvs fun w hw u hu => ?_⟩
    · exact (List.mem_singleton.mp hw).symm ▸ hv
    · rw [List.mem_singleton.mp hw]
      exact hhead u hu

/-! ## The heap -/

/-- The pages that the heap takes are the first free ones, and no table changes. -/
theorem Orderly.heapGrows (h : Orderly roots own free s) (n : ℕ) :
    ∃ own', Orderly roots own' (free.drop n) (s.heapGrows n) ∧ (∀ q, own' q = .free → own q = .free) ∧
      (∀ a, vmmShape.Valid a → tableAt roots (s.heapGrows n).mem a = tableAt roots s.mem a) ∧
      s.heapGrows n = { s with mem := (s.heapGrows n).mem, heapPages := (s.heapGrows n).heapPages } := by
  induction n generalizing s own free with
  | zero => exact ⟨own, h, fun _ hq => hq, fun _ _ => rfl, rfl⟩
  | succ n ih =>
    unfold ProcessMemory.heapGrows
    by_cases hhead : s.mem.freeListHead = 0
    · rw [if_pos hhead]
      have hnil : free = [] := by
        cases free with
        | nil => rfl
        | cons p ps =>
          exact absurd (h.uses.tables.chain.1.symm.trans hhead)
            (h.uses.tables.freePages p List.mem_cons_self).1
      subst hnil
      exact ⟨own, h, fun _ hq => hq, fun _ _ => rfl, rfl⟩
    · rw [if_neg hhead]
      obtain ⟨free₁, hfree, -⟩ := h.uses.tables.free_cons hhead
      generalize s.mem.freeListHead = p at hfree
      subst hfree
      have hp := h.uses.tables.freePages p List.mem_cons_self
      have hown : own p = .free := (h.uses.free_iff p).mp List.mem_cons_self
      have hplain : PageUse.heap.Plain := ⟨nofun, nofun, nofun⟩
      obtain ⟨hfst, h₁, hs₁, -⟩ := h.uses.alloc hplain
      obtain ⟨-, -, hsame, -⟩ := h.uses.tables.alloc
      have heq : s.heapPage =
          { s with mem := s.mem.pmmAllocPage.2, heapPages := p :: s.heapPages } := by
        unfold heapPage
        dsimp only
        rw [hfst, if_neg hp.1]
      have hother : ∀ q, q ≠ p → Function.update own p PageUse.heap q = own q := fun q hq =>
        Function.update_of_ne hq _ _
      have hself : Function.update own p PageUse.heap p = .heap := Function.update_self _ _ _
      have hback : ∀ q, Function.update own p PageUse.heap q = .free → own q = .free := by
        intro q hq
        by_cases hqp : q = p
        · rw [hqp]
          exact hown
        · rwa [hother q hqp] at hq
      have h₁' : Orderly roots (Function.update own p .heap) free₁ s.heapPage := by
        rw [heq]
        refine ⟨h₁, h.root, fun q hq => ?_, fun q hq w hw hfree => ?_, h.failed, hs₁.starved.trans h.starved⟩
        · by_cases hqp : q = p
          · rw [hqp, hself]
          · rw [hother q hqp]
            exact h.heapPages q ((List.mem_cons.mp hq).resolve_left hqp)
        · have hsteady := hs₁.getPhys h.uses.tables.rootPages hq hw
          exact h.mapped q hq w hw (hsteady ▸ hback _ hfree)
      obtain ⟨own', h', hfreed, htables, hrest⟩ := ih h₁'
      refine ⟨own', h', fun q hq => hback q (hfreed q hq), fun a ha => ?_, ?_⟩
      · rw [htables a ha, heq]
        exact hsame a ha
      · rw [hrest, heq]

/-! ## The pages of the range -/

/-- The list of free pages is one. -/
theorem freeChain_unique {words : ℕ → ℕ → ℕ} {head : ℕ} {ps qs : List ℕ} (hp : FreeChain words head ps)
    (hq : FreeChain words head qs) (hps : 0 ∉ ps) (hqs : 0 ∉ qs) : ps = qs := by
  induction ps generalizing head qs with
  | nil =>
    cases qs with
    | nil => rfl
    | cons q qs => exact absurd (List.mem_cons.mpr (.inl (hp.symm.trans hq.1))) hqs
  | cons p ps ih =>
    cases qs with
    | nil => exact absurd (List.mem_cons.mpr (.inl (hq.symm.trans hp.1))) hps
    | cons q qs =>
      obtain ⟨rfl, hp⟩ := hp
      obtain ⟨rfl, hq⟩ := hq
      rw [ih hp hq (fun h => hps (List.mem_cons_of_mem _ h)) fun h => hqs (List.mem_cons_of_mem _ h)]

/-- The free pages are those whose use says so. -/
theorem isFree_iff (h : Uses roots own m free) (q : ℕ) : m.IsFree q ↔ own q = .free := by
  have hzero : 0 ∉ free := fun hmem => (h.tables.freePages 0 hmem).1 rfl
  rw [← h.free_iff q]
  constructor
  · rintro ⟨ps, hchain, hps, hq⟩
    rw [freeChain_unique h.tables.chain hchain hzero hps]
    exact hq
  · exact fun hq => ⟨free, h.tables.chain, hzero, hq⟩

/-- Addresses of one page translate to one frame. -/
theorem getPhys_pageOf (hroots : ∀ p ∈ roots, IsPage p) {p v w : ℕ} (hp : p ∈ roots)
    (hv : pml4Index v < 256) (hw : pml4Index w < 256) (heq : pageOf v = pageOf w) :
    m.getPhysInPml4 p v = m.getPhysInPml4 p w := by
  obtain ⟨haddr, hpt⟩ := (ptAddr_eq_iff (hroots p hp) (hroots p hp) hv hw).mpr ⟨rfl, heq⟩
  rw [getPhysInPml4_eq hroots hp hv, getPhysInPml4_eq hroots hp hw, haddr, hpt]

/-- The pages of a range of the user half are different. -/
theorem pageOf_range {virt n : ℕ} (hend : virt + n * pageSize ≤ userEnd) :
    (∀ i < n, pml4Index (virt + i * pageSize) < 256) ∧
      ∀ i < n, ∀ j < n, pageOf (virt + i * pageSize) = pageOf (virt + j * pageSize) → i = j := by
  unfold userEnd pageSize at hend
  unfold pml4Index pageOf pageSize
  refine ⟨fun i hi => ?_, fun i hi j hj heq => ?_⟩
  · omega
  · omega

/-- `pmalloc` returns the heap pointer and maps the pages behind it. -/
theorem pmalloc_range {size : ℕ} (hsize : size ≠ 0)
    (hend : s.heapVptr + wholePages size * pageSize ≤ userEnd) :
    s.pmalloc size = (s.heapVptr,
      { ((List.range (wholePages size)).map fun i => s.heapVptr + i * pageSize).foldl mapNewPage s with
        memRegions := ⟨s.heapVptr, wholePages size⟩ ::
          (((List.range (wholePages size)).map fun i => s.heapVptr + i * pageSize).foldl mapNewPage s).memRegions
        heapVptr := u64
          ((((List.range (wholePages size)).map fun i => s.heapVptr + i * pageSize).foldl mapNewPage s).heapVptr +
            wholePages size * pageSize) }) := by
  have hpages : pagesFor size = wholePages size := by
    have hle : size ≤ wholePages size * pageSize := by
      unfold wholePages pageSize
      omega
    unfold pagesFor wholePages
    rw [u64_of_lt (by unfold userEnd pageSize at *; omega)]
  have haddrs : (⟨s.heapVptr, wholePages size⟩ : MemRegion).addrs =
      (List.range (wholePages size)).map fun i => s.heapVptr + i * pageSize := by
    refine List.map_congr_left fun i hi => u64_of_lt ?_
    have hlt : i < wholePages size := List.mem_range.mp hi
    show s.heapVptr + i * pageSize < 2 ^ 64
    unfold userEnd pageSize at hend
    unfold pageSize
    omega
  unfold pmalloc
  rw [if_neg hsize, hpages]
  dsimp only
  rw [haddrs]

/-- What `pmalloc` does for a range of the user half, with enough free pages, or if none was missing -/
theorem Orderly.pmalloc_filled (h : Orderly roots own free s) {size : ℕ} (hsize : size ≠ 0)
    (hend : s.heapVptr + wholePages size * pageSize ≤ userEnd)
    (hroom : wholePages size + s.mem.missingUserTables s.cr3 s.heapVptr (wholePages size) ≤ free.length ∨
      (s.pmalloc size).2.failed = false ∧ (s.pmalloc size).2.mem.starved = false) :
    ∃ own' free' fs s', Filled roots own own' s s' free free'
        ((List.range (wholePages size)).map fun i => s.heapVptr + i * pageSize) fs ∧
      (s.pmalloc size).1 = s.heapVptr ∧ (s.pmalloc size).2.mem = s'.mem ∧
      (s.pmalloc size).2.failed = s'.failed ∧ (s.pmalloc size).2.cr3 = s'.cr3 ∧
      (s.pmalloc size).2.heapPages = s'.heapPages := by
  obtain ⟨huser, hinj⟩ := pageOf_range hend
  have hvs : ∀ v ∈ (List.range (wholePages size)).map fun i => s.heapVptr + i * pageSize, pml4Index v < 256 := by
    intro v hv
    obtain ⟨i, hi, rfl⟩ := List.mem_map.mp hv
    exact huser i (List.mem_range.mp hi)
  have hapart : ((List.range (wholePages size)).map fun i => s.heapVptr + i * pageSize).Pairwise
      fun v w => pageOf v ≠ pageOf w := by
    refine List.pairwise_map.mpr (List.nodup_range.imp_of_mem fun {i j} hi hj hne heq => ?_)
    exact hne (hinj i (List.mem_range.mp hi) j (List.mem_range.mp hj) heq)
  rw [missing_card h.uses.tables h.root huser] at hroom
  rw [pmalloc_range hsize hend] at hroom ⊢
  obtain ⟨own', free', fs, hfilled⟩ := filled_mapNewPages h.uses h.root hvs hapart (by
    rw [List.length_map, List.length_range]
    exact hroom)
  exact ⟨own', free', fs, _, hfilled, rfl, rfl, rfl, rfl, rfl⟩

/-- The frames of a range that is filled belong to nobody else. -/
theorem Filled.ownFrame (h : Orderly roots own free s) {s' r : ProcessMemory} {vs fs : List ℕ}
    (hf : Filled roots own own' s s' free free' vs fs) (hmem : r.mem = s'.mem) (hcr3 : r.cr3 = s'.cr3)
    (hheap : r.heapPages = s'.heapPages) (hvs : ∀ v ∈ vs, pml4Index v < 256) {i : ℕ} (hi : i < vs.length)
    (hlt : i < fs.length) (hend : vs[i] + pageSize ≤ userEnd) : OwnFrame roots r vs[i] fs[i] := by
  have hroots := h.uses.tables.rootPages
  obtain ⟨hfree, hpage⟩ := hf.taken fs[i] (List.getElem_mem hlt)
  have hmapped : ∀ j (hj : j < vs.length) (hj' : j < fs.length), s'.mem.getPhysInPml4 s.cr3 vs[j] = fs[j] :=
    fun j hj hj' => (List.forall₂_iff_get.mp hf.mapped).2 j hj hj'
  have hcr3 : r.cr3 = s.cr3 := hcr3.trans hf.cr3
  have hheapPages : r.heapPages = s.heapPages := hheap.trans (by rw [hf.rest])
  refine ⟨hend, ?_, (h.uses.isPage_of_free hfree).1, ?_, ?_, ?_, ?_, ?_⟩
  · rw [hmem, hcr3]
    exact hmapped i hi hlt
  · rw [hmem, isFree_iff hf.uses, hpage]
    nofun
  · rw [hf.uses.root_iff, hpage]
    nofun
  · intro p hp level htable
    rw [hmem] at htable
    obtain ⟨j, hj, path, -, hvalid, hat⟩ := htable.tableAt hf.uses.tables hp
    have hof : IsTableOf roots s'.mem fs[i] := by
      refine ⟨_, hvalid, ?_, ?_⟩
      · rw [hat]
        exact Nat.succ_ne_zero _
      · rw [hat, ptrTable_tablePtr htable.isPage.1]
    rw [hf.uses.table_iff, hpage] at hof
    cases hof
  · rw [hheapPages]
    intro hq
    rw [h.heapPages _ hq] at hfree
    cases hfree
  · intro p hp w hw hphys
    rw [hmem] at hphys
    rw [hcr3]
    by_contra hnot
    by_cases hother : p = s.cr3 → ∀ v ∈ vs, pageOf w ≠ pageOf v
    · -- What was mapped before is mapped to pages that were not free.
      rw [hf.others p hp w hw hother] at hphys
      exact h.mapped p hp w hw (hphys ▸ hfree)
    · simp only [not_forall, not_not] at hother
      obtain ⟨hpc, v, hv, hwv⟩ := hother
      obtain ⟨j, hj, rfl⟩ := List.mem_iff_getElem.mp hv
      have hj' : j < fs.length := hf.mapped.length_eq ▸ hj
      rw [hpc, getPhys_pageOf hroots h.root hw (hvs _ hv) hwv, hmapped j hj hj'] at hphys
      have hji := (hf.nodup.getElem_inj_iff).mp hphys
      subst hji
      exact hnot ⟨hpc, hwv⟩

/-- With enough memory the range is mapped, and no page is missing. -/
theorem Orderly.allOrNothing (h : Orderly roots own free s) {heap : Ipc.KmallocOutcome} {size : ℕ}
    (hsize : size ≠ 0) (hm : HasMemory heap size s) : AllOrNothing roots heap size s := by
  obtain ⟨own₁, h₁, hfreed, htables, hrest⟩ := h.heapGrows heap.pages
  have hcall : s.pmallocOf heap size = some ((s.heapGrows heap.pages).pmalloc size) := by
    rw [pmallocOf, if_neg hsize, if_pos hm.record]
  have hvptr : (s.heapGrows heap.pages).heapVptr = s.heapVptr := by rw [hrest]
  have hcr3 : (s.heapGrows heap.pages).cr3 = s.cr3 := by rw [hrest]
  generalize s.heapGrows heap.pages = s₁ at h₁ htables hcall hvptr hcr3
  have hend := hm.user
  obtain ⟨huser, -⟩ := pageOf_range hend
  have hpages := hm.pages
  have hvalid : ∀ a ∈ ((List.range (wholePages size)).map fun i => s.heapVptr + i * pageSize).toFinset.biUnion
      (tableAddrs s.cr3), vmmShape.Valid a := by
    refine valid_biUnion (h.uses.tables.rootPages _ h.root) fun v hv => ?_
    obtain ⟨i, hi, rfl⟩ := List.mem_map.mp hv
    exact huser i (List.mem_range.mp hi)
  have hmissing : s₁.mem.missingUserTables s.cr3 s.heapVptr (wholePages size) =
      s.mem.missingUserTables s.cr3 s.heapVptr (wholePages size) := by
    rw [missing_card h₁.uses.tables h.root huser, missing_card h.uses.tables h.root huser,
      missingAt_congr hvalid htables]
  rw [← hvptr] at hend
  obtain ⟨own', free', fs, s', hf, hptr, hmem, hfailed, hcr3', hheap⟩ := h₁.pmalloc_filled hsize hend (by
    rw [hvptr, hcr3, hmissing, List.length_drop, ← h.uses.count]
    exact .inl hpages)
  rw [hvptr] at hf hptr
  refine ⟨_, hcall, fun _ => ⟨fun i => fs.getD i 0, ?_, fun i hi => ?_⟩, fun hout => ?_⟩
  · have hlen : fs.length = wholePages size := by
      rw [← hf.mapped.length_eq, List.length_map, List.length_range]
    intro i hi j hj heq
    have hi' : i < fs.length := hlen ▸ hi
    have hj' : j < fs.length := hlen ▸ hj
    dsimp only at heq
    rw [List.getD_eq_getElem _ _ hi', List.getD_eq_getElem _ _ hj'] at heq
    exact hf.nodup.getElem_inj_iff.mp heq
  · have hi₀ : i < ((List.range (wholePages size)).map fun i => s.heapVptr + i * pageSize).length := by
      rw [List.length_map, List.length_range]
      exact hi
    have hi' : i < fs.length := hf.mapped.length_eq ▸ hi₀
    have hget : ((List.range (wholePages size)).map fun i => s.heapVptr + i * pageSize)[i] =
        s.heapVptr + i * pageSize := by
      rw [List.getElem_map, List.getElem_range]
    have hlast : s.heapVptr + i * pageSize + pageSize ≤ userEnd := by
      have hsucc : i * pageSize + pageSize ≤ wholePages size * pageSize := by
        rw [← Nat.succ_mul]
        exact Nat.mul_le_mul_right pageSize hi
      have huserEnd := hm.user
      omega
    dsimp only
    rw [List.getD_eq_getElem _ _ hi', hptr, ← hget]
    refine ⟨(isFree_iff h.uses _).mpr (hfreed _ (hf.taken _ (List.getElem_mem hi')).1), ?_⟩
    refine hf.ownFrame h₁ hmem hcr3' hheap (fun v hv => ?_) hi₀ hi' (hget ▸ hlast)
    obtain ⟨j, hj, rfl⟩ := List.mem_map.mp hv
    exact huser j (List.mem_range.mp hj)
  · rw [hfailed, hf.failed, h₁.failed, hmem, hf.starved, h₁.starved] at hout
    rcases hout with hout | hout
    · cases hout
    · cases hout

/-- Where `pmalloc` is all or nothing, memory sufficed. -/
theorem Orderly.hasMemory (h : Orderly roots own free s) (hvptr : s.heapVptr ≠ 0) {heap : Ipc.KmallocOutcome}
    {size : ℕ} (hsize : size ≠ 0) (hall : AllOrNothing roots heap size s) : HasMemory heap size s := by
  obtain ⟨r, hcall, hrange, hout⟩ := hall
  rw [pmallocOf, if_neg hsize] at hcall
  by_cases hok : heap.ok = true
  · rw [if_pos hok] at hcall
    obtain ⟨own₁, h₁, -, htables, hrest⟩ := h.heapGrows heap.pages
    have hvptr₁ : (s.heapGrows heap.pages).heapVptr = s.heapVptr := by rw [hrest]
    have hcr3 : (s.heapGrows heap.pages).cr3 = s.cr3 := by rw [hrest]
    generalize s.heapGrows heap.pages = s₁ at h₁ htables hcall hvptr₁ hcr3
    have hr : s₁.pmalloc size = r := Option.some.inj hcall
    have hnull : r.1 = s.heapVptr := by
      rw [← hr, ← hvptr₁, pmalloc, if_neg hsize]
    rw [hnull] at hrange hout
    -- The last page of the range is in the user half.
    have hpos : 0 < wholePages size := by
      unfold wholePages pageSize
      omega
    obtain ⟨frame, -, hframes⟩ := hrange hvptr
    have hlast := (hframes (wholePages size - 1) (Nat.sub_lt hpos Nat.one_pos)).2.user
    have hend : s.heapVptr + wholePages size * pageSize ≤ userEnd := by
      have hsucc : (wholePages size - 1) * pageSize + pageSize = wholePages size * pageSize := by
        rw [← Nat.succ_mul, Nat.succ_eq_add_one, Nat.sub_add_cancel hpos]
      omega
    -- As null is not returned, no page was missing.
    have hflags : r.2.failed = false ∧ r.2.mem.starved = false := by
      constructor
      · exact Bool.eq_false_iff.mpr fun hfailed => hvptr (hout (.inl hfailed)).1
      · exact Bool.eq_false_iff.mpr fun hstarved => hvptr (hout (.inr hstarved)).1
    obtain ⟨huser, -⟩ := pageOf_range hend
    obtain ⟨own', free', fs, s', hf, -⟩ := h₁.pmalloc_filled hsize (hvptr₁.symm ▸ hend) (by
      rw [hr]
      exact .inr hflags)
    have hcount := hf.count
    rw [← hf.mapped.length_eq, List.length_map, List.length_range, hvptr₁, hcr3, List.length_drop,
      ← h.uses.count, missingAt_congr (valid_biUnion (h.uses.tables.rootPages _ h.root) fun v hv => ?_) htables,
      ← missing_card h.uses.tables h.root huser] at hcount
    · exact ⟨hok, hend, by omega⟩
    · obtain ⟨i, hi, rfl⟩ := List.mem_map.mp hv
      exact huser i (List.mem_range.mp hi)
  · rw [if_neg hok] at hcall
    cases hcall

/-- `pmalloc` is all or nothing exactly if it is asked for nothing, or memory suffices. -/
theorem pmalloc_all_or_nothing_iff (h : Orderly roots own free s) (hvptr : s.heapVptr ≠ 0)
    (heap : Ipc.KmallocOutcome) (size : ℕ) :
    AllOrNothing roots heap size s ↔ size = 0 ∨ HasMemory heap size s := by
  by_cases hsize : size = 0
  · refine ⟨fun _ => .inl hsize, fun _ => ⟨(0, s), if_pos hsize, fun hne => absurd rfl hne, ?_⟩⟩
    exact fun _ => ⟨rfl, rfl, rfl, fun _ _ => Iff.rfl, fun _ _ _ _ => rfl⟩
  · constructor
    · exact fun hall => .inr (h.hasMemory hvptr hsize hall)
    · exact fun hor => h.allOrNothing hsize (hor.resolve_left hsize)

end

/-- A process without regions, and four free pages -/
def freshProcess : ProcessMemory where
  mem := freshMemory
  cr3 := 4096
  heapVptr := 0x1000000
  memRegions := []
  shmemTable := []
  shmemCount := 0
  regions := []
  failed := false
  heapPages := []
  freedShared := []

/-- What its pages are used for -/
def freshUse (q : ℕ) : PageUse :=
  if q = 4096 then .pml4 else if q ∈ [8192, 12288, 16384, 20480] then .free else .other

theorem orderly_freshProcess : Orderly [4096] freshUse [8192, 12288, 16384, 20480] freshProcess where
  uses := by
    obtain ⟨free, htables⟩ := emptyTables_freshMemory.means.tables
    have hchain : FreeChain freshMemory.words freshMemory.freeListHead [8192, 12288, 16384, 20480] :=
      ⟨rfl, rfl, rfl, rfl, rfl⟩
    have hfree : free = [8192, 12288, 16384, 20480] :=
      freeChain_unique htables.chain hchain (fun hmem => (htables.freePages 0 hmem).1 rfl) (by decide)
    subst hfree
    refine ⟨htables, rfl, fun q => ?_, fun q => ?_, fun q => ?_⟩
    · unfold freshUse
      by_cases hq : q = 4096
      · rw [if_pos hq, hq]
        decide
      · rw [if_neg hq]
        split
        · exact ⟨fun _ => rfl, fun _ => by assumption⟩
        · exact ⟨fun hmem => absurd hmem (by assumption), nofun⟩
    · constructor
      · rintro ⟨a, -, hne, -⟩
        exact absurd (emptyTables_freshMemory.tableAt_eq a) hne
      · unfold freshUse
        split_ifs <;> nofun
    · unfold freshUse
      rw [List.mem_singleton]
      split_ifs with hq
      · exact ⟨fun _ => rfl, fun _ => hq⟩
      · exact ⟨fun heq => absurd heq hq, nofun⟩
      · exact ⟨fun heq => absurd heq hq, nofun⟩
  root := by decide
  heapPages := nofun
  mapped p hp w hw := by
    have hnone : freshMemory.getPhysInPml4 p w = 0 := emptyTables_freshMemory.means.phys p hp w hw
    show freshUse (freshMemory.getPhysInPml4 p w) ≠ .free
    rw [hnone]
    decide
  failed := rfl
  starved := rfl

/-- One page, and the three tables for it -/
theorem pmalloc_all_or_nothing_onePage : AllOrNothing [4096] ⟨true, 0⟩ 1 freshProcess :=
  (pmalloc_all_or_nothing_iff orderly_freshProcess (by decide) ⟨true, 0⟩ 1).mpr
    (.inr ⟨rfl, by decide, by decide +kernel⟩)

/-- For the second of two pages there is none, and page 0 is mapped. -/
theorem pmalloc_maps_page_zero : ¬ AllOrNothing [4096] ⟨true, 0⟩ 4097 freshProcess := by
  rintro ⟨r, hcall, -, hout⟩
  have hr : r = freshProcess.pmalloc 4097 := (Option.some.inj hcall).symm
  have hfailed : r.2.failed = true := by
    rw [hr]
    decide +kernel
  have hnull : freshProcess.heapVptr = 0 := (hr ▸ (hout (.inl hfailed)).1 : (freshProcess.pmalloc 4097).1 = 0)
  exact absurd hnull (by decide)

end ProcessMemory

end Sandflea
