import Sandflea.Ipc.RefCount

/-!
# Who owns the pages of a region

`shmem_create_region` takes one page from the allocator, whatever number of pages it is asked for, and
records that number; attachments map, and the last detachment returns, as many pages as were asked
for. So a region of one page owns it, and a region of more does not own the rest.

`pagesOwned_iff` says that in a run all pages of all regions are owned by their regions, and are what
the destruction of a region returns, if and only if no region of more than one page is created.
-/

namespace Sandflea

open Ipc

/-- Every page of a region was taken by the creation of that region, and belongs to no other region. -/
structure Ipc.PagesOwned (s : Ipc) : Prop where
  owned : ∀ r ∈ s.regions, ∀ page ∈ regionPages r, s.owner page = .region r.physBase
  apart : (s.regions.flatMap regionPages).Nodup

/-- The regions that a step takes from the list. -/
def Ipc.goneRegions (s s' : Ipc) : List Region :=
  s.regions.filter fun r => !((s'.regions.map Region.physBase).contains r.physBase)

/-- The pages that a step returns to the allocator: those of the regions that it takes from the list,
once each, and no others. A creation may return the page that it took, and another user its own. -/
def Ipc.ReturnsOnly (s : Ipc) (op : ShmemOp) : Prop :=
  match op with
  | .detach _ _ | .cleanup _ =>
    (op.run s).freeList.Perm ((s.goneRegions (op.run s)).flatMap regionPages ++ s.freeList)
  | .givePage page => ∀ page' ∈ (op.run s).freeList, page' ∈ s.freeList ∨ page' = page
  | _ => ∀ page ∈ (op.run s).freeList, page ∈ s.freeList

/-- In every state of a run the pages of the regions are owned by them, and every step returns only the
pages of the regions that it destroys. -/
def Ipc.OwnedAlong (s : Ipc) : List ShmemOp → Prop
  | [] => s.PagesOwned
  | op :: ops => s.PagesOwned ∧ s.ReturnsOnly op ∧ OwnedAlong (op.run s) ops

/-- A step creates no region of more than one page: it is asked for one, or for none, which counts as
one, or there is no page or no memory for a region. -/
def ShmemOp.SinglePage (s : Ipc) : ShmemOp → Prop
  | .create pageCount _ heap => pageCount ≤ 1 ∨ s.freeList = [] ∨ heap.ok = false
  | _ => True

/-- No step of a run creates a region of more than one page. -/
def Ipc.SinglePages (s : Ipc) : List ShmemOp → Prop
  | [] => True
  | op :: ops => op.SinglePage s ∧ SinglePages (op.run s) ops

/-- The pages that `init_pmm` gives to the allocator: different ones at page boundaries, without
page 0, which `pmm_free` does not take. -/
structure UsablePages where
  pages : List ℕ
  nodup : pages.Nodup
  zero_notMem : 0 ∉ pages
  aligned : ∀ page ∈ pages, pageSize ∣ page

/-! ## The invariant -/

/-- The free pages belong to nobody, and only the creation that got a page owns it for a region. -/
structure Ipc.Allocator (s : Ipc) : Prop where
  nodup : s.freeList.Nodup
  zero_notMem : 0 ∉ s.freeList
  free : ∀ page ∈ s.freeList, s.owner page = .nobody
  tags : ∀ page base, s.owner page = .region base → page = base
  aligned : ∀ page, page ∈ s.freeList ∨ s.owner page ≠ .nobody → pageSize ∣ page

/-- Every region has one page, which it owns. -/
structure Ipc.Sole (s : Ipc) : Prop where
  allocator : s.Allocator
  bases : (s.regions.map Region.physBase).Nodup
  owned : ∀ r ∈ s.regions, s.owner r.physBase = .region r.physBase ∧ r.physBase ≠ 0
  single : ∀ r ∈ s.regions, r.pageCount = 1

/-- The first page of each region, and how many it should have. -/
def Ipc.extents (s : Ipc) : List (ℕ × ℕ) := s.regions.map fun r => (r.physBase, r.pageCount)

theorem regionPages_single {r : Region} (h : r.pageCount = 1) : regionPages r = [r.physBase] := by
  unfold regionPages
  rw [h, List.range_one, List.map_singleton, Nat.zero_mul, Nat.add_zero]

theorem flatMap_regionPages {rs : List Region} (h : ∀ r ∈ rs, r.pageCount = 1) :
    rs.flatMap regionPages = rs.map Region.physBase := by
  induction rs with
  | nil => rfl
  | cons r rs ih =>
    rw [List.flatMap_cons, List.map_cons, regionPages_single (h r List.mem_cons_self),
      ih fun r' hr' => h r' (List.mem_cons_of_mem _ hr')]
    rfl

namespace Ipc.Sole

variable {s : Ipc}

theorem pagesOwned (h : s.Sole) : s.PagesOwned := by
  refine ⟨fun r hr page hp => ?_, ?_⟩
  · rw [regionPages_single (h.single r hr), List.mem_singleton] at hp
    rw [hp]
    exact (h.owned r hr).1
  · rw [flatMap_regionPages h.single]
    exact h.bases

/-- The page of a region is not free. -/
theorem base_notMem (h : s.Sole) {r : Region} (hr : r ∈ s.regions) : r.physBase ∉ s.freeList := by
  intro hf
  have ho := h.allocator.free _ hf
  rw [(h.owned r hr).1] at ho
  exact absurd ho (by simp)

/-- The page of a region is at a page boundary. -/
theorem aligned (h : s.Sole) {r : Region} (hr : r ∈ s.regions) : pageSize ∣ r.physBase := by
  refine h.allocator.aligned _ (.inr ?_)
  rw [(h.owned r hr).1]
  exact fun hn => absurd hn (by simp)

/-- What stays of a state whose pages and regions change little. -/
theorem of_regions (h : s.Sole) {s' : Ipc} (ha : s'.Allocator)
    (hr : s'.extents.Sublist s.extents)
    (ho : ∀ r ∈ s'.regions, s'.owner r.physBase = s.owner r.physBase) : s'.Sole := by
  have hback : ∀ r' ∈ s'.regions, ∃ r ∈ s.regions, r.physBase = r'.physBase ∧
      r.pageCount = r'.pageCount := by
    intro r' hr'
    obtain ⟨r, hr, he⟩ := List.mem_map.mp (hr.subset (List.mem_map_of_mem hr'))
    exact ⟨r, hr, (Prod.mk.inj he).1, (Prod.mk.inj he).2⟩
  refine ⟨ha, ?_, fun r' hr' => ?_, fun r' hr' => ?_⟩
  · have hsub := hr.map Prod.fst
    unfold extents at hsub
    rw [List.map_map, List.map_map] at hsub
    exact h.bases.sublist hsub
  · obtain ⟨r, hr, hb, -⟩ := hback r' hr'
    rw [ho r' hr', ← hb]
    exact h.owned r hr
  · obtain ⟨r, hr, -, hc⟩ := hback r' hr'
    rw [← hc]
    exact h.single r hr

end Ipc.Sole

/-! ## Pages come and go -/

/-- From one state to a later one only pages leave the free list, and only their owners change. -/
structure Ipc.Takes (s s' : Ipc) : Prop where
  extents : s'.extents = s.extents
  allocator : s'.Allocator
  freeList : s'.freeList <:+ s.freeList
  owner : ∀ page, page ∉ s.freeList → s'.owner page = s.owner page
  phys : ∀ page, page ∉ s.freeList → pageSize ∣ page → ∀ off < pageSize,
    s'.phys (page + off) = s.phys (page + off)

/-- A byte of one page is not in another page. -/
theorem not_mem_page {page page' : ℕ} (hne : page' ≠ page) (hd' : pageSize ∣ page')
    (hd : pageSize ∣ page) {off n : ℕ} (ho : off < pageSize) (hn : n ≤ pageSize) :
    ¬ (page ≤ page' + off ∧ page' + off < page + n) := by
  obtain ⟨a, rfl⟩ := hd
  obtain ⟨b, rfl⟩ := hd'
  have hab : b ≠ a := by
    rintro rfl
    exact hne rfl
  unfold pageSize at ho hn ⊢
  omega

namespace Ipc.Takes

variable {s s' s'' : Ipc}

theorem refl (h : s.Allocator) : s.Takes s :=
  ⟨rfl, h, List.suffix_refl _, fun _ _ => rfl, fun _ _ _ _ _ => rfl⟩

theorem trans (h : s.Takes s') (h' : s'.Takes s'') : s.Takes s'' where
  extents := h'.extents.trans h.extents
  allocator := h'.allocator
  freeList := h'.freeList.trans h.freeList
  owner page hp := (h'.owner page fun hp' => hp (h.freeList.subset hp')).trans (h.owner page hp)
  phys page hp hd off ho :=
    (h'.phys page (fun hp' => hp (h.freeList.subset hp')) hd off ho).trans (h.phys page hp hd off ho)

theorem pmmAllocPage (h : s.Allocator) {owner : ℕ → PageOwner}
    (ho : ∀ page base, owner page = .region base → page = base) :
    s.Takes (s.pmmAllocPage owner).2 := by
  unfold Ipc.pmmAllocPage
  split
  · exact refl h
  next page rest hf =>
    have hn := h.nodup
    have hz := h.zero_notMem
    rw [hf] at hn hz
    obtain ⟨hnot, hrest⟩ := List.nodup_cons.mp hn
    have hne : ∀ page' ∈ rest, page' ≠ page := by
      rintro page' hp' rfl
      exact hnot hp'
    have hpage : pageSize ∣ page := h.aligned page (.inl (hf ▸ List.mem_cons_self))
    refine ⟨rfl, ⟨hrest, fun h0 => hz (List.mem_cons_of_mem _ h0), ?_, ?_, ?_⟩, ?_, ?_, ?_⟩
    · intro page' hp'
      dsimp only
      rw [Function.update_of_ne (hne page' hp')]
      exact h.free page' (hf ▸ List.mem_cons_of_mem _ hp')
    · intro page' base hb
      dsimp only at hb
      by_cases hp : page' = page
      · subst hp
        rw [Function.update_self] at hb
        exact ho page' base hb
      · rw [Function.update_of_ne hp] at hb
        exact h.tags page' base hb
    · intro page' hp'
      dsimp only at hp'
      by_cases hp : page' = page
      · rwa [hp]
      · rw [Function.update_of_ne hp] at hp'
        exact h.aligned page' (hp'.imp_left fun hm => hf ▸ List.mem_cons_of_mem _ hm)
    · rw [hf]
      exact List.suffix_cons page rest
    · intro page' hp'
      rw [hf, List.mem_cons, not_or] at hp'
      exact Function.update_of_ne hp'.1 _ _
    · intro page' hp' hd off ho
      rw [hf, List.mem_cons, not_or] at hp'
      exact Bytes.zeroFill_of_not_mem (not_mem_page hp'.1 hd hpage ho le_rfl)

theorem takePages (h : s.Allocator) (n : ℕ) : s.Takes (s.takePages n) := by
  induction n generalizing s with
  | zero => exact refl h
  | succ n ih =>
    have h₁ : s.Takes (s.pmmAllocPage fun _ => .other).2 :=
      pmmAllocPage h fun _ _ hb => absurd hb (by simp)
    exact h₁.trans (ih h₁.allocator)

/-- The regions keep their pages. -/
theorem sole (h : s.Sole) (ht : s.Takes s') : s'.Sole := by
  refine h.of_regions ht.allocator (ht.extents ▸ List.Sublist.refl _) fun r hr => ?_
  have hm : (r.physBase, r.pageCount) ∈ s.extents := ht.extents ▸ List.mem_map_of_mem hr
  obtain ⟨r', hr', he⟩ := List.mem_map.mp hm
  rw [← (Prod.mk.inj he).1]
  exact ht.owner _ (h.base_notMem hr')

/-- A change of processes and of reference counts. -/
theorem of_pages_eq (h : s.Allocator) (he : s'.extents = s.extents)
    (hf : s'.freeList = s.freeList) (ho : s'.owner = s.owner) (hp : s'.phys = s.phys) :
    s.Takes s' := by
  refine ⟨he, ⟨hf ▸ h.nodup, hf ▸ h.zero_notMem, ?_, ?_, ?_⟩, hf ▸ List.suffix_refl _,
    fun page _ => congrFun ho page, fun page _ _ off _ => congrFun hp (page + off)⟩
  · rw [hf, ho]
    exact h.free
  · rw [ho]
    exact h.tags
  · rw [hf, ho]
    exact h.aligned

end Ipc.Takes

/-- A page that is not free, and not page 0, goes back. -/
theorem Ipc.Allocator.pmmFree {s : Ipc} (h : s.Allocator) {page : ℕ} (hz : page ≠ 0)
    (hp : page ∉ s.freeList) (hd : pageSize ∣ page) : (s.pmmFree page).Allocator := by
  unfold Ipc.pmmFree
  rw [if_neg hz]
  refine ⟨List.nodup_cons.mpr ⟨hp, h.nodup⟩, ?_, ?_, ?_, ?_⟩
  · intro h0
    rcases List.mem_cons.mp h0 with h0 | h0
    · exact hz h0.symm
    · exact h.zero_notMem h0
  · intro page' hp'
    dsimp only
    by_cases he : page' = page
    · rw [he, Function.update_self]
    · rw [Function.update_of_ne he]
      exact h.free page' ((List.mem_cons.mp hp').resolve_left he)
  · intro page' base hb
    dsimp only at hb
    by_cases he : page' = page
    · rw [he, Function.update_self] at hb
      exact absurd hb (by simp)
    · rw [Function.update_of_ne he] at hb
      exact h.tags page' base hb
  · intro page' hp'
    dsimp only at hp'
    by_cases he : page' = page
    · rwa [he]
    · rw [Function.update_of_ne he] at hp'
      exact h.aligned page' (hp'.imp_left fun hm => (List.mem_cons.mp hm).resolve_left he)

/-- A page that goes back leaves the bytes of other pages alone. -/
theorem phys_pmmFree (s : Ipc) {page page' : ℕ} (hne : page' ≠ page) (hd' : pageSize ∣ page')
    (hd : pageSize ∣ page) {off : ℕ} (ho : off < pageSize) :
    (s.pmmFree page).phys (page' + off) = s.phys (page' + off) := by
  unfold Ipc.pmmFree
  split
  · rfl
  · have hnot := not_mem_page (n := 8) hne hd' hd ho (by decide)
    dsimp only
    rw [Bytes.copyInto_of_not_mem hnot]

/-! ## What the calls do to the pages -/

theorem extents_modifyRegion (shmId : ℕ) {f : Region → Region}
    (hf : ∀ r, ((f r).physBase, (f r).pageCount) = (r.physBase, r.pageCount)) (rs : List Region) :
    (modifyRegion shmId f rs).map (fun r => (r.physBase, r.pageCount)) =
      rs.map fun r => (r.physBase, r.pageCount) := by
  induction rs with
  | nil => rfl
  | cons r rs ih =>
    unfold modifyRegion
    split
    · rw [List.map_cons, List.map_cons, hf]
    · rw [List.map_cons, List.map_cons, ih]

section Calls

variable {s s' : Ipc}

theorem takes_procAllocShmemSlot (h : s.Allocator) (p : Pid) (heap : KmallocOutcome) :
    s.Takes (s.procAllocShmemSlot p heap).2 := by
  unfold procAllocShmemSlot
  dsimp only
  split
  · exact .refl h
  · have ht := Takes.takePages h heap.pages
    generalize (if (s.procs p).shmemTable.length = 0 then 4
      else u32 ((s.procs p).shmemTable.length * 2)) = newCap
    split
    · exact ht.trans (.of_pages_eq ht.allocator rfl rfl rfl rfl)
    · exact ht

theorem takes_shmemAttachProc (h : s.Allocator) (p : Pid) (shmId : ℕ) (heap : KmallocOutcome)
    (tables : ℕ) : s.Takes (s.shmemAttachProc p shmId heap tables).2 := by
  unfold shmemAttachProc
  split
  · exact .refl h
  · split
    · exact .refl h
    · split
      · exact .refl h
      · split
        · exact .refl h
        · have ht := takes_procAllocShmemSlot h p heap
          dsimp only
          split
          · exact ht
          · have ht' := ht.trans (Takes.takePages ht.allocator tables)
            exact ht'.trans (.of_pages_eq ht'.allocator
              (extents_modifyRegion shmId (fun _ => by rfl) _) rfl rfl rfl)

/-- A creation finds no page, or takes one, which it owns for a new region or returns. -/
theorem shmemCreateRegion_pages (h : s.Allocator) (pageCount flags : ℕ) (heap : KmallocOutcome) :
    (s.freeList = [] ∧ (s.shmemCreateRegion pageCount flags heap).2 = s) ∨
      ∃ page s₂, page ∈ s.freeList ∧ s.Takes s₂ ∧ page ∉ s₂.freeList ∧
        s₂.owner page = .region page ∧ s.SameTables s₂ ∧
        (∀ off < pageSize, s₂.phys (page + off) = 0) ∧
        (s.shmemCreateRegion pageCount flags heap).2 =
          if heap.ok then { s₂ with
            nextShmId := if u32 (s₂.nextShmId + 1) = 0 then 1 else u32 (s₂.nextShmId + 1)
            regions := ⟨s₂.nextShmId, page, if pageCount = 0 then 1 else pageCount, flags, 0⟩ ::
              s₂.regions }
          else s₂.pmmFree page := by
  cases hf : s.freeList with
  | nil =>
    refine .inl ⟨rfl, ?_⟩
    unfold shmemCreateRegion Ipc.pmmAllocPage
    rw [hf]
    rfl
  | cons page rest =>
    have hne : page ≠ 0 := by
      rintro rfl
      exact h.zero_notMem (hf ▸ List.mem_cons_self)
    have hnot : page ∉ rest := (List.nodup_cons.mp (hf ▸ h.nodup)).1
    have h₁ : s.Takes (s.pmmAllocPage .region).2 :=
      Takes.pmmAllocPage h fun page base hb => PageOwner.region.inj hb
    have h₂ := Takes.takePages h₁.allocator heap.pages
    have halloc : s.pmmAllocPage .region = (page, { s with
        freeList := rest
        owner := Function.update s.owner page (.region page)
        phys := Bytes.zeroFill s.phys page pageSize }) := by
      unfold Ipc.pmmAllocPage
      rw [hf]
    have hfree : (s.pmmAllocPage .region).2.freeList = rest := by rw [halloc]
    have hd : pageSize ∣ page := h.aligned page (.inl (hf ▸ List.mem_cons_self))
    refine .inr ⟨page, _, List.mem_cons_self, h₁.trans h₂, fun hp => hnot ?_, ?_,
      (sameTables_pmmAllocPage s _).trans (sameTables_takePages _ heap.pages), fun off ho => ?_, ?_⟩
    · rw [← hfree]
      exact h₂.freeList.subset hp
    · rw [h₂.owner page (hfree ▸ hnot), halloc]
      exact Function.update_self page _ _
    · rw [h₂.phys page (hfree ▸ hnot) hd off ho, halloc]
      exact Bytes.zeroFill_of_mem (Nat.le_add_right _ _) (Nat.add_lt_add_left ho page)
    · unfold shmemCreateRegion
      have hfst : (s.pmmAllocPage .region).1 = page := by rw [halloc]
      dsimp only
      rw [hfst, if_neg hne]
      split <;> rfl

/-- A creation of one page keeps the pages with their owners. -/
theorem Ipc.Sole.create (h : s.Sole) {pageCount : ℕ} {heap : KmallocOutcome} (flags : ℕ)
    (hc : ShmemOp.SinglePage s (.create pageCount flags heap)) :
    (s.shmemCreateRegion pageCount flags heap).2.Sole := by
  rcases shmemCreateRegion_pages h.allocator pageCount flags heap with
    ⟨-, he⟩ | ⟨page, s₂, hp, ht, hnot, hown, -, -, he⟩
  · rw [he]
    exact h
  · have h₂ := Takes.sole h ht
    have hne : page ≠ 0 := by
      rintro rfl
      exact h.allocator.zero_notMem hp
    have hbase : ∀ r ∈ s₂.regions, r.physBase ≠ page := by
      rintro r hr rfl
      have hm : (r.physBase, r.pageCount) ∈ s.extents := ht.extents ▸ List.mem_map_of_mem hr
      obtain ⟨r', hr', hpc⟩ := List.mem_map.mp hm
      refine h.base_notMem hr' ?_
      rw [(Prod.mk.inj hpc).1]
      exact hp
    rw [he]
    by_cases hok : heap.ok = true
    · rw [if_pos hok]
      have hone : (if pageCount = 0 then 1 else pageCount) = 1 := by
        rcases hc with hc | hc | hc
        · split <;> omega
        · rw [hc] at hp
          exact absurd hp List.not_mem_nil
        · rw [hok] at hc
          exact absurd hc.symm Bool.false_ne_true
      refine ⟨⟨h₂.allocator.nodup, h₂.allocator.zero_notMem, h₂.allocator.free,
        h₂.allocator.tags, h₂.allocator.aligned⟩, List.nodup_cons.mpr ⟨?_, h₂.bases⟩, ?_, ?_⟩
      · intro hm
        obtain ⟨r, hr, hb⟩ := List.mem_map.mp hm
        exact hbase r hr hb
      · intro r hr
        rcases List.mem_cons.mp hr with rfl | hr
        · exact ⟨hown, hne⟩
        · exact h₂.owned r hr
      · intro r hr
        rcases List.mem_cons.mp hr with rfl | hr
        · exact hone
        · exact h₂.single r hr
    · rw [if_neg hok]
      have hd := h.allocator.aligned page (.inl hp)
      have ha := h₂.allocator.pmmFree hne hnot hd
      refine h₂.of_regions ha ?_ fun r hr => ?_
      · unfold Ipc.pmmFree
        rw [if_neg hne]
        exact List.Sublist.refl _
      · unfold Ipc.pmmFree at hr ⊢
        rw [if_neg hne] at hr ⊢
        exact Function.update_of_ne (hbase r hr) _ _

/-- A creation of more than one page leaves pages of the region to others. -/
theorem not_pagesOwned_create (h : s.Sole) {pageCount : ℕ} {heap : KmallocOutcome} (flags : ℕ)
    (hc : ¬ ShmemOp.SinglePage s (.create pageCount flags heap)) :
    ¬ (s.shmemCreateRegion pageCount flags heap).2.PagesOwned := by
  have hn : ¬ (pageCount ≤ 1 ∨ s.freeList = [] ∨ heap.ok = false) := hc
  rw [not_or, not_or, Bool.not_eq_false] at hn
  obtain ⟨hpages, hfree, hok⟩ := hn
  rcases shmemCreateRegion_pages h.allocator pageCount flags heap with
    ⟨hnil, -⟩ | ⟨page, s₂, -, ht, -, -, -, -, he⟩
  · exact absurd hnil hfree
  · rw [he, if_pos hok]
    intro ho
    -- The second page is not the one that the creation took.
    have hsecond : page + 1 * pageSize ∈
        regionPages ⟨s₂.nextShmId, page, if pageCount = 0 then 1 else pageCount, flags, 0⟩ := by
      refine List.mem_map.mpr ⟨1, List.mem_range.mpr ?_, rfl⟩
      dsimp only
      split <;> omega
    have hown := ho.owned _ List.mem_cons_self _ hsecond
    have hpage : page + 1 * pageSize = page := ht.allocator.tags _ _ hown
    unfold pageSize at hpage
    omega

/-- Pages go from the regions to the free list. -/
structure Ipc.Returns (s s' : Ipc) : Prop where
  sole : s'.Sole
  bases : (s'.regions.map Region.physBase).Sublist (s.regions.map Region.physBase)
  pages : (s'.freeList ++ s'.regions.map Region.physBase).Perm
    (s.freeList ++ s.regions.map Region.physBase)
  phys : ∀ r ∈ s'.regions, ∀ off < pageSize, s'.phys (r.physBase + off) = s.phys (r.physBase + off)

theorem Ipc.Returns.refl (h : s.Sole) : s.Returns s :=
  ⟨h, List.Sublist.refl _, List.Perm.refl _, fun _ _ _ _ => rfl⟩

theorem Ipc.Returns.trans {s'' : Ipc} (h : s.Returns s') (h' : s'.Returns s'') : s.Returns s'' :=
  ⟨h'.sole, h'.bases.trans h.bases, h'.pages.trans h.pages, fun r hr off ho => by
    obtain ⟨r', hr', he⟩ := List.mem_map.mp (h'.bases.subset (List.mem_map_of_mem hr))
    rw [h'.phys r hr off ho, ← he, h.phys r' hr' off ho]⟩

/-- Processes and reference counts may change. -/
theorem Ipc.Returns.of_pages_eq (h : s.Sole) (he : s'.extents = s.extents)
    (hf : s'.freeList = s.freeList) (ho : s'.owner = s.owner) (hp : s'.phys = s.phys) :
    s.Returns s' := by
  have hb : s'.regions.map Region.physBase = s.regions.map Region.physBase := by
    have hfst := congrArg (List.map Prod.fst) he
    unfold extents at hfst
    rw [List.map_map, List.map_map] at hfst
    exact hfst
  exact ⟨(Takes.of_pages_eq h.allocator he hf ho hp).sole h, hb ▸ List.Sublist.refl _,
    by rw [hf, hb], fun _ _ _ _ => congrFun hp _⟩

/-- Unlinking a region takes it from its place in the list. -/
theorem unlinkRegion_split {shmId : ℕ} {r : Region} {rs : List Region}
    (h : rs.find? (fun r => r.shmId == shmId) = some r) :
    ∃ l₁ l₂, rs = l₁ ++ r :: l₂ ∧ unlinkRegion shmId rs = l₁ ++ l₂ := by
  induction rs with
  | nil => exact absurd h (by simp)
  | cons r' rs ih =>
    unfold unlinkRegion
    by_cases hid : r'.shmId = shmId
    · rw [List.find?_cons_of_pos (by simp [hid])] at h
      rw [if_pos hid, Option.some.inj h]
      exact ⟨[], rs, rfl, rfl⟩
    · rw [List.find?_cons_of_neg (by simp [hid])] at h
      obtain ⟨l₁, l₂, he, hu⟩ := ih h
      rw [if_neg hid, hu, he]
      exact ⟨r' :: l₁, l₂, rfl, rfl⟩

theorem returns_dropRef (h : s.Sole) (shmId : ℕ) : s.Returns (s.dropRef shmId) := by
  unfold dropRef
  split
  · exact .refl h
  next r hfind =>
    split
    · obtain ⟨l₁, l₂, hrs, hu⟩ := unlinkRegion_split hfind
      have hr : r ∈ s.regions := hrs ▸ List.mem_append_right l₁ List.mem_cons_self
      obtain ⟨-, hne⟩ := h.owned r hr
      have hnot := h.base_notMem hr
      have hbases := h.bases
      rw [hrs, List.map_append, List.map_cons] at hbases
      have hother : ∀ r' ∈ l₁ ++ l₂, r'.physBase ≠ r.physBase := by
        intro r' hr' he
        have hnd := List.nodup_middle.mp hbases
        rw [List.nodup_cons, ← List.map_append, ← he] at hnd
        exact hnd.1 (List.mem_map_of_mem hr')
      have hpages : s.freePages (regionPages r) = s.pmmFree r.physBase := by
        rw [regionPages_single (h.single r hr)]
        rfl
      have hd := h.aligned hr
      have ha := h.allocator.pmmFree hne hnot hd
      rw [hpages, hu]
      refine ⟨h.of_regions ⟨ha.nodup, ha.zero_notMem, ha.free, ha.tags, ha.aligned⟩ ?_ ?_,
        ?_, ?_, ?_⟩
      · unfold extents
        rw [hrs, List.map_append, List.map_append, List.map_cons]
        exact (List.Sublist.refl _).append (List.sublist_cons_self _ _)
      · intro r' hr'
        unfold Ipc.pmmFree
        rw [if_neg hne]
        exact Function.update_of_ne (hother r' hr') _ _
      · rw [hrs, List.map_append, List.map_append, List.map_cons]
        exact (List.Sublist.refl _).append (List.sublist_cons_self _ _)
      · unfold Ipc.pmmFree
        rw [if_neg hne, hrs]
        dsimp only
        rw [List.map_append, List.map_append, List.map_cons, List.cons_append]
        have hmid : (r.physBase :: (l₁.map Region.physBase ++ l₂.map Region.physBase)).Perm
            (l₁.map Region.physBase ++ r.physBase :: l₂.map Region.physBase) :=
          List.perm_middle.symm
        exact (List.perm_middle.symm).trans (hmid.append_left s.freeList)
      · intro r' hr' off ho
        have hmem : r' ∈ s.regions := by
          rw [hrs, List.mem_append, List.mem_cons]
          exact (List.mem_append.mp hr').imp_right .inr
        exact phys_pmmFree s (hother r' hr') (h.aligned hmem) hd ho
    · exact .of_pages_eq h (extents_modifyRegion shmId (fun _ => by rfl) _) rfl rfl rfl

theorem returns_detach (h : s.Sole) (p : Pid) (handle : ℤ) :
    s.Returns (s.shmemDetachProc p handle).2 := by
  unfold shmemDetachProc
  split
  · exact .refl h
  · have h₁ : s.Returns (s.setProc p (clearSlot (s.procs p) handle.toNat)) :=
      .of_pages_eq h rfl rfl rfl rfl
    exact h₁.trans (returns_dropRef h₁.sole _)

theorem returns_detachAll (h : s.Sole) (p : Pid) (handles : List ℕ) :
    s.Returns (s.detachAll p handles) := by
  induction handles generalizing s with
  | nil => exact .refl h
  | cons i handles ih =>
    have h₁ := returns_detach h p (i32 i)
    unfold Ipc.detachAll
    rw [List.foldl_cons]
    exact h₁.trans (ih h₁.sole)

theorem returns_cleanup (h : s.Sole) (p : Pid) : s.Returns (s.ipcProcessCleanup p) := by
  unfold ipcProcessCleanup
  split
  · exact .refl h
  · have h₁ := returns_detachAll h p (List.range (s.procs p).shmemTable.length)
    exact h₁.trans (.of_pages_eq h₁.sole rfl rfl rfl rfl)

/-- What goes to the free list is the pages of the regions that are gone. -/
theorem Ipc.Returns.gone (h : s.Sole) (hr : s.Returns s') :
    s'.freeList.Perm ((s.goneRegions s').flatMap regionPages ++ s.freeList) := by
  have hgone : (s.goneRegions s').flatMap regionPages =
      (s.regions.map Region.physBase).filter
        fun b => !((s'.regions.map Region.physBase).contains b) := by
    have hsingle : ∀ r ∈ s.goneRegions s', r.pageCount = 1 := fun r hm =>
      h.single r (List.mem_filter.mp hm).1
    rw [flatMap_regionPages hsingle, goneRegions, List.filter_map]
    rfl
  have hkept : ((s.regions.map Region.physBase).filter
      fun b => (s'.regions.map Region.physBase).contains b).Perm
        (s'.regions.map Region.physBase) := by
    refine (List.perm_ext_iff_of_nodup (h.bases.filter _) hr.sole.bases).mpr fun b => ?_
    rw [List.mem_filter, List.contains_iff_mem]
    exact ⟨fun hb => hb.2, fun hb => ⟨hr.bases.subset hb, hb⟩⟩
  have hsplit := List.filter_append_perm
    (fun b => (s'.regions.map Region.physBase).contains b) (s.regions.map Region.physBase)
  rw [hgone]
  generalize (s.regions.map Region.physBase).filter
    (fun b => !((s'.regions.map Region.physBase).contains b)) = gone at hsplit ⊢
  -- Both sides make the same list with the pages that the regions keep.
  refine (List.perm_append_right_iff (s'.regions.map Region.physBase)).mp ?_
  have hall : (s.freeList ++ s.regions.map Region.physBase).Perm
      (s.freeList ++ (s'.regions.map Region.physBase ++ gone)) :=
    (hsplit.symm.trans (hkept.append_right gone)).append_left _
  have hswap : (s.freeList ++ (s'.regions.map Region.physBase ++ gone)).Perm
      (s.freeList ++ gone ++ s'.regions.map Region.physBase) := by
    rw [List.append_assoc]
    exact List.perm_append_comm.append_left _
  exact hr.pages.trans (hall.trans (hswap.trans (List.perm_append_comm.append_right _)))

end Calls

/-! ## Runs -/

theorem Ipc.Sole.givePage {s : Ipc} (h : s.Sole) (page : ℕ) :
    (ShmemOp.run s (.givePage page)).Sole := by
  rw [ShmemOp.run]
  split
  next hother =>
    by_cases hz : page = 0
    · unfold Ipc.pmmFree
      rw [if_pos hz]
      exact h
    · have hnot : page ∉ s.freeList := fun hf => by
        rw [h.allocator.free page hf] at hother
        exact absurd hother (by simp)
      have hd := h.allocator.aligned page (.inr fun hn => by
        rw [hn] at hother
        exact absurd hother (by simp))
      refine h.of_regions (h.allocator.pmmFree hz hnot hd) ?_ fun r hr => ?_
      · unfold Ipc.pmmFree
        rw [if_neg hz]
        exact List.Sublist.refl _
      · unfold Ipc.pmmFree at hr ⊢
        rw [if_neg hz] at hr ⊢
        refine Function.update_of_ne (fun hb => ?_) _ _
        rw [← hb, (h.owned r hr).1] at hother
        exact absurd hother (by simp)
  · exact h

/-- A step that creates no region of more than one page. -/
theorem sole_run {s : Ipc} (h : s.Sole) {op : ShmemOp} (hop : op.SinglePage s) :
    (op.run s).Sole := by
  cases op with
  | create pageCount flags heap => exact h.create flags hop
  | attach p shmId heap tables =>
    exact Takes.sole h (takes_shmemAttachProc h.allocator p shmId heap tables)
  | detach p handle => exact (returns_detach h p handle).sole
  | cleanup p => exact (returns_cleanup h p).sole
  | takePage => exact Takes.sole h (Takes.takePages h.allocator 1)
  | givePage page => exact h.givePage page

/-- A step returns only what it may, whatever it creates. -/
theorem returnsOnly_run {s : Ipc} (h : s.Sole) (op : ShmemOp) : s.ReturnsOnly op := by
  cases op with
  | create pageCount flags heap =>
    intro page hp
    rw [ShmemOp.run] at hp
    rcases shmemCreateRegion_pages h.allocator pageCount flags heap with
      ⟨-, he⟩ | ⟨page', s₂, hp', ht, -, -, -, -, he⟩
    · rwa [he] at hp
    · rw [he] at hp
      split at hp
      · exact ht.freeList.subset hp
      · unfold Ipc.pmmFree at hp
        split at hp
        · exact ht.freeList.subset hp
        · rcases List.mem_cons.mp hp with rfl | hp
          · exact hp'
          · exact ht.freeList.subset hp
  | attach p shmId heap tables =>
    exact fun page hp =>
      (takes_shmemAttachProc h.allocator p shmId heap tables).freeList.subset hp
  | detach p handle => exact (returns_detach h p handle).gone h
  | cleanup p => exact (returns_cleanup h p).gone h
  | takePage => exact fun page hp => (Takes.takePages h.allocator 1).freeList.subset hp
  | givePage page =>
    intro page' hp
    rw [ShmemOp.run] at hp
    unfold Ipc.pmmFree at hp
    split_ifs at hp
    · exact .inl hp
    · exact (List.mem_cons.mp hp).symm
    · exact .inl hp

theorem ownedAlong_iff {s : Ipc} (h : s.Sole) (ops : List ShmemOp) :
    s.OwnedAlong ops ↔ s.SinglePages ops := by
  induction ops generalizing s with
  | nil => exact ⟨fun _ => trivial, fun _ => h.pagesOwned⟩
  | cons op ops ih =>
    rw [OwnedAlong, SinglePages]
    constructor
    · rintro ⟨-, -, hnext⟩
      have hop : op.SinglePage s := by
        by_contra hop
        have hbad : (op.run s).PagesOwned := by
          cases ops with
          | nil => exact hnext
          | cons op' ops => exact hnext.1
        cases op with
        | create pageCount flags heap => exact not_pagesOwned_create h flags hop hbad
        | attach p shmId heap tables => exact hop trivial
        | detach p handle => exact hop trivial
        | cleanup p => exact hop trivial
        | takePage => exact hop trivial
        | givePage page => exact hop trivial
      exact ⟨hop, (ih (sole_run h hop)).mp hnext⟩
    · rintro ⟨hop, hrest⟩
      exact ⟨h.pagesOwned, returnsOnly_run h op, (ih (sole_run h hop)).mpr hrest⟩

/-- At boot there is no region. -/
theorem Ipc.Sole.boot (cr3 heapVptr : Pid → ℕ) (usable : UsablePages) (phys : Bytes) :
    (Ipc.boot cr3 heapVptr usable.pages phys).Sole := by
  refine ⟨⟨usable.nodup, usable.zero_notMem, fun _ _ => rfl, fun page base hb => ?_,
    fun page hp => ?_⟩, List.nodup_nil, fun r hr => absurd hr List.not_mem_nil,
    fun r hr => absurd hr List.not_mem_nil⟩
  · exact absurd hb (by simp [Ipc.boot])
  · exact usable.aligned page (hp.resolve_right fun hn => hn rfl)

/-- Ownership of the pages of regions. In a run from the boot state all pages of all regions are owned
by their regions, and each step returns only the pages of the regions that it destroys, if and only if
no step creates a region of more than one page. -/
theorem pagesOwned_iff (cr3 heapVptr : Pid → ℕ) (usable : UsablePages) (phys : Bytes)
    (ops : List ShmemOp) :
    (boot cr3 heapVptr usable.pages phys).OwnedAlong ops ↔
      (boot cr3 heapVptr usable.pages phys).SinglePages ops :=
  ownedAlong_iff (Sole.boot cr3 heapVptr usable phys) ops

/-- Three free pages. -/
def threePages : UsablePages := ⟨[8192, 12288, 16384], by decide, by decide, by decide⟩

/-- A region of two pages owns one: the second was not taken from the allocator. -/
theorem twoPages_not_owned :
    ¬ (boot (fun _ => 4096) (fun _ => 0) threePages.pages Bytes.zeros).OwnedAlong
      [.create 2 6 ⟨true, 0⟩] := by
  rintro ⟨-, -, howned⟩
  exact absurd (howned.owned ⟨1, 8192, 2, 6, 0⟩ (by decide +kernel) 12288 (by decide))
    (by decide +kernel)

end Sandflea
