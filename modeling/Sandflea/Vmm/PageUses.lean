import Sandflea.Vmm.ProcessMemory
import Sandflea.Vmm.Translation

/-!
# What pages are used for

Every page of the machine has one use at a time: it is free, a table, a PML4, or something that the page
allocator does not look into (`PageUse`). `Uses` says that the free list, the tables and the PML4s are those
that the uses name, and every operation on pages has one rule that says which uses change: `Uses.alloc`,
`Uses.pmmFree`, `Uses.mapPage`, `Uses.unmap` and `Uses.releasePage`. A mapping takes a free page for each table on
the way that is missing, and for no other (`Grown`).
-/

namespace Sandflea

open PointerTree

/-- What a page is used for -/
inductive PageUse
  | free
  | table
  | pml4
  /-- A page of a region of a process -/
  | page
  | heap
  /-- The page of a shared region -/
  | shared
  | other
deriving DecidableEq, Repr

/-- A table below one of some PML4s -/
def IsTableOf (roots : List ℕ) (m : PhysMem) (q : ℕ) : Prop :=
  ∃ a, vmmShape.Valid a ∧ tableAt roots m a ≠ 0 ∧ ptrTable (tableAt roots m a) = q

/-- The pages are used as the memory says. -/
structure Uses (roots : List ℕ) (own : ℕ → PageUse) (m : PhysMem) (free : List ℕ) : Prop where
  tables : Tables roots free m
  count : m.pmmFreePageCount = free.length
  free_iff : ∀ q, q ∈ free ↔ own q = .free
  table_iff : ∀ q, IsTableOf roots m q ↔ own q = .table
  root_iff : ∀ q, q ∈ roots ↔ own q = .pml4

/-- A use that the page allocator and the tables do not look into -/
def PageUse.Plain (u : PageUse) : Prop := u ≠ .free ∧ u ≠ .table ∧ u ≠ .pml4

instance (u : PageUse) : Decidable u.Plain := inferInstanceAs (Decidable (_ ∧ _ ∧ _))

/-- No entry for a page changes, and nothing in the kernel half of a PML4. -/
structure Steady (roots : List ℕ) (m m' : PhysMem) : Prop where
  leaves : ∀ b, vmmShape.Leaf b → ∀ j, leafEntry roots m' b j = leafEntry roots m b j
  high : ∀ p ∈ roots, ∀ i, 256 ≤ i → m'.words p i = m.words p i
  starved : m'.starved = m.starved

/-- Free pages became tables, and nothing else changed. -/
def Retabled (own own' : ℕ → PageUse) : Prop :=
  ∀ q, own' q = own q ∨ own q = .free ∧ own' q = .table

/-- Those of some addresses where there is no table -/
def missingAt (roots : List ℕ) (m : PhysMem) (as : Finset Addr) : Finset Addr :=
  as.filter fun a => tableAt roots m a = 0

/-- The addresses of the three tables on the way to a page -/
def tableAddrs (pml4 virt : ℕ) : Finset Addr :=
  {(slotOf pml4 (pml4Index virt), [])} ∪ {(slotOf pml4 (pml4Index virt), [pdptIndex virt])} ∪
    {ptAddr pml4 virt}

/-- Free pages became the tables at some addresses, where they were missing. -/
structure Grown (roots : List ℕ) (own own' : ℕ → PageUse) (m m' : PhysMem) (free free' : List ℕ)
    (as : Finset Addr) : Prop where
  uses : Uses roots own' m' free'
  retabled : Retabled own own'
  count : free.length = free'.length + (missingAt roots m as).card
  null : ∀ a, vmmShape.Valid a → (tableAt roots m' a = 0 ↔ tableAt roots m a = 0 ∧ a ∉ as)
  keeps : ∀ a, vmmShape.Valid a → tableAt roots m a ≠ 0 → tableAt roots m' a = tableAt roots m a

/-- The entry for a page is set, and no other entry for a page. -/
def SetsPage (roots : List ℕ) (m m' : PhysMem) (pml4 virt x : ℕ) : Prop :=
  ∀ b, vmmShape.Leaf b → ∀ k, leafEntry roots m' b k =
    if b = ptAddr pml4 virt ∧ k = ptIndex virt then x else leafEntry roots m b k

section

variable {roots free : List ℕ} {m m' m'' : PhysMem} {own own' own'' : ℕ → PageUse}

theorem Steady.refl (roots : List ℕ) (m : PhysMem) : Steady roots m m :=
  ⟨fun _ _ _ => rfl, fun _ _ _ _ => rfl, rfl⟩

theorem Steady.trans (h : Steady roots m m') (h' : Steady roots m' m'') : Steady roots m m'' :=
  ⟨fun b hb j => (h'.leaves b hb j).trans (h.leaves b hb j),
    fun p hp i hi => (h'.high p hp i hi).trans (h.high p hp i hi), h'.starved.trans h.starved⟩

theorem Retabled.refl (own : ℕ → PageUse) : Retabled own own := fun _ => .inl rfl

theorem Retabled.trans (h : Retabled own own') (h' : Retabled own' own'') : Retabled own own'' := by
  intro q
  rcases h q with heq | ⟨hfree, htable⟩
  · rw [← heq]
    exact h' q
  · rcases h' q with heq | ⟨hfree', -⟩
    · exact .inr ⟨hfree, heq.trans htable⟩
    · rw [htable] at hfree'
      cases hfree'

/-- Pages of other uses are untouched. -/
theorem Retabled.of_ne (h : Retabled own own') {q : ℕ} (hfree : own q ≠ .free) : own' q = own q :=
  (h q).resolve_right fun hor => hfree hor.1

/-- Only tables are new. -/
theorem Retabled.eq_of_ne_table (h : Retabled own own') {q : ℕ} (htable : own' q ≠ .table) :
    own' q = own q :=
  (h q).resolve_right fun hor => htable hor.2

/-- The tables are the same if the pointers are. -/
theorem isTableOf_congr (hsame : ∀ a, vmmShape.Valid a → tableAt roots m' a = tableAt roots m a) (q : ℕ) :
    IsTableOf roots m' q ↔ IsTableOf roots m q := by
  constructor
  · rintro ⟨a, ha, hne, hq⟩
    rw [hsame a ha] at hne hq
    exact ⟨a, ha, hne, hq⟩
  · rintro ⟨a, ha, hne, hq⟩
    rw [← hsame a ha] at hne hq
    exact ⟨a, ha, hne, hq⟩

/-- No table is new, if the pointers are the same. -/
theorem Grown.of_same (h : Uses roots own m' free)
    (hsame : ∀ a, vmmShape.Valid a → tableAt roots m' a = tableAt roots m a) :
    Grown roots own own m m' free free ∅ where
  uses := h
  retabled := .refl own
  count := rfl
  null a ha := by
    rw [hsame a ha]
    exact ⟨fun hzero => ⟨hzero, Finset.notMem_empty a⟩, And.left⟩
  keeps a ha _ := hsame a ha

/-- The tables that two mappings need are counted once. -/
theorem Grown.missing_union {free' : List ℕ} {as bs : Finset Addr}
    (h : Grown roots own own' m m' free free' as) (hbs : ∀ b ∈ bs, vmmShape.Valid b) :
    (missingAt roots m (as ∪ bs)).card = (missingAt roots m as).card + (missingAt roots m' bs).card :=
  card_empty_union fun b hb => h.null b (hbs b hb)

theorem Grown.trans {free' free'' : List ℕ} {as bs : Finset Addr}
    (h : Grown roots own own' m m' free free' as) (h' : Grown roots own' own'' m' m'' free' free'' bs)
    (hbs : ∀ b ∈ bs, vmmShape.Valid b) : Grown roots own own'' m m'' free free'' (as ∪ bs) where
  uses := h'.uses
  retabled := h.retabled.trans h'.retabled
  count := by
    rw [h.missing_union hbs, h.count, h'.count]
    omega
  null a ha := by rw [h'.null a ha, h.null a ha, Finset.mem_union, not_or, and_assoc]
  keeps a ha hne := by
    have hkeep := h.keeps a ha hne
    exact (h'.keeps a ha (hkeep.trans_ne hne)).trans hkeep

/-- The table at one of the addresses is there. -/
theorem Grown.ne_zero {free' : List ℕ} {as : Finset Addr} (h : Grown roots own own' m m' free free' as)
    {a : Addr} (ha : vmmShape.Valid a) (hmem : a ∈ as) : tableAt roots m' a ≠ 0 := fun hzero =>
  ((h.null a ha).mp hzero).2 hmem

theorem Grown.linked {free' : List ℕ} {as : Finset Addr} (h : Grown roots own own' m m' free free' as)
    (hs : Steady roots m m') : Linked roots m m' :=
  ⟨h.keeps, hs.leaves⟩

/-- A page of a use is a page. -/
theorem Uses.isPage_of_free (h : Uses roots own m free) {q : ℕ} (hq : own q = .free) : q ≠ 0 ∧ IsPage q :=
  h.tables.freePages q ((h.free_iff q).mpr hq)

/-- A page that is in no list and no table can be written to. -/
theorem Uses.setWord (h : Uses roots own m free) {page : ℕ} (hplain : (own page).Plain) (i x : ℕ) :
    Uses roots own (m.setWord page i x) free ∧ Steady roots m (m.setWord page i x) ∧
      ∀ a, vmmShape.Valid a → tableAt roots (m.setWord page i x) a = tableAt roots m a := by
  obtain ⟨hfree, htable, hroot⟩ := hplain
  have hroots : ∀ q ∈ roots, q ≠ page := by
    rintro q hq rfl
    exact hroot ((h.root_iff q).mp hq)
  have hnodes : ∀ a, vmmShape.Valid a → tableAt roots m a ≠ 0 → ptrTable (tableAt roots m a) ≠ page :=
    fun a ha hne heq => htable ((h.table_iff page).mp ⟨a, ha, hne, heq⟩)
  have hsame : ∀ a, vmmShape.Valid a → tableAt roots (m.setWord page i x) a = tableAt roots m a :=
    fun a ha => tableAt_congr (fun q hq j => congrFun (setWord_of_ne m (hroots q hq) i x) j)
      (fun b hb _ hne j => congrFun (setWord_of_ne m (hnodes b hb hne) i x) j) ha
  refine ⟨⟨⟨h.tables.rootPages, h.tables.freePages, ?_, h.tables.nodup, h.tables.rootsUsed,
    h.tables.tree.congr hsame, fun a ha hne => ?_⟩, h.count, h.free_iff, fun q => ?_, h.root_iff⟩, ⟨?_, ?_, rfl⟩,
    hsame⟩
  · refine h.tables.chain.congr fun q hq => congrFun (setWord_of_ne m ?_ i x) 0
    rintro rfl
    exact hfree ((h.free_iff q).mp hq)
  · rw [hsame a ha] at hne ⊢
    exact h.tables.apart a ha hne
  · rw [isTableOf_congr hsame]
    exact h.table_iff q
  · intro b hb j
    unfold leafEntry
    rw [hsame b hb.1]
    split
    · rfl
    · rw [setWord_of_ne m (hnodes b hb.1 (by assumption))]
  · intro p hp j _
    rw [setWord_of_ne m (hroots p hp)]

/-- An entry of the last level is set. -/
theorem Uses.setLeaf (h : Uses roots own m free) {a : Addr} (ha : vmmShape.Leaf a)
    (hne : tableAt roots m a ≠ 0) (j x : ℕ) :
    (Grown roots own own m (m.setWord (ptrTable (tableAt roots m a)) j x) free free ∅ ∧
        ∀ p ∈ roots, ∀ i, (m.setWord (ptrTable (tableAt roots m a)) j x).words p i = m.words p i) ∧
      ∀ b, vmmShape.Leaf b → ∀ k, leafEntry roots (m.setWord (ptrTable (tableAt roots m a)) j x) b k =
        if b = a ∧ k = j then x else leafEntry roots m b k := by
  obtain ⟨htables, hentry⟩ := h.tables.setLeaf ha hne j x
  obtain ⟨hroot, -⟩ := h.tables.apart a ha.1 hne
  have hroots : ∀ q ∈ roots, q ≠ ptrTable (tableAt roots m a) := fun q hq heq => hroot (heq ▸ hq)
  -- The tables above the last level are other pages.
  have hsame : ∀ b, vmmShape.Valid b →
      tableAt roots (m.setWord (ptrTable (tableAt roots m a)) j x) b = tableAt roots m b :=
    fun b hb => h.tables.tableAt_setLeaf ha hne j x hb
  refine ⟨⟨.of_same ⟨htables, h.count, h.free_iff, fun q => ?_, h.root_iff⟩ hsame, fun p hp i => ?_⟩, hentry⟩
  · rw [isTableOf_congr hsame]
    exact h.table_iff q
  · exact congrFun (setWord_of_ne m (hroots p hp) j x) i

/-! ## The page allocator -/

/-- A page is taken for a plain use. -/
theorem Uses.alloc {p : ℕ} (h : Uses roots own m (p :: free)) {use : PageUse} (huse : use.Plain) :
    m.pmmAllocPage.1 = p ∧ Uses roots (Function.update own p use) m.pmmAllocPage.2 free ∧
      Steady roots m m.pmmAllocPage.2 ∧ m.pmmAllocPage.2.words p = (fun _ => 0) ∧
      ∀ q ≠ p, m.pmmAllocPage.2.words q = m.words q := by
  obtain ⟨hfst, htables, hsame, hblank, hwords⟩ := h.tables.alloc
  obtain ⟨hfree, htable, hroot⟩ := huse
  have hp : own p = .free := (h.free_iff p).mp List.mem_cons_self
  have hnot : p ∉ free := (List.nodup_cons.mp h.tables.nodup).1
  have hhead : m.freeListHead ≠ 0 := by
    rw [h.tables.chain.1]
    exact (h.tables.freePages p List.mem_cons_self).1
  have hcount : m.pmmAllocPage.2.pmmFreePageCount = m.pmmFreePageCount - 1 ∧
      m.pmmAllocPage.2.starved = m.starved := by
    rw [PhysMem.pmmAllocPage, if_neg hhead]
    exact ⟨rfl, rfl⟩
  refine ⟨hfst, ⟨htables, ?_, fun q => ?_, fun q => ?_, fun q => ?_⟩, ⟨?_, ?_, hcount.2⟩, hblank, hwords⟩
  · rw [hcount.1, h.count]
    rfl
  · by_cases hq : q = p
    · rw [hq, Function.update_self]
      exact ⟨fun hmem => absurd hmem hnot, fun heq => absurd heq hfree⟩
    · rw [Function.update_of_ne hq, ← h.free_iff q, List.mem_cons]
      exact ⟨.inr, fun hor => hor.resolve_left hq⟩
  · rw [isTableOf_congr hsame, h.table_iff q]
    by_cases hq : q = p
    · rw [hq, hp, Function.update_self]
      exact ⟨fun heq => PageUse.noConfusion heq, fun heq => absurd heq htable⟩
    · rw [Function.update_of_ne hq]
  · rw [h.root_iff q]
    by_cases hq : q = p
    · rw [hq, hp, Function.update_self]
      exact ⟨fun heq => PageUse.noConfusion heq, fun heq => absurd heq hroot⟩
    · rw [Function.update_of_ne hq]
  · intro b hb j
    unfold leafEntry
    rw [hsame b hb.1]
    split
    · rfl
    · rw [hwords _ fun heq => (h.tables.apart b hb.1 (by assumption)).2 (heq ▸ List.mem_cons_self)]
  · intro q hq i _
    rw [hwords q fun heq => h.tables.rootsUsed q hq (heq ▸ List.mem_cons_self)]

/-- A page of a plain use is freed. -/
theorem Uses.pmmFree (h : Uses roots own m free) {q : ℕ} (hplain : (own q).Plain) (hzero : q ≠ 0)
    (hpage : IsPage q) :
    Uses roots (Function.update own q .free) (m.pmmFree q) (q :: free) ∧ Steady roots m (m.pmmFree q) ∧
      ∀ a, vmmShape.Valid a → tableAt roots (m.pmmFree q) a = tableAt roots m a := by
  obtain ⟨hset, hsteady, hsame⟩ := h.setWord hplain 0 m.freeListHead
  obtain ⟨hfree, htable, hroot⟩ := hplain
  have hnot : q ∉ free := fun hmem => hfree ((h.free_iff q).mp hmem)
  have heq : m.pmmFree q =
      { m.setWord q 0 m.freeListHead with
        freeListHead := q
        pmmFreePageCount := m.pmmFreePageCount + 1 } := if_neg hzero
  rw [heq]
  refine ⟨⟨⟨hset.tables.rootPages, fun p hp => ?_, ⟨rfl, ?_⟩, List.nodup_cons.mpr ⟨hnot, h.tables.nodup⟩,
    fun p hp hmem => ?_, hset.tables.tree, fun a ha hne => ?_⟩, ?_, fun p => ?_, fun p => ?_, fun p => ?_⟩,
    ⟨hsteady.leaves, hsteady.high, hsteady.starved⟩, hsame⟩
  · rcases List.mem_cons.mp hp with rfl | hp
    · exact ⟨hzero, hpage⟩
    · exact h.tables.freePages p hp
  · have hlink : (m.setWord q 0 m.freeListHead).words q 0 = m.freeListHead := by
      rw [setWord_self, Function.update_self]
    show FreeChain (m.setWord q 0 m.freeListHead).words ((m.setWord q 0 m.freeListHead).words q 0) free
    rw [hlink]
    exact hset.tables.chain
  · rcases List.mem_cons.mp hmem with rfl | hmem
    · exact hroot ((h.root_iff p).mp hp)
    · exact h.tables.rootsUsed p hp hmem
  · obtain ⟨h1, h2⟩ := hset.tables.apart a ha hne
    refine ⟨h1, fun hmem => ?_⟩
    rcases List.mem_cons.mp hmem with hq | hmem
    · exact htable ((hset.table_iff q).mp ⟨a, ha, hne, hq⟩)
    · exact h2 hmem
  · show m.pmmFreePageCount + 1 = (q :: free).length
    rw [h.count, List.length_cons]
  · by_cases hp : p = q
    · rw [hp, Function.update_self]
      exact ⟨fun _ => rfl, fun _ => List.mem_cons_self⟩
    · rw [Function.update_of_ne hp, ← h.free_iff p, List.mem_cons]
      exact ⟨fun hor => hor.resolve_left hp, .inr⟩
  · by_cases hp : p = q
    · rw [hp, Function.update_self]
      exact ⟨fun ht => absurd ((hset.table_iff q).mp ht) htable, nofun⟩
    · rw [Function.update_of_ne hp]
      exact hset.table_iff p
  · by_cases hp : p = q
    · rw [hp, Function.update_self]
      exact ⟨fun hmem => absurd ((h.root_iff q).mp hmem) hroot, nofun⟩
    · rw [Function.update_of_ne hp]
      exact h.root_iff p

/-! ## Mapping -/

/-- A step down, with a free page where a table is missing -/
theorem Uses.ensureTable (h : Uses roots own m free) {a : Addr} {page i : ℕ}
    (hat : EntryAt roots m a page i) (ha : vmmShape.Valid a) (flags : ℕ)
    (hroom : (missingAt roots m {a}).card ≤ free.length ∨ (m.ensureTable page i flags).starved = false) :
    ∃ own' free', Grown roots own own' m (m.ensureTable page i flags) free free' {a} ∧
      Steady roots m (m.ensureTable page i flags) := by
  have hptr := hat.tableAt_eq h.tables.rootPages
  by_cases hpresent : Present (m.words page i)
  · have heq : m.ensureTable page i flags = m := if_pos hpresent
    have hne : tableAt roots m a ≠ 0 := by
      rw [hptr, entryPtr, if_pos hpresent]
      exact Nat.succ_ne_zero _
    have hnone : missingAt roots m {a} = ∅ := by rw [missingAt, Finset.filter_singleton, if_neg hne]
    rw [heq]
    refine ⟨own, free, ⟨h, .refl own, by rw [hnone]; rfl, fun b _ => ⟨fun hzero => ⟨hzero, fun hba => ?_⟩,
      And.left⟩, fun _ _ _ => rfl⟩, .refl roots m⟩
    exact hne (Finset.mem_singleton.mp hba ▸ hzero)
  have hnull : tableAt roots m a = 0 := by rw [hptr, entryPtr, if_neg hpresent]
  have hone : (missingAt roots m {a}).card = 1 := by
    rw [missingAt, Finset.filter_singleton, if_pos hnull, Finset.card_singleton]
  have hhead : m.freeListHead ≠ 0 := by
    intro hzero
    rcases hroom with hlen | hstarved
    · rw [hone] at hlen
      obtain ⟨p, rest, rfl⟩ := List.exists_cons_of_length_pos hlen
      exact (h.tables.freePages p List.mem_cons_self).1 (h.tables.chain.1.symm.trans hzero)
    · rw [starved_of_not_free hpresent hzero] at hstarved
      cases hstarved
  obtain ⟨free', hfree', -⟩ := h.tables.free_cons hhead
  generalize m.freeListHead = p at hfree'
  subst hfree'
  obtain ⟨htables, hl⟩ := h.tables.link hat ha hpresent flags
  generalize m.ensureTable page i flags = m₁ at htables hl
  have hp : own p = .free := (h.free_iff p).mp List.mem_cons_self
  have hnot : p ∉ free' := (List.nodup_cons.mp h.tables.nodup).1
  have hpage := (h.tables.freePages p List.mem_cons_self).2
  have hkeeps : ∀ b, vmmShape.Valid b → tableAt roots m b ≠ 0 → tableAt roots m₁ b = tableAt roots m b := by
    intro b hb hne
    rw [hl.tableAt b hb, if_neg]
    rintro rfl
    exact hne hnull
  refine ⟨Function.update own p .table, free', ⟨⟨htables, ?_, fun q => ?_, fun q => ?_, fun q => ?_⟩, fun q => ?_,
    by rw [hone, List.length_cons], fun b hb => ?_, hkeeps⟩, ⟨hl.leaves, fun q hq j hj => ?_, hl.starved⟩⟩
  · rw [hl.count, h.count]
    rfl
  · by_cases hq : q = p
    · rw [hq, Function.update_self]
      exact ⟨fun hmem => absurd hmem hnot, fun heq => PageUse.noConfusion heq⟩
    · rw [Function.update_of_ne hq, ← h.free_iff q, List.mem_cons]
      exact ⟨.inr, fun hor => hor.resolve_left hq⟩
  · by_cases hq : q = p
    · rw [hq, Function.update_self]
      refine ⟨fun _ => rfl, fun _ => ⟨a, ha, ?_, ?_⟩⟩
      · rw [hl.tableAt a ha, if_pos rfl]
        exact Nat.succ_ne_zero _
      · rw [hl.tableAt a ha, if_pos rfl, ptrTable_tablePtr hpage.1]
    · rw [Function.update_of_ne hq, ← h.table_iff q]
      constructor
      · rintro ⟨b, hb, hne, hbq⟩
        rw [hl.tableAt b hb] at hne hbq
        by_cases hba : b = a
        · rw [if_pos hba, ptrTable_tablePtr hpage.1] at hbq
          exact absurd hbq.symm hq
        · rw [if_neg hba] at hne hbq
          exact ⟨b, hb, hne, hbq⟩
      · rintro ⟨b, hb, hne, hbq⟩
        exact ⟨b, hb, (hkeeps b hb hne).trans_ne hne, by rw [hkeeps b hb hne, hbq]⟩
  · rw [h.root_iff q]
    by_cases hq : q = p
    · rw [hq, hp, Function.update_self]
      exact ⟨fun heq => PageUse.noConfusion heq, fun heq => PageUse.noConfusion heq⟩
    · rw [Function.update_of_ne hq]
  · by_cases hq : q = p
    · rw [hq, Function.update_self]
      exact .inr ⟨hp, rfl⟩
    · rw [Function.update_of_ne hq]
      exact .inl rfl
  · rw [hl.tableAt b hb, Finset.mem_singleton]
    by_cases hba : b = a
    · rw [if_pos hba]
      exact ⟨fun hzero => absurd hzero (Nat.succ_ne_zero _), fun hand => absurd hba hand.2⟩
    · rw [if_neg hba]
      exact ⟨fun hzero => ⟨hzero, hba⟩, And.left⟩
  · by_cases hqp : q = page
    · refine hl.words q hq j hqp fun hji => ?_
      -- The entry is in the user half, if it is in a PML4 at all.
      cases hat with
      | root _ hi => omega
      | below hne => exact (h.tables.apart _ ha.init hne).1 (hqp ▸ hq)
    · rw [hl.others q hq hqp]

/-- `vmm_map_page_in_pml4` turns free pages into the tables that are missing and sets the entry for the page. -/
theorem Uses.mapPage (h : Uses roots own m free) {pml4 phys virt flags : ℕ} (hroot : pml4 ∈ roots)
    (huser : pml4Index virt < 256)
    (hroom : (missingAt roots m (tableAddrs pml4 virt)).card ≤ free.length ∨
      (m.mapPageInPml4 pml4 phys virt flags).starved = false) :
    ∃ own' free', Grown roots own own' m (m.mapPageInPml4 pml4 phys virt flags) free free'
        (tableAddrs pml4 virt) ∧
      SetsPage roots m (m.mapPageInPml4 pml4 phys virt flags) pml4 virt (phys ||| flags ||| pagePresent) ∧
      (∀ p ∈ roots, ∀ i, 256 ≤ i →
        (m.mapPageInPml4 pml4 phys virt flags).words p i = m.words p i) ∧
      (m.mapPageInPml4 pml4 phys virt flags).starved = m.starved := by
  have hleaf := leaf_ptAddr (h.tables.rootPages pml4 hroot) huser
  have hroots := h.tables.rootPages
  unfold PhysMem.mapPageInPml4 at hroom ⊢
  dsimp only at hroom ⊢
  -- The table of each level is there once it is looked for, and the entry for it says where.
  have hat₀ : EntryAt roots m (slotOf pml4 (pml4Index virt), []) pml4 (pml4Index virt) := .root hroot huser
  have hvalid : vmmShape.Valid (slotOf pml4 (pml4Index virt), [pdptIndex virt] ++ [pdIndex virt]) := hleaf.1
  have hvalid₁ : vmmShape.Valid (slotOf pml4 (pml4Index virt), [] ++ [pdptIndex virt]) := hvalid.init
  have hvalid₀ : vmmShape.Valid (slotOf pml4 (pml4Index virt), []) := hvalid₁.init
  rw [List.nil_append] at hvalid₁
  have hsub₁ : ({(slotOf pml4 (pml4Index virt), [])} : Finset Addr) ∪
      {(slotOf pml4 (pml4Index virt), [pdptIndex virt])} ⊆ tableAddrs pml4 virt := Finset.subset_union_left
  have hsub₀ := Finset.subset_union_left.trans hsub₁
  have hle : ∀ {as bs : Finset Addr}, as ⊆ bs → (missingAt roots m as).card ≤ (missingAt roots m bs).card :=
    fun hsub => Finset.card_le_card (Finset.filter_subset_filter _ hsub)
  generalize hm₁ : m.ensureTable pml4 (pml4Index virt) flags = m₁ at hroom ⊢
  generalize hpdpt : entryAddr (m₁.words pml4 (pml4Index virt)) = pdpt at hroom ⊢
  generalize hm₂ : m₁.ensureTable pdpt (pdptIndex virt) flags = m₂ at hroom ⊢
  generalize hpd : entryAddr (m₂.words pdpt (pdptIndex virt)) = pd at hroom ⊢
  generalize hm₃ : m₂.ensureTable pd (pdIndex virt) flags = m₃ at hroom ⊢
  have hroom₃ : (missingAt roots m (tableAddrs pml4 virt)).card ≤ free.length ∨ m₃.starved = false := hroom
  have hroom₂ := hroom₃.imp_right fun hstarved => starved_ensureTable (hm₃ ▸ hstarved)
  have hroom₁ := hroom₂.imp_right fun hstarved => starved_ensureTable (hm₂ ▸ hstarved)
  obtain ⟨own₁, free₁, hg₁, hs₁⟩ :=
    h.ensureTable hat₀ hvalid₀ flags (hm₁ ▸ hroom₁.imp_left (hle hsub₀).trans)
  rw [hm₁] at hg₁ hs₁
  have hne₁ := hg₁.ne_zero hvalid₀ (Finset.mem_singleton_self _)
  rw [(hat₀.linked hvalid₀ (hg₁.linked hs₁)).entryAddr_eq hroots hne₁] at hpdpt
  subst hpdpt
  have hat₁ : EntryAt roots m₁ (slotOf pml4 (pml4Index virt), [] ++ [pdptIndex virt]) _ _ := .below hne₁
  rw [List.nil_append] at hat₁
  have hone : ∀ b ∈ ({(slotOf pml4 (pml4Index virt), [pdptIndex virt])} : Finset Addr), vmmShape.Valid b :=
    fun b hb => Finset.mem_singleton.mp hb ▸ hvalid₁
  obtain ⟨own₂, free₂, hg₂, hs₂⟩ := hg₁.uses.ensureTable hat₁ hvalid₁ flags (by
    rw [hm₂]
    refine hroom₂.imp_left fun hlen => ?_
    have hunion := (hle hsub₁).trans hlen
    rw [hg₁.missing_union hone, hg₁.count] at hunion
    omega)
  rw [hm₂] at hg₂ hs₂
  have hne₂ := hg₂.ne_zero hvalid₁ (Finset.mem_singleton_self _)
  rw [(hat₁.linked hvalid₁ (hg₂.linked hs₂)).entryAddr_eq hroots hne₂] at hpd
  subst hpd
  have hat₂ : EntryAt roots m₂ (slotOf pml4 (pml4Index virt), [pdptIndex virt] ++ [pdIndex virt]) _ _ :=
    .below hne₂
  have hg₁₂ := hg₁.trans hg₂ hone
  have htwo : ∀ b ∈ ({ptAddr pml4 virt} : Finset Addr), vmmShape.Valid b :=
    fun b hb => Finset.mem_singleton.mp hb ▸ hleaf.1
  obtain ⟨own₃, free₃, hg₃, hs₃⟩ := hg₂.uses.ensureTable hat₂ hvalid flags (by
    rw [hm₃]
    refine hroom₃.imp_left fun hlen => ?_
    have hunion := hg₁₂.missing_union htwo
    have hcount := hg₁₂.count
    show (missingAt roots m₂ {ptAddr pml4 virt}).card ≤ free₂.length
    unfold tableAddrs at hlen
    omega)
  rw [hm₃] at hg₃ hs₃
  have hall := (hs₁.trans hs₂).trans hs₃
  have hne₃ := hg₃.ne_zero hvalid (Finset.mem_singleton_self _)
  rw [(hat₂.linked hvalid (hg₃.linked hs₃)).entryAddr_eq hroots hne₃]
  obtain ⟨hset, hentry⟩ := hg₃.uses.setLeaf hleaf hne₃ (ptIndex virt) (phys ||| flags ||| pagePresent)
  have hg := (hg₁₂.trans hg₃ htwo).trans hset.1 fun b hb => absurd hb (Finset.notMem_empty b)
  rw [Finset.union_empty] at hg
  refine ⟨own₃, free₃, hg, fun b hb k => ?_, fun p hp i hi => ?_, ?_⟩
  · exact (hentry b hb k).trans (by rw [hall.leaves b hb k])
  · exact (hset.2 p hp i).trans (hall.high p hp i hi)
  · exact hall.starved

/-! ## Translation -/

/-- What an address translates to, when nothing is mapped. -/
theorem Steady.getPhys (h : Steady roots m m') (hroots : ∀ p ∈ roots, IsPage p) {p v : ℕ} (hp : p ∈ roots)
    (hv : pml4Index v < 256) : m'.getPhysInPml4 p v = m.getPhysInPml4 p v := by
  rw [getPhysInPml4_eq hroots hp hv, getPhysInPml4_eq hroots hp hv,
    h.leaves _ (leaf_ptAddr (hroots p hp) hv)]

/-- What an address translates to, when a page is mapped or unmapped. -/
theorem SetsPage.getPhys {pml4 virt x : ℕ} (h : SetsPage roots m m' pml4 virt x)
    (hroots : ∀ p ∈ roots, IsPage p) (hroot : pml4 ∈ roots) (huser : pml4Index virt < 256) {p v : ℕ}
    (hp : p ∈ roots) (hv : pml4Index v < 256) :
    m'.getPhysInPml4 p v =
      if p = pml4 ∧ pageOf v = pageOf virt then entryPhys x else m.getPhysInPml4 p v := by
  rw [getPhysInPml4_eq hroots hp hv, getPhysInPml4_eq hroots hp hv,
    h _ (leaf_ptAddr (hroots p hp) hv),
    if_congr (ptAddr_eq_iff (hroots p hp) (hroots pml4 hroot) hv huser) rfl rfl]
  split
  · rfl
  · rfl

/-- `vmm_unmap_page_in_pml4` clears the entry for the page. -/
theorem Uses.unmap (h : Uses roots own m free) {pml4 virt : ℕ} (hroot : pml4 ∈ roots)
    (huser : pml4Index virt < 256) :
    Uses roots own (m.unmapPageInPml4 pml4 virt) free ∧
      SetsPage roots m (m.unmapPageInPml4 pml4 virt) pml4 virt 0 ∧
      (∀ p ∈ roots, ∀ i, (m.unmapPageInPml4 pml4 virt).words p i = m.words p i) ∧
      (m.unmapPageInPml4 pml4 virt).starved = m.starved := by
  have hleaf := leaf_ptAddr (h.tables.rootPages pml4 hroot) huser
  unfold PhysMem.unmapPageInPml4
  rw [findPt_eq h.tables.rootPages hroot huser]
  by_cases hnull : tableAt roots m (ptAddr pml4 virt) = 0
  · rw [if_pos hnull]
    refine ⟨h, fun b hb k => ?_, fun _ _ _ => rfl, rfl⟩
    by_cases hbk : b = ptAddr pml4 virt ∧ k = ptIndex virt
    · rw [if_pos hbk, hbk.1, leafEntry, if_pos hnull]
    · rw [if_neg hbk]
  · rw [if_neg hnull]
    obtain ⟨hset, hentry⟩ := h.setLeaf hleaf hnull (ptIndex virt) 0
    exact ⟨hset.1.uses, hentry, hset.2, rfl⟩

/-- A page that is mapped is freed and unmapped. -/
theorem Uses.releasePage (h : Uses roots own m free) {pml4 virt : ℕ} (hroot : pml4 ∈ roots)
    (huser : pml4Index virt < 256) (hplain : (own (m.getPhysInPml4 pml4 virt)).Plain)
    (hzero : m.getPhysInPml4 pml4 virt ≠ 0) (hpage : IsPage (m.getPhysInPml4 pml4 virt)) :
    Uses roots (Function.update own (m.getPhysInPml4 pml4 virt) .free) (m.releasePage pml4 virt)
        (m.getPhysInPml4 pml4 virt :: free) ∧
      (∀ p ∈ roots, ∀ i, 256 ≤ i → (m.releasePage pml4 virt).words p i = m.words p i) ∧
      (m.releasePage pml4 virt).starved = m.starved ∧
      ∀ v, pml4Index v < 256 → pageOf v ≠ pageOf virt →
        (m.releasePage pml4 virt).getPhysInPml4 pml4 v = m.getPhysInPml4 pml4 v := by
  have hroots := h.tables.rootPages
  obtain ⟨hfree, hsteady, -⟩ := h.pmmFree hplain hzero hpage
  obtain ⟨hunmap, hset, hwords, hstarved⟩ := hfree.unmap hroot huser
  have heq : m.releasePage pml4 virt =
      (m.pmmFree (m.getPhysInPml4 pml4 virt)).unmapPageInPml4 pml4 virt := if_pos hzero
  rw [heq]
  refine ⟨hunmap, fun p hp i hi => (hwords p hp i).trans (hsteady.high p hp i hi),
    hstarved.trans hsteady.starved, fun v hv hne => ?_⟩
  rw [hset.getPhys hroots hroot huser hroot hv, if_neg fun hor => hne hor.2,
    hsteady.getPhys hroots hroot hv]

end

end Sandflea
