import Sandflea.Vmm.AddressSpaces
import Sandflea.Vmm.PageTables
import Sandflea.Lib.Runs

/-!
# The kernel half of every address space

The PML4 that a task runs on has the kernel half of the kernel process's PML4 (`kernel_half_synced`), as long
as there are free pages for the tables. The proof gives every page a level: 4 for a PML4, 3 to 1 for the
tables below it, and 0 for free pages and data. A mapping writes to the PML4 in one entry, and to
tables of lower levels, so that it changes no other PML4. Without a free page `vmm_map_page_in_pml4` takes page 0
for the table of every level, and the levels are lost (`kernel_half_unsynced`).
-/

namespace Sandflea

/-- An entry that leads to a table: one of some entries of a PML4, or any entry of a table of level 3
or 2. -/
def IsEntry (entries : Set ℕ) (pml4s : List ℕ) (level : ℕ → ℕ) (table i : ℕ) : Prop :=
  table ∈ pml4s ∧ i ∈ entries ∨ (level table = 3 ∨ level table = 2) ∧ i < 512

/-- Every page has a level, and the entries of a table lead to the level below it. -/
structure Levels (entries : Set ℕ) (pml4s : List ℕ) (level : ℕ → ℕ) (m : PhysMem) : Prop where
  pml4 : ∀ p ∈ pml4s, level p = 4
  entry : ∀ table i, IsEntry entries pml4s level table i → Present (m.words table i) →
    level (entryAddr (m.words table i)) + 1 = level table
  free : ∃ free, FreeChain m.words m.freeListHead free ∧ free.Nodup ∧
    ∀ p ∈ free, p ≠ 0 ∧ IsPage p ∧ level p = 0

/-- The state after boot: the kernel process alone, with its image and heap below entry 511. There are no
large pages below some of the entries of its PML4. -/
structure Boot (entries : Set ℕ) (s : AddressSpaces) : Prop where
  levels : ∃ level, Levels entries [s.kernelCr3] level s.mem
  kernelCr3 : s.kernelCr3 ≠ 0
  cr3s : s.cr3s = []
  current : s.current = 0
  cr3 : s.cr3 = s.kernelCr3
  image : Present (s.mem.words s.kernelCr3 511)
  imageEntry : 511 ∈ entries
  heap : kheapStartAddr ≤ s.heapEndAddr ∧ s.heapEndAddr < 2 ^ 64 ∧ pageSize ∣ s.heapEndAddr
  mmio : mmioVirtBase ≤ s.mmioVirtNext
  wc : wcVirtBase ≤ s.wcVirtNext

/-- The kernel half of the PML4 in use is that of the kernel process's PML4. -/
def AddressSpaces.Synced (s : AddressSpaces) : Prop :=
  ∀ i, 256 ≤ i → i < 512 → s.mem.words s.cr3 i = s.mem.words s.kernelCr3 i

/-- The operations that are looked at: mappings of kernel-half addresses where there are no large pages, and
of devices that end below `2 ^ 64`. -/
def SpaceOp.InKernelHalf (entries : Set ℕ) (s : AddressSpaces) : SpaceOp → Prop
  | .processCreate => True
  | .contextSwitch _ => True
  | .heapExpand _ => True
  | .mapPage _ virt _ => kernelHalf ≤ virt ∧ virt < 2 ^ 64 ∧ pml4Index virt ∈ entries
  | .mmioMap _ size => s.mmioVirtNext + AddressSpaces.pageCount size * pageSize < 2 ^ 64
  | .wcMap _ size => s.wcVirtNext + AddressSpaces.pageCount size * pageSize < 2 ^ 64

instance (entries : Set ℕ) [DecidablePred (· ∈ entries)] (s : AddressSpaces) :
    ∀ op : SpaceOp, Decidable (op.InKernelHalf entries s)
  | .processCreate => .isTrue trivial
  | .contextSwitch _ => .isTrue trivial
  | .heapExpand _ => .isTrue trivial
  | .mapPage _ virt _ =>
    inferInstanceAs (Decidable (kernelHalf ≤ virt ∧ virt < 2 ^ 64 ∧ pml4Index virt ∈ entries))
  | .mmioMap _ size =>
    inferInstanceAs (Decidable (s.mmioVirtNext + AddressSpaces.pageCount size * pageSize < 2 ^ 64))
  | .wcMap _ size =>
    inferInstanceAs (Decidable (s.wcVirtNext + AddressSpaces.pageCount size * pageSize < 2 ^ 64))

/-- What every step keeps -/
structure InSync (entries : Set ℕ) (s : AddressSpaces) : Prop where
  levels : ∃ level, Levels entries (s.kernelCr3 :: s.cr3s) level s.mem
  nonzero : ∀ p ∈ s.kernelCr3 :: s.cr3s, p ≠ 0
  running : s.cr3Of s.current = some s.cr3
  image : Present (s.mem.words s.kernelCr3 511)
  imageEntry : 511 ∈ entries
  heap : kheapStartAddr ≤ s.heapEndAddr ∧ s.heapEndAddr < 2 ^ 64
  mmio : mmioVirtBase ≤ s.mmioVirtNext
  wc : wcVirtBase ≤ s.wcVirtNext
  synced : s.Synced

/-! ## Levels -/

section

variable {entries : Set ℕ} {pml4s : List ℕ} {level : ℕ → ℕ} {m : PhysMem}

/-- A table with entries is no page of level 0, and its tables are none. -/
theorem Levels.level_entry (h : Levels entries pml4s level m) {table i : ℕ}
    (hti : IsEntry entries pml4s level table i) : 2 ≤ level table := by
  rcases hti with ⟨hmem, -⟩ | ⟨hlevel, -⟩
  · rw [h.pml4 table hmem]
    decide
  · omega

/-- A page that is taken from the list may be given any level. -/
theorem Levels.alloc (h : Levels entries pml4s level m) (hhead : m.freeListHead ≠ 0) (k : ℕ) :
    IsPage m.freeListHead ∧ level m.freeListHead = 0 ∧
      Levels entries pml4s (Function.update level m.freeListHead k) m.pmmAllocPage.2 ∧
      (∀ i, m.pmmAllocPage.2.words m.freeListHead i = 0) ∧
      ∀ q, level q ≠ 0 → m.pmmAllocPage.2.words q = m.words q := by
  obtain ⟨free, hchain, hnodup, hfree⟩ := h.free
  cases free with
  | nil => exact absurd hchain hhead
  | cons p ps =>
    obtain ⟨hp, hrest⟩ := hchain
    obtain ⟨-, hpage, hlevel⟩ := hfree p List.mem_cons_self
    rw [PhysMem.pmmAllocPage, if_neg hhead]
    rw [hp]
    have hwords : ∀ q ≠ p, Function.update m.words p (fun _ => 0) q = m.words q := fun q hq =>
      Function.update_of_ne hq _ _
    have hother : ∀ q, level q ≠ 0 → q ≠ p := by
      rintro q hq rfl
      exact hq hlevel
    refine ⟨hpage, hlevel, ⟨fun q hq => ?_, fun table i hti hpresent => ?_, ps, ?_, hnodup.of_cons,
      fun q hq => ?_⟩, fun i => ?_, fun q hq => hwords q (hother q hq)⟩
    · have hq4 := h.pml4 q hq
      rw [Function.update_of_ne (hother q (by omega)), hq4]
    · by_cases htable : table = p
      · rw [htable] at hpresent
        simp only [Function.update_self] at hpresent
        exact absurd rfl hpresent
      · rw [IsEntry, Function.update_of_ne htable] at hti
        dsimp only at hpresent ⊢
        rw [hwords table htable] at hpresent ⊢
        have hnext := h.entry table i hti hpresent
        have hge := h.level_entry hti
        rw [Function.update_of_ne htable, Function.update_of_ne (hother _ (by omega)), hnext]
    · refine hrest.congr fun q hq => ?_
      refine congrFun (hwords q ?_) 0
      rintro rfl
      exact (List.nodup_cons.mp hnodup).1 hq
    · have hqp : q ≠ p := by
        rintro rfl
        exact (List.nodup_cons.mp hnodup).1 hq
      rw [Function.update_of_ne hqp]
      exact hfree q (List.mem_cons_of_mem _ hq)
    · simp only [Function.update_self]

/-- A write to a table, of an entry that leads to the level below it where there is one -/
theorem Levels.setWord (h : Levels entries pml4s level m) {table i x : ℕ} (htable : level table ≠ 0)
    (hx : IsEntry entries pml4s level table i → Present x → level (entryAddr x) + 1 = level table) :
    Levels entries pml4s level (m.setWord table i x) := by
  obtain ⟨free, hchain, hnodup, hfree⟩ := h.free
  refine ⟨h.pml4, fun t j htj hpresent => ?_, free, ?_, hnodup, hfree⟩
  · by_cases ht : t = table
    · subst ht
      rw [setWord_self] at hpresent ⊢
      by_cases hj : j = i
      · subst hj
        rw [Function.update_self] at hpresent ⊢
        exact hx htj hpresent
      · rw [Function.update_of_ne hj] at hpresent ⊢
        exact h.entry t j htj hpresent
    · rw [setWord_of_ne m ht] at hpresent ⊢
      exact h.entry t j htj hpresent
  · refine hchain.congr fun q hq => congrFun (setWord_of_ne m ?_ i x) 0
    rintro rfl
    exact htable (hfree _ hq).2.2

/-- A step down: the table is there afterwards, and no other entry has changed. -/
theorem Levels.ensureTable (h : Levels entries pml4s level m) {table i flags : ℕ}
    (hti : IsEntry entries pml4s level table i)
    (hmem : (m.ensureTable table i flags).starved = false) :
    ∃ level', Levels entries pml4s level' (m.ensureTable table i flags) ∧
      (∀ q, level q ≠ 0 → level' q = level q) ∧
      Present ((m.ensureTable table i flags).words table i) ∧
      (Present (m.words table i) → m.ensureTable table i flags = m) ∧
      ∀ q, level q ≠ 0 → ∀ j, ¬ (q = table ∧ j = i) →
        (m.ensureTable table i flags).words q j = m.words q j := by
  have hge := h.level_entry hti
  by_cases hpresent : Present (m.words table i)
  · have heq : m.ensureTable table i flags = m := if_pos hpresent
    rw [heq]
    exact ⟨level, h, fun _ _ => rfl, hpresent, fun _ => rfl, fun _ _ _ _ => rfl⟩
  · have hhead : m.freeListHead ≠ 0 := by
      intro hzero
      rw [starved_of_not_free hpresent hzero] at hmem
      cases hmem
    obtain ⟨hpage, hlevel, hlevels, -, hwords⟩ := h.alloc hhead (level table - 1)
    have hother : ∀ q, level q ≠ 0 → q ≠ m.freeListHead := by
      rintro q hq rfl
      exact hq hlevel
    have hfst : m.pmmAllocPage.1 = m.freeListHead := by rw [PhysMem.pmmAllocPage, if_neg hhead]
    rw [ensureTable_of_free hpresent hhead flags, hfst]
    have htable : Function.update level m.freeListHead (level table - 1) table = level table :=
      Function.update_of_ne (hother table (by omega)) _ _
    refine ⟨Function.update level m.freeListHead (level table - 1),
      hlevels.setWord (by omega) fun _ _ => ?_,
      fun q hq => Function.update_of_ne (hother q hq) _ _, ?_, fun hp => absurd hp hpresent,
      fun q hq j hqj => ?_⟩
    · rw [entryAddr_table hpage.1 hpage.2, Function.update_self, htable]
      omega
    · rw [setWord_self, Function.update_self]
      exact present_table _ _
    · by_cases hqt : q = table
      · have hji : j ≠ i := fun hj => hqj ⟨hqt, hj⟩
        rw [hqt, setWord_self, Function.update_of_ne hji, hwords table (by omega)]
      · rw [setWord_of_ne _ hqt, hwords q hq]

/-- A mapping makes one entry of its PML4, if it is not there, and changes nothing else in any PML4. -/
theorem Levels.map (h : Levels entries pml4s level m) {pml4 phys virt flags : ℕ} (hpml4 : pml4 ∈ pml4s)
    (hvirt : pml4Index virt ∈ entries)
    (hmem : (m.mapPageInPml4 pml4 phys virt flags).starved = false) :
    (∃ level', Levels entries pml4s level' (m.mapPageInPml4 pml4 phys virt flags)) ∧
      (∀ q ∈ pml4s, ∀ j, ¬ (q = pml4 ∧ j = pml4Index virt) →
        (m.mapPageInPml4 pml4 phys virt flags).words q j = m.words q j) ∧
      Present ((m.mapPageInPml4 pml4 phys virt flags).words pml4 (pml4Index virt)) ∧
      (Present (m.words pml4 (pml4Index virt)) →
        (m.mapPageInPml4 pml4 phys virt flags).words pml4 (pml4Index virt) =
          m.words pml4 (pml4Index virt)) := by
  unfold PhysMem.mapPageInPml4 at hmem ⊢
  dsimp only at hmem ⊢
  generalize hm₁ : m.ensureTable pml4 (pml4Index virt) flags = m₁ at hmem ⊢
  generalize hpdpt : entryAddr (m₁.words pml4 (pml4Index virt)) = pdpt at hmem ⊢
  generalize hm₂ : m₁.ensureTable pdpt (pdptIndex virt) flags = m₂ at hmem ⊢
  generalize hpd : entryAddr (m₂.words pdpt (pdptIndex virt)) = pd at hmem ⊢
  generalize hm₃ : m₂.ensureTable pd (pdIndex virt) flags = m₃ at hmem ⊢
  generalize hpt : entryAddr (m₃.words pd (pdIndex virt)) = pt
  have hmem₃ : m₃.starved = false := hmem
  have hmem₂ : m₂.starved = false := starved_ensureTable (hm₃ ▸ hmem₃)
  have hmem₁ : m₁.starved = false := starved_ensureTable (hm₂ ▸ hmem₂)
  -- The table of each level, once it is there, has the level below.
  have hentry : IsEntry entries pml4s level pml4 (pml4Index virt) := .inl ⟨hpml4, hvirt⟩
  obtain ⟨level₁, h₁, hkeep₁, hpresent₁, hsame₁, hwords₁⟩ := h.ensureTable hentry (hm₁ ▸ hmem₁)
  rw [hm₁] at h₁ hpresent₁ hsame₁ hwords₁
  have hpdptLevel : level₁ pdpt = 3 := by
    have := h₁.entry pml4 (pml4Index virt) (.inl ⟨hpml4, hvirt⟩) hpresent₁
    rw [hpdpt, h₁.pml4 pml4 hpml4] at this
    omega
  have hentry₁ : IsEntry entries pml4s level₁ pdpt (pdptIndex virt) :=
    .inr ⟨.inl hpdptLevel, Nat.mod_lt _ (by decide)⟩
  obtain ⟨level₂, h₂, hkeep₂, hpresent₂, -, hwords₂⟩ := h₁.ensureTable hentry₁ (hm₂ ▸ hmem₂)
  rw [hm₂] at h₂ hpresent₂ hwords₂
  have hpdptLevel₂ : level₂ pdpt = 3 := by rw [hkeep₂ pdpt (by omega), hpdptLevel]
  have hpdLevel : level₂ pd = 2 := by
    have := h₂.entry pdpt (pdptIndex virt) (.inr ⟨.inl hpdptLevel₂, Nat.mod_lt _ (by decide)⟩) hpresent₂
    rw [hpd] at this
    omega
  have hentry₂ : IsEntry entries pml4s level₂ pd (pdIndex virt) :=
    .inr ⟨.inr hpdLevel, Nat.mod_lt _ (by decide)⟩
  obtain ⟨level₃, h₃, hkeep₃, hpresent₃, -, hwords₃⟩ := h₂.ensureTable hentry₂ (hm₃ ▸ hmem₃)
  rw [hm₃] at h₃ hpresent₃ hwords₃
  have hpdLevel₃ : level₃ pd = 2 := by rw [hkeep₃ pd (by omega), hpdLevel]
  have hptLevel : level₃ pt = 1 := by
    have := h₃.entry pd (pdIndex virt) (.inr ⟨.inr hpdLevel₃, Nat.mod_lt _ (by decide)⟩) hpresent₃
    rw [hpt] at this
    omega
  -- The tables below a PML4 are no PML4s.
  have hframe : ∀ q ∈ pml4s, ∀ j,
      (m₃.setWord pt (ptIndex virt) (phys ||| flags ||| pagePresent)).words q j = m₁.words q j := by
    intro q hq j
    have h4₁ := h₁.pml4 q hq
    have h4₂ := h₂.pml4 q hq
    have h4₃ := h₃.pml4 q hq
    have hqpt : q ≠ pt := by
      rintro rfl
      omega
    have hqpd : ¬ (q = pd ∧ j = pdIndex virt) := by
      rintro ⟨rfl, -⟩
      omega
    have hqpdpt : ¬ (q = pdpt ∧ j = pdptIndex virt) := by
      rintro ⟨rfl, -⟩
      omega
    rw [setWord_of_ne m₃ hqpt, hwords₃ q (by omega) j hqpd, hwords₂ q (by omega) j hqpdpt]
  refine ⟨⟨level₃, h₃.setWord (by omega) fun hpti _ => ?_⟩, fun q hq j hqj => ?_, ?_, fun hp => ?_⟩
  · have := h₃.level_entry hpti
    omega
  · have h4 := h.pml4 q hq
    rw [hframe q hq j, hwords₁ q (by omega) j hqj]
  · rw [hframe pml4 hpml4]
    exact hpresent₁
  · rw [hframe pml4 hpml4, hsame₁ hp]

/-- A copy of the kernel half of one PML4 to another -/
theorem Levels.copyKernelHalf (h : Levels entries pml4s level m) {src dst : ℕ} (hsrc : src ∈ pml4s)
    (hdst : dst ∈ pml4s) : Levels entries pml4s level (m.copyKernelHalf src dst) := by
  obtain ⟨free, hchain, hnodup, hfree⟩ := h.free
  have hsrc4 := h.pml4 src hsrc
  have hdst4 := h.pml4 dst hdst
  refine ⟨h.pml4, fun t j htj hpresent => ?_, free, ?_, hnodup, hfree⟩
  · unfold PhysMem.copyKernelHalf at hpresent ⊢
    dsimp only at hpresent ⊢
    by_cases ht : t = dst
    · subst ht
      have hj : j ∈ entries := by
        rcases htj with htj | htj
        · exact htj.2
        · omega
      rw [Function.update_self] at hpresent ⊢
      by_cases hlow : j < 256
      · rw [if_pos hlow] at hpresent ⊢
        exact h.entry t j htj hpresent
      · rw [if_neg hlow] at hpresent ⊢
        rw [hdst4, ← hsrc4]
        exact h.entry src j (.inl ⟨hsrc, hj⟩) hpresent
    · rw [Function.update_of_ne ht] at hpresent ⊢
      exact h.entry t j htj hpresent
  · refine hchain.congr fun q hq => congrFun (Function.update_of_ne ?_ _ _) 0
    rintro rfl
    have := (hfree _ hq).2.2
    omega

/-- A blank page as a PML4 -/
theorem Levels.addPml4 (h : Levels entries pml4s level m) {p : ℕ} (hp : level p = 4)
    (hblank : ∀ i, m.words p i = 0) : Levels entries (pml4s ++ [p]) level m := by
  refine ⟨fun q hq => ?_, fun t i hti hpresent => ?_, h.free⟩
  · rcases List.mem_append.mp hq with hq | hq
    · exact h.pml4 q hq
    · rw [List.mem_singleton.mp hq, hp]
  · rcases hti with ⟨ht, hi⟩ | hti
    · rcases List.mem_append.mp ht with ht | ht
      · exact h.entry t i (.inl ⟨ht, hi⟩) hpresent
      · rw [List.mem_singleton.mp ht, hblank i] at hpresent
        exact absurd rfl hpresent
    · exact h.entry t i (.inr hti) hpresent

end

/-! ## Operations -/

section

variable {entries : Set ℕ} {s : AddressSpaces}

/-- The PML4 in use is one of the PML4s. -/
theorem InSync.cr3_mem (h : InSync entries s) : s.cr3 ∈ s.kernelCr3 :: s.cr3s :=
  List.mem_of_getElem? h.running

/-- The devices and the heap are below the last entry. -/
theorem pml4Index_high {virt : ℕ} (hge : 0xFFFFFF8000000000 ≤ virt) (hlt : virt < 2 ^ 64) :
    pml4Index virt = 511 := by
  unfold pml4Index
  omega

/-- `pmm_alloc_page` for a page of the heap -/
theorem InSync.allocPage (h : InSync entries s) (hhead : s.mem.freeListHead ≠ 0) :
    InSync entries { s with mem := s.mem.pmmAllocPage.2 } := by
  obtain ⟨level, hlevels⟩ := h.levels
  obtain ⟨-, -, hlevels', -, hwords⟩ := hlevels.alloc hhead 0
  have hsame : ∀ p ∈ s.kernelCr3 :: s.cr3s, s.mem.pmmAllocPage.2.words p = s.mem.words p := by
    intro p hp
    have := hlevels.pml4 p hp
    exact hwords p (by omega)
  refine ⟨⟨_, hlevels'⟩, h.nonzero, h.running, ?_, h.imageEntry, h.heap, h.mmio, h.wc, fun i hge hlt => ?_⟩
  · show Present (s.mem.pmmAllocPage.2.words s.kernelCr3 511)
    rw [hsame _ List.mem_cons_self]
    exact h.image
  · show s.mem.pmmAllocPage.2.words s.cr3 i = s.mem.pmmAllocPage.2.words s.kernelCr3 i
    rw [hsame _ h.cr3_mem, hsame _ List.mem_cons_self]
    exact h.synced i hge hlt

/-- A mapping in the kernel process's PML4 below the last entry -/
theorem InSync.mapImage (h : InSync entries s) {phys virt flags : ℕ} (hvirt : pml4Index virt = 511)
    (hmem : (s.mem.mapPageInPml4 s.kernelCr3 phys virt flags).starved = false) :
    InSync entries { s with mem := s.mem.mapPageInPml4 s.kernelCr3 phys virt flags } := by
  obtain ⟨level, hlevels⟩ := h.levels
  obtain ⟨hlevels', hother, -, hkept⟩ :=
    hlevels.map List.mem_cons_self (hvirt ▸ h.imageEntry) hmem
  have hsame : ∀ q ∈ s.kernelCr3 :: s.cr3s, ∀ j,
      (s.mem.mapPageInPml4 s.kernelCr3 phys virt flags).words q j = s.mem.words q j := by
    intro q hq j
    by_cases hqj : q = s.kernelCr3 ∧ j = pml4Index virt
    · rw [hqj.1, hqj.2]
      exact hkept (hvirt ▸ h.image)
    · exact hother q hq j hqj
  refine ⟨hlevels', h.nonzero, h.running, ?_, h.imageEntry, h.heap, h.mmio, h.wc, fun i hge hlt => ?_⟩
  · show Present ((s.mem.mapPageInPml4 s.kernelCr3 phys virt flags).words s.kernelCr3 511)
    rw [hsame _ List.mem_cons_self]
    exact h.image
  · show (s.mem.mapPageInPml4 s.kernelCr3 phys virt flags).words s.cr3 i =
      (s.mem.mapPageInPml4 s.kernelCr3 phys virt flags).words s.kernelCr3 i
    rw [hsame _ h.cr3_mem, hsame _ List.mem_cons_self]
    exact h.synced i hge hlt

/-- `process_create` -/
theorem InSync.processCreate (h : InSync entries s) : InSync entries s.processCreate := by
  unfold AddressSpaces.processCreate
  by_cases hhead : s.mem.freeListHead = 0
  · have halloc : s.mem.pmmAllocPage = (0, s.mem) := if_pos hhead
    rw [halloc]
    exact h
  · have hfst : s.mem.pmmAllocPage.1 = s.mem.freeListHead := by
      rw [PhysMem.pmmAllocPage, if_neg hhead]
    dsimp only
    rw [hfst, if_neg hhead]
    obtain ⟨level, hlevels⟩ := h.levels
    obtain ⟨-, hlevel, hlevels', hblank, hwords⟩ := hlevels.alloc hhead 4
    have hadd := hlevels'.addPml4 (Function.update_self _ _ _) hblank
    have hsrc : s.kernelCr3 ∈ s.kernelCr3 :: s.cr3s ++ [s.mem.freeListHead] :=
      List.mem_append_left _ List.mem_cons_self
    have hcopy := hadd.copyKernelHalf hsrc (List.mem_append_right _ (List.mem_singleton_self _))
    have hsame : ∀ p ∈ s.kernelCr3 :: s.cr3s,
        (s.mem.pmmAllocPage.2.copyKernelHalf s.kernelCr3 s.mem.freeListHead).words p =
          s.mem.words p := by
      intro p hp
      have h4 := hlevels.pml4 p hp
      have hne : p ≠ s.mem.freeListHead := by
        rintro rfl
        omega
      rw [PhysMem.copyKernelHalf]
      dsimp only
      rw [Function.update_of_ne hne, hwords p (by omega)]
    refine ⟨⟨_, hcopy⟩, fun p hp => ?_, ?_, ?_, h.imageEntry, h.heap, h.mmio, h.wc, fun i hge hlt => ?_⟩
    · rcases List.mem_append.mp (show p ∈ (s.kernelCr3 :: s.cr3s) ++ [s.mem.freeListHead] from hp)
        with hp | hp
      · exact h.nonzero p hp
      · rw [List.mem_singleton.mp hp]
        exact hhead
    · have hrunning : (s.kernelCr3 :: s.cr3s)[s.current]? = some s.cr3 := h.running
      show ((s.kernelCr3 :: s.cr3s) ++ [s.mem.freeListHead])[s.current]? = some s.cr3
      obtain ⟨hlt, hget⟩ := List.getElem?_eq_some_iff.mp hrunning
      rw [List.getElem?_append_left hlt, hrunning]
    · show Present
        ((s.mem.pmmAllocPage.2.copyKernelHalf s.kernelCr3 s.mem.freeListHead).words s.kernelCr3 511)
      rw [hsame _ List.mem_cons_self]
      exact h.image
    · show (s.mem.pmmAllocPage.2.copyKernelHalf s.kernelCr3 s.mem.freeListHead).words s.cr3 i =
        (s.mem.pmmAllocPage.2.copyKernelHalf s.kernelCr3 s.mem.freeListHead).words s.kernelCr3 i
      rw [hsame _ h.cr3_mem, hsame _ List.mem_cons_self]
      exact h.synced i hge hlt

/-- The kernel half of a PML4 after it was copied to one -/
theorem copyKernelHalf_synced (m : PhysMem) (src dst : ℕ) {i : ℕ} (hge : 256 ≤ i) :
    (m.copyKernelHalf src dst).words dst i = (m.copyKernelHalf src dst).words src i := by
  unfold PhysMem.copyKernelHalf
  dsimp only
  by_cases h : src = dst
  · rw [h]
  · rw [Function.update_self, Function.update_of_ne h, if_neg (by omega)]

/-- A switch to a process -/
theorem InSync.contextSwitch (h : InSync entries s) (next : ℕ) : InSync entries (s.contextSwitch next) := by
  unfold AddressSpaces.contextSwitch
  cases hcr3 : s.cr3Of next with
  | none => exact h
  | some cr3 =>
    have hmem : cr3 ∈ s.kernelCr3 :: s.cr3s := List.mem_of_getElem? hcr3
    have hzero := h.nonzero cr3 hmem
    dsimp only
    -- After the copy, the kernel half of the next PML4 is the kernel's.
    have hsync : (∃ level, Levels entries (s.kernelCr3 :: s.cr3s) level (s.schedSyncKernelPml4 cr3).mem) ∧
        (∀ j, (s.schedSyncKernelPml4 cr3).mem.words s.kernelCr3 j = s.mem.words s.kernelCr3 j) ∧
        ∀ j, 256 ≤ j → (s.schedSyncKernelPml4 cr3).mem.words cr3 j =
          (s.schedSyncKernelPml4 cr3).mem.words s.kernelCr3 j := by
      unfold AddressSpaces.schedSyncKernelPml4
      by_cases hk : cr3 = s.kernelCr3
      · rw [if_neg fun hn => hn.2 hk, hk]
        exact ⟨h.levels, fun _ => rfl, fun _ _ => rfl⟩
      · rw [if_pos ⟨hzero, hk⟩]
        obtain ⟨level, hlevels⟩ := h.levels
        refine ⟨⟨level, hlevels.copyKernelHalf List.mem_cons_self hmem⟩, fun j => ?_,
          fun j hj => copyKernelHalf_synced _ _ _ hj⟩
        exact congrFun (Function.update_of_ne (Ne.symm hk) _ _) j
    have hfields : (s.schedSyncKernelPml4 cr3) = { s with mem := (s.schedSyncKernelPml4 cr3).mem } := by
      unfold AddressSpaces.schedSyncKernelPml4
      split <;> rfl
    rw [hfields]
    generalize (s.schedSyncKernelPml4 cr3).mem = m at hsync ⊢
    obtain ⟨hlevels, hkernel, hcopied⟩ := hsync
    have himage : Present (m.words s.kernelCr3 511) := by
      rw [hkernel]
      exact h.image
    unfold AddressSpaces.taskSwitch
    by_cases hnext : next = s.current
    · have hcr3' : cr3 = s.cr3 := by
        rw [hnext, h.running] at hcr3
        exact (Option.some.inj hcr3).symm
      rw [if_pos (.inl hnext)]
      refine ⟨hlevels, h.nonzero, ?_, himage, h.imageEntry, h.heap, h.mmio, h.wc, fun i hge _ => ?_⟩
      · rw [← hcr3']
        exact hcr3
      · show m.words s.cr3 i = m.words s.kernelCr3 i
        rw [← hcr3']
        exact hcopied i hge
    · rw [if_neg (not_or.mpr ⟨hnext, hzero⟩)]
      exact ⟨hlevels, h.nonzero, hcr3, himage, h.imageEntry, h.heap, h.mmio, h.wc,
        fun i hge _ => hcopied i hge⟩

/-- `vmm_map_page` of an address of the kernel half -/
theorem InSync.mapPage (h : InSync entries s) {phys virt flags : ℕ} (hvirt : kernelHalf ≤ virt)
    (hentry : pml4Index virt ∈ entries)
    (hmem : (s.mapPage phys virt flags).mem.starved = false) :
    InSync entries (s.mapPage phys virt flags) := by
  obtain ⟨level, hlevels⟩ := h.levels
  unfold AddressSpaces.mapPage at hmem ⊢
  rw [if_pos hvirt] at hmem ⊢
  dsimp only at hmem ⊢
  have hstarved : (s.mem.mapPageInPml4 s.kernelCr3 phys virt flags).starved = false := by
    split at hmem
    · exact hmem
    · exact hmem
  obtain ⟨⟨level', hlevels'⟩, hother, hpresent, -⟩ := hlevels.map List.mem_cons_self hentry hstarved
  generalize s.mem.mapPageInPml4 s.kernelCr3 phys virt flags = m at hlevels' hother hpresent ⊢
  have himage : Present (m.words s.kernelCr3 511) := by
    by_cases hlast : pml4Index virt = 511
    · rw [← hlast]
      exact hpresent
    · rw [hother _ List.mem_cons_self _ fun hj => hlast hj.2.symm]
      exact h.image
  by_cases hcr3 : s.kernelCr3 = s.cr3
  · rw [if_neg (not_not.mpr hcr3)]
    exact ⟨⟨level', hlevels'⟩, h.nonzero, h.running, himage, h.imageEntry, h.heap, h.mmio, h.wc,
      fun i _ _ => by rw [← hcr3]⟩
  · rw [if_pos hcr3]
    have h4 := hlevels'.pml4 s.cr3 h.cr3_mem
    refine ⟨⟨level', hlevels'.setWord (by omega) fun hti hp => ?_⟩, h.nonzero, h.running, ?_, h.imageEntry,
      h.heap, h.mmio, h.wc, fun i hge hlt => ?_⟩
    · rw [h4, hlevels'.entry _ _ (.inl ⟨List.mem_cons_self, hentry⟩) hp,
        hlevels'.pml4 _ List.mem_cons_self]
    · rw [setWord_of_ne m hcr3]
      exact himage
    · show (m.setWord s.cr3 (pml4Index virt) (m.words s.kernelCr3 (pml4Index virt))).words s.cr3 i =
        (m.setWord s.cr3 (pml4Index virt) (m.words s.kernelCr3 (pml4Index virt))).words s.kernelCr3 i
      rw [setWord_of_ne m hcr3, setWord_self]
      by_cases hi : i = pml4Index virt
      · rw [hi, Function.update_self]
      · rw [Function.update_of_ne hi, hother _ h.cr3_mem _ fun hj => hi hj.2,
          hother _ List.mem_cons_self _ fun hj => hi hj.2]
        exact h.synced i hge hlt

/-- Once a table could not be had, this stays noted. -/
theorem starved_mapPageInPml4 {m : PhysMem} {pml4 phys virt flags : ℕ}
    (h : (m.mapPageInPml4 pml4 phys virt flags).starved = false) : m.starved = false :=
  starved_ensureTable (starved_ensureTable (starved_ensureTable h))

theorem starved_mapPage {phys virt flags : ℕ} (h : (s.mapPage phys virt flags).mem.starved = false) :
    s.mem.starved = false := by
  unfold AddressSpaces.mapPage at h
  split at h
  · refine @starved_mapPageInPml4 _ s.kernelCr3 phys virt flags ?_
    dsimp only at h
    split at h
    · exact h
    · exact h
  · exact starved_mapPageInPml4 h

theorem starved_pmmAllocPage (m : PhysMem) : m.pmmAllocPage.2.starved = m.starved := by
  unfold PhysMem.pmmAllocPage
  split <;> rfl

theorem starved_expandPages {n : ℕ} (h : (s.expandPages n).2.mem.starved = false) :
    s.mem.starved = false := by
  induction n generalizing s with
  | zero => exact h
  | succ n ih =>
    unfold AddressSpaces.expandPages at h
    dsimp only at h
    rw [← starved_pmmAllocPage]
    split at h
    · exact h
    · exact starved_mapPageInPml4 (ih h)

/-- The loop of `heap_expand`, as long as the pages end below `2 ^ 64` -/
theorem InSync.expandPages (h : InSync entries s) {n : ℕ}
    (hend : s.heapEndAddr + n * pageSize < 2 ^ 64)
    (hmem : (s.expandPages n).2.mem.starved = false) : InSync entries (s.expandPages n).2 := by
  induction n generalizing s with
  | zero => exact h
  | succ n ih =>
    unfold AddressSpaces.expandPages at hmem ⊢
    dsimp only at hmem ⊢
    by_cases hhead : s.mem.freeListHead = 0
    · have halloc : s.mem.pmmAllocPage = (0, s.mem) := if_pos hhead
      rw [halloc, if_pos rfl]
      exact h
    · have hfst : s.mem.pmmAllocPage.1 = s.mem.freeListHead := by
        rw [PhysMem.pmmAllocPage, if_neg hhead]
      rw [hfst, if_neg hhead] at hmem ⊢
      have hnext : u64 (s.heapEndAddr + pageSize) = s.heapEndAddr + pageSize := by
        unfold u64
        rw [Nat.mod_eq_of_lt]
        rw [Nat.succ_mul] at hend
        omega
      rw [hnext] at hmem ⊢
      have hvirt : pml4Index s.heapEndAddr = 511 :=
        pml4Index_high (le_trans (by decide) h.heap.1) h.heap.2
      have hmap := (h.allocPage hhead).mapImage hvirt (starved_expandPages hmem)
      refine ih ⟨hmap.levels, hmap.nonzero, hmap.running, hmap.image, hmap.imageEntry, ?_, hmap.mmio, hmap.wc,
        hmap.synced⟩ ?_ hmem
      · have := h.heap
        rw [Nat.succ_mul] at hend
        exact ⟨by simp only; omega, by simp only; omega⟩
      · simp only
        rw [Nat.succ_mul] at hend
        omega

/-- `heap_expand` -/
theorem InSync.heapExpand (h : InSync entries s) {needed : ℕ}
    (hmem : (s.heapExpand needed).mem.starved = false) : InSync entries (s.heapExpand needed) := by
  have htarget : s.targetEnd needed < 2 ^ 64 := by
    have hu : ∀ n, u64 n < 2 ^ 64 := fun n => Nat.mod_lt _ (by decide)
    unfold AddressSpaces.targetEnd
    dsimp only
    split
    · exact hu _
    · exact hu _
  have hend : s.heapEndAddr + (s.targetEnd needed - s.heapEndAddr) / pageSize * pageSize < 2 ^ 64 := by
    have hdiv := Nat.div_mul_le_self (s.targetEnd needed - s.heapEndAddr) pageSize
    have := h.heap.2
    omega
  have hpages := h.expandPages hend
  unfold AddressSpaces.heapExpand at hmem ⊢
  generalize s.expandPages ((s.targetEnd needed - s.heapEndAddr) / pageSize) = r at hmem hpages ⊢
  obtain ⟨done, s'⟩ := r
  cases done with
  | false => exact hpages hmem
  | true =>
    dsimp only at hmem hpages ⊢
    by_cases hcr3 : s'.kernelCr3 = s'.cr3
    · rw [if_neg (not_not.mpr hcr3)] at hmem ⊢
      exact hpages hmem
    · rw [if_pos hcr3] at hmem ⊢
      -- The entry that is copied is the one that is there.
      have hsync := hpages hmem
      have hsame : s'.mem.setWord s'.cr3 511 (s'.mem.words s'.kernelCr3 511) = s'.mem := by
        rw [← hsync.synced 511 (by decide) (by decide)]
        unfold PhysMem.setWord
        rw [Function.update_eq_self, Function.update_eq_self]
      rw [hsame]
      exact hsync

/-- The mapping of a device at addresses of the last entry -/
theorem InSync.mapPages (h : InSync entries s) {phys virt flags n : ℕ}
    (hvirt : mmioVirtBase ≤ virt) (hend : virt + n * pageSize < 2 ^ 64)
    (hmem : (s.mapPages phys virt flags n).mem.starved = false) :
    InSync entries (s.mapPages phys virt flags n) := by
  induction n with
  | zero => exact h
  | succ n ih =>
    rw [Nat.succ_mul] at hend
    have hprev := ih (by omega) (starved_mapPage hmem)
    have haddr : u64 (virt + n * pageSize) = virt + n * pageSize := Nat.mod_eq_of_lt (by omega)
    unfold AddressSpaces.mapPages at hmem ⊢
    rw [haddr] at hmem ⊢
    have hbase : 0xFFFFFF8000000000 ≤ mmioVirtBase := by decide
    have hhalf : kernelHalf ≤ mmioVirtBase := by decide
    refine hprev.mapPage (by omega) ?_ hmem
    rw [pml4Index_high (by omega) (by omega)]
    exact h.imageEntry

/-- A mapping leaves the next addresses for devices. -/
theorem virtNext_mapPages (s : AddressSpaces) (phys virt flags n : ℕ) :
    (s.mapPages phys virt flags n).mmioVirtNext = s.mmioVirtNext ∧
      (s.mapPages phys virt flags n).wcVirtNext = s.wcVirtNext := by
  induction n with
  | zero => exact ⟨rfl, rfl⟩
  | succ n ih =>
    unfold AddressSpaces.mapPages AddressSpaces.mapPage
    split <;> exact ih

/-- Every operation keeps the kernel half, unless a table cannot be had. -/
theorem InSync.step (h : InSync entries s) {op : SpaceOp} (hop : op.InKernelHalf entries s)
    (hmem : (s.step op).mem.starved = false) : InSync entries (s.step op) := by
  cases op with
  | processCreate => exact h.processCreate
  | contextSwitch next => exact h.contextSwitch next
  | heapExpand needed => exact h.heapExpand hmem
  | mapPage phys virt flags => exact h.mapPage hop.1 hop.2.2 hmem
  | mmioMap phys size =>
    have hop : s.mmioVirtNext + AddressSpaces.pageCount size * pageSize < 2 ^ 64 := hop
    unfold AddressSpaces.step AddressSpaces.mmioMapPhys at hmem ⊢
    dsimp only at hmem ⊢
    by_cases hguard : kheapStartAddr ≤ u64 (s.mmioVirtNext + AddressSpaces.pageCount size * pageSize)
    · rw [if_pos hguard]
      exact h
    · rw [if_neg hguard] at hmem ⊢
      have hpages := h.mapPages h.mmio hop hmem
      refine ⟨hpages.levels, hpages.nonzero, hpages.running, hpages.image, hpages.imageEntry, hpages.heap, ?_,
        hpages.wc, hpages.synced⟩
      have hnext : u64 (s.mmioVirtNext + AddressSpaces.pageCount size * pageSize) =
          s.mmioVirtNext + AddressSpaces.pageCount size * pageSize := Nat.mod_eq_of_lt hop
      show mmioVirtBase ≤ u64 (s.mmioVirtNext + AddressSpaces.pageCount size * pageSize)
      rw [hnext]
      exact le_trans h.mmio (Nat.le_add_right _ _)
  | wcMap phys size =>
    have hop : s.wcVirtNext + AddressSpaces.pageCount size * pageSize < 2 ^ 64 := hop
    unfold AddressSpaces.step AddressSpaces.wcMapPhys at hmem ⊢
    dsimp only at hmem ⊢
    by_cases hguard : kheapStartAddr ≤ u64 (s.wcVirtNext + AddressSpaces.pageCount size * pageSize)
    · rw [if_pos hguard]
      exact h
    · rw [if_neg hguard] at hmem ⊢
      have hbase : mmioVirtBase ≤ wcVirtBase := by decide
      have hpages := h.mapPages (le_trans hbase h.wc) hop hmem
      refine ⟨hpages.levels, hpages.nonzero, hpages.running, hpages.image, hpages.imageEntry, hpages.heap,
        hpages.mmio, ?_, hpages.synced⟩
      have hnext : u64 (s.wcVirtNext + AddressSpaces.pageCount size * pageSize) =
          s.wcVirtNext + AddressSpaces.pageCount size * pageSize := Nat.mod_eq_of_lt hop
      show wcVirtBase ≤ u64 (s.wcVirtNext + AddressSpaces.pageCount size * pageSize)
      rw [hnext]
      exact le_trans h.wc (Nat.le_add_right _ _)

/-- After boot, the kernel process runs on its own PML4. -/
theorem Boot.inSync (h : Boot entries s) : InSync entries s where
  levels := by
    rw [h.cr3s]
    exact h.levels
  nonzero p hp := by
    rw [h.cr3s] at hp
    rw [List.mem_singleton.mp hp]
    exact h.kernelCr3
  running := by
    rw [h.current, h.cr3]
    rfl
  image := h.image
  imageEntry := h.imageEntry
  heap := ⟨h.heap.1, h.heap.2.1⟩
  mmio := h.mmio
  wc := h.wc
  synced i _ _ := by rw [h.cr3]

end

/-- The state after boot with its PML4 in page 4096, the table below entry 511 in page 8192, and some free
pages from 12288 on -/
def bootSpaces (pages : ℕ) : AddressSpaces where
  mem :=
    { words := fun page i =>
        if page = 4096 ∧ i = 511 then 8195
        else if i = 0 ∧ 12288 ≤ page ∧ page < 8192 + pages * 4096 then page + 4096 else 0
      freeListHead := 12288
      pmmFreePageCount := pages
      starved := false }
  kernelCr3 := 4096
  cr3s := []
  current := 0
  cr3 := 4096
  heapEndAddr := kheapStartAddr
  mmioVirtNext := mmioVirtBase
  wcVirtNext := wcVirtBase

theorem boot_bootSpaces {pages : ℕ} {free : List ℕ}
    (hfree : FreeChain (bootSpaces pages).mem.words 12288 free) (hnodup : free.Nodup)
    (hpages : ∀ p ∈ free, 12288 ≤ p ∧ IsPage p) : Boot {300, 511} (bootSpaces pages) where
  levels := by
    have himage : (bootSpaces pages).mem.words 4096 511 = 8195 := rfl
    have hzero : ∀ page i, page < 12288 → ¬ (page = 4096 ∧ i = 511) →
        (bootSpaces pages).mem.words page i = 0 := by
      intro page i hlt hne
      unfold bootSpaces
      dsimp only
      rw [if_neg hne, if_neg (by omega)]
    refine ⟨fun p => if p = 4096 then 4 else if p = 8192 then 3 else 0, fun p hp => ?_,
      fun table i hti hpresent => ?_, free, hfree, hnodup, fun p hp => ?_⟩
    · rw [List.mem_singleton.mp hp]
      rfl
    · rcases hti with ⟨ht, hi⟩ | ⟨ht, hi⟩
      · have ht : table = 4096 := List.mem_singleton.mp ht
        subst ht
        rcases hi with rfl | rfl
        · rw [hzero 4096 300 (by decide) (by decide)] at hpresent
          exact absurd hpresent (by decide)
        · rw [himage]
          decide
      · have htable : table = 8192 := by
          by_contra hne
          simp only [if_neg hne] at ht
          split at ht <;> omega
        subst htable
        rw [hzero 8192 i (by decide) (by omega)] at hpresent
        exact absurd hpresent (by decide)
    · obtain ⟨hge, hpage⟩ := hpages p hp
      exact ⟨by omega, hpage, by rw [if_neg (by omega), if_neg (by omega)]⟩
  kernelCr3 := show 4096 ≠ 0 by decide
  cr3s := rfl
  current := rfl
  cr3 := rfl
  image := show Present 8195 by decide
  imageEntry := by simp
  heap := ⟨le_rfl, show kheapStartAddr < 2 ^ 64 by decide, show pageSize ∣ kheapStartAddr by decide⟩
  mmio := le_rfl
  wc := le_rfl

/-- A page of entry 300 is mapped in the second process, the heap grows, a device is mapped, and the kernel
process runs again. -/
def growingRun : List SpaceOp :=
  [.processCreate, .contextSwitch 1, .mapPage 0xfee00000 0xffff960000400000 2, .heapExpand 5000,
    .mmioMap 0xfebf0000 4097, .contextSwitch 0]

/-- With one free page, the second process takes it for its PML4, and maps it and another page of entry
300. -/
def starvedRun : List SpaceOp :=
  [.processCreate, .contextSwitch 1, .mapPage 12288 0xffff960040403000 0,
    .mapPage 0x5000 0xffff9600f2000000 0]

end Sandflea
