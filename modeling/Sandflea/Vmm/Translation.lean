import Sandflea.Vmm.PageTables
import Sandflea.Lib.Runs

/-!
# The page-table law

`vmm_map_page_in_pml4` and `vmm_unmap_page_in_pml4` on the user halves of some PML4s do what assignments to
a function of PML4s and pages do (`page_table_law`), as long as there are free pages for the tables. The
tables of different PML4s are different pages.
-/

namespace Sandflea

open PointerTree

/-- The page of an address: the bits of the address that its indices are. -/
def pageOf (virt : ℕ) : ℕ := virt / 2 ^ 12 % 2 ^ 36

/-- What is done to page tables. -/
inductive VmmOp
  /-- `vmm_map_page_in_pml4` -/
  | map (pml4 phys virt flags : ℕ)
  /-- `vmm_unmap_page_in_pml4` -/
  | unmap (pml4 virt : ℕ)
deriving DecidableEq, Repr

/-- The memory after an operation -/
def PhysMem.step (m : PhysMem) : VmmOp → PhysMem
  | .map pml4 phys virt flags => m.mapPageInPml4 pml4 phys virt flags
  | .unmap pml4 virt => m.unmapPageInPml4 pml4 virt

/-- Which physical page each page of each PML4 was mapped to last, 0 for none. -/
abbrev Translation := ℕ → ℕ → ℕ

/-- What an operation means for one page of one PML4 -/
def Translation.step (t : Translation) : VmmOp → Translation
  | .map pml4 phys virt _ => fun q n => if q = pml4 ∧ n = pageOf virt then phys else t q n
  | .unmap pml4 virt => fun q n => if q = pml4 ∧ n = pageOf virt then 0 else t q n

/-- An operation on the user half of one of some PML4s, with a page and flags outside its address -/
def VmmOp.Allowed (roots : List ℕ) : VmmOp → Prop
  | .map pml4 phys virt flags =>
    pml4 ∈ roots ∧ pml4Index virt < 256 ∧ IsPage phys ∧ flags &&& pteAddrMask = 0
  | .unmap pml4 virt => pml4 ∈ roots ∧ pml4Index virt < 256

/-- PML4s with empty user halves, and the list of free pages -/
structure EmptyTables (roots : List ℕ) (m : PhysMem) : Prop where
  rootPages : ∀ p ∈ roots, IsPage p
  empty : ∀ p ∈ roots, ∀ i < 256, ¬ Present (m.words p i)
  free : ∃ free, FreeChain m.words m.freeListHead free ∧ free.Nodup ∧
    ∀ p ∈ free, p ≠ 0 ∧ IsPage p ∧ p ∉ roots

/-- The tables below the user half of a PML4, with how many levels there are below them -/
inductive IsTable (m : PhysMem) (pml4 : ℕ) : ℕ → ℕ → Prop
  | pdpt {i : ℕ} : i < 256 → Present (m.words pml4 i) → IsTable m pml4 2 (entryAddr (m.words pml4 i))
  | next {level table i : ℕ} : IsTable m pml4 (level + 1) table → i < 512 →
    Present (m.words table i) → IsTable m pml4 level (entryAddr (m.words table i))

/-! ## Addresses -/

/-- The address of the last table for a page -/
def ptAddr (pml4 virt : ℕ) : Addr := (slotOf pml4 (pml4Index virt), [pdptIndex virt, pdIndex virt])

section

variable {roots free : List ℕ} {m : PhysMem}

theorem leaf_ptAddr {pml4 virt : ℕ} (hpage : IsPage pml4) (huser : pml4Index virt < 256) :
    vmmShape.Leaf (ptAddr pml4 virt) := by
  refine ⟨⟨slotOf_lt hpage huser, le_rfl, fun i hi => ?_⟩, rfl⟩
  have h : i = pdptIndex virt ∨ i = pdIndex virt := by simpa [ptAddr] using hi
  show i < 512
  rcases h with rfl | rfl
  · exact Nat.mod_lt _ (by decide)
  · exact Nat.mod_lt _ (by decide)

/-- The indices of an address are those of its page. -/
theorem pageOf_eq_iff (v w : ℕ) :
    pageOf v = pageOf w ↔ pml4Index v = pml4Index w ∧ pdptIndex v = pdptIndex w ∧
      pdIndex v = pdIndex w ∧ ptIndex v = ptIndex w := by
  have hsplit : ∀ n : ℕ, n / 2 ^ 39 = n / 2 ^ 12 / 512 / 512 / 512 ∧
      n / 2 ^ 30 = n / 2 ^ 12 / 512 / 512 ∧ n / 2 ^ 21 = n / 2 ^ 12 / 512 := by
    intro n
    simp only [Nat.div_div_eq_div_mul]
    exact ⟨rfl, rfl, rfl⟩
  unfold pageOf pml4Index pdptIndex pdIndex ptIndex
  rw [(hsplit v).1, (hsplit v).2.1, (hsplit v).2.2, (hsplit w).1, (hsplit w).2.1, (hsplit w).2.2]
  omega

/-- Two entries are one if they are for one page of one PML4. -/
theorem ptAddr_eq_iff {p q v w : ℕ} (hp : IsPage p) (hq : IsPage q) (hv : pml4Index v < 256)
    (hw : pml4Index w < 256) :
    ptAddr p v = ptAddr q w ∧ ptIndex v = ptIndex w ↔ p = q ∧ pageOf v = pageOf w := by
  rw [pageOf_eq_iff]
  constructor
  · rintro ⟨haddr, hpt⟩
    rw [ptAddr, ptAddr, Prod.mk.injEq, List.cons.injEq, List.cons.injEq] at haddr
    obtain ⟨hslot, hpdpt, hpd, -⟩ := haddr
    obtain ⟨hpq, hpml4⟩ := slotOf_inj hp.1 hq.1 hv hw hslot
    exact ⟨hpq, hpml4, hpdpt, hpd, hpt⟩
  · rintro ⟨rfl, hpml4, hpdpt, hpd, hpt⟩
    refine ⟨?_, hpt⟩
    rw [ptAddr, ptAddr, hpml4, hpdpt, hpd]

/-! ## The walk down -/

/-- The three entries on the way to a page -/
theorem tableAt_path (p i j k : ℕ) :
    tableAt roots m (slotOf p i, [j]) =
        (if tableAt roots m (slotOf p i, []) = 0 then 0
          else entryPtr (m.words (ptrTable (tableAt roots m (slotOf p i, []))) j)) ∧
      tableAt roots m (slotOf p i, [j, k]) =
        if tableAt roots m (slotOf p i, [j]) = 0 then 0
        else entryPtr (m.words (ptrTable (tableAt roots m (slotOf p i, [j]))) k) :=
  ⟨tableAt_concat (slotOf p i) [] j, tableAt_concat (slotOf p i) [j] k⟩

/-- The walk finds the table at the address. -/
theorem findPt_eq {pml4 virt : ℕ} (hroots : ∀ p ∈ roots, IsPage p) (hroot : pml4 ∈ roots)
    (huser : pml4Index virt < 256) :
    m.findPt pml4 virt =
      if tableAt roots m (ptAddr pml4 virt) = 0 then none
      else some (ptrTable (tableAt roots m (ptAddr pml4 virt))) := by
  obtain ⟨hpd, hpt⟩ := @tableAt_path roots m pml4 (pml4Index virt) (pdptIndex virt)
    (pdIndex virt)
  have hpdpt := tableAt_root (m := m) (hroots pml4 hroot).1 hroot huser
  unfold PhysMem.findPt ptAddr
  rw [hpt, nextTable_eq, ← hpdpt]
  by_cases h1 : tableAt roots m (slotOf pml4 (pml4Index virt), []) = 0
  · rw [if_pos h1] at hpd ⊢
    rw [if_pos hpd, if_pos rfl]
    rfl
  · rw [if_neg h1] at hpd ⊢
    simp only [Option.bind_eq_bind, Option.bind_some]
    rw [nextTable_eq, ← hpd]
    by_cases h2 : tableAt roots m (slotOf pml4 (pml4Index virt), [pdptIndex virt]) = 0
    · rw [if_pos h2, if_pos h2, if_pos rfl]
      rfl
    · rw [if_neg h2, if_neg h2]
      simp only [Option.bind_some]
      rw [nextTable_eq]

/-- The physical page in an entry of the last level -/
def entryPhys (e : ℕ) : ℕ := if Present e then entryAddr e else 0

/-- What `vmm_get_phys_in_pml4` returns is in the entry for the page. -/
theorem getPhysInPml4_eq {pml4 virt : ℕ} (hroots : ∀ p ∈ roots, IsPage p) (hroot : pml4 ∈ roots)
    (huser : pml4Index virt < 256) :
    m.getPhysInPml4 pml4 virt = entryPhys (leafEntry roots m (ptAddr pml4 virt) (ptIndex virt)) := by
  unfold PhysMem.getPhysInPml4 leafEntry
  rw [findPt_eq hroots hroot huser]
  by_cases h : tableAt roots m (ptAddr pml4 virt) = 0
  · rw [if_pos h, if_pos h]
    exact show 0 = entryPhys 0 by decide
  · rw [if_neg h, if_neg h]
    rfl

/-! ## Mapping and unmapping -/

/-- An operation sets the entry for its page and no other. -/
structure SetsEntry (roots : List ℕ) (m m' : PhysMem) (pml4 virt x : ℕ) : Prop where
  tables : ∃ free, Tables roots free m'
  entry : ∀ b, vmmShape.Leaf b → ∀ k, leafEntry roots m' b k =
    if b = ptAddr pml4 virt ∧ k = ptIndex virt then x else leafEntry roots m b k

/-- `vmm_unmap_page_in_pml4` clears the entry for the page. -/
theorem Tables.unmap (ht : Tables roots free m) {pml4 virt : ℕ} (hroot : pml4 ∈ roots)
    (huser : pml4Index virt < 256) :
    SetsEntry roots m (m.unmapPageInPml4 pml4 virt) pml4 virt 0 := by
  have hleaf := leaf_ptAddr (ht.rootPages pml4 hroot) huser
  unfold PhysMem.unmapPageInPml4
  rw [findPt_eq ht.rootPages hroot huser]
  by_cases h : tableAt roots m (ptAddr pml4 virt) = 0
  · rw [if_pos h]
    refine ⟨⟨free, ht⟩, fun b hb k => ?_⟩
    by_cases hbk : b = ptAddr pml4 virt ∧ k = ptIndex virt
    · rw [if_pos hbk, hbk.1, leafEntry, if_pos h]
    · rw [if_neg hbk]
  · rw [if_neg h]
    obtain ⟨htables, hentry⟩ := ht.setLeaf hleaf h (ptIndex virt) 0
    exact ⟨⟨free, htables⟩, hentry⟩

/-- `vmm_map_page_in_pml4` makes the tables for the page and sets its entry. -/
theorem Tables.map (ht : Tables roots free m) {pml4 phys virt flags : ℕ} (hroot : pml4 ∈ roots)
    (huser : pml4Index virt < 256) (hmem : (m.mapPageInPml4 pml4 phys virt flags).starved = false) :
    SetsEntry roots m (m.mapPageInPml4 pml4 phys virt flags) pml4 virt
      (phys ||| flags ||| pagePresent) := by
  have hleaf := leaf_ptAddr (ht.rootPages pml4 hroot) huser
  have hvalid := hleaf.1
  have hroots := ht.rootPages
  unfold PhysMem.mapPageInPml4 at hmem ⊢
  dsimp only at hmem ⊢
  -- The table of each level is there once it is looked for, and the entry for it says where.
  have hroot₀ : EntryAt roots m (slotOf pml4 (pml4Index virt), []) pml4 (pml4Index virt) :=
    .root hroot huser
  have hsplit : ptAddr pml4 virt =
      (slotOf pml4 (pml4Index virt), [pdptIndex virt] ++ [pdIndex virt]) := rfl
  rw [hsplit] at hvalid
  have hvalid₁ : vmmShape.Valid (slotOf pml4 (pml4Index virt), [] ++ [pdptIndex virt]) := hvalid.init
  have hvalid₀ : vmmShape.Valid (slotOf pml4 (pml4Index virt), []) := hvalid₁.init
  generalize hm₁ : m.ensureTable pml4 (pml4Index virt) flags = m₁ at hmem ⊢
  generalize hpdpt : entryAddr (m₁.words pml4 (pml4Index virt)) = pdpt at hmem ⊢
  generalize hm₂ : m₁.ensureTable pdpt (pdptIndex virt) flags = m₂ at hmem ⊢
  generalize hpd : entryAddr (m₂.words pdpt (pdptIndex virt)) = pd at hmem ⊢
  generalize hm₃ : m₂.ensureTable pd (pdIndex virt) flags = m₃ at hmem ⊢
  have hmem₃ : m₃.starved = false := hmem
  have hmem₂ : m₂.starved = false := starved_ensureTable (hm₃ ▸ hmem₃)
  have hmem₁ : m₁.starved = false := starved_ensureTable (hm₂ ▸ hmem₂)
  obtain ⟨free₁, ht₁, hne₁, hl₁⟩ := ht.ensureTable hroot₀ hvalid₀ (hm₁ ▸ hmem₁)
  rw [hm₁] at ht₁ hne₁ hl₁
  rw [(hroot₀.linked hvalid₀ hl₁).entryAddr_eq hroots hne₁] at hpdpt
  subst hpdpt
  have hat₁ : EntryAt roots m₁ (slotOf pml4 (pml4Index virt), [] ++ [pdptIndex virt]) _ _ :=
    .below hne₁
  rw [List.nil_append] at hat₁ hvalid₁
  obtain ⟨free₂, ht₂, hne₂, hl₂⟩ := ht₁.ensureTable hat₁ hvalid₁ (hm₂ ▸ hmem₂)
  rw [hm₂] at ht₂ hne₂ hl₂
  rw [(hat₁.linked hvalid₁ hl₂).entryAddr_eq hroots hne₂] at hpd
  subst hpd
  have hat₂ : EntryAt roots m₂ (slotOf pml4 (pml4Index virt), [pdptIndex virt] ++ [pdIndex virt]) _ _ :=
    .below hne₂
  obtain ⟨free₃, ht₃, hne₃, hl₃⟩ := ht₂.ensureTable hat₂ hvalid (hm₃ ▸ hmem₃)
  rw [hm₃] at ht₃ hne₃ hl₃
  have hall := (hl₁.trans hl₂).trans hl₃
  rw [(hat₂.linked hvalid hl₃).entryAddr_eq hroots hne₃]
  obtain ⟨htables, hentry⟩ := ht₃.setLeaf hleaf hne₃ (ptIndex virt) (phys ||| flags ||| pagePresent)
  refine ⟨⟨free₃, htables⟩, fun b hb k => (hentry b hb k).trans ?_⟩
  rw [hall.leaves b hb k]

end

/-! ## Runs -/

/-- The tables mean a translation. -/
structure Means (roots : List ℕ) (m : PhysMem) (t : Translation) : Prop where
  tables : ∃ free, Tables roots free m
  phys : ∀ p ∈ roots, ∀ v, pml4Index v < 256 → m.getPhysInPml4 p v = t p (pageOf v)

section

variable {roots : List ℕ} {m : PhysMem} {t : Translation}

/-- There is no table below an empty user half. -/
theorem EmptyTables.tableAt_eq (h : EmptyTables roots m) (a : Addr) : tableAt roots m a = 0 := by
  have hroot : (forest roots m).root a.1 = 0 := by
    rw [forest_root]
    split
    · rename_i hmem
      rw [entryPtr, if_neg (h.empty _ hmem _ (Nat.mod_lt _ (by decide)))]
    · rfl
  rw [tableAt, ptr, hroot, walk_zero]

/-- Empty user halves map nothing. -/
theorem EmptyTables.means (h : EmptyTables roots m) : Means roots m fun _ _ => 0 := by
  obtain ⟨free, hchain, hnodup, hfree⟩ := h.free
  refine ⟨⟨free, h.rootPages, fun p hp => ⟨(hfree p hp).1, (hfree p hp).2.1⟩, hchain, hnodup,
    fun p hp hmem => (hfree p hmem).2.2 hp, fun a b _ _ hne => absurd (h.tableAt_eq a) hne,
    fun a _ hne => absurd (h.tableAt_eq a) hne⟩, fun p hp v hv => ?_⟩
  rw [getPhysInPml4_eq h.rootPages hp hv, leafEntry, if_pos (h.tableAt_eq _)]
  decide

/-- Setting the entry for a page is an assignment to the translation. -/
theorem Means.setsEntry (h : Means roots m t) {m' : PhysMem} {pml4 virt x : ℕ} (hroot : pml4 ∈ roots)
    (huser : pml4Index virt < 256) (hset : SetsEntry roots m m' pml4 virt x) :
    Means roots m' fun q n => if q = pml4 ∧ n = pageOf virt then entryPhys x else t q n := by
  obtain ⟨free, ht⟩ := h.tables
  refine ⟨hset.tables, fun p hp v hv => ?_⟩
  have hpages := ht.rootPages
  have hleaf := leaf_ptAddr (hpages p hp) hv
  have hold := h.phys p hp v hv
  rw [getPhysInPml4_eq hpages hp hv] at hold ⊢
  rw [hset.entry _ hleaf, if_congr (ptAddr_eq_iff (hpages p hp) (hpages pml4 hroot) hv huser) rfl rfl]
  split
  · rfl
  · exact hold

/-- An operation means what it does to the translation. -/
theorem Means.step (h : Means roots m t) {op : VmmOp} (hop : op.Allowed roots)
    (hmem : (m.step op).starved = false) : Means roots (m.step op) (t.step op) := by
  obtain ⟨free, ht⟩ := h.tables
  cases op with
  | map pml4 phys virt flags =>
    obtain ⟨hroot, huser, hpage, hflags⟩ := hop
    have hset := h.setsEntry hroot huser (ht.map hroot huser hmem)
    have hphys : entryPhys (phys ||| flags ||| pagePresent) = phys := by
      rw [entryPhys, if_pos (present_or_right _ present_pagePresent),
        entryAddr_map hpage.1 hpage.2 hflags]
    rw [hphys] at hset
    exact hset
  | unmap pml4 virt =>
    obtain ⟨hroot, huser⟩ := hop
    have hset := h.setsEntry hroot huser (ht.unmap hroot huser)
    have hnone : entryPhys 0 = 0 := by decide
    rw [hnone] at hset
    exact hset

/-- Once a table could not be had, this stays noted. -/
theorem starved_step {op : VmmOp} (h : (m.step op).starved = false) : m.starved = false := by
  cases op with
  | map pml4 phys virt flags =>
    exact starved_ensureTable (starved_ensureTable (starved_ensureTable h))
  | unmap pml4 virt =>
    have hsame : (m.unmapPageInPml4 pml4 virt).starved = m.starved := by
      unfold PhysMem.unmapPageInPml4
      split <;> rfl
    exact hsame.symm.trans h

theorem starved_runAll {ops : List VmmOp} (h : (Runs.runAll PhysMem.step m ops).starved = false) :
    m.starved = false := by
  induction ops generalizing m with
  | nil => exact h
  | cons op ops ih => exact starved_step (ih h)

theorem Means.runAll (h : Means roots m t) {ops : List VmmOp} (hops : ∀ op ∈ ops, op.Allowed roots)
    (hmem : (Runs.runAll PhysMem.step m ops).starved = false) :
    Means roots (Runs.runAll PhysMem.step m ops) (Runs.runAll Translation.step t ops) := by
  induction ops generalizing m t with
  | nil => exact h
  | cons op ops ih =>
    have hstep := h.step (hops op List.mem_cons_self) (starved_runAll hmem)
    exact ih hstep (fun o ho => hops o (List.mem_cons_of_mem _ ho)) hmem

theorem IsTable.isPage {pml4 level table : ℕ} (h : IsTable m pml4 level table) : IsPage table := by
  cases h with
  | pdpt => exact isPage_entryAddr _
  | next => exact isPage_entryAddr _

/-- A table stands at an address below its PML4. -/
theorem IsTable.tableAt {free : List ℕ} (ht : Tables roots free m) {pml4 level table : ℕ}
    (hroot : pml4 ∈ roots) (h : IsTable m pml4 level table) :
    ∃ i < 256, ∃ path, path.length + level = 2 ∧ vmmShape.Valid (slotOf pml4 i, path) ∧
      tableAt roots m (slotOf pml4 i, path) = tablePtr table := by
  have hpage := ht.rootPages pml4 hroot
  induction h with
  | @pdpt i hi hpresent =>
    refine ⟨i, hi, [], rfl, ⟨slotOf_lt hpage hi, Nat.zero_le _, fun j hj => nomatch hj⟩, ?_⟩
    rw [tableAt_root hpage.1 hroot hi, entryPtr, if_pos hpresent]
  | @next level table j htable hj hpresent ih =>
    obtain ⟨i, hi, path, hlen, hvalid, hat⟩ := ih
    have hne : Sandflea.tableAt roots m (slotOf pml4 i, path) ≠ 0 := by
      rw [hat]
      exact Nat.succ_ne_zero _
    refine ⟨i, hi, path ++ [j], by simp only [List.length_append, List.length_singleton]; omega,
      ⟨hvalid.slot, ?_, fun k hk => ?_⟩, ?_⟩
    · show (path ++ [j]).length ≤ 2
      simp only [List.length_append, List.length_singleton]
      omega
    · rcases List.mem_append.mp hk with hk | hk
      · exact hvalid.index k hk
      · obtain rfl := List.mem_singleton.mp hk
        exact hj
    · rw [tableAt_concat, if_neg hne, hat, ptrTable_tablePtr htable.isPage.1, entryPtr,
        if_pos hpresent]

/-- After any sequence of operations, a page of a PML4 translates to the physical page to which it was
mapped last, and the tables of different PML4s are different pages. -/
theorem page_table_law (h : EmptyTables roots m) {ops : List VmmOp}
    (hops : ∀ op ∈ ops, op.Allowed roots)
    (hmem : (Runs.runAll PhysMem.step m ops).starved = false) :
    (∀ p ∈ roots, ∀ v, pml4Index v < 256 →
      (Runs.runAll PhysMem.step m ops).getPhysInPml4 p v =
        Runs.runAll Translation.step (fun _ _ => 0) ops p (pageOf v)) ∧
    ∀ p ∈ roots, ∀ q ∈ roots, ∀ k l table, IsTable (Runs.runAll PhysMem.step m ops) p k table →
      IsTable (Runs.runAll PhysMem.step m ops) q l table → p = q := by
  have hmeans := h.means.runAll hops hmem
  refine ⟨hmeans.phys, fun p hp q hq k l table hpt hqt => ?_⟩
  obtain ⟨free, ht⟩ := hmeans.tables
  obtain ⟨i, hi, path, -, hv, hat⟩ := hpt.tableAt ht hp
  obtain ⟨j, hj, path', -, hv', hat'⟩ := hqt.tableAt ht hq
  have haddr := ht.tree _ _ hv hv' (by rw [← Sandflea.tableAt, hat]; exact Nat.succ_ne_zero _)
    (hat.trans hat'.symm)
  exact (slotOf_inj (h.rootPages p hp).1 (h.rootPages q hq).1 hi hj (congrArg Prod.fst haddr)).1

end

/-- One PML4 with an empty user half, and four free pages -/
def freshMemory : PhysMem where
  words page i := if i = 0 ∧ 8192 ≤ page ∧ page < 20480 then page + 4096 else 0
  freeListHead := 8192
  pmmFreePageCount := 4
  starved := false

theorem emptyTables_freshMemory : EmptyTables [4096] freshMemory where
  rootPages p hp := by
    obtain rfl := List.mem_singleton.mp hp
    exact ⟨by decide, by decide⟩
  empty p hp i _ := by
    obtain rfl := List.mem_singleton.mp hp
    have hzero : freshMemory.words 4096 i = 0 := if_neg fun h => absurd h.2.1 (by decide)
    rw [hzero]
    decide
  free := by
    refine ⟨[8192, 12288, 16384, 20480], ⟨rfl, rfl, rfl, rfl, rfl⟩, by decide, fun p hp => ?_⟩
    have hcases : p = 8192 ∨ p = 12288 ∨ p = 16384 ∨ p = 20480 := by simpa using hp
    rcases hcases with rfl | rfl | rfl | rfl <;> exact ⟨by decide, ⟨by decide, by decide⟩, by decide⟩

/-- A page is mapped, and mapped again. -/
theorem page_table_law_remapped :
    (Runs.runAll PhysMem.step freshMemory
      [.map 4096 0x7000 0x400000 7, .map 4096 0x9000 0x400fff 7]).getPhysInPml4 4096 0x400123 =
        0x9000 :=
  ((page_table_law emptyTables_freshMemory (fun op hop => by
    have hcases : op = .map 4096 0x7000 0x400000 7 ∨ op = .map 4096 0x9000 0x400fff 7 := by
      simpa using hop
    rcases hcases with rfl | rfl <;> exact ⟨by decide, by decide, ⟨by decide, by decide⟩, by decide⟩)
    (by decide +kernel)).1 4096 (by decide) 0x400123 (by decide)).trans (by decide)

end Sandflea
