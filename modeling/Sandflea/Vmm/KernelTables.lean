import Sandflea.Vmm.Translation

/-!
# The tables below the last entry of a PML4

DeviceSpaces, the kernel's image and its heap are mapped below entry 511 of the kernel process's PML4. Here the
tables below this entry are looked at as if they were those below entry 255 (`PhysMem.lowered`), so that they
are a forest of `PageTables`. `Tables.mapHigh` is the rule for `vmm_map_page_in_pml4`: it takes a free page for
every table on the way that is missingPaths, and none otherwise, and sets the entry for the page.
-/

namespace Sandflea

open PointerTree

/-- The memory in which the tables below entry 511 of a PML4 are below entry 255, and no others -/
def PhysMem.lowered (m : PhysMem) (pml4 : ℕ) : PhysMem :=
  { m with words := Function.update m.words pml4 fun i => if i = 255 then m.words pml4 511 else 0 }

/-- The pointer to a table below entry 511, by the indices that lead to it -/
abbrev highTable (pml4 : ℕ) (m : PhysMem) (is : List ℕ) : ℕ :=
  tableAt [pml4] (m.lowered pml4) (slotOf pml4 255, is)

/-- The table at the end of a path of indices -/
def PhysMem.follow (m : PhysMem) : ℕ → List ℕ → Option ℕ
  | table, [] => some table
  | table, i :: is => (m.nextTable table i).bind fun next => m.follow next is

/-- The paths below entry 511 to the two tables for a page -/
def pagePaths (virt : ℕ) : Finset (List ℕ) := {[pdptIndex virt], [pdptIndex virt, pdIndex virt]}

/-- The paths of some that lead to no table -/
def missingPaths (pml4 : ℕ) (m : PhysMem) (as : Finset (List ℕ)) : Finset (List ℕ) :=
  as.filter fun is => highTable pml4 m is = 0

/-- A page that is neither free nor a table below entry 511 -/
structure BesideTables (pml4 : ℕ) (free : List ℕ) (m : PhysMem) (q : ℕ) : Prop where
  notFree : q ∉ free
  notTable : ∀ a, vmmShape.Valid a → tableAt [pml4] (m.lowered pml4) a ≠ 0 →
    ptrTable (tableAt [pml4] (m.lowered pml4) a) ≠ q

/-- Free pages became the tables at the ends of some paths, where they were missing. -/
structure GrowsTables (pml4 : ℕ) (m m' : PhysMem) (free free' : List ℕ) (as : Finset (List ℕ)) : Prop where
  tables : Tables [pml4] free' (m'.lowered pml4)
  count : free.length = free'.length + (missingPaths pml4 m as).card
  pages : m.pmmFreePageCount = free.length → m'.pmmFreePageCount = free'.length
  null : ∀ is, vmmShape.Valid (slotOf pml4 255, is) →
    (highTable pml4 m' is = 0 ↔ highTable pml4 m is = 0 ∧ is ∉ as)
  keeps : ∀ is, vmmShape.Valid (slotOf pml4 255, is) → highTable pml4 m is ≠ 0 →
    highTable pml4 m' is = highTable pml4 m is
  root : m'.words pml4 = m.words pml4
  apart : ∀ q, BesideTables pml4 free m q → BesideTables pml4 free' m' q ∧ m'.words q = m.words q

section

variable {pml4 : ℕ} {free : List ℕ} {m : PhysMem}

/-! ## The lowered memory -/

theorem lowered_words_of_ne {q : ℕ} (h : q ≠ pml4) : (m.lowered pml4).words q = m.words q :=
  Function.update_of_ne h _ _

theorem lowered_setWord {page : ℕ} (h : page ≠ pml4) (i x : ℕ) :
    (m.setWord page i x).lowered pml4 = (m.lowered pml4).setWord page i x := by
  unfold PhysMem.lowered PhysMem.setWord
  simp only [Function.update_of_ne h.symm, Function.update_of_ne h]
  rw [Function.update_comm h.symm]

/-- A page is taken from the list. -/
theorem lowered_pmmAllocPage (h : m.freeListHead ≠ 0) (hne : m.freeListHead ≠ pml4) :
    (m.lowered pml4).pmmAllocPage = (m.pmmAllocPage.1, m.pmmAllocPage.2.lowered pml4) := by
  have hhead : (m.lowered pml4).freeListHead = m.freeListHead := rfl
  unfold PhysMem.pmmAllocPage
  rw [hhead, if_neg h, if_neg h]
  unfold PhysMem.lowered
  simp only [Function.update_of_ne hne, Function.update_of_ne hne.symm]
  rw [Function.update_comm hne.symm]

/-- With a free page, a step down from a table that is no PML4 -/
theorem lowered_ensureTable {page i : ℕ} (hpage : page ≠ pml4) (hhead : m.freeListHead ≠ 0)
    (hne : m.freeListHead ≠ pml4) (hpresent : ¬ Present (m.words page i)) (flags : ℕ) :
    (m.ensureTable page i flags).lowered pml4 = (m.lowered pml4).ensureTable page i flags := by
  have hlow : ¬ Present ((m.lowered pml4).words page i) := by
    rw [lowered_words_of_ne hpage]
    exact hpresent
  rw [ensureTable_of_free hpresent hhead, ensureTable_of_free hlow hhead, lowered_setWord hpage,
    lowered_pmmAllocPage hhead hne]

theorem highTable_root (h : pageSize ∣ pml4) : highTable pml4 m [] = entryPtr (m.words pml4 511) := by
  rw [highTable, tableAt_root h List.mem_cons_self (by decide)]
  unfold PhysMem.lowered
  simp only [Function.update_self, if_pos]

/-- The tables below the entry are no PML4. -/
theorem Tables.high_ne (ht : Tables [pml4] free (m.lowered pml4)) {is : List ℕ}
    (hv : vmmShape.Valid (slotOf pml4 255, is)) (h : highTable pml4 m is ≠ 0) :
    ptrTable (highTable pml4 m is) ≠ pml4 := fun heq =>
  (ht.apart _ hv h).1 (List.mem_singleton.mpr heq)

theorem Tables.highTable_concat (ht : Tables [pml4] free (m.lowered pml4)) {is : List ℕ} {i : ℕ}
    (hv : vmmShape.Valid (slotOf pml4 255, is ++ [i])) :
    highTable pml4 m (is ++ [i]) =
      if highTable pml4 m is = 0 then 0 else entryPtr (m.words (ptrTable (highTable pml4 m is)) i) := by
  rw [highTable, tableAt_concat]
  by_cases h : highTable pml4 m is = 0
  · rw [if_pos h, if_pos h]
  · rw [if_neg h, if_neg h, lowered_words_of_ne (ht.high_ne hv.init h)]

/-- The two paths for a page are valid. -/
theorem valid_pagePaths (hpage : IsPage pml4) (virt : ℕ) :
    ∀ is ∈ pagePaths virt, vmmShape.Valid (slotOf pml4 255, is) := by
  have hslot := slotOf_lt hpage (show 255 < 256 by decide)
  have hpdpt : pdptIndex virt < 512 := Nat.mod_lt _ (by decide)
  have hpd : pdIndex virt < 512 := Nat.mod_lt _ (by decide)
  intro is his
  rcases Finset.mem_insert.mp his with rfl | his
  · refine ⟨hslot, show 1 ≤ 2 by decide, fun i hi => ?_⟩
    rw [List.mem_singleton.mp hi]
    exact hpdpt
  · rw [Finset.mem_singleton.mp his]
    refine ⟨hslot, show 2 ≤ 2 by decide, fun i hi => ?_⟩
    rcases List.mem_cons.mp hi with rfl | hi
    · exact hpdpt
    · rw [List.mem_singleton.mp hi]
      exact hpd

/-! ## Following paths -/

theorem PhysMem.follow_concat (m : PhysMem) (table : ℕ) (is : List ℕ) (i : ℕ) :
    m.follow table (is ++ [i]) = (m.follow table is).bind fun next => m.nextTable next i := by
  induction is generalizing table with
  | nil =>
    show (m.nextTable table i).bind (fun next => some next) = m.nextTable table i
    exact Option.bind_fun_some _
  | cons j js ih =>
    show ((m.nextTable table j).bind fun next => m.follow next (js ++ [i])) =
      ((m.nextTable table j).bind fun next => m.follow next js).bind _
    rw [Option.bind_assoc]
    exact congrArg _ (funext fun next => ih next)

/-- A path below the entry leads to the table at it. -/
theorem Tables.follow_high (ht : Tables [pml4] free (m.lowered pml4)) {is : List ℕ}
    (hv : vmmShape.Valid (slotOf pml4 255, is)) :
    m.follow pml4 (511 :: is) =
      if highTable pml4 m is = 0 then none else some (ptrTable (highTable pml4 m is)) := by
  induction is using List.reverseRecOn with
  | nil =>
    have hpage := (ht.rootPages pml4 List.mem_cons_self).1
    rw [highTable_root hpage, ← nextTable_eq]
    exact Option.bind_fun_some _
  | append_singleton is i ih =>
    rw [← List.cons_append, PhysMem.follow_concat, ih hv.init, ht.highTable_concat hv]
    by_cases h : highTable pml4 m is = 0
    · rw [if_pos h, if_pos h, if_pos rfl]
      rfl
    · rw [if_neg h, if_neg h]
      exact nextTable_eq m _ i

/-- The address in the entry for a table that is there -/
theorem Tables.entryAddr_high (ht : Tables [pml4] free (m.lowered pml4)) {is : List ℕ} {i : ℕ}
    (hv : vmmShape.Valid (slotOf pml4 255, is ++ [i])) (hne : highTable pml4 m (is ++ [i]) ≠ 0) :
    entryAddr (m.words (ptrTable (highTable pml4 m is)) i) = ptrTable (highTable pml4 m (is ++ [i])) := by
  have hparent : highTable pml4 m is ≠ 0 := fun h => hne (by rw [ht.highTable_concat hv, if_pos h])
  have hat : EntryAt [pml4] (m.lowered pml4) (slotOf pml4 255, is ++ [i])
    (ptrTable (highTable pml4 m is)) i := .below hparent
  rw [← lowered_words_of_ne (ht.high_ne hv.init hparent)]
  exact hat.entryAddr_eq ht.rootPages hne

/-! ## Growing -/

/-- Of two sets of paths, those of the second that the first has filled are not missing any more. -/
theorem missingPaths_union {m' : PhysMem} {as bs : Finset (List ℕ)}
    (hnull : ∀ is ∈ bs, highTable pml4 m' is = 0 ↔ highTable pml4 m is = 0 ∧ is ∉ as) :
    (missingPaths pml4 m (as ∪ bs)).card = (missingPaths pml4 m as).card + (missingPaths pml4 m' bs).card :=
  card_empty_union hnull

theorem GrowsTables.refl (ht : Tables [pml4] free (m.lowered pml4)) : GrowsTables pml4 m m free free ∅ where
  tables := ht
  count := rfl
  pages := id
  null is _ := ⟨fun h => ⟨h, Finset.notMem_empty is⟩, And.left⟩
  keeps _ _ _ := rfl
  root := rfl
  apart _ hq := ⟨hq, rfl⟩

theorem GrowsTables.trans {m' m'' : PhysMem} {free' free'' : List ℕ} {as bs : Finset (List ℕ)}
    (h : GrowsTables pml4 m m' free free' as) (h' : GrowsTables pml4 m' m'' free' free'' bs)
    (hbs : ∀ is ∈ bs, vmmShape.Valid (slotOf pml4 255, is)) :
    GrowsTables pml4 m m'' free free'' (as ∪ bs) where
  tables := h'.tables
  count := by
    rw [missingPaths_union fun is his => h.null is (hbs is his), h.count, h'.count]
    omega
  pages hpages := h'.pages (h.pages hpages)
  null is hv := by
    rw [h'.null is hv, h.null is hv, Finset.mem_union, not_or, and_assoc]
  keeps is hv hne := by
    have hkeep := h.keeps is hv hne
    exact (h'.keeps is hv (hkeep.trans_ne hne)).trans hkeep
  root := h'.root.trans h.root
  apart q hq := by
    obtain ⟨hq', hwords⟩ := h.apart q hq
    obtain ⟨hq'', hwords'⟩ := h'.apart q hq'
    exact ⟨hq'', hwords'.trans hwords⟩

/-- A step down from a table below the entry, with a free page where there is no next one -/
theorem Tables.growTable (ht : Tables [pml4] free (m.lowered pml4)) {is : List ℕ} {i : ℕ}
    (hv : vmmShape.Valid (slotOf pml4 255, is ++ [i])) (hparent : highTable pml4 m is ≠ 0)
    (hroom : (missingPaths pml4 m {is ++ [i]}).card ≤ free.length) (flags : ℕ) :
    ∃ free', GrowsTables pml4 m (m.ensureTable (ptrTable (highTable pml4 m is)) i flags) free free' {is ++ [i]} ∧
      ∀ b, vmmShape.Leaf b → ∀ j,
        leafEntry [pml4] ((m.ensureTable (ptrTable (highTable pml4 m is)) i flags).lowered pml4) b j =
          leafEntry [pml4] (m.lowered pml4) b j := by
  have hpage := ht.high_ne hv.init hparent
  have hptr := ht.highTable_concat hv
  rw [if_neg hparent] at hptr
  have hat : EntryAt [pml4] (m.lowered pml4) (slotOf pml4 255, is ++ [i])
    (ptrTable (highTable pml4 m is)) i := .below hparent
  have hused := hat.used ht hv
  have hnotTable : ∀ q, BesideTables pml4 free m q → q ≠ ptrTable (highTable pml4 m is) := fun q hq heq =>
    hq.notTable _ hv.init hparent heq.symm
  generalize ptrTable (highTable pml4 m is) = page at hpage hptr hat hused hnotTable ⊢
  by_cases hpresent : Present (m.words page i)
  · have hsame : m.ensureTable page i flags = m := if_pos hpresent
    have hne : highTable pml4 m (is ++ [i]) ≠ 0 := by
      rw [hptr, entryPtr, if_pos hpresent]
      exact Nat.succ_ne_zero _
    have hnone : missingPaths pml4 m {is ++ [i]} = ∅ := by
      rw [missingPaths, Finset.filter_singleton, if_neg hne]
    rw [hsame]
    refine ⟨free, ⟨ht, by rw [hnone]; rfl, id, fun js _ => ⟨fun h => ⟨h, fun hjs => ?_⟩, And.left⟩,
      fun _ _ _ => rfl, rfl, fun q hq => ⟨hq, rfl⟩⟩, fun _ _ _ => rfl⟩
    exact hne (Finset.mem_singleton.mp hjs ▸ h)
  · have hzero : highTable pml4 m (is ++ [i]) = 0 := by rw [hptr, entryPtr, if_neg hpresent]
    have hone : missingPaths pml4 m {is ++ [i]} = {is ++ [i]} := by
      rw [missingPaths, Finset.filter_singleton, if_pos hzero]
    rw [hone, Finset.card_singleton] at hroom
    obtain ⟨p, free', rfl⟩ := List.exists_cons_of_length_pos hroom
    have hchain : m.freeListHead = p := ht.chain.1
    have hp := ht.freePages p List.mem_cons_self
    have hhead : m.freeListHead ≠ 0 := hchain ▸ hp.1
    have hroot : p ≠ pml4 := fun heq =>
      ht.rootsUsed pml4 List.mem_cons_self (heq ▸ List.mem_cons_self)
    have hlow := lowered_ensureTable hpage hhead (hchain ▸ hroot) hpresent flags
    have hlowPresent : ¬ Present ((m.lowered pml4).words page i) := by
      rw [lowered_words_of_ne hpage]
      exact hpresent
    obtain ⟨ht', hl⟩ := ht.link hat hv hlowPresent flags
    rw [← hlow] at ht' hl
    have hwords : ∀ q, q ≠ page → q ≠ p → (m.ensureTable page i flags).words q = m.words q := by
      intro q hqpage hqp
      rw [ensureTable_of_free hpresent hhead, setWord_of_ne _ hqpage, PhysMem.pmmAllocPage, if_neg hhead,
        hchain]
      exact Function.update_of_ne hqp _ _
    refine ⟨free', ⟨ht', ?_, fun hpages => ?_, fun js hjs => ?_, fun js hjs hne => ?_, hwords pml4 hpage.symm hroot.symm,
      fun q hq => ⟨⟨fun hmem => hq.notFree (List.mem_cons_of_mem _ hmem), fun a ha hne => ?_⟩,
        hwords q (hnotTable q hq) fun heq => hq.notFree (heq ▸ List.mem_cons_self)⟩⟩, hl.leaves⟩
    · rw [hone, Finset.card_singleton, List.length_cons]
    · have hcount : (m.ensureTable page i flags).pmmFreePageCount = m.pmmFreePageCount - 1 := hl.count
      rw [hcount, hpages, List.length_cons]
      rfl
    · rw [highTable, hl.tableAt _ hjs, Finset.mem_singleton]
      by_cases heq : js = is ++ [i]
      · rw [heq, if_pos rfl]
        exact ⟨fun h => absurd h (Nat.succ_ne_zero _), fun h => absurd rfl h.2⟩
      · have haddr : (slotOf pml4 255, js) ≠ (slotOf pml4 255, is ++ [i]) := fun h =>
          heq (congrArg Prod.snd h)
        rw [if_neg haddr]
        exact ⟨fun h => ⟨h, heq⟩, And.left⟩
    · rw [highTable, hl.tableAt _ hjs, if_neg]
      rintro h
      rw [show js = is ++ [i] from congrArg Prod.snd h] at hne
      exact hne hzero
    · rw [hl.tableAt a ha] at hne ⊢
      by_cases haddr : a = (slotOf pml4 255, is ++ [i])
      · rw [if_pos haddr, ptrTable_tablePtr hp.2.1]
        rintro rfl
        exact hq.notFree List.mem_cons_self
      · rw [if_neg haddr] at hne ⊢
        exact hq.notTable a ha hne

/-! ## Mapping -/

/-- The address of the last table for a page below the entry -/
def highPt (pml4 virt : ℕ) : Addr := (slotOf pml4 255, [pdptIndex virt, pdIndex virt])

theorem leaf_highPt (hpage : IsPage pml4) (virt : ℕ) : vmmShape.Leaf (highPt pml4 virt) :=
  ⟨valid_pagePaths hpage virt _ (Finset.mem_insert_of_mem (Finset.mem_singleton_self _)), rfl⟩

/-- Two entries below the entry are one if they are for one page. -/
theorem highPt_eq_iff {v w : ℕ} (hv : pml4Index v = 511) (hw : pml4Index w = 511) :
    highPt pml4 v = highPt pml4 w ∧ ptIndex v = ptIndex w ↔ pageOf v = pageOf w := by
  rw [pageOf_eq_iff]
  constructor
  · rintro ⟨haddr, hpt⟩
    rw [highPt, highPt, Prod.mk.injEq, List.cons.injEq, List.cons.injEq] at haddr
    exact ⟨hv.trans hw.symm, haddr.2.1, haddr.2.2.1, hpt⟩
  · rintro ⟨-, hpdpt, hpd, hpt⟩
    refine ⟨?_, hpt⟩
    rw [highPt, highPt, hpdpt, hpd]

/-- What an address below the entry translates to -/
theorem Tables.getPhys_high (ht : Tables [pml4] free (m.lowered pml4)) {virt : ℕ}
    (hvirt : pml4Index virt = 511) :
    m.getPhysInPml4 pml4 virt =
      entryPhys (leafEntry [pml4] (m.lowered pml4) (highPt pml4 virt) (ptIndex virt)) := by
  have hleaf := leaf_highPt (ht.rootPages pml4 List.mem_cons_self) virt
  have hfind : m.findPt pml4 virt = m.follow pml4 [511, pdptIndex virt, pdIndex virt] := by
    rw [← hvirt]
    unfold PhysMem.findPt PhysMem.follow PhysMem.follow PhysMem.follow PhysMem.follow
    simp only [Option.bind_eq_bind, Option.bind_fun_some]
  unfold PhysMem.getPhysInPml4 leafEntry
  rw [hfind, ht.follow_high hleaf.1, show highPt pml4 virt = (slotOf pml4 255, _) from rfl]
  by_cases h : highTable pml4 m [pdptIndex virt, pdIndex virt] = 0
  · rw [if_pos h, if_pos h]
    exact show 0 = entryPhys 0 by decide
  · rw [if_neg h, if_neg h, lowered_words_of_ne (ht.high_ne hleaf.1 h)]
    rfl

/-- An entry of the last level is set. -/
theorem Tables.setHighLeaf (ht : Tables [pml4] free (m.lowered pml4)) {a : Addr}
    (ha : vmmShape.Leaf a) (hne : tableAt [pml4] (m.lowered pml4) a ≠ 0) (j x : ℕ) :
    GrowsTables pml4 m (m.setWord (ptrTable (tableAt [pml4] (m.lowered pml4) a)) j x) free free ∅ ∧
      ∀ b, vmmShape.Leaf b → ∀ k,
        leafEntry [pml4]
            ((m.setWord (ptrTable (tableAt [pml4] (m.lowered pml4) a)) j x).lowered pml4) b k =
          if b = a ∧ k = j then x else leafEntry [pml4] (m.lowered pml4) b k := by
  have hpage : ptrTable (tableAt [pml4] (m.lowered pml4) a) ≠ pml4 := fun heq =>
    (ht.apart a ha.1 hne).1 (List.mem_singleton.mpr heq)
  obtain ⟨htables, hentry⟩ := ht.setLeaf ha hne j x
  have hsame := fun b hb => ht.tableAt_setLeaf ha hne j x (b := b) hb
  rw [← lowered_setWord hpage] at htables hentry hsame
  refine ⟨⟨htables, rfl, id, fun is hv => ?_, fun is hv _ => hsame _ hv, setWord_of_ne m hpage.symm j x,
    fun q hq => ⟨⟨hq.notFree, fun b hb hbne => ?_⟩, ?_⟩⟩, hentry⟩
  · rw [highTable, hsame _ hv]
    exact ⟨fun h => ⟨h, Finset.notMem_empty is⟩, And.left⟩
  · rw [hsame b hb] at hbne ⊢
    exact hq.notTable b hb hbne
  · exact setWord_of_ne m (fun heq => hq.notTable a ha.1 hne heq.symm) j x

/-- `vmm_map_page_in_pml4` below the entry, where the entry is there: free pages become the tables that are
missingPaths, and the entry for the page is set. -/
theorem Tables.mapHigh (ht : Tables [pml4] free (m.lowered pml4)) (himage : Present (m.words pml4 511))
    {virt : ℕ} (hvirt : pml4Index virt = 511)
    (hroom : (missingPaths pml4 m (pagePaths virt)).card ≤ free.length) (phys flags : ℕ) :
    ∃ free', GrowsTables pml4 m (m.mapPageInPml4 pml4 phys virt flags) free free' (pagePaths virt) ∧
      ∀ b, vmmShape.Leaf b → ∀ k,
        leafEntry [pml4] ((m.mapPageInPml4 pml4 phys virt flags).lowered pml4) b k =
          if b = highPt pml4 virt ∧ k = ptIndex virt then phys ||| flags ||| pagePresent
          else leafEntry [pml4] (m.lowered pml4) b k := by
  have hpage := ht.rootPages pml4 List.mem_cons_self
  have hleaf := leaf_highPt hpage virt
  have hvalid : vmmShape.Valid (slotOf pml4 255, [pdptIndex virt] ++ [pdIndex virt]) := hleaf.1
  have hvalid₁ : vmmShape.Valid (slotOf pml4 255, [] ++ [pdptIndex virt]) := hvalid.init
  have hpaths : pagePaths virt = {[] ++ [pdptIndex virt]} ∪ {[pdptIndex virt] ++ [pdIndex virt]} := rfl
  rw [hpaths] at hroom ⊢
  unfold PhysMem.mapPageInPml4
  dsimp only
  rw [hvirt, show m.ensureTable pml4 511 flags = m from if_pos himage]
  -- The page directory pointer table is there; the next two tables are made where they are missing.
  have hroot : highTable pml4 m [] = entryPtr (m.words pml4 511) := highTable_root hpage.1
  have hne₀ : highTable pml4 m [] ≠ 0 := by
    rw [hroot, entryPtr, if_pos himage]
    exact Nat.succ_ne_zero _
  have hpdpt : entryAddr (m.words pml4 511) = ptrTable (highTable pml4 m []) := by
    rw [hroot, entryPtr, if_pos himage, ptrTable_tablePtr (isPage_entryAddr _).1]
  rw [hpdpt]
  have hroom₁ : (missingPaths pml4 m {[] ++ [pdptIndex virt]}).card ≤ free.length :=
    (Finset.card_le_card (Finset.filter_subset_filter _ Finset.subset_union_left)).trans hroom
  obtain ⟨free₁, hg₁, hleaves₁⟩ := ht.growTable hvalid₁ hne₀ hroom₁ flags
  generalize m.ensureTable (ptrTable (highTable pml4 m [])) (pdptIndex virt) flags = m₁ at hg₁ hleaves₁ ⊢
  have hsame₁ : highTable pml4 m [] = highTable pml4 m₁ [] := (hg₁.keeps [] hvalid₁.init hne₀).symm
  have hne₁ : highTable pml4 m₁ [pdptIndex virt] ≠ 0 := fun h =>
    ((hg₁.null _ hvalid₁).mp h).2 (Finset.mem_singleton_self _)
  rw [hsame₁, hg₁.tables.entryAddr_high hvalid₁ hne₁]
  have hroom₂ : (missingPaths pml4 m₁ {[pdptIndex virt] ++ [pdIndex virt]}).card ≤ free₁.length := by
    have hunion := missingPaths_union fun is his => hg₁.null is (Finset.mem_singleton.mp his ▸ hvalid)
    rw [hunion] at hroom
    have hcount := hg₁.count
    omega
  obtain ⟨free₂, hg₂, hleaves₂⟩ := hg₁.tables.growTable hvalid hne₁ hroom₂ flags
  rw [List.nil_append]
  generalize m₁.ensureTable (ptrTable (highTable pml4 m₁ [pdptIndex virt])) (pdIndex virt) flags = m₂
    at hg₂ hleaves₂ ⊢
  have hsame₂ : highTable pml4 m₁ [pdptIndex virt] = highTable pml4 m₂ [pdptIndex virt] :=
    (hg₂.keeps _ hvalid₁ hne₁).symm
  have hne₂ : highTable pml4 m₂ ([pdptIndex virt] ++ [pdIndex virt]) ≠ 0 := fun h =>
    ((hg₂.null _ hvalid).mp h).2 (Finset.mem_singleton_self _)
  rw [hsame₂, hg₂.tables.entryAddr_high hvalid hne₂]
  obtain ⟨hg₃, hentry⟩ := hg₂.tables.setHighLeaf hleaf hne₂ (ptIndex virt) (phys ||| flags ||| pagePresent)
  have hg₁₂ := hg₁.trans hg₂ fun is his => Finset.mem_singleton.mp his ▸ hvalid
  have hg := hg₁₂.trans hg₃ fun is his => absurd his (Finset.notMem_empty is)
  rw [Finset.union_empty] at hg
  refine ⟨free₂, hg, fun b hb k => ?_⟩
  rw [← hleaves₁ b hb k, ← hleaves₂ b hb k]
  exact hentry b hb k

end

end Sandflea
