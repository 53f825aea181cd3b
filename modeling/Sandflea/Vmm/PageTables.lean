import Sandflea.Vmm.PhysMem
import Sandflea.Lib.PointerTree

/-!
# The forest of page tables

The tables below the user halves of some PML4s are a forest of `PointerTree`: its roots are the entries of
the PML4s, its nodes are tables, and its leaves point to the tables of the last level. `Tables` is the
invariant: no table is in two places, and none is a PML4 or a free page. The two ways in which the tables
change are the entry for a new table (`Tables.ensureTable`) and an entry of the last level
(`Tables.setLeaf`).
-/

namespace Sandflea

open PointerTree

/-- The address of a page -/
def IsPage (phys : ℕ) : Prop := pageSize ∣ phys ∧ phys < 2 ^ 52

instance (phys : ℕ) : Decidable (IsPage phys) := inferInstanceAs (Decidable (_ ∧ _))

/-- A table as a pointer: one more than the number of its page, as 0 is no table. -/
def tablePtr (table : ℕ) : ℕ := table / pageSize + 1

/-- The table that a pointer points to -/
def ptrTable (p : ℕ) : ℕ := (p - 1) * pageSize

theorem ptrTable_tablePtr {table : ℕ} (h : pageSize ∣ table) : ptrTable (tablePtr table) = table :=
  Nat.div_mul_cancel h

theorem tablePtr_ptrTable {p : ℕ} (h : p ≠ 0) : tablePtr (ptrTable p) = p := by
  unfold tablePtr ptrTable
  rw [Nat.mul_div_cancel _ (by decide)]
  omega

theorem isPage_ptrTable {p : ℕ} (h : p < 2 ^ 40 + 1) : IsPage (ptrTable p) := by
  refine ⟨Nat.dvd_mul_left _ _, ?_⟩
  unfold ptrTable pageSize
  omega

theorem isPage_entryAddr (e : ℕ) : IsPage (entryAddr e) := by
  rw [entryAddr_eq]
  refine ⟨Nat.dvd_mul_left _ _, ?_⟩
  omega

theorem tablePtr_lt {table : ℕ} (h : IsPage table) : tablePtr table < 2 ^ 40 + 1 := by
  have := h.2
  unfold tablePtr pageSize
  omega

/-- The pointer in an entry -/
def entryPtr (e : ℕ) : ℕ := if Present e then tablePtr (entryAddr e) else 0

theorem entryPtr_lt (e : ℕ) : entryPtr e < 2 ^ 40 + 1 := by
  unfold entryPtr
  split
  · exact tablePtr_lt (isPage_entryAddr e)
  · decide

/-- The entry for a table points to it. -/
theorem entryPtr_table {table : ℕ} (h : IsPage table) (flags : ℕ) :
    entryPtr (table ||| pagePresent ||| pageRw ||| flags &&& pageUser) = tablePtr table := by
  rw [entryPtr, if_pos (present_table table flags), entryAddr_table h.1 h.2]

/-- A pointer as an entry -/
def ptrEntry (p : ℕ) : ℕ := if p = 0 then 0 else ptrTable p ||| 0 ||| pagePresent

theorem entryPtr_ptrEntry {p : ℕ} (h : p < 2 ^ 40 + 1) : entryPtr (ptrEntry p) = p := by
  by_cases hp : p = 0
  · subst hp
    decide
  · have hpage := isPage_ptrTable h
    rw [ptrEntry, if_neg hp, entryPtr, if_pos (present_or_right _ present_pagePresent),
      entryAddr_map hpage.1 hpage.2 (by decide), tablePtr_ptrTable hp]

/-- Tables as nodes -/
def tableOps : NodeOps (ℕ → ℕ) where
  get x i := entryPtr (x i)
  put x i p := Function.update x i (ptrEntry p)
  blank _ := 0
  bound := 2 ^ 40 + 1
  get_put x i v hv := by
    simp only [Function.update_self]
    exact entryPtr_ptrEntry hv
  get_put_of_ne x i j v hij := by simp only [Function.update_of_ne (Ne.symm hij)]
  get_blank i := show entryPtr 0 = 0 by decide

/-- The roots are the entries of PML4s, and the leaves point to tables of the last level. -/
def vmmShape : Shape := ⟨2 ^ 40 * 256, 512, fun _ => 2⟩

/-- The root for an entry of a PML4 -/
def slotOf (pml4 i : ℕ) : ℕ := pml4 / pageSize * 256 + i

/-- The page tables of the user halves of some PML4s -/
def forest (roots : List ℕ) (m : PhysMem) : Forest (ℕ → ℕ) where
  root s := if s / 256 * pageSize ∈ roots then entryPtr (m.words (s / 256 * pageSize) (s % 256)) else 0
  store p := m.words (ptrTable p)

/-- The pointer at an address -/
def tableAt (roots : List ℕ) (m : PhysMem) (a : Addr) : ℕ := ptr tableOps (forest roots m) a

/-- The free pages, in the order in which they are linked -/
def FreeChain (words : ℕ → ℕ → ℕ) : ℕ → List ℕ → Prop
  | head, [] => head = 0
  | head, p :: ps => head = p ∧ FreeChain words (words p 0) ps

instance decidableFreeChain (words : ℕ → ℕ → ℕ) : ∀ head ps, Decidable (FreeChain words head ps)
  | head, [] => inferInstanceAs (Decidable (head = 0))
  | head, p :: ps =>
    have : Decidable (FreeChain words (words p 0) ps) := decidableFreeChain words (words p 0) ps
    inferInstanceAs (Decidable (head = p ∧ FreeChain words (words p 0) ps))

/-- The page tables of some PML4s are a forest of pages that are neither free nor PML4s. -/
structure Tables (roots free : List ℕ) (m : PhysMem) : Prop where
  rootPages : ∀ p ∈ roots, IsPage p
  freePages : ∀ p ∈ free, p ≠ 0 ∧ IsPage p
  chain : FreeChain m.words m.freeListHead free
  nodup : free.Nodup
  rootsUsed : ∀ p ∈ roots, p ∉ free
  tree : TreeShaped tableOps vmmShape (forest roots m)
  apart : ∀ a, vmmShape.Valid a → tableAt roots m a ≠ 0 →
    ptrTable (tableAt roots m a) ∉ roots ∧ ptrTable (tableAt roots m a) ∉ free

/-- The word of a page in which the pointer at an address is kept -/
inductive EntryAt (roots : List ℕ) (m : PhysMem) : Addr → ℕ → ℕ → Prop
  | root {pml4 i : ℕ} : pml4 ∈ roots → i < 256 → EntryAt roots m (slotOf pml4 i, []) pml4 i
  | below {s i : ℕ} {is : List ℕ} : tableAt roots m (s, is) ≠ 0 →
    EntryAt roots m (s, is ++ [i]) (ptrTable (tableAt roots m (s, is))) i

/-! ## Reading -/

section

variable {roots free : List ℕ} {m : PhysMem}

theorem slotOf_div {pml4 i : ℕ} (h : pageSize ∣ pml4) (hi : i < 256) :
    slotOf pml4 i / 256 * pageSize = pml4 := by
  have : slotOf pml4 i / 256 = pml4 / pageSize := by unfold slotOf; omega
  rw [this, Nat.div_mul_cancel h]

theorem slotOf_mod {pml4 i : ℕ} (hi : i < 256) : slotOf pml4 i % 256 = i := by unfold slotOf; omega

/-- Different entries of PML4s are different roots. -/
theorem slotOf_inj {p q i j : ℕ} (hp : pageSize ∣ p) (hq : pageSize ∣ q) (hi : i < 256) (hj : j < 256)
    (h : slotOf p i = slotOf q j) : p = q ∧ i = j := by
  refine ⟨?_, ?_⟩
  · rw [← slotOf_div hp hi, ← slotOf_div hq hj, h]
  · rw [← @slotOf_mod p i hi, ← @slotOf_mod q j hj, h]

theorem slotOf_lt {p i : ℕ} (hp : IsPage p) (hi : i < 256) : slotOf p i < vmmShape.slots := by
  have := hp.2
  show slotOf p i < 2 ^ 40 * 256
  unfold slotOf pageSize
  omega

theorem tableAt_root {pml4 i : ℕ} (hpage : pageSize ∣ pml4) (hroot : pml4 ∈ roots) (hi : i < 256) :
    tableAt roots m (slotOf pml4 i, []) = entryPtr (m.words pml4 i) := by
  show (if slotOf pml4 i / 256 * pageSize ∈ roots then
    entryPtr (m.words (slotOf pml4 i / 256 * pageSize) (slotOf pml4 i % 256)) else 0) = _
  rw [slotOf_div hpage hi, slotOf_mod hi, if_pos hroot]

theorem tableAt_concat (s : ℕ) (is : List ℕ) (i : ℕ) :
    tableAt roots m (s, is ++ [i]) =
      if tableAt roots m (s, is) = 0 then 0
      else entryPtr (m.words (ptrTable (tableAt roots m (s, is))) i) :=
  ptr_concat _ _ _ _

/-- The pointer is the one in the word where it is kept. -/
theorem EntryAt.tableAt_eq {a : Addr} {page i : ℕ} (hroots : ∀ p ∈ roots, IsPage p)
    (h : EntryAt roots m a page i) : tableAt roots m a = entryPtr (m.words page i) := by
  cases h with
  | root hroot hi => exact tableAt_root (hroots _ hroot).1 hroot hi
  | below hne => rw [tableAt_concat, if_neg hne]

/-- A present entry is followed to the table that it points to. -/
theorem nextTable_eq (m : PhysMem) (page i : ℕ) :
    m.nextTable page i =
      if entryPtr (m.words page i) = 0 then none else some (ptrTable (entryPtr (m.words page i))) := by
  unfold PhysMem.nextTable entryPtr
  by_cases h : Present (m.words page i)
  · have hne : tablePtr (entryAddr (m.words page i)) ≠ 0 := Nat.succ_ne_zero _
    rw [if_pos h, if_pos h, if_neg hne, ptrTable_tablePtr (isPage_entryAddr _).1]
  · rw [if_neg h, if_neg h, if_pos rfl]

/-- The pages in which pointers are kept are not free. -/
theorem EntryAt.used {a : Addr} {page i : ℕ} (ht : Tables roots free m)
    (h : EntryAt roots m a page i) (ha : vmmShape.Valid a) : page ∉ free := by
  cases h with
  | root hroot hi => exact ht.rootsUsed _ hroot
  | below hne => exact (ht.apart _ ha.init hne).2

theorem forest_root (roots : List ℕ) (m : PhysMem) (s : ℕ) :
    (forest roots m).root s = if s / 256 * pageSize ∈ roots then
      entryPtr (m.words (s / 256 * pageSize) (s % 256)) else 0 := rfl

theorem forest_store (roots : List ℕ) (m : PhysMem) (p : ℕ) :
    (forest roots m).store p = m.words (ptrTable p) := rfl

theorem tableOps_get (x : ℕ → ℕ) (i : ℕ) : tableOps.get x i = entryPtr (x i) := rfl

/-! ## Writing -/

theorem setWord_of_ne (m : PhysMem) {page q : ℕ} (h : q ≠ page) (i x : ℕ) :
    (m.setWord page i x).words q = m.words q := by simp [PhysMem.setWord, h]

theorem setWord_self (m : PhysMem) (page i x : ℕ) :
    (m.setWord page i x).words page = Function.update (m.words page) i x := by
  simp [PhysMem.setWord]

/-- The links of the free pages are in the free pages. -/
theorem FreeChain.congr {words words' : ℕ → ℕ → ℕ} {head : ℕ} (h : FreeChain words head free)
    (hw : ∀ p ∈ free, words' p 0 = words p 0) : FreeChain words' head free := by
  induction free generalizing head with
  | nil => exact h
  | cons p ps ih =>
    obtain ⟨rfl, h⟩ := h
    refine ⟨rfl, ?_⟩
    rw [hw head List.mem_cons_self]
    exact ih h fun q hq => hw q (List.mem_cons_of_mem _ hq)

/-- Other words than those of PML4s and of tables above the last level do not count. -/
theorem tableAt_congr {m' : PhysMem} (hroots : ∀ p ∈ roots, ∀ i, m'.words p i = m.words p i)
    (h : ∀ a, vmmShape.Valid a → a.2.length < 2 → tableAt roots m a ≠ 0 →
      ∀ i, m'.words (ptrTable (tableAt roots m a)) i = m.words (ptrTable (tableAt roots m a)) i)
    {a : Addr} (ha : vmmShape.Valid a) : tableAt roots m' a = tableAt roots m a := by
  refine ptr_congr (S := vmmShape) (fun s _ => ?_) (fun b hb hlen hne i => ?_) ha
  · show (if s / 256 * pageSize ∈ roots then entryPtr (m'.words _ _) else 0) =
      if s / 256 * pageSize ∈ roots then entryPtr (m.words _ _) else 0
    split
    · rename_i hroot
      rw [hroots _ hroot]
    · rfl
  · exact congrArg entryPtr (h b hb hlen hne i)

/-- A write to the word of a pointer changes that pointer and no other: the new pointer is that of a last
table, or of a blank table that is nowhere else. -/
theorem Tables.tableAt_setWord (ht : Tables roots free m) {a : Addr} {page i : ℕ}
    (hat : EntryAt roots m a page i) (ha : vmmShape.Valid a) {x : ℕ} (hnull : tableAt roots m a = 0)
    (hunref : ∀ b, vmmShape.Valid b → tableAt roots m b ≠ entryPtr x)
    (hroot : ptrTable (entryPtr x) ∉ roots)
    (hblank : ∀ j < 512, entryPtr (m.words (ptrTable (entryPtr x)) j) = 0) {b : Addr}
    (hb : vmmShape.Valid b) :
    tableAt roots (m.setWord page i x) b = if b = a then entryPtr x else tableAt roots m b := by
  have hangs : Hangs tableOps (forest roots m) a := by
    cases hat with
    | root => exact fun hne => absurd rfl hne
    | below hne => exact fun _ => by rw [List.dropLast_concat]; exact hne
  have hset : ∀ c, vmmShape.Valid c → ptr tableOps (set tableOps (forest roots m) a (entryPtr x)) c =
      if c = a then entryPtr x else tableAt roots m c := fun c hc =>
    ptr_set ht.tree ha hangs (entryPtr_lt x) (.inr ⟨hnull, hunref, hblank⟩) hc
  rw [← hset b hb]
  cases hat with
  | root hpml4 hi =>
    refine ptr_congr (S := vmmShape) (fun s _ => ?_) (fun c hc _ hne j => ?_) hb
    · rw [set_nil, forest_root]
      simp only
      by_cases hs : s = slotOf page i
      · subst hs
        rw [Function.update_self, slotOf_div (ht.rootPages _ hpml4).1 hi, slotOf_mod hi, if_pos hpml4,
          setWord_self, Function.update_self]
      · rw [Function.update_of_ne hs, forest_root]
        by_cases hpage : s / 256 * pageSize = page
        · have hmod : s % 256 ≠ i := by
            rintro rfl
            refine hs ?_
            unfold slotOf
            rw [← hpage, Nat.mul_div_cancel _ (by decide)]
            omega
          rw [hpage, setWord_self, Function.update_of_ne hmod]
        · rw [setWord_of_ne m hpage]
    · -- The nodes are no PML4s.
      have hptr := hset c hc
      rw [hptr] at hne ⊢
      rw [set_nil]
      refine congrArg (fun words : ℕ → ℕ => entryPtr (words j)) (setWord_of_ne m ?_ i x)
      rintro heq
      split at heq
      · exact hroot (heq ▸ hpml4)
      · rename_i hca
        rw [if_neg hca] at hne
        exact (ht.apart c hc hne).1 (heq ▸ hpml4)
  | @below t _ is hparent =>
    have hparentNe : ∀ q, q ≠ 0 → ptrTable q = ptrTable (tableAt roots m (t, is)) →
        q = tableAt roots m (t, is) := fun q hq heq => by
      rw [← tablePtr_ptrTable hq, heq, tablePtr_ptrTable hparent]
    refine ptr_congr (S := vmmShape) (fun s _ => ?_) (fun c hc _ hne j => ?_) hb
    · rw [set_concat]
      simp only
      rw [forest_root, forest_root]
      split
      · rename_i hmem
        have hpage : s / 256 * pageSize ≠ ptrTable (tableAt roots m (t, is)) := fun heq =>
          (ht.apart _ ha.init hparent).1 (heq ▸ hmem)
        rw [setWord_of_ne m hpage]
      · rfl
    · have hstore := store_set_concat (O := tableOps) (forest roots m) t is i (entryPtr x)
      rw [hset c hc] at hne ⊢
      generalize (if c = (t, is ++ [i]) then entryPtr x else tableAt roots m c) = p at hne ⊢
      rw [hstore, forest_store, tableOps_get]
      by_cases hp : p = tableAt roots m (t, is)
      · subst hp
        rw [setWord_self, tableAt, Function.update_self]
        by_cases hj : j = i
        · subst hj
          rw [Function.update_self, tableOps.get_put _ _ (entryPtr_lt x)]
        · rw [Function.update_of_ne hj, tableOps.get_put_of_ne _ _ (Ne.symm hj)]
          rfl
      · have hp' : p ≠ ptr tableOps (forest roots m) (t, is) := hp
        rw [setWord_of_ne m (fun heq => hp (hparentNe p hne heq)), Function.update_of_ne hp']
        rfl

/-! ## A new table -/

/-- The entry of the last level behind an address, 0 where there is no table -/
def leafEntry (roots : List ℕ) (m : PhysMem) (a : Addr) (j : ℕ) : ℕ :=
  if tableAt roots m a = 0 then 0 else m.words (ptrTable (tableAt roots m a)) j

/-- The next free page -/
theorem Tables.free_cons (ht : Tables roots free m) (h : m.freeListHead ≠ 0) :
    ∃ free', free = m.freeListHead :: free' ∧
      FreeChain m.words (m.words m.freeListHead 0) free' := by
  have hchain := ht.chain
  cases free with
  | nil => exact absurd hchain h
  | cons p ps =>
    obtain ⟨hhead, hrest⟩ := hchain
    exact ⟨ps, by rw [hhead], hhead ▸ hrest⟩

/-- A free page stands nowhere. -/
theorem Tables.unreferenced (ht : Tables roots free m) {p : ℕ} (hp : p ∈ free) {a : Addr}
    (ha : vmmShape.Valid a) : tableAt roots m a ≠ tablePtr p := by
  intro heq
  have hne : tableAt roots m a ≠ 0 := by
    rw [heq]
    exact Nat.succ_ne_zero _
  refine (ht.apart a ha hne).2 ?_
  rw [heq, ptrTable_tablePtr (ht.freePages p hp).2.1]
  exact hp

/-- A free page that is taken out of the list is blank and stands nowhere. -/
theorem Tables.alloc {p : ℕ} (ht : Tables roots (p :: free) m) :
    m.pmmAllocPage.1 = p ∧ Tables roots free m.pmmAllocPage.2 ∧
      (∀ a, vmmShape.Valid a → tableAt roots m.pmmAllocPage.2 a = tableAt roots m a) ∧
      m.pmmAllocPage.2.words p = (fun _ => 0) ∧
      ∀ q ≠ p, m.pmmAllocPage.2.words q = m.words q := by
  obtain ⟨hhead, hchain⟩ := ht.chain
  have hp := ht.freePages p List.mem_cons_self
  have halloc : m.pmmAllocPage = (p, { m with
      words := Function.update m.words p fun _ => 0
      freeListHead := m.words p 0
      pmmFreePageCount := m.pmmFreePageCount - 1 }) := by
    rw [PhysMem.pmmAllocPage, if_neg (by rw [hhead]; exact hp.1), hhead]
  rw [halloc]
  have hwords : ∀ q ≠ p, Function.update m.words p (fun _ => 0) q = m.words q := fun q hq =>
    Function.update_of_ne hq _ _
  have hroot : p ∉ roots := fun hmem => ht.rootsUsed p hmem List.mem_cons_self
  have hsame : ∀ a, vmmShape.Valid a → tableAt roots
      { m with
        words := Function.update m.words p fun _ => 0
        freeListHead := m.words p 0
        pmmFreePageCount := m.pmmFreePageCount - 1 } a = tableAt roots m a := by
    intro a ha
    refine tableAt_congr (fun q hq i => ?_) (fun b hb _ hne i => ?_) ha
    · exact congrFun (hwords q fun heq => hroot (heq ▸ hq)) i
    · exact congrFun (hwords _ fun heq => (ht.apart b hb hne).2 (heq ▸ List.mem_cons_self)) i
  refine ⟨rfl, ?_, hsame, Function.update_self p _ _, hwords⟩
  refine ⟨ht.rootPages, fun q hq => ht.freePages q (List.mem_cons_of_mem _ hq), ?_, ht.nodup.of_cons,
    fun q hq hmem => ht.rootsUsed q hq (List.mem_cons_of_mem _ hmem), ht.tree.congr hsame, fun a ha hne => ?_⟩
  · refine hchain.congr fun q hq => ?_
    have hqp : q ≠ p := by
      rintro rfl
      exact (List.nodup_cons.mp ht.nodup).1 hq
    exact congrFun (hwords q hqp) 0
  · rw [hsame a ha] at hne ⊢
    obtain ⟨h1, h2⟩ := ht.apart a ha hne
    exact ⟨h1, fun hmem => h2 (List.mem_cons_of_mem _ hmem)⟩

/-- Pointers are kept where they were, if the pointers are the same. -/
theorem EntryAt.congr {m' : PhysMem} {a : Addr} {page i : ℕ} (h : EntryAt roots m a page i)
    (ha : vmmShape.Valid a)
    (hsame : ∀ b, vmmShape.Valid b → tableAt roots m' b = tableAt roots m b) :
    EntryAt roots m' a page i := by
  cases h with
  | root hroot hi => exact .root hroot hi
  | below hne =>
    rw [← hsame _ ha.init] at hne ⊢
    exact .below hne

/-- A table of the last level holds no pointers. -/
theorem EntryAt.ne_leaf {a b : Addr} {page i : ℕ} (ht : Tables roots free m)
    (h : EntryAt roots m a page i) (ha : vmmShape.Valid a) (hb : vmmShape.Leaf b)
    (hne : tableAt roots m b ≠ 0) : ptrTable (tableAt roots m b) ≠ page := by
  intro heq
  cases h with
  | root hroot hi => exact (ht.apart b hb.1 hne).1 (heq ▸ hroot)
  | @below s _ is hparent =>
    have hsame : tableAt roots m b = tableAt roots m (s, is) := by
      rw [← tablePtr_ptrTable hne, heq, tablePtr_ptrTable hparent]
    have hbs := ht.tree b (s, is) hb.1 ha.init hne hsame
    have hlen : b.2.length = 2 := hb.2
    have hdepth : (is ++ [i]).length ≤ 2 := ha.depth
    rw [hbs] at hlen
    simp only [List.length_append, List.length_singleton] at hdepth hlen
    omega

/-- With a free page, a step down makes an entry for it. -/
theorem ensureTable_of_free {table i : ℕ} (hpresent : ¬ Present (m.words table i))
    (hhead : m.freeListHead ≠ 0) (flags : ℕ) :
    m.ensureTable table i flags = m.pmmAllocPage.2.setWord table i
      (m.pmmAllocPage.1 ||| pagePresent ||| pageRw ||| flags &&& pageUser) := by
  rw [PhysMem.ensureTable, if_neg hpresent, PhysMem.pmmAllocPage, if_neg hhead]
  simp [PhysMem.setWord, hhead]

/-- Without one, it is noted that there was none. -/
theorem starved_of_not_free {table i : ℕ} (hpresent : ¬ Present (m.words table i))
    (hhead : m.freeListHead = 0) (flags : ℕ) : (m.ensureTable table i flags).starved = true := by
  rw [PhysMem.ensureTable, if_neg hpresent, PhysMem.pmmAllocPage, if_pos hhead]
  simp

/-- The note stays. -/
theorem starved_ensureTable {table i flags : ℕ}
    (h : (m.ensureTable table i flags).starved = false) : m.starved = false := by
  by_cases hpresent : Present (m.words table i)
  · rwa [PhysMem.ensureTable, if_pos hpresent] at h
  · by_cases hhead : m.freeListHead = 0
    · rw [starved_of_not_free hpresent hhead] at h
      cases h
    · rw [ensureTable_of_free hpresent hhead, PhysMem.pmmAllocPage, if_neg hhead] at h
      exact h

/-- What linking the tables of a path does: no table that there was goes, and no entry of the last level
changes. -/
structure Linked (roots : List ℕ) (m m' : PhysMem) : Prop where
  keeps : ∀ a, vmmShape.Valid a → tableAt roots m a ≠ 0 → tableAt roots m' a = tableAt roots m a
  leaves : ∀ a, vmmShape.Leaf a → ∀ j, leafEntry roots m' a j = leafEntry roots m a j

theorem Linked.refl (roots : List ℕ) (m : PhysMem) : Linked roots m m :=
  ⟨fun _ _ _ => rfl, fun _ _ _ => rfl⟩

theorem Linked.trans {m' m'' : PhysMem} (h : Linked roots m m') (h' : Linked roots m' m'') :
    Linked roots m m'' where
  keeps a ha hne := by
    have hkeep := h.keeps a ha hne
    rw [h'.keeps a ha (hkeep.trans_ne hne), hkeep]
  leaves a ha j := (h'.leaves a ha j).trans (h.leaves a ha j)

theorem EntryAt.linked {m' : PhysMem} {a : Addr} {page i : ℕ} (h : EntryAt roots m a page i)
    (ha : vmmShape.Valid a) (hl : Linked roots m m') : EntryAt roots m' a page i := by
  cases h with
  | root hroot hi => exact .root hroot hi
  | below hne =>
    have hkeep := hl.keeps _ ha.init hne
    rw [← hkeep] at hne ⊢
    exact .below hne

/-- The address in the entry for a table that is there -/
theorem EntryAt.entryAddr_eq {a : Addr} {page i : ℕ} (h : EntryAt roots m a page i)
    (hroots : ∀ p ∈ roots, IsPage p) (hne : tableAt roots m a ≠ 0) :
    entryAddr (m.words page i) = ptrTable (tableAt roots m a) := by
  rw [h.tableAt_eq hroots] at hne ⊢
  unfold entryPtr at *
  split at hne
  · rename_i hpresent
    rw [if_pos hpresent, ptrTable_tablePtr (isPage_entryAddr _).1]
  · exact absurd rfl hne

/-- What an entry for the free page `p` does: the page is the table at the address, and nothing else
changes. -/
structure LinksTable (roots : List ℕ) (m m' : PhysMem) (a : Addr) (page i p : ℕ) : Prop where
  tableAt : ∀ b, vmmShape.Valid b → tableAt roots m' b = if b = a then tablePtr p else tableAt roots m b
  leaves : ∀ b, vmmShape.Leaf b → ∀ j, leafEntry roots m' b j = leafEntry roots m b j
  count : m'.pmmFreePageCount = m.pmmFreePageCount - 1
  starved : m'.starved = m.starved
  words : ∀ q ∈ roots, ∀ j, q = page → j ≠ i → m'.words q j = m.words q j
  others : ∀ q ∈ roots, q ≠ page → m'.words q = m.words q

/-- A step down, with a free page where there is no table -/
theorem Tables.link {p : ℕ} (ht : Tables roots (p :: free) m) {a : Addr} {page i : ℕ}
    (hat : EntryAt roots m a page i) (ha : vmmShape.Valid a) (hpresent : ¬ Present (m.words page i))
    (flags : ℕ) :
    Tables roots free (m.ensureTable page i flags) ∧
      LinksTable roots m (m.ensureTable page i flags) a page i p := by
  have hptr := hat.tableAt_eq ht.rootPages
  have hnull : tableAt roots m a = 0 := by rw [hptr, entryPtr, if_neg hpresent]
  have hhead : m.freeListHead ≠ 0 := by
    rw [ht.chain.1]
    exact (ht.freePages p List.mem_cons_self).1
  have heq := ensureTable_of_free hpresent hhead flags
  obtain ⟨hfst, ht₁, hsame, hblank, hwords⟩ := ht.alloc
  have hcount : m.pmmAllocPage.2.pmmFreePageCount = m.pmmFreePageCount - 1 ∧
      m.pmmAllocPage.2.starved = m.starved := by
    rw [PhysMem.pmmAllocPage, if_neg hhead]
    exact ⟨rfl, rfl⟩
  rw [hfst] at heq
  rw [heq]
  generalize m.pmmAllocPage.2 = m₁ at ht₁ hsame hblank hwords hcount ⊢
  have hpage := (ht.freePages p List.mem_cons_self).2
  have hx := entryPtr_table hpage flags
  generalize p ||| pagePresent ||| pageRw ||| flags &&& pageUser = x at hx ⊢
  have hptrTable : ptrTable (entryPtr x) = p := by rw [hx, ptrTable_tablePtr hpage.1]
  have hused := hat.used ht ha
  have hpagep : page ≠ p := fun h => hused (h ▸ List.mem_cons_self)
  have hrootp : ∀ q ∈ roots, q ≠ p := fun q hq h => ht.rootsUsed q hq (h ▸ List.mem_cons_self)
  have hset : ∀ b, vmmShape.Valid b → tableAt roots (m₁.setWord page i x) b =
      if b = a then entryPtr x else tableAt roots m b := by
    intro b hb
    rw [← hsame b hb]
    refine ht₁.tableAt_setWord (hat.congr ha hsame) ha ((hsame a ha).trans hnull) (fun c hc => ?_) ?_
      (fun j _ => ?_) hb
    · rw [hsame c hc, hx]
      exact ht.unreferenced List.mem_cons_self hc
    · rw [hptrTable]
      exact fun hmem => hrootp p hmem rfl
    · rw [hptrTable, hblank]
      exact show entryPtr 0 = 0 by decide
  refine ⟨⟨ht.rootPages, ht₁.freePages, ?_, ht₁.nodup, ht₁.rootsUsed, ?_, ?_⟩,
    ⟨hx ▸ hset, ?_, hcount.1, hcount.2, ?_, ?_⟩⟩
  · refine ht₁.chain.congr fun q hq => congrFun (setWord_of_ne m₁ ?_ i x) 0
    rintro rfl
    exact hused (List.mem_cons_of_mem _ hq)
  · refine ht.tree.of_ptr_set (v := entryPtr x) (fun b hb => ?_) hset
    rw [hx]
    exact ht.unreferenced List.mem_cons_self hb
  · intro b hb hne
    rw [hset b hb] at hne ⊢
    split
    · rw [hptrTable]
      exact ⟨fun hmem => hrootp p hmem rfl, (List.nodup_cons.mp ht.nodup).1⟩
    · rename_i hba
      rw [if_neg hba] at hne
      obtain ⟨h1, h2⟩ := ht.apart b hb hne
      exact ⟨h1, fun hmem => h2 (List.mem_cons_of_mem _ hmem)⟩
  · intro b hb j
    unfold leafEntry
    rw [hset b hb.1]
    by_cases hba : b = a
    · subst hba
      have hxne : entryPtr x ≠ 0 := by
        rw [hx]
        exact Nat.succ_ne_zero _
      rw [if_pos rfl, if_neg hxne, hptrTable, if_pos hnull, setWord_of_ne m₁ (Ne.symm hpagep), hblank]
    · rw [if_neg hba]
      by_cases hne : tableAt roots m b = 0
      · rw [if_pos hne, if_pos hne]
      · have hqp : ptrTable (tableAt roots m b) ≠ p := fun h =>
          (ht.apart b hb.1 hne).2 (h ▸ List.mem_cons_self)
        rw [if_neg hne, if_neg hne, setWord_of_ne m₁ (hat.ne_leaf ht ha hb hne), hwords _ hqp]
  · rintro q hq j rfl hj
    rw [setWord_self, Function.update_of_ne hj, hwords q (hrootp q hq)]
  · intro q hq hne
    rw [setWord_of_ne m₁ hne, hwords q (hrootp q hq)]

/-- A step down: the table at an address is there afterwards. -/
theorem Tables.ensureTable (ht : Tables roots free m) {a : Addr} {page i flags : ℕ}
    (hat : EntryAt roots m a page i) (ha : vmmShape.Valid a)
    (hmem : (m.ensureTable page i flags).starved = false) :
    ∃ free', Tables roots free' (m.ensureTable page i flags) ∧
      tableAt roots (m.ensureTable page i flags) a ≠ 0 ∧
      Linked roots m (m.ensureTable page i flags) := by
  have hptr := hat.tableAt_eq ht.rootPages
  by_cases hpresent : Present (m.words page i)
  · have heq : m.ensureTable page i flags = m := if_pos hpresent
    rw [heq, hptr, entryPtr, if_pos hpresent]
    exact ⟨free, ht, Nat.succ_ne_zero _, .refl roots m⟩
  · have hnull : tableAt roots m a = 0 := by rw [hptr, entryPtr, if_neg hpresent]
    have hhead : m.freeListHead ≠ 0 := by
      intro hzero
      rw [starved_of_not_free hpresent hzero] at hmem
      cases hmem
    obtain ⟨free', rfl, -⟩ := ht.free_cons hhead
    obtain ⟨ht', hl⟩ := ht.link hat ha hpresent flags
    refine ⟨free', ht', ?_, fun b hb hne => ?_, hl.leaves⟩
    · rw [hl.tableAt a ha, if_pos rfl]
      exact Nat.succ_ne_zero _
    · rw [hl.tableAt b hb, if_neg]
      rintro rfl
      exact hne hnull

/-! ## An entry of the last level -/

/-- A write to a table of the last level changes no pointer. -/
theorem Tables.tableAt_setLeaf (ht : Tables roots free m) {a : Addr} (ha : vmmShape.Leaf a)
    (hne : tableAt roots m a ≠ 0) (j x : ℕ) {b : Addr} (hb : vmmShape.Valid b) :
    tableAt roots (m.setWord (ptrTable (tableAt roots m a)) j x) b = tableAt roots m b := by
  refine tableAt_congr (fun q hq k => ?_) (fun c hc hlen hcne k => ?_) hb
  · refine congrFun (setWord_of_ne m ?_ j x) k
    rintro rfl
    exact (ht.apart a ha.1 hne).1 hq
  · refine congrFun (setWord_of_ne m (fun h => ?_) j x) k
    have heq : tableAt roots m c = tableAt roots m a := by
      rw [← tablePtr_ptrTable hcne, h, tablePtr_ptrTable hne]
    have hca : c = a := ht.tree c a hc ha.1 hcne heq
    have hfull : a.2.length = 2 := ha.2
    rw [hca] at hlen
    omega

/-- A write to a table of the last level changes one entry and no table. -/
theorem Tables.setLeaf (ht : Tables roots free m) {a : Addr} (ha : vmmShape.Leaf a)
    (hne : tableAt roots m a ≠ 0) (j x : ℕ) :
    Tables roots free (m.setWord (ptrTable (tableAt roots m a)) j x) ∧
      ∀ b, vmmShape.Leaf b → ∀ k, leafEntry roots (m.setWord (ptrTable (tableAt roots m a)) j x) b k =
        if b = a ∧ k = j then x else leafEntry roots m b k := by
  obtain ⟨hroots, hfree⟩ := ht.apart a ha.1 hne
  have hsame : ∀ b, vmmShape.Valid b →
      tableAt roots (m.setWord (ptrTable (tableAt roots m a)) j x) b = tableAt roots m b :=
    fun b hb => ht.tableAt_setLeaf ha hne j x hb
  refine ⟨⟨ht.rootPages, ht.freePages, ?_, ht.nodup, ht.rootsUsed, ht.tree.congr hsame, ?_⟩, ?_⟩
  · refine ht.chain.congr fun q hq => congrFun (setWord_of_ne m ?_ j x) 0
    rintro rfl
    exact hfree hq
  · intro b hb hbne
    rw [hsame b hb] at hbne ⊢
    exact ht.apart b hb hbne
  · intro b hb k
    unfold leafEntry
    rw [hsame b hb.1]
    by_cases hba : b = a
    · subst hba
      rw [if_neg hne, if_neg hne, setWord_self]
      by_cases hk : k = j
      · subst hk
        rw [Function.update_self, if_pos ⟨rfl, rfl⟩]
      · rw [Function.update_of_ne hk, if_neg fun h => hk h.2]
    · have hother : ¬ (b = a ∧ k = j) := fun h => hba h.1
      rw [if_neg hother]
      by_cases hbne : tableAt roots m b = 0
      · rw [if_pos hbne, if_pos hbne]
      · have hpages : ptrTable (tableAt roots m b) ≠ ptrTable (tableAt roots m a) := by
          intro h
          refine hba (ht.tree b a hb.1 ha.1 hbne ?_)
          show tableAt roots m b = tableAt roots m a
          rw [← tablePtr_ptrTable hbne, h, tablePtr_ptrTable hne]
        rw [if_neg hbne, if_neg hbne, setWord_of_ne m hpages]

end

end Sandflea
