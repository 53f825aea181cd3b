import Mathlib
import Sandflea.Lib.Words

/-!
# Physical memory and page tables

The page allocator and the page tables of `kern_vmm.c`. Memory is kept as the words of its pages, by the
physical address of the page and the index of the word. The free pages are linked through their first
words.
-/

namespace Sandflea

/-- Physical memory with the state of the page allocator. -/
structure PhysMem where
  /-- The 512 words of a page, by its address. -/
  words : ℕ → ℕ → ℕ
  /-- `free_list_head`, 0 when there is no free page -/
  freeListHead : ℕ
  pmmFreePageCount : ℕ
  /-- `vmm_map_page_in_pml4` found no free page for a table. -/
  starved : Bool

/-! ## Entries -/

/-- `PAGE_PRESENT` -/
def pagePresent : ℕ := 1

/-- `PAGE_RW` -/
def pageRw : ℕ := 2

/-- `PAGE_USER` -/
def pageUser : ℕ := 4

/-- `PTE_ADDR_MASK` -/
def pteAddrMask : ℕ := 0x000FFFFFFFFFF000

/-- `PML4_INDEX` -/
def pml4Index (virt : ℕ) : ℕ := virt / 2 ^ 39 % 512

/-- `PDPT_INDEX` -/
def pdptIndex (virt : ℕ) : ℕ := virt / 2 ^ 30 % 512

/-- `PD_INDEX` -/
def pdIndex (virt : ℕ) : ℕ := virt / 2 ^ 21 % 512

/-- `PT_INDEX` -/
def ptIndex (virt : ℕ) : ℕ := virt / 2 ^ 12 % 512

/-- An entry that is present -/
def Present (entry : ℕ) : Prop := entry &&& pagePresent ≠ 0

instance (entry : ℕ) : Decidable (Present entry) := inferInstanceAs (Decidable (_ ≠ _))

/-- The address in an entry -/
def entryAddr (entry : ℕ) : ℕ := entry &&& pteAddrMask

namespace PhysMem

/-- Write a word of a page. -/
def setWord (m : PhysMem) (page i x : ℕ) : PhysMem :=
  { m with words := Function.update m.words page (Function.update (m.words page) i x) }

/-! ## The page allocator -/

/-- `pmm_free` -/
def pmmFree (m : PhysMem) (phys : ℕ) : PhysMem :=
  if phys = 0 then m
  else
    { m.setWord phys 0 m.freeListHead with
      freeListHead := phys
      pmmFreePageCount := m.pmmFreePageCount + 1 }

/-- `pmm_alloc_page` -/
def pmmAllocPage (m : PhysMem) : ℕ × PhysMem :=
  if m.freeListHead = 0 then (0, m)
  else
    (m.freeListHead,
      { m with
        words := Function.update m.words m.freeListHead fun _ => 0
        freeListHead := m.words m.freeListHead 0
        pmmFreePageCount := m.pmmFreePageCount - 1 })

/-! ## Page tables -/

/-- An entry for a new table, where there is none: one of the three steps down of
`vmm_map_page_in_pml4`. -/
def ensureTable (m : PhysMem) (table i flags : ℕ) : PhysMem :=
  if Present (m.words table i) then m
  else
    let (newTable, m) := m.pmmAllocPage
    { m.setWord table i (newTable ||| pagePresent ||| pageRw ||| flags &&& pageUser) with
      starved := m.starved || newTable = 0 }

/-- `vmm_map_page_in_pml4` -/
def mapPageInPml4 (m : PhysMem) (pml4 phys virt flags : ℕ) : PhysMem :=
  let m := m.ensureTable pml4 (pml4Index virt) flags
  let pdpt := entryAddr (m.words pml4 (pml4Index virt))
  let m := m.ensureTable pdpt (pdptIndex virt) flags
  let pd := entryAddr (m.words pdpt (pdptIndex virt))
  let m := m.ensureTable pd (pdIndex virt) flags
  let pt := entryAddr (m.words pd (pdIndex virt))
  m.setWord pt (ptIndex virt) (phys ||| flags ||| pagePresent)

/-- The table that an entry points to -/
def nextTable (m : PhysMem) (table i : ℕ) : Option ℕ :=
  if Present (m.words table i) then some (entryAddr (m.words table i)) else none

/-- The walk down to the last table, with which `vmm_get_phys_in_pml4` and `vmm_unmap_page_in_pml4`
start -/
def findPt (m : PhysMem) (pml4 virt : ℕ) : Option ℕ := do
  let pdpt ← m.nextTable pml4 (pml4Index virt)
  let pd ← m.nextTable pdpt (pdptIndex virt)
  m.nextTable pd (pdIndex virt)

/-- `vmm_get_phys_in_pml4` -/
def getPhysInPml4 (m : PhysMem) (pml4 virt : ℕ) : ℕ :=
  match m.findPt pml4 virt with
  | none => 0
  | some pt =>
    if Present (m.words pt (ptIndex virt)) then entryAddr (m.words pt (ptIndex virt)) else 0

/-- `vmm_unmap_page_in_pml4` -/
def unmapPageInPml4 (m : PhysMem) (pml4 virt : ℕ) : PhysMem :=
  match m.findPt pml4 virt with
  | none => m
  | some pt => m.setWord pt (ptIndex virt) 0

end PhysMem

/-! ## Arithmetic of entries -/

/-- The address in an entry is that of a page below `2 ^ 52`. -/
theorem entryAddr_eq (e : ℕ) : entryAddr e = e / 2 ^ 12 % 2 ^ 40 * 2 ^ 12 := by
  have hmask : pteAddrMask = (2 ^ 40 - 1) <<< 12 := by decide
  rw [entryAddr, hmask, ← Nat.shiftLeft_eq]
  refine Nat.eq_of_testBit_eq fun i => ?_
  rw [Nat.testBit_and, Nat.testBit_shiftLeft, Nat.testBit_shiftLeft, Nat.testBit_two_pow_sub_one,
    Nat.testBit_mod_two_pow, Nat.testBit_div_two_pow]
  by_cases hi : 12 ≤ i
  · rw [Nat.sub_add_cancel hi]
    simp [hi, Bool.and_comm]
  · simp [hi]

theorem entryAddr_or (a b : ℕ) : entryAddr (a ||| b) = entryAddr a ||| entryAddr b :=
  Nat.and_or_distrib_right a b pteAddrMask

/-- The address of a page is the address in an entry for it. -/
theorem entryAddr_of_page {phys : ℕ} (hpage : pageSize ∣ phys) (hlt : phys < 2 ^ 52) :
    entryAddr phys = phys := by
  obtain ⟨f, rfl⟩ := hpage
  rw [entryAddr_eq, pageSize] at *
  omega

/-- An entry for a table -/
theorem entryAddr_table {table : ℕ} (hpage : pageSize ∣ table) (hlt : table < 2 ^ 52) (flags : ℕ) :
    entryAddr (table ||| pagePresent ||| pageRw ||| flags &&& pageUser) = table := by
  have huser : entryAddr (flags &&& pageUser) = 0 := by
    rw [entryAddr, Nat.and_assoc, show pageUser &&& pteAddrMask = 0 by decide, Nat.and_zero]
  have hpresent : entryAddr pagePresent = 0 := by decide
  have hrw : entryAddr pageRw = 0 := by decide
  rw [entryAddr_or, entryAddr_or, entryAddr_or, entryAddr_of_page hpage hlt, huser, hpresent, hrw,
    Nat.or_zero, Nat.or_zero, Nat.or_zero]

/-- An entry for a page -/
theorem entryAddr_map {phys flags : ℕ} (hpage : pageSize ∣ phys) (hlt : phys < 2 ^ 52)
    (hflags : entryAddr flags = 0) : entryAddr (phys ||| flags ||| pagePresent) = phys := by
  have hpresent : entryAddr pagePresent = 0 := by decide
  rw [entryAddr_or, entryAddr_or, entryAddr_of_page hpage hlt, hflags, hpresent, Nat.or_zero,
    Nat.or_zero]

theorem present_or_left {a : ℕ} (h : Present a) (b : ℕ) : Present (a ||| b) := by
  unfold Present at *
  rw [Nat.and_or_distrib_right]
  exact fun hor => h (Nat.or_eq_zero_iff.mp hor).1

theorem present_or_right (a : ℕ) {b : ℕ} (h : Present b) : Present (a ||| b) := by
  rw [Nat.or_comm]
  exact present_or_left h a

theorem present_pagePresent : Present pagePresent := by decide

/-- The entry for a table is present. -/
theorem present_table (table flags : ℕ) :
    Present (table ||| pagePresent ||| pageRw ||| flags &&& pageUser) :=
  present_or_left (present_or_left (present_or_right table present_pagePresent) _) _

end Sandflea
