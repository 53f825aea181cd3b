import Sandflea.Vmm.KernelHalf
import Sandflea.Vmm.KernelTables

/-!
# Mappings of devices

`vmm_mmio_map_phys` and `vmm_wc_map_phys` give out addresses from two bases below the kernel heap. Addresses
that they return translate to the device, and the ranges are disjoint (`device_maps_sound`), in runs in which
devices start at pages, the two kinds of addresses do not meet, and there are free pages for the tables. The
code checks for none of this. The offset of a device in its first page is dropped (`device_offset_dropped`), and
addresses for registers run over those for write-combining memory (`device_maps_meet`).
-/

namespace Sandflea

/-- The paths below entry 511 to the tables for some pages from an address on -/
def rangePaths (virt n : ℕ) : Finset (List ℕ) :=
  (Finset.range n).biUnion fun i => pagePaths (virt + i * pageSize)

/-- How many tables below entry 511 are missing for some pages from an address on -/
def PhysMem.missingTables (m : PhysMem) (pml4 virt n : ℕ) : ℕ :=
  ((rangePaths virt n).filter fun is => m.follow pml4 (511 :: is) = none).card

/-- The tables below entry 511 of the kernel process's PML4 are a tree, and the PML4 in use has its entry. -/
structure KernelTables (s : AddressSpaces) (free : List ℕ) : Prop where
  tables : Tables [s.kernelCr3] free (s.mem.lowered s.kernelCr3)
  count : s.mem.pmmFreePageCount = free.length
  image : Present (s.mem.words s.kernelCr3 511)
  synced : s.mem.words s.cr3 511 = s.mem.words s.kernelCr3 511
  running : s.cr3 ≠ s.kernelCr3 → BesideTables s.kernelCr3 free s.mem s.cr3

namespace AddressSpaces

/-- The physical address that an address translates to -/
def translate (s : AddressSpaces) (virt : ℕ) : ℕ := s.mem.getPhysInPml4 s.cr3 virt + virt % pageSize

/-- `vmm_mmio_map_phys` with its result -/
def vmmMmioMapPhys (s : AddressSpaces) (phys size : ℕ) : ℕ × AddressSpaces :=
  (if kheapStartAddr ≤ u64 (s.mmioVirtNext + pageCount size * pageSize) then 0 else s.mmioVirtNext,
    s.mmioMapPhys phys size)

/-- `vmm_wc_map_phys` with its result -/
def vmmWcMapPhys (s : AddressSpaces) (phys size : ℕ) : ℕ × AddressSpaces :=
  (if kheapStartAddr ≤ u64 (s.wcVirtNext + pageCount size * pageSize) then 0 else s.wcVirtNext,
    s.wcMapPhys phys size)

end AddressSpaces

/-- A mapping that was returned -/
structure DeviceMap where
  virt : ℕ
  phys : ℕ
  size : ℕ
deriving DecidableEq, Repr

/-- The addresses of a mapping -/
def DeviceMap.addrs (r : DeviceMap) : Set ℕ := Set.Ico r.virt (r.virt + r.size)

/-- The address spaces with the mappings that were returned, the last one first. -/
structure DeviceSpaces where
  spaces : AddressSpaces
  maps : List DeviceMap

/-- A call -/
inductive DeviceOp
  /-- `vmm_mmio_map_phys` -/
  | mmioMap (phys size : ℕ)
  /-- `vmm_wc_map_phys` -/
  | wcMap (phys size : ℕ)
deriving DecidableEq, Repr

/-- The mapping is recorded, unless the call returned 0. -/
def DeviceSpaces.record (d : DeviceSpaces) (phys size : ℕ) (r : ℕ × AddressSpaces) : DeviceSpaces where
  spaces := r.2
  maps := if r.1 = 0 then d.maps else ⟨r.1, phys, size⟩ :: d.maps

/-- The state after a call -/
def DeviceSpaces.step (d : DeviceSpaces) : DeviceOp → DeviceSpaces
  | .mmioMap phys size => d.record phys size (d.spaces.vmmMmioMapPhys phys size)
  | .wcMap phys size => d.record phys size (d.spaces.vmmWcMapPhys phys size)

/-- Every mapping translates to its device, and the mappings are apart from each other and from the heap. -/
structure DeviceSpaces.Sound (d : DeviceSpaces) : Prop where
  translates : ∀ r ∈ d.maps, ∀ k < r.size, d.spaces.translate (r.virt + k) = r.phys + k
  disjoint : d.maps.Pairwise fun r q => Disjoint r.addrs q.addrs
  heap : ∀ r ∈ d.maps, Disjoint r.addrs (Set.Ico kheapStartAddr d.spaces.heapEndAddr)

/-- The state after boot -/
structure DeviceSpaces.Boot (d : DeviceSpaces) : Prop where
  tables : ∃ free, KernelTables d.spaces free
  mmio : d.spaces.mmioVirtNext = mmioVirtBase
  wc : d.spaces.wcVirtNext = wcVirtBase
  maps : d.maps = []

/-- How many pages a size takes, without wrapping -/
def wholePages (size : ℕ) : ℕ := (size + pageSize - 1) / pageSize

/-- A device can be mapped at some address: it starts at a page and ends below `2 ^ 52`, its pages end below the
heap, and there are free pages for the tables. -/
structure MappableAt (s : AddressSpaces) (virt phys size : ℕ) : Prop where
  window : virt + wholePages size * pageSize < kheapStartAddr
  aligned : pageSize ∣ phys
  physical : phys + size ≤ 2 ^ 52
  tables : s.mem.missingTables s.kernelCr3 virt (wholePages size) ≤ s.mem.pmmFreePageCount

instance decidableMappableAt (s : AddressSpaces) (virt phys size : ℕ) :
    Decidable (MappableAt s virt phys size) :=
  decidable_of_iff
    (virt + wholePages size * pageSize < kheapStartAddr ∧ pageSize ∣ phys ∧ phys + size ≤ 2 ^ 52 ∧
      s.mem.missingTables s.kernelCr3 virt (wholePages size) ≤ s.mem.pmmFreePageCount)
    ⟨fun h => ⟨h.1, h.2.1, h.2.2.1, h.2.2.2⟩, fun h => ⟨h.window, h.aligned, h.physical, h.tables⟩⟩

/-- The calls that do as they should: those that return 0, those for nothing, and those for a device that can be
mapped, at addresses that the other function has not given out. -/
def DeviceOp.Fits (s : AddressSpaces) : DeviceOp → Prop
  | .mmioMap phys size =>
    (s.vmmMmioMapPhys phys size).1 = 0 ∨ size = 0 ∨
      MappableAt s s.mmioVirtNext phys size ∧
        (s.mmioVirtNext + wholePages size * pageSize ≤ wcVirtBase ∨ s.wcVirtNext = wcVirtBase)
  | .wcMap phys size =>
    (s.vmmWcMapPhys phys size).1 = 0 ∨ size = 0 ∨
      MappableAt s s.wcVirtNext phys size ∧ s.mmioVirtNext ≤ s.wcVirtNext

instance decidableDeviceFits (s : AddressSpaces) : ∀ op : DeviceOp, Decidable (op.Fits s)
  | .mmioMap _ _ => inferInstanceAs (Decidable (_ ∨ _ ∨ _ ∧ (_ ∨ _)))
  | .wcMap _ _ => inferInstanceAs (Decidable (_ ∨ _ ∨ _ ∧ _))

/-! ## Mapping pages -/

section

variable {s : AddressSpaces} {free : List ℕ}

/-- The tables that are missing, by what paths lead to -/
theorem KernelTables.missing_card (h : KernelTables s free) (virt n : ℕ) :
    s.mem.missingTables s.kernelCr3 virt n = (missingPaths s.kernelCr3 s.mem (rangePaths virt n)).card := by
  have hpage := h.tables.rootPages _ List.mem_cons_self
  unfold PhysMem.missingTables missingPaths
  refine congrArg Finset.card (Finset.filter_congr fun is his => ?_)
  obtain ⟨i, -, hi⟩ := Finset.mem_biUnion.mp his
  rw [h.tables.follow_high (valid_pagePaths hpage _ is hi)]
  by_cases hzero : highTable s.kernelCr3 s.mem is = 0
  · rw [if_pos hzero]
    exact ⟨fun _ => hzero, fun _ => rfl⟩
  · rw [if_neg hzero]
    exact ⟨nofun, fun heq => absurd heq hzero⟩

/-- The PML4 in use translates addresses below the entry as the kernel process's does. -/
theorem KernelTables.getPhys_cr3 (h : KernelTables s free) {virt : ℕ} (hvirt : pml4Index virt = 511) :
    s.mem.getPhysInPml4 s.cr3 virt = s.mem.getPhysInPml4 s.kernelCr3 virt := by
  have hnext : s.mem.nextTable s.cr3 511 = s.mem.nextTable s.kernelCr3 511 := by
    unfold PhysMem.nextTable
    rw [h.synced]
  unfold PhysMem.getPhysInPml4 PhysMem.findPt
  rw [hvirt, hnext]

/-- A word that is written again -/
theorem setWord_same (m : PhysMem) (page i : ℕ) : m.setWord page i (m.words page i) = m := by
  unfold PhysMem.setWord
  rw [Function.update_eq_self, Function.update_eq_self]

/-- `vmm_map_page` below the entry -/
theorem KernelTables.mapPage (h : KernelTables s free) (phys flags : ℕ) {virt : ℕ}
    (hge : 0xFFFFFF8000000000 ≤ virt) (hlt : virt < 2 ^ 64)
    (hroom : (missingPaths s.kernelCr3 s.mem (pagePaths virt)).card ≤ free.length) :
    ∃ free', KernelTables (s.mapPage phys virt flags) free' ∧
      s.mapPage phys virt flags = { s with mem := (s.mapPage phys virt flags).mem } ∧
      GrowsTables s.kernelCr3 s.mem (s.mapPage phys virt flags).mem free free' (pagePaths virt) ∧
      ∀ v, pml4Index v = 511 → (s.mapPage phys virt flags).mem.getPhysInPml4 s.kernelCr3 v =
        if pageOf v = pageOf virt then entryPhys (phys ||| flags ||| pagePresent)
        else s.mem.getPhysInPml4 s.kernelCr3 v := by
  have hvirt := pml4Index_high hge hlt
  have hhalf : kernelHalf ≤ virt := le_trans (by decide) hge
  have hpage := h.tables.rootPages _ List.mem_cons_self
  obtain ⟨free', hg, hentry⟩ := h.tables.mapHigh h.image hvirt hroom phys flags
  have hroot : (s.mem.mapPageInPml4 s.kernelCr3 phys virt flags).words s.cr3 511 =
      (s.mem.mapPageInPml4 s.kernelCr3 phys virt flags).words s.kernelCr3 511 := by
    by_cases hcr3 : s.cr3 = s.kernelCr3
    · rw [hcr3]
    · rw [(hg.apart _ (h.running hcr3)).2, hg.root]
      exact h.synced
  -- The entry that is copied to the PML4 in use is the one that is there.
  have heq : s.mapPage phys virt flags =
      { s with mem := s.mem.mapPageInPml4 s.kernelCr3 phys virt flags } := by
    unfold AddressSpaces.mapPage
    rw [if_pos hhalf]
    dsimp only
    rw [hvirt, ← hroot, setWord_same, ite_self]
  rw [heq]
  refine ⟨free', ⟨hg.tables, hg.pages h.count, ?_, hroot, fun hcr3 => (hg.apart _ (h.running hcr3)).1⟩, rfl, hg,
    fun v hv => ?_⟩
  · show Present ((s.mem.mapPageInPml4 s.kernelCr3 phys virt flags).words s.kernelCr3 511)
    rw [hg.root]
    exact h.image
  · have hleaf := leaf_highPt hpage v
    show (s.mem.mapPageInPml4 s.kernelCr3 phys virt flags).getPhysInPml4 s.kernelCr3 v = _
    rw [hg.tables.getPhys_high hv, h.tables.getPhys_high hv, hentry _ hleaf,
      if_congr (highPt_eq_iff hv hvirt) rfl rfl]
    split
    · rfl
    · rfl

/-- The address is that of a page among some. -/
theorem pageOf_high {v w : ℕ} (hv : 0xFFFFFF8000000000 ≤ v) (hv' : v < 2 ^ 64)
    (hw : 0xFFFFFF8000000000 ≤ w) (hw' : w < 2 ^ 64) : pageOf v = pageOf w ↔ v / 4096 = w / 4096 := by
  unfold pageOf
  omega

/-- The loop of the two functions: the pages translate to those of the device. -/
theorem KernelTables.mapPages (h : KernelTables s free) {phys virt n : ℕ} (flags : ℕ)
    (hge : 0xFFFFFF8000000000 ≤ virt) (hend : virt + n * pageSize < 2 ^ 64) (hvirt : pageSize ∣ virt)
    (hphys : pageSize ∣ phys) (hphysEnd : phys + n * pageSize ≤ 2 ^ 52) (hflags : entryAddr flags = 0)
    (hroom : (missingPaths s.kernelCr3 s.mem (rangePaths virt n)).card ≤ free.length) :
    ∃ free', KernelTables (s.mapPages phys virt flags n) free' ∧
      s.mapPages phys virt flags n = { s with mem := (s.mapPages phys virt flags n).mem } ∧
      GrowsTables s.kernelCr3 s.mem (s.mapPages phys virt flags n).mem free free' (rangePaths virt n) ∧
      ∀ v, 0xFFFFFF8000000000 ≤ v → v < 2 ^ 64 →
        (s.mapPages phys virt flags n).mem.getPhysInPml4 s.kernelCr3 v =
          if virt ≤ v ∧ v < virt + n * pageSize then phys + (v - virt) / pageSize * pageSize
          else s.mem.getPhysInPml4 s.kernelCr3 v := by
  have hpage := h.tables.rootPages _ List.mem_cons_self
  induction n with
  | zero =>
    refine ⟨free, h, rfl, .refl h.tables, fun v _ _ => ?_⟩
    rw [if_neg (by omega)]
    rfl
  | succ n ih =>
    have hsucc : rangePaths virt (n + 1) = rangePaths virt n ∪ pagePaths (virt + n * pageSize) := by
      unfold rangePaths
      rw [Finset.range_add_one, Finset.biUnion_insert, Finset.union_comm]
    have hvalid := valid_pagePaths hpage (virt + n * pageSize)
    rw [Nat.succ_mul] at hend hphysEnd
    rw [hsucc] at hroom ⊢
    have hroom₁ : (missingPaths s.kernelCr3 s.mem (rangePaths virt n)).card ≤ free.length :=
      (Finset.card_le_card (Finset.filter_subset_filter _ Finset.subset_union_left)).trans hroom
    obtain ⟨free₁, h₁, heq₁, hg₁, hphys₁⟩ := ih (by omega) (by omega) hroom₁
    have haddr : u64 (virt + n * pageSize) = virt + n * pageSize := u64_of_lt (by omega)
    have hdev : u64 (phys + n * pageSize) = phys + n * pageSize := u64_of_lt (by omega)
    unfold AddressSpaces.mapPages
    rw [haddr, hdev]
    have hkernel : (s.mapPages phys virt flags n).kernelCr3 = s.kernelCr3 := by rw [heq₁]
    have hroom₂ : (missingPaths (s.mapPages phys virt flags n).kernelCr3 (s.mapPages phys virt flags n).mem
        (pagePaths (virt + n * pageSize))).card ≤ free₁.length := by
      rw [hkernel]
      rw [missingPaths_union fun is his => hg₁.null is (hvalid is his)] at hroom
      have hcount := hg₁.count
      omega
    obtain ⟨free₂, h₂, heq₂, hg₂, hphys₂⟩ :=
      h₁.mapPage (phys + n * pageSize) flags (show _ ≤ virt + n * pageSize by omega) (by omega) hroom₂
    generalize s.mapPages phys virt flags n = s₁ at heq₁ hg₁ hphys₁ hkernel h₂ heq₂ hg₂ hphys₂ ⊢
    generalize s₁.mapPage (phys + n * pageSize) (virt + n * pageSize) flags = s₂ at h₂ heq₂ hg₂ hphys₂ ⊢
    rw [hkernel] at hg₂ hphys₂
    refine ⟨free₂, h₂, by rw [heq₂, heq₁], hg₁.trans hg₂ hvalid, fun v hv hv' => ?_⟩
    -- The new page is the last one.
    have hpageIs : IsPage (phys + n * pageSize) := by
      refine ⟨hphys.add (Nat.dvd_mul_left _ _), ?_⟩
      rw [pageSize] at hphysEnd ⊢
      omega
    have hentry : entryPhys (phys + n * pageSize ||| flags ||| pagePresent) = phys + n * pageSize := by
      rw [entryPhys, if_pos (present_or_right _ present_pagePresent),
        entryAddr_map hpageIs.1 hpageIs.2 hflags]
    rw [hphys₂ v (pml4Index_high hv hv'), hphys₁ v hv hv', hentry,
      if_congr (pageOf_high hv hv' (by omega) (by omega)) rfl rfl]
    obtain ⟨f, rfl⟩ := hvirt
    rw [Nat.succ_mul]
    unfold pageSize at *
    by_cases hlast : v / 4096 = (4096 * f + n * 4096) / 4096
    · rw [if_pos hlast, if_pos (by omega)]
      have hindex : (v - 4096 * f) / 4096 = n := by omega
      rw [hindex]
    · rw [if_neg hlast]
      refine if_congr ?_ rfl rfl
      omega

end

/-! ## Calls -/

/-- A mapping is below the next addresses of one of the two functions. -/
def DeviceMap.Placed (r : DeviceMap) (s : AddressSpaces) : Prop :=
  mmioVirtBase ≤ r.virt ∧ r.virt + r.size ≤ s.mmioVirtNext ∨
    wcVirtBase ≤ r.virt ∧ r.virt + r.size ≤ s.wcVirtNext

/-- What every call keeps -/
structure DeviceSpaces.Inv (d : DeviceSpaces) : Prop where
  tables : ∃ free, KernelTables d.spaces free
  mmio : mmioVirtBase ≤ d.spaces.mmioVirtNext ∧ d.spaces.mmioVirtNext < kheapStartAddr
  mmioPage : pageSize ∣ d.spaces.mmioVirtNext
  wc : wcVirtBase ≤ d.spaces.wcVirtNext ∧ d.spaces.wcVirtNext < kheapStartAddr
  wcPage : pageSize ∣ d.spaces.wcVirtNext
  apart : d.spaces.mmioVirtNext ≤ wcVirtBase ∨ d.spaces.wcVirtNext = wcVirtBase
  placed : ∀ r ∈ d.maps, r.size = 0 ∨ r.Placed d.spaces
  sound : d.Sound

section

variable {d : DeviceSpaces}

/-- A mapping that is apart from the others is added. -/
theorem DeviceSpaces.Sound.cons (h : d.Sound) {s : AddressSpaces} {r : DeviceMap}
    (hnew : ∀ k < r.size, s.translate (r.virt + k) = r.phys + k)
    (hold : ∀ q ∈ d.maps, ∀ k < q.size, s.translate (q.virt + k) = d.spaces.translate (q.virt + k))
    (hapart : ∀ q ∈ d.maps, Disjoint r.addrs q.addrs) (hbelow : r.virt + r.size ≤ kheapStartAddr)
    (hheap : s.heapEndAddr = d.spaces.heapEndAddr) : DeviceSpaces.Sound ⟨s, r :: d.maps⟩ where
  translates q hq k hk := by
    rcases List.mem_cons.mp hq with rfl | hq
    · exact hnew k hk
    · exact (hold q hq k hk).trans (h.translates q hq k hk)
  disjoint := List.pairwise_cons.mpr ⟨hapart, h.disjoint⟩
  heap q hq := by
    rcases List.mem_cons.mp hq with rfl | hq
    · rw [DeviceMap.addrs, Set.Ico_disjoint_Ico]
      exact le_trans (min_le_left _ _) (hbelow.trans (le_max_right _ _))
    · show Disjoint q.addrs (Set.Ico kheapStartAddr s.heapEndAddr)
      rw [hheap]
      exact h.heap q hq

/-- A mapping of nothing is apart from everything. -/
theorem DeviceSpaces.Sound.cons_empty (h : d.Sound) (virt phys : ℕ) :
    DeviceSpaces.Sound ⟨d.spaces, ⟨virt, phys, 0⟩ :: d.maps⟩ := by
  have hempty : DeviceMap.addrs ⟨virt, phys, 0⟩ = ∅ := Set.Ico_self _
  refine ⟨fun q hq k hk => ?_, List.pairwise_cons.mpr ⟨fun q _ => ?_, h.disjoint⟩, fun q hq => ?_⟩
  · rcases List.mem_cons.mp hq with rfl | hq
    · exact absurd hk (Nat.not_lt_zero _)
    · exact h.translates q hq k hk
  · rw [hempty]
    exact Set.empty_disjoint _
  · rcases List.mem_cons.mp hq with rfl | hq
    · rw [hempty]
      exact Set.empty_disjoint _
    · exact h.heap q hq

/-- Ranges of which one ends before the other starts -/
theorem DeviceMap.disjoint_addrs {r q : DeviceMap}
    (h : q.size = 0 ∨ q.virt + q.size ≤ r.virt ∨ r.virt + r.size ≤ q.virt) : Disjoint r.addrs q.addrs := by
  unfold DeviceMap.addrs
  rw [Set.Ico_disjoint_Ico]
  omega

/-- What a size takes in pages, when it ends below the heap -/
theorem MappableAt.pageCount_eq {s : AddressSpaces} {virt phys size : ℕ} (h : MappableAt s virt phys size)
    (hge : mmioVirtBase ≤ virt) :
    AddressSpaces.pageCount size = wholePages size ∧ size ≤ wholePages size * pageSize := by
  have hwindow := h.window
  unfold AddressSpaces.pageCount wholePages u64 at *
  unfold mmioVirtBase at hge
  unfold kheapStartAddr pageSize at *
  constructor
  · rw [Nat.mod_eq_of_lt]
    omega
  · omega

/-- The pages of a device that can be mapped are mapped, at addresses that were not given out. -/
theorem DeviceSpaces.Inv.add (h : d.Inv) {virt phys size flags : ℕ} (hmap : MappableAt d.spaces virt phys size)
    (hge : mmioVirtBase ≤ virt) (hpage : pageSize ∣ virt) (hflags : entryAddr flags = 0)
    (hfresh : ∀ q ∈ d.maps,
      q.size = 0 ∨ q.virt + q.size ≤ virt ∨ virt + wholePages size * pageSize ≤ q.virt) :
    ∃ m free, d.spaces.mapPages (phys - phys % pageSize) virt flags (AddressSpaces.pageCount size) =
        { d.spaces with mem := m } ∧
      KernelTables { d.spaces with mem := m } free ∧
      DeviceSpaces.Sound ⟨{ d.spaces with mem := m }, ⟨virt, phys, size⟩ :: d.maps⟩ := by
  obtain ⟨free, ht⟩ := h.tables
  obtain ⟨hcount, hsize⟩ := hmap.pageCount_eq hge
  have hwindow := hmap.window
  have hphysical := hmap.physical
  have hbase : 0xFFFFFF8000000000 ≤ mmioVirtBase := by decide
  have hheap : kheapStartAddr < 2 ^ 64 := by decide
  have hphysEnd : phys + wholePages size * pageSize ≤ 2 ^ 52 := by
    obtain ⟨f, rfl⟩ := hmap.aligned
    unfold wholePages pageSize at *
    omega
  have hroom : (missingPaths d.spaces.kernelCr3 d.spaces.mem (rangePaths virt (wholePages size))).card ≤
      free.length := by
    rw [← ht.missing_card, ← ht.count]
    exact hmap.tables
  obtain ⟨free', ht', heq, -, hphys⟩ := ht.mapPages flags (by omega) (by omega) hpage hmap.aligned hphysEnd
    hflags hroom
  have hstart : phys - phys % pageSize = phys := by rw [Nat.mod_eq_zero_of_dvd hmap.aligned, Nat.sub_zero]
  rw [hstart, hcount]
  generalize d.spaces.mapPages phys virt flags (wholePages size) = s at ht' heq hphys ⊢
  have hcr3 : s.cr3 = d.spaces.cr3 ∧ s.kernelCr3 = d.spaces.kernelCr3 ∧
      s.heapEndAddr = d.spaces.heapEndAddr := by
    rw [heq]
    exact ⟨rfl, rfl, rfl⟩
  have htranslate : ∀ v, mmioVirtBase ≤ v → v < kheapStartAddr → s.translate v =
      (if virt ≤ v ∧ v < virt + wholePages size * pageSize then phys + (v - virt) / pageSize * pageSize
        else d.spaces.mem.getPhysInPml4 d.spaces.cr3 v) + v % pageSize := by
    intro v hv hv'
    have hindex := pml4Index_high (show _ ≤ v by omega) (show v < 2 ^ 64 by omega)
    rw [AddressSpaces.translate, ht'.getPhys_cr3 hindex, hcr3.2.1, hphys v (by omega) (by omega),
      ht.getPhys_cr3 hindex]
  refine ⟨s.mem, free', heq, heq ▸ ht', heq ▸ h.sound.cons (fun k hk => ?_) (fun q hq k hk => ?_)
    (fun q hq => ?_) ?_ hcr3.2.2⟩
  · show s.translate (virt + k) = phys + k
    have hk : k < size := hk
    rw [htranslate _ (by omega) (by omega), if_pos (by omega), Nat.add_sub_cancel_left]
    obtain ⟨f, rfl⟩ := hpage
    rw [Nat.mul_add_mod, Nat.add_assoc, Nat.mul_comm, Nat.div_add_mod]
  · have hplaced := (h.placed q hq).resolve_left (by omega)
    have hq0 := (hfresh q hq).resolve_left (by omega)
    have hin : mmioVirtBase ≤ q.virt ∧ q.virt + q.size ≤ kheapStartAddr := by
      have hwc : mmioVirtBase ≤ wcVirtBase := by decide
      have := h.mmio.2
      have := h.wc.2
      rcases hplaced with hplaced | hplaced
      · omega
      · omega
    rw [htranslate _ (by omega) (by omega), if_neg (by omega)]
    rfl
  · refine DeviceMap.disjoint_addrs ?_
    have hq0 := hfresh q hq
    simp only
    omega
  · show virt + size ≤ kheapStartAddr
    omega

/-- Nothing takes no pages. -/
theorem pageCount_zero : AddressSpaces.pageCount 0 = 0 := by decide

/-- A call that returns an address goes on from there. -/
theorem vmmMmioMapPhys_eq {s : AddressSpaces} {phys size : ℕ} (hne : (s.vmmMmioMapPhys phys size).1 ≠ 0) :
    s.vmmMmioMapPhys phys size = (s.mmioVirtNext,
      { s.mapPages (phys - phys % pageSize) s.mmioVirtNext (pageRw ||| pagePcd ||| pagePwt)
          (AddressSpaces.pageCount size) with
        mmioVirtNext := u64 (s.mmioVirtNext + AddressSpaces.pageCount size * pageSize) }) := by
  unfold AddressSpaces.vmmMmioMapPhys AddressSpaces.mmioMapPhys at *
  by_cases hguard : kheapStartAddr ≤ u64 (s.mmioVirtNext + AddressSpaces.pageCount size * pageSize)
  · exact absurd (if_pos hguard) hne
  · rw [if_neg hguard, if_neg hguard]

theorem vmmWcMapPhys_eq {s : AddressSpaces} {phys size : ℕ} (hne : (s.vmmWcMapPhys phys size).1 ≠ 0) :
    s.vmmWcMapPhys phys size = (s.wcVirtNext,
      { s.mapPages (phys - phys % pageSize) s.wcVirtNext (pageRw ||| pagePwt)
          (AddressSpaces.pageCount size) with
        wcVirtNext := u64 (s.wcVirtNext + AddressSpaces.pageCount size * pageSize) }) := by
  unfold AddressSpaces.vmmWcMapPhys AddressSpaces.wcMapPhys at *
  by_cases hguard : kheapStartAddr ≤ u64 (s.wcVirtNext + AddressSpaces.pageCount size * pageSize)
  · exact absurd (if_pos hguard) hne
  · rw [if_neg hguard, if_neg hguard]

/-- A call that returns 0 does nothing. -/
theorem vmmMmioMapPhys_refused {s : AddressSpaces} {phys size : ℕ} (hnext : s.mmioVirtNext ≠ 0)
    (hzero : (s.vmmMmioMapPhys phys size).1 = 0) : s.vmmMmioMapPhys phys size = (0, s) := by
  unfold AddressSpaces.vmmMmioMapPhys AddressSpaces.mmioMapPhys at *
  by_cases hguard : kheapStartAddr ≤ u64 (s.mmioVirtNext + AddressSpaces.pageCount size * pageSize)
  · rw [if_pos hguard, if_pos hguard]
  · exact absurd ((if_neg hguard).symm.trans hzero) hnext

theorem vmmWcMapPhys_refused {s : AddressSpaces} {phys size : ℕ} (hnext : s.wcVirtNext ≠ 0)
    (hzero : (s.vmmWcMapPhys phys size).1 = 0) : s.vmmWcMapPhys phys size = (0, s) := by
  unfold AddressSpaces.vmmWcMapPhys AddressSpaces.wcMapPhys at *
  by_cases hguard : kheapStartAddr ≤ u64 (s.wcVirtNext + AddressSpaces.pageCount size * pageSize)
  · rw [if_pos hguard, if_pos hguard]
  · exact absurd ((if_neg hguard).symm.trans hzero) hnext

/-- The mapping of nothing -/
theorem DeviceSpaces.Inv.addEmpty (h : d.Inv) (virt phys : ℕ) :
    DeviceSpaces.Inv ⟨d.spaces, ⟨virt, phys, 0⟩ :: d.maps⟩ :=
  ⟨h.tables, h.mmio, h.mmioPage, h.wc, h.wcPage, h.apart, List.forall_mem_cons.mpr ⟨.inl rfl, h.placed⟩,
    h.sound.cons_empty virt phys⟩

/-- `vmm_mmio_map_phys` -/
theorem DeviceSpaces.Inv.mmioMap (h : d.Inv) {phys size : ℕ} (hop : (DeviceOp.mmioMap phys size).Fits d.spaces) :
    (d.step (.mmioMap phys size)).Inv := by
  have hnext : d.spaces.mmioVirtNext ≠ 0 := (lt_of_lt_of_le (by decide) h.mmio.1).ne'
  have hheap : kheapStartAddr < 2 ^ 64 := by decide
  show (d.record phys size (d.spaces.vmmMmioMapPhys phys size)).Inv
  by_cases hzero : (d.spaces.vmmMmioMapPhys phys size).1 = 0
  · rw [vmmMmioMapPhys_refused hnext hzero]
    exact h
  rw [vmmMmioMapPhys_eq hzero]
  unfold DeviceSpaces.record
  rw [if_neg hnext]
  rcases hop.resolve_left hzero with rfl | ⟨hmap, hapart⟩
  · rw [pageCount_zero, Nat.zero_mul, Nat.add_zero, u64_of_lt (h.mmio.2.trans hheap)]
    exact h.addEmpty d.spaces.mmioVirtNext phys
  obtain ⟨hcount, hsize⟩ := hmap.pageCount_eq h.mmio.1
  have hwindow := hmap.window
  -- The mappings for write-combining memory are above.
  have hfresh : ∀ q ∈ d.maps, q.size = 0 ∨ q.virt + q.size ≤ d.spaces.mmioVirtNext ∨
      d.spaces.mmioVirtNext + wholePages size * pageSize ≤ q.virt := by
    intro q hq
    rcases h.placed q hq with hnone | ⟨-, hend⟩ | ⟨hstart, hend⟩
    · exact .inl hnone
    · exact .inr (.inl hend)
    · rcases hapart with hbelow | hunused
      · exact .inr (.inr (hbelow.trans hstart))
      · exact .inl (by omega)
  obtain ⟨m, free, heq, htables, hsound⟩ :=
    h.add hmap h.mmio.1 h.mmioPage (show entryAddr (pageRw ||| pagePcd ||| pagePwt) = 0 by decide) hfresh
  rw [heq, hcount, u64_of_lt (hwindow.trans hheap)]
  have hgrown : d.spaces.mmioVirtNext ≤ d.spaces.mmioVirtNext + wholePages size * pageSize :=
    Nat.le_add_right _ _
  exact {
    tables := ⟨free, htables.tables, htables.count, htables.image, htables.synced, htables.running⟩
    mmio := ⟨h.mmio.1.trans hgrown, hwindow⟩
    mmioPage := h.mmioPage.add (Nat.dvd_mul_left _ _)
    wc := h.wc
    wcPage := h.wcPage
    apart := hapart
    placed := List.forall_mem_cons.mpr ⟨.inr (.inl ⟨h.mmio.1, Nat.add_le_add_left hsize _⟩), fun q hq =>
      (h.placed q hq).imp id fun hplaced => hplaced.imp (fun hin => ⟨hin.1, hin.2.trans hgrown⟩) id⟩
    sound := ⟨hsound.translates, hsound.disjoint, hsound.heap⟩ }

/-- `vmm_wc_map_phys` -/
theorem DeviceSpaces.Inv.wcMap (h : d.Inv) {phys size : ℕ} (hop : (DeviceOp.wcMap phys size).Fits d.spaces) :
    (d.step (.wcMap phys size)).Inv := by
  have hnext : d.spaces.wcVirtNext ≠ 0 := (lt_of_lt_of_le (by decide) h.wc.1).ne'
  have hheap : kheapStartAddr < 2 ^ 64 := by decide
  have hbase : mmioVirtBase ≤ d.spaces.wcVirtNext := le_trans (by decide) h.wc.1
  show (d.record phys size (d.spaces.vmmWcMapPhys phys size)).Inv
  by_cases hzero : (d.spaces.vmmWcMapPhys phys size).1 = 0
  · rw [vmmWcMapPhys_refused hnext hzero]
    exact h
  rw [vmmWcMapPhys_eq hzero]
  unfold DeviceSpaces.record
  rw [if_neg hnext]
  rcases hop.resolve_left hzero with rfl | ⟨hmap, hapart⟩
  · rw [pageCount_zero, Nat.zero_mul, Nat.add_zero, u64_of_lt (h.wc.2.trans hheap)]
    exact h.addEmpty d.spaces.wcVirtNext phys
  obtain ⟨hcount, hsize⟩ := hmap.pageCount_eq hbase
  have hwindow := hmap.window
  -- The mappings for registers are below.
  have hfresh : ∀ q ∈ d.maps, q.size = 0 ∨ q.virt + q.size ≤ d.spaces.wcVirtNext ∨
      d.spaces.wcVirtNext + wholePages size * pageSize ≤ q.virt := by
    intro q hq
    rcases h.placed q hq with hnone | ⟨-, hend⟩ | ⟨-, hend⟩
    · exact .inl hnone
    · exact .inr (.inl (hend.trans hapart))
    · exact .inr (.inl hend)
  obtain ⟨m, free, heq, htables, hsound⟩ :=
    h.add hmap hbase h.wcPage (show entryAddr (pageRw ||| pagePwt) = 0 by decide) hfresh
  rw [heq, hcount, u64_of_lt (hwindow.trans hheap)]
  have hgrown : d.spaces.wcVirtNext ≤ d.spaces.wcVirtNext + wholePages size * pageSize :=
    Nat.le_add_right _ _
  have hbelow : d.spaces.mmioVirtNext ≤ wcVirtBase :=
    h.apart.elim id fun hunused => hapart.trans hunused.le
  exact {
    tables := ⟨free, htables.tables, htables.count, htables.image, htables.synced, htables.running⟩
    mmio := h.mmio
    mmioPage := h.mmioPage
    wc := ⟨h.wc.1.trans hgrown, hwindow⟩
    wcPage := h.wcPage.add (Nat.dvd_mul_left _ _)
    apart := .inl hbelow
    placed := List.forall_mem_cons.mpr ⟨.inr (.inr ⟨h.wc.1, Nat.add_le_add_left hsize _⟩), fun q hq =>
      (h.placed q hq).imp id fun hplaced => hplaced.imp id fun hin => ⟨hin.1, hin.2.trans hgrown⟩⟩
    sound := ⟨hsound.translates, hsound.disjoint, hsound.heap⟩ }

/-- Every call keeps the invariant. -/
theorem DeviceSpaces.Inv.step (h : d.Inv) {op : DeviceOp} (hop : op.Fits d.spaces) : (d.step op).Inv := by
  cases op with
  | mmioMap phys size => exact h.mmioMap hop
  | wcMap phys size => exact h.wcMap hop

theorem DeviceSpaces.Boot.inv (h : d.Boot) : d.Inv where
  tables := h.tables
  mmio := by
    rw [h.mmio]
    decide
  mmioPage := by
    rw [h.mmio]
    decide
  wc := by
    rw [h.wc]
    decide
  wcPage := by
    rw [h.wc]
    decide
  apart := .inr h.wc
  placed := by
    rw [h.maps]
    exact fun r hr => nomatch hr
  sound := by
    have hnone : ∀ r, r ∉ d.maps := by
      rw [h.maps]
      exact fun r hr => nomatch hr
    refine ⟨fun r hr => absurd hr (hnone r), ?_, fun r hr => absurd hr (hnone r)⟩
    rw [h.maps]
    exact .nil

/-- In every run after boot whose calls fit, every mapping that was returned translates to its device, and the
mappings are apart from each other and from the heap. -/
theorem device_maps_sound (h : d.Boot) {ops : List DeviceOp}
    (hops : Runs.Along DeviceSpaces.step (fun d op => op.Fits d.spaces) d ops) :
    Runs.Always DeviceSpaces.step DeviceSpaces.Sound d ops :=
  (Runs.always_of_along (P := DeviceSpaces.Inv) (fun _ _ hd hop => hd.step hop) h.inv hops).mono
    fun _ hd => hd.sound

end

/-- After boot there is one table below entry 511. -/
theorem kernelTables_bootSpaces {pages : ℕ} {free : List ℕ}
    (hfree : FreeChain (bootSpaces pages).mem.words 12288 free) (hnodup : free.Nodup)
    (hpages : ∀ p ∈ free, 12288 ≤ p ∧ IsPage p) (hlen : free.length = pages) :
    KernelTables (bootSpaces pages) free := by
  have hself : ((bootSpaces pages).mem.lowered 4096).words 4096 = fun i => if i = 255 then 8195 else 0 := by
    unfold PhysMem.lowered
    simp only [Function.update_self]
    rfl
  have hother : ∀ q ≠ 4096, ((bootSpaces pages).mem.lowered 4096).words q = (bootSpaces pages).mem.words q :=
    fun q hq => lowered_words_of_ne hq
  have hroot : ∀ s, (forest [4096] ((bootSpaces pages).mem.lowered 4096)).root s =
      if s = slotOf 4096 255 then tablePtr 8192 else 0 := by
    intro s
    rw [forest_root]
    by_cases hs : s = slotOf 4096 255
    · rw [hs, if_pos rfl, if_pos (by decide), show slotOf 4096 255 / 256 * pageSize = 4096 by decide, hself]
      decide
    · rw [if_neg hs]
      split
      · rename_i hmem
        have hpage : s / 256 * pageSize = 4096 := List.mem_singleton.mp hmem
        have hmod : s % 256 ≠ 255 := by
          unfold slotOf pageSize at *
          omega
        rw [hpage, hself]
        simp only [if_neg hmod]
        decide
      · rfl
  -- The table is blank.
  have hblank : ∀ i, ((bootSpaces pages).mem.lowered 4096).words 8192 i = 0 := by
    intro i
    rw [hother 8192 (by decide)]
    unfold bootSpaces
    dsimp only
    rw [if_neg (by omega), if_neg (by omega)]
  have htable : ∀ s is, tableAt [4096] ((bootSpaces pages).mem.lowered 4096) (s, is) =
      if s = slotOf 4096 255 ∧ is = [] then tablePtr 8192 else 0 := by
    intro s is
    unfold tableAt PointerTree.ptr
    rw [hroot]
    by_cases hs : s = slotOf 4096 255
    · rw [if_pos hs]
      cases is with
      | nil => rw [if_pos ⟨hs, rfl⟩, PointerTree.walk_nil]
      | cons i is =>
        have hzero : tableOps.get ((forest [4096] ((bootSpaces pages).mem.lowered 4096)).store
            (tablePtr 8192)) i = 0 := by
          rw [forest_store, ptrTable_tablePtr (by decide), tableOps_get, hblank]
          decide
        rw [if_neg (by simp), PointerTree.walk, if_neg (by decide), hzero, PointerTree.walk_zero]
    · rw [if_neg hs, if_neg fun h => hs h.1, PointerTree.walk_zero]
  have hne : ∀ a, tableAt [4096] ((bootSpaces pages).mem.lowered 4096) a ≠ 0 → a = (slotOf 4096 255, []) := by
    rintro ⟨s, is⟩ hne
    rw [htable] at hne
    split at hne
    · rename_i heq
      rw [heq.1, heq.2]
    · exact absurd rfl hne
  have htables : Tables [4096] free ((bootSpaces pages).mem.lowered 4096) := by
    refine ⟨fun p hp => ?_, fun p hp => ⟨?_, (hpages p hp).2⟩, ?_, hnodup, fun p hp hmem => ?_,
      fun a b _ _ ha hab => ?_, fun a _ ha => ?_⟩
    · rw [List.mem_singleton.mp hp]
      decide
    · have := (hpages p hp).1
      omega
    · refine FreeChain.congr (show FreeChain _ 12288 free from hfree) fun p hp => ?_
      rw [hother p (by have := (hpages p hp).1; omega)]
    · have := (hpages p hmem).1
      rw [List.mem_singleton.mp hp] at this
      exact absurd this (by decide)
    · rw [hne a ha, hne b (fun hzero => ha (hab.trans hzero))]
    · rw [hne a ha, htable, if_pos ⟨rfl, rfl⟩]
      exact ⟨by decide, fun hmem => absurd (hpages _ hmem).1 (by decide)⟩
  exact ⟨htables, hlen.symm, show Present 8195 by decide, rfl, fun h => absurd rfl h⟩

/-- The state after boot with five free pages -/
def bootDevices : DeviceSpaces := ⟨bootSpaces 5, []⟩

theorem boot_bootDevices : bootDevices.Boot where
  tables := ⟨[12288, 16384, 20480, 24576, 28672],
    kernelTables_bootSpaces (by decide) (by decide) (by decide) rfl⟩
  mmio := rfl
  wc := rfl
  maps := rfl

/-- A device is mapped, a call is refused, and another device is mapped. -/
def devicesRun : List DeviceOp :=
  [.mmioMap 0xfeb00000 16, .wcMap 0xd0000000 0x58000000, .wcMap 0xe0000000 4097]

theorem device_maps_sound_devicesRun : Runs.Always DeviceSpaces.step DeviceSpaces.Sound bootDevices devicesRun :=
  device_maps_sound boot_bootDevices (by decide +kernel)

/-- A device that does not start at a page is mapped. -/
def offsetRun : List DeviceOp := [.mmioMap 0xfeb00800 16]

/-- A page is mapped for write-combining memory, and registers of more than 256 MiB. -/
def meetingRun : List DeviceOp := [.wcMap 0xe0000000 4096, .mmioMap 0x4000000000 0x10001000]

/-- The offset of the device in its page is dropped, and the two kinds of addresses meet. -/
theorem device_maps_unsound :
    bootDevices.Boot ∧ ¬ Runs.Always DeviceSpaces.step DeviceSpaces.Sound bootDevices offsetRun ∧
      ¬ Runs.Always DeviceSpaces.step DeviceSpaces.Sound bootDevices meetingRun := by
  refine ⟨boot_bootDevices, fun h => ?_, fun h => ?_⟩
  · have hfirst := h.last.translates ⟨mmioVirtBase, 0xfeb00800, 16⟩ (by decide +kernel) 0 (by decide)
    exact absurd hfirst (by decide +kernel)
  · have hmaps : (Runs.runAll DeviceSpaces.step bootDevices meetingRun).maps =
        [⟨mmioVirtBase, 0x4000000000, 0x10001000⟩, ⟨wcVirtBase, 0xe0000000, 4096⟩] := by
      decide +kernel
    have hapart := h.last.disjoint
    rw [hmaps] at hapart
    have hmeet := (List.pairwise_cons.mp hapart).1 _ (List.mem_singleton_self _)
    rw [DeviceMap.addrs, DeviceMap.addrs, Set.Ico_disjoint_Ico] at hmeet
    exact absurd hmeet (by decide)

end Sandflea
