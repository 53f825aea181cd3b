import Mathlib

/-!
# Enumeration of the PCI functions

`pci_init_system` asks every bus and slot for its functions and lists them. It reads the vendor id of function 0 once
for the whole slot and gives it to every entry of the slot, and it stops at the first function that is missing. What the
list should be is `Enumerates`; `enumerates_iff` says for which configuration spaces it is.
-/

namespace Sandflea

namespace Pci

/-- The configuration registers, by bus, slot, function and number -/
abbrev ConfigSpace := ℕ → ℕ → ℕ → ℕ → UInt32

/-- `pci_device_t`, without the interrupt line, which nothing sets -/
structure PciDevice where
  bus : ℕ
  slot : ℕ
  func : ℕ
  vendorId : UInt16
  deviceId : UInt16
  classCode : UInt8
  subclass : UInt8
  progIf : UInt8
  bars : List UInt32
deriving DecidableEq

/-- Where a device is -/
def PciDevice.place (dev : PciDevice) : ℕ × ℕ × ℕ := (dev.bus, dev.slot, dev.func)

/-! ## The code -/

section

variable (space : ConfigSpace)

/-- What the data port gives for an address at the address port: the bus is in the bits from 16 on, the slot in those
from 11 on, the function in those from 8 on, the register in those from 2 on. -/
def configData (addr : UInt32) : UInt32 :=
  space (addr.toNat / 2 ^ 16 % 2 ^ 8) (addr.toNat / 2 ^ 11 % 2 ^ 5) (addr.toNat / 2 ^ 8 % 2 ^ 3)
    (addr.toNat / 2 ^ 2 % 2 ^ 6)

/-- What is written to the address port -/
def configAddr (bus slot func offset : ℕ) : UInt32 :=
  UInt32.ofNat (bus <<< 16 ||| slot <<< 11 ||| func <<< 8 ||| offset &&& 0xFC ||| 0x80000000)

/-- `pci_read_32` -/
def pciRead32 (bus slot func offset : ℕ) : UInt32 := configData space (configAddr bus slot func offset)

/-- `pci_read_16` -/
def pciRead16 (bus slot func offset : ℕ) : UInt16 :=
  (configData space (configAddr bus slot func offset) >>> UInt32.ofNat ((offset &&& 2) * 8) &&& 0xFFFF).toUInt16

/-- The entry that `pci_register_device` puts before the list -/
def pciRegisterDevice (bus slot func : ℕ) (vendor device : UInt16) : PciDevice where
  bus := bus
  slot := slot
  func := func
  vendorId := vendor
  deviceId := device
  classCode := (pciRead32 space bus slot func 0x08 >>> 24 &&& 0xFF).toUInt8
  subclass := (pciRead32 space bus slot func 0x08 >>> 16 &&& 0xFF).toUInt8
  progIf := (pciRead32 space bus slot func 0x08 >>> 8 &&& 0xFF).toUInt8
  bars := (List.range 6).map fun i => pciRead32 space bus slot func (0x10 + i * 4)

/-- The loop over the functions of a slot, from `func` on -/
def scanFuncs (bus slot : ℕ) (vendorId : UInt16) : ℕ → ℕ → List PciDevice → List PciDevice
  | 0, _, list => list
  | n + 1, func, list =>
    if pciRead16 space bus slot func 0x00 = 0xFFFF then
      if func > 0 then list else scanFuncs bus slot vendorId n (func + 1) list
    else
      scanFuncs bus slot vendorId n (func + 1)
        (pciRegisterDevice space bus slot func vendorId (pciRead16 space bus slot func 0x02) :: list)

/-- `(header_type & 0x80) != 0` -/
def isMultiFunction (bus slot : ℕ) : Bool := (pciRead32 space bus slot 0 0x0C >>> 16).toUInt8 &&& 0x80 != 0

/-- What `pci_init_system` does for a slot -/
def scanSlot (bus : ℕ) (list : List PciDevice) (slot : ℕ) : List PciDevice :=
  let vendorId := pciRead16 space bus slot 0 0x00
  if vendorId = 0xFFFF then list
  else scanFuncs space bus slot vendorId (if isMultiFunction space bus slot then 8 else 1) 0 list

/-- What `pci_init_system` does for a bus -/
def scanBus (list : List PciDevice) (bus : ℕ) : List PciDevice := (List.range 32).foldl (scanSlot space bus) list

/-- `pci_init_system`: the list from its head on -/
def pciInitSystem : List PciDevice := (List.range 256).foldl (scanBus space) []

/-! ## What it should do -/

/-- A function's own vendor id -/
def vendorOf (bus slot func : ℕ) : UInt16 := (space bus slot func 0).toUInt16

/-- The device is a multi-function device. -/
def MultiFunction (bus slot : ℕ) : Prop := (space bus slot 0 3 >>> 16).toUInt8 &&& 0x80 ≠ 0

/-- The function is there. -/
def Present (bus slot func : ℕ) : Prop :=
  bus < 256 ∧ slot < 32 ∧ func < 8 ∧ vendorOf space bus slot func ≠ 0xFFFF ∧ (0 < func → MultiFunction space bus slot)

/-- The entry that a function should have, but for the vendor id -/
def entryWith (vendor : UInt16) (bus slot func : ℕ) : PciDevice where
  bus := bus
  slot := slot
  func := func
  vendorId := vendor
  deviceId := (space bus slot func 0 >>> 16).toUInt16
  classCode := (space bus slot func 2 >>> 24).toUInt8
  subclass := (space bus slot func 2 >>> 16).toUInt8
  progIf := (space bus slot func 2 >>> 8).toUInt8
  bars := (List.range 6).map fun i => space bus slot func (4 + i)

/-- A function's entry, with its own ids, class and base addresses -/
def entry (bus slot func : ℕ) : PciDevice := entryWith space (vendorOf space bus slot func) bus slot func

/-- The list has one entry for each function that is there, and each entry is a function's own. -/
structure Enumerates (list : List PciDevice) : Prop where
  once : ∀ bus slot func, Present space bus slot func → (list.map PciDevice.place).count (bus, slot, func) = 1
  own : ∀ dev ∈ list, Present space dev.bus dev.slot dev.func ∧ dev = entry space dev.bus dev.slot dev.func

/-- Below each function of a multi-function device that is there, all are there, and it has the vendor of function 0. -/
def Regular : Prop :=
  ∀ bus slot func, Present space bus slot func →
    (∀ g < func, vendorOf space bus slot g ≠ 0xFFFF) ∧ vendorOf space bus slot func = vendorOf space bus slot 0

end

/-! ## Reading a register -/

/-- Fields that do not overlap are added. -/
theorem or_eq_add {a b i : ℕ} (ha : 2 ^ i ∣ a) (hb : b < 2 ^ i) : a ||| b = a + b := by
  obtain ⟨c, rfl⟩ := ha
  exact (Nat.two_pow_add_eq_or_of_lt hb c).symm

theorem toNat_configAddr {bus slot func offset : ℕ} (hbus : bus < 256) (hslot : slot < 32) (hfunc : func < 8)
    (hoffset : offset < 256) :
    (configAddr bus slot func offset).toNat =
      2 ^ 31 + (bus * 2 ^ 16 + slot * 2 ^ 11 + func * 2 ^ 8 + offset / 4 * 4) := by
  have hmask : ∀ o < 256, o &&& 0xFC = o / 4 * 4 := by decide +kernel
  have hslots : bus * 2 ^ 16 ||| slot * 2 ^ 11 = bus * 2 ^ 16 + slot * 2 ^ 11 :=
    or_eq_add (i := 16) (by omega) (by omega)
  have hfuncs : bus * 2 ^ 16 + slot * 2 ^ 11 ||| func * 2 ^ 8 = bus * 2 ^ 16 + slot * 2 ^ 11 + func * 2 ^ 8 :=
    or_eq_add (i := 11) (by omega) (by omega)
  have hoffsets : bus * 2 ^ 16 + slot * 2 ^ 11 + func * 2 ^ 8 ||| offset / 4 * 4 =
      bus * 2 ^ 16 + slot * 2 ^ 11 + func * 2 ^ 8 + offset / 4 * 4 := or_eq_add (i := 8) (by omega) (by omega)
  have henable : 0x80000000 ||| (bus * 2 ^ 16 + slot * 2 ^ 11 + func * 2 ^ 8 + offset / 4 * 4) =
      2 ^ 31 + (bus * 2 ^ 16 + slot * 2 ^ 11 + func * 2 ^ 8 + offset / 4 * 4) :=
    or_eq_add (i := 31) (by omega) (by omega)
  unfold configAddr
  rw [hmask offset hoffset, Nat.shiftLeft_eq, Nat.shiftLeft_eq, Nat.shiftLeft_eq, hslots, hfuncs, hoffsets, Nat.or_comm,
    henable]
  exact UInt32.toNat_ofNat_of_lt' (by show _ < 2 ^ 32; omega)

theorem toUInt16_and (value : UInt32) : (value &&& 0xFFFF).toUInt16 = value.toUInt16 := by
  apply UInt16.toNat.inj
  rw [UInt32.toNat_toUInt16, UInt32.toNat_toUInt16, UInt32.toNat_and]
  show (value.toNat &&& 2 ^ 16 - 1) % 2 ^ 16 = _
  rw [Nat.and_two_pow_sub_one_eq_mod, Nat.mod_mod]

theorem toUInt8_and (value : UInt32) : (value &&& 0xFF).toUInt8 = value.toUInt8 := by
  apply UInt8.toNat.inj
  rw [UInt32.toNat_toUInt8, UInt32.toNat_toUInt8, UInt32.toNat_and]
  show (value.toNat &&& 2 ^ 8 - 1) % 2 ^ 8 = _
  rw [Nat.and_two_pow_sub_one_eq_mod, Nat.mod_mod]

section

variable {space : ConfigSpace}

theorem configData_configAddr {bus slot func offset : ℕ} (hbus : bus < 256) (hslot : slot < 32) (hfunc : func < 8)
    (hoffset : offset < 256) :
    configData space (configAddr bus slot func offset) = space bus slot func (offset / 4) := by
  unfold configData
  rw [toNat_configAddr hbus hslot hfunc hoffset]
  congr 1 <;> omega

theorem pciRead32_eq {bus slot func offset : ℕ} (hbus : bus < 256) (hslot : slot < 32) (hfunc : func < 8)
    (hoffset : offset < 256) : pciRead32 space bus slot func offset = space bus slot func (offset / 4) :=
  configData_configAddr hbus hslot hfunc hoffset

theorem pciRead16_vendor {bus slot func : ℕ} (hbus : bus < 256) (hslot : slot < 32) (hfunc : func < 8) :
    pciRead16 space bus slot func 0x00 = vendorOf space bus slot func := by
  unfold pciRead16
  rw [configData_configAddr hbus hslot hfunc (by decide), toUInt16_and]
  exact congrArg UInt32.toUInt16 (UInt32.shiftRight_zero)

theorem pciRead16_device {bus slot func : ℕ} (hbus : bus < 256) (hslot : slot < 32) (hfunc : func < 8) :
    pciRead16 space bus slot func 0x02 = (space bus slot func 0 >>> 16).toUInt16 := by
  unfold pciRead16
  rw [configData_configAddr hbus hslot hfunc (by decide), toUInt16_and]
  rfl

/-- An entry has everything of its own but the vendor id. -/
theorem pciRegisterDevice_eq {bus slot func : ℕ} (vendor : UInt16) (hbus : bus < 256) (hslot : slot < 32)
    (hfunc : func < 8) :
    pciRegisterDevice space bus slot func vendor (pciRead16 space bus slot func 0x02) =
      entryWith space vendor bus slot func := by
  have hbars : (List.range 6).map (fun i => pciRead32 space bus slot func (0x10 + i * 4)) =
      (List.range 6).map fun i => space bus slot func (4 + i) := by
    refine List.map_congr_left fun i hi => ?_
    have hlt := List.mem_range.mp hi
    rw [pciRead32_eq hbus hslot hfunc (by omega), show (0x10 + i * 4) / 4 = 4 + i by omega]
  unfold pciRegisterDevice entryWith
  rw [hbars, pciRead16_device hbus hslot hfunc, pciRead32_eq hbus hslot hfunc (by decide), toUInt8_and, toUInt8_and,
    toUInt8_and]

theorem isMultiFunction_iff {bus slot : ℕ} (hbus : bus < 256) (hslot : slot < 32) :
    isMultiFunction space bus slot = true ↔ MultiFunction space bus slot := by
  unfold isMultiFunction MultiFunction
  rw [pciRead32_eq hbus hslot (by decide) (by decide)]
  exact bne_iff_ne

/-! ## What is listed -/

/-- The function is there, and so are those below. -/
def Found (space : ConfigSpace) (bus slot func : ℕ) : Prop :=
  Present space bus slot func ∧ ∀ g < func, vendorOf space bus slot g ≠ 0xFFFF

theorem mem_scanFuncs {bus slot : ℕ} (hbus : bus < 256) (hslot : slot < 32) {vendor : UInt16} {n func : ℕ}
    (hfunc : func + n ≤ 8) (hfirst : vendorOf space bus slot 0 ≠ 0xFFFF) {list : List PciDevice} {dev : PciDevice} :
    dev ∈ scanFuncs space bus slot vendor n func list ↔
      dev ∈ list ∨ ∃ g, func ≤ g ∧ g < func + n ∧ (∀ h, func ≤ h → h ≤ g → vendorOf space bus slot h ≠ 0xFFFF) ∧
        dev = entryWith space vendor bus slot g := by
  induction n generalizing func list with
  | zero => exact (or_iff_left fun ⟨g, hle, hlt, _⟩ => absurd hle (Nat.not_le_of_lt hlt)).symm
  | succ n ih =>
    unfold scanFuncs
    rw [pciRead16_vendor hbus hslot (by omega)]
    by_cases habsent : vendorOf space bus slot func = 0xFFFF
    · -- this is not function 0, so that the scan stops
      have hpos : func > 0 := Nat.pos_of_ne_zero fun hzero => hfirst (hzero ▸ habsent)
      rw [if_pos habsent, if_pos hpos]
      exact (or_iff_left fun ⟨g, hle, _, hall, _⟩ => hall func (Nat.le_refl func) hle habsent).symm
    · rw [if_neg habsent, ih (by omega), List.mem_cons, pciRegisterDevice_eq vendor hbus hslot (by omega)]
      constructor
      · rintro ((rfl | hmem) | ⟨g, hle, hlt, hall, rfl⟩)
        · refine .inr ⟨func, Nat.le_refl func, by omega, fun h hge hle => ?_, rfl⟩
          rwa [Nat.le_antisymm hle hge]
        · exact .inl hmem
        · refine .inr ⟨g, by omega, by omega, fun h hge hle => ?_, rfl⟩
          rcases Nat.eq_or_lt_of_le hge with rfl | hgt
          · exact habsent
          · exact hall h hgt hle
      · rintro (hmem | ⟨g, hle, hlt, hall, rfl⟩)
        · exact .inl (.inr hmem)
        · rcases Nat.eq_or_lt_of_le hle with rfl | hgt
          · exact .inl (.inl rfl)
          · exact .inr ⟨g, hgt, by omega, fun h hge => hall h (by omega), rfl⟩

theorem mem_scanSlot {bus slot : ℕ} (hbus : bus < 256) (hslot : slot < 32) {list : List PciDevice} {dev : PciDevice} :
    dev ∈ scanSlot space bus list slot ↔
      dev ∈ list ∨ ∃ func, Found space bus slot func ∧
        dev = entryWith space (vendorOf space bus slot 0) bus slot func := by
  unfold scanSlot
  dsimp only
  rw [pciRead16_vendor hbus hslot (by decide)]
  by_cases habsent : vendorOf space bus slot 0 = 0xFFFF
  · rw [if_pos habsent]
    refine (or_iff_left fun ⟨func, ⟨hpresent, hbelow⟩, _⟩ => ?_).symm
    obtain ⟨-, -, -, hvendor, -⟩ := hpresent
    rcases Nat.eq_zero_or_pos func with rfl | hpos
    · exact hvendor habsent
    · exact hbelow 0 hpos habsent
  · rw [if_neg habsent, mem_scanFuncs hbus hslot (by split <;> omega) habsent]
    refine or_congr_right (exists_congr fun func => ?_)
    rw [Nat.zero_add, ← and_assoc, ← and_assoc, and_congr_left_iff]
    rintro -
    constructor
    · rintro ⟨⟨-, hlt⟩, hall⟩
      refine ⟨⟨hbus, hslot, ?_, hall func (Nat.zero_le func) (Nat.le_refl func), fun hpos => ?_⟩, fun g hg =>
        hall g (Nat.zero_le g) (Nat.le_of_lt hg)⟩
      · split at hlt <;> omega
      · rw [← isMultiFunction_iff hbus hslot]
        by_contra hsingle
        rw [if_neg hsingle] at hlt
        omega
    · rintro ⟨⟨-, -, hfunc, hvendor, hmulti⟩, hbelow⟩
      refine ⟨⟨Nat.zero_le func, ?_⟩, fun h _ hle => ?_⟩
      · rcases Nat.eq_zero_or_pos func with rfl | hpos
        · split <;> decide
        · rw [if_pos ((isMultiFunction_iff hbus hslot).mpr (hmulti hpos))]
          exact hfunc
      · rcases Nat.eq_or_lt_of_le hle with rfl | hlt
        · exact hvendor
        · exact hbelow h hlt

/-- What a fold over steps that only add to a list leaves in it -/
theorem mem_foldl {α β : Type} {step : List β → α → List β} {adds : α → β → Prop} {l : List α}
    (h : ∀ x ∈ l, ∀ acc b, b ∈ step acc x ↔ b ∈ acc ∨ adds x b) (acc : List β) (b : β) :
    b ∈ l.foldl step acc ↔ b ∈ acc ∨ ∃ x ∈ l, adds x b := by
  induction l generalizing acc with
  | nil => exact (or_iff_left fun ⟨_, hx, _⟩ => List.not_mem_nil hx).symm
  | cons x l ih =>
    rw [List.foldl_cons, ih fun y hy => h y (List.mem_cons_of_mem x hy), h x List.mem_cons_self, or_assoc,
      List.exists_mem_cons_iff]

theorem mem_pciInitSystem {dev : PciDevice} :
    dev ∈ pciInitSystem space ↔
      ∃ bus slot func, Found space bus slot func ∧ dev = entryWith space (vendorOf space bus slot 0) bus slot func := by
  have hbus : ∀ bus ∈ List.range 256, ∀ list dev, dev ∈ scanBus space list bus ↔
      dev ∈ list ∨ ∃ slot ∈ List.range 32, ∃ func, Found space bus slot func ∧
        dev = entryWith space (vendorOf space bus slot 0) bus slot func := fun bus hbus list dev =>
    mem_foldl (fun slot hslot _ _ => mem_scanSlot (List.mem_range.mp hbus) (List.mem_range.mp hslot)) list dev
  unfold pciInitSystem
  rw [mem_foldl hbus, or_iff_right List.not_mem_nil]
  constructor
  · rintro ⟨bus, -, slot, -, func, hfound, rfl⟩
    exact ⟨bus, slot, func, hfound, rfl⟩
  · rintro ⟨bus, slot, func, hfound, rfl⟩
    obtain ⟨⟨hb, hs, -⟩, -⟩ := id hfound
    exact ⟨bus, List.mem_range.mpr hb, slot, List.mem_range.mpr hs, func, hfound, rfl⟩

/-! ## No function is listed twice -/

/-- The number of a place, in the order in which the functions are asked -/
def PciDevice.code (dev : PciDevice) : ℕ := (dev.bus * 32 + dev.slot) * 8 + dev.func

/-- The list goes down from a place. -/
def Below (bound : ℕ) (list : List PciDevice) : Prop :=
  list.Pairwise (fun dev dev' => dev'.code < dev.code) ∧ ∀ dev ∈ list, dev.code < bound

theorem Below.mono {bound bound' : ℕ} {list : List PciDevice} (h : Below bound list) (hle : bound ≤ bound') :
    Below bound' list :=
  ⟨h.1, fun dev hdev => Nat.lt_of_lt_of_le (h.2 dev hdev) hle⟩

theorem Below.cons {bound : ℕ} {list : List PciDevice} (h : Below bound list) {dev : PciDevice}
    (hcode : dev.code = bound) : Below (bound + 1) (dev :: list) := by
  refine ⟨List.pairwise_cons.mpr ⟨fun dev' hdev' => ?_, h.1⟩, List.forall_mem_cons.mpr ⟨?_, fun dev' hdev' => ?_⟩⟩
  · rw [hcode]
    exact h.2 dev' hdev'
  · rw [hcode]
    exact Nat.lt_succ_self bound
  · exact Nat.lt_succ_of_lt (h.2 dev' hdev')

theorem Below.scanFuncs {bus slot : ℕ} {vendor : UInt16} {n : ℕ} (func : ℕ) {list : List PciDevice}
    (h : Below ((bus * 32 + slot) * 8 + func) list) :
    Below ((bus * 32 + slot) * 8 + (func + n)) (scanFuncs space bus slot vendor n func list) := by
  induction n generalizing func list with
  | zero => exact h
  | succ n ih =>
    have hnext : (bus * 32 + slot) * 8 + (func + 1 + n) = (bus * 32 + slot) * 8 + (func + (n + 1)) := by omega
    unfold Pci.scanFuncs
    split
    · split
      · exact h.mono (by omega)
      · rw [← hnext]
        exact ih _ (h.mono (by omega))
    · rw [← hnext]
      exact ih _ (h.cons rfl)

theorem Below.scanSlot {bus slot : ℕ} {list : List PciDevice} (h : Below ((bus * 32 + slot) * 8) list) :
    Below ((bus * 32 + (slot + 1)) * 8) (scanSlot space bus list slot) := by
  unfold Pci.scanSlot
  dsimp only
  split
  · exact h.mono (by omega)
  · refine (Below.scanFuncs 0 h).mono ?_
    split <;> omega

/-- A fold over a range goes up with what its steps keep. -/
theorem Below.foldl_range {step : List PciDevice → ℕ → List PciDevice} (base : ℕ → ℕ)
    (hstep : ∀ i list, Below (base i) list → Below (base (i + 1)) (step list i)) {list : List PciDevice}
    (h : Below (base 0) list) (n : ℕ) : Below (base n) ((List.range n).foldl step list) := by
  induction n with
  | zero => exact h
  | succ n ih =>
    rw [List.range_succ, List.foldl_append]
    exact hstep n _ ih

theorem Below.pciInitSystem : Below (256 * 32 * 8) (pciInitSystem space) := by
  refine Below.foldl_range (fun bus => bus * 32 * 8) (fun bus list hlist => ?_) ⟨List.Pairwise.nil, nofun⟩ 256
  refine (Below.foldl_range (fun slot => (bus * 32 + slot) * 8) (fun _ _ h => h.scanSlot) hlist 32).mono ?_
  omega

theorem nodup_place {bound : ℕ} {list : List PciDevice} (h : Below bound list) :
    (list.map PciDevice.place).Nodup := by
  refine List.pairwise_map.mpr (h.1.imp fun {dev dev'} hlt heq => ?_)
  obtain ⟨hbus, hrest⟩ := Prod.mk.inj heq
  obtain ⟨hslot, hfunc⟩ := Prod.mk.inj hrest
  unfold PciDevice.code at hlt
  omega

/-! ## When the list is what it should be -/

theorem count_place_iff {list : List PciDevice} (h : (list.map PciDevice.place).Nodup) (bus slot func : ℕ) :
    (list.map PciDevice.place).count (bus, slot, func) = 1 ↔
      ∃ dev ∈ list, dev.bus = bus ∧ dev.slot = slot ∧ dev.func = func := by
  rw [List.nodup_iff_count_le_one] at h
  have hone : (list.map PciDevice.place).count (bus, slot, func) = 1 ↔
      (bus, slot, func) ∈ list.map PciDevice.place := by
    rw [← List.count_pos_iff]
    have hle := h (bus, slot, func)
    omega
  rw [hone, List.mem_map]
  refine exists_congr fun dev => and_congr_right fun _ => ?_
  rw [PciDevice.place, Prod.mk.injEq, Prod.mk.injEq]

end

/-- For which configuration spaces the list is complete and each entry a function's own -/
theorem enumerates_iff (space : ConfigSpace) : Enumerates space (pciInitSystem space) ↔ Regular space := by
  constructor
  · intro h bus slot func hpresent
    obtain ⟨dev, hdev, rfl, rfl, rfl⟩ := (count_place_iff (nodup_place Below.pciInitSystem) _ _ _).mp
      (h.once bus slot func hpresent)
    have hown := (h.own dev hdev).2
    obtain ⟨bus, slot, func, hfound, rfl⟩ := mem_pciInitSystem.mp hdev
    exact ⟨hfound.2, (congrArg PciDevice.vendorId hown).symm⟩
  · intro hregular
    have hentry : ∀ {bus slot func}, Present space bus slot func →
        entryWith space (vendorOf space bus slot 0) bus slot func = entry space bus slot func := fun hpresent => by
      rw [entry, (hregular _ _ _ hpresent).2]
    refine ⟨fun bus slot func hpresent => ?_, fun dev hdev => ?_⟩
    · refine (count_place_iff (nodup_place Below.pciInitSystem) _ _ _).mpr
        ⟨entry space bus slot func, ?_, rfl, rfl, rfl⟩
      exact mem_pciInitSystem.mpr
        ⟨bus, slot, func, ⟨hpresent, (hregular bus slot func hpresent).1⟩, (hentry hpresent).symm⟩
    · obtain ⟨bus, slot, func, hfound, rfl⟩ := mem_pciInitSystem.mp hdev
      exact ⟨hfound.1, hentry hfound.1⟩

/-- A device with the functions 0 and 2 only -/
def sparse : ConfigSpace
  | 0, 0, 0, 0 => 0x12348086
  | 0, 0, 0, 3 => 0x00800000
  | 0, 0, 2, 0 => 0x56788086
  | _, _, _, _ => 0xFFFFFFFF

/-- Its function 2 is missed. -/
theorem not_enumerates : ¬ ∀ space, Enumerates space (pciInitSystem space) := by
  intro h
  have hmulti : MultiFunction sparse 0 0 := show (sparse 0 0 0 3 >>> 16).toUInt8 &&& 0x80 ≠ 0 by decide
  have hpresent : Present sparse 0 0 2 := ⟨by decide, by decide, by decide, by decide, fun _ => hmulti⟩
  obtain ⟨dev, hdev, hbus, hslot, hfunc⟩ :=
    (count_place_iff (nodup_place Below.pciInitSystem) 0 0 2).mp ((h sparse).once 0 0 2 hpresent)
  obtain ⟨bus, slot, func, hfound, rfl⟩ := mem_pciInitSystem.mp hdev
  cases hbus
  cases hslot
  cases hfunc
  exact hfound.2 1 (by decide) (by decide)

end Pci

end Sandflea
