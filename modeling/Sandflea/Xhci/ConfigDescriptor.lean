import Mathlib.Tactic

/-!
# The configuration descriptor of a keyboard

`xhci_enumerate_keyboard` asks a device for its configuration twice, first for the nine bytes that tell the total
length and then for all of it, and walks through what the device sent by the lengths that the descriptors claim. It
trusts them: an interface of length zero is met again and again, and a header at the end of the buffer is read
beyond it. The walk is safe exactly on the layouts of `WellFormed` (`parse_safe_iff`).
-/

namespace Sandflea.Xhci

/-! ## What the device sends -/

/-- The size of `cfg_buf` -/
def cfgBufSize : ℕ := 128

/-- The bytes of the two transfers; a device sends no more than it is asked for. -/
structure ConfigReply where
  first : List UInt8
  second : List UInt8
  first_le : first.length ≤ 9
  second_le : second.length ≤ min cfgBufSize ((first.getD 2 0).toNat + 256 * (first.getD 3 0).toNat)

namespace ConfigReply

/-- `config_total` -/
def configTotal (r : ConfigReply) : ℕ := min cfgBufSize ((r.first.getD 2 0).toNat + 256 * (r.first.getD 3 0).toNat)

/-- `cfg_buf` after both transfers -/
def cfgBuf (r : ConfigReply) (i : ℕ) : UInt8 := if i < r.second.length then r.second.getD i 0 else r.first.getD i 0

/-- The memory from the start of `cfg_buf` on, with what lies behind the buffer -/
def memory (r : ConfigReply) (stack : ℕ → UInt8) (i : ℕ) : UInt8 := if i < cfgBufSize then r.cfgBuf i else stack i

end ConfigReply

/-! ## The walk -/

/-- The fields of `xhci_device_t` that the walk sets -/
structure HidEndpoint where
  epIntfIn : UInt8
  epIntfMaxPacket : UInt16
  epIntfInterval : UInt8
  isHidKeyboard : Bool

/-- The variables of the walk, with the indices that were read -/
structure ConfigParse where
  offset : ℕ
  foundHid : Bool
  intfNum : UInt16
  dev : HidEndpoint
  reads : List ℕ

namespace ConfigParse

/-- The variables before the walk -/
def start : ConfigParse := ⟨9, false, 0, ⟨0, 0, 0, false⟩, []⟩

/-- Read from the buffer. -/
def touch (p : ConfigParse) (indices : List ℕ) : ConfigParse := { p with reads := p.reads ++ indices }

section

variable (mem : ℕ → UInt8) (total : ℕ)

/-- The body of the loop over the endpoints -/
def parseEndpoint (p : ConfigParse) : ConfigParse :=
  let o := p.offset
  let descLen := mem o
  let descType := mem (o + 1)
  let p := p.touch [o, o + 1]
  let p :=
    if descType = 0x05 ∧ p.foundHid then
      let epAddr := mem (o + 2)
      let epAttr := mem (o + 3)
      let epMps := (mem (o + 4)).toUInt16 ||| ((mem (o + 5)).toUInt16 <<< 8)
      let epInt := mem (o + 6)
      let p := p.touch [o + 2, o + 3, o + 4, o + 5, o + 6]
      if epAddr &&& 0x80 ≠ 0 ∧ epAttr &&& 0x03 = 3 then
        { p with dev := ⟨epAddr &&& 0x0F, epMps, epInt, true⟩ }
      else p
    else p
  { p with offset := o + descLen.toNat }

/-- The loop over the endpoints, with how many are left -/
def endpointLoop : ℕ → ConfigParse → ConfigParse
  | 0, p => p
  | left + 1, p => if p.offset < total then endpointLoop left (p.parseEndpoint mem) else p

/-- The body of the loop over the descriptors -/
def parseDescriptor (p : ConfigParse) : ConfigParse :=
  let o := p.offset
  let descLen := mem o
  let descType := mem (o + 1)
  let p := p.touch [o, o + 1]
  if descType = 0x04 then
    let intfClass := mem (o + 5)
    let intfSubclass := mem (o + 6)
    let intfNum := (mem (o + 2)).toUInt16
    let numEndpoints := mem (o + 4)
    let p := p.touch [o + 5, o + 6, o + 2, o + 4]
    let foundHid := if intfClass = 0x03 ∧ intfSubclass = 0x01 then true else p.foundHid
    let p := { p with intfNum := intfNum, foundHid := foundHid, offset := o + descLen.toNat }
    p.endpointLoop mem total numEndpoints.toNat
  else { p with offset := o + if descLen > 0 then descLen.toNat else 1 }

/-- The loop over the descriptors; `none` if it has not come to an end. -/
def parseLoop : ℕ → ConfigParse → Option ConfigParse
  | 0, _ => none
  | fuel + 1, p => if p.offset < total then parseLoop fuel (p.parseDescriptor mem total) else some p

end

/-- Nothing was read outside the buffer. -/
def InBounds (p : ConfigParse) : Prop := ∀ i ∈ p.reads, i < cfgBufSize

end ConfigParse

/-- The walk comes to an end and reads only inside the buffer. -/
def ParseSafe (r : ConfigReply) (stack : ℕ → UInt8) : Prop :=
  ∃ fuel p, ConfigParse.start.parseLoop (r.memory stack) r.configTotal fuel = some p ∧ p.InBounds

/-! ## Layouts -/

section

variable (mem : ℕ → UInt8) (total : ℕ)

/-- The headers of the descriptors behind an interface are inside the buffer, and so is the whole of an endpoint of
a keyboard. -/
def EndpointsFit (foundHid : Bool) : ℕ → ℕ → Prop
  | 0, _ => True
  | left + 1, o =>
    o < total → o + 1 < cfgBufSize ∧ (mem (o + 1) = 0x05 ∧ foundHid → o + 6 < cfgBufSize) ∧
      EndpointsFit foundHid left (o + (mem o).toNat)

/-- Where the descriptors behind an interface end -/
def endpointsEnd : ℕ → ℕ → ℕ
  | 0, o => o
  | left + 1, o => if o < total then endpointsEnd left (o + (mem o).toNat) else o

/-- An interface of a keyboard that boots -/
def isBootKeyboard (o : ℕ) : Bool := mem (o + 5) = 0x03 ∧ mem (o + 6) = 0x01

/-- From an offset on, the bytes up to the total length are descriptors that follow each other, with their headers
inside the buffer and no interface of length zero. -/
inductive WellFormed : Bool → ℕ → Prop
  | done {foundHid : Bool} {o : ℕ} : total ≤ o → WellFormed foundHid o
  | other {foundHid : Bool} {o : ℕ} : o < total → o + 1 < cfgBufSize → mem (o + 1) ≠ 0x04 →
      WellFormed foundHid (o + max 1 (mem o).toNat) → WellFormed foundHid o
  | interface {foundHid : Bool} {o : ℕ} : o < total → o + 6 < cfgBufSize → mem (o + 1) = 0x04 → mem o ≠ 0 →
      EndpointsFit mem total (isBootKeyboard mem o || foundHid) (mem (o + 4)).toNat (o + (mem o).toNat) →
      WellFormed (isBootKeyboard mem o || foundHid) (endpointsEnd mem total (mem (o + 4)).toNat (o + (mem o).toNat)) →
      WellFormed foundHid o

end

/-! ## Every read of the walk -/

namespace ConfigParse

variable {mem : ℕ → UInt8} {total : ℕ} {p q : ConfigParse}

theorem inBounds_touch {indices : List ℕ} :
    (p.touch indices).InBounds ↔ p.InBounds ∧ ∀ i ∈ indices, i < cfgBufSize :=
  List.forall_mem_append

theorem parseEndpoint_foundHid : (p.parseEndpoint mem).foundHid = p.foundHid := by
  unfold parseEndpoint touch
  dsimp only
  split_ifs <;> rfl

theorem parseEndpoint_reads :
    (p.parseEndpoint mem).reads = p.reads ++ ([p.offset, p.offset + 1] ++
      if mem (p.offset + 1) = 0x05 ∧ p.foundHid then
        [p.offset + 2, p.offset + 3, p.offset + 4, p.offset + 5, p.offset + 6]
      else []) := by
  unfold parseEndpoint touch
  dsimp only
  split_ifs <;> simp

variable (mem) in
/-- The endpoints move on by the length, and read all of an endpoint of a keyboard. -/
theorem parseEndpoint_spec :
    (p.parseEndpoint mem).offset = p.offset + (mem p.offset).toNat ∧
      (p.parseEndpoint mem).foundHid = p.foundHid ∧
      ((p.parseEndpoint mem).InBounds ↔ p.InBounds ∧ p.offset + 1 < cfgBufSize ∧
        (mem (p.offset + 1) = 0x05 ∧ p.foundHid → p.offset + 6 < cfgBufSize)) := by
  refine ⟨rfl, parseEndpoint_foundHid, ?_⟩
  unfold InBounds
  rw [parseEndpoint_reads, List.forall_mem_append]
  refine and_congr_right fun _ => ?_
  by_cases hendpoint : mem (p.offset + 1) = 0x05 ∧ p.foundHid
  · rw [if_pos hendpoint, forall_prop_of_true hendpoint]
    simp only [List.cons_append, List.nil_append, List.mem_cons, List.not_mem_nil, or_false, forall_eq_or_imp,
      forall_eq]
    constructor
    · rintro ⟨-, h1, -, -, -, -, h6⟩
      exact ⟨h1, h6⟩
    · rintro ⟨h1, h6⟩
      exact ⟨by omega, h1, by omega, by omega, by omega, by omega, h6⟩
  · rw [if_neg hendpoint]
    simp only [List.append_nil, List.mem_cons, List.not_mem_nil, or_false, forall_eq_or_imp, forall_eq]
    constructor
    · rintro ⟨-, h1⟩
      exact ⟨h1, fun h => absurd h hendpoint⟩
    · rintro ⟨h1, -⟩
      exact ⟨by omega, h1⟩

variable (mem total) in
/-- The loop over the endpoints -/
theorem endpointLoop_spec (left : ℕ) (p : ConfigParse) :
    (p.endpointLoop mem total left).offset = endpointsEnd mem total left p.offset ∧
      (p.endpointLoop mem total left).foundHid = p.foundHid ∧
      ((p.endpointLoop mem total left).InBounds ↔
        p.InBounds ∧ EndpointsFit mem total p.foundHid left p.offset) := by
  induction left generalizing p with
  | zero => exact ⟨rfl, rfl, (and_iff_left trivial).symm⟩
  | succ left ih =>
    unfold endpointLoop endpointsEnd EndpointsFit
    by_cases h : p.offset < total
    · obtain ⟨hoffset, hfound, hreads⟩ := parseEndpoint_spec mem
      obtain ⟨hend, hfound', hreads'⟩ := ih (p.parseEndpoint mem)
      rw [if_pos h, if_pos h, hend, hfound', hreads', hreads, hoffset, hfound, forall_prop_of_true h]
      exact ⟨rfl, rfl, by rw [and_assoc, and_assoc]⟩
    · rw [if_neg h, if_neg h]
      exact ⟨rfl, rfl, (and_iff_left fun hlt => absurd hlt h).symm⟩

variable (total) in
/-- A descriptor that is no interface -/
theorem parseDescriptor_other (h : mem (p.offset + 1) ≠ 0x04) :
    (p.parseDescriptor mem total).offset = p.offset + max 1 (mem p.offset).toNat ∧
      (p.parseDescriptor mem total).foundHid = p.foundHid ∧
      ((p.parseDescriptor mem total).InBounds ↔ p.InBounds ∧ p.offset + 1 < cfgBufSize) := by
  have heq : p.parseDescriptor mem total =
      { p.touch [p.offset, p.offset + 1] with
        offset := p.offset + if mem p.offset > 0 then (mem p.offset).toNat else 1 } := by
    unfold parseDescriptor
    rw [if_neg h]
  have hreads : (p.parseDescriptor mem total).InBounds ↔ (p.touch [p.offset, p.offset + 1]).InBounds := by
    rw [heq]
    rfl
  refine ⟨?_, by rw [heq]; rfl, ?_⟩
  · rw [heq]
    show p.offset + (if mem p.offset > 0 then (mem p.offset).toNat else 1) = _
    have hpos : mem p.offset > 0 ↔ 0 < (mem p.offset).toNat := UInt8.lt_iff_toNat_lt
    rw [if_congr hpos rfl rfl]
    split_ifs <;> omega
  · rw [hreads, inBounds_touch]
    simp only [List.mem_cons, List.not_mem_nil, or_false, forall_eq_or_imp, forall_eq]
    exact and_congr_right fun _ => and_iff_right_of_imp fun h1 => by omega

variable (total) in
/-- An interface with the descriptors behind it -/
theorem parseDescriptor_interface (h : mem (p.offset + 1) = 0x04) :
    (p.parseDescriptor mem total).offset =
        endpointsEnd mem total (mem (p.offset + 4)).toNat (p.offset + (mem p.offset).toNat) ∧
      (p.parseDescriptor mem total).foundHid = (isBootKeyboard mem p.offset || p.foundHid) ∧
      ((p.parseDescriptor mem total).InBounds ↔ p.InBounds ∧ p.offset + 6 < cfgBufSize ∧
        EndpointsFit mem total (isBootKeyboard mem p.offset || p.foundHid) (mem (p.offset + 4)).toNat
          (p.offset + (mem p.offset).toNat)) := by
  have hfound : (if mem (p.offset + 5) = 0x03 ∧ mem (p.offset + 6) = 0x01 then true else p.foundHid) =
      (isBootKeyboard mem p.offset || p.foundHid) := by
    unfold isBootKeyboard
    split_ifs with hboot <;> simp [hboot]
  have heq : p.parseDescriptor mem total =
      ({ (p.touch [p.offset, p.offset + 1]).touch [p.offset + 5, p.offset + 6, p.offset + 2, p.offset + 4] with
        intfNum := (mem (p.offset + 2)).toUInt16
        foundHid := isBootKeyboard mem p.offset || p.foundHid
        offset := p.offset + (mem p.offset).toNat } : ConfigParse).endpointLoop mem total
          (mem (p.offset + 4)).toNat := by
    unfold parseDescriptor
    rw [if_pos h, ← hfound]
    rfl
  rw [heq]
  obtain ⟨hend, hfound', hreads⟩ := endpointLoop_spec mem total (mem (p.offset + 4)).toNat
    ({ (p.touch [p.offset, p.offset + 1]).touch [p.offset + 5, p.offset + 6, p.offset + 2, p.offset + 4] with
        intfNum := (mem (p.offset + 2)).toUInt16
        foundHid := isBootKeyboard mem p.offset || p.foundHid
        offset := p.offset + (mem p.offset).toNat } : ConfigParse)
  refine ⟨hend, hfound', ?_⟩
  rw [hreads, ← and_assoc]
  refine and_congr_left' ?_
  show ((p.touch [p.offset, p.offset + 1]).touch _).InBounds ↔ _
  rw [inBounds_touch, inBounds_touch]
  simp only [List.mem_cons, List.not_mem_nil, or_false, forall_eq_or_imp, forall_eq]
  constructor
  · rintro ⟨⟨hp, -, -⟩, -, h6, -, -⟩
    exact ⟨hp, h6⟩
  · rintro ⟨hp, h6⟩
    exact ⟨⟨hp, by omega, by omega⟩, by omega, h6, by omega, by omega⟩

/-! ## The walk and the layout -/

theorem start_inBounds : start.InBounds := List.forall_mem_nil _

theorem endpointsEnd_of_eq_zero {o : ℕ} (h : mem o = 0) (left : ℕ) : endpointsEnd mem total left o = o := by
  induction left with
  | zero => rfl
  | succ left ih =>
    unfold endpointsEnd
    rw [h, show o + (0 : UInt8).toNat = o from rfl, ih, ite_self]

/-- An interface of length zero is met again and again. -/
theorem parseLoop_stuck {o : ℕ} (hlt : o < total) (htype : mem (o + 1) = 0x04) (hlen : mem o = 0) (fuel : ℕ) :
    ∀ p : ConfigParse, p.offset = o → p.parseLoop mem total fuel = none := by
  induction fuel with
  | zero => exact fun _ _ => rfl
  | succ fuel ih =>
    rintro p rfl
    unfold parseLoop
    rw [if_pos hlt]
    apply ih
    rw [(parseDescriptor_interface _ htype).1, hlen]
    exact endpointsEnd_of_eq_zero hlen _

/-- What the loop reads includes what was read before. -/
theorem InBounds.of_parseDescriptor (h : (p.parseDescriptor mem total).InBounds) : p.InBounds := by
  by_cases htype : mem (p.offset + 1) = 0x04
  · exact ((parseDescriptor_interface _ htype).2.2.mp h).1
  · exact ((parseDescriptor_other _ htype).2.2.mp h).1

theorem InBounds.of_parseLoop {fuel : ℕ} (hq : q.InBounds) :
    ∀ p : ConfigParse, p.parseLoop mem total fuel = some q → p.InBounds := by
  induction fuel with
  | zero => exact fun _ h => nomatch h
  | succ fuel ih =>
    intro p h
    unfold parseLoop at h
    split_ifs at h
    · exact (ih _ h).of_parseDescriptor
    · exact Option.some.inj h ▸ hq

/-- A walk that comes to an end inside the buffer is on a layout. -/
theorem wellFormed_of_parseLoop {fuel : ℕ} (hq : q.InBounds) :
    ∀ p : ConfigParse, p.parseLoop mem total fuel = some q → WellFormed mem total p.foundHid p.offset := by
  induction fuel with
  | zero => exact fun _ h => nomatch h
  | succ fuel ih =>
    intro p h
    by_cases hlt : p.offset < total
    · have hrun := h
      unfold parseLoop at h
      rw [if_pos hlt] at h
      have hrest := ih _ h
      have hbody := InBounds.of_parseLoop hq _ h
      by_cases htype : mem (p.offset + 1) = 0x04
      · obtain ⟨hoffset, hfound, hreads⟩ := parseDescriptor_interface total htype
        obtain ⟨-, h6, hendpoints⟩ := hreads.mp hbody
        rw [hoffset, hfound] at hrest
        refine .interface hlt h6 htype (fun hlen => ?_) hendpoints hrest
        -- with length zero there would be no end
        rw [parseLoop_stuck hlt htype hlen _ p rfl] at hrun
        cases hrun
      · obtain ⟨hoffset, hfound, hreads⟩ := parseDescriptor_other total htype
        rw [hoffset, hfound] at hrest
        exact .other hlt (hreads.mp hbody).2 htype hrest
    · exact .done (Nat.le_of_not_lt hlt)

/-- On a layout the walk comes to an end inside the buffer. -/
theorem exists_parseLoop {found : Bool} {o : ℕ} (h : WellFormed mem total found o) :
    ∀ p : ConfigParse, p.foundHid = found → p.offset = o → p.InBounds →
      ∃ fuel q, p.parseLoop mem total fuel = some q ∧ q.InBounds := by
  induction h with
  | done hge =>
    rintro p - rfl hp
    refine ⟨1, p, ?_, hp⟩
    unfold parseLoop
    exact if_neg (Nat.not_lt.mpr hge)
  | other hlt h1 htype _ ih =>
    rintro p rfl rfl hp
    obtain ⟨hoffset, hfound, hreads⟩ := parseDescriptor_other total htype
    obtain ⟨fuel, q, hq, hin⟩ := ih _ hfound hoffset (hreads.mpr ⟨hp, h1⟩)
    exact ⟨fuel + 1, q, by rw [parseLoop, if_pos hlt, hq], hin⟩
  | interface hlt h6 htype _ hendpoints _ ih =>
    rintro p rfl rfl hp
    obtain ⟨hoffset, hfound, hreads⟩ := parseDescriptor_interface total htype
    obtain ⟨fuel, q, hq, hin⟩ := ih _ hfound hoffset (hreads.mpr ⟨hp, h6, hendpoints⟩)
    exact ⟨fuel + 1, q, by rw [parseLoop, if_pos hlt, hq], hin⟩

end ConfigParse

/-! ### What lies behind the buffer -/

section

variable {mem mem' : ℕ → UInt8} {total : ℕ}

theorem endpointsEnd_congr (hmem : ∀ i, i < cfgBufSize → mem i = mem' i) (htotal : total ≤ cfgBufSize) (left o : ℕ) :
    endpointsEnd mem total left o = endpointsEnd mem' total left o := by
  induction left generalizing o with
  | zero => rfl
  | succ left ih =>
    unfold endpointsEnd
    by_cases h : o < total
    · rw [if_pos h, if_pos h, hmem o (by omega), ih]
    · rw [if_neg h, if_neg h]

theorem EndpointsFit.congr (hmem : ∀ i, i < cfgBufSize → mem i = mem' i) {found : Bool} {left o : ℕ}
    (h : EndpointsFit mem total found left o) : EndpointsFit mem' total found left o := by
  induction left generalizing o with
  | zero => trivial
  | succ left ih =>
    intro hlt
    obtain ⟨h1, h6, hrest⟩ := h hlt
    rw [hmem _ h1] at h6
    rw [hmem o (by omega)] at hrest
    exact ⟨h1, h6, ih hrest⟩

/-- A layout depends on the buffer only. -/
theorem WellFormed.congr (hmem : ∀ i, i < cfgBufSize → mem i = mem' i) (htotal : total ≤ cfgBufSize) {found : Bool}
    {o : ℕ} (h : WellFormed mem total found o) : WellFormed mem' total found o := by
  induction h with
  | done hge => exact .done hge
  | other hlt h1 htype _ ih =>
    rw [hmem _ h1] at htype
    rw [hmem _ (by omega)] at ih
    exact .other hlt h1 htype ih
  | @interface found o hlt h6 htype hlen hendpoints _ ih =>
    have hboot : isBootKeyboard mem o = isBootKeyboard mem' o := by
      unfold isBootKeyboard
      rw [hmem _ h6, hmem _ (by omega)]
    rw [hmem _ (by omega)] at htype hlen
    rw [endpointsEnd_congr hmem htotal, hboot, hmem o (by omega), hmem (o + 4) (by omega)] at ih
    have hfit := hendpoints.congr hmem
    rw [hboot, hmem o (by omega), hmem (o + 4) (by omega)] at hfit
    exact .interface hlt h6 htype hlen hfit ih

end

/-- Whatever the device sends, the walk comes to an end and reads only inside the buffer if and only if the bytes
are a layout. -/
theorem parse_safe_iff (r : ConfigReply) (stack : ℕ → UInt8) :
    ParseSafe r stack ↔ WellFormed r.cfgBuf r.configTotal false 9 := by
  have hmem : ∀ i, i < cfgBufSize → r.memory stack i = r.cfgBuf i := fun i hi => if_pos hi
  have htotal : r.configTotal ≤ cfgBufSize := Nat.min_le_left _ _
  constructor
  · rintro ⟨fuel, q, hq, hin⟩
    exact (ConfigParse.wellFormed_of_parseLoop hin _ hq).congr hmem htotal
  · intro h
    have hmem' : ∀ i, i < cfgBufSize → r.cfgBuf i = r.memory stack i := fun i hi => (hmem i hi).symm
    exact ConfigParse.exists_parseLoop (h.congr hmem' htotal) _ rfl rfl ConfigParse.start_inBounds

/-- An interface of length zero right behind the configuration -/
def emptyInterface : ConfigReply where
  first := [9, 2, 11, 0, 1, 1, 0, 0x80, 50]
  second := [9, 2, 11, 0, 1, 1, 0, 0x80, 50, 0, 4]
  first_le := by decide
  second_le := by decide

/-- With such an interface the walk never comes to an end. -/
theorem not_parse_safe : ¬ ∀ (r : ConfigReply) (stack : ℕ → UInt8), ParseSafe r stack := by
  intro h
  obtain ⟨fuel, q, hq, -⟩ := h emptyInterface fun _ => 0
  rw [ConfigParse.parseLoop_stuck (o := 9) (by decide) (by decide) (by decide) fuel _ rfl] at hq
  cases hq

end Sandflea.Xhci
