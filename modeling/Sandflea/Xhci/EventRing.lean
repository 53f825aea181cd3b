import Sandflea.Xhci.Rings
import Sandflea.Lib.Ring
import Sandflea.Lib.Runs

/-!
# The event ring, from the controller to the driver

The controller writes events into the segment that the segment table describes, each with its producer cycle
state, which it flips at the end of the segment; it stops while one more event would bring it to the slot
that `ERDP` names. The driver takes events out with `xhci_event_dequeue_next`. What the driver has got is
always a prefix of what was produced, and it finds nothing only if it has got all, as long as it does not look
at the last slot before the controller has ever written it: an event ring has no link TRB, but
`ring_init_full` has put one there, with the cycle bit of the first lap.
-/

namespace Sandflea.Xhci

/-- The two sides of the event ring, with the events that were produced and returned so far -/
structure EventSystem where
  driver : EventRing
  enqueue : ℕ
  pcs : Bool
  produced : List Trb
  returned : List Trb

inductive EventStep where
  | produce (event : Trb)
  | poll
deriving DecidableEq

/-- The slot that `ERDP` names; the four low bits of the register are flags. -/
def EventRing.erdpSlot (r : EventRing) : ℕ :=
  (r.erdpHi * 2 ^ 32 + r.erdpLo / trbSize * trbSize - r.erst.ringBase) / trbSize

/-- An event as the controller writes it -/
def Trb.withCycle (t : Trb) (pcs : Bool) : Trb :=
  { t with control := (t.control &&& ~~~1) ||| cycleBit pcs }

namespace EventSystem

/-- There is no room for one more event. -/
def Full (s : EventSystem) : Prop := (s.enqueue + 1) % s.driver.erst.ringSize = s.driver.erdpSlot

instance (s : EventSystem) : Decidable s.Full := inferInstanceAs (Decidable (_ = _))

/-- The controller produces an event. -/
def produce (s : EventSystem) (event : Trb) : EventSystem :=
  let evt := event.withCycle s.pcs
  let enqueue := (s.enqueue + 1) % s.driver.erst.ringSize
  { driver := { s.driver with eventRing := Function.update s.driver.eventRing s.enqueue evt }
    enqueue := enqueue
    pcs := if enqueue = 0 then !s.pcs else s.pcs
    produced := s.produced ++ [evt]
    returned := s.returned }

def step (s : EventSystem) : EventStep → EventSystem
  | .produce event => if s.Full then s else s.produce event
  | .poll =>
    let (evt, driver) := xhciEventDequeueNext s.driver
    { s with driver := driver, returned := s.returned ++ evt.toList }

/-- Before the first event -/
def start (driver : EventRing) : EventSystem where
  driver := driver
  enqueue := 0
  pcs := true
  produced := []
  returned := []

/-- The events the driver got are those that were produced, each once and in order, and it is told that there
is none only if it has got them all. -/
def InOrder (s : EventSystem) : Prop :=
  s.returned <+: s.produced ∧ ((xhciEventDequeueNext s.driver).1 = none → s.returned = s.produced)

/-- The driver is at the last slot, and the controller has never written it. -/
def AtUnwrittenLast (s : EventSystem) : Prop :=
  s.driver.eventDequeue = xhciEventRingTrbs - 1 ∧ s.produced.length < xhciEventRingTrbs

instance (s : EventSystem) : Decidable s.AtUnwrittenLast := inferInstanceAs (Decidable (_ ∧ _))

/-! ## The two sides agree -/

/-- Both sides are where the events they have produced and got bring them, and every slot that was written
once has the last event that was written to it. -/
structure InStep (ringPhys : ℕ) (s : EventSystem) : Prop where
  enqueue : s.enqueue = s.produced.length % xhciEventRingTrbs
  pcs : s.pcs = Ring.lap xhciEventRingTrbs s.produced.length
  dequeue : s.driver.eventDequeue = s.returned.length % xhciEventRingTrbs
  ccs : s.driver.eventCcs = Ring.lap xhciEventRingTrbs s.returned.length
  got : s.returned <+: s.produced
  room : s.produced.length < s.returned.length + xhciEventRingTrbs
  holds : Ring.Holds xhciEventRingTrbs s.driver.eventRing s.produced
    (s.produced.length - xhciEventRingTrbs)
  cycles : ∀ k t, s.produced[k]? = some t → t.cycle = Ring.lap xhciEventRingTrbs k
  fresh : ∀ i, s.produced.length ≤ i → i < xhciEventRingTrbs →
    (s.driver.eventRing i).cycle = decide (i = xhciEventRingTrbs - 1)
  aligned : trbSize ∣ ringPhys
  fits : ringPhys + xhciEventRingTrbs * trbSize ≤ 2 ^ 64
  segment : s.driver.erst = ⟨ringPhys, xhciEventRingTrbs⟩
  phys : s.driver.eventRingPhys = ringPhys
  erdp : s.driver.erdpSlot = s.driver.eventDequeue

end EventSystem

@[simp] theorem cycle_withCycle (t : Trb) (pcs : Bool) : (t.withCycle pcs).cycle = pcs := by
  cases pcs <;> simp [Trb.withCycle, Trb.cycle, cycleBit]

/-- The address of a TRB is in the register, whatever the flags are. -/
theorem erdp_address {phys : ℕ} (halign : trbSize ∣ phys) (hphys : phys < 2 ^ 64) :
    erdpHigh phys * 2 ^ 32 + erdpLow phys / trbSize * trbSize = phys := by
  have hlow : erdpLow phys / trbSize = phys % 2 ^ 32 / trbSize := by
    have h := Nat.shiftRight_or_distrib (a := phys % 2 ^ 32) (b := 1 <<< 3) (i := 4)
    simpa [erdpLow, trbSize, Nat.shiftRight_eq_div_pow] using h
  rw [hlow]
  obtain ⟨q, rfl⟩ := halign
  unfold erdpHigh trbSize at *
  omega

namespace EventSystem

variable {s : EventSystem} {ringPhys erstPhys : ℕ}

theorem trbs_pos : 0 < xhciEventRingTrbs := by decide

/-- What `ring_init_full` leaves in a slot of the event ring: only the last one has the cycle bit set. -/
theorem cycle_ringInitFull {page : ℕ → Trb} {base : BitVec 64} {i : ℕ} (hi : i < xhciEventRingTrbs) :
    (ringInitFull page xhciEventRingTrbs true base i).cycle = decide (i = xhciEventRingTrbs - 1) := by
  by_cases hlast : i = xhciEventRingTrbs - 1
  · rw [hlast, ringInitFull_last, cycle_linkTrb]
    rfl
  · rw [ringInitFull_of_lt (by omega), decide_eq_false hlast]
    rfl

theorem inStep_start {page : ℕ → Trb} {driver : EventRing} (haligned : trbSize ∣ ringPhys)
    (hfits : ringPhys + xhciEventRingTrbs * trbSize ≤ 2 ^ 64)
    (h : xhciEventRingInit erstPhys ringPhys page = some driver) :
    InStep ringPhys (start driver) := by
  unfold xhciEventRingInit at h
  by_cases he : erstPhys = 0
  · rw [if_pos he] at h
    cases h
  rw [if_neg he] at h
  by_cases hr : ringPhys = 0
  · rw [if_pos hr] at h
    cases h
  rw [if_neg hr] at h
  cases h
  refine ⟨rfl, (Ring.lap_of_lt trbs_pos).symm, rfl, (Ring.lap_of_lt trbs_pos).symm, List.nil_prefix,
    trbs_pos, ?_, ?_, ?_, haligned, hfits, rfl, rfl, ?_⟩
  · intro k x _ hx
    cases hx
  · intro k t ht
    cases ht
  · intro i _ hi
    exact cycle_ringInitFull hi
  · show (erdpHigh ringPhys * 2 ^ 32 + erdpLow ringPhys / trbSize * trbSize - ringPhys) / trbSize = 0
    have hlt : ringPhys < 2 ^ 64 := by
      unfold xhciEventRingTrbs trbSize at hfits
      omega
    rw [erdp_address haligned hlt, Nat.sub_self, Nat.zero_div]

/-- The controller keeps in step when it produces an event. -/
theorem InStep.produce (h : InStep ringPhys s) (event : Trb) (hfull : ¬s.Full) :
    InStep ringPhys (s.produce event) := by
  have hn := trbs_pos
  have hsize : s.driver.erst.ringSize = xhciEventRingTrbs := by rw [h.segment]
  have hlen : (s.produce event).produced.length = s.produced.length + 1 := List.length_append
  have hle := h.got.length_le
  refine ⟨?_, ?_, h.dequeue, h.ccs, h.got.trans (List.prefix_append _ _), ?_, ?_, ?_, ?_, h.aligned,
    h.fits, h.segment, h.phys, h.erdp⟩
  · show (s.enqueue + 1) % s.driver.erst.ringSize = _
    rw [hlen, hsize, h.enqueue, Nat.mod_add_mod]
  · show (if (s.enqueue + 1) % s.driver.erst.ringSize = 0 then !s.pcs else s.pcs) = _
    rw [hlen, hsize, h.enqueue, Nat.mod_add_mod, h.pcs, Ring.lap_succ]
  · -- one slot is kept free, so the events in the ring are fewer than its slots
    rw [hlen]
    show s.produced.length + 1 < s.returned.length + xhciEventRingTrbs
    have hroom := h.room
    by_contra hnot
    have heq : s.produced.length + 1 = s.returned.length + xhciEventRingTrbs := by omega
    refine hfull ?_
    show (s.enqueue + 1) % s.driver.erst.ringSize = s.driver.erdpSlot
    rw [hsize, h.erdp, h.dequeue, h.enqueue, Nat.mod_add_mod, heq, Nat.add_mod_right]
  · show Ring.Holds _ (Function.update s.driver.eventRing s.enqueue _) _ _
    rw [h.enqueue, hlen]
    exact (h.holds.mono (by omega)).push (by omega) _
  · intro k t ht
    by_cases hlast : k = s.produced.length
    · subst hlast
      have ht : (s.produced ++ [event.withCycle s.pcs])[s.produced.length]? = some t := ht
      rw [List.getElem?_concat_length] at ht
      cases ht
      rw [cycle_withCycle, h.pcs]
    · have hlt : k < s.produced.length := by
        have := (List.getElem?_eq_some_iff.mp ht).1
        omega
      refine h.cycles k t ?_
      rw [← ht]
      exact (List.getElem?_append_left hlt).symm
  · intro i hi hlt
    rw [hlen] at hi
    have hne : i ≠ s.enqueue := by
      rw [h.enqueue, Nat.mod_eq_of_lt (by omega)]
      omega
    show (Function.update s.driver.eventRing s.enqueue _ i).cycle = _
    rw [Function.update_of_ne hne]
    exact h.fresh i (by omega) hlt

/-- If there is an event the driver has not got, the next poll returns it. -/
theorem InStep.poll_of_pending (h : InStep ringPhys s) (hlt : s.returned.length < s.produced.length) :
    (s.driver.eventRing s.driver.eventDequeue).cycle = s.driver.eventCcs ∧
      s.produced[s.returned.length]? = some (s.driver.eventRing s.driver.eventDequeue) := by
  have hroom := h.room
  have hfrom : Ring.Holds xhciEventRingTrbs s.driver.eventRing s.produced s.returned.length :=
    h.holds.mono (by omega)
  have hfirst := hfrom.first hlt
  rw [← h.dequeue] at hfirst
  exact ⟨by rw [h.ccs]; exact h.cycles _ _ hfirst, hfirst⟩

/-- If the driver has got all events, the slot it looks at has the other cycle bit: that of the lap before,
or, before the first event in it, the one it was initialised with. -/
theorem InStep.poll_of_all (h : InStep ringPhys s) (hall : s.returned.length = s.produced.length)
    (hlast : ¬s.AtUnwrittenLast) :
    (s.driver.eventRing s.driver.eventDequeue).cycle ≠ s.driver.eventCcs := by
  have hn := trbs_pos
  rw [h.ccs, h.dequeue, hall]
  by_cases hlap : s.produced.length < xhciEventRingTrbs
  · rw [Nat.mod_eq_of_lt hlap, Ring.lap_of_lt hlap, h.fresh _ le_rfl hlap, decide_eq_false]
    · decide
    · intro heq
      refine hlast ⟨?_, hlap⟩
      rw [h.dequeue, hall, heq]
      rfl
  · -- the last event in the slot is one lap back
    have hlt : s.produced.length - xhciEventRingTrbs < s.produced.length := by omega
    have hfirst := h.holds.first hlt
    have hcycle := h.cycles _ _ hfirst
    have hback : s.produced.length = s.produced.length - xhciEventRingTrbs + xhciEventRingTrbs := by omega
    have hmod : s.produced.length % xhciEventRingTrbs =
        (s.produced.length - xhciEventRingTrbs) % xhciEventRingTrbs := by
      conv_lhs => rw [hback, Nat.add_mod_right]
    have hflip : Ring.lap xhciEventRingTrbs s.produced.length =
        !Ring.lap xhciEventRingTrbs (s.produced.length - xhciEventRingTrbs) := by
      conv_lhs => rw [hback, Ring.lap_add hn]
    rw [hmod, hcycle, hflip]
    exact (Bool.not_ne_self _).symm

/-! ## One poll -/

theorem step_poll_of_eq (h : (s.driver.eventRing s.driver.eventDequeue).cycle = s.driver.eventCcs) :
    s.step .poll = { s with
      driver := s.driver.advance
      returned := s.returned ++ [s.driver.eventRing s.driver.eventDequeue] } := by
  have hsome : xhciEventDequeueNext s.driver =
      (some (s.driver.eventRing s.driver.eventDequeue), s.driver.advance) := if_neg (not_not.mpr h)
  calc s.step .poll
      = { s with driver := (xhciEventDequeueNext s.driver).2
                 returned := s.returned ++ (xhciEventDequeueNext s.driver).1.toList } := rfl
    _ = { s with driver := s.driver.advance
                 returned := s.returned ++ [s.driver.eventRing s.driver.eventDequeue] } := by
      rw [hsome]; rfl

theorem step_poll_of_ne (h : (s.driver.eventRing s.driver.eventDequeue).cycle ≠ s.driver.eventCcs) :
    s.step .poll = s := by
  have hnone : xhciEventDequeueNext s.driver = (none, s.driver) := if_pos h
  calc s.step .poll
      = { s with driver := (xhciEventDequeueNext s.driver).2
                 returned := s.returned ++ (xhciEventDequeueNext s.driver).1.toList } := rfl
    _ = { s with driver := s.driver, returned := s.returned ++ [] } := by rw [hnone]; rfl
    _ = s := by rw [List.append_nil]

/-- The register names the slot the driver has moved to. -/
theorem InStep.erdpSlot_eq (h : InStep ringPhys s) {i : ℕ} (hi : i < xhciEventRingTrbs) {r : EventRing}
    (hseg : r.erst = s.driver.erst) (hlo : r.erdpLo = erdpLow (s.driver.eventRingPhys + i * trbSize))
    (hhi : r.erdpHi = erdpHigh (s.driver.eventRingPhys + i * trbSize)) : r.erdpSlot = i := by
  have hfits := h.fits
  have haddr : s.driver.eventRingPhys + i * trbSize < 2 ^ 64 := by
    rw [h.phys]
    unfold xhciEventRingTrbs trbSize at *
    omega
  have haligned : trbSize ∣ s.driver.eventRingPhys + i * trbSize := by
    rw [h.phys]
    exact Dvd.dvd.add h.aligned (Nat.dvd_mul_left trbSize i)
  unfold EventRing.erdpSlot
  rw [hlo, hhi, erdp_address haligned haddr, hseg, h.segment, h.phys, Nat.add_sub_cancel_left]
  exact Nat.mul_div_cancel i (by decide)

/-- The driver keeps in step when it takes an event that was produced. -/
theorem InStep.poll (h : InStep ringPhys s) (hlt : s.returned.length < s.produced.length) :
    InStep ringPhys (s.step .poll) := by
  obtain ⟨hcycle, hget⟩ := h.poll_of_pending hlt
  have hlen : (s.returned ++ [s.driver.eventRing s.driver.eventDequeue]).length =
      s.returned.length + 1 := List.length_append
  have hdequeue : (s.driver.eventDequeue + 1) % xhciEventRingTrbs =
      (s.returned.length + 1) % xhciEventRingTrbs := by
    rw [h.dequeue, Nat.mod_add_mod]
  rw [step_poll_of_eq hcycle]
  refine ⟨h.enqueue, h.pcs, ?_, ?_, Ring.prefix_concat h.got hget, ?_, h.holds, h.cycles, h.fresh,
    h.aligned, h.fits, h.segment, h.phys, ?_⟩
  · show (s.driver.eventDequeue + 1) % xhciEventRingTrbs = List.length _ % _
    rw [hlen, hdequeue]
  · show (if (s.driver.eventDequeue + 1) % xhciEventRingTrbs = 0 then !s.driver.eventCcs
      else s.driver.eventCcs) = Ring.lap _ (List.length _)
    rw [hlen, hdequeue, h.ccs, Ring.lap_succ]
  · show s.produced.length < List.length _ + _
    have hroom := h.room
    rw [hlen]
    omega
  · exact h.erdpSlot_eq (Nat.mod_lt _ trbs_pos) rfl rfl rfl

/-- A driver at the last slot before it was ever written has got all events. -/
theorem InStep.all_of_atUnwrittenLast (h : InStep ringPhys s) (hlast : s.AtUnwrittenLast) :
    s.returned.length = xhciEventRingTrbs - 1 ∧ s.produced.length = xhciEventRingTrbs - 1 := by
  obtain ⟨hdequeue, hproduced⟩ := hlast
  have hle := h.got.length_le
  rw [h.dequeue, Nat.mod_eq_of_lt (by omega)] at hdequeue
  omega

/-- A step keeps both sides in step, unless it is a poll of the last slot before it was ever written. -/
theorem InStep.step (h : InStep ringPhys s) {a : EventStep} (ha : a = .poll → ¬s.AtUnwrittenLast) :
    InStep ringPhys (s.step a) := by
  cases a with
  | produce event =>
    by_cases hfull : s.Full
    · have hstep : s.step (.produce event) = s := if_pos hfull
      rwa [hstep]
    · have hstep : s.step (.produce event) = s.produce event := if_neg hfull
      rw [hstep]
      exact h.produce event hfull
  | poll =>
    by_cases hlt : s.returned.length < s.produced.length
    · exact h.poll hlt
    · have hall : s.returned.length = s.produced.length := Nat.le_antisymm h.got.length_le (by omega)
      rwa [step_poll_of_ne (h.poll_of_all hall (ha rfl))]

theorem InStep.inOrder (h : InStep ringPhys s) : s.InOrder := by
  refine ⟨h.got, fun hnone => ?_⟩
  by_contra hne
  have hlt : s.returned.length < s.produced.length :=
    lt_of_le_of_ne h.got.length_le fun heq => hne (h.got.eq_of_length heq)
  have hcycle := (h.poll_of_pending hlt).1
  unfold xhciEventDequeueNext at hnone
  rw [if_neg (not_not.mpr hcycle)] at hnone
  cases hnone

/-- At the last slot, before it was ever written, a poll returns the link TRB. -/
theorem InStep.not_inOrder_of_atUnwrittenLast (h : InStep ringPhys s) (hlast : s.AtUnwrittenLast) :
    ¬(s.step .poll).InOrder := by
  rintro ⟨hbegins, -⟩
  obtain ⟨hreturned, hproduced⟩ := h.all_of_atUnwrittenLast hlast
  have hn := trbs_pos
  have hcycle : (s.driver.eventRing s.driver.eventDequeue).cycle = s.driver.eventCcs := by
    rw [h.ccs, hlast.1, h.fresh _ hproduced.le (by omega), Ring.lap_of_lt (by omega), decide_eq_true rfl]
  rw [step_poll_of_eq hcycle] at hbegins
  have hlen := hbegins.length_le
  have hlen : (s.returned ++ [s.driver.eventRing s.driver.eventDequeue]).length ≤ s.produced.length := hlen
  rw [List.length_append, List.length_singleton] at hlen
  omega

/-- Events that are each returned before the next one is produced -/
theorem InStep.produce_and_poll (h : InStep ringPhys s) (hall : s.returned.length = s.produced.length)
    (events : List Trb) :
    InStep ringPhys (Runs.runAll EventSystem.step s (events.flatMap fun e => [.produce e, .poll])) ∧
      (Runs.runAll EventSystem.step s (events.flatMap fun e => [.produce e, .poll])).returned.length =
        s.returned.length + events.length ∧
      (Runs.runAll EventSystem.step s (events.flatMap fun e => [.produce e, .poll])).produced.length =
        s.produced.length + events.length := by
  induction events generalizing s with
  | nil => exact ⟨h, rfl, rfl⟩
  | cons e events ih =>
    have hroom : ¬s.Full := by
      have hsize : s.driver.erst.ringSize = xhciEventRingTrbs := by rw [h.segment]
      unfold EventSystem.Full
      rw [h.erdp, hsize, h.enqueue, h.dequeue, hall]
      unfold xhciEventRingTrbs
      omega
    have hstep : s.step (.produce e) = s.produce e := if_neg hroom
    have hproduce := h.produce e hroom
    have hproduced : (s.produce e).produced.length = s.produced.length + 1 := List.length_append
    have hlt : (s.produce e).returned.length < (s.produce e).produced.length := by
      rw [hproduced]
      exact Nat.lt_succ_of_le hall.le
    have hpoll := step_poll_of_eq (hproduce.poll_of_pending hlt).1
    have hreturned : ((s.produce e).step .poll).returned.length = s.returned.length + 1 := by
      rw [hpoll]
      exact List.length_append
    have hsame : ((s.produce e).step .poll).produced.length = s.produced.length + 1 := by
      rw [hpoll]
      exact hproduced
    have hlen : (e :: events).length = events.length + 1 := rfl
    rw [List.flatMap_cons, List.cons_append, List.cons_append, List.nil_append, Runs.runAll_cons,
      Runs.runAll_cons, hstep]
    obtain ⟨hinStep, hr, hp⟩ := ih (hproduce.poll hlt) (by omega)
    exact ⟨hinStep, by omega, by omega⟩

/-- From a ring in step: every state of a run has the events in order if and only if no poll of it looks at the
last slot before the controller has ever written it. -/
theorem InStep.always_inOrder_iff (h : InStep ringPhys s) (as : List EventStep) :
    Runs.Always EventSystem.step InOrder s as ↔
      Runs.Along EventSystem.step (fun s a => a = .poll → ¬s.AtUnwrittenLast) s as := by
  constructor
  · intro hP
    refine Runs.along_of_always_inv (I := InStep ringPhys) (B := fun _ _ => True) ?_ ?_ h
      (Runs.along_of_forall (fun _ _ _ => trivial) s) hP
    · rintro s a hs - hnext rfl hlast
      exact hs.not_inOrder_of_atUnwrittenLast hlast hnext
    · intro s a hs _ ha
      exact hs.step ha
  · intro hC
    exact (Runs.always_of_along (P := InStep ringPhys) (fun s a hs ha => hs.step ha) h hC).mono
      fun s hs => hs.inOrder

/-- From a ring that `xhci_event_ring_init` has set up in a page, and for any steps of the controller and polls
of the driver: the events are returned in order, each once and none missed, in every state of the run, if and
only if no poll looks at the last slot before the controller has ever written it. -/
theorem events_in_order {page : ℕ → Trb} {driver : EventRing} (haligned : trbSize ∣ ringPhys)
    (hfits : ringPhys + xhciEventRingTrbs * trbSize ≤ 2 ^ 64)
    (h : xhciEventRingInit erstPhys ringPhys page = some driver) (as : List EventStep) :
    Runs.Always step InOrder (start driver) as ↔
      Runs.Along step (fun s a => a = .poll → ¬s.AtUnwrittenLast) (start driver) as :=
  (inStep_start haligned hfits h).always_inOrder_iff as

/-- A ring in the page at 8192, which was empty -/
def exampleDriver : EventRing where
  eventRing := ringInitFull (fun _ => ⟨0, 0, 0⟩) xhciEventRingTrbs true (BitVec.ofNat 64 8192)
  eventRingPhys := 8192
  eventDequeue := 0
  eventCcs := true
  erst := ⟨8192, xhciEventRingTrbs⟩
  erdpLo := erdpLow 8192
  erdpHi := erdpHigh 8192

/-- An event and a poll -/
theorem events_in_order_example :
    Runs.Always step InOrder (start exampleDriver) [.produce ⟨1, 0, 0x8400⟩, .poll] :=
  (@events_in_order 8192 4096 (fun _ => ⟨0, 0, 0⟩) exampleDriver (by decide) (by decide) rfl _).mpr (by decide +kernel)

/-- 255 events and as many polls, then one poll more: it returns a link TRB that the controller has not
produced. -/
theorem phantom_event : ¬∀ (erstPhys ringPhys : ℕ) (page : ℕ → Trb) (driver : EventRing),
    trbSize ∣ ringPhys → ringPhys + xhciEventRingTrbs * trbSize ≤ 2 ^ 64 →
    xhciEventRingInit erstPhys ringPhys page = some driver →
    ∀ as, Runs.Always step InOrder (start driver) as := by
  intro h
  have hstart := @inStep_start 8192 4096 (fun _ => ⟨0, 0, 0⟩) exampleDriver (by decide) (by decide) rfl
  obtain ⟨hinStep, hreturned, hproduced⟩ :=
    hstart.produce_and_poll rfl (List.replicate 255 ⟨1, 0, 0x8400⟩)
  rw [List.length_replicate] at hreturned hproduced
  have hlast := (h 4096 8192 (fun _ => ⟨0, 0, 0⟩) exampleDriver (by decide) (by decide) rfl
    (((List.replicate 255 ⟨1, 0, 0x8400⟩).flatMap fun e => [.produce e, .poll]) ++ [.poll])).last
  rw [Runs.runAll_append] at hlast
  refine hinStep.not_inOrder_of_atUnwrittenLast ⟨?_, ?_⟩ hlast
  · rw [hinStep.dequeue, hreturned]
    rfl
  · rw [hproduced]
    decide

end EventSystem

end Sandflea.Xhci
