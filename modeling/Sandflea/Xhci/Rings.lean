import Mathlib

/-!
# The TRB rings of the xHCI driver

The driver and the controller talk through rings of transfer request blocks (`kern_xhci_rings.c`,
`kern_xhci.c`). Bit 0 of a block's control word is its cycle bit: the side that reads a ring owns a block
when the bit is the cycle state it keeps. This module has the blocks, the rings as they are set up, and what
the driver does with each of them.
-/

namespace Sandflea.Xhci

/-- A transfer request block (`xhci_trb_t`) -/
structure Trb where
  parameter : BitVec 64
  status : BitVec 32
  control : BitVec 32
deriving DecidableEq

/-- The cycle bit -/
def Trb.cycle (t : Trb) : Bool := t.control.getLsbD 0

/-- The toggle bit of a link TRB -/
def Trb.toggles (t : Trb) : Bool := t.control.getLsbD 1

/-- The type field, bits 10 to 15 -/
def Trb.type (t : Trb) : BitVec 32 := (t.control >>> 10) &&& 0x3f

/-- A cycle state as the dword it is put into (`u8`, 0 or 1) -/
def cycleBit (ccs : Bool) : BitVec 32 := if ccs then 1 else 0

def trbTypeNormal : BitVec 32 := 1
def trbTypeSetupStage : BitVec 32 := 2
def trbTypeDataStage : BitVec 32 := 3
def trbTypeStatusStage : BitVec 32 := 4
def trbTypeLink : BitVec 32 := 6

/-- Bit 1 of a link TRB (`TRB_TC`): whoever follows it toggles its cycle state -/
def trbTc : BitVec 32 := 1 <<< 1
/-- The chain bit -/
def trbCh : BitVec 32 := 1 <<< 4
/-- Interrupt on completion -/
def trbIoc : BitVec 32 := 1 <<< 5
def trbTypeShift : ℕ := 10

/-- The transfer type of a stage -/
inductive Trt where
  | trtOut
  | trtIn
  | trtNone
deriving DecidableEq

/-- Its bits (`TRB_TRT_OUT`, `TRB_TRT_IN`, `TRB_TRT_NONE`) -/
def Trt.bits : Trt → BitVec 32
  | .trtOut => 0
  | .trtIn => 3 <<< 16
  | .trtNone => 0 <<< 16

def xhciCmdRingTrbs : ℕ := 256
def xhciEventRingTrbs : ℕ := 256
def xhciTransferRingTrbs : ℕ := 32

/-- The bytes of a TRB -/
def trbSize : ℕ := 16

/-! ## Setting a ring up -/

/-- The control word of a link TRB -/
def linkControl (initCcs : Bool) : BitVec 32 :=
  (trbTypeLink <<< trbTypeShift) ||| trbCh ||| trbTc ||| cycleBit initCcs

/-- The link TRB that `ring_init_full` and `xhci_transfer_ring_init` put into the last slot -/
def linkTrb (ringPhysBase : BitVec 64) (initCcs : Bool) : Trb where
  parameter := ringPhysBase
  status := 0
  control := linkControl initCcs

/-- The loop that fills the slots before the last -/
def fillSlots (ring : ℕ → Trb) (count : ℕ) (control : BitVec 32) : ℕ → Trb :=
  (List.range (count - 1)).foldl (fun ring i => Function.update ring i ⟨0, 0, control⟩) ring

/-- `ring_init_full`: the slots get the opposite of the producer's cycle state, and the last one is a link
TRB that has the producer's. -/
def ringInitFull (ring : ℕ → Trb) (count : ℕ) (initCcs : Bool) (ringPhysBase : BitVec 64) : ℕ → Trb :=
  let initBit := if initCcs then 0 else 1
  Function.update (fillSlots ring count initBit) (count - 1) (linkTrb ringPhysBase initCcs)

/-- What the loop has filled -/
theorem fillSlots_apply (ring : ℕ → Trb) (count : ℕ) (control : BitVec 32) (i : ℕ) :
    fillSlots ring count control i = if i < count - 1 then ⟨0, 0, control⟩ else ring i := by
  unfold fillSlots
  induction count - 1 with
  | zero => rfl
  | succ n ih =>
    rw [List.range_succ, List.foldl_append, List.foldl_cons, List.foldl_nil, Function.update_apply, ih]
    split_ifs <;> first | rfl | omega

theorem ringInitFull_of_lt {ring : ℕ → Trb} {count i : ℕ} {initCcs : Bool} {base : BitVec 64}
    (hi : i < count - 1) :
    ringInitFull ring count initCcs base i = ⟨0, 0, if initCcs then 0 else 1⟩ := by
  unfold ringInitFull
  rw [Function.update_of_ne (by omega), fillSlots_apply, if_pos hi]

@[simp] theorem ringInitFull_last (ring : ℕ → Trb) (count : ℕ) (initCcs : Bool) (base : BitVec 64) :
    ringInitFull ring count initCcs base (count - 1) = linkTrb base initCcs :=
  Function.update_self _ _ _

@[simp] theorem cycle_linkTrb (base : BitVec 64) (ccs : Bool) : (linkTrb base ccs).cycle = ccs :=
  (by decide : ∀ ccs, (linkControl ccs).getLsbD 0 = ccs) ccs

@[simp] theorem toggles_linkTrb (base : BitVec 64) (ccs : Bool) : (linkTrb base ccs).toggles = true :=
  (by decide : ∀ ccs, (linkControl ccs).getLsbD 1 = true) ccs

@[simp] theorem type_linkTrb (base : BitVec 64) (ccs : Bool) : (linkTrb base ccs).type = trbTypeLink :=
  (by decide : ∀ ccs, (linkControl ccs >>> 10) &&& 0x3f = trbTypeLink) ccs

/-! ## The event ring -/

/-- An entry of the segment table (`xhci_erst_entry_t`) -/
structure ErstEntry where
  ringBase : ℕ
  ringSize : ℕ
deriving DecidableEq

/-- The event ring: what the driver keeps of it, the entry of the segment table and the register that tell
the controller about it -/
structure EventRing where
  eventRing : ℕ → Trb
  eventRingPhys : ℕ
  eventDequeue : ℕ
  eventCcs : Bool
  erst : ErstEntry
  erdpLo : ℕ
  erdpHi : ℕ

/-- What the low half of `ERDP` is written with: the address and the event handler busy bit -/
def erdpLow (phys : ℕ) : ℕ := phys % 2 ^ 32 ||| 1 <<< 3

/-- The high half -/
def erdpHigh (phys : ℕ) : ℕ := phys / 2 ^ 32 % 2 ^ 32

/-- `xhci_event_ring_init`, with the pages that `dma_alloc_page` has returned (0 if there was none) and what
was in the page of the ring. -/
def xhciEventRingInit (erstPhys ringPhys : ℕ) (page : ℕ → Trb) : Option EventRing :=
  if erstPhys = 0 then none
  else if ringPhys = 0 then none
  else some {
    erst := { ringBase := ringPhys, ringSize := xhciEventRingTrbs }
    eventRing := ringInitFull page xhciEventRingTrbs true (BitVec.ofNat 64 ringPhys)
    eventRingPhys := ringPhys
    eventDequeue := 0
    eventCcs := true
    erdpLo := erdpLow ringPhys
    erdpHi := erdpHigh ringPhys }

/-- The driver is done with the slot it looked at: the index moves on, at the end of the ring the cycle state is
flipped, and the register is told. -/
def EventRing.advance (r : EventRing) : EventRing :=
  let eventDequeue := (r.eventDequeue + 1) % xhciEventRingTrbs
  let erdpPhys := r.eventRingPhys + eventDequeue * trbSize
  { r with
    eventDequeue := eventDequeue
    eventCcs := if eventDequeue = 0 then !r.eventCcs else r.eventCcs
    erdpLo := erdpLow erdpPhys
    erdpHi := erdpHigh erdpPhys }

/-- `xhci_event_dequeue_next`: the event if there is one, and the ring afterwards. -/
def xhciEventDequeueNext (r : EventRing) : Option Trb × EventRing :=
  let evt := r.eventRing r.eventDequeue
  if evt.cycle ≠ r.eventCcs then (none, r) else (some evt, r.advance)

/-! ## The command ring and the transfer rings -/

/-- A ring the driver posts to: the command ring, or the transfer ring of a slot -/
structure PostingRing where
  ring : ℕ → Trb
  enqueue : ℕ
  ccs : Bool

/-- `xhci_cmd_ring_init`, with the page and what was in it -/
def xhciCmdRingInit (phys : ℕ) (page : ℕ → Trb) : Option PostingRing :=
  if phys = 0 then none
  else some {
    ring := ringInitFull page xhciCmdRingTrbs true (BitVec.ofNat 64 phys)
    enqueue := 0
    ccs := true }

/-- `cmd_ring_enqueue`: nothing if the ring is taken for full -/
def cmdRingEnqueue (r : PostingRing) (param : BitVec 64) (status controlDword : BitVec 32) :
    Option PostingRing :=
  let next := (r.enqueue + 1) % xhciCmdRingTrbs
  let next := if next = xhciCmdRingTrbs - 1 then 0 else next
  if (r.ring next).cycle = r.ccs then none
  else some { r with
    ring := Function.update r.ring r.enqueue ⟨param, status, (controlDword &&& ~~~1) ||| cycleBit r.ccs⟩
    enqueue := next }

/-- The types of the commands that the driver posts -/
inductive CommandType where
  | enableSlot
  | addressDevice
  | configureEp
deriving DecidableEq

/-- Their codes (`TRB_TYPE_ENABLE_SLOT`, `TRB_TYPE_ADDRESS_DEVICE`, `TRB_TYPE_CONFIGURE_EP`) -/
def CommandType.code : CommandType → BitVec 32
  | .enableSlot => 9
  | .addressDevice => 11
  | .configureEp => 12

/-- The control word of a command -/
def commandControl (trbType : CommandType) (slotId : BitVec 32) : BitVec 32 :=
  (trbType.code <<< trbTypeShift) ||| ((slotId &&& 0xff) <<< 24)

/-- `xhci_post_command` -/
def xhciPostCommand (r : PostingRing) (param : BitVec 64) (status : BitVec 32) (trbType : CommandType)
    (slotId : BitVec 32) : Option PostingRing :=
  cmdRingEnqueue r param status (commandControl trbType slotId)

/-- A command as it is written keeps its type and has the cycle bit it is given. -/
theorem control_command (trbType : CommandType) (slotId : BitVec 32) (ccs : Bool) :
    ((commandControl trbType slotId &&& ~~~1) ||| cycleBit ccs).getLsbD 0 = ccs ∧
      (((commandControl trbType slotId &&& ~~~1) ||| cycleBit ccs) >>> 10) &&& 0x3f = trbType.code := by
  unfold commandControl trbTypeShift
  constructor
  · cases ccs <;> simp [cycleBit]
  · apply BitVec.eq_of_getLsbD_eq
    intro i hi
    cases trbType <;> cases ccs <;> interval_cases i <;> simp [cycleBit, CommandType.code]

/-- `xhci_transfer_ring_init` for a slot, with the page that was mapped for it (0 if there was none) and what
was in it -/
def xhciTransferRingInit (phys : ℕ) (page : ℕ → Trb) : Option PostingRing :=
  if phys = 0 then none
  else some {
    ring := Function.update (fillSlots page xhciTransferRingTrbs 0) (xhciTransferRingTrbs - 1)
      (linkTrb (BitVec.ofNat 64 phys) true)
    enqueue := 0
    ccs := true }

/-- `tr_enq_next` -/
def trEnqNext (enq : ℕ) : ℕ :=
  let next := (enq + 1) % xhciTransferRingTrbs
  if next = xhciTransferRingTrbs - 1 then 0 else next

/-- A TRB of a transfer, without its cycle bit -/
inductive Stage where
  | setup (setupWord : BitVec 64) (trt : Trt)
  | data (dataPhys : BitVec 64) (buflen : BitVec 32) (dataIn : Bool)
  | status (trt : Trt)
  | normal (dataPhys : BitVec 64) (buflen : BitVec 32)
deriving DecidableEq

/-- Its control word -/
def Stage.control : Stage → BitVec 32
  | .setup _ trt => (trbTypeSetupStage <<< trbTypeShift) ||| trt.bits ||| trbCh
  | .data _ _ dataIn =>
    (trbTypeDataStage <<< trbTypeShift) ||| (if dataIn then Trt.trtIn else Trt.trtOut).bits ||| trbCh
  | .status trt => (trbTypeStatusStage <<< trbTypeShift) ||| trt.bits ||| trbIoc
  | .normal _ _ => (trbTypeNormal <<< trbTypeShift) ||| trbIoc

/-- The TRB as it is written -/
def Stage.trb (stage : Stage) (ccs : Bool) : Trb :=
  match stage with
  | .setup setupWord _ => ⟨setupWord, 8, stage.control ||| cycleBit ccs⟩
  | .data dataPhys buflen _ => ⟨dataPhys, buflen, stage.control ||| cycleBit ccs⟩
  | .status _ => ⟨0, 0, stage.control ||| cycleBit ccs⟩
  | .normal dataPhys buflen => ⟨dataPhys, buflen, stage.control ||| cycleBit ccs⟩

theorem control_trb (stage : Stage) (ccs : Bool) :
    (stage.trb ccs).control = stage.control ||| cycleBit ccs := by
  cases stage <;> rfl

/-- A TRB of a transfer has the cycle bit it is given, and is no link TRB. -/
theorem control_stage (stage : Stage) (ccs : Bool) :
    (stage.control ||| cycleBit ccs).getLsbD 0 = ccs ∧
      ((stage.control ||| cycleBit ccs) >>> 10) &&& 0x3f ≠ trbTypeLink := by
  cases stage with
  | setup setupWord trt => cases trt <;> cases ccs <;> simp only [Stage.control] <;> decide
  | data dataPhys buflen dataIn => cases dataIn <;> cases ccs <;> simp only [Stage.control] <;> decide
  | status trt => cases trt <;> cases ccs <;> simp only [Stage.control] <;> decide
  | normal dataPhys buflen => cases ccs <;> simp only [Stage.control] <;> decide

/-- One TRB is written to a transfer ring and the enqueue index is advanced. -/
def PostingRing.write (r : PostingRing) (stage : Stage) : PostingRing :=
  { r with
    ring := Function.update r.ring r.enqueue (stage.trb r.ccs)
    enqueue := trEnqNext r.enqueue }

/-- The TRBs of a control transfer: `setupWord` are the eight bytes of the setup packet, `wLength` the last
two of them, and the buffer is given by its physical address and length, if there is one. -/
def controlStages (setupWord : BitVec 64) (wLength : BitVec 16) (buffer : Option (BitVec 64))
    (buflen : BitVec 32) (dataIn : Bool) : List Stage :=
  let trt := if wLength = 0 then Trt.trtNone else if dataIn then Trt.trtIn else Trt.trtOut
  match buffer with
  | some dataPhys =>
    if buflen.toNat > 0 then
      [.setup setupWord trt, .data dataPhys buflen dataIn, .status (if dataIn then .trtOut else .trtIn)]
    else [.setup setupWord trt, .status .trtIn]
  | none => [.setup setupWord trt, .status .trtIn]

/-- What `xhci_control_transfer` does to the ring -/
def xhciControlTransfer (r : PostingRing) (setupWord : BitVec 64) (wLength : BitVec 16)
    (buffer : Option (BitVec 64)) (buflen : BitVec 32) (dataIn : Bool) : PostingRing :=
  (controlStages setupWord wLength buffer buflen dataIn).foldl PostingRing.write r

/-- What `xhci_queue_interrupt_in` does to the ring -/
def xhciQueueInterruptIn (r : PostingRing) (dataPhys : BitVec 64) (buflen : BitVec 32) : PostingRing :=
  r.write (.normal dataPhys buflen)

end Sandflea.Xhci
