import Mathlib.Data.UInt
import Mathlib.Algebra.BigOperators.Group.List.Basic
import Mathlib.Tactic
import Sandflea.Lib.Ring
import Sandflea.Lib.Runs

/-!
# The mouse

A mouse sends packets of three bytes. The movements in a packet are numbers of nine bits, whose signs are in the
first byte, and `mouse_handle_interrupt` looks at the other eight bits only: a movement that does not fit into
eight bits comes out 256 too small or too large. The buttons come out right (`mouse_matches_iff`).
-/

namespace Sandflea

/-! ## The driver -/

/-- `MOUSE_EVENT_MOVE` -/
def mouseEventMove : UInt8 := 1

/-- `MOUSE_EVENT_BTN` -/
def mouseEventBtn : UInt8 := 2

/-- `MOUSE_EVENT_QUEUE_SIZE` -/
def mouseEventQueueSize : ℕ := 128

/-- `mouse_event_t` -/
structure MouseEvent where
  type : UInt8
  dx : Int8
  dy : Int8
deriving DecidableEq

/-- The variables of `kern_mouse.c` for the packets -/
structure PacketAssembly where
  cycle : UInt8
  bytes : ℕ → UInt8
  btnState : UInt8

/-- The variables of `kern_mouse.c` -/
structure Mouse extends PacketAssembly where
  queue : Ring.Queue MouseEvent mouseEventQueueSize

namespace Mouse

/-- The zeroed variables -/
def zeroed : Mouse where
  cycle := 0
  bytes _ := 0
  btnState := 0
  queue := ⟨fun _ => ⟨0, 0, 0⟩, 0, 0, by decide, by decide⟩

/-- `mask` in `mouse_handle_interrupt` -/
def mask (btn : ℕ) : UInt8 := 1 <<< UInt8.ofNat btn

/-- A turn of the loop over the buttons in `mouse_handle_interrupt` -/
def pushButton (changed newBtns : UInt8) (queue : Ring.Queue MouseEvent mouseEventQueueSize) (btn : ℕ) :
    Ring.Queue MouseEvent mouseEventQueueSize :=
  if changed &&& mask btn ≠ 0 then
    let down : Int8 := if newBtns &&& mask btn ≠ 0 then 1 else 0
    queue.push ⟨mouseEventBtn, Int8.ofNat (btn + 1), down⟩
  else queue

/-- The end of `mouse_handle_interrupt`, after the third byte -/
def decodePacket (s : Mouse) : Mouse :=
  let flags := s.bytes 0
  if flags &&& 0xC0 ≠ 0 then s
  else
    let dx := (s.bytes 1).toInt8
    let dy := (s.bytes 2).toInt8
    let dy := -dy
    let newBtns := flags &&& 0x07
    let changed := s.btnState ^^^ newBtns
    let queue := (List.range 3).foldl (pushButton changed newBtns) s.queue
    let queue := if dx ≠ 0 ∨ dy ≠ 0 then queue.push ⟨mouseEventMove, dx, dy⟩ else queue
    { s with btnState := newBtns, queue := queue }

/-- `mouse_handle_interrupt`, with what the ports `0x64` and `0x60` read -/
def mouseHandleInterrupt (s : Mouse) (status data : UInt8) : Mouse :=
  if status &&& 0x01 = 0 then s
  else if status &&& 0x20 = 0 then s
  else if s.cycle = 0 then
    if data &&& 0x08 = 0 then s else { s with bytes := Function.update s.bytes 0 data, cycle := 1 }
  else if s.cycle = 1 then { s with bytes := Function.update s.bytes 1 data, cycle := 2 }
  else if s.cycle = 2 then decodePacket { s with bytes := Function.update s.bytes 2 data, cycle := 0 }
  else s

/-- `mouse_eat_event` -/
def mouseEatEvent (s : Mouse) : Option MouseEvent × Mouse :=
  match s.queue.pop with
  | none => (none, s)
  | some (e, queue) => (some e, { s with queue := queue })

end Mouse

/-! ## Packets and events -/

/-- A packet with its first byte marked and without overflow -/
structure MousePacket where
  flags : UInt8
  x : UInt8
  y : UInt8
  marked : flags &&& 0x08 ≠ 0
  noOverflow : flags &&& 0xC0 = 0

namespace MousePacket

/-- The bytes that are sent -/
def bytes (p : MousePacket) : List UInt8 := [p.flags, p.x, p.y]

/-- A number of nine bits, given the lower eight and the sign -/
def nineBits (b : UInt8) (isNegative : Bool) : ℤ := b.toNat - if isNegative then 256 else 0

/-- The movement to the right -/
def dx (p : MousePacket) : ℤ := nineBits p.x (p.flags &&& 0x10 ≠ 0)

/-- The movement up -/
def dy (p : MousePacket) : ℤ := nineBits p.y (p.flags &&& 0x20 ≠ 0)

/-- The buttons that are held -/
def buttons (p : MousePacket) : UInt8 := p.flags &&& 0x07

end MousePacket

namespace MouseEvent

/-- The sum of the movements to the right -/
def sumX (es : List MouseEvent) : ℤ := ((es.filter (·.type = mouseEventMove)).map (·.dx.toInt)).sum

/-- The sum of the movements down -/
def sumY (es : List MouseEvent) : ℤ := ((es.filter (·.type = mouseEventMove)).map (·.dy.toInt)).sum

/-- What an event says about the buttons -/
def apply (held : UInt8) (e : MouseEvent) : UInt8 :=
  if e.type = mouseEventBtn then
    if e.dy = 1 then held ||| Mouse.mask (e.dx.toInt - 1).toNat
    else held &&& ~~~ Mouse.mask (e.dx.toInt - 1).toNat
  else held

/-- The buttons that are held after events -/
def replay (held : UInt8) (es : List MouseEvent) : UInt8 := es.foldl apply held

end MouseEvent

/-! ## Runs -/

/-- What happens to the driver -/
inductive MouseOp
  /-- An interrupt, with what the ports read -/
  | irq (status data : UInt8)
  /-- `mouse_eat_event` -/
  | eat

/-- The driver with the events that were eaten -/
structure MouseRun where
  mouse : Mouse
  eaten : List MouseEvent

namespace MouseRun

/-- Nothing was sent or eaten. -/
def boot : MouseRun := ⟨Mouse.zeroed, []⟩

/-- The state after an operation -/
def step (s : MouseRun) : MouseOp → MouseRun
  | .irq status data => ⟨s.mouse.mouseHandleInterrupt status data, s.eaten⟩
  | .eat => ⟨s.mouse.mouseEatEvent.2, s.eaten ++ s.mouse.mouseEatEvent.1.toList⟩

/-- The events that were eaten or wait to be -/
def delivered (s : MouseRun) : List MouseEvent := s.eaten ++ s.mouse.queue.toList

/-- The data of an interrupt that comes from the mouse -/
def dataOf : MouseOp → Option UInt8
  | .irq status data => if status &&& 0x01 = 0 ∨ status &&& 0x20 = 0 then none else some data
  | .eat => none

/-- The bytes that the mouse sent -/
def received (ops : List MouseOp) : List UInt8 := ops.filterMap dataOf

end MouseRun

/-! ## What the driver makes of a byte -/

namespace PacketAssembly

/-- The variables for the packets after a byte -/
def feed (a : PacketAssembly) (data : UInt8) : PacketAssembly :=
  if a.cycle = 0 then
    if data &&& 0x08 = 0 then a else { a with bytes := Function.update a.bytes 0 data, cycle := 1 }
  else if a.cycle = 1 then { a with bytes := Function.update a.bytes 1 data, cycle := 2 }
  else if a.cycle = 2 then
    { bytes := Function.update a.bytes 2 data
      cycle := 0
      btnState := if a.bytes 0 &&& 0xC0 ≠ 0 then a.btnState else a.bytes 0 &&& 0x07 }
  else a

/-- The events of the buttons, in the order of the loop -/
def buttonEvents (changed newBtns : UInt8) : List MouseEvent :=
  (List.range 3).filterMap fun btn =>
    if changed &&& Mouse.mask btn ≠ 0 then
      some ⟨mouseEventBtn, Int8.ofNat (btn + 1), if newBtns &&& Mouse.mask btn ≠ 0 then 1 else 0⟩
    else none

/-- The events of a packet, given the buttons before -/
def packetEvents (btnState flags x y : UInt8) : List MouseEvent :=
  buttonEvents (btnState ^^^ (flags &&& 0x07)) (flags &&& 0x07) ++
    if x.toInt8 ≠ 0 ∨ -y.toInt8 ≠ 0 then [⟨mouseEventMove, x.toInt8, -y.toInt8⟩] else []

/-- The events of a byte -/
def emits (a : PacketAssembly) (data : UInt8) : List MouseEvent :=
  if a.cycle = 2 ∧ a.bytes 0 &&& 0xC0 = 0 then packetEvents a.btnState (a.bytes 0) (a.bytes 1) data else []

/-- The events of bytes -/
def emitted : PacketAssembly → List UInt8 → List MouseEvent
  | _, [] => []
  | a, data :: rest => a.emits data ++ emitted (a.feed data) rest

end PacketAssembly

namespace Mouse

/-- The loop over the buttons pushes their events. -/
theorem foldl_pushButton (changed newBtns : UInt8) (queue : Ring.Queue MouseEvent mouseEventQueueSize) :
    (List.range 3).foldl (pushButton changed newBtns) queue =
      (PacketAssembly.buttonEvents changed newBtns).foldl Ring.Queue.push queue := by
  unfold PacketAssembly.buttonEvents
  rw [List.foldl_filterMap]
  congr 1
  funext queue btn
  unfold pushButton
  split_ifs <;> rfl

/-- A packet changes the buttons and pushes its events. -/
theorem decodePacket_eq (s : Mouse) :
    s.decodePacket =
      if s.bytes 0 &&& 0xC0 = 0 then
        { s with
          btnState := s.bytes 0 &&& 0x07
          queue := (PacketAssembly.packetEvents s.btnState (s.bytes 0) (s.bytes 1) (s.bytes 2)).foldl
            Ring.Queue.push s.queue }
      else s := by
  unfold decodePacket PacketAssembly.packetEvents
  rw [ite_not, List.foldl_append, ← foldl_pushButton]
  refine if_congr Iff.rfl ?_ rfl
  dsimp only
  split_ifs <;> rfl

/-- An interrupt from the mouse feeds a byte. -/
theorem mouseHandleInterrupt_eq (s : Mouse) {status : UInt8} (data : UInt8) (hfull : status &&& 0x01 ≠ 0)
    (hmouse : status &&& 0x20 ≠ 0) :
    s.mouseHandleInterrupt status data =
      ⟨s.toPacketAssembly.feed data, (s.toPacketAssembly.emits data).foldl Ring.Queue.push s.queue⟩ := by
  unfold mouseHandleInterrupt PacketAssembly.feed PacketAssembly.emits
  rw [if_neg hfull, if_neg hmouse]
  by_cases h0 : s.cycle = 0
  · by_cases hmarked : data &&& 0x08 = 0 <;> simp [h0, hmarked]
  · by_cases h1 : s.cycle = 1
    · simp [h1]
    · by_cases h2 : s.cycle = 2
      · by_cases hoverflow : s.bytes 0 &&& 0xC0 = 0 <;> simp [h2, hoverflow, decodePacket_eq]
      · simp [h0, h1, h2]

end Mouse

namespace MouseRun

/-- No event of an interrupt is dropped. -/
def Room (s : MouseRun) : MouseOp → Prop
  | .irq status data => status &&& 0x01 ≠ 0 → status &&& 0x20 ≠ 0 →
      s.mouse.queue.toList.length + (s.mouse.toPacketAssembly.emits data).length < mouseEventQueueSize
  | .eat => True

instance decidableRoom (s : MouseRun) : (op : MouseOp) → Decidable (s.Room op)
  | .irq _ _ => inferInstanceAs (Decidable (_ → _ → _))
  | .eat => inferInstanceAs (Decidable True)

/-- An operation feeds the bytes that it receives, and adds their events to what is delivered. -/
theorem step_spec {s : MouseRun} {op : MouseOp} (hroom : s.Room op) :
    (s.step op).mouse.toPacketAssembly = ((dataOf op).toList).foldl PacketAssembly.feed s.mouse.toPacketAssembly ∧
      (s.step op).delivered = s.delivered ++ s.mouse.toPacketAssembly.emitted (dataOf op).toList := by
  cases op with
  | irq status data =>
    simp only [step, dataOf, delivered]
    by_cases hread : status &&& 0x01 = 0 ∨ status &&& 0x20 = 0
    · have hsame : s.mouse.mouseHandleInterrupt status data = s.mouse := by
        unfold Mouse.mouseHandleInterrupt
        obtain h | h := hread
        · rw [if_pos h]
        · rw [if_pos h, ite_self]
      simp [hread, hsame, PacketAssembly.emitted]
    · obtain ⟨hfull, hmouse⟩ := not_or.mp hread
      rw [if_neg hread, Mouse.mouseHandleInterrupt_eq _ _ hfull hmouse,
        Ring.Queue.toList_foldl_push (hroom hfull hmouse)]
      exact ⟨rfl, by simp [PacketAssembly.emitted]⟩
  | eat =>
    unfold step dataOf delivered Mouse.mouseEatEvent
    cases hpop : s.mouse.queue.pop with
    | none => simp [PacketAssembly.emitted]
    | some popped => simp [PacketAssembly.emitted, Ring.Queue.toList_pop hpop]

/-- A run in which no event is dropped delivers the events of the bytes that it receives. -/
theorem runAll_delivered {s : MouseRun} {ops : List MouseOp} (hroom : Runs.Along step Room s ops) :
    (Runs.runAll step s ops).delivered = s.delivered ++ s.mouse.toPacketAssembly.emitted (received ops) := by
  induction ops generalizing s with
  | nil => exact (List.append_nil _).symm
  | cons op ops ih =>
    obtain ⟨hassembly, hdelivered⟩ := step_spec hroom.1
    rw [Runs.runAll_cons, ih hroom.2, hdelivered, hassembly, List.append_assoc]
    unfold received
    cases hdata : dataOf op with
    | none => simp [hdata, PacketAssembly.emitted]
    | some data => simp [hdata, PacketAssembly.emitted]

end MouseRun

/-! ## Packets and their events -/

namespace PacketAssembly

/-- The events of packets, given the buttons before -/
def eventsOf : UInt8 → List MousePacket → List MouseEvent
  | _, [] => []
  | held, p :: ps => packetEvents held p.flags p.x p.y ++ eventsOf p.buttons ps

/-- Between two packets, a packet is taken whole. -/
theorem emitted_packet {a : PacketAssembly} (h : a.cycle = 0) (p : MousePacket) (rest : List UInt8) :
    ∃ a' : PacketAssembly, a'.cycle = 0 ∧ a'.btnState = p.buttons ∧
      a.emitted (p.bytes ++ rest) = packetEvents a.btnState p.flags p.x p.y ++ a'.emitted rest := by
  have hfirst : a.feed p.flags = ⟨1, Function.update a.bytes 0 p.flags, a.btnState⟩ := by
    simp [feed, h, p.marked]
  have hsecond : (a.feed p.flags).feed p.x =
      ⟨2, Function.update (Function.update a.bytes 0 p.flags) 1 p.x, a.btnState⟩ := by
    rw [hfirst]
    simp [feed]
  refine ⟨((a.feed p.flags).feed p.x).feed p.y, ?_, ?_, ?_⟩
  · rw [hsecond]
    simp [feed]
  · rw [hsecond]
    simp [feed, p.noOverflow, MousePacket.buttons]
  · have hemits : ((a.feed p.flags).feed p.x).emits p.y = packetEvents a.btnState p.flags p.x p.y := by
      rw [hsecond]
      simp [emits, p.noOverflow]
    show a.emits p.flags ++ ((a.feed p.flags).emits p.x ++
      (((a.feed p.flags).feed p.x).emits p.y ++ _)) = _
    rw [hemits, hfirst]
    simp [emits, h]

/-- The events of the bytes of packets -/
theorem emitted_packets {a : PacketAssembly} (h : a.cycle = 0) (ps : List MousePacket) :
    a.emitted (ps.flatMap MousePacket.bytes) = eventsOf a.btnState ps := by
  induction ps generalizing a with
  | nil => rfl
  | cons p ps ih =>
    obtain ⟨a', hcycle, hbuttons, hemitted⟩ := emitted_packet h p (ps.flatMap MousePacket.bytes)
    rw [List.flatMap_cons, hemitted, ih hcycle, hbuttons]
    rfl

end PacketAssembly

/-! ## Sums of truncated numbers -/

/-- As many numbers are too large for eight bits as are too small. -/
def Balanced (zs : List ℤ) : Prop := zs.countP (127 < ·) = zs.countP (· < -128)

instance decidableBalanced : DecidablePred Balanced := fun _ => inferInstanceAs (Decidable (_ = _))

/-- What a number of nine bits loses in eight -/
theorem bmod_nineBits {z : ℤ} (hlo : -256 ≤ z) (hhi : z ≤ 256) :
    z.bmod 256 = z - (if 127 < z then 256 else 0) + if z < -128 then 256 else 0 := by
  rw [Int.bmod_def]
  omega

/-- What a sum of numbers of nine bits loses -/
theorem sum_bmod {zs : List ℤ} (h : ∀ z ∈ zs, -256 ≤ z ∧ z ≤ 256) :
    (zs.map (·.bmod 256)).sum =
      zs.sum - 256 * (zs.countP (127 < ·) : ℕ) + 256 * (zs.countP (· < -128) : ℕ) := by
  induction zs with
  | nil => rfl
  | cons z zs ih =>
    obtain ⟨hlo, hhi⟩ := h z List.mem_cons_self
    have hz := bmod_nineBits hlo hhi
    have hrest := ih fun z' hz' => h z' (List.mem_cons_of_mem _ hz')
    rw [List.map_cons, List.sum_cons, List.sum_cons, List.countP_cons, List.countP_cons, hz, hrest]
    by_cases hlarge : 127 < z <;> by_cases hsmall : z < -128 <;> simp [hlarge, hsmall] <;> omega

/-- The sum is right exactly if what is lost evens out. -/
theorem sum_bmod_iff {zs : List ℤ} (h : ∀ z ∈ zs, -256 ≤ z ∧ z ≤ 256) :
    (zs.map (·.bmod 256)).sum = zs.sum ↔ Balanced zs := by
  rw [sum_bmod h]
  unfold Balanced
  omega

namespace MousePacket

theorem nineBits_bounds (b : UInt8) (isNegative : Bool) :
    -256 ≤ nineBits b isNegative ∧ nineBits b isNegative ≤ 256 := by
  have hb := b.toNat_lt
  unfold nineBits
  split <;> omega

/-- Without the sign, the lower eight bits stay. -/
theorem toInt_toInt8 (b : UInt8) (isNegative : Bool) : b.toInt8.toInt = (nineBits b isNegative).bmod 256 := by
  have hlow : b.toInt8.toInt = (b.toNat : ℤ).bmod 256 := BitVec.toInt_eq_toNat_bmod _
  rw [hlow]
  unfold nineBits
  cases isNegative with
  | false => simp
  | true => exact (Int.sub_bmod_right _ _).symm

theorem toInt_neg_toInt8 (b : UInt8) (isNegative : Bool) :
    (-b.toInt8).toInt = (-nineBits b isNegative).bmod 256 := by
  have hneg := Int.sub_bmod_bmod (x := 0) (y := nineBits b isNegative) (n := 256)
  rw [Int.zero_sub, Int.zero_sub] at hneg
  rw [Int8.toInt_neg, toInt_toInt8 b isNegative]
  exact hneg

end MousePacket

namespace MouseEvent

theorem sumX_append (es es' : List MouseEvent) : sumX (es ++ es') = sumX es + sumX es' := by
  simp [sumX]

theorem sumY_append (es es' : List MouseEvent) : sumY (es ++ es') = sumY es + sumY es' := by
  simp [sumY]

end MouseEvent

namespace PacketAssembly

theorem filter_buttonEvents (changed newBtns : UInt8) :
    (buttonEvents changed newBtns).filter (·.type = mouseEventMove) = [] := by
  rw [List.filter_eq_nil_iff]
  intro e he
  obtain ⟨btn, -, hbtn⟩ := List.mem_filterMap.mp he
  split_ifs at hbtn <;> cases hbtn <;> simp [mouseEventBtn, mouseEventMove]

/-- The movements of a packet add up to the movement of the packet in eight bits. -/
theorem sums_packetEvents (held : UInt8) (p : MousePacket) :
    MouseEvent.sumX (packetEvents held p.flags p.x p.y) = p.dx.bmod 256 ∧
      MouseEvent.sumY (packetEvents held p.flags p.x p.y) = (-p.dy).bmod 256 := by
  unfold MousePacket.dx MousePacket.dy packetEvents
  rw [← MousePacket.toInt_toInt8, ← MousePacket.toInt_neg_toInt8, MouseEvent.sumX_append, MouseEvent.sumY_append]
  unfold MouseEvent.sumX MouseEvent.sumY
  rw [filter_buttonEvents]
  by_cases hmove : p.x.toInt8 ≠ 0 ∨ -p.y.toInt8 ≠ 0
  · rw [if_pos hmove]
    simp
  · obtain ⟨hx, hy⟩ := not_or.mp hmove
    rw [if_neg hmove, not_not.mp hx, not_not.mp hy]
    simp

/-- The loop over the buttons finds those that differ. -/
theorem replay_buttonEvents :
    ∀ held newBtns : Fin 8, MouseEvent.replay (UInt8.ofNat held)
      (buttonEvents (UInt8.ofNat held ^^^ UInt8.ofNat newBtns) (UInt8.ofNat newBtns)) = UInt8.ofNat newBtns := by
  decide +kernel

theorem exists_mask (flags : UInt8) : ∃ i : Fin 8, flags &&& 0x07 = UInt8.ofNat i := by
  have hlt : (flags &&& 0x07).toNat < 8 := by
    rw [UInt8.toNat_and]
    exact Nat.and_lt_two_pow _ (n := 3) (by decide)
  exact ⟨⟨_, hlt⟩, (UInt8.ofNat_toNat).symm⟩

/-- The buttons of a packet turn those that are held into its own. -/
theorem replay_packetEvents {held : UInt8} (hheld : ∃ i : Fin 8, held = UInt8.ofNat i) (p : MousePacket) :
    MouseEvent.replay held (packetEvents held p.flags p.x p.y) = p.buttons := by
  obtain ⟨i, rfl⟩ := hheld
  obtain ⟨j, hj⟩ := exists_mask p.flags
  unfold packetEvents MousePacket.buttons MouseEvent.replay
  rw [hj, List.foldl_append]
  have hbuttons := replay_buttonEvents i j
  unfold MouseEvent.replay at hbuttons
  rw [hbuttons]
  -- a movement says nothing about the buttons
  split_ifs <;> simp [MouseEvent.apply, mouseEventMove, mouseEventBtn]

/-- The buttons of the last packet, or those that were held before -/
def lastButtons (held : UInt8) (ps : List MousePacket) : UInt8 := (ps.map MousePacket.buttons).getLastD held

theorem replay_eventsOf {h : UInt8} (hheld : ∃ i : Fin 8, h = UInt8.ofNat i) (ps : List MousePacket) :
    MouseEvent.replay h (eventsOf h ps) = lastButtons h ps := by
  induction ps generalizing h with
  | nil => rfl
  | cons p ps ih =>
    have hone := replay_packetEvents hheld p
    have hrest := ih (exists_mask p.flags)
    unfold MouseEvent.replay at hone hrest ⊢
    unfold eventsOf
    rw [List.foldl_append, hone]
    unfold lastButtons at hrest ⊢
    rw [List.map_cons, List.getLastD_cons]
    exact hrest

/-- The movements of packets add up to those of the packets in eight bits. -/
theorem sums_eventsOf (held : UInt8) (ps : List MousePacket) :
    MouseEvent.sumX (eventsOf held ps) = ((ps.map MousePacket.dx).map (·.bmod 256)).sum ∧
      MouseEvent.sumY (eventsOf held ps) = ((ps.map fun p => -p.dy).map (·.bmod 256)).sum := by
  induction ps generalizing held with
  | nil => exact ⟨rfl, rfl⟩
  | cons p ps ih =>
    obtain ⟨hx, hy⟩ := sums_packetEvents held p
    obtain ⟨hxs, hys⟩ := ih p.buttons
    unfold eventsOf
    rw [MouseEvent.sumX_append, MouseEvent.sumY_append, hx, hy, hxs, hys]
    exact ⟨rfl, rfl⟩

end PacketAssembly

/-! ## What is delivered -/

namespace MouseRun

/-- The movements that are delivered add up to those of the packets, with the y axis turned around, and the events
of the buttons lead to the buttons of the last packet. -/
def Matches (s : MouseRun) (ps : List MousePacket) : Prop :=
  (MouseEvent.sumX s.delivered = (ps.map MousePacket.dx).sum ∧
    MouseEvent.sumY s.delivered = (ps.map fun p => -p.dy).sum) ∧
      MouseEvent.replay 0 s.delivered = PacketAssembly.lastButtons 0 ps

instance decidableMatches (s : MouseRun) (ps : List MousePacket) : Decidable (s.Matches ps) :=
  inferInstanceAs (Decidable ((_ ∧ _) ∧ _))

/-- A run that receives packets and drops no event delivers their events. -/
theorem delivered_packets {ops : List MouseOp} {ps : List MousePacket}
    (hreceived : received ops = ps.flatMap MousePacket.bytes) (hroom : Runs.Along step Room boot ops) :
    (Runs.runAll step boot ops).delivered = PacketAssembly.eventsOf 0 ps := by
  rw [runAll_delivered hroom, hreceived, PacketAssembly.emitted_packets rfl]
  exact List.nil_append _

/-- A run that receives packets and drops no event delivers what they say, if and only if as many movements are too
large for eight bits as are too small, to the right and down. -/
theorem mouse_matches_iff {ops : List MouseOp} {ps : List MousePacket}
    (hreceived : received ops = ps.flatMap MousePacket.bytes) (hroom : Runs.Along step Room boot ops) :
    (Runs.runAll step boot ops).Matches ps ↔
      Balanced (ps.map MousePacket.dx) ∧ Balanced (ps.map fun p => -p.dy) := by
  have hx : ∀ z ∈ ps.map MousePacket.dx, -256 ≤ z ∧ z ≤ 256 := by
    intro z hz
    obtain ⟨p, -, rfl⟩ := List.mem_map.mp hz
    exact MousePacket.nineBits_bounds _ _
  have hy : ∀ z ∈ ps.map fun p => -p.dy, -256 ≤ z ∧ z ≤ 256 := by
    intro z hz
    obtain ⟨p, -, rfl⟩ := List.mem_map.mp hz
    have hbounds : -256 ≤ p.dy ∧ p.dy ≤ 256 := MousePacket.nineBits_bounds _ _
    omega
  obtain ⟨hsumX, hsumY⟩ := PacketAssembly.sums_eventsOf 0 ps
  have hbuttons := PacketAssembly.replay_eventsOf (h := 0) ⟨0, rfl⟩ ps
  unfold Matches
  rw [delivered_packets hreceived hroom, hsumX, hsumY, sum_bmod_iff hx, sum_bmod_iff hy, hbuttons]
  exact and_iff_left rfl

/-- Left button down and five to the right, then up again and three up, with all bytes sent before the first event
is eaten -/
theorem mouse_matches_small :
    (Runs.runAll step boot ([0x09, 0x05, 0x00, 0x08, 0x00, 0x03].map (.irq 0x21) ++ [.eat, .eat])).Matches
      [⟨0x09, 0x05, 0x00, by decide, by decide⟩, ⟨0x08, 0x00, 0x03, by decide, by decide⟩] :=
  (mouse_matches_iff (by decide) (by decide +kernel)).mpr (by decide)

/-- A movement of 200 to the right comes out as one of 56 to the left. -/
theorem not_mouse_matches :
    ¬ ∀ (ops : List MouseOp) (ps : List MousePacket), received ops = ps.flatMap MousePacket.bytes →
      Runs.Along step Room boot ops → (Runs.runAll step boot ops).Matches ps := by
  intro h
  exact absurd (h ([0x08, 0xC8, 0x00].map (.irq 0x21)) [⟨0x08, 0xC8, 0x00, by decide, by decide⟩] (by decide)
    (by decide +kernel)) (by decide +kernel)

end MouseRun

end Sandflea
