import Sandflea.Lib.Latch
import Sandflea.Lib.Runs

/-!
# Modifier keys

Every keyboard hands its keys to `kbd_inject_scancode_set1`: the handler of the PS/2 interrupt byte by byte, and
the USB driver with the keys that differ between two reports. Both keys of a pair share one cell or one flag,
which the release of either clears: Ctrl and Shift are right as long as no key of a pair is released while
another one stays held (`modifiers_follow_iff`).
-/

namespace Sandflea

/-! ## The keyboard -/

/-- `get_ascii_from_scancode`, without the keys that have no character -/
def asciiTable : List (UInt8 × Char) :=
  [(0x1E, 'a'), (0x30, 'b'), (0x2E, 'c'), (0x20, 'd'), (0x12, 'e'), (0x21, 'f'), (0x22, 'g'), (0x23, 'h'),
    (0x17, 'i'), (0x24, 'j'), (0x25, 'k'), (0x26, 'l'), (0x32, 'm'), (0x31, 'n'), (0x18, 'o'), (0x19, 'p'),
    (0x10, 'q'), (0x13, 'r'), (0x1F, 's'), (0x14, 't'), (0x16, 'u'), (0x2F, 'v'), (0x11, 'w'), (0x2D, 'x'),
    (0x15, 'y'), (0x2C, 'z'),
    (0x02, '1'), (0x03, '2'), (0x04, '3'), (0x05, '4'), (0x06, '5'), (0x07, '6'), (0x08, '7'), (0x09, '8'),
    (0x0A, '9'), (0x0B, '0'),
    (0x1C, '\n'), (0x39, ' '), (0x0E, '\x08'), (0x0F, '\t'),
    (0x29, '\x60'), (0x0C, '-'), (0x0D, '='), (0x1A, '['), (0x1B, ']'), (0x2B, '\x5c'), (0x27, ';'),
    (0x28, '\x27'), (0x33, ','), (0x34, '.'), (0x35, '/')]

/-- The function keys in `get_ascii_from_scancode` -/
def functionKeys : List (UInt8 × UInt8) :=
  [(0x3B, 0x86), (0x3C, 0x87), (0x3D, 0x88), (0x3E, 0x89), (0x3F, 0x8A), (0x40, 0x8B), (0x41, 0x8C),
    (0x42, 0x8D), (0x43, 0x8E), (0x44, 0x8F), (0x57, 0x90), (0x58, 0x91)]

/-- `get_ascii_from_scancode` -/
def getAsciiFromScancode (scancode : UInt8) : UInt8 :=
  match asciiTable.lookup scancode with
  | some c => c.toUInt8
  | none => (functionKeys.lookup scancode).getD 0

/-- The tables of `keyboard_shift` -/
def shiftTable : List (Char × Char) :=
  [('\x60', '~'), ('1', '!'), ('2', '@'), ('3', '#'), ('4', '$'), ('5', '%'), ('6', '^'), ('7', '&'),
    ('8', '*'), ('9', '('), ('0', ')'), ('-', '_'), ('=', '+'), ('[', '\x7b'), (']', '\x7d'), ('\x5c', '|'),
    (';', ':'), ('\x27', '\x22'), (',', '<'), ('.', '>'), ('/', '?')]

/-- `keyboard_shift` -/
def keyboardShift (c : UInt8) : UInt8 :=
  if 0x61 ≤ c ∧ c ≤ 0x7A then c - 32
  else ((shiftTable.map fun p => (p.1.toUInt8, p.2.toUInt8)).lookup c).getD c

/-- The arrows and the page keys in `kbd_inject_scancode_set1` -/
def extendedKeys : List (UInt8 × UInt8) :=
  [(0x48, 0x80), (0x50, 0x81), (0x49, 0x84), (0x51, 0x85), (0x4B, 0x82), (0x4D, 0x83)]

/-- `KEY_QUEUE_SIZE` -/
def keyQueueSize : ℕ := 128

/-- The variables of `kern_keyboard.c` -/
structure Keyboard where
  scancodePressed : UInt8 → Bool
  scancodeEdgeDown : UInt8 → Bool
  scancodeEdgeUp : UInt8 → Bool
  shiftDown : Bool
  queue : ℕ → UInt8
  queueReadPtr : ℕ
  queueWritePtr : ℕ

namespace Keyboard

/-- The zeroed variables -/
def zeroed : Keyboard where
  scancodePressed _ := false
  scancodeEdgeDown _ := false
  scancodeEdgeUp _ := false
  shiftDown := false
  queue _ := 0
  queueReadPtr := 0
  queueWritePtr := 0

/-- `IS_CTRL_DOWN` -/
def isCtrlDown (kb : Keyboard) : Bool := kb.scancodePressed 0x1D

/-- `IS_ALT_DOWN` -/
def isAltDown (kb : Keyboard) : Bool := kb.scancodePressed 0x38

/-- The write to the queue in `kbd_inject_scancode_set1` -/
def enqueue (kb : Keyboard) (ascii : UInt8) : Keyboard :=
  if ascii ≠ 0 ∧ (kb.queueWritePtr + 1) % keyQueueSize ≠ kb.queueReadPtr then
    { kb with
      queue := Function.update kb.queue kb.queueWritePtr ascii
      queueWritePtr := (kb.queueWritePtr + 1) % keyQueueSize }
  else kb

/-- What `kbd_inject_scancode_set1` puts into the queue for a key that goes down -/
def encode (kb : Keyboard) (sc : UInt8) (isExtended : Bool) : UInt8 :=
  if isExtended then (extendedKeys.lookup sc).getD 0
  else
    let ascii := getAsciiFromScancode sc
    let ascii := if kb.shiftDown then keyboardShift ascii else ascii
    let ascii := if kb.isCtrlDown ∧ 0x61 ≤ ascii ∧ ascii ≤ 0x7A then ascii &&& 0x1F else ascii
    if kb.isAltDown ∧ ascii = 0x20 then 0x1B else ascii

/-- The state of the keys in `kbd_inject_scancode_set1`, when one goes down -/
def press (kb : Keyboard) (sc : UInt8) (isExtended : Bool) : Keyboard :=
  { kb with
    scancodePressed := Function.update kb.scancodePressed sc true
    scancodeEdgeDown := Function.update kb.scancodeEdgeDown sc true
    shiftDown := if !isExtended ∧ (sc = 0x2A ∨ sc = 0x36) then true else kb.shiftDown }

/-- The state of the keys in `kbd_inject_scancode_set1`, when one goes up -/
def release (kb : Keyboard) (sc : UInt8) (isExtended : Bool) : Keyboard :=
  { kb with
    scancodePressed := Function.update kb.scancodePressed sc false
    scancodeEdgeUp := Function.update kb.scancodeEdgeUp sc true
    shiftDown := if !isExtended ∧ (sc = 0x2A ∨ sc = 0x36) then false else kb.shiftDown }

/-- `kbd_inject_scancode_set1` -/
def kbdInjectScancodeSet1 (kb : Keyboard) (sc : UInt8) (isExtended isDown : Bool) : Keyboard :=
  if 128 ≤ sc then kb
  else if isDown then
    let kb := kb.press sc isExtended
    kb.enqueue (kb.encode sc isExtended)
  else kb.release sc isExtended

@[simp] theorem enqueue_scancodePressed (kb : Keyboard) (ascii : UInt8) :
    (kb.enqueue ascii).scancodePressed = kb.scancodePressed := by
  unfold enqueue
  split <;> rfl

@[simp] theorem enqueue_shiftDown (kb : Keyboard) (ascii : UInt8) :
    (kb.enqueue ascii).shiftDown = kb.shiftDown := by
  unfold enqueue
  split <;> rfl

section

variable (kb : Keyboard) {sc : UInt8} (isExtended isDown : Bool)

/-- A key sets its cell, with or without the prefix. -/
theorem inject_scancodePressed (hsc : sc < 128) :
    (kb.kbdInjectScancodeSet1 sc isExtended isDown).scancodePressed =
      Function.update kb.scancodePressed sc isDown := by
  rw [kbdInjectScancodeSet1, if_neg (UInt8.not_le.mpr hsc)]
  cases isDown with
  | true => exact enqueue_scancodePressed _ _
  | false => rfl

/-- A Shift key sets the flag. -/
theorem inject_shiftDown (hsc : sc < 128) :
    (kb.kbdInjectScancodeSet1 sc isExtended isDown).shiftDown =
      if !isExtended ∧ (sc = 0x2A ∨ sc = 0x36) then isDown else kb.shiftDown := by
  rw [kbdInjectScancodeSet1, if_neg (UInt8.not_le.mpr hsc)]
  cases isDown with
  | true => exact enqueue_shiftDown _ _
  | false => rfl

/-- No key has a scancode of 128 or more. -/
theorem inject_of_le (hsc : 128 ≤ sc) : kb.kbdInjectScancodeSet1 sc isExtended isDown = kb := if_pos hsc

end

end Keyboard

/-! ## Events and what is held -/

/-- Where keys come from -/
inductive Transport
  /-- `keyboard_handle_keypress` -/
  | ps2
  /-- `kbd_hid_process_report` -/
  | hid
deriving DecidableEq, Repr

/-- A key of a keyboard, told by its scancode and its prefix -/
structure KeyId where
  transport : Transport
  sc : UInt8
  isExtended : Bool
deriving DecidableEq, Repr

/-- A key goes down, perhaps again, or up. -/
structure KeyEvent where
  key : KeyId
  isDown : Bool
deriving DecidableEq, Repr

/-- The left and the right Ctrl keys -/
def ctrlKeys : List KeyId :=
  [⟨.ps2, 0x1D, false⟩, ⟨.ps2, 0x1D, true⟩, ⟨.hid, 0x1D, false⟩, ⟨.hid, 0x1D, true⟩]

/-- The left and the right Shift keys -/
def shiftKeys : List KeyId :=
  [⟨.ps2, 0x2A, false⟩, ⟨.ps2, 0x36, false⟩, ⟨.hid, 0x2A, false⟩, ⟨.hid, 0x36, false⟩]

/-- The keyboard, with the keys that are held on the desk -/
structure Typing where
  kb : Keyboard
  held : KeyId → Bool

/-- The call for an event -/
def Keyboard.handle (kb : Keyboard) (e : KeyEvent) : Keyboard :=
  kb.kbdInjectScancodeSet1 e.key.sc e.key.isExtended e.isDown

namespace Typing

/-- No key is held. -/
def boot : Typing := ⟨Keyboard.zeroed, fun _ => false⟩

/-- The state after an event -/
def step (s : Typing) (e : KeyEvent) : Typing :=
  ⟨s.kb.handle e, Latch.hold s.held e.key e.isDown⟩

/-- Ctrl and Shift are down exactly while one of their keys is held. -/
def Follows (s : Typing) : Prop :=
  (s.kb.isCtrlDown = true ↔ Latch.AnyHeld ctrlKeys s.held) ∧
    (s.kb.shiftDown = true ↔ Latch.AnyHeld shiftKeys s.held)

instance decidableFollows : DecidablePred Follows := fun _ => inferInstanceAs (Decidable (_ ∧ _))

/-- No Ctrl key and no Shift key goes up while another one stays held. -/
def Alone (s : Typing) (e : KeyEvent) : Prop :=
  ¬ Latch.Hides ctrlKeys s.held e.key e.isDown ∧ ¬ Latch.Hides shiftKeys s.held e.key e.isDown

theorem mem_ctrlKeys (k : KeyId) : k ∈ ctrlKeys ↔ k.sc = 0x1D := by
  obtain ⟨t, sc, x⟩ := k
  cases t <;> cases x <;> simp [ctrlKeys]

theorem mem_shiftKeys (k : KeyId) : k ∈ shiftKeys ↔ !k.isExtended ∧ (k.sc = 0x2A ∨ k.sc = 0x36) := by
  obtain ⟨t, sc, x⟩ := k
  cases t <;> cases x <;> simp [shiftKeys]

/-- Ctrl is a latch of its keys. -/
theorem step_isCtrlDown (s : Typing) (e : KeyEvent) :
    (s.step e).kb.isCtrlDown = Latch.latch ctrlKeys s.kb.isCtrlDown e.key e.isDown := by
  unfold Latch.latch
  show (s.kb.handle e).scancodePressed 0x1D = _
  by_cases hsc : e.key.sc < 128
  · rw [Keyboard.handle, Keyboard.inject_scancodePressed _ _ _ hsc, Function.update_apply]
    simp only [mem_ctrlKeys, eq_comm (a := (0x1D : UInt8))]
    rfl
  · have hne : e.key ∉ ctrlKeys := by
      rw [mem_ctrlKeys]
      intro heq
      exact hsc (heq ▸ by decide)
    rw [Keyboard.handle, Keyboard.inject_of_le _ _ _ (UInt8.not_lt.mp hsc), if_neg hne]
    rfl

/-- Shift is a latch of its keys. -/
theorem step_shiftDown (s : Typing) (e : KeyEvent) :
    (s.step e).kb.shiftDown = Latch.latch shiftKeys s.kb.shiftDown e.key e.isDown := by
  unfold Latch.latch
  show (s.kb.handle e).shiftDown = _
  by_cases hsc : e.key.sc < 128
  · rw [Keyboard.handle, Keyboard.inject_shiftDown _ _ _ hsc]
    simp only [mem_shiftKeys]
  · have hne : e.key ∉ shiftKeys := by
      rw [mem_shiftKeys]
      rintro ⟨-, heq | heq⟩ <;> exact hsc (heq ▸ by decide)
    rw [Keyboard.handle, Keyboard.inject_of_le _ _ _ (UInt8.not_lt.mp hsc), if_neg hne]

/-- An event keeps the modifiers right exactly if no key of a pair goes up while another one stays held. -/
theorem step_follows_iff {s : Typing} (h : s.Follows) (e : KeyEvent) :
    (s.step e).Follows ↔ s.Alone e := by
  unfold Follows Alone
  rw [step_isCtrlDown, step_shiftDown]
  exact and_congr (Latch.latch_iff h.1) (Latch.latch_iff h.2)

theorem follows_boot : boot.Follows := by
  constructor <;> simp [boot, Keyboard.isCtrlDown, Keyboard.zeroed]

/-- In every sequence of key presses and releases, Ctrl and Shift are down exactly while one of their keys is
held, if and only if no Ctrl key and no Shift key goes up while another one stays held. -/
theorem modifiers_follow_iff (es : List KeyEvent) :
    Runs.Always step Follows boot es ↔ Runs.Along step Alone boot es :=
  Runs.always_iff_along (P := Follows) (fun _ e h => step_follows_iff h e) follows_boot

/-- With both Ctrl keys held, the right one goes up. -/
theorem modifiers_not_follow : ¬ ∀ es, Runs.Always step Follows boot es := by
  intro h
  exact absurd (h [⟨⟨.ps2, 0x1D, false⟩, true⟩, ⟨⟨.ps2, 0x1D, true⟩, true⟩, ⟨⟨.ps2, 0x1D, true⟩, false⟩])
    (by decide +kernel)

end Typing

/-! ## The two transports -/

/-- A row of `mods` in `kbd_hid_process_report` -/
structure HidModifier where
  bit : UInt8
  sc : UInt8
  isExtended : Bool
deriving DecidableEq, Repr

/-- `mods` in `kbd_hid_process_report` -/
def hidModifiers : List HidModifier :=
  [⟨0x01, 0x1D, false⟩, ⟨0x02, 0x2A, false⟩, ⟨0x04, 0x38, false⟩, ⟨0x10, 0x1D, true⟩, ⟨0x20, 0x36, false⟩,
    ⟨0x40, 0x38, true⟩]

/-- `key_map` -/
def hidKeyMap : List (UInt8 × UInt8 × Bool) :=
  [(0x04, 0x1E, false), (0x05, 0x30, false), (0x06, 0x2E, false), (0x07, 0x20, false), (0x08, 0x12, false),
    (0x09, 0x21, false), (0x0A, 0x22, false), (0x0B, 0x23, false), (0x0C, 0x17, false), (0x0D, 0x24, false),
    (0x0E, 0x25, false), (0x0F, 0x26, false), (0x10, 0x32, false), (0x11, 0x31, false), (0x12, 0x18, false),
    (0x13, 0x19, false), (0x14, 0x10, false), (0x15, 0x13, false), (0x16, 0x1F, false), (0x17, 0x14, false),
    (0x18, 0x16, false), (0x19, 0x2F, false), (0x1A, 0x11, false), (0x1B, 0x2D, false), (0x1C, 0x15, false),
    (0x1D, 0x2C, false),
    (0x1E, 0x02, false), (0x1F, 0x03, false), (0x20, 0x04, false), (0x21, 0x05, false), (0x22, 0x06, false),
    (0x23, 0x07, false), (0x24, 0x08, false), (0x25, 0x09, false), (0x26, 0x0A, false), (0x27, 0x0B, false),
    (0x28, 0x1C, false), (0x29, 0x01, false), (0x2A, 0x0E, false), (0x2B, 0x0F, false), (0x2C, 0x39, false),
    (0x2D, 0x0C, false), (0x2E, 0x0D, false), (0x2F, 0x1A, false), (0x30, 0x1B, false), (0x31, 0x2B, false),
    (0x33, 0x27, false), (0x34, 0x28, false), (0x35, 0x29, false), (0x36, 0x33, false), (0x37, 0x34, false),
    (0x38, 0x35, false), (0x39, 0x3A, false),
    (0x3A, 0x3B, false), (0x3B, 0x3C, false), (0x3C, 0x3D, false), (0x3D, 0x3E, false), (0x3E, 0x3F, false),
    (0x3F, 0x40, false), (0x40, 0x41, false), (0x41, 0x42, false), (0x42, 0x43, false), (0x43, 0x44, false),
    (0x44, 0x57, false), (0x45, 0x58, false),
    (0x46, 0x37, false), (0x47, 0x46, false), (0x49, 0x52, true), (0x4A, 0x47, true), (0x4B, 0x49, true),
    (0x4C, 0x53, true), (0x4D, 0x4F, true), (0x4E, 0x51, true), (0x4F, 0x4D, true), (0x50, 0x4B, true),
    (0x51, 0x50, true), (0x52, 0x48, true)]

/-- `hid_to_scancode` -/
def hidToScancode (usage : UInt8) : UInt8 × Bool := (hidKeyMap.lookup usage).getD (0, false)

/-- The keyboard with what its drivers keep: `is_extended` and `prev_report` -/
structure Drivers where
  kb : Keyboard
  isExtended : Bool
  prevReport : ℕ → UInt8

/-- What a keyboard sends -/
inductive Sent
  /-- An interrupt, with what the ports `0x64` and `0x60` read -/
  | interrupt (status sc : UInt8)
  /-- A report of eight bytes -/
  | report (bytes : ℕ → UInt8)

namespace Drivers

/-- The zeroed variables -/
def zeroed : Drivers := ⟨Keyboard.zeroed, false, fun _ => 0⟩

/-- `keyboard_handle_keypress` -/
def keyboardHandleKeypress (s : Drivers) (status sc : UInt8) : Drivers :=
  if status &&& 0x01 ≠ 0 ∧ status &&& 0x20 = 0 then
    if sc = 0xE0 then { s with isExtended := true }
    else
      let isDown := sc &&& 0x80 = 0
      let cleanSc := if isDown then sc else sc &&& 0x7F
      { s with kb := s.kb.kbdInjectScancodeSet1 cleanSc s.isExtended isDown, isExtended := false }
  else s

/-- A turn of the loop over `mods` in `kbd_hid_process_report` -/
def injectModifier (prev report : ℕ → UInt8) (kb : Keyboard) (m : HidModifier) : Keyboard :=
  if report 0 &&& m.bit ≠ 0 ∧ prev 0 &&& m.bit = 0 then kb.kbdInjectScancodeSet1 m.sc m.isExtended true
  else if report 0 &&& m.bit = 0 ∧ prev 0 &&& m.bit ≠ 0 then
    kb.kbdInjectScancodeSet1 m.sc m.isExtended false
  else kb

/-- A turn of the loops over the keys in `kbd_hid_process_report`: a key of one report that is not in the
other -/
def injectChanged (one other : ℕ → UInt8) (isDown : Bool) (kb : Keyboard) (k : ℕ) : Keyboard :=
  if one k = 0 then kb
  else if (List.range' 2 6).any fun j => other j = one k then kb
  else
    let (sc, isExtended) := hidToScancode (one k)
    if sc ≠ 0 then kb.kbdInjectScancodeSet1 sc isExtended isDown else kb

/-- `kbd_hid_process_report` -/
def kbdHidProcessReport (s : Drivers) (report : ℕ → UInt8) : Drivers :=
  let kb := hidModifiers.foldl (injectModifier s.prevReport report) s.kb
  let kb := (List.range' 2 6).foldl (injectChanged s.prevReport report false) kb
  let kb := (List.range' 2 6).foldl (injectChanged report s.prevReport true) kb
  { s with kb := kb, prevReport := fun i => if i < 8 then report i else s.prevReport i }

/-- The state after something was sent -/
def step (s : Drivers) : Sent → Drivers
  | .interrupt status sc => s.keyboardHandleKeypress status sc
  | .report bytes => s.kbdHidProcessReport bytes

/-! ### Their events -/

/-- The event of an interrupt -/
def interruptEvents (isExtended : Bool) (status sc : UInt8) : List KeyEvent :=
  if status &&& 0x01 ≠ 0 ∧ status &&& 0x20 = 0 ∧ sc ≠ 0xE0 then
    [⟨⟨.ps2, if sc &&& 0x80 = 0 then sc else sc &&& 0x7F, isExtended⟩, sc &&& 0x80 = 0⟩]
  else []

/-- The event of a modifier that differs between two reports -/
def modifierEvent (prev report : ℕ → UInt8) (m : HidModifier) : Option KeyEvent :=
  if report 0 &&& m.bit ≠ 0 ∧ prev 0 &&& m.bit = 0 then some ⟨⟨.hid, m.sc, m.isExtended⟩, true⟩
  else if report 0 &&& m.bit = 0 ∧ prev 0 &&& m.bit ≠ 0 then some ⟨⟨.hid, m.sc, m.isExtended⟩, false⟩
  else none

/-- The event of a key of one report that is not in the other -/
def changedEvent (one other : ℕ → UInt8) (isDown : Bool) (k : ℕ) : Option KeyEvent :=
  if one k = 0 ∨ (List.range' 2 6).any (fun j => other j = one k) ∨ (hidToScancode (one k)).1 = 0 then none
  else some ⟨⟨.hid, (hidToScancode (one k)).1, (hidToScancode (one k)).2⟩, isDown⟩

/-- The events of a report, in the order of the loops -/
def reportEvents (prev report : ℕ → UInt8) : List KeyEvent :=
  hidModifiers.filterMap (modifierEvent prev report) ++
    ((List.range' 2 6).filterMap (changedEvent prev report false) ++
      (List.range' 2 6).filterMap (changedEvent report prev true))

/-- The events of what was sent -/
def events (s : Drivers) : Sent → List KeyEvent
  | .interrupt status sc => interruptEvents s.isExtended status sc
  | .report bytes => reportEvents s.prevReport bytes

/-- The events of all that was sent -/
def allEvents : Drivers → List Sent → List KeyEvent
  | _, [] => []
  | s, a :: as => s.events a ++ allEvents (s.step a) as

/-- A loop that handles the event of some of its turns handles these events. -/
theorem foldl_events {A : Type*} {turn : Keyboard → A → Keyboard} {event : A → Option KeyEvent}
    (h : ∀ kb a, turn kb a = (event a).elim kb kb.handle) (as : List A) (kb : Keyboard) :
    as.foldl turn kb = Runs.runAll Keyboard.handle kb (as.filterMap event) := by
  rw [Runs.runAll, List.foldl_filterMap]
  congr 1
  funext kb a
  rw [h kb a]
  cases event a <;> rfl

theorem injectModifier_eq (prev report : ℕ → UInt8) (kb : Keyboard) (m : HidModifier) :
    injectModifier prev report kb m = (modifierEvent prev report m).elim kb kb.handle := by
  unfold injectModifier modifierEvent
  split_ifs <;> rfl

theorem injectChanged_eq (one other : ℕ → UInt8) (isDown : Bool) (kb : Keyboard) (k : ℕ) :
    injectChanged one other isDown kb k = (changedEvent one other isDown k).elim kb kb.handle := by
  unfold injectChanged changedEvent
  by_cases h0 : one k = 0
  · simp [h0]
  · by_cases hheld : (List.range' 2 6).any fun j => other j = one k
    · simp [h0, hheld]
    · by_cases hsc : (hidToScancode (one k)).1 = 0 <;> simp [h0, hheld, hsc, Keyboard.handle]

/-- What was sent reaches the keyboard as its events. -/
theorem step_kb (s : Drivers) (a : Sent) :
    (s.step a).kb = Runs.runAll Keyboard.handle s.kb (s.events a) := by
  cases a with
  | interrupt status sc =>
    show (s.keyboardHandleKeypress status sc).kb =
      Runs.runAll Keyboard.handle s.kb (interruptEvents s.isExtended status sc)
    unfold keyboardHandleKeypress interruptEvents
    by_cases hkey : status &&& 0x01 ≠ 0 ∧ status &&& 0x20 = 0
    · by_cases hsc : sc = 0xE0
      · simp [hkey, hsc]
      · simp [hkey, hsc, Keyboard.handle]
    · rw [if_neg hkey, if_neg fun h => hkey ⟨h.1, h.2.1⟩]
      rfl
  | report bytes =>
    unfold events reportEvents
    rw [Runs.runAll_append, Runs.runAll_append, ← foldl_events (injectModifier_eq _ _),
      ← foldl_events (injectChanged_eq _ _ _), ← foldl_events (injectChanged_eq _ _ _)]
    rfl

/-- The same for all that was sent. -/
theorem runAll_kb (s : Drivers) (as : List Sent) :
    (Runs.runAll step s as).kb = Runs.runAll Keyboard.handle s.kb (s.allEvents as) := by
  induction as generalizing s with
  | nil => rfl
  | cons a as ih => rw [Runs.runAll_cons, ih, step_kb, allEvents, Runs.runAll_append]

/-- The keyboard does not look at what is held. -/
theorem runAll_typing (s : Typing) (es : List KeyEvent) :
    (Runs.runAll Typing.step s es).kb = Runs.runAll Keyboard.handle s.kb es := by
  induction es generalizing s with
  | nil => rfl
  | cons e es ih => exact ih (s.step e)

/-- After any interrupts and reports Ctrl and Shift follow what is held, if none of the events lets a key of a
pair go up while another one stays held. -/
theorem sent_follows (as : List Sent)
    (h : Runs.Along Typing.step Typing.Alone .boot (zeroed.allEvents as)) :
    Typing.Follows ⟨(Runs.runAll step zeroed as).kb,
      (Runs.runAll Typing.step .boot (zeroed.allEvents as)).held⟩ := by
  have hlast := ((Runs.always_iff_along (P := Typing.Follows) (fun _ e h => Typing.step_follows_iff h e)
    Typing.follows_boot).mpr h).last
  rw [runAll_kb]
  have hkb := runAll_typing .boot (zeroed.allEvents as)
  rw [show zeroed.kb = Typing.boot.kb from rfl, ← hkb]
  exact hlast

/-- Left Ctrl down, right Ctrl down and up again, byte by byte: Ctrl is up. -/
example : (Runs.runAll step zeroed
    ([0x1D, 0xE0, 0x1D, 0xE0, 0x9D].map (.interrupt 0x01))).kb.isCtrlDown = false := by decide +kernel

end Drivers

end Sandflea
