import Sandflea.Terminal.Scrollback
import Sandflea.Lib.Runs

/-!
# Where a pushed line goes

`screen_push_line` of a process of some session, statement by statement, and `session_switch` in between. The
line goes to the session of the process, and for that time the globals are overwritten: `active_session`, if it
goes to the grid, and the ends of the scrollback, if it goes to the rows or a byte of it scrolls the grid. The
values from before are kept in locals and put back at the end, with interrupts enabled.

A session switch checks for the session that is already active before it disables interrupts, and does the rest
in one go. What the grid and the parser are set to by a byte is seen by no switch, and is set at its end.

`OwnTerminals` is what the sessions are for: a terminal for each, with its own rows, keys and grid. A line that is
pushed without a switch in between, or with switches before and after the time for which the globals are
overwritten, is pushed to the terminal of its process (`push_routed`). A switch in that time is undone (`switch_undone`).
-/

namespace Sandflea

/-! ## The calls -/

/-- The globals that `session_switch` saves and restores, besides the ends of the scrollback -/
structure InputGlobals where
  /-- `screen_text_scroll` -/
  scroll : ℤ
  fgQueue : FgQueue
  foregroundProc : Option ℕ
  typingbuf : List UInt8
  cwd : List UInt8

/-- A call of `screen_push_line` by a process of a session -/
structure PushCall where
  /-- `terminal_session` of the process -/
  session : ℕ
  str : List UInt8
  /-- The output of the process is captured. -/
  captured : Bool
  /-- The session has cells. -/
  hasCells : Bool
deriving DecidableEq, Repr

/-- The next statement, while the ends of the scrollback are those of a session in the place of the globals. The
locals `saved_root` and `saved_tail` are part of it. -/
inductive SwapPoint
  | saveRoot
  | saveTail (root : Option ℕ)
  | setRoot (saved : TextList)
  | setTail (saved : TextList)
  | push (saved : TextList)
  | storeRoot (saved : TextList)
  | storeTail (saved : TextList)
  | restoreRoot (saved : TextList)
  | restoreTail (saved : TextList)
deriving DecidableEq, Repr

/-- The byte that scrolls the grid, with the bytes after it and the local `saved_active` -/
structure ScrollingByte where
  savedActive : ℕ
  ch : UInt8
  bytes : List UInt8
deriving DecidableEq, Repr

/-- The next statement of `screen_push_line`, with its locals -/
inductive PushPoint
  | entry
  | raiseGuard
  | saveActive
  | setActive (savedActive : ℕ)
  | write (savedActive : ℕ) (bytes : List UInt8)
  | swap (stage : SwapPoint) (text : List UInt8) (back : Option ScrollingByte)
  | restoreActive (savedActive : ℕ)
  | clearGuard
  | done
deriving DecidableEq, Repr

/-- The globals and the sessions, a call of `screen_push_line` and calls of `session_switch`. -/
structure PushRouting where
  /-- The rows, and the globals `screen_text_root` and `screen_text_tail` -/
  text : ScreenText
  input : InputGlobals
  /-- `text_root` and `text_tail` of the sessions -/
  savedEnds : ℕ → TextList
  /-- The other saved globals of the sessions -/
  savedInput : ℕ → InputGlobals
  /-- `active_session` -/
  active : ℕ
  /-- The grids of the sessions -/
  grids : ℕ → TermSession
  /-- `ansi_parser` -/
  parser : AnsiParser
  /-- The outcomes of the next calls of `kmalloc` for an alternate screen -/
  memory : List Bool
  /-- `screen_cellbuf_line_active` -/
  cellbufLineActive : Bool
  point : PushPoint
  /-- The calls of `session_switch` that have found another session active and go on to switch -/
  pending : List ℕ
  /-- The session that the last completed call of `session_switch` was for, which no function reads -/
  shown : ℕ

/-- A statement of `screen_push_line`, or a part of a call of `session_switch` -/
inductive RoutingStep
  | advance
  /-- `session_switch` is called, and looks for the session that is active. -/
  | call (id : ℕ)
  /-- `session_switch` switches. -/
  | switch (id : ℕ)
deriving DecidableEq, Repr

namespace PushRouting

/-- Set the ends of the scrollback. -/
def setEnds (l : TextList) (s : PushRouting) : PushRouting := { s with text := { s.text with ends := l } }

/-- Set the saved ends of a session. -/
def storeEnds (i : ℕ) (l : TextList) (s : PushRouting) : PushRouting :=
  { s with savedEnds := Function.update s.savedEnds i l }

/-- Go on to another statement. -/
def goto (p : PushPoint) (s : PushRouting) : PushRouting := { s with point := p }

/-- The console that the bytes of a session work on -/
def console (i : ℕ) (s : PushRouting) : Console where
  session := s.grids i
  parser := s.parser
  cellbufLineActive := s.cellbufLineActive
  captured := false
  memory := s.memory
  accesses := []

/-- The console after a byte -/
def setConsole (i : ℕ) (c : Console) (s : PushRouting) : PushRouting :=
  { s with grids := Function.update s.grids i c.session, parser := c.parser, memory := c.memory }

/-- What a byte does to the grid and the parser. Under the guard, a scroll calls `screen_push_line` for the rows
only. -/
def putByte (i : ℕ) (ch : UInt8) (s : PushRouting) : PushRouting :=
  s.setConsole i (ansiPutc (pushLineAt 2) ch (s.console i))

/-- What comes after the ends of the scrollback are put back: nothing, or the rest of the bytes -/
def resume (i : ℕ) : Option ScrollingByte → PushRouting → PushRouting
  | none, s => s.goto .done
  | some b, s => (s.putByte i b.ch).goto (.write b.savedActive b.bytes)

/-- A statement while the ends of the scrollback are those of a session -/
def advanceSwap (i : ℕ) (text : List UInt8) (back : Option ScrollingByte) (s : PushRouting) :
    SwapPoint → PushRouting
  | .saveRoot => s.goto (.swap (.saveTail s.text.ends.root) text back)
  | .saveTail root => s.goto (.swap (.setRoot ⟨root, s.text.ends.tail⟩) text back)
  | .setRoot saved =>
    (s.setEnds ⟨(s.savedEnds i).root, s.text.ends.tail⟩).goto (.swap (.setTail saved) text back)
  | .setTail saved =>
    (s.setEnds ⟨s.text.ends.root, (s.savedEnds i).tail⟩).goto (.swap (.push saved) text back)
  -- `screen_push_buf` disables interrupts
  | .push saved => { s with text := s.text.pushBuf text, point := .swap (.storeRoot saved) text back }
  | .storeRoot saved =>
    (s.storeEnds i ⟨s.text.ends.root, (s.savedEnds i).tail⟩).goto (.swap (.storeTail saved) text back)
  | .storeTail saved =>
    (s.storeEnds i ⟨(s.savedEnds i).root, s.text.ends.tail⟩).goto (.swap (.restoreRoot saved) text back)
  | .restoreRoot saved =>
    (s.setEnds ⟨saved.root, s.text.ends.tail⟩).goto (.swap (.restoreTail saved) text back)
  | .restoreTail saved => (s.setEnds ⟨s.text.ends.root, saved.tail⟩).resume i back

/-- The start of `screen_push_line`, up to the first statement that overwrites a global -/
def enter (call : PushCall) (s : PushRouting) : PushRouting :=
  if call.captured then s.goto .done
  else if s.cellbufLineActive then { s with text := s.text.pushBuf call.str, point := .done }
  else if call.hasCells ∧ (s.grids call.session).ownsFramebuffer = false then s.goto .raiseGuard
  else s.goto (.swap .saveRoot call.str none)

/-- The next byte of `term_write` -/
def writeByte (i savedActive : ℕ) (ch : UInt8) (bytes : List UInt8) (s : PushRouting) : PushRouting :=
  match scrollAt ch (s.console i) with
  | some c => s.goto (.swap .saveRoot (droppedRow c) (some ⟨savedActive, ch, bytes⟩))
  | none => (s.putByte i ch).goto (.write savedActive bytes)

/-- The next statement of `screen_push_line` -/
def advance (call : PushCall) (s : PushRouting) : PushRouting :=
  match s.point with
  | .entry => s.enter call
  | .raiseGuard => { s with cellbufLineActive := true, point := .saveActive }
  | .saveActive => s.goto (.setActive s.active)
  | .setActive saved => { s with active := call.session, point := .write saved (call.str ++ [10]) }
  | .write saved [] => s.goto (.restoreActive saved)
  | .write saved (ch :: bytes) => s.writeByte call.session saved ch bytes
  | .swap stage text back => s.advanceSwap call.session text back stage
  | .restoreActive saved => { s with active := saved, point := .clearGuard }
  | .clearGuard => { s with cellbufLineActive := false, point := .done }
  | .done => s

/-- The start of `session_switch` -/
def callSwitch (id : ℕ) (s : PushRouting) : PushRouting :=
  if maxSessions ≤ id then s
  else if id = s.active then { s with shown := id }
  else { s with pending := id :: s.pending }

/-- The rest of `session_switch`, with interrupts disabled -/
def switch (id : ℕ) (s : PushRouting) : PushRouting :=
  let savedEnds := Function.update s.savedEnds s.active s.text.ends
  let savedInput := Function.update s.savedInput s.active s.input
  { s with
    savedEnds := savedEnds
    savedInput := savedInput
    active := id
    text := { s.text with ends := savedEnds id }
    input := savedInput id
    pending := s.pending.erase id
    shown := id }

/-- The state after a step. A switch that is not pending is none. -/
def step (call : PushCall) (s : PushRouting) : RoutingStep → PushRouting
  | .advance => s.advance call
  | .call id => s.callSwitch id
  | .switch id => if id ∈ s.pending then s.switch id else s

end PushRouting

/-! ## A terminal for each session -/

/-- The terminal of a session -/
structure OwnTerminal where
  ends : TextList
  input : InputGlobals
  grid : TermSession

/-- The terminals of the sessions, with the rows, the parser and the memory that they share -/
structure OwnTerminals where
  own : ℕ → OwnTerminal
  /-- The rows, of which no list is selected -/
  rows : ScreenText
  parser : AnsiParser
  memory : List Bool

/-- No list of rows -/
def TextList.none : TextList := ⟨.none, .none⟩

namespace OwnTerminals

/-- Set the ends of the rows of a session. -/
def setEnds (i : ℕ) (l : TextList) (t : OwnTerminals) : OwnTerminals :=
  { t with own := Function.update t.own i { t.own i with ends := l } }

/-- Push a text to the rows of a session. -/
def pushRows (i : ℕ) (text : List UInt8) (t : OwnTerminals) : OwnTerminals :=
  let rows := { t.rows with ends := (t.own i).ends }.pushBuf text
  { t.setEnds i rows.ends with rows := { rows with ends := .none } }

/-- The console that the bytes of a line work on -/
def console (i : ℕ) (t : OwnTerminals) : Console where
  session := (t.own i).grid
  parser := t.parser
  cellbufLineActive := true
  captured := false
  memory := t.memory
  accesses := []

/-- What a byte does to the grid and the parser -/
def putByte (i : ℕ) (ch : UInt8) (t : OwnTerminals) : OwnTerminals :=
  let c := ansiPutc (pushLineAt 2) ch (t.console i)
  { t with
    own := Function.update t.own i { t.own i with grid := c.session }
    parser := c.parser
    memory := c.memory }

/-- A byte of a line, with the row that it scrolls off -/
def writeByte (i : ℕ) (t : OwnTerminals) (ch : UInt8) : OwnTerminals :=
  match scrollAt ch (t.console i) with
  | some c => (t.pushRows i (droppedRow c)).putByte i ch
  | none => t.putByte i ch

/-- A line is pushed: it goes to the terminal of its process. -/
def pushLine (call : PushCall) (t : OwnTerminals) : OwnTerminals :=
  if call.captured then t
  else if call.hasCells ∧ (t.own call.session).grid.ownsFramebuffer = false then
    (call.str ++ [10]).foldl (writeByte call.session) t
  else t.pushRows call.session call.str

end OwnTerminals

/-! ## What a line leaves as it is -/

namespace ScreenText

/-- A set of rows that a list does not leave, also if rows are added to it -/
structure Within (own : Set ℕ) (t : ScreenText) : Prop where
  root : ∀ r, t.ends.root = some r → r ∈ own
  tail : ∀ r, t.ends.tail = some r → r ∈ own
  next : ∀ r ∈ own, ∀ r', t.next r = some r' → r' ∈ own
  new : ∀ r, t.nextRow ≤ r → r ∈ own

/-- The rows outside a set are as they were, and none of them is freed. -/
structure SameOutside (own : Set ℕ) (t t' : ScreenText) : Prop where
  rows : ∀ r, r ∉ own → t'.rows r = t.rows r
  freed : ∀ r, r ∉ own → (r ∈ t'.freed ↔ r ∈ t.freed)

section Within

variable {own : Set ℕ} {t t' : ScreenText}

theorem SameOutside.refl (own : Set ℕ) (t : ScreenText) : SameOutside own t t := ⟨fun _ _ => rfl, fun _ _ => .rfl⟩

theorem SameOutside.trans {t'' : ScreenText} (h : SameOutside own t t') (h' : SameOutside own t' t'') :
    SameOutside own t t'' :=
  ⟨fun r hr => (h'.rows r hr).trans (h.rows r hr), fun r hr => (h'.freed r hr).trans (h.freed r hr)⟩

/-- What works on a list stays in its rows. -/
def Stays (own : Set ℕ) (f : ScreenText → ScreenText) : Prop :=
  ∀ t, Within own t → Within own (f t) ∧ SameOutside own t (f t)

theorem stays_pushRow (str : List UInt8) : Stays own fun t => t.pushRow str := by
  intro t h
  have hnew : t.nextRow ∈ own := h.new _ le_rfl
  unfold pushRow
  dsimp only
  cases htail : t.ends.tail with
  | none =>
    have hne : ∀ r, r ∉ own → r ≠ t.nextRow := fun r hr heq => hr (heq ▸ hnew)
    refine ⟨⟨?_, ?_, fun r hr r' hr' => ?_, fun r hr => h.new r (Nat.le_of_succ_le hr)⟩, ?_, fun _ _ => .rfl⟩
    · exact fun r hr => Option.some.inj hr ▸ hnew
    · exact fun r hr => Option.some.inj hr ▸ hnew
    · by_cases hr0 : r = t.nextRow
      · subst hr0
        simp [ScreenText.next] at hr'
      · exact h.next r hr r' (by simpa [ScreenText.next, Function.update_of_ne hr0] using hr')
    · exact fun r hr => Function.update_of_ne (hne r hr) _ _
  | some tail =>
    have hmem : tail ∈ own := h.tail tail htail
    have hne : ∀ r, r ∉ own → r ≠ t.nextRow ∧ r ≠ tail := fun r hr =>
      ⟨fun heq => hr (heq ▸ hnew), fun heq => hr (heq ▸ hmem)⟩
    refine ⟨⟨h.root, ?_, fun r hr r' hr' => ?_, fun r hr => h.new r (Nat.le_of_succ_le hr)⟩, ?_, fun _ _ => .rfl⟩
    · exact fun r hr => Option.some.inj hr ▸ hnew
    · by_cases hrt : r = tail
      · subst hrt
        have hr'' : t.nextRow = r' := by simpa [ScreenText.next] using hr'
        exact hr'' ▸ hnew
      · by_cases hr0 : r = t.nextRow
        · subst hr0
          simp [ScreenText.next, Function.update_of_ne hrt] at hr'
        · refine h.next r hr r' ?_
          simpa [ScreenText.next, Function.update_of_ne hrt, Function.update_of_ne hr0] using hr'
    · intro r hr
      exact (Function.update_of_ne (hne r hr).2 _ _).trans (Function.update_of_ne (hne r hr).1 _ _)

theorem stays_pushRows (strs : List (List UInt8)) : Stays own fun t => strs.foldl pushRow t := by
  induction strs with
  | nil => exact fun t h => ⟨h, .refl own t⟩
  | cons str strs ih =>
    intro t h
    obtain ⟨hpush, hsame⟩ := stays_pushRow str t h
    obtain ⟨hpushes, hsames⟩ := ih _ hpush
    exact ⟨hpushes, hsame.trans hsames⟩

theorem stays_removeRows (n : ℕ) : Stays own (removeRows n) := by
  induction n with
  | zero => exact fun t h => ⟨h, .refl own t⟩
  | succ n ih =>
    intro t h
    unfold removeRows
    cases hroot : t.ends.root with
    | none => exact ⟨h, .refl own t⟩
    | some old =>
      have hold : old ∈ own := h.root old hroot
      have hremove : Within own { t with freed := old :: t.freed, ends := ⟨t.next old, t.ends.tail⟩ } :=
        ⟨fun r hr => h.next old hold r hr, h.tail, h.next, h.new⟩
      have hsame : SameOutside own t { t with freed := old :: t.freed, ends := ⟨t.next old, t.ends.tail⟩ } := by
        refine ⟨fun _ _ => rfl, fun r hr => ?_⟩
        have hne : r ≠ old := fun heq => hr (heq ▸ hold)
        simp [hne]
      obtain ⟨hrest, hsames⟩ := ih _ hremove
      exact ⟨hrest, hsame.trans hsames⟩

theorem stays_prune : Stays own prune := by
  intro t h
  unfold prune
  dsimp only
  split
  · obtain ⟨hremove, hsame⟩ := stays_removeRows (t.getLineCount - terminalMaxRows) t h
    generalize removeRows (t.getLineCount - terminalMaxRows) t = t' at hremove hsame ⊢
    split
    · exact ⟨⟨nofun, nofun, hremove.next, hremove.new⟩, hsame.rows, hsame.freed⟩
    · exact ⟨hremove, hsame⟩
  · exact ⟨h, .refl own t⟩

/-- `screen_push_buf` changes and frees rows of the list in the globals only. -/
theorem stays_pushBuf (buf : List UInt8) : Stays own (pushBuf buf) := by
  intro t h
  unfold pushBuf
  split
  · exact ⟨h, .refl own t⟩
  · obtain ⟨hpush, hsame⟩ := stays_pushRows (rowsOf t.rowLen buf) t h
    obtain ⟨hprune, hsames⟩ := stays_prune _ hpush
    exact ⟨hprune, hsame.trans hsames⟩

end Within

end ScreenText

namespace OwnTerminals

/-- A step on the terminal of a session: the others keep theirs, and only rows of its list change. -/
structure Local (i : ℕ) (t t' : OwnTerminals) : Prop where
  others : ∀ j, j ≠ i → t'.own j = t.own j
  input : (t'.own i).input = (t.own i).input
  rows : ∀ own : Set ℕ, { t.rows with ends := (t.own i).ends }.Within own →
    { t'.rows with ends := (t'.own i).ends }.Within own ∧ ScreenText.SameOutside own t.rows t'.rows

variable {i : ℕ} {t t' t'' : OwnTerminals}

theorem Local.refl (i : ℕ) (t : OwnTerminals) : Local i t t := ⟨fun _ _ => rfl, rfl, fun own h => ⟨h, .refl own _⟩⟩

theorem Local.trans (h : Local i t t') (h' : Local i t' t'') : Local i t t'' where
  others j hj := (h'.others j hj).trans (h.others j hj)
  input := h'.input.trans h.input
  rows own hown := by
    obtain ⟨hwithin, hsame⟩ := h.rows own hown
    obtain ⟨hwithin', hsame'⟩ := h'.rows own hwithin
    exact ⟨hwithin', hsame.trans hsame'⟩

theorem local_pushRows (i : ℕ) (text : List UInt8) (t : OwnTerminals) : Local i t (t.pushRows i text) where
  others j hj := Function.update_of_ne hj _ _
  input := by simp [pushRows, setEnds]
  rows own h := by
    obtain ⟨hwithin, hsame⟩ := ScreenText.stays_pushBuf text _ h
    have hends : ((t.pushRows i text).own i).ends =
        ({ t.rows with ends := (t.own i).ends }.pushBuf text).ends := by simp [pushRows, setEnds]
    rw [hends]
    exact ⟨hwithin, hsame.rows, hsame.freed⟩

theorem local_putByte (i : ℕ) (ch : UInt8) (t : OwnTerminals) : Local i t (t.putByte i ch) where
  others j hj := Function.update_of_ne hj _ _
  input := by simp [putByte]
  rows own h := by
    have hends : ((t.putByte i ch).own i).ends = (t.own i).ends := by simp [putByte]
    rw [hends]
    exact ⟨h, .refl own _⟩

theorem local_writeByte (i : ℕ) (t : OwnTerminals) (ch : UInt8) : Local i t (t.writeByte i ch) := by
  unfold writeByte
  split
  · exact (local_pushRows i _ t).trans (local_putByte i ch _)
  · exact local_putByte i ch t

theorem local_writeBytes (i : ℕ) (bytes : List UInt8) (t : OwnTerminals) :
    Local i t (bytes.foldl (writeByte i) t) := by
  induction bytes generalizing t with
  | nil => exact .refl i t
  | cons ch bytes ih => exact (local_writeByte i t ch).trans (ih _)

/-- A line that is pushed changes the terminal of its process only. -/
theorem local_pushLine (call : PushCall) (t : OwnTerminals) : Local call.session t (t.pushLine call) := by
  unfold pushLine
  split
  · exact .refl _ t
  · split
    · exact local_writeBytes call.session _ t
    · exact local_pushRows call.session call.str t

end OwnTerminals

/-! ## The terminals at a point of the call -/

namespace PushRouting

/-- The terminals, when the globals are those of a session, with the ends of its rows as given -/
def view (shown : ℕ) (ends : TextList) (s : PushRouting) : OwnTerminals where
  own i :=
    { ends := if i = shown then ends else s.savedEnds i
      input := if i = shown then s.input else s.savedInput i
      grid := s.grids i }
  rows := { s.text with ends := .none }
  parser := s.parser
  memory := s.memory

/-- The terminals, when the globals are those of the active session -/
def terminals (s : PushRouting) : OwnTerminals := s.view s.active s.text.ends

/-- The session that the globals are of: the local `saved_active`, while there is one. -/
def holder (s : PushRouting) : ℕ :=
  match s.point with
  | .setActive saved | .write saved _ | .swap _ _ (some ⟨saved, _, _⟩) | .restoreActive saved => saved
  | _ => s.active

/-- The terminals after the rows of session `i` are pushed and the globals are put back, which are those of session
`h` -/
def swapOutcome (h i : ℕ) (text : List UInt8) (s : PushRouting) : SwapPoint → OwnTerminals
  | .saveRoot => (s.view h s.text.ends).pushRows i text
  | .saveTail root => (s.view h ⟨root, s.text.ends.tail⟩).pushRows i text
  | .setRoot saved => (s.view h saved).pushRows i text
  | .setTail saved => ((s.view h saved).setEnds i ⟨s.text.ends.root, (s.savedEnds i).tail⟩).pushRows i text
  | .push saved => ((s.view h saved).setEnds i s.text.ends).pushRows i text
  | .storeRoot saved => (s.view h saved).setEnds i s.text.ends
  | .storeTail saved => (s.view h saved).setEnds i ⟨(s.savedEnds i).root, s.text.ends.tail⟩
  | .restoreRoot saved => s.view h saved
  | .restoreTail saved => s.view h ⟨s.text.ends.root, saved.tail⟩

/-- The terminals after a scroll and the bytes that come after it -/
def resumeOutcome (i : ℕ) : Option ScrollingByte → OwnTerminals → OwnTerminals
  | none, t => t
  | some b, t => b.bytes.foldl (OwnTerminals.writeByte i) (t.putByte i b.ch)

/-- The terminals after the call, if no switch comes -/
def outcome (call : PushCall) (s : PushRouting) : OwnTerminals :=
  match s.point with
  | .entry => s.terminals.pushLine call
  | .raiseGuard | .saveActive => (call.str ++ [10]).foldl (OwnTerminals.writeByte call.session) s.terminals
  | .setActive saved =>
    (call.str ++ [10]).foldl (OwnTerminals.writeByte call.session) (s.view saved s.text.ends)
  | .write saved bytes => bytes.foldl (OwnTerminals.writeByte call.session) (s.view saved s.text.ends)
  | .swap stage text back => resumeOutcome call.session back (s.swapOutcome s.holder call.session text stage)
  | .restoreActive saved => s.view saved s.text.ends
  | .clearGuard | .done => s.terminals

/-- The points at which a global is overwritten, or is saved in order to be -/
def Overwriting : PushPoint → Prop
  | .setActive _ | .write _ _ | .restoreActive _ => True
  | .swap .saveRoot _ none => False
  | .swap _ _ _ => True
  | _ => False

instance : ∀ p, Decidable (Overwriting p)
  | .setActive _ | .write _ _ | .restoreActive _ => .isTrue trivial
  | .swap .saveRoot _ none | .entry | .raiseGuard | .saveActive | .clearGuard | .done => .isFalse id
  | .swap .saveRoot _ (some _) | .swap (.saveTail _) _ _ | .swap (.setRoot _) _ _ | .swap (.setTail _) _ _
  | .swap (.push _) _ _ | .swap (.storeRoot _) _ _ | .swap (.storeTail _) _ _ | .swap (.restoreRoot _) _ _
  | .swap (.restoreTail _) _ _ => .isTrue trivial

/-- The point at which the ends of the scrollback are about to be saved -/
def SavesEnds : PushPoint → Prop
  | .swap .saveRoot _ _ => True
  | _ => False

instance : ∀ p, Decidable (SavesEnds p)
  | .swap .saveRoot _ _ => .isTrue trivial
  | .swap (.saveTail _) _ _ | .swap (.setRoot _) _ _ | .swap (.setTail _) _ _ | .swap (.push _) _ _
  | .swap (.storeRoot _) _ _ | .swap (.storeTail _) _ _ | .swap (.restoreRoot _) _ _
  | .swap (.restoreTail _) _ _ | .entry | .raiseGuard | .saveActive | .setActive _ | .write _ _
  | .restoreActive _ | .clearGuard | .done => .isFalse id

/-- The steps that do not disturb a call: the ends of the scrollback are replaced when they are those of another
session, no switch happens while a global is overwritten, and a call of `session_switch` that finds its session
active is one for the session that the globals are of. -/
def Undisturbed (call : PushCall) (s : PushRouting) : RoutingStep → Prop
  | .advance => SavesEnds s.point → s.holder ≠ call.session
  | .call id => id = s.active → s.holder = id
  | .switch _ => ¬ Overwriting s.point

instance (call : PushCall) (s : PushRouting) : ∀ e, Decidable (s.Undisturbed call e)
  | .advance => inferInstanceAs (Decidable (_ → _ ≠ _))
  | .call _ => inferInstanceAs (Decidable (_ = _ → _ = _))
  | .switch _ => inferInstanceAs (Decidable (¬ _))

/-! ### The steps and the view -/

section View

variable (s : PushRouting) (h i : ℕ) (l l' : TextList)

@[simp] theorem view_goto (p : PushPoint) : (s.goto p).view h l = s.view h l := rfl

@[simp] theorem view_setEnds : (s.setEnds l').view h l = s.view h l := rfl

/-- The ends that a session has saved are its own, unless the globals are. -/
theorem setEnds_view {h i : ℕ} (hi : i ≠ h) : (s.view h l).setEnds i (s.savedEnds i) = s.view h l := by
  have hown : ((s.view h l).own i).ends = s.savedEnds i := if_neg hi
  unfold OwnTerminals.setEnds
  rw [← hown, Function.update_eq_self]

/-- The ends of a session are stored. -/
theorem view_storeEnds {h i : ℕ} (hi : i ≠ h) :
    (s.storeEnds i l').view h l = (s.view h l).setEnds i l' := by
  have hown : ((s.storeEnds i l').view h l).own = ((s.view h l).setEnds i l').own := by
    funext j
    by_cases hj : j = i
    · subst hj
      simp [view, storeEnds, OwnTerminals.setEnds, hi]
    · simp [view, storeEnds, OwnTerminals.setEnds, hj]
  calc (s.storeEnds i l').view h l = { (s.view h l) with own := ((s.storeEnds i l').view h l).own } := rfl
    _ = { (s.view h l) with own := ((s.view h l).setEnds i l').own } := by rw [hown]
    _ = (s.view h l).setEnds i l' := rfl

/-- The last ends that are set count. -/
theorem OwnTerminals.setEnds_setEnds (t : OwnTerminals) : (t.setEnds i l).setEnds i l' = t.setEnds i l' := by
  unfold OwnTerminals.setEnds
  dsimp only
  rw [Function.update_self, Function.update_idem]

/-- Rows are pushed at given ends. -/
theorem pushRows_setEnds (text : List UInt8) (t : OwnTerminals) :
    (t.setEnds i l).pushRows i text =
      { t.setEnds i ({ t.rows with ends := l }.pushBuf text).ends with
        rows := { { t.rows with ends := l }.pushBuf text with ends := .none } } := by
  have hends : ((t.setEnds i l).own i).ends = l := by
    unfold OwnTerminals.setEnds
    dsimp only
    rw [Function.update_self]
  rw [OwnTerminals.pushRows, hends, OwnTerminals.setEnds_setEnds]
  rfl

/-- Under the guard, the bytes work on the console of the terminal. -/
theorem console_view {s : PushRouting} (hguard : s.cellbufLineActive = true) :
    (s.view h l).console i = s.console i := by
  unfold OwnTerminals.console console
  rw [hguard]
  rfl

theorem view_putByte {s : PushRouting} (hguard : s.cellbufLineActive = true) (ch : UInt8) :
    (s.putByte i ch).view h l = (s.view h l).putByte i ch := by
  have hown : ((s.putByte i ch).view h l).own = ((s.view h l).putByte i ch).own := by
    funext j
    unfold OwnTerminals.putByte
    rw [console_view h i l hguard]
    by_cases hj : j = i
    · subst hj
      simp [view, putByte, setConsole]
    · simp [view, putByte, setConsole, hj]
  have hparser : ((s.view h l).putByte i ch).parser = (s.putByte i ch).parser := by
    unfold OwnTerminals.putByte
    rw [console_view h i l hguard]
    rfl
  have hmemory : ((s.view h l).putByte i ch).memory = (s.putByte i ch).memory := by
    unfold OwnTerminals.putByte
    rw [console_view h i l hguard]
    rfl
  calc (s.putByte i ch).view h l =
        ⟨((s.putByte i ch).view h l).own, (s.view h l).rows, (s.putByte i ch).parser, (s.putByte i ch).memory⟩ :=
      rfl
    _ = (s.view h l).putByte i ch := by
      rw [hown, ← hparser, ← hmemory]
      rfl

end View

/-! ### What a step keeps -/

/-- The points at which the guard is set -/
def Guarded : PushPoint → Prop
  | .saveActive | .setActive _ | .write _ _ | .swap _ _ (some _) => True
  | _ => False

/-- The points after the ends of the scrollback are saved, and before they are put back -/
def Swapped : PushPoint → Prop
  | .swap .saveRoot _ _ => False
  | .swap _ _ _ => True
  | _ => False

/-- The globals are those of the session that was switched to, and the rows of another session are pushed. -/
structure Inv (call : PushCall) (s : PushRouting) : Prop where
  held : s.holder = s.shown
  unguarded : s.point = .entry → s.cellbufLineActive = false
  guarded : Guarded s.point → s.cellbufLineActive = true
  away : Swapped s.point → s.holder ≠ call.session

/-- A step keeps the invariant and what the call comes to. -/
def Keeps (call : PushCall) (s s' : PushRouting) : Prop := Inv call s' ∧ s'.outcome call = s.outcome call

section Steps

variable {call : PushCall} {s : PushRouting}

theorem holder_swap {stage : SwapPoint} {text : List UInt8} {back : Option ScrollingByte}
    (hs : s.point = .swap stage text back) : s.holder = (back.map (·.savedActive)).getD s.active := by
  unfold holder
  rw [hs]
  cases back <;> rfl

theorem outcome_swap {stage : SwapPoint} {text : List UInt8} {back : Option ScrollingByte}
    (hs : s.point = .swap stage text back) :
    s.outcome call = resumeOutcome call.session back (s.swapOutcome s.holder call.session text stage) := by
  unfold outcome
  rw [hs]

/-- A statement that goes on to another stage of the swap -/
theorem Inv.keeps_swap (h : Inv call s) {stage stage' : SwapPoint} {text : List UInt8}
    {back : Option ScrollingByte} (hs : s.point = .swap stage text back) {s' : PushRouting}
    (hs' : s'.point = .swap stage' text back) (hactive : s'.active = s.active) (hshown : s'.shown = s.shown)
    (hguard : s'.cellbufLineActive = s.cellbufLineActive) (haway : s.holder ≠ call.session)
    (houtcome : s'.swapOutcome s.holder call.session text stage' =
      s.swapOutcome s.holder call.session text stage) : Keeps call s s' := by
  have hholder : s'.holder = s.holder := by rw [holder_swap hs, holder_swap hs', hactive]
  refine ⟨⟨?_, ?_, fun hg => ?_, fun _ => ?_⟩, ?_⟩
  · rw [hholder, hshown, h.held]
  · rw [hs']
    exact nofun
  · rw [hguard]
    refine h.guarded ?_
    rw [hs'] at hg
    rw [hs]
    cases back with
    | none => exact hg.elim
    | some b => trivial
  · rw [hholder]
    exact haway
  · rw [outcome_swap hs, outcome_swap hs', hholder, houtcome]

/-- The ends of the scrollback are put back. -/
theorem Inv.resume (h : Inv call s) {saved : TextList} {text : List UInt8} {back : Option ScrollingByte}
    (hs : s.point = .swap (.restoreTail saved) text back) :
    Keeps call s ((s.setEnds ⟨s.text.ends.root, saved.tail⟩).resume call.session back) := by
  have hheld := h.held
  rw [holder_swap hs] at hheld
  cases back with
  | none =>
    refine ⟨⟨hheld, nofun, False.elim, False.elim⟩, ?_⟩
    rw [outcome_swap hs, holder_swap hs]
    rfl
  | some b =>
    have hguard : s.cellbufLineActive = true := h.guarded (by rw [hs]; trivial)
    refine ⟨⟨hheld, nofun, fun _ => hguard, False.elim⟩, ?_⟩
    rw [outcome_swap hs, holder_swap hs]
    refine congrArg (fun t => b.bytes.foldl (OwnTerminals.writeByte call.session) t) ?_
    exact view_putByte b.savedActive call.session _
      (s := s.setEnds ⟨s.text.ends.root, saved.tail⟩) hguard b.ch

/-- A statement while the ends of the scrollback are those of another session -/
theorem Inv.advanceSwap (h : Inv call s) {stage : SwapPoint} {text : List UInt8} {back : Option ScrollingByte}
    (hs : s.point = .swap stage text back) (haway : s.holder ≠ call.session) :
    Keeps call s (s.advanceSwap call.session text back stage) := by
  have hne : call.session ≠ s.holder := haway.symm
  cases stage with
  | saveRoot => exact h.keeps_swap hs rfl rfl rfl rfl haway rfl
  | saveTail root => exact h.keeps_swap hs rfl rfl rfl rfl haway rfl
  | setRoot saved =>
    refine h.keeps_swap hs rfl rfl rfl rfl haway ?_
    exact congrArg (OwnTerminals.pushRows call.session text) (setEnds_view s saved hne)
  | setTail saved => exact h.keeps_swap hs rfl rfl rfl rfl haway rfl
  | push saved =>
    refine h.keeps_swap hs rfl rfl rfl rfl haway ?_
    exact (pushRows_setEnds call.session s.text.ends text (s.view s.holder saved)).symm
  | storeRoot saved =>
    refine h.keeps_swap hs rfl rfl rfl rfl haway ?_
    let stored : TextList := ⟨s.text.ends.root, (s.savedEnds call.session).tail⟩
    have hstored : (s.storeEnds call.session stored).savedEnds call.session = stored := Function.update_self _ _ _
    calc ((s.storeEnds call.session stored).view s.holder saved).setEnds call.session
          ⟨((s.storeEnds call.session stored).savedEnds call.session).root, s.text.ends.tail⟩
        = ((s.view s.holder saved).setEnds call.session stored).setEnds call.session s.text.ends := by
          rw [view_storeEnds s saved _ hne, hstored]
      _ = (s.view s.holder saved).setEnds call.session s.text.ends := OwnTerminals.setEnds_setEnds _ _ _ _
  | storeTail saved =>
    refine h.keeps_swap hs rfl rfl rfl rfl haway ?_
    exact view_storeEnds s saved _ hne
  | restoreRoot saved => exact h.keeps_swap hs rfl rfl rfl rfl haway rfl
  | restoreTail saved => exact h.resume hs

/-- The start of `screen_push_line` -/
theorem Inv.enter (h : Inv call s) (hs : s.point = .entry) : Keeps call s (s.enter call) := by
  have hheld : s.active = s.shown := by
    have hheld := h.held
    unfold holder at hheld
    rwa [hs] at hheld
  have hguard : s.cellbufLineActive = false := h.unguarded hs
  have houtcome : s.outcome call = s.terminals.pushLine call := by
    unfold outcome
    rw [hs]
  unfold PushRouting.enter
  rw [Keeps, houtcome, OwnTerminals.pushLine, hguard]
  by_cases hcaptured : call.captured = true
  · rw [if_pos hcaptured, if_pos hcaptured]
    exact ⟨⟨hheld, nofun, False.elim, False.elim⟩, rfl⟩
  rw [if_neg hcaptured, if_neg hcaptured, if_neg Bool.false_ne_true]
  by_cases hcells : call.hasCells ∧ (s.grids call.session).ownsFramebuffer = false
  · have hcells' : call.hasCells ∧ (s.terminals.own call.session).grid.ownsFramebuffer = false := hcells
    rw [if_pos hcells, if_pos hcells']
    exact ⟨⟨hheld, nofun, False.elim, False.elim⟩, rfl⟩
  · have hcells' : ¬ (call.hasCells ∧ (s.terminals.own call.session).grid.ownsFramebuffer = false) := hcells
    rw [if_neg hcells, if_neg hcells']
    exact ⟨⟨hheld, nofun, False.elim, False.elim⟩, rfl⟩

/-- The next byte of `term_write` -/
theorem Inv.writeByte (h : Inv call s) {saved : ℕ} {ch : UInt8} {bytes : List UInt8}
    (hs : s.point = .write saved (ch :: bytes)) :
    Keeps call s (s.writeByte call.session saved ch bytes) := by
  have hheld : saved = s.shown := by
    have hheld := h.held
    unfold holder at hheld
    rwa [hs] at hheld
  have hguard : s.cellbufLineActive = true := h.guarded (by rw [hs]; trivial)
  have houtcome : s.outcome call =
      bytes.foldl (OwnTerminals.writeByte call.session)
        ((s.view saved s.text.ends).writeByte call.session ch) := by
    unfold outcome
    rw [hs]
    rfl
  rw [Keeps, houtcome, OwnTerminals.writeByte, console_view _ _ _ hguard]
  unfold PushRouting.writeByte
  cases hscroll : scrollAt ch (s.console call.session) with
  | none =>
    refine ⟨⟨hheld, nofun, fun _ => hguard, False.elim⟩, ?_⟩
    refine congrArg (fun t => bytes.foldl (OwnTerminals.writeByte call.session) t) ?_
    exact view_putByte saved call.session s.text.ends hguard ch
  | some c => exact ⟨⟨hheld, nofun, fun _ => hguard, False.elim⟩, rfl⟩

/-- A statement of `screen_push_line` -/
theorem Inv.advance (h : Inv call s) (hstep : s.Undisturbed call .advance) :
    Keeps call s (s.advance call) := by
  have hheld := h.held
  unfold PushRouting.advance
  split <;> rename_i hs <;> simp only [holder, hs] at hheld
  case h_1 => exact h.enter hs
  case h_2 => exact ⟨⟨hheld, nofun, fun _ => rfl, False.elim⟩, by simp only [outcome, hs]; rfl⟩
  case h_3 =>
    have hguard : s.cellbufLineActive = true := h.guarded (by rw [hs]; trivial)
    exact ⟨⟨hheld, nofun, fun _ => hguard, False.elim⟩, by simp only [outcome, hs]; rfl⟩
  case h_4 =>
    have hguard : s.cellbufLineActive = true := h.guarded (by rw [hs]; trivial)
    exact ⟨⟨hheld, nofun, fun _ => hguard, False.elim⟩, by simp only [outcome, hs]; rfl⟩
  case h_5 => exact ⟨⟨hheld, nofun, False.elim, False.elim⟩, by simp only [outcome, hs]; rfl⟩
  case h_6 => exact h.writeByte hs
  case h_7 stage text back =>
    refine h.advanceSwap hs ?_
    cases stage with
    | saveRoot => exact hstep (by rw [hs]; trivial)
    | _ => exact h.away (by rw [hs]; trivial)
  case h_8 => exact ⟨⟨hheld, nofun, False.elim, False.elim⟩, by simp only [outcome, hs]; rfl⟩
  case h_9 => exact ⟨⟨hheld, nofun, False.elim, False.elim⟩, by simp only [outcome, hs]; rfl⟩
  case h_10 => exact ⟨h, rfl⟩

/-- A switch moves the values of the globals and leaves each session with its own. -/
theorem terminals_switch (id : ℕ) : (s.switch id).terminals = s.terminals := by
  have hown : (s.switch id).terminals.own = s.terminals.own := by
    funext i
    have hends : (if i = id then (s.switch id).text.ends else (s.switch id).savedEnds i) =
        if i = s.active then s.text.ends else s.savedEnds i := by
      unfold switch
      by_cases hid : i = id
      · rw [if_pos hid, hid]
        exact Function.update_apply _ _ _ _
      · rw [if_neg hid]
        exact Function.update_apply _ _ _ _
    have hinput : (if i = id then (s.switch id).input else (s.switch id).savedInput i) =
        if i = s.active then s.input else s.savedInput i := by
      unfold switch
      by_cases hid : i = id
      · rw [if_pos hid, hid]
        exact Function.update_apply _ _ _ _
      · rw [if_neg hid]
        exact Function.update_apply _ _ _ _
    calc (s.switch id).terminals.own i =
          ⟨if i = id then (s.switch id).text.ends else (s.switch id).savedEnds i,
            if i = id then (s.switch id).input else (s.switch id).savedInput i, s.grids i⟩ := rfl
      _ = s.terminals.own i := by
        rw [hends, hinput]
        rfl
  calc (s.switch id).terminals = { s.terminals with own := (s.switch id).terminals.own } := rfl
    _ = s.terminals := by rw [hown]

/-- While no global is overwritten, the globals are those of the active session. -/
theorem holder_of_not_overwriting (hs : ¬ Overwriting s.point) : s.holder = s.active := by
  unfold holder
  cases hpoint : s.point with
  | setActive saved => exact absurd (by rw [hpoint]; trivial) hs
  | write saved bytes => exact absurd (by rw [hpoint]; trivial) hs
  | restoreActive saved => exact absurd (by rw [hpoint]; trivial) hs
  | swap stage text back =>
    cases back with
    | none => rfl
    | some b => exact absurd (by rw [hpoint]; cases stage <;> trivial) hs
  | _ => rfl

/-- While no global is overwritten, what the call comes to is known from the terminals. -/
theorem outcome_eq_of_terminals {s' : PushRouting} (hs : ¬ Overwriting s.point) (hpoint : s'.point = s.point)
    (hterminals : s'.terminals = s.terminals) : s'.outcome call = s.outcome call := by
  have hholder := holder_of_not_overwriting hs
  have hholder' : s'.holder = s'.active := holder_of_not_overwriting (by rwa [hpoint])
  unfold outcome
  rw [hpoint]
  split <;> rename_i hp <;> rw [hp] at hs
  · rw [hterminals]
  · rw [hterminals]
  · rw [hterminals]
  · exact absurd trivial hs
  · exact absurd trivial hs
  · rename_i stage text back
    have hroot : stage = .saveRoot ∧ back = none := by
      cases stage <;> cases back <;> first | exact ⟨rfl, rfl⟩ | exact absurd trivial hs
    obtain ⟨rfl, rfl⟩ := hroot
    rw [hholder, hholder']
    exact congrArg (OwnTerminals.pushRows call.session text) hterminals
  · exact absurd trivial hs
  · rw [hterminals]
  · rw [hterminals]

/-- `session_switch` switches while no global is overwritten. -/
theorem Inv.switch (h : Inv call s) (id : ℕ) (hstep : ¬ Overwriting s.point) : Keeps call s (s.switch id) := by
  have hholder : (s.switch id).holder = id := holder_of_not_overwriting (s := s.switch id) hstep
  refine ⟨⟨hholder, h.unguarded, h.guarded, fun hswapped => ?_⟩, ?_⟩
  · have hover : Overwriting s.point := by
      have hswapped : Swapped s.point := hswapped
      unfold Swapped at hswapped
      split at hswapped
      · exact hswapped.elim
      · rename_i stage text back hnot hpoint
        rw [hpoint]
        cases stage with
        | saveRoot => exact (hnot rfl).elim
        | _ => trivial
      · exact hswapped.elim
    exact absurd hover hstep
  · exact outcome_eq_of_terminals hstep rfl (s.terminals_switch id)

/-- `session_switch` looks for the active session. -/
theorem Inv.callSwitch (h : Inv call s) {id : ℕ} (hstep : id = s.active → s.holder = id) :
    Keeps call s (s.callSwitch id) := by
  unfold PushRouting.callSwitch
  split
  · exact ⟨h, rfl⟩
  · split
    · rename_i hid
      exact ⟨⟨hstep hid, h.unguarded, h.guarded, h.away⟩, rfl⟩
    · exact ⟨⟨h.held, h.unguarded, h.guarded, h.away⟩, rfl⟩

/-- A step that does not disturb the call -/
theorem Inv.step (h : Inv call s) {e : RoutingStep} (hstep : s.Undisturbed call e) :
    Keeps call s (s.step call e) := by
  cases e with
  | advance => exact h.advance hstep
  | call id => exact h.callSwitch hstep
  | switch id =>
    unfold PushRouting.step
    dsimp only
    split
    · exact h.switch id hstep
    · exact ⟨h, rfl⟩

/-- In a run that does not disturb a call, the call comes to the same at all times. -/
theorem Inv.run (h : Inv call s) {es : List RoutingStep}
    (hes : Runs.Along (PushRouting.step call) (Undisturbed call) s es) :
    Keeps call s (Runs.runAll (PushRouting.step call) s es) :=
  (Runs.always_of_along (P := Keeps call s)
    (fun _ _ ⟨hinv, houtcome⟩ hstep =>
      ⟨(hinv.step hstep).1, (hinv.step hstep).2.trans houtcome⟩)
    ⟨h, rfl⟩ hes).last

end Steps

/-! ## Calls that are not disturbed -/

/-- A call of `screen_push_line` starts. -/
structure Starts (s : PushRouting) : Prop where
  entry : s.point = .entry
  /-- No other call is writing to a grid. -/
  unguarded : s.cellbufLineActive = false
  shown : s.shown = s.active

/-- The line went to the terminal of its process, and the session that was switched to is active. -/
structure Routed (call : PushCall) (s s' : PushRouting) : Prop where
  /-- The active session is the one that was switched to last. -/
  active : s'.active = s'.shown
  /-- The globals are those of this session. -/
  input : s'.input = (s.terminals.own s'.shown).input
  ends : s'.text.ends = ((s.terminals.pushLine call).own s'.shown).ends
  /-- The line is pushed. -/
  line : s'.terminals = s.terminals.pushLine call
  /-- The terminals of the other sessions are as they were. -/
  others : ∀ i, i ≠ call.session → s'.terminals.own i = s.terminals.own i
  /-- No row changes or is freed that is not in the list of the session. -/
  rows : ∀ own : Set ℕ, { s.text with ends := (s.terminals.own call.session).ends }.Within own →
    ScreenText.SameOutside own s.text s'.text

theorem Starts.inv {s : PushRouting} (h : s.Starts) (call : PushCall) : Inv call s := by
  have hpoint := h.entry
  refine ⟨?_, fun _ => h.unguarded, fun hg => ?_, fun hg => ?_⟩
  · unfold holder
    rw [hpoint, h.shown]
  · rw [hpoint] at hg
    exact hg.elim
  · rw [hpoint] at hg
    exact hg.elim

/-- In every run of a call of `screen_push_line` with switches at any points that do not disturb it, the session
that was switched to is active in the end, the globals are its own, and the line went to the session of the
process and nowhere else. -/
theorem push_routed {call : PushCall} {s : PushRouting} {es : List RoutingStep} (hstart : s.Starts)
    (hes : Runs.Along (step call) (Undisturbed call) s es)
    (hdone : (Runs.runAll (step call) s es).point = .done) :
    Routed call s (Runs.runAll (step call) s es) := by
  obtain ⟨hinv, houtcome⟩ := (hstart.inv call).run hes
  generalize Runs.runAll (step call) s es = s' at hdone hinv houtcome ⊢
  have hactive : s'.active = s'.shown := by
    have hheld := hinv.held
    unfold holder at hheld
    rwa [hdone] at hheld
  have hline : s'.terminals = s.terminals.pushLine call := by
    simp only [outcome, hdone, hstart.entry] at houtcome
    exact houtcome
  have hlocal := OwnTerminals.local_pushLine call s.terminals
  rw [← hline] at hlocal
  have hown : (s'.terminals.own s'.active).input = s'.input ∧ (s'.terminals.own s'.active).ends = s'.text.ends :=
    ⟨if_pos rfl, if_pos rfl⟩
  refine ⟨hactive, ?_, ?_, hline, hlocal.others, fun own hown => ?_⟩
  · rw [← hown.1, hactive]
    by_cases hi : s'.shown = call.session
    · rw [hi, hlocal.input]
    · rw [hlocal.others s'.shown hi]
  · rw [← hown.2, hline, hactive]
  · obtain ⟨-, hsame⟩ := hlocal.rows own hown
    exact ⟨hsame.rows, hsame.freed⟩

/-- No keys and no process -/
def noInput : InputGlobals := ⟨0, .zeroed, none, [], []⟩

/-- Session 1 is active. A process of session 0 is about to push a line, on a grid of two rows of four cells. -/
def aboutToPush : PushRouting where
  text :=
    { rows := fun _ => ⟨[115], none⟩
      nextRow := 1
      freed := []
      ends := .none
      rowLen := 16 }
  input := noInput
  savedEnds i := if i = 0 then ⟨some 0, some 0⟩ else .none
  savedInput _ := noInput
  active := 1
  grids _ := sessionInit TextSessions.smallGrid
  parser := .zeroed
  memory := []
  cellbufLineActive := false
  point := .entry
  pending := []
  shown := 1

/-- The process pushes `a` and `b`, with a line feed between them. -/
def pushTwoRows : PushCall := ⟨0, [97, 10, 98], false, true⟩

/-- There are switches before and after the line is written, the second row of which scrolls the first one off. -/
theorem push_routed_twoRows :
    Routed pushTwoRows aboutToPush
      (Runs.runAll (step pushTwoRows) aboutToPush
        ([.call 2, .advance, .advance, .switch 2] ++ List.replicate 19 .advance ++ [.call 3, .switch 3])) :=
  push_routed ⟨rfl, rfl, rfl⟩ (by decide +kernel) (by decide +kernel)

/-- A switch while the line is written is undone: the session from before is made active again. -/
theorem switch_undone :
    ¬ ∀ (call : PushCall) (s : PushRouting) (es : List RoutingStep), s.Starts → call.session ≠ s.active →
      (Runs.runAll (step call) s es).point = .done → (Runs.runAll (step call) s es).pending = [] →
        Routed call s (Runs.runAll (step call) s es) := by
  intro h
  have hrouted := h pushTwoRows aboutToPush
    (List.replicate 5 .advance ++ [.call 2, .switch 2] ++ List.replicate 16 .advance)
    ⟨rfl, rfl, rfl⟩ (by decide) (by decide +kernel) (by decide +kernel)
  exact absurd hrouted.active (by decide +kernel)

end PushRouting

end Sandflea
