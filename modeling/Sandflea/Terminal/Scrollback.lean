import Sandflea.Terminal.Ansi
import Sandflea.Terminal.StdinKeys
import Sandflea.Lib.LinkedList

/-!
# Scrollback

The rows that a session keeps of its output are a linked list. Its ends are in the globals `screen_text_root`
and `screen_text_tail` while the session is active, and `session_switch` saves them to the session. A scroll
of a grid, and a line for a session with an application on the framebuffer, work on the saved ends instead.

Rows are allocated without failure and are numbered in the order in which they are allocated. Freed rows are
recorded, and a row that is read after that is read as it was. What was pushed to a session or scrolled off its
grid is recorded in `expected`, which no function reads.
-/

namespace Sandflea

/-- `TERMINAL_MAX_ROWS` -/
def terminalMaxRows : ℕ := 1000

/-- `screen_text_row_t` -/
structure TextRow where
  str : List UInt8
  next : Option ℕ
deriving DecidableEq, Repr

/-- The ends of a list of rows: `screen_text_root` and `screen_text_tail` -/
structure TextList where
  root : Option ℕ
  tail : Option ℕ
deriving DecidableEq, Repr

/-- The allocated rows, with the list that the globals point to. -/
structure ScreenText where
  rows : ℕ → TextRow
  /-- The number of the next row that is allocated -/
  nextRow : ℕ
  freed : List ℕ
  ends : TextList
  /-- `screen_text_row_len` -/
  rowLen : ℕ

/-! ## Rows of text -/

/-- The loop of `screen_push_buf`: a row ends at a line feed or when it is full. -/
def splitRows (rowLen : ℕ) : ℕ → List UInt8 → List (List UInt8)
  | 0, _ => []
  | fuel + 1, buf =>
    if buf = [] then []
    else
      let row := (buf.take (rowLen - 1)).takeWhile (· ≠ 10)
      let rest := buf.drop row.length
      row :: splitRows rowLen fuel (if rest.head? = some 10 then rest.tail else rest)

/-- The rows of a text. Every turn of the loop takes a byte, as a screen is wider than one character. -/
def rowsOf (rowLen : ℕ) (buf : List UInt8) : List (List UInt8) := splitRows rowLen buf.length buf

namespace ScreenText

/-- The row after a row -/
def next (t : ScreenText) (r : ℕ) : Option ℕ := (t.rows r).next

/-- The rows that a pointer leads to, of which there are no more than were allocated -/
def reach (t : ScreenText) (p : Option ℕ) : List ℕ := LinkedList.follow t.next t.nextRow p

/-- `screen_get_line_count` -/
def getLineCount (t : ScreenText) : ℕ := (t.reach t.ends.root).length

/-- A row is allocated, filled and linked behind the last one. -/
def pushRow (t : ScreenText) (str : List UInt8) : ScreenText :=
  let new := t.nextRow
  let rows := Function.update t.rows new ⟨str, none⟩
  match t.ends.tail with
  | some tail =>
    { t with
      rows := Function.update rows tail { rows tail with next := some new }
      nextRow := new + 1
      ends := ⟨t.ends.root, some new⟩ }
  | none => { t with rows := rows, nextRow := new + 1, ends := ⟨some new, some new⟩ }

/-- The loop of `screen_push_buf` that frees rows at the head. -/
def removeRows : ℕ → ScreenText → ScreenText
  | 0, t => t
  | n + 1, t =>
    match t.ends.root with
    | none => t
    | some old =>
      removeRows n { t with freed := old :: t.freed, ends := ⟨t.next old, t.ends.tail⟩ }

/-- The end of `screen_push_buf`: what is over the limit is freed. -/
def prune (t : ScreenText) : ScreenText :=
  let count := t.getLineCount
  if terminalMaxRows < count then
    let t := removeRows (count - terminalMaxRows) t
    if t.ends.root = none then { t with ends := ⟨none, none⟩ } else t
  else t

/-- `screen_push_buf` -/
def pushBuf (buf : List UInt8) (t : ScreenText) : ScreenText :=
  if buf = [] ∨ t.ends.root = none then t
  else ((rowsOf t.rowLen buf).foldl pushRow t).prune

end ScreenText

/-! ## Scrolls

Which bytes scroll a grid, and the console at that time. -/

/-- The console on which a byte calls `term_newline`. A tab stops before the end of the row. -/
def newlineAt (ch : UInt8) (c : Console) : Option Console :=
  let s := c.session
  if ch = 10 then some c
  else if 32 ≤ ch ∧ s.grid.cols ≤ u16 (s.cursorX + 1) then
    some ((c.putCell (c.index s.cursorX s.cursorY) ⟨ch, s.curAttr.fg, s.curAttr.bg⟩).moveTo 0 s.cursorY)
  else none

/-- The console on which a byte calls `scroll_cell_buffer`. -/
def scrollAt (ch : UInt8) (c : Console) : Option Console :=
  if c.parser.state = .ground ∧ ch ≠ 27 then
    match newlineAt ch c with
    | some c =>
      let y := u16 (c.session.cursorY + 1)
      if c.session.grid.rows ≤ y then some (c.moveTo 0 y) else none
    | none => none
  else none

/-- The consoles on which the bytes of a text call `scroll_cell_buffer`, one after the other. -/
def scrollsOf : List UInt8 → Console → List Console
  | [], _ => []
  | ch :: bytes, c => (scrollAt ch c).toList ++ scrollsOf bytes (ansiPutc (pushLineAt 2) ch c)

/-- The row that a scroll takes from the grid. -/
def droppedRow (c : Console) : List UInt8 := topRowText c.session.grid c.session.cells

/-- The rows that the bytes of a text scroll off. -/
def droppedRows (bytes : List UInt8) (c : Console) : List (List UInt8) :=
  (scrollsOf bytes c).map droppedRow

/-! ## Sessions -/

/-- The sessions, as far as their output goes. -/
structure TextSessions where
  text : ScreenText
  /-- `text_root` and `text_tail` of the sessions -/
  ends : ℕ → TextList
  /-- `active_session` -/
  active : ℕ
  sessions : ℕ → TermSession
  /-- `ansi_parser` -/
  parser : AnsiParser
  /-- The rows that were pushed to a session or scrolled off its grid -/
  expected : ℕ → List (List UInt8)

/-- A call that prints, by a process of a session whose output is not captured, or `session_switch`. -/
inductive OutputCall
  /-- `term_write` -/
  | write (session : ℕ) (bytes : List UInt8)
  /-- `screen_push_line` -/
  | line (session : ℕ) (str : List UInt8)
  /-- `fd_read` of descriptor 0 took a key, and `screen_push_buf` pushes it. -/
  | echo (session : ℕ) (key : UInt8)
  /-- `session_switch` -/
  | switch (id : ℕ)
  /-- An application takes or gives back the framebuffer. -/
  | owns (session : ℕ) (b : Bool)
deriving DecidableEq, Repr

namespace TextSessions

/-- The row that `screen_lines_init` makes, "sandfleaOS v0.0" -/
def title : List UInt8 := [115, 97, 110, 100, 102, 108, 101, 97, 79, 83, 32, 118, 48, 46, 48]

/-- The sessions after `screen_lines_init` and `term_init` -/
def start (rowLen : ℕ) (grids : ℕ → Grid) : TextSessions where
  text :=
    { rows := fun _ => ⟨title.take (rowLen - 1), none⟩
      nextRow := 1
      freed := []
      ends := ⟨some 0, some 0⟩
      rowLen := rowLen }
  ends i := if i = 0 then ⟨some 0, some 0⟩ else ⟨none, none⟩
  active := 0
  sessions i := sessionInit (grids i)
  parser := .zeroed
  expected i := if i = 0 then [title.take (rowLen - 1)] else []

/-- The console of a process of a session. The call of `kmalloc` for the cells of the alternate screen, which a
session makes once, does not fail. -/
def console (s : TextSessions) (i : ℕ) : Console where
  session := s.sessions i
  parser := s.parser
  cellbufLineActive := false
  captured := false
  memory := [true]
  accesses := []

/-- Work on the rows of a session: the globals are set to the saved ends for that time. -/
def withEnds (i : ℕ) (f : TextSessions → TextSessions) (s : TextSessions) : TextSessions :=
  let saved := s.text.ends
  let s := f { s with text := { s.text with ends := s.ends i } }
  { s with
    ends := Function.update s.ends i s.text.ends
    text := { s.text with ends := saved } }

/-- `screen_push_buf` -/
def pushBuf (buf : List UInt8) (s : TextSessions) : TextSessions :=
  { s with text := s.text.pushBuf buf }

/-- A row is to be kept for a session. -/
def expect (i : ℕ) (rows : List (List UInt8)) (s : TextSessions) : TextSessions :=
  { s with expected := Function.update s.expected i (s.expected i ++ rows) }

/-- What `scroll_cell_buffer` does to the rows, by `screen_push_line` as given. -/
def scrollText (pushLine : List UInt8 → Console → TextSessions → TextSessions) (i : ℕ)
    (s : TextSessions) (c : Console) : TextSessions :=
  (s.expect i [droppedRow c]).withEnds i (pushLine (droppedRow c) c)

/-- What `screen_push_line` does to the rows, when its calls nest to a depth of at most `fuel`. -/
def pushLineText (i : ℕ) : ℕ → List UInt8 → Console → TextSessions → TextSessions
  | 0, _, _, s => s
  | fuel + 1, str, c, s =>
    if c.cellbufLineActive then s.pushBuf str
    else if c.session.ownsFramebuffer then s.withEnds i (pushBuf str)
    else
      (scrollsOf (str ++ [10]) { c with cellbufLineActive := true }).foldl
        (scrollText (pushLineText i fuel) i) s

/-- The rows of a line that goes to the rows directly. -/
def linesOf (rowLen : ℕ) (str : List UInt8) : List (List UInt8) :=
  if str = [] then [[]] else rowsOf rowLen str

/-- The grid after output, and the parser. -/
def setConsole (s : TextSessions) (i : ℕ) (c : Console) : TextSessions :=
  { s with sessions := Function.update s.sessions i c.session, parser := c.parser }

/-- `session_switch` -/
def sessionSwitch (id : ℕ) (s : TextSessions) : TextSessions :=
  if maxSessions ≤ id ∨ id = s.active then s
  else
    { s with
      ends := Function.update s.ends s.active s.text.ends
      active := id
      text := { s.text with ends := s.ends id } }

/-- The state after a call -/
def step (s : TextSessions) : OutputCall → TextSessions
  | .write i bytes =>
    ((scrollsOf bytes (s.console i)).foldl (scrollText (pushLineText i 2) i) s).setConsole i
      (termWrite bytes (s.console i))
  | .line i str =>
    let c := s.console i
    let s := if c.session.ownsFramebuffer then s.expect i (linesOf s.text.rowLen str) else s
    (pushLineText i 2 str c s).setConsole i (screenPushLine str c)
  | .echo i key => (s.expect i (rowsOf s.text.rowLen [key])).pushBuf [key]
  | .switch id => s.sessionSwitch id
  | .owns i b =>
    { s with sessions := Function.update s.sessions i { s.sessions i with ownsFramebuffer := b } }

end TextSessions

end Sandflea
