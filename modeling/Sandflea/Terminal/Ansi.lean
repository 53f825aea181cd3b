import Sandflea.Terminal.Session

/-!
# Terminal output

`term_newline`, `scroll_cell_buffer`, `term_putc`, the ANSI parser, `term_write` and
`screen_push_line` of `kern_terminal.c`.

The functions call each other in a cycle: a scroll pushes the row that it drops with
`screen_push_line`, which writes it with `term_write` unless the guard is set. They are written
here over the function `pushLine` that a scroll calls, and `pushLineAt` closes the cycle with a bound
on the depth of its calls: inside `screen_push_line` the guard is set, so the depth is two.
-/

namespace Sandflea

open Console

/-! ## Colors -/

/-- `ansi_std_color` -/
def ansiStdColor : ℕ → UInt32
  | 0 => colorBlack
  | 1 => 0x00FF0000
  | 2 => 0x0000FF00
  | 3 => 0x00B8860B
  | 4 => 0x000000FF
  | 5 => 0x00FF00FF
  | 6 => 0x0000FFFF
  | 7 => 0x00C0C0C0
  | _ => colorWhite

/-- `ansi_bright_color` -/
def ansiBrightColor : ℕ → UInt32
  | 0 => 0x00696969
  | 1 => 0x00FF6666
  | 2 => 0x0066FF66
  | 3 => 0x00FFFF00
  | 4 => 0x006666FF
  | 5 => 0x00FFC0CB
  | 6 => 0x0066FFFF
  | 7 => colorWhite
  | _ => colorWhite

/-- `palette16` -/
def palette16 (i : ℕ) : UInt32 := if i < 8 then ansiStdColor i else ansiBrightColor (i - 8)

/-- The color of `ESC[38;2;r;g;bm`, in which each component is cut to a byte. -/
def trueColor (r g b : ℕ) : UInt32 :=
  .ofNat (0xFF000000 + r % 256 * 2 ^ 16 + g % 256 * 2 ^ 8 + b % 256)

/-- One turn of the loop of `apply_sgr`: the attributes and the last parameter used. -/
def sgrStep (p : AnsiParser) (i : ℕ) (a : CellAttr) : CellAttr × ℕ :=
  let param := p.params i
  if param = 0 then (⟨colorWhite, colorBlack⟩, i)
  else if 30 ≤ param ∧ param ≤ 37 then ({ a with fg := ansiStdColor (param - 30) }, i)
  else if param = 38 then
    if i + 2 ≤ p.paramCount ∧ p.params (i + 1) = 5 then
      let colorIdx := p.params (i + 2) % 256
      ({ a with fg := if colorIdx < 16 then palette16 colorIdx else colorWhite }, i + 2)
    else if i + 4 ≤ p.paramCount ∧ p.params (i + 1) = 2 then
      ({ a with fg := trueColor (p.params (i + 2)) (p.params (i + 3)) (p.params (i + 4)) }, i + 4)
    else (a, i)
  else if param = 39 then ({ a with fg := colorWhite }, i)
  else if 40 ≤ param ∧ param ≤ 47 then ({ a with bg := ansiStdColor (param - 40) }, i)
  else if param = 48 then
    if i + 2 ≤ p.paramCount ∧ p.params (i + 1) = 5 then ({ a with bg := colorBlack }, i + 2)
    else if i + 4 ≤ p.paramCount ∧ p.params (i + 1) = 2 then ({ a with bg := colorBlack }, i + 4)
    else (a, i)
  else if param = 49 then ({ a with bg := colorBlack }, i)
  else if 90 ≤ param ∧ param ≤ 97 then ({ a with fg := ansiBrightColor (param - 90) }, i)
  else if 100 ≤ param ∧ param ≤ 107 then ({ a with bg := ansiBrightColor (param - 100) }, i)
  else (a, i)

/-- The loop of `apply_sgr` from parameter `i` on, for at most `fuel` turns. -/
def sgrLoop (p : AnsiParser) : ℕ → ℕ → CellAttr → CellAttr
  | 0, _, a => a
  | fuel + 1, i, a =>
    if i ≤ p.paramCount then
      let (a, j) := sgrStep p i a
      sgrLoop p fuel (j + 1) a
    else a

/-- `apply_sgr`. Each turn uses a parameter. -/
def applySgr (p : AnsiParser) (a : CellAttr) : CellAttr := sgrLoop p (p.paramCount + 1) 0 a

/-! ## Scrolling -/

/-- What `scroll_cell_buffer` writes for a character. -/
def rowChar (ch : UInt8) : List UInt8 :=
  if 32 ≤ ch then [ch] else if ch = 9 then [32] else []

/-- The loop of `scroll_cell_buffer` that reads the top row: the text and the number of cells read.
The buffer of the text holds 510 characters. -/
def topRow (cells : ℕ → Cell) : ℕ → ℕ → List UInt8 → List UInt8 × ℕ
  | 0, x, row => (row, x)
  | n + 1, x, row =>
    if row.length < 510 then topRow cells n (x + 1) (row ++ rowChar (cells x).ch) else (row, x)

/-- The text of the top row. -/
def topRowText (g : Grid) (cells : ℕ → Cell) : List UInt8 := (topRow cells g.cols 0 []).1

/-- The loop of `scroll_cell_buffer` that moves the rows `y`, ... up, for `n` rows. -/
def shiftRows : ℕ → ℕ → Console → Console
  | 0, _, c => c
  | n + 1, y, c =>
    shiftRows n (y + 1)
      (c.copyCells (c.index 0 y) (c.index 0 (y + 1)) c.session.grid.cols)

section PushLine

variable (pushLine : List UInt8 → Console → Console)

/-- `scroll_cell_buffer` -/
def scrollCellBuffer (c : Console) : Console :=
  let g := c.session.grid
  let row := topRow c.session.cells g.cols 0 []
  let c := c.touch false 0 row.2
  let c := pushLine row.1 c
  let c := shiftRows (g.rows - 1) 0 c
  (c.clearCells false (c.index 0 (g.rows - 1)) g.cols).repaint

/-- `term_newline` -/
def termNewline (c : Console) : Console :=
  let y := u16 (c.session.cursorY + 1)
  let c := c.moveTo 0 y
  if c.session.grid.rows ≤ y then
    let c := scrollCellBuffer pushLine c
    c.moveTo c.session.cursorX (c.session.grid.rows - 1)
  else c

/-- `term_putc` -/
def termPutc (ch : UInt8) (c : Console) : Console :=
  let s := c.session
  if ch = 10 then termNewline pushLine c
  else if ch = 13 then c.moveTo 0 s.cursorY
  else if ch = 8 then if 0 < s.cursorX then c.moveTo (s.cursorX - 1) s.cursorY else c
  else if ch = 9 then
    let tabStop := u16 ((s.cursorX + 8) / 8 * 8)
    let x := min tabStop (s.grid.cols - 1)
    let c := c.moveTo x s.cursorY
    if s.grid.cols ≤ x then termNewline pushLine (c.moveTo 0 s.cursorY) else c
  else if 32 ≤ ch then
    let c := c.putCell (c.index s.cursorX s.cursorY) ⟨ch, s.curAttr.fg, s.curAttr.bg⟩
    let x := u16 (s.cursorX + 1)
    if s.grid.cols ≤ x then termNewline pushLine (c.moveTo 0 s.cursorY)
    else c.moveTo x s.cursorY
  else c

/-! ## The parser -/

/-- A parameter of a CSI sequence, of which 0 means 1. -/
def csiParam (p : AnsiParser) (i : ℕ) : ℕ := if p.params i = 0 then 1 else p.params i

/-- `ESC[J` of `ansi_execute` -/
def eraseInDisplay (p0 : ℕ) (c : Console) : Console :=
  let s := c.session
  if p0 = 2 then (c.clearCells false 0 (s.grid.cols * s.grid.rows)).repaint
  else if p0 = 0 then
    let start := c.index s.cursorX s.cursorY
    (c.clearCells true start (s.grid.cols * s.grid.rows - start)).repaint
  else if p0 = 1 then (c.clearCells true 0 (c.index s.cursorX s.cursorY + 1)).repaint
  else c

/-- `ESC[K` of `ansi_execute` -/
def eraseInLine (p0 : ℕ) (c : Console) : Console :=
  let s := c.session
  if p0 = 2 ∨ p0 = 0 then
    let start := if p0 = 0 then s.cursorX else 0
    c.clearCells true (c.index start s.cursorY) (s.grid.cols - start)
  else if p0 = 1 then c.clearCells true (c.index 0 s.cursorY) (s.cursorX + 1)
  else c

/-- The alternate screen takes a copy of the cells, and the cells are cleared. -/
def saveScreen (c : Console) : Console :=
  let size := c.session.grid.cols * c.session.grid.rows
  let c := c.touch false 0 size
  let c := { c with session := { c.session with altCells := some c.session.cells } }
  ((c.clearCells false 0 size).moveTo 0 0).repaint

/-- `ESC[?1049h` of `ansi_execute` -/
def enterAltScreen (c : Console) : Console :=
  match c.session.altCells with
  | some _ => saveScreen c
  | none => if c.kmallocOk then saveScreen c.afterKmalloc else c.afterKmalloc

/-- `ESC[?1049l` of `ansi_execute` -/
def leaveAltScreen (c : Console) : Console :=
  let s := c.session
  match s.altCells with
  | none => c
  | some alt =>
    let size := s.grid.cols * s.grid.rows
    let c := c.touch false 0 size
    let cells := fun i => if i < size then alt i else s.cells i
    let c := { c with session := { c.session with cells := cells } }
    (c.moveTo s.savedCursorX s.savedCursorY).repaint

/-- `ansi_execute` -/
def ansiExecute (c : Console) : Console :=
  let p := c.parser
  let s := c.session
  let p0 := csiParam p 0
  let p1 := csiParam p 1
  match Char.ofNat p.finalByte.toNat with
  | 'H' | 'f' => c.moveTo (min (p1 - 1) (s.grid.cols - 1)) (min (p0 - 1) (s.grid.rows - 1))
  | 'A' => c.moveTo s.cursorX (if p0 ≤ s.cursorY then s.cursorY - p0 else 0)
  | 'B' => c.moveTo s.cursorX (min (u16 (s.cursorY + p0)) (s.grid.rows - 1))
  | 'C' => c.moveTo (min (u16 (s.cursorX + p0)) (s.grid.cols - 1)) s.cursorY
  | 'D' => c.moveTo (if p0 ≤ s.cursorX then s.cursorX - p0 else 0) s.cursorY
  | 'J' => eraseInDisplay p0 c
  | 'K' => eraseInLine p0 c
  | 'm' => c.setAttr (applySgr p s.curAttr)
  | 's' =>
    if p.privateMarker then c
    else
      { c with session := { s with savedCursorX := s.cursorX, savedCursorY := s.cursorY } }
  | 'u' => if p.privateMarker then c else c.moveTo s.savedCursorX s.savedCursorY
  | 'h' =>
    if p.privateMarker then
      if p0 = 25 then { c with session := { s with cursorVisible := false } }
      else if p0 = 1049 then enterAltScreen c
      else c
    else c
  | 'l' =>
    if p.privateMarker then
      if p0 = 25 then { c with session := { s with cursorVisible := true } }
      else if p0 = 1049 then leaveAltScreen c
      else c
    else c
  | _ => c

/-- The parser at the start of a sequence: `ansi_putc` clears the parameters. -/
def AnsiParser.restart (p : AnsiParser) (st : AnsiState) : AnsiParser :=
  { p with state := st, paramCount := 0, privateMarker := false, params := fun _ => 0 }

/-- `ansi_putc` -/
def ansiPutc (ch : UInt8) (c : Console) : Console :=
  let p := c.parser
  match p.state with
  | .ground =>
    if ch = 27 then { c with parser := p.restart .esc } else termPutc pushLine ch c
  | .esc =>
    if ch = 91 then { c with parser := { p with state := .csi } }
    else if ch = 93 then { c with parser := { p with state := .osc } }
    else { c with parser := { p with state := .ground } }
  | .csi =>
    if 48 ≤ ch ∧ ch ≤ 57 then
      let v := u16 (p.params p.paramCount * 10 + (ch.toNat - 48))
      { c with parser := { p with params := Function.update p.params p.paramCount v } }
    else if ch = 59 then
      if p.paramCount < 15 then { c with parser := { p with paramCount := p.paramCount + 1 } }
      else c
    else if ch = 63 then { c with parser := { p with privateMarker := true } }
    else
      let c := ansiExecute { c with parser := { p with finalByte := ch } }
      { c with parser := c.parser.restart .ground }
  | .osc =>
    if ch = 7 then { c with parser := { p with state := .ground } }
    else if ch = 27 then { c with parser := { p with state := .esc } }
    else c

/-- The loop of `term_write` over its bytes. -/
def ansiPutcs (bytes : List UInt8) (c : Console) : Console :=
  bytes.foldl (fun c ch => ansiPutc pushLine ch c) c

/-- `term_write`: captured output does not reach the grid. -/
def termWriteWith (bytes : List UInt8) (c : Console) : Console :=
  if c.captured then c else ansiPutcs pushLine bytes c

end PushLine

/-- `screen_push_line`, when its calls nest to a depth of at most `fuel`. What does not go to the
cells goes to the capture buffer or to the scrollback, which is no part of the grid. -/
def pushLineAt : ℕ → List UInt8 → Console → Console
  | 0, _, c => c
  | fuel + 1, str, c =>
    if c.captured then c
    else if c.cellbufLineActive then c
    else if c.session.ownsFramebuffer then c
    else
      let c := { c with cellbufLineActive := true }
      let c := termWriteWith (pushLineAt fuel) str c
      let c := termWriteWith (pushLineAt fuel) [10] c
      { c with cellbufLineActive := false }

/-- `screen_push_line` -/
def screenPushLine (str : List UInt8) (c : Console) : Console := pushLineAt 2 str c

/-- `term_write` -/
def termWrite (bytes : List UInt8) (c : Console) : Console :=
  termWriteWith (pushLineAt 2) bytes c

end Sandflea
