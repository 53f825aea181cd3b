import Sandflea.Lib.Words

/-!
# Terminal sessions

The data of `kern_terminal.h`: the cells of a session's grid with its cursor, and the state of the
ANSI parser. The console state adds what decides where the output of a call goes, and a record of
the cells touched so far with the cursor at that time (`accesses`), which no function reads.

Screen sizes, cursor positions and parameters are 16-bit. The cells are a function on all indices,
as the source addresses them by pointer arithmetic: an index outside the grid is an access to
other memory.
-/

namespace Sandflea

/-- `cell_attr_t` -/
structure CellAttr where
  fg : UInt32
  bg : UInt32
deriving DecidableEq, Repr

/-- `cell_t` -/
structure Cell where
  ch : UInt8
  fg : UInt32
  bg : UInt32
deriving DecidableEq, Repr

/-- A zeroed cell. -/
def Cell.blank : Cell := ⟨0, 0, 0⟩

/-- The size of a session's grid. `session_init` asks `kmalloc` for `cols * rows * sizeof(cell_t)`
bytes and fails without them; the int product of a larger grid is negative, and no memory has the
size that it stands for as a `size_t`. -/
structure Grid where
  cols : ℕ
  rows : ℕ
  cols_pos : 0 < cols
  rows_pos : 0 < rows
  cols_lt : cols < 2 ^ 16
  rows_lt : rows < 2 ^ 16
  cells_lt : cols * rows < 2 ^ 31

/-- The number of cells of a grid. -/
def Grid.size (g : Grid) : ℕ := g.cols * g.rows

/-- The smallest grid that `term_init` makes. -/
def smallestGrid : Grid := ⟨40, 10, by decide, by decide, by decide, by decide, by decide⟩

/-- A grid of two rows of four cells -/
def TextSessions.smallGrid : Grid := ⟨4, 2, by decide, by decide, by decide, by decide, by decide⟩

/-- `term_session_t`: the cell buffer and the cursor -/
structure TermSession where
  grid : Grid
  cells : ℕ → Cell
  cursorX : ℕ
  cursorY : ℕ
  cursorVisible : Bool
  curAttr : CellAttr
  fullRepaint : Bool
  savedCursorX : ℕ
  savedCursorY : ℕ
  altCells : Option (ℕ → Cell)
  ownsFramebuffer : Bool

/-- `COLOR_WHITE` -/
def colorWhite : UInt32 := 0x00FFFFFF

/-- `COLOR_BLACK` -/
def colorBlack : UInt32 := 0xFF000000

/-- `session_init` when `kmalloc` gives it the cells -/
def sessionInit (g : Grid) : TermSession where
  grid := g
  cells := fun _ => .blank
  cursorX := 0
  cursorY := 0
  cursorVisible := true
  curAttr := ⟨colorWhite, colorBlack⟩
  fullRepaint := true
  savedCursorX := 0
  savedCursorY := 0
  altCells := none
  ownsFramebuffer := false

/-- `ansi_state_t` -/
inductive AnsiState
  | ground
  | esc
  | csi
  | osc
deriving DecidableEq, Repr

/-- `ansi_parser_t` -/
structure AnsiParser where
  state : AnsiState
  params : ℕ → ℕ
  paramCount : ℕ
  finalByte : UInt8
  privateMarker : Bool

/-- The zeroed parser. -/
def AnsiParser.zeroed : AnsiParser := ⟨.ground, fun _ => 0, 0, 0, false⟩

/-- A touch of the cells `lo`, ..., `lo + len - 1`, with the cursor at that time. `byCursor` says
that the cursor addresses them; the others are the moves of a scroll and the operations on the
whole screen. -/
structure Access where
  cursorX : ℕ
  cursorY : ℕ
  lo : ℕ
  len : ℕ
  byCursor : Bool
deriving DecidableEq, Repr

/-- What a call that prints works on: the session that it goes to, the parser, the guard
`screen_cellbuf_line_active`, whether the caller's output is captured, and the outcomes of the next
calls of `kmalloc` (which fail when the list is empty). -/
structure Console where
  session : TermSession
  parser : AnsiParser
  cellbufLineActive : Bool
  captured : Bool
  memory : List Bool
  accesses : List Access

namespace Console

/-- Record a touch of cells. -/
def touch (c : Console) (byCursor : Bool) (lo len : ℕ) : Console :=
  { c with accesses :=
      c.accesses ++ [⟨c.session.cursorX, c.session.cursorY, lo, len, byCursor⟩] }

/-- Move the cursor. -/
def moveTo (c : Console) (x y : ℕ) : Console :=
  { c with session := { c.session with cursorX := x, cursorY := y } }

/-- The index of a cell, `y * cols + x`. -/
def index (c : Console) (x y : ℕ) : ℕ := y * c.session.grid.cols + x

/-- Write a cell. -/
def putCell (c : Console) (i : ℕ) (cell : Cell) : Console :=
  { c.touch true i 1 with
    session := { c.session with cells := Function.update c.session.cells i cell } }

/-- `memset` of cells to zero. -/
def clearCells (c : Console) (byCursor : Bool) (lo len : ℕ) : Console :=
  { c.touch byCursor lo len with
    session := { c.session with
      cells := fun i => if lo ≤ i ∧ i < lo + len then .blank else c.session.cells i } }

/-- `mem_copy` of cells within the grid. -/
def copyCells (c : Console) (dst src len : ℕ) : Console :=
  { (c.touch false src len).touch false dst len with
    session := { c.session with
      cells := fun i =>
        if dst ≤ i ∧ i < dst + len then c.session.cells (src + (i - dst)) else c.session.cells i } }

/-- Change the colors of the next characters. -/
def setAttr (c : Console) (a : CellAttr) : Console :=
  { c with session := { c.session with curAttr := a } }

/-- `full_repaint = true` -/
def repaint (c : Console) : Console :=
  { c with session := { c.session with fullRepaint := true } }

/-- `kmalloc`: whether it gives memory. -/
def kmallocOk (c : Console) : Bool := c.memory.headD false

/-- The console after a call of `kmalloc`. -/
def afterKmalloc (c : Console) : Console := { c with memory := c.memory.tail }

end Console

end Sandflea
