import Sandflea.Terminal.Ansi

/-!
# The bounds of the cell buffer

Which cells output touches, and where the cursor is then. A scroll is the point where the cursor
leaves the grid: `term_newline` moves it below the last row before `scroll_cell_buffer` runs. With the
guard of `screen_push_line` set the scroll only moves rows, inside the grid. Without it
(`term_write` called directly) the dropped row is pushed with `screen_push_line`, which writes its
text at that cursor, one row below the grid.

`output_bounds_iff` says for every sequence of calls exactly when all touches are in bounds: with the
cursor in the grid at each of them if and only if no byte scrolls, and with every index in the grid
(and the cursor in it wherever it addresses the cells) if and only if no byte scrolls a visible row
out while the guard is not set.
-/

namespace Sandflea

open Console

/-! ## Calls and their bytes -/

/-- A call that prints. -/
inductive PrintCall
  /-- `term_write` -/
  | write (bytes : List UInt8)
  /-- `screen_push_line` -/
  | pushLine (str : List UInt8)
deriving DecidableEq, Repr

/-- A call that prints, with what it finds: whether the caller's output is captured, and whether an
application owns the framebuffer of the session. -/
structure Output where
  captured : Bool
  ownsFramebuffer : Bool
  call : PrintCall
deriving DecidableEq, Repr

/-- The console in which a call runs. -/
def Console.enter (c : Console) (o : Output) : Console :=
  { c with
    captured := o.captured
    session := { c.session with ownsFramebuffer := o.ownsFramebuffer } }

/-- Run a call. -/
def perform (c : Console) (o : Output) : Console :=
  match o.call with
  | .write bytes => termWrite bytes (c.enter o)
  | .pushLine str => screenPushLine str (c.enter o)

/-- The console of a new session, with the parser in any state. -/
def Console.start (g : Grid) (p : AnsiParser) (memory : List Bool) : Console where
  session := sessionInit g
  parser := p
  cellbufLineActive := false
  captured := false
  memory := memory
  accesses := []

/-- The condition holds of each byte and the console in which `ansi_putc` gets it. -/
def BytesMeet (cond : UInt8 → Console → Prop) (pushLine : List UInt8 → Console → Console) :
    List UInt8 → Console → Prop
  | [], _ => True
  | ch :: bytes, c => cond ch c ∧ BytesMeet cond pushLine bytes (ansiPutc pushLine ch c)

/-- The condition holds of each byte that a call gives to `ansi_putc`. -/
def Output.Meets (cond : UInt8 → Console → Prop) (o : Output) (c : Console) : Prop :=
  o.captured = true ∨
    match o.call with
    | .write bytes => BytesMeet cond (pushLineAt 2) bytes (c.enter o)
    | .pushLine str => o.ownsFramebuffer = true ∨
        BytesMeet cond (pushLineAt 1) (str ++ [10]) { c.enter o with cellbufLineActive := true }

/-- The condition holds of each byte that the calls give to `ansi_putc`. -/
def OutputsMeet (cond : UInt8 → Console → Prop) : List Output → Console → Prop
  | [], _ => True
  | o :: os, c => o.Meets cond c ∧ OutputsMeet cond os (perform c o)

/-! ## Bounds and scrolls -/

/-- The indices of a touch are in the grid. -/
def Access.InGrid (g : Grid) (a : Access) : Prop := a.lo + a.len ≤ g.cols * g.rows

/-- The cursor of a touch is in the grid. -/
def Access.CursorIn (g : Grid) (a : Access) : Prop := a.cursorX < g.cols ∧ a.cursorY < g.rows

/-- A touch inside the grid, with the cursor in the grid. -/
def Access.Sound (g : Grid) (a : Access) : Prop := a.CursorIn g ∧ a.InGrid g

/-- A touch inside the grid, with the cursor in the grid if it addresses the cells. -/
def Access.Safe (g : Grid) (a : Access) : Prop := (a.byCursor = true → a.CursorIn g) ∧ a.InGrid g

instance (g : Grid) (a : Access) : Decidable (a.Sound g) := by
  unfold Access.Sound Access.CursorIn Access.InGrid; infer_instance

instance (g : Grid) (a : Access) : Decidable (a.Safe g) := by
  unfold Access.Safe Access.CursorIn Access.InGrid; infer_instance

/-- The touches so far are all as `P` says. -/
def Console.Touches (P : Access → Prop) (c : Console) : Prop := ∀ a ∈ c.accesses, P a

/-- A byte makes the grid scroll: a line feed, or a character in the last column, on the last
row. -/
def Scrolls (ch : UInt8) (c : Console) : Prop :=
  c.parser.state = .ground ∧ c.session.grid.rows ≤ c.session.cursorY + 1 ∧
    (ch = 10 ∨ 32 ≤ ch ∧ c.session.grid.cols ≤ c.session.cursorX + 1)

/-- The cells when a byte makes the grid scroll. -/
def cellsAtScroll (ch : UInt8) (c : Console) : ℕ → Cell :=
  if ch = 10 then c.session.cells
  else Function.update c.session.cells (c.index c.session.cursorX c.session.cursorY)
    ⟨ch, c.session.curAttr.fg, c.session.curAttr.bg⟩

/-- A byte makes the grid scroll with nothing to keep `screen_push_line` from writing the dropped
row to the grid, and that row is not blank. -/
def RewritesRow (ch : UInt8) (c : Console) : Prop :=
  Scrolls ch c ∧ c.cellbufLineActive = false ∧ c.session.ownsFramebuffer = false ∧
    topRowText c.session.grid (cellsAtScroll ch c) ≠ []

/-! ## What output leaves as it is -/

/-- From one console to a later one: the grid, the guard and where the output goes are the same, and
no touch is forgotten. -/
structure Console.Onward (c c' : Console) : Prop where
  grid : c'.session.grid = c.session.grid
  ownsFramebuffer : c'.session.ownsFramebuffer = c.session.ownsFramebuffer
  captured : c'.captured = c.captured
  cellbufLineActive : c'.cellbufLineActive = c.cellbufLineActive
  accesses : c.accesses <+: c'.accesses

namespace Console.Onward

theorem refl (c : Console) : Onward c c := ⟨rfl, rfl, rfl, rfl, List.prefix_rfl⟩

theorem trans {c c' c'' : Console} (h : Onward c c') (h' : Onward c' c'') : Onward c c'' :=
  ⟨h'.grid.trans h.grid, h'.ownsFramebuffer.trans h.ownsFramebuffer,
    h'.captured.trans h.captured, h'.cellbufLineActive.trans h.cellbufLineActive,
    h.accesses.trans h'.accesses⟩

theorem touch (c : Console) (b : Bool) (lo len : ℕ) : Onward c (c.touch b lo len) :=
  ⟨rfl, rfl, rfl, rfl, List.prefix_append _ _⟩

theorem moveTo (c : Console) (x y : ℕ) : Onward c (c.moveTo x y) :=
  ⟨rfl, rfl, rfl, rfl, List.prefix_rfl⟩

theorem putCell (c : Console) (i : ℕ) (cell : Cell) : Onward c (c.putCell i cell) :=
  ⟨rfl, rfl, rfl, rfl, List.prefix_append _ _⟩

theorem clearCells (c : Console) (b : Bool) (lo len : ℕ) : Onward c (c.clearCells b lo len) :=
  ⟨rfl, rfl, rfl, rfl, List.prefix_append _ _⟩

theorem copyCells (c : Console) (dst src len : ℕ) : Onward c (c.copyCells dst src len) :=
  ⟨rfl, rfl, rfl, rfl,
    (List.prefix_append c.accesses _).trans (List.prefix_append _ _)⟩

theorem repaint (c : Console) : Onward c c.repaint := ⟨rfl, rfl, rfl, rfl, List.prefix_rfl⟩

/-- What holds of all touches holds of those before. -/
theorem touches {c c' : Console} {P : Access → Prop} (h : Onward c c') (h' : c'.Touches P) :
    c.Touches P :=
  fun a ha => h' a (h.accesses.subset ha)

end Console.Onward

/-- The functions that scroll call what `pushLine` does only on later consoles. -/
theorem onward_shiftRows (n y : ℕ) (c : Console) : Onward c (shiftRows n y c) := by
  induction n generalizing y c with
  | zero => exact .refl c
  | succ n ih => exact (Onward.copyCells c _ _ _).trans (ih _ _)

section PushLine

variable {pushLine : List UInt8 → Console → Console} (hp : ∀ str c, Onward c (pushLine str c))

include hp

theorem onward_scrollCellBuffer (c : Console) : Onward c (scrollCellBuffer pushLine c) := by
  have h₁ := Onward.touch c false 0 (topRow c.session.cells c.session.grid.cols 0 []).2
  have h₂ := h₁.trans (hp (topRow c.session.cells c.session.grid.cols 0 []).1 _)
  have h₃ := h₂.trans (onward_shiftRows (c.session.grid.rows - 1) 0 _)
  exact h₃.trans ((Onward.clearCells _ _ _ _).trans (.repaint _))

theorem onward_termNewline (c : Console) : Onward c (termNewline pushLine c) := by
  unfold termNewline
  dsimp only
  split
  · have h := onward_scrollCellBuffer hp (c.moveTo 0 (u16 (c.session.cursorY + 1)))
    exact (Onward.moveTo c _ _).trans (h.trans (.moveTo _ _ _))
  · exact .moveTo c _ _

theorem onward_termPutc (ch : UInt8) (c : Console) : Onward c (termPutc pushLine ch c) := by
  unfold termPutc
  dsimp only
  split_ifs
  · exact onward_termNewline hp c
  · exact .moveTo c _ _
  · exact .moveTo c _ _
  · exact .refl c
  · exact (Onward.moveTo c _ _).trans ((Onward.moveTo _ _ _).trans (onward_termNewline hp _))
  · exact .moveTo c _ _
  · exact (Onward.putCell c _ _).trans ((Onward.moveTo _ _ _).trans (onward_termNewline hp _))
  · exact (Onward.putCell c _ _).trans (.moveTo _ _ _)
  · exact .refl c

omit hp in
theorem onward_eraseInDisplay (p0 : ℕ) (c : Console) : Onward c (eraseInDisplay p0 c) := by
  unfold eraseInDisplay
  dsimp only
  split_ifs
  · exact (Onward.clearCells c _ _ _).trans (.repaint _)
  · exact (Onward.clearCells c _ _ _).trans (.repaint _)
  · exact (Onward.clearCells c _ _ _).trans (.repaint _)
  · exact .refl c

omit hp in
theorem onward_eraseInLine (p0 : ℕ) (c : Console) : Onward c (eraseInLine p0 c) := by
  unfold eraseInLine
  dsimp only
  split_ifs
  · exact .clearCells c _ _ _
  · exact .clearCells c _ _ _
  · exact .clearCells c _ _ _
  · exact .refl c

omit hp in
theorem onward_saveScreen (c : Console) : Onward c (saveScreen c) :=
  ⟨rfl, rfl, rfl, rfl, (List.prefix_append c.accesses _).trans (List.prefix_append _ _)⟩

omit hp in
theorem onward_enterAltScreen (c : Console) : Onward c (enterAltScreen c) := by
  have hk : Onward c c.afterKmalloc := ⟨rfl, rfl, rfl, rfl, List.prefix_rfl⟩
  unfold enterAltScreen
  split
  · exact onward_saveScreen c
  · split_ifs
    · exact hk.trans (onward_saveScreen _)
    · exact hk

omit hp in
theorem onward_leaveAltScreen (c : Console) : Onward c (leaveAltScreen c) := by
  unfold leaveAltScreen
  dsimp only
  split
  · exact .refl c
  · exact ⟨rfl, rfl, rfl, rfl, List.prefix_append _ _⟩

omit hp in
theorem onward_ansiExecute (c : Console) : Onward c (ansiExecute c) := by
  unfold ansiExecute
  dsimp only
  split
  · exact .moveTo c _ _
  · exact .moveTo c _ _
  · exact .moveTo c _ _
  · exact .moveTo c _ _
  · exact .moveTo c _ _
  · exact .moveTo c _ _
  · exact onward_eraseInDisplay _ c
  · exact onward_eraseInLine _ c
  · exact ⟨rfl, rfl, rfl, rfl, List.prefix_rfl⟩
  · split_ifs <;> exact ⟨rfl, rfl, rfl, rfl, List.prefix_rfl⟩
  · split_ifs <;> exact ⟨rfl, rfl, rfl, rfl, List.prefix_rfl⟩
  · split_ifs
    · exact ⟨rfl, rfl, rfl, rfl, List.prefix_rfl⟩
    · exact onward_enterAltScreen c
    · exact .refl c
    · exact .refl c
  · split_ifs
    · exact ⟨rfl, rfl, rfl, rfl, List.prefix_rfl⟩
    · exact onward_leaveAltScreen c
    · exact .refl c
    · exact .refl c
  · exact .refl c

theorem onward_ansiPutc (ch : UInt8) (c : Console) : Onward c (ansiPutc pushLine ch c) := by
  unfold ansiPutc
  dsimp only
  split
  · split_ifs
    · exact ⟨rfl, rfl, rfl, rfl, List.prefix_rfl⟩
    · exact onward_termPutc hp ch c
  · split_ifs <;> exact ⟨rfl, rfl, rfl, rfl, List.prefix_rfl⟩
  · split_ifs
    · exact ⟨rfl, rfl, rfl, rfl, List.prefix_rfl⟩
    · exact ⟨rfl, rfl, rfl, rfl, List.prefix_rfl⟩
    · exact .refl c
    · exact ⟨rfl, rfl, rfl, rfl, List.prefix_rfl⟩
    · have h := onward_ansiExecute { c with parser := { c.parser with finalByte := ch } }
      exact ⟨h.grid, h.ownsFramebuffer, h.captured, h.cellbufLineActive, h.accesses⟩
  · split_ifs
    · exact ⟨rfl, rfl, rfl, rfl, List.prefix_rfl⟩
    · exact ⟨rfl, rfl, rfl, rfl, List.prefix_rfl⟩
    · exact .refl c

theorem onward_ansiPutcs (bytes : List UInt8) (c : Console) :
    Onward c (ansiPutcs pushLine bytes c) := by
  induction bytes generalizing c with
  | nil => exact .refl c
  | cons ch bytes ih => exact (onward_ansiPutc hp ch c).trans (ih _)

theorem onward_termWriteWith (bytes : List UInt8) (c : Console) :
    Onward c (termWriteWith pushLine bytes c) := by
  unfold termWriteWith
  split
  · exact .refl c
  · exact onward_ansiPutcs hp bytes c

end PushLine

theorem onward_pushLineAt (fuel : ℕ) (str : List UInt8) (c : Console) :
    Onward c (pushLineAt fuel str c) := by
  induction fuel generalizing str c with
  | zero => exact .refl c
  | succ fuel ih =>
    unfold pushLineAt
    split_ifs with h₁ h₂ h₃
    · exact .refl c
    · exact .refl c
    · exact .refl c
    · have h := (onward_termWriteWith ih str { c with cellbufLineActive := true }).trans
        (onward_termWriteWith ih [10] _)
      exact ⟨h.grid, h.ownsFramebuffer, h.captured,
        (Bool.eq_false_iff.mpr h₂).symm, h.accesses⟩

/-! ## Output that does not scroll -/

/-- The cursor and the saved cursor are in the grid. -/
structure Console.Placed (g : Grid) (c : Console) : Prop where
  grid : c.session.grid = g
  cursorX : c.session.cursorX < g.cols
  cursorY : c.session.cursorY < g.rows
  savedCursorX : c.session.savedCursorX < g.cols
  savedCursorY : c.session.savedCursorY < g.rows

/-- From one console to a later one: the cursor is in the grid at the end, and was at every touch
on the way, which was in the grid too. -/
structure Console.Careful (g : Grid) (c c' : Console) : Prop where
  onward : c.Onward c'
  placed : c'.Placed g
  sound : ∀ a ∈ c'.accesses, a ∈ c.accesses ∨ a.Sound g

namespace Console

/-- The index of a cell of the grid. -/
theorem index_lt {g : Grid} {c : Console} (hg : c.session.grid = g) {x y : ℕ} (hx : x < g.cols)
    (hy : y < g.rows) : c.index x y + 1 ≤ g.cols * g.rows := by
  have h : (y + 1) * g.cols ≤ g.rows * g.cols := Nat.mul_le_mul_right _ hy
  rw [Nat.add_mul, Nat.one_mul, Nat.mul_comm g.rows] at h
  rw [index, hg]
  omega

namespace Careful

variable {g : Grid} {c c' c'' : Console}

theorem refl (h : c.Placed g) : Careful g c c := ⟨.refl c, h, fun _ ha => .inl ha⟩

theorem trans (h : Careful g c c') (h' : Careful g c' c'') : Careful g c c'' where
  onward := h.onward.trans h'.onward
  placed := h'.placed
  sound a ha := by
    rcases h'.sound a ha with ha | ha
    · exact h.sound a ha
    · exact .inr ha

/-- A change that touches no cell. -/
theorem of_accesses_eq (ho : Onward c c') (hp : c'.Placed g) (ha : c'.accesses = c.accesses) :
    Careful g c c' :=
  ⟨ho, hp, fun _ h => .inl (ha ▸ h)⟩

theorem moveTo (h : c.Placed g) {x y : ℕ} (hx : x < g.cols) (hy : y < g.rows) :
    Careful g c (c.moveTo x y) :=
  .of_accesses_eq (.moveTo c x y) ⟨h.grid, hx, hy, h.savedCursorX, h.savedCursorY⟩ rfl

/-- A touch of cells of the grid, by a console with its cursor in the grid. -/
theorem sound_of_touch (h : c.Placed g) {b : Bool} {lo len : ℕ} (hi : lo + len ≤ g.cols * g.rows)
    (a : Access) (ha : a ∈ (c.touch b lo len).accesses) : a ∈ c.accesses ∨ a.Sound g := by
  rcases List.mem_append.mp ha with ha | ha
  · exact .inl ha
  · rw [List.mem_singleton.mp ha]
    exact .inr ⟨⟨h.cursorX, h.cursorY⟩, hi⟩

theorem touch (h : c.Placed g) (b : Bool) {lo len : ℕ} (hi : lo + len ≤ g.cols * g.rows) :
    Careful g c (c.touch b lo len) :=
  ⟨.touch c b lo len, ⟨h.grid, h.cursorX, h.cursorY, h.savedCursorX, h.savedCursorY⟩,
    sound_of_touch h hi⟩

theorem putCell (h : c.Placed g) (cell : Cell) {i : ℕ} (hi : i + 1 ≤ g.cols * g.rows) :
    Careful g c (c.putCell i cell) :=
  ⟨.putCell c i cell, ⟨h.grid, h.cursorX, h.cursorY, h.savedCursorX, h.savedCursorY⟩,
    sound_of_touch h hi⟩

theorem clearCells (h : c.Placed g) (b : Bool) {lo len : ℕ} (hi : lo + len ≤ g.cols * g.rows) :
    Careful g c (c.clearCells b lo len) :=
  ⟨.clearCells c b lo len, ⟨h.grid, h.cursorX, h.cursorY, h.savedCursorX, h.savedCursorY⟩,
    sound_of_touch h hi⟩

theorem repaint (h : c.Placed g) : Careful g c c.repaint :=
  .of_accesses_eq (.repaint c) ⟨h.grid, h.cursorX, h.cursorY, h.savedCursorX, h.savedCursorY⟩ rfl

end Careful

end Console

variable {g : Grid}

theorem careful_eraseInDisplay (p0 : ℕ) {c : Console} (h : c.Placed g) :
    Careful g c (eraseInDisplay p0 c) := by
  have hi := index_lt h.grid h.cursorX h.cursorY
  unfold eraseInDisplay
  dsimp only
  rw [h.grid]
  split_ifs
  · have h₁ := Careful.clearCells h false (Nat.zero_add (g.cols * g.rows)).le
    exact h₁.trans (.repaint h₁.placed)
  · have hle : c.index c.session.cursorX c.session.cursorY +
        (g.cols * g.rows - c.index c.session.cursorX c.session.cursorY) ≤ g.cols * g.rows := by
      omega
    have h₁ := Careful.clearCells h true hle
    exact h₁.trans (.repaint h₁.placed)
  · have hle : 0 + (c.index c.session.cursorX c.session.cursorY + 1) ≤ g.cols * g.rows := by
      omega
    have h₁ := Careful.clearCells h true hle
    exact h₁.trans (.repaint h₁.placed)
  · exact .refl h

/-- A part of a row of the grid is in the grid. -/
theorem index_add_le {c : Console} (h : c.Placed g) {x y len : ℕ} (hx : x + len ≤ g.cols)
    (hy : y < g.rows) : c.index x y + len ≤ g.cols * g.rows := by
  have hr : (y + 1) * g.cols ≤ g.rows * g.cols := Nat.mul_le_mul_right _ hy
  rw [Nat.add_mul, Nat.one_mul, Nat.mul_comm g.rows] at hr
  rw [index, h.grid]
  omega

theorem careful_eraseInLine (p0 : ℕ) {c : Console} (h : c.Placed g) :
    Careful g c (eraseInLine p0 c) := by
  have hx := h.cursorX
  unfold eraseInLine
  dsimp only
  rw [h.grid]
  split_ifs
  · exact .clearCells h true (index_add_le h (by omega) h.cursorY)
  · exact .clearCells h true (index_add_le h (by omega) h.cursorY)
  · exact .clearCells h true (index_add_le h (by omega) h.cursorY)
  · exact .refl h

theorem careful_saveScreen {c : Console} (h : c.Placed g) : Careful g c (saveScreen c) := by
  have hsize : 0 + g.cols * g.rows ≤ g.cols * g.rows := (Nat.zero_add _).le
  unfold saveScreen
  dsimp only
  rw [h.grid]
  have h₁ := Careful.touch h false hsize
  let c₁ := c.touch false 0 (g.cols * g.rows)
  let c₂ := { c₁ with session := { c₁.session with altCells := some c₁.session.cells } }
  have h₂ : Careful g c₁ c₂ :=
    .of_accesses_eq ⟨rfl, rfl, rfl, rfl, List.prefix_rfl⟩
      ⟨h.grid, h.cursorX, h.cursorY, h.savedCursorX, h.savedCursorY⟩ rfl
  have h₃ := Careful.clearCells h₂.placed false hsize
  have h₄ := Careful.moveTo h₃.placed g.cols_pos g.rows_pos
  exact h₁.trans (h₂.trans (h₃.trans (h₄.trans (.repaint h₄.placed))))

theorem careful_enterAltScreen {c : Console} (h : c.Placed g) :
    Careful g c (enterAltScreen c) := by
  have hk : Careful g c c.afterKmalloc :=
    .of_accesses_eq ⟨rfl, rfl, rfl, rfl, List.prefix_rfl⟩
      ⟨h.grid, h.cursorX, h.cursorY, h.savedCursorX, h.savedCursorY⟩ rfl
  unfold enterAltScreen
  split
  · exact careful_saveScreen h
  · split_ifs
    · exact hk.trans (careful_saveScreen hk.placed)
    · exact hk

theorem careful_leaveAltScreen {c : Console} (h : c.Placed g) :
    Careful g c (leaveAltScreen c) := by
  have hsize : 0 + g.cols * g.rows ≤ g.cols * g.rows := (Nat.zero_add _).le
  unfold leaveAltScreen
  dsimp only
  split
  · exact .refl h
  · rw [h.grid]
    exact ⟨⟨rfl, rfl, rfl, rfl, List.prefix_append _ _⟩,
      ⟨h.grid, h.savedCursorX, h.savedCursorY, h.savedCursorX, h.savedCursorY⟩,
      Careful.sound_of_touch h hsize⟩

theorem careful_ansiExecute {c : Console} (h : c.Placed g) : Careful g c (ansiExecute c) := by
  obtain rfl := h.grid
  have hx := h.cursorX
  have hy := h.cursorY
  have hcols := c.session.grid.cols_pos
  have hrows := c.session.grid.rows_pos
  unfold ansiExecute
  dsimp only
  split
  · exact .moveTo h (by omega) (by omega)
  · exact .moveTo h (by omega) (by omega)
  · exact .moveTo h hx (by split <;> omega)
  · exact .moveTo h hx (by omega)
  · exact .moveTo h (by omega) hy
  · exact .moveTo h (by split <;> omega) hy
  · exact careful_eraseInDisplay _ h
  · exact careful_eraseInLine _ h
  · exact .of_accesses_eq ⟨rfl, rfl, rfl, rfl, List.prefix_rfl⟩
      ⟨h.grid, hx, hy, h.savedCursorX, h.savedCursorY⟩ rfl
  · split_ifs
    · exact .refl h
    · exact .of_accesses_eq ⟨rfl, rfl, rfl, rfl, List.prefix_rfl⟩ ⟨h.grid, hx, hy, hx, hy⟩ rfl
  · split_ifs
    · exact .refl h
    · exact .moveTo h h.savedCursorX h.savedCursorY
  · split_ifs
    · exact .of_accesses_eq ⟨rfl, rfl, rfl, rfl, List.prefix_rfl⟩
        ⟨h.grid, hx, hy, h.savedCursorX, h.savedCursorY⟩ rfl
    · exact careful_enterAltScreen h
    · exact .refl h
    · exact .refl h
  · split_ifs
    · exact .of_accesses_eq ⟨rfl, rfl, rfl, rfl, List.prefix_rfl⟩
        ⟨h.grid, hx, hy, h.savedCursorX, h.savedCursorY⟩ rfl
    · exact careful_leaveAltScreen h
    · exact .refl h
    · exact .refl h
  · exact .refl h

/-- A new line on a row that is not the last. -/
theorem careful_termNewline {c : Console} (h : c.Placed g) (hy : c.session.cursorY + 1 < g.rows)
    (pushLine : List UInt8 → Console → Console) : Careful g c (termNewline pushLine c) := by
  have hrows := g.rows_lt
  have hu : u16 (c.session.cursorY + 1) = c.session.cursorY + 1 := Nat.mod_eq_of_lt (by omega)
  unfold termNewline
  dsimp only
  rw [hu, if_neg (by simp only [moveTo]; rw [h.grid]; omega)]
  exact .moveTo h g.cols_pos hy

/-- The 16-bit column after the cursor's. -/
theorem u16_cursorX_succ {c : Console} (h : c.Placed g) :
    u16 (c.session.cursorX + 1) = c.session.cursorX + 1 :=
  Nat.mod_eq_of_lt (by have := h.cursorX; have := g.cols_lt; omega)

theorem careful_termPutc {c : Console} (h : c.Placed g) (ch : UInt8)
    (hs : ¬ (g.rows ≤ c.session.cursorY + 1 ∧
      (ch = 10 ∨ 32 ≤ ch ∧ g.cols ≤ c.session.cursorX + 1)))
    (pushLine : List UInt8 → Console → Console) : Careful g c (termPutc pushLine ch c) := by
  have hx := h.cursorX
  have hy := h.cursorY
  have hcols := g.cols_pos
  unfold termPutc
  dsimp only
  rw [h.grid, u16_cursorX_succ h]
  split_ifs with h₁ h₂ h₃ h₄ h₅ h₆ h₇ h₈
  · refine careful_termNewline h ?_ pushLine
    by_contra hlt
    exact hs ⟨by omega, .inl h₁⟩
  · exact .moveTo h hcols hy
  · exact .moveTo h (by omega) hy
  · exact .refl h
  · omega
  · exact .moveTo h (by omega) hy
  · have hi := Careful.putCell h ⟨ch, c.session.curAttr.fg, c.session.curAttr.bg⟩
      (index_lt h.grid hx hy)
    have hm := Careful.moveTo hi.placed hcols hy
    have hlt : c.session.cursorY + 1 < g.rows := by
      by_contra hlt
      exact hs ⟨by omega, .inr ⟨h₇, h₈⟩⟩
    exact hi.trans (hm.trans (careful_termNewline hm.placed hlt pushLine))
  · have hi := Careful.putCell h ⟨ch, c.session.curAttr.fg, c.session.curAttr.bg⟩
      (index_lt h.grid hx hy)
    exact hi.trans (.moveTo hi.placed (by omega) hy)
  · exact .refl h

/-- A byte that does not scroll keeps all in the grid. -/
theorem careful_ansiPutc {c : Console} (h : c.Placed g) {ch : UInt8} (hs : ¬ Scrolls ch c)
    (pushLine : List UInt8 → Console → Console) : Careful g c (ansiPutc pushLine ch c) := by
  have hparser : ∀ p : AnsiParser, Careful g c { c with parser := p } := fun p =>
    .of_accesses_eq ⟨rfl, rfl, rfl, rfl, List.prefix_rfl⟩
      ⟨h.grid, h.cursorX, h.cursorY, h.savedCursorX, h.savedCursorY⟩ rfl
  unfold ansiPutc
  dsimp only
  split
  next hst =>
    split_ifs
    · exact hparser _
    · refine careful_termPutc h ch ?_ pushLine
      rintro ⟨hy, hc⟩
      rw [← h.grid] at hy hc
      exact hs ⟨hst, hy, hc⟩
  · split_ifs <;> exact hparser _
  · split_ifs
    · exact hparser _
    · exact hparser _
    · exact .refl h
    · exact hparser _
    · have h₁ := hparser { c.parser with finalByte := ch }
      have h₂ := careful_ansiExecute h₁.placed
      have h₃ := h₁.trans h₂
      exact ⟨⟨h₃.onward.grid, h₃.onward.ownsFramebuffer, h₃.onward.captured,
          h₃.onward.cellbufLineActive, h₃.onward.accesses⟩,
        ⟨h₃.placed.grid, h₃.placed.cursorX, h₃.placed.cursorY, h₃.placed.savedCursorX,
          h₃.placed.savedCursorY⟩, h₃.sound⟩
  · split_ifs
    · exact hparser _
    · exact hparser _
    · exact .refl h

/-! ## Scrolls -/

/-- The cursor may be in any row; all else is as in `Placed`. -/
structure Console.Aligned (g : Grid) (c : Console) : Prop where
  grid : c.session.grid = g
  cursorX : c.session.cursorX < g.cols
  savedCursorX : c.session.savedCursorX < g.cols
  savedCursorY : c.session.savedCursorY < g.rows

theorem Console.Placed.aligned {c : Console} (h : c.Placed g) : c.Aligned g :=
  ⟨h.grid, h.cursorX, h.savedCursorX, h.savedCursorY⟩

theorem Console.Aligned.placed {c : Console} (h : c.Aligned g) (hy : c.session.cursorY < g.rows) :
    c.Placed g :=
  ⟨h.grid, h.cursorX, hy, h.savedCursorX, h.savedCursorY⟩

/-- From one console to a later one: the cursor may be in any row, and the touches on the way are
in the grid, with the cursor in it where it addresses the cells. -/
structure Console.Contained (g : Grid) (c c' : Console) : Prop where
  onward : c.Onward c'
  aligned : c'.Aligned g
  safe : ∀ a ∈ c'.accesses, a ∈ c.accesses ∨ a.Safe g

theorem Access.Sound.safe {a : Access} (h : a.Sound g) : a.Safe g := ⟨fun _ => h.1, h.2⟩

namespace Console

namespace Contained

variable {c c' c'' : Console}

theorem refl (h : c.Aligned g) : Contained g c c := ⟨.refl c, h, fun _ ha => .inl ha⟩

theorem trans (h : Contained g c c') (h' : Contained g c' c'') : Contained g c c'' where
  onward := h.onward.trans h'.onward
  aligned := h'.aligned
  safe a ha := by
    rcases h'.safe a ha with ha | ha
    · exact h.safe a ha
    · exact .inr ha

theorem of_careful (h : Careful g c c') : Contained g c c' :=
  ⟨h.onward, h.placed.aligned, fun a ha => (h.sound a ha).imp_right Access.Sound.safe⟩

theorem moveTo (h : c.Aligned g) {x : ℕ} (hx : x < g.cols) (y : ℕ) :
    Contained g c (c.moveTo x y) :=
  ⟨.moveTo c x y, ⟨h.grid, hx, h.savedCursorX, h.savedCursorY⟩, fun _ ha => .inl ha⟩

theorem touch (h : c.Aligned g) {lo len : ℕ} (hi : lo + len ≤ g.cols * g.rows) :
    Contained g c (c.touch false lo len) := by
  refine ⟨.touch c false lo len, ⟨h.grid, h.cursorX, h.savedCursorX, h.savedCursorY⟩, ?_⟩
  intro a ha
  rcases List.mem_append.mp ha with ha | ha
  · exact .inl ha
  · rw [List.mem_singleton.mp ha]
    exact .inr ⟨fun hb => absurd hb Bool.false_ne_true, hi⟩

/-- Cells and flags of the session may change freely. -/
theorem of_session_eq (h : Contained g c c') {s : TermSession} (hg : s.grid = c'.session.grid)
    (hx : s.cursorX = c'.session.cursorX) (hsx : s.savedCursorX = c'.session.savedCursorX)
    (hsy : s.savedCursorY = c'.session.savedCursorY)
    (ho : s.ownsFramebuffer = c'.session.ownsFramebuffer) :
    Contained g c { c' with session := s } :=
  ⟨⟨hg.trans h.onward.grid, ho.trans h.onward.ownsFramebuffer, h.onward.captured,
      h.onward.cellbufLineActive, h.onward.accesses⟩,
    ⟨hg.trans h.aligned.grid, hx ▸ h.aligned.cursorX, hsx ▸ h.aligned.savedCursorX,
      hsy ▸ h.aligned.savedCursorY⟩, h.safe⟩

theorem clearCells (h : c.Aligned g) {lo len : ℕ} (hi : lo + len ≤ g.cols * g.rows) :
    Contained g c (c.clearCells false lo len) :=
  (touch h hi).of_session_eq rfl rfl rfl rfl rfl

theorem copyCells (h : c.Aligned g) {dst src len : ℕ} (hd : dst + len ≤ g.cols * g.rows)
    (hs : src + len ≤ g.cols * g.rows) : Contained g c (c.copyCells dst src len) := by
  have h₁ := touch h hs
  have h₂ := touch h₁.aligned hd
  exact (h₁.trans h₂).of_session_eq rfl rfl rfl rfl rfl

theorem repaint (h : c.Aligned g) : Contained g c c.repaint :=
  (refl h).of_session_eq rfl rfl rfl rfl rfl

end Contained

/-- A row of the grid is in the grid. -/
theorem Aligned.row_le {c : Console} (h : c.Aligned g) {y : ℕ} (hy : y < g.rows) :
    c.index 0 y + g.cols ≤ g.cols * g.rows := by
  have hr : (y + 1) * g.cols ≤ g.rows * g.cols := Nat.mul_le_mul_right _ hy
  rw [Nat.add_mul, Nat.one_mul, Nat.mul_comm g.rows] at hr
  rw [index, h.grid]
  omega

end Console

theorem contained_shiftRows (n y : ℕ) {c : Console} (h : c.Aligned g) (hn : y + n < g.rows) :
    Contained g c (shiftRows n y c) := by
  induction n generalizing y c with
  | zero => exact .refl h
  | succ n ih =>
    have hd := h.row_le (y := y) (by omega)
    have hs := h.row_le (y := y + 1) (by omega)
    have h₁ := Contained.copyCells h hd hs
    rw [shiftRows, h.grid]
    exact h₁.trans (ih (y + 1) h₁.aligned (by omega))

/-- The top row is read no further than it is long. -/
theorem topRow_le (cells : ℕ → Cell) (n x : ℕ) (row : List UInt8) :
    (topRow cells n x row).2 ≤ x + n := by
  induction n generalizing x row with
  | zero => exact le_rfl
  | succ n ih =>
    rw [topRow]
    split
    · have := ih (x + 1) (row ++ rowChar (cells x).ch)
      omega
    · exact Nat.le_add_right _ _

/-- A scroll during which `screen_push_line` stays in the grid. -/
theorem contained_scrollCellBuffer {pushLine : List UInt8 → Console → Console} {c : Console}
    (h : c.Aligned g)
    (hp : ∀ n, n ≤ g.cols → Contained g (c.touch false 0 n)
      (pushLine (topRowText g c.session.cells) (c.touch false 0 n))) :
    Contained g c (scrollCellBuffer pushLine c) := by
  obtain rfl := h.grid
  have hrows := c.session.grid.rows_pos
  have hle := topRow_le c.session.cells c.session.grid.cols 0 []
  rw [Nat.zero_add] at hle
  have hcell : 0 + (topRow c.session.cells c.session.grid.cols 0 []).2 ≤
      c.session.grid.cols * c.session.grid.rows :=
    (Nat.zero_add _).trans_le (hle.trans (Nat.le_mul_of_pos_right _ hrows))
  have h₁ := Contained.touch h hcell
  have h₂ := h₁.trans (hp _ hle)
  have h₃ := h₂.trans (contained_shiftRows (c.session.grid.rows - 1) 0 h₂.aligned (by omega))
  have hlast := h₃.aligned.row_le (Nat.sub_one_lt_of_lt hrows)
  have h₄ := h₃.trans (Contained.clearCells h₃.aligned hlast)
  exact h₄.trans (.repaint h₄.aligned)

/-- `pushLine` leaves every console after `c` as it is. -/
def QuietAfter (pushLine : List UInt8 → Console → Console) (c : Console) : Prop :=
  ∀ str c', Onward c c' → pushLine str c' = c'

/-- A new line, wherever the cursor is, when `screen_push_line` stays in the grid. -/
theorem contained_termNewline {pushLine : List UInt8 → Console → Console} {c : Console}
    (h : c.Aligned g)
    (hp : ∀ y n, n ≤ g.cols → Contained g ((c.moveTo 0 y).touch false 0 n)
      (pushLine (topRowText g c.session.cells) ((c.moveTo 0 y).touch false 0 n))) :
    Contained g c (termNewline pushLine c) := by
  have h₁ := Contained.moveTo h g.cols_pos (u16 (c.session.cursorY + 1))
  unfold termNewline
  dsimp only
  split
  · have h₂ := h₁.trans (contained_scrollCellBuffer h₁.aligned (hp _))
    exact h₂.trans (.moveTo h₂.aligned h₂.aligned.cursorX _)
  · exact h₁

theorem contained_termNewline_of_quietAfter {pushLine : List UInt8 → Console → Console} {c : Console}
    (h : c.Aligned g) (hq : QuietAfter pushLine c) : Contained g c (termNewline pushLine c) := by
  refine contained_termNewline h fun y n _ => ?_
  have ho : Onward c ((c.moveTo 0 y).touch false 0 n) :=
    (Onward.moveTo c 0 y).trans (.touch _ _ _ _)
  rw [hq _ _ ho]
  exact .refl ⟨h.grid, g.cols_pos, h.savedCursorX, h.savedCursorY⟩

/-- With the guard set, or an application on the framebuffer, nothing is written to the grid. -/
theorem quietAfter_pushLineAt (fuel : ℕ) {c : Console}
    (h : c.cellbufLineActive = true ∨ c.session.ownsFramebuffer = true) :
    QuietAfter (pushLineAt (fuel + 1)) c := by
  intro str c' ho
  rw [← ho.cellbufLineActive, ← ho.ownsFramebuffer] at h
  rw [pushLineAt]
  split_ifs with h₁ h₂ h₃
  · rfl
  · rfl
  · rfl
  · rcases h with h | h
    · exact absurd h h₂
    · exact absurd h h₃

/-- The console while `screen_push_line` writes to the cells. -/
def Console.guarded (c : Console) : Console := { c with cellbufLineActive := true }

/-- `screen_push_line` when its text goes to the cells. -/
theorem pushLineAt_open (fuel : ℕ) (str : List UInt8) {c : Console} (hc : c.captured = false)
    (ha : c.cellbufLineActive = false) (ho : c.session.ownsFramebuffer = false) :
    pushLineAt (fuel + 1) str c =
      { ansiPutcs (pushLineAt fuel) (str ++ [10]) c.guarded with cellbufLineActive := false } := by
  have hw : ∀ (bytes : List UInt8) (c' : Console), c'.captured = false →
      termWriteWith (pushLineAt fuel) bytes c' = ansiPutcs (pushLineAt fuel) bytes c' := by
    intro bytes c' hc'
    rw [termWriteWith, hc', if_neg Bool.false_ne_true]
  have hc₁ : (ansiPutcs (pushLineAt fuel) str c.guarded).captured = false :=
    (onward_ansiPutcs (onward_pushLineAt fuel) str c.guarded).captured.trans hc
  rw [pushLineAt, if_neg (hc ▸ Bool.false_ne_true), if_neg (ha ▸ Bool.false_ne_true),
    if_neg (ho ▸ Bool.false_ne_true)]
  have h₂ := hw str c.guarded hc
  have h₃ := hw [10] _ hc₁
  rw [← h₂, Console.guarded] at h₃
  dsimp only
  rw [h₃, termWriteWith, if_neg (hc ▸ Bool.false_ne_true)]
  simp only [ansiPutcs, List.foldl_append]
  rfl

/-! The depth of the calls of `screen_push_line` is two: the inner call finds the guard set. -/

section Depth

variable {pushLine pushLine' : List UInt8 → Console → Console}

theorem scrollCellBuffer_congr {c : Console}
    (h : ∀ str c', Onward c c' → pushLine str c' = pushLine' str c') :
    scrollCellBuffer pushLine c = scrollCellBuffer pushLine' c := by
  unfold scrollCellBuffer
  dsimp only
  rw [h _ _ (.touch c _ _ _)]

theorem termNewline_congr {c : Console}
    (h : ∀ str c', Onward c c' → pushLine str c' = pushLine' str c') :
    termNewline pushLine c = termNewline pushLine' c := by
  unfold termNewline
  dsimp only
  rw [scrollCellBuffer_congr fun str c' ho => h str c' ((Onward.moveTo c _ _).trans ho)]

theorem termPutc_congr {c : Console}
    (h : ∀ str c', Onward c c' → pushLine str c' = pushLine' str c') (ch : UInt8) :
    termPutc pushLine ch c = termPutc pushLine' ch c := by
  unfold termPutc
  dsimp only
  rw [termNewline_congr h,
    termNewline_congr fun str c' ho =>
      h str c' ((Onward.moveTo c _ _).trans ((Onward.moveTo _ _ _).trans ho)),
    termNewline_congr fun str c' ho =>
      h str c' ((Onward.putCell c _ _).trans ((Onward.moveTo _ _ _).trans ho))]

theorem ansiPutcs_congr (hp : ∀ str c, Onward c (pushLine str c)) {c : Console}
    (h : ∀ str c', Onward c c' → pushLine str c' = pushLine' str c') (bytes : List UInt8) :
    ansiPutcs pushLine bytes c = ansiPutcs pushLine' bytes c := by
  induction bytes generalizing c with
  | nil => rfl
  | cons ch bytes ih =>
    have hch : ansiPutc pushLine ch c = ansiPutc pushLine' ch c := by
      unfold ansiPutc
      rw [termPutc_congr h]
    have ho := onward_ansiPutc hp ch c
    have hb := ih (c := ansiPutc pushLine ch c) fun str c' ho' => h str c' (ho.trans ho')
    rw [hch] at hb
    calc ansiPutcs pushLine (ch :: bytes) c
        = ansiPutcs pushLine bytes (ansiPutc pushLine' ch c) := by rw [← hch]; rfl
      _ = ansiPutcs pushLine' (ch :: bytes) c := hb

/-- More depth than two changes nothing. -/
theorem pushLineAt_depth (n : ℕ) (str : List UInt8) (c : Console) :
    pushLineAt (n + 2) str c = screenPushLine str c := by
  by_cases h : c.captured = true ∨ c.cellbufLineActive = true ∨ c.session.ownsFramebuffer = true
  · unfold screenPushLine
    rw [pushLineAt, pushLineAt]
    rcases h with h | h | h <;> simp only [h, if_true, ite_self]
  · simp only [not_or, Bool.not_eq_true] at h
    obtain ⟨hc, ha, ho⟩ := h
    have hq := ansiPutcs_congr (onward_pushLineAt (n + 1)) (c := c.guarded)
      (fun str' c' hoc => (quietAfter_pushLineAt n (.inl rfl) str' c' hoc).trans
        (quietAfter_pushLineAt 0 (.inl rfl) str' c' hoc).symm) (str ++ [10])
    unfold screenPushLine
    rw [pushLineAt_open _ _ hc ha ho, pushLineAt_open _ _ hc ha ho, hq]

end Depth

/-- A blank row that `screen_push_line` writes to the grid adds only a new line. -/
theorem contained_pushLineAt_nil (fuel : ℕ) {c : Console} (h : c.Aligned g)
    (hst : c.parser.state = .ground) (hc : c.captured = false)
    (ha : c.cellbufLineActive = false) (ho : c.session.ownsFramebuffer = false) :
    Contained g c (pushLineAt (fuel + 2) [] c) := by
  have hr := contained_termNewline_of_quietAfter (c := c.guarded)
    ⟨h.grid, h.cursorX, h.savedCursorX, h.savedCursorY⟩ (quietAfter_pushLineAt fuel (.inl rfl))
  have hw : ansiPutcs (pushLineAt (fuel + 1)) ([] ++ [10]) c.guarded =
      termNewline (pushLineAt (fuel + 1)) c.guarded := by
    simp only [List.nil_append, ansiPutcs, List.foldl_cons, List.foldl_nil, ansiPutc,
      Console.guarded, hst]
    rfl
  rw [pushLineAt_open _ _ hc ha ho, hw]
  exact ⟨⟨hr.onward.grid, hr.onward.ownsFramebuffer, hr.onward.captured, ha.symm,
      hr.onward.accesses⟩,
    ⟨hr.aligned.grid, hr.aligned.cursorX, hr.aligned.savedCursorX, hr.aligned.savedCursorY⟩,
    hr.safe⟩

/-- What a scroll writes to the scrollback is printable. -/
theorem printable_topRow (cells : ℕ → Cell) (n x : ℕ) {row : List UInt8}
    (hrow : ∀ ch ∈ row, 32 ≤ ch) : ∀ ch ∈ (topRow cells n x row).1, 32 ≤ ch := by
  induction n generalizing x row with
  | zero => exact hrow
  | succ n ih =>
    rw [topRow]
    split
    · refine ih (x + 1) fun ch hch => ?_
      rcases List.mem_append.mp hch with hch | hch
      · exact hrow ch hch
      · unfold rowChar at hch
        split_ifs at hch with h₁ h₂
        · rwa [List.mem_singleton.mp hch]
        · rw [List.mem_singleton.mp hch]
          decide
        · exact absurd hch List.not_mem_nil
    · exact hrow

/-- A printable byte with the cursor below the grid touches a cell that is not in it. -/
theorem not_touches_safe_ansiPutc {pushLine : List UInt8 → Console → Console}
    (hp : ∀ str c, Onward c (pushLine str c)) {c : Console}
    (hst : c.parser.state = .ground) (hy : g.rows ≤ c.session.cursorY) {ch : UInt8}
    (hch : 32 ≤ ch) : ¬ (ansiPutc pushLine ch c).Touches (Access.Safe g) := by
  have hne : ∀ k : UInt8, k < 32 → ch ≠ k := by
    rintro k hk rfl
    exact absurd hk (UInt8.not_lt.mpr hch)
  let cell : Cell := ⟨ch, c.session.curAttr.fg, c.session.curAttr.bg⟩
  let i := c.index c.session.cursorX c.session.cursorY
  have ho : Onward (c.putCell i cell) (ansiPutc pushLine ch c) := by
    simp only [ansiPutc, hst, if_neg (hne 27 (by decide)), termPutc, if_neg (hne 10 (by decide)),
      if_neg (hne 13 (by decide)), if_neg (hne 8 (by decide)), if_neg (hne 9 (by decide)),
      if_pos hch]
    split
    · exact (Onward.moveTo _ _ _).trans (onward_termNewline hp _)
    · exact .moveTo _ _ _
  intro ht
  have hmem := ho.touches ht ⟨c.session.cursorX, c.session.cursorY, i, 1, true⟩
    (List.mem_append_right _ List.mem_cons_self)
  exact absurd (hmem.1 rfl).2 (not_lt.mpr hy)

/-- The text of a visible row is written below the grid. -/
theorem not_touches_safe_pushLineAt (fuel : ℕ) {c : Console}
    (hst : c.parser.state = .ground) (hy : g.rows ≤ c.session.cursorY)
    (hc : c.captured = false) (ha : c.cellbufLineActive = false)
    (ho : c.session.ownsFramebuffer = false) {str : List UInt8} (hne : str ≠ [])
    (hstr : ∀ ch ∈ str, 32 ≤ ch) :
    ¬ (pushLineAt (fuel + 1) str c).Touches (Access.Safe g) := by
  obtain ⟨ch, str, rfl⟩ := List.exists_cons_of_ne_nil hne
  have hp := onward_pushLineAt fuel
  rw [pushLineAt_open _ _ hc ha ho]
  intro ht
  have ht' : (ansiPutcs (pushLineAt fuel) (str ++ [10])
      (ansiPutc (pushLineAt fuel) ch c.guarded)).Touches (Access.Safe g) := ht
  exact not_touches_safe_ansiPutc hp (c := c.guarded) hst hy (hstr ch List.mem_cons_self)
    ((onward_ansiPutcs hp _ _).touches ht')

/-! ## One byte -/

/-- A byte that scrolls is put, if it is a character, and then makes a new line. -/
theorem ansiPutc_of_scrolls {c : Console} (h : c.Placed g) {ch : UInt8} (hs : Scrolls ch c)
    (pushLine : List UInt8 → Console → Console) :
    ∃ c₁, Careful g c c₁ ∧ c₁.session.cursorY = c.session.cursorY ∧ c₁.parser = c.parser ∧
      c₁.session.cells = cellsAtScroll ch c ∧ ansiPutc pushLine ch c = termNewline pushLine c₁ := by
  obtain rfl := h.grid
  obtain ⟨hst, hy, hch⟩ := hs
  by_cases h10 : ch = 10
  · refine ⟨c, .refl h, rfl, rfl, (if_pos h10).symm, ?_⟩
    subst h10
    simp only [ansiPutc, hst]
    rfl
  · obtain ⟨h32, hx⟩ := hch.resolve_left h10
    have hne : ∀ k : UInt8, k < 32 → ch ≠ k := by
      rintro k hk rfl
      exact absurd hk (UInt8.not_lt.mpr h32)
    have hput := Careful.putCell h ⟨ch, c.session.curAttr.fg, c.session.curAttr.bg⟩
      (index_lt rfl h.cursorX h.cursorY)
    refine ⟨_, hput.trans (.moveTo hput.placed c.session.grid.cols_pos h.cursorY), rfl, rfl,
      (if_neg h10).symm, ?_⟩
    simp only [ansiPutc, hst, if_neg (hne 27 (by decide)), termPutc, if_neg h10,
      if_neg (hne 13 (by decide)), if_neg (hne 8 (by decide)), if_neg (hne 9 (by decide)),
      if_pos h32, u16_cursorX_succ h, if_pos hx]

/-- A new line on the last row scrolls, with the cursor below the grid. -/
theorem termNewline_of_last {c : Console} (h : c.Placed g) (hy : g.rows ≤ c.session.cursorY + 1)
    (pushLine : List UInt8 → Console → Console) :
    termNewline pushLine c =
      (scrollCellBuffer pushLine (c.moveTo 0 g.rows)).moveTo
        (scrollCellBuffer pushLine (c.moveTo 0 g.rows)).session.cursorX
        ((scrollCellBuffer pushLine (c.moveTo 0 g.rows)).session.grid.rows - 1) := by
  obtain rfl := h.grid
  have hlt := h.cursorY
  have hrows := c.session.grid.rows_lt
  have hu : u16 (c.session.cursorY + 1) = c.session.grid.rows := by
    rw [u16, Nat.mod_eq_of_lt (by omega)]
    omega
  rw [termNewline, hu]
  exact if_pos (le_refl c.session.grid.rows)

/-- A scroll reads the top row while the cursor is below the grid. -/
theorem not_touches_sound_termNewline {pushLine : List UInt8 → Console → Console}
    (hp : ∀ str c, Onward c (pushLine str c)) {c : Console} (h : c.Placed g)
    (hy : g.rows ≤ c.session.cursorY + 1) :
    ¬ (termNewline pushLine c).Touches (Access.Sound g) := by
  rw [termNewline_of_last h hy]
  intro ht
  let n := (topRow c.session.cells c.session.grid.cols 0 []).2
  have h₁ : Onward ((c.moveTo 0 g.rows).touch false 0 n)
      (scrollCellBuffer pushLine (c.moveTo 0 g.rows)) := by
    have h₂ := hp (topRow c.session.cells c.session.grid.cols 0 []).1
      ((c.moveTo 0 g.rows).touch false 0 n)
    have h₃ := h₂.trans (onward_shiftRows (c.session.grid.rows - 1) 0 _)
    exact h₃.trans ((Onward.clearCells _ _ _ _).trans (.repaint _))
  have hmem : (⟨0, g.rows, 0, n, false⟩ : Access).Sound g :=
    (h₁.trans (.moveTo _ _ _)).touches ht _ (List.mem_append_right _ List.mem_cons_self)
  exact lt_irrefl _ hmem.1.2

/-- A byte is sound if and only if it does not scroll. -/
theorem touches_sound_ansiPutc {pushLine : List UInt8 → Console → Console}
    (hp : ∀ str c, Onward c (pushLine str c)) {c : Console} (h : c.Placed g) (ch : UInt8) :
    (ansiPutc pushLine ch c).Touches (Access.Sound g) ↔
      c.Touches (Access.Sound g) ∧ ¬ Scrolls ch c := by
  constructor
  · intro ht
    refine ⟨(onward_ansiPutc hp ch c).touches ht, fun hs => ?_⟩
    obtain ⟨c₁, hc₁, hy₁, -, -, he⟩ := ansiPutc_of_scrolls h hs pushLine
    rw [he] at ht
    have hy : g.rows ≤ c₁.session.cursorY + 1 := by
      rw [hy₁, ← h.grid]
      exact hs.2.1
    exact not_touches_sound_termNewline hp hc₁.placed hy ht
  · rintro ⟨ht, hs⟩ a ha
    rcases (careful_ansiPutc h hs pushLine).sound a ha with ha | ha
    · exact ht a ha
    · exact ha

/-- A new line on the last row brings the cursor back to the last row. -/
theorem placed_of_scrolls {pushLine : List UInt8 → Console → Console} {c : Console}
    (h : c.Placed g) (hy : g.rows ≤ c.session.cursorY + 1)
    (hc : Contained g c (termNewline pushLine c)) : (termNewline pushLine c).Placed g := by
  refine hc.aligned.placed ?_
  have hrows := g.rows_pos
  have hg := hc.onward.grid.trans h.grid
  rw [termNewline_of_last h hy] at hg ⊢
  have hg' : (scrollCellBuffer pushLine (c.moveTo 0 g.rows)).session.grid = g := hg
  simp only [moveTo] at hg' ⊢
  rw [hg']
  omega

/-- A byte that writes no dropped row to the grid keeps every touch in bounds. -/
theorem contained_ansiPutc {c : Console} (h : c.Placed g) {ch : UInt8} {fuel : ℕ}
    (hfuel : c.cellbufLineActive = true ∨ 1 ≤ fuel) (hc : c.captured = false)
    (hr : ¬ RewritesRow ch c) :
    Contained g c (ansiPutc (pushLineAt (fuel + 1)) ch c) ∧
      (ansiPutc (pushLineAt (fuel + 1)) ch c).Placed g := by
  by_cases hs : Scrolls ch c
  · obtain ⟨c₁, hc₁, hy₁, hp₁, hcells, he⟩ := ansiPutc_of_scrolls h hs (pushLineAt (fuel + 1))
    have hy : g.rows ≤ c₁.session.cursorY + 1 := by
      rw [hy₁, ← h.grid]
      exact hs.2.1
    rw [he]
    have hn : Contained g c₁ (termNewline (pushLineAt (fuel + 1)) c₁) := by
      by_cases hq : c.cellbufLineActive = true ∨ c.session.ownsFramebuffer = true
      · rw [← hc₁.onward.cellbufLineActive, ← hc₁.onward.ownsFramebuffer] at hq
        exact contained_termNewline_of_quietAfter hc₁.placed.aligned (quietAfter_pushLineAt fuel hq)
      · have ha : c.cellbufLineActive = false := Bool.eq_false_iff.mpr fun ha => hq (.inl ha)
        have ho : c.session.ownsFramebuffer = false := Bool.eq_false_iff.mpr fun ho => hq (.inr ho)
        have hrow : topRowText g (cellsAtScroll ch c) = [] := by
          by_contra hne
          rw [← h.grid] at hne
          exact hr ⟨hs, ha, ho, hne⟩
        obtain ⟨fuel, rfl⟩ : ∃ k, fuel = k + 1 :=
          ⟨fuel - 1, by have := hfuel.resolve_left (ha ▸ Bool.false_ne_true); omega⟩
        refine contained_termNewline hc₁.placed.aligned fun y n _ => ?_
        rw [hcells, hrow]
        exact contained_pushLineAt_nil fuel
          ⟨hc₁.placed.grid, g.cols_pos, hc₁.placed.savedCursorX, hc₁.placed.savedCursorY⟩
          ((congrArg AnsiParser.state hp₁).trans hs.1) (hc₁.onward.captured.trans hc)
          (hc₁.onward.cellbufLineActive.trans ha) (hc₁.onward.ownsFramebuffer.trans ho)
    exact ⟨(Contained.of_careful hc₁).trans hn, placed_of_scrolls hc₁.placed hy hn⟩
  · have hk := careful_ansiPutc h hs (pushLineAt (fuel + 1))
    exact ⟨.of_careful hk, hk.placed⟩

/-- A byte that writes a dropped row to the grid does so below it. -/
theorem not_touches_safe_of_rewritesRow {c : Console} (h : c.Placed g) {ch : UInt8} (fuel : ℕ)
    (hc : c.captured = false) (hr : RewritesRow ch c) :
    ¬ (ansiPutc (pushLineAt (fuel + 1)) ch c).Touches (Access.Safe g) := by
  obtain ⟨hs, ha, ho, hne⟩ := hr
  obtain ⟨c₁, hc₁, hy₁, hp₁, hcells, he⟩ := ansiPutc_of_scrolls h hs (pushLineAt (fuel + 1))
  have hy : g.rows ≤ c₁.session.cursorY + 1 := by
    rw [hy₁, ← h.grid]
    exact hs.2.1
  rw [he, termNewline_of_last hc₁.placed hy]
  intro ht
  let row := topRow c₁.session.cells c₁.session.grid.cols 0 []
  let c₂ := (c₁.moveTo 0 g.rows).touch false 0 row.2
  have ho₂ : Onward (pushLineAt (fuel + 1) row.1 c₂)
      (scrollCellBuffer (pushLineAt (fuel + 1)) (c₁.moveTo 0 g.rows)) := by
    have h₃ := onward_shiftRows (c₁.session.grid.rows - 1) 0 (pushLineAt (fuel + 1) row.1 c₂)
    exact h₃.trans ((Onward.clearCells _ _ _ _).trans (.repaint _))
  have hrow : row.1 ≠ [] := by
    have hg₁ : row.1 = topRowText c.session.grid (cellsAtScroll ch c) := by
      rw [← hcells, ← hc₁.onward.grid]
      rfl
    rw [hg₁]
    exact hne
  exact not_touches_safe_pushLineAt fuel (c := c₂) ((congrArg AnsiParser.state hp₁).trans hs.1)
    le_rfl (hc₁.onward.captured.trans hc) (hc₁.onward.cellbufLineActive.trans ha)
    (hc₁.onward.ownsFramebuffer.trans ho) hrow
    (printable_topRow _ _ _ fun _ hch => absurd hch List.not_mem_nil)
    ((ho₂.trans (.moveTo _ _ _)).touches ht)

/-! ## Runs -/

/-- The console while bytes go to `ansi_putc`, with the guard set or not. -/
structure Console.Printing (g : Grid) (guarded : Bool) (c : Console) : Prop where
  placed : c.Placed g
  captured : c.captured = false
  cellbufLineActive : c.cellbufLineActive = guarded

/-- `cond` is the condition under which a byte keeps the touches as `P` says, and then the next byte
is printed from a console of the same kind. -/
structure ByteRule (g : Grid) (guarded : Bool) (pushLine : List UInt8 → Console → Console)
    (P : Access → Prop) (cond : UInt8 → Console → Prop) : Prop where
  touches : ∀ ch c, Console.Printing g guarded c →
    ((ansiPutc pushLine ch c).Touches P ↔ c.Touches P ∧ cond ch c)
  keeps : ∀ ch c, Console.Printing g guarded c → cond ch c →
    Console.Printing g guarded (ansiPutc pushLine ch c)

theorem Console.Printing.next {guarded : Bool} {c c' : Console} (h : c.Printing g guarded)
    (ho : c.Onward c') (hp : c'.Placed g) : c'.Printing g guarded :=
  ⟨hp, ho.captured.trans h.captured, ho.cellbufLineActive.trans h.cellbufLineActive⟩

theorem byteRule_sound (guarded : Bool) {pushLine : List UInt8 → Console → Console}
    (hp : ∀ str c, Onward c (pushLine str c)) :
    ByteRule g guarded pushLine (Access.Sound g) fun ch c => ¬ Scrolls ch c where
  touches ch _ h := touches_sound_ansiPutc hp h.placed ch
  keeps ch c h hs := by
    have hc := careful_ansiPutc h.placed hs pushLine
    exact h.next hc.onward hc.placed

theorem byteRule_safe (guarded : Bool) {fuel : ℕ} (hfuel : guarded = true ∨ 1 ≤ fuel) :
    ByteRule g guarded (pushLineAt (fuel + 1)) (Access.Safe g) fun ch c => ¬ RewritesRow ch c where
  touches ch c h := by
    constructor
    · intro ht
      exact ⟨(onward_ansiPutc (onward_pushLineAt _) ch c).touches ht,
        fun hr => not_touches_safe_of_rewritesRow h.placed fuel h.captured hr ht⟩
    · rintro ⟨ht, hr⟩ a ha
      rw [← h.cellbufLineActive] at hfuel
      rcases (contained_ansiPutc h.placed hfuel h.captured hr).1.safe a ha with ha | ha
      · exact ht a ha
      · exact ha
  keeps ch c h hr := by
    rw [← h.cellbufLineActive] at hfuel
    obtain ⟨hc, hpl⟩ := contained_ansiPutc h.placed hfuel h.captured hr
    exact h.next hc.onward hpl

section Runs

variable {guarded : Bool} {pushLine : List UInt8 → Console → Console} {P : Access → Prop}
  {cond : UInt8 → Console → Prop}

/-- Bytes keep the touches as `P` says if and only if each of them meets the condition. -/
theorem touches_ansiPutcs (hp : ∀ str c, Onward c (pushLine str c))
    (hr : ByteRule g guarded pushLine P cond) (bytes : List UInt8) {c : Console}
    (h : c.Printing g guarded) :
    ((ansiPutcs pushLine bytes c).Touches P ↔
        c.Touches P ∧ BytesMeet cond pushLine bytes c) ∧
      (BytesMeet cond pushLine bytes c → (ansiPutcs pushLine bytes c).Printing g guarded) := by
  induction bytes generalizing c with
  | nil => exact ⟨⟨fun ht => ⟨ht, trivial⟩, fun ht => ht.1⟩, fun _ => h⟩
  | cons ch bytes ih =>
    have hstep := hr.touches ch c h
    refine ⟨⟨fun ht => ?_, fun ⟨ht, hch, hb⟩ => ?_⟩, fun ⟨hch, hb⟩ => ?_⟩
    · have h₁ : (ansiPutc pushLine ch c).Touches P := (onward_ansiPutcs hp bytes _).touches ht
      obtain ⟨hc, hch⟩ := hstep.mp h₁
      exact ⟨hc, hch, ((ih (hr.keeps ch c h hch)).1.mp ht).2⟩
    · exact (ih (hr.keeps ch c h hch)).1.mpr ⟨hstep.mpr ⟨ht, hch⟩, hb⟩
    · exact (ih (hr.keeps ch c h hch)).2 hb

/-- The console between calls. -/
structure Console.Idle (g : Grid) (c : Console) : Prop where
  placed : c.Placed g
  cellbufLineActive : c.cellbufLineActive = false

theorem Console.Idle.enter {c : Console} (h : c.Idle g) (o : Output) : (c.enter o).Idle g :=
  ⟨⟨h.placed.grid, h.placed.cursorX, h.placed.cursorY, h.placed.savedCursorX,
    h.placed.savedCursorY⟩, h.cellbufLineActive⟩

theorem accesses_perform (o : Output) (c : Console) :
    c.accesses <+: (perform c o).accesses := by
  unfold perform
  split
  · exact (onward_termWriteWith (onward_pushLineAt 2) _ (c.enter o)).accesses
  · exact (onward_pushLineAt 2 _ (c.enter o)).accesses

/-- A call keeps the touches as `P` says if and only if each byte that it prints meets the
condition. -/
theorem touches_perform (hw : ByteRule g false (pushLineAt 2) P cond)
    (hl : ByteRule g true (pushLineAt 1) P cond) (o : Output) {c : Console} (h : c.Idle g) :
    ((perform c o).Touches P ↔ c.Touches P ∧ o.Meets cond c) ∧
      (o.Meets cond c → (perform c o).Idle g) := by
  obtain ⟨captured, owns, call⟩ := o
  have he := h.enter ⟨captured, owns, call⟩
  -- A call that reaches no cell leaves the console as it enters it.
  have hskip : ∀ (c' : Console) (meets : Prop), c' = c.enter ⟨captured, owns, call⟩ → meets →
      (c'.Touches P ↔ c.Touches P ∧ meets) ∧ (meets → c'.Idle g) := by
    rintro c' meets rfl hm
    exact ⟨⟨fun ht => ⟨ht, hm⟩, fun ht => ht.1⟩, fun _ => he⟩
  cases captured with
  | true => cases call with
    | write bytes => exact hskip _ _ rfl (.inl rfl)
    | pushLine str => exact hskip _ _ rfl (.inl rfl)
  | false => cases call with
    | write bytes =>
      have hb := touches_ansiPutcs (onward_pushLineAt 2) hw bytes
        (c := c.enter ⟨false, owns, .write bytes⟩) ⟨he.placed, rfl, he.cellbufLineActive⟩
      have hm : Output.Meets cond ⟨false, owns, .write bytes⟩ c ↔
          BytesMeet cond (pushLineAt 2) bytes (c.enter ⟨false, owns, .write bytes⟩) :=
        or_iff_right Bool.false_ne_true
      rw [hm]
      exact ⟨hb.1, fun hmeet => ⟨(hb.2 hmeet).placed, (hb.2 hmeet).cellbufLineActive⟩⟩
    | pushLine str => cases owns with
      | true =>
        refine hskip _ _ ?_ (.inr (.inl rfl))
        exact quietAfter_pushLineAt 1 (c := c.enter ⟨false, true, .pushLine str⟩) (.inr rfl) str _
          (.refl _)
      | false =>
        have hb := touches_ansiPutcs (onward_pushLineAt 1) hl (str ++ [10])
          (c := (c.enter ⟨false, false, .pushLine str⟩).guarded)
          ⟨⟨he.placed.grid, he.placed.cursorX, he.placed.cursorY, he.placed.savedCursorX,
            he.placed.savedCursorY⟩, rfl, rfl⟩
        have hm : Output.Meets cond ⟨false, false, .pushLine str⟩ c ↔
            BytesMeet cond (pushLineAt 1) (str ++ [10])
              (c.enter ⟨false, false, .pushLine str⟩).guarded :=
          (or_iff_right Bool.false_ne_true).trans (or_iff_right Bool.false_ne_true)
        have hrun : perform c ⟨false, false, .pushLine str⟩ =
            { ansiPutcs (pushLineAt 1) (str ++ [10])
                (c.enter ⟨false, false, .pushLine str⟩).guarded with
              cellbufLineActive := false } :=
          pushLineAt_open 1 str rfl he.cellbufLineActive rfl
        rw [hm, hrun]
        refine ⟨hb.1, fun hmeet => ⟨?_, rfl⟩⟩
        have hp := (hb.2 hmeet).placed
        exact ⟨hp.grid, hp.cursorX, hp.cursorY, hp.savedCursorX, hp.savedCursorY⟩

/-- A run of calls keeps the touches as `P` says if and only if each byte that it prints meets the
condition. -/
theorem touches_performAll (hw : ByteRule g false (pushLineAt 2) P cond)
    (hl : ByteRule g true (pushLineAt 1) P cond) (calls : List Output) {c : Console}
    (h : c.Idle g) :
    (calls.foldl perform c).Touches P ↔ c.Touches P ∧ OutputsMeet cond calls c := by
  induction calls generalizing c with
  | nil => exact ⟨fun ht => ⟨ht, trivial⟩, fun ht => ht.1⟩
  | cons o calls ih =>
    obtain ⟨hstep, hidle⟩ := touches_perform hw hl o h
    rw [List.foldl_cons]
    refine ⟨fun ht => ?_, fun ⟨ht, ho, hos⟩ => ?_⟩
    · have hpre : (perform c o).accesses <+: (calls.foldl perform (perform c o)).accesses := by
        clear ih hstep hidle ht
        generalize perform c o = c₁
        induction calls generalizing c₁ with
        | nil => exact List.prefix_rfl
        | cons o calls ih => exact (accesses_perform o c₁).trans (ih _)
      obtain ⟨hc, ho⟩ := hstep.mp fun a ha => ht a (hpre.subset ha)
      exact ⟨hc, ho, ((ih (hidle ho)).mp ht).2⟩
    · exact (ih (hidle ho)).mpr ⟨hstep.mpr ⟨ht, ho⟩, hos⟩

end Runs

/-- The bounds of terminal output. In every run of calls from a new session, the cursor is in the
grid at every touch of a cell and every touch is in the grid if and only if no byte scrolls; and
every touch is in the grid, with the cursor in it at every touch that the cursor addresses, if and
only if no byte scrolls a visible row out that is then written back below the grid. -/
theorem output_bounds_iff (g : Grid) (p : AnsiParser) (memory : List Bool)
    (calls : List Output) :
    ((calls.foldl perform (.start g p memory)).Touches (Access.Sound g) ↔
        OutputsMeet (fun ch c => ¬ Scrolls ch c) calls (.start g p memory)) ∧
      ((calls.foldl perform (.start g p memory)).Touches (Access.Safe g) ↔
        OutputsMeet (fun ch c => ¬ RewritesRow ch c) calls (.start g p memory)) := by
  have hidle : (Console.start g p memory).Idle g :=
    ⟨⟨rfl, g.cols_pos, g.rows_pos, g.cols_pos, g.rows_pos⟩, rfl⟩
  have hnone : ∀ P, (Console.start g p memory).Touches P := fun P a ha =>
    absurd ha List.not_mem_nil
  have hsound := touches_performAll (byteRule_sound false (onward_pushLineAt 2))
    (byteRule_sound true (onward_pushLineAt 1)) calls hidle
  have hsafe := touches_performAll (byteRule_safe false (.inr le_rfl))
    (byteRule_safe true (.inl rfl)) calls hidle
  exact ⟨hsound.trans (and_iff_right (hnone _)), hsafe.trans (and_iff_right (hnone _))⟩

/-- `A` and ten line feeds, written with `term_write` to a new session. -/
def tenLines : Output := ⟨false, false, .write (65 :: List.replicate 10 10)⟩

/-- The tenth line feed scrolls the row with the `A` out, and the `A` is written below the grid. -/
theorem tenLines_out_of_bounds :
    ¬ (([tenLines].foldl perform (.start smallestGrid .zeroed [])).Touches
        (Access.Safe smallestGrid)) ∧
      ¬ (([tenLines].foldl perform (.start smallestGrid .zeroed [])).Touches
        (Access.Sound smallestGrid)) := by
  constructor <;> unfold Console.Touches <;> decide +kernel

end Sandflea
