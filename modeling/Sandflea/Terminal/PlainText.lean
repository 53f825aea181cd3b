import Sandflea.Terminal.Bounds

/-!
# Printing plain text

Text without escape characters, printed while the parser is in its ground state, moves the cursor and
changes cells, and nothing else (`Prints`): the row that a scroll drops is such text. So the cursor and
the saved cursor are in the grid between any two calls of a session (`placed_performAll`), also when
`screen_push_line` has written a dropped row below the grid, and the alternate screen changes only with
`ESC[?1049h` (`altCells_ansiPutcs`).
-/

namespace Sandflea

open Console

/-- From one console to a later one: plain text was printed. -/
structure Console.Prints (c c' : Console) : Prop where
  grid : c'.session.grid = c.session.grid
  parser : c'.parser = c.parser
  altCells : c'.session.altCells = c.session.altCells
  savedCursorX : c'.session.savedCursorX = c.session.savedCursorX
  savedCursorY : c'.session.savedCursorY = c.session.savedCursorY
  cursorX : c.session.cursorX < c.session.grid.cols → c'.session.cursorX < c'.session.grid.cols

namespace Console.Prints

theorem refl (c : Console) : Prints c c := ⟨rfl, rfl, rfl, rfl, rfl, id⟩

theorem trans {c c' c'' : Console} (h : Prints c c') (h' : Prints c' c'') : Prints c c'' :=
  ⟨h'.grid.trans h.grid, h'.parser.trans h.parser, h'.altCells.trans h.altCells,
    h'.savedCursorX.trans h.savedCursorX, h'.savedCursorY.trans h.savedCursorY,
    fun hx => h'.cursorX (h.cursorX hx)⟩

theorem moveTo (c : Console) {x : ℕ} (hx : x < c.session.grid.cols) (y : ℕ) :
    Prints c (c.moveTo x y) :=
  ⟨rfl, rfl, rfl, rfl, rfl, fun _ => hx⟩

end Console.Prints

/-- `pushLine` prints plain text as such. -/
def PrintsPlain (pushLine : List UInt8 → Console → Console) : Prop :=
  ∀ str c, (∀ ch ∈ str, 32 ≤ ch) → c.parser.state = .ground → Prints c (pushLine str c)

theorem prints_shiftRows (n y : ℕ) (c : Console) : Prints c (shiftRows n y c) := by
  induction n generalizing y c with
  | zero => exact .refl c
  | succ n ih =>
    have hcopy : Prints c (c.copyCells (c.index 0 y) (c.index 0 (y + 1)) c.session.grid.cols) :=
      ⟨rfl, rfl, rfl, rfl, rfl, id⟩
    exact hcopy.trans (ih _ _)

section PushLine

variable {pushLine : List UInt8 → Console → Console} (hp : PrintsPlain pushLine)

include hp

theorem prints_scrollCellBuffer {c : Console} (hs : c.parser.state = .ground) :
    Prints c (scrollCellBuffer pushLine c) := by
  have hplain := @printable_topRow c.session.cells c.session.grid.cols 0 []
    fun _ h => absurd h List.not_mem_nil
  have htouch : Prints c (c.touch false 0 (topRow c.session.cells c.session.grid.cols 0 []).2) :=
    ⟨rfl, rfl, rfl, rfl, rfl, id⟩
  have hpush := htouch.trans (hp _ (c.touch false 0 (topRow c.session.cells c.session.grid.cols 0 []).2)
    hplain hs)
  have hshift := hpush.trans (prints_shiftRows (c.session.grid.rows - 1) 0 _)
  exact hshift.trans ⟨rfl, rfl, rfl, rfl, rfl, id⟩

/-- A new line ends in the grid, wherever the cursor was. -/
theorem prints_termNewline {c : Console} (hs : c.parser.state = .ground) :
    Prints c (termNewline pushLine c) ∧
      (termNewline pushLine c).session.cursorY < c.session.grid.rows := by
  have hcols := c.session.grid.cols_pos
  have hrows := c.session.grid.rows_pos
  have hmove := Prints.moveTo c hcols (u16 (c.session.cursorY + 1))
  unfold termNewline
  dsimp only
  split
  · have hscroll := hmove.trans (prints_scrollCellBuffer hp hs)
    refine ⟨⟨hscroll.grid, hscroll.parser, hscroll.altCells, hscroll.savedCursorX,
      hscroll.savedCursorY, hscroll.cursorX⟩, ?_⟩
    rw [← hscroll.grid]
    exact Nat.sub_lt (scrollCellBuffer pushLine _).session.grid.rows_pos Nat.one_pos
  next hlast => exact ⟨hmove, not_le.mp hlast⟩

theorem prints_termPutc (ch : UInt8) {c : Console} (hs : c.parser.state = .ground) :
    Prints c (termPutc pushLine ch c) ∧ (c.session.cursorY < c.session.grid.rows →
      (termPutc pushLine ch c).session.cursorY < c.session.grid.rows) := by
  have hcols := c.session.grid.cols_pos
  have hcolsLt := c.session.grid.cols_lt
  have hline : ∀ c', Prints c c' → Prints c (termNewline pushLine c') ∧
      (c.session.cursorY < c.session.grid.rows →
        (termNewline pushLine c').session.cursorY < c.session.grid.rows) := by
    intro c' hc'
    obtain ⟨hprints, hy⟩ := prints_termNewline hp (hc'.parser ▸ hs)
    rw [hc'.grid] at hy
    exact ⟨hc'.trans hprints, fun _ => hy⟩
  unfold termPutc
  dsimp only
  split_ifs with h₁ h₂ h₃ h₄ h₅ h₆ h₇ h₈
  · exact hline c (.refl c)
  · exact ⟨.moveTo c hcols _, id⟩
  · exact ⟨⟨rfl, rfl, rfl, rfl, rfl, fun hx => lt_of_le_of_lt (Nat.sub_le _ 1) hx⟩, id⟩
  · exact ⟨.refl c, id⟩
  · exact hline _ ⟨rfl, rfl, rfl, rfl, rfl, fun _ => hcols⟩
  · exact ⟨.moveTo c (by omega) _, id⟩
  · exact hline _ ⟨rfl, rfl, rfl, rfl, rfl, fun _ => hcols⟩
  · exact ⟨⟨rfl, rfl, rfl, rfl, rfl, fun _ => not_le.mp h₈⟩, id⟩
  · exact ⟨.refl c, id⟩

/-- Text without escape characters stays plain text. -/
theorem prints_ansiPutcs {str : List UInt8} (hstr : ∀ ch ∈ str, ch ≠ 27) {c : Console}
    (hs : c.parser.state = .ground) : Prints c (ansiPutcs pushLine str c) := by
  induction str generalizing c with
  | nil => exact .refl c
  | cons ch str ih =>
    have hput : ansiPutc pushLine ch c = termPutc pushLine ch c := by
      unfold ansiPutc
      dsimp only
      rw [hs]
      exact if_neg (hstr ch List.mem_cons_self)
    have hch := (prints_termPutc hp ch hs).1
    rw [← hput] at hch
    exact hch.trans (ih (fun b hb => hstr b (List.mem_cons_of_mem ch hb)) (hch.parser ▸ hs))

end PushLine

theorem printsPlain_pushLineAt (fuel : ℕ) : PrintsPlain (pushLineAt fuel) := by
  induction fuel with
  | zero => exact fun str c _ _ => .refl c
  | succ fuel ih =>
    intro str c hstr hs
    unfold pushLineAt
    split_ifs with h₁ h₂ h₃
    · exact .refl c
    · exact .refl c
    · exact .refl c
    have hesc : ∀ ch ∈ str, ch ≠ 27 := by
      rintro ch hch rfl
      exact absurd (hstr 27 hch) (by decide)
    have hwrite : ∀ (bytes : List UInt8) (c' : Console), (∀ ch ∈ bytes, ch ≠ 27) →
        c'.parser.state = .ground → Prints c' (termWriteWith (pushLineAt fuel) bytes c') := by
      intro bytes c' hbytes hs'
      unfold termWriteWith
      split
      · exact .refl c'
      · exact prints_ansiPutcs ih hbytes hs'
    have htext := hwrite str { c with cellbufLineActive := true } hesc hs
    have hs' : (termWriteWith (pushLineAt fuel) str { c with cellbufLineActive := true }).parser.state =
        .ground := by
      rw [htext.parser]
      exact hs
    have hfeed : ∀ ch ∈ ([10] : List UInt8), ch ≠ 27 := by
      intro ch hch
      rw [List.mem_singleton.mp hch]
      decide
    have hline := htext.trans (hwrite [10] _ hfeed hs')
    exact ⟨hline.grid, hline.parser, hline.altCells, hline.savedCursorX, hline.savedCursorY,
      hline.cursorX⟩

/-! ## The cursor between calls -/

variable {g : Grid}

theorem placed_ansiPutc {pushLine : List UInt8 → Console → Console} (hp : PrintsPlain pushLine)
    {c : Console} (h : c.Placed g) (ch : UInt8) : (ansiPutc pushLine ch c).Placed g := by
  by_cases hs : c.parser.state = .ground
  · unfold ansiPutc
    dsimp only
    rw [hs]
    dsimp only
    split
    · exact ⟨h.grid, h.cursorX, h.cursorY, h.savedCursorX, h.savedCursorY⟩
    · obtain ⟨hprints, hy⟩ := prints_termPutc hp ch hs
      obtain rfl := h.grid
      refine ⟨hprints.grid, ?_, hy h.cursorY, ?_, ?_⟩
      · rw [← hprints.grid]
        exact hprints.cursorX h.cursorX
      · rw [hprints.savedCursorX]
        exact h.savedCursorX
      · rw [hprints.savedCursorY]
        exact h.savedCursorY
  · exact (careful_ansiPutc h (fun hscrolls => hs hscrolls.1) pushLine).placed

theorem placed_ansiPutcs {pushLine : List UInt8 → Console → Console} (hp : PrintsPlain pushLine)
    (bytes : List UInt8) {c : Console} (h : c.Placed g) : (ansiPutcs pushLine bytes c).Placed g := by
  induction bytes generalizing c with
  | nil => exact h
  | cons ch bytes ih => exact ih (placed_ansiPutc hp h ch)

theorem placed_termWriteWith (fuel : ℕ) (bytes : List UInt8) {c : Console} (h : c.Placed g) :
    (termWriteWith (pushLineAt fuel) bytes c).Placed g := by
  unfold termWriteWith
  split
  · exact h
  · exact placed_ansiPutcs (printsPlain_pushLineAt fuel) bytes h

theorem placed_perform (o : Output) {c : Console} (h : c.Placed g) : (perform c o).Placed g := by
  have henter : (c.enter o).Placed g :=
    ⟨h.grid, h.cursorX, h.cursorY, h.savedCursorX, h.savedCursorY⟩
  unfold perform
  split
  next bytes hcall => exact placed_termWriteWith 2 bytes henter
  next str hcall =>
    unfold screenPushLine pushLineAt
    split_ifs
    · exact henter
    · exact henter
    · exact henter
    have hguard : ({ c.enter o with cellbufLineActive := true } : Console).Placed g :=
      ⟨henter.grid, henter.cursorX, henter.cursorY, henter.savedCursorX, henter.savedCursorY⟩
    have hline := placed_termWriteWith 1 [10] (placed_termWriteWith 1 str hguard)
    exact ⟨hline.grid, hline.cursorX, hline.cursorY, hline.savedCursorX, hline.savedCursorY⟩

/-- Between calls the cursor and the saved cursor are in the grid. -/
theorem placed_performAll (p : AnsiParser) (memory : List Bool) (calls : List Output) :
    (calls.foldl perform (.start g p memory)).Placed g := by
  have hstart : (Console.start g p memory).Placed g :=
    ⟨rfl, g.cols_pos, g.rows_pos, g.cols_pos, g.rows_pos⟩
  generalize Console.start g p memory = c at hstart ⊢
  induction calls generalizing c with
  | nil => exact hstart
  | cons o calls ih => exact ih _ (placed_perform o hstart)

/-! ## The alternate screen -/

/-- The byte that ends `ESC[?1049h`. -/
def EntersAltScreen (ch : UInt8) (c : Console) : Prop :=
  c.parser.state = .csi ∧ ch = 104 ∧ c.parser.privateMarker = true ∧ csiParam c.parser 0 = 1049

instance (ch : UInt8) (c : Console) : Decidable (EntersAltScreen ch c) :=
  inferInstanceAs (Decidable (c.parser.state = .csi ∧ ch = 104 ∧ c.parser.privateMarker = true ∧
    csiParam c.parser 0 = 1049))

/-- The character of a byte. -/
theorem ofNat_toNat_eq {b : UInt8} {ch : Char} (h : Char.ofNat b.toNat = ch) : b.toNat = ch.toNat := by
  have hvalid : b.toNat.isValidChar := by
    have hlt := b.toNat_lt
    left
    omega
  rw [← h, Char.toNat_ofNat, if_pos hvalid]

theorem altCells_ansiExecute {c : Console} (h : ¬ (c.parser.finalByte = 104 ∧
    c.parser.privateMarker = true ∧ csiParam c.parser 0 = 1049)) :
    (ansiExecute c).session.altCells = c.session.altCells := by
  unfold ansiExecute
  dsimp only
  split
  · rfl
  · rfl
  · rfl
  · rfl
  · rfl
  · rfl
  · unfold eraseInDisplay
    dsimp only
    split_ifs <;> rfl
  · unfold eraseInLine
    dsimp only
    split_ifs <;> rfl
  · rfl
  · split_ifs <;> rfl
  · split_ifs <;> rfl
  next hch =>
    split_ifs with hpriv h25 h1049
    · rfl
    · exact absurd ⟨UInt8.toNat_inj.mp (ofNat_toNat_eq hch), hpriv, h1049⟩ h
    · rfl
    · rfl
  · split_ifs
    · rfl
    · unfold leaveAltScreen
      dsimp only
      split <;> rfl
    · rfl
    · rfl
  · rfl

theorem altCells_ansiPutc {pushLine : List UInt8 → Console → Console} (hp : PrintsPlain pushLine)
    {ch : UInt8} {c : Console} (h : ¬ EntersAltScreen ch c) :
    (ansiPutc pushLine ch c).session.altCells = c.session.altCells := by
  unfold ansiPutc
  dsimp only
  split
  next hs =>
    split
    · rfl
    · exact (prints_termPutc hp ch hs).1.altCells
  · split_ifs <;> rfl
  next hs =>
    split_ifs
    · rfl
    · rfl
    · rfl
    · rfl
    · exact @altCells_ansiExecute { c with parser := { c.parser with finalByte := ch } }
        fun hexec => h ⟨hs, hexec⟩
  · split_ifs <;> rfl

/-- Output in which no byte ends `ESC[?1049h` leaves the alternate screen alone. -/
theorem altCells_ansiPutcs {pushLine : List UInt8 → Console → Console} (hp : PrintsPlain pushLine)
    {bytes : List UInt8} {c : Console}
    (h : BytesMeet (fun ch c => ¬ EntersAltScreen ch c) pushLine bytes c) :
    (ansiPutcs pushLine bytes c).session.altCells = c.session.altCells := by
  induction bytes generalizing c with
  | nil => rfl
  | cons ch bytes ih => exact (ih h.2).trans (altCells_ansiPutc hp h.1)

end Sandflea
