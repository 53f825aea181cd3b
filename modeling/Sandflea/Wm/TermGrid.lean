import Sandflea.Lib.Runs

/-!
# The grid of the terminal program

The terminal program (`term.c`) keeps its text in arrays of a fixed size, of which the geometry of its window
uses a part. The window manager writes the geometry into the shared page, and the program takes over what it
finds there between any two bytes. No output and no geometry makes it touch the arrays out of bounds
(`grid_in_bounds`): the row of the cursor stays below the rows in use, and its column at most one past the
end.
-/

namespace Sandflea

/-- `MAX_COLS` of `term.c` -/
def termMaxCols : ℕ := 200

/-- `MAX_ROWS` of `term.c` -/
def termMaxRows : ℕ := 128

/-- A position in `grid`, `fg_grid` and `bg_grid` -/
structure TermCell where
  ch : UInt8
  fg : UInt32
  bg : UInt32
deriving DecidableEq, Repr

/-- A space in `COLOR_FG` on `COLOR_BG` -/
def TermCell.blank : TermCell := ⟨0x20, 0xFF55FF55, 0xFF101018⟩

/-- An access to the arrays -/
inductive GridAccess
  /-- To `grid`, `fg_grid` or `bg_grid` -/
  | cell (row col : ℕ)
  /-- To `row_dirty` -/
  | dirty (row : ℕ)
deriving DecidableEq, Repr

/-- The access is to a row and a column that there is. -/
def GridAccess.InArrays : GridAccess → Prop
  | .cell row col => row < termMaxRows ∧ col < termMaxCols
  | .dirty row => row < termMaxRows

/-- The variables of `term.c` that have to do with the grid, with the accesses to it -/
structure TermProgram where
  fbOffset : ℤ
  maxCols : ℕ
  maxRows : ℕ
  grid : ℕ → ℕ → TermCell
  rowDirty : ℕ → Bool
  cursorX : ℕ
  cursorY : ℕ
  prevCursorX : ℕ
  prevCursorY : ℕ
  accesses : List GridAccess

/-- The bytes 258 to 261 of the shared page -/
structure GeometryBytes where
  wLow : UInt8
  wHigh : UInt8
  hLow : UInt8
  hHigh : UInt8
deriving DecidableEq, Repr

/-- The calls that use the grid -/
inductive TermCall
  | gridInit
  | termPutc (ch : UInt8) (fg bg : UInt32)
  | termPuts (str : List UInt8) (fg bg : UInt32)
  /-- `update_geometry`, with what the ring has, if there is one -/
  | updateGeometry (ring : Option GeometryBytes)
  | termRender
deriving DecidableEq, Repr

namespace TermProgram

/-- The variables before `_start` -/
def start (fbOffset : ℤ) : TermProgram where
  fbOffset := fbOffset
  maxCols := 80
  maxRows := 24
  grid _ _ := ⟨0, 0, 0⟩
  rowDirty _ := false
  cursorX := 0
  cursorY := 0
  prevCursorX := 0
  prevCursorY := 0
  accesses := []

/-- An access -/
def touch (s : TermProgram) (a : GridAccess) : TermProgram := { s with accesses := s.accesses ++ [a] }

/-- A write to the three arrays at a position -/
def putCell (s : TermProgram) (row col : ℕ) (cell : TermCell) : TermProgram :=
  { s.touch (.cell row col) with grid := Function.update s.grid row (Function.update (s.grid row) col cell) }

/-- A copy from one row to another -/
def copyCell (s : TermProgram) (row src col : ℕ) : TermProgram :=
  (s.touch (.cell src col)).putCell row col (s.grid src col)

/-- A write to `row_dirty` -/
def setDirty (s : TermProgram) (row : ℕ) (dirty : Bool) : TermProgram :=
  { s.touch (.dirty row) with rowDirty := Function.update s.rowDirty row dirty }

/-- A row is blanked from a column on, up to another one. -/
def blankCells (s : TermProgram) (row col upTo : ℕ) : TermProgram :=
  (List.range' col (upTo - col)).foldl (fun t c => t.putCell row c .blank) s

/-- `grid_clear_row` -/
def gridClearRow (s : TermProgram) (r : ℕ) : TermProgram :=
  if s.maxRows ≤ r then s else (s.blankCells r 0 s.maxCols).setDirty r true

/-- `grid_init` -/
def gridInit (s : TermProgram) : TermProgram :=
  { (List.range termMaxRows).foldl (fun t r => (t.blankCells r 0 termMaxCols).setDirty r true) s with
    cursorX := 0
    cursorY := 0 }

/-- A row is copied, up to a column. -/
def copyRow (s : TermProgram) (row src upTo : ℕ) : TermProgram :=
  (List.range upTo).foldl (fun t c => t.copyCell row src c) s

/-- `term_scroll` -/
def termScroll (s : TermProgram) : TermProgram :=
  let s := (List.range (s.maxRows - 1)).foldl (fun t r => (t.copyRow r (r + 1) t.maxCols).setDirty r true) s
  let s := s.gridClearRow (s.maxRows - 1)
  { s with cursorY := s.maxRows - 1 }

/-- The cursor goes to the start of the next line in `term_putc`. -/
def newline (s : TermProgram) : TermProgram :=
  let s := { s with cursorX := 0, cursorY := s.cursorY + 1 }
  if s.maxRows ≤ s.cursorY then s.termScroll else s

/-- The loop for a tab in `term_putc` -/
def tabTo (s : TermProgram) (nextTab : ℕ) (fg bg : UInt32) : TermProgram :=
  if s.cursorX < nextTab ∧ s.cursorX < s.maxCols then
    tabTo { s.putCell s.cursorY s.cursorX ⟨0x20, fg, bg⟩ with cursorX := s.cursorX + 1 } nextTab fg bg
  else s
termination_by nextTab - s.cursorX

/-- `term_putc` -/
def termPutc (s : TermProgram) (ch : UInt8) (fg bg : UInt32) : TermProgram :=
  if ch = 0x0A then s.newline
  else if ch = 0x0D then { s with cursorX := 0 }
  else if ch = 0x08 then
    if 0 < s.cursorX then
      let s := { s with cursorX := s.cursorX - 1 }
      let s := s.putCell s.cursorY s.cursorX { s.grid s.cursorY s.cursorX with ch := 0x20 }
      s.setDirty s.cursorY true
    else s
  else if ch = 0x09 then
    let s := s.tabTo ((s.cursorX + 4) / 4 * 4) fg bg
    s.setDirty s.cursorY true
  else if 0x20 ≤ ch ∧ ch ≤ 0x7E then
    let s := if s.maxCols ≤ s.cursorX then s.newline else s
    let s := (s.putCell s.cursorY s.cursorX ⟨ch, fg, bg⟩).setDirty s.cursorY true
    { s with cursorX := s.cursorX + 1 }
  else s

/-- `term_puts` -/
def termPuts (s : TermProgram) : List UInt8 → UInt32 → UInt32 → TermProgram
  | [], _, _ => s
  | ch :: str, fg, bg => if ch = 0 then s else (s.termPutc ch fg bg).termPuts str fg bg

/-- A row that is to be drawn, in `term_render` -/
def renderRow (t : TermProgram) (r : ℕ) : TermProgram :=
  let t := t.touch (.dirty r)
  if t.rowDirty r then (List.range t.maxCols).foldl (fun t c => t.touch (.cell r c)) (t.setDirty r false) else t

/-- `term_render`, without the pixels -/
def termRender (s : TermProgram) : TermProgram :=
  if s.fbOffset < 0 then s
  else
    let s :=
      if s.prevCursorY < s.maxRows ∧ s.prevCursorX < s.maxCols then s.touch (.cell s.prevCursorY s.prevCursorX)
      else s
    let s := (List.range s.maxRows).foldl renderRow s
    if s.cursorY < s.maxRows ∧ s.cursorX < s.maxCols then
      { s.touch (.cell s.cursorY s.cursorX) with prevCursorX := s.cursorX, prevCursorY := s.cursorY }
    else s

/-- `max_cols` or `max_rows` for a size in pixels, in `update_geometry` -/
def cellsFor (pixels least most : ℕ) : ℕ :=
  let new := (pixels - 8 * 2) / 8
  let new := if most < new then most else new
  if new < least then least else new

/-- The geometry in `update_geometry` -/
def takeGeometry (s : TermProgram) : Option GeometryBytes → TermProgram
  | none => s
  | some bytes =>
    let cw := bytes.wLow.toNat ||| bytes.wHigh.toNat <<< 8
    let ch := bytes.hLow.toNat ||| bytes.hHigh.toNat <<< 8
    if 32 < cw ∧ 32 < ch then
      { s with maxCols := cellsFor cw 10 termMaxCols, maxRows := cellsFor ch 4 termMaxRows }
    else s

/-- The rows move up in `update_geometry`, until the cursor is in the last one. -/
def shiftRows (s : TermProgram) : TermProgram :=
  let shift := s.cursorY - (s.maxRows - 1)
  let s := (List.range s.maxRows).foldl (fun t r =>
    let t :=
      if r + shift < termMaxRows then t.copyRow r (r + shift) termMaxCols else t.blankCells r 0 termMaxCols
    t.setDirty r true) s
  { s with cursorY := s.maxRows - 1 }

/-- What is behind the cursor is blanked in `update_geometry`. -/
def clearBelow (s : TermProgram) : TermProgram :=
  let s := (List.range' (s.cursorY + 1) (termMaxRows - (s.cursorY + 1))).foldl (fun t r =>
    let t := t.blankCells r 0 termMaxCols
    if r < t.maxRows then t.setDirty r true else t) s
  if s.cursorY < termMaxRows then (s.blankCells s.cursorY s.cursorX termMaxCols).setDirty s.cursorY true
  else s

/-- `update_geometry` -/
def updateGeometry (s : TermProgram) (ring : Option GeometryBytes) : TermProgram :=
  let prevR := s.maxRows
  let prevC := s.maxCols
  let s := s.takeGeometry ring
  let scrolled := s.maxRows ≤ s.cursorY
  let s := (if scrolled then s.shiftRows else s).clearBelow
  if scrolled ∨ s.maxRows ≠ prevR ∨ s.maxCols ≠ prevC then
    ((List.range s.maxRows).foldl (fun t r => t.setDirty r true) s).termRender
  else s

/-- The state after a call -/
def step (s : TermProgram) : TermCall → TermProgram
  | .gridInit => s.gridInit
  | .termPutc ch fg bg => s.termPutc ch fg bg
  | .termPuts str fg bg => s.termPuts str fg bg
  | .updateGeometry ring => s.updateGeometry ring
  | .termRender => s.termRender

/-- What is claimed: the cursor is in a row that is in use, and no access was out of bounds. -/
def InBounds (s : TermProgram) : Prop := s.cursorY < s.maxRows ∧ ∀ a ∈ s.accesses, a.InArrays

/-- The geometry is that of a part of the arrays, and no access was out of bounds. -/
structure Shaped (s : TermProgram) : Prop where
  cols_pos : 0 < s.maxCols
  cols_le : s.maxCols ≤ termMaxCols
  rows_pos : 0 < s.maxRows
  rows_le : s.maxRows ≤ termMaxRows
  cursorX : s.cursorX ≤ termMaxCols
  accesses : ∀ a ∈ s.accesses, a.InArrays

/-- The invariant -/
structure Fits (s : TermProgram) : Prop extends Shaped s where
  cursorY : s.cursorY < s.maxRows

theorem Fits.inBounds {s : TermProgram} (h : s.Fits) : s.InBounds := ⟨h.cursorY, h.accesses⟩

/-! ## Writes that leave the cursor and the geometry -/

/-- From one state to another with the same geometry and the same cursor, without an access out of bounds -/
structure Onward (s t : TermProgram) : Prop where
  maxCols : t.maxCols = s.maxCols
  maxRows : t.maxRows = s.maxRows
  cursorX : t.cursorX = s.cursorX
  cursorY : t.cursorY = s.cursorY
  accesses : (∀ a ∈ s.accesses, a.InArrays) → ∀ a ∈ t.accesses, a.InArrays

section

variable {s t u : TermProgram}

theorem Onward.refl (s : TermProgram) : s.Onward s := ⟨rfl, rfl, rfl, rfl, id⟩

theorem Onward.trans (h : s.Onward t) (h' : t.Onward u) : s.Onward u :=
  ⟨h'.maxCols.trans h.maxCols, h'.maxRows.trans h.maxRows, h'.cursorX.trans h.cursorX,
    h'.cursorY.trans h.cursorY, fun hs => h'.accesses (h.accesses hs)⟩

theorem Onward.shaped (h : s.Onward t) (hs : s.Shaped) : t.Shaped where
  cols_pos := by rw [h.maxCols]; exact hs.cols_pos
  cols_le := by rw [h.maxCols]; exact hs.cols_le
  rows_pos := by rw [h.maxRows]; exact hs.rows_pos
  rows_le := by rw [h.maxRows]; exact hs.rows_le
  cursorX := by rw [h.cursorX]; exact hs.cursorX
  accesses := h.accesses hs.accesses

theorem Onward.fits (h : s.Onward t) (hs : s.Fits) : t.Fits :=
  ⟨h.shaped hs.toShaped, by rw [h.cursorY, h.maxRows]; exact hs.cursorY⟩

/-- The cursor goes to a row in use. -/
theorem Shaped.moveRow (h : s.Shaped) {row : ℕ} (hrow : row < s.maxRows) : Fits { s with cursorY := row } :=
  ⟨{ h with }, hrow⟩

/-- The cursor goes to another column. -/
theorem Fits.moveCol (h : s.Fits) {col : ℕ} (hcol : col ≤ termMaxCols) : Fits { s with cursorX := col } :=
  { h with cursorX := hcol }

/-- A loop whose turns go onward. -/
theorem Onward.foldl {A : Type*} {f : TermProgram → A → TermProgram} {as : List A}
    (h : ∀ t, s.Onward t → ∀ a ∈ as, t.Onward (f t a)) : s.Onward (as.foldl f s) :=
  List.foldlRecOn (motive := fun t => s.Onward t) as f (.refl s) fun t ht a ha => ht.trans (h t ht a ha)

theorem onward_touch {a : GridAccess} (ha : a.InArrays) : s.Onward (s.touch a) := by
  refine ⟨rfl, rfl, rfl, rfl, fun hs b hb => ?_⟩
  rcases List.mem_append.mp hb with hb | hb
  · exact hs b hb
  · exact List.mem_singleton.mp hb ▸ ha

theorem onward_putCell {row col : ℕ} (hrow : row < termMaxRows) (hcol : col < termMaxCols) (cell : TermCell) :
    s.Onward (s.putCell row col cell) :=
  (onward_touch (a := .cell row col) ⟨hrow, hcol⟩).trans ⟨rfl, rfl, rfl, rfl, id⟩

theorem onward_copyCell {row src col : ℕ} (hrow : row < termMaxRows) (hsrc : src < termMaxRows)
    (hcol : col < termMaxCols) : s.Onward (s.copyCell row src col) :=
  (onward_touch (a := .cell src col) ⟨hsrc, hcol⟩).trans (onward_putCell hrow hcol _)

theorem onward_setDirty {row : ℕ} (hrow : row < termMaxRows) (dirty : Bool) :
    s.Onward (s.setDirty row dirty) :=
  (onward_touch (a := .dirty row) hrow).trans ⟨rfl, rfl, rfl, rfl, id⟩

theorem onward_blankCells {row : ℕ} (hrow : row < termMaxRows) (col : ℕ) {upTo : ℕ} (hle : upTo ≤ termMaxCols) :
    s.Onward (s.blankCells row col upTo) := by
  refine Onward.foldl fun t _ c hc => onward_putCell hrow ?_ _
  have := List.mem_range'_1.mp hc
  omega

theorem onward_copyRow {row src : ℕ} (hrow : row < termMaxRows) (hsrc : src < termMaxRows) {upTo : ℕ}
    (hle : upTo ≤ termMaxCols) : s.Onward (s.copyRow row src upTo) := by
  refine Onward.foldl fun t _ c hc => onward_copyCell hrow hsrc ?_
  have := List.mem_range.mp hc
  omega

theorem onward_gridClearRow (h : s.Shaped) (r : ℕ) : s.Onward (s.gridClearRow r) := by
  have hrows := h.rows_le
  unfold gridClearRow
  split
  · exact .refl s
  · have hr : r < termMaxRows := by omega
    exact (onward_blankCells hr 0 h.cols_le).trans (onward_setDirty hr true)

/-! ## Calls -/

/-- The fresh grid -/
theorem fits_gridInit (h : s.Fits) : s.gridInit.Fits := by
  unfold gridInit
  have hrows : s.Onward ((List.range termMaxRows).foldl
      (fun t r => (t.blankCells r 0 termMaxCols).setDirty r true) s) := by
    refine Onward.foldl fun t _ r hr => ?_
    have hr := List.mem_range.mp hr
    exact (onward_blankCells hr 0 le_rfl).trans (onward_setDirty hr true)
  generalize (List.range termMaxRows).foldl _ s = t at hrows ⊢
  exact ((hrows.fits h).moveCol (Nat.zero_le _)).moveRow (hrows.shaped h.toShaped).rows_pos

/-- The rows of `term_scroll` -/
theorem onward_scrollRows (h : s.Shaped) : s.Onward ((List.range (s.maxRows - 1)).foldl
    (fun t r => (t.copyRow r (r + 1) t.maxCols).setDirty r true) s) := by
  have hle := h.rows_le
  refine Onward.foldl fun t ht r hr => ?_
  have hr := List.mem_range.mp hr
  have hcols : t.maxCols ≤ termMaxCols := ht.maxCols ▸ h.cols_le
  exact (onward_copyRow (by omega) (by omega) hcols).trans (onward_setDirty (by omega) true)

/-- A scroll with the cursor anywhere: it is in the last row afterwards. -/
theorem fits_termScroll (h : s.Shaped) :
    s.termScroll.Fits ∧ s.termScroll.cursorX = s.cursorX ∧ s.termScroll.maxCols = s.maxCols := by
  unfold termScroll
  dsimp only
  have hrows := onward_scrollRows h
  generalize (List.range (s.maxRows - 1)).foldl _ s = t at hrows ⊢
  have hall := hrows.trans (onward_gridClearRow (hrows.shaped h) (t.maxRows - 1))
  have hshaped := hall.shaped h
  exact ⟨hshaped.moveRow (Nat.sub_one_lt_of_lt hshaped.rows_pos), hall.cursorX, hall.maxCols⟩

/-- A new line. The row behind the last one is left by the scroll before anything is written. -/
theorem fits_newline (h : s.Fits) :
    s.newline.Fits ∧ s.newline.cursorX = 0 ∧ s.newline.maxCols = s.maxCols := by
  unfold newline
  dsimp only
  split
  · obtain ⟨hfits, hx, hcols⟩ := fits_termScroll (s := { s with cursorX := 0, cursorY := s.cursorY + 1 })
      { h.toShaped with cursorX := Nat.zero_le _ }
    exact ⟨hfits, hx, hcols⟩
  · rename_i hlt
    exact ⟨(h.moveCol (Nat.zero_le _)).moveRow (not_le.mp hlt), rfl, rfl⟩

/-- The row of the cursor is one of the arrays. -/
theorem Fits.row_lt (h : s.Fits) : s.cursorY < termMaxRows := h.cursorY.trans_le h.rows_le

/-- The cells up to the next tab stop -/
theorem fits_tabTo (h : s.Fits) (nextTab : ℕ) (fg bg : UInt32) : (s.tabTo nextTab fg bg).Fits := by
  fun_induction tabTo s nextTab fg bg with
  | case1 s hlt ih =>
    have hcols := h.cols_le
    refine ih (((onward_putCell h.row_lt (by omega) _).fits h).moveCol ?_)
    omega
  | case2 s hend => exact h

/-- A character is put left of the end. -/
theorem Fits.put (h : s.Fits) (hcol : s.cursorX < termMaxCols) (cell : TermCell) :
    Fits { (s.putCell s.cursorY s.cursorX cell).setDirty s.cursorY true with cursorX := s.cursorX + 1 } :=
  (((onward_putCell h.row_lt hcol cell).trans (onward_setDirty h.row_lt true)).fits h).moveCol hcol

/-- A byte -/
theorem fits_termPutc (h : s.Fits) (ch : UInt8) (fg bg : UInt32) : (s.termPutc ch fg bg).Fits := by
  have hx := h.cursorX
  have hcols := h.cols_le
  unfold termPutc
  split_ifs with hnl hcr hbs hpos htab hprint hwrap
  · exact (fits_newline h).1
  · exact h.moveCol (Nat.zero_le _)
  · have hmoved : Fits { s with cursorX := s.cursorX - 1 } := h.moveCol (by omega)
    exact ((onward_putCell hmoved.row_lt (by dsimp only; omega) _).trans
      (onward_setDirty hmoved.row_lt true)).fits hmoved
  · exact h
  · have htabbed := fits_tabTo h ((s.cursorX + 4) / 4 * 4) fg bg
    exact (onward_setDirty htabbed.row_lt true).fits htabbed
  · obtain ⟨hfits, hzero, -⟩ := fits_newline h
    exact hfits.put (by rw [hzero]; decide) ⟨ch, fg, bg⟩
  · exact h.put (by omega) ⟨ch, fg, bg⟩
  · exact h

theorem fits_termPuts (h : s.Fits) (str : List UInt8) (fg bg : UInt32) : (s.termPuts str fg bg).Fits := by
  induction str generalizing s with
  | nil => exact h
  | cons ch str ih =>
    unfold termPuts
    split
    · exact h
    · exact ih (fits_termPutc h ch fg bg)

/-! ### Rendering -/

theorem onward_renderRow (hcols : s.maxCols ≤ termMaxCols) {r : ℕ} (hr : r < termMaxRows) :
    s.Onward (s.renderRow r) := by
  have hfirst := onward_touch (s := s) (a := .dirty r) hr
  unfold renderRow
  dsimp only
  split
  · have hsecond := hfirst.trans (onward_setDirty hr false)
    refine hsecond.trans (Onward.foldl fun t _ c hc => onward_touch ⟨hr, ?_⟩)
    have hc := List.mem_range.mp hc
    rw [hfirst.maxCols] at hc
    omega
  · exact hfirst

/-- The grid is drawn, with the cursor. -/
theorem fits_termRender (h : s.Fits) : s.termRender.Fits := by
  have hcols := h.cols_le
  have hrows := h.rows_le
  unfold termRender
  split
  · exact h
  · have hprev : s.Onward
        (if s.prevCursorY < s.maxRows ∧ s.prevCursorX < s.maxCols then s.touch (.cell s.prevCursorY s.prevCursorX)
        else s) := by
      split
      · exact onward_touch ⟨by omega, by omega⟩
      · exact .refl s
    dsimp only
    generalize (if s.prevCursorY < s.maxRows ∧ s.prevCursorX < s.maxCols then
      s.touch (.cell s.prevCursorY s.prevCursorX) else s) = t at hprev ⊢
    have hdraw : t.Onward ((List.range t.maxRows).foldl renderRow t) := by
      refine Onward.foldl fun u hu r hr => onward_renderRow ?_ ?_
      · rw [hu.maxCols, hprev.maxCols]
        exact hcols
      · have hr := List.mem_range.mp hr
        rw [hprev.maxRows] at hr
        omega
    have hall := (hprev.trans hdraw).fits h
    generalize (List.range t.maxRows).foldl renderRow t = u at hall ⊢
    split
    · rename_i hin
      have hcur := onward_touch (s := u) (a := .cell u.cursorY u.cursorX)
        ⟨hall.row_lt, hin.2.trans_le hall.cols_le⟩
      exact { hcur.fits hall with }
    · exact hall

/-! ### The geometry -/

/-- A size is cut down to what the arrays have. -/
theorem cellsFor_le (pixels : ℕ) {least most : ℕ} (h : least ≤ most) : cellsFor pixels least most ≤ most := by
  unfold cellsFor
  dsimp only
  split_ifs <;> omega

theorem le_cellsFor (pixels : ℕ) (least most : ℕ) : least ≤ cellsFor pixels least most := by
  unfold cellsFor
  dsimp only
  split_ifs <;> omega

/-- Any bytes give a geometry of a part of the arrays. The cursor may be outside of it. -/
theorem shaped_takeGeometry (h : s.Fits) (ring : Option GeometryBytes) :
    (s.takeGeometry ring).Shaped ∧ (s.takeGeometry ring).cursorY < termMaxRows := by
  unfold takeGeometry
  split
  · exact ⟨h.toShaped, h.row_lt⟩
  · dsimp only
    split
    · refine ⟨{ h.toShaped with cols_pos := ?_, cols_le := ?_, rows_pos := ?_, rows_le := ?_ }, h.row_lt⟩
      · exact (by decide : 0 < 10).trans_le (le_cellsFor _ _ _)
      · exact cellsFor_le _ (by decide)
      · exact (by decide : 0 < 4).trans_le (le_cellsFor _ _ _)
      · exact cellsFor_le _ (by decide)
    · exact ⟨h.toShaped, h.row_lt⟩

/-- The rows move up until the cursor is in one of them. -/
theorem fits_shiftRows (h : s.Shaped) : s.shiftRows.Fits := by
  have hle := h.rows_le
  unfold shiftRows
  dsimp only
  generalize s.cursorY - (s.maxRows - 1) = shift
  have hrows : s.Onward ((List.range s.maxRows).foldl (fun t r =>
      (if r + shift < termMaxRows then t.copyRow r (r + shift) termMaxCols
      else t.blankCells r 0 termMaxCols).setDirty r true) s) := by
    refine Onward.foldl fun t _ r hr => ?_
    have hr := List.mem_range.mp hr
    have hr' : r < termMaxRows := by omega
    split
    · rename_i hsrc
      exact (onward_copyRow hr' hsrc le_rfl).trans (onward_setDirty hr' true)
    · exact (onward_blankCells hr' 0 le_rfl).trans (onward_setDirty hr' true)
  generalize (List.range s.maxRows).foldl _ s = t at hrows ⊢
  have hshaped := hrows.shaped h
  exact hshaped.moveRow (Nat.sub_one_lt_of_lt hshaped.rows_pos)

/-- What is behind the cursor is blanked. -/
theorem fits_clearBelow (h : s.Fits) : s.clearBelow.Fits := by
  have hle := h.rows_le
  unfold clearBelow
  dsimp only
  have hrows : s.Onward ((List.range' (s.cursorY + 1) (termMaxRows - (s.cursorY + 1))).foldl (fun t r =>
      if r < (t.blankCells r 0 termMaxCols).maxRows then (t.blankCells r 0 termMaxCols).setDirty r true
      else t.blankCells r 0 termMaxCols) s) := by
    refine Onward.foldl fun t _ r hr => ?_
    have hr := List.mem_range'_1.mp hr
    have hr' : r < termMaxRows := by omega
    have hblank := onward_blankCells (s := t) hr' 0 le_rfl
    split
    · exact hblank.trans (onward_setDirty hr' true)
    · exact hblank
  generalize (List.range' (s.cursorY + 1) (termMaxRows - (s.cursorY + 1))).foldl _ s = t at hrows ⊢
  have hfits := hrows.fits h
  rw [if_pos hfits.row_lt]
  exact ((onward_blankCells hfits.row_lt t.cursorX le_rfl).trans (onward_setDirty hfits.row_lt true)).fits hfits

/-- Any geometry, at any time -/
theorem fits_updateGeometry (h : s.Fits) (ring : Option GeometryBytes) : (s.updateGeometry ring).Fits := by
  obtain ⟨hshaped, -⟩ := shaped_takeGeometry h ring
  unfold updateGeometry
  dsimp only
  generalize s.takeGeometry ring = t at hshaped ⊢
  have hin : (if t.maxRows ≤ t.cursorY then t.shiftRows else t).Fits := by
    split
    · exact fits_shiftRows hshaped
    · rename_i hlt
      exact ⟨hshaped, not_le.mp hlt⟩
  have hclear := fits_clearBelow hin
  generalize (if t.maxRows ≤ t.cursorY then t.shiftRows else t).clearBelow = u at hclear ⊢
  split
  · refine fits_termRender (Onward.fits (Onward.foldl fun v _ r hr => onward_setDirty ?_ true) hclear)
    exact (List.mem_range.mp hr).trans_le hclear.rows_le
  · exact hclear

/-! ## Runs -/

/-- Every call keeps the invariant. -/
theorem fits_step (h : s.Fits) (call : TermCall) : (s.step call).Fits := by
  cases call with
  | gridInit => exact fits_gridInit h
  | termPutc ch fg bg => exact fits_termPutc h ch fg bg
  | termPuts str fg bg => exact fits_termPuts h str fg bg
  | updateGeometry ring => exact fits_updateGeometry h ring
  | termRender => exact fits_termRender h

end

theorem fits_start (fbOffset : ℤ) : (start fbOffset).Fits where
  cols_pos := Nat.succ_pos 79
  cols_le := Nat.le_add_right 80 120
  rows_pos := Nat.succ_pos 23
  rows_le := Nat.le_add_right 24 104
  cursorX := Nat.zero_le _
  cursorY := Nat.succ_pos 23
  accesses _ ha := absurd ha List.not_mem_nil

/-- In every sequence of calls with any bytes and any geometries, the cursor is in a row that is in use after
each call, and every access is to a row and a column that there is. -/
theorem grid_in_bounds (fbOffset : ℤ) (calls : List TermCall) :
    Runs.Always step InBounds (start fbOffset) calls := by
  have hall : Runs.Always step Fits (start fbOffset) calls :=
    Runs.always_of_along (P := Fits) (C := fun _ _ => True) (fun s call h _ => fits_step h call)
      (fits_start fbOffset) (Runs.along_of_forall (fun _ _ _ => trivial) _)
  exact hall.mono fun s h => h.inBounds

end TermProgram

end Sandflea
