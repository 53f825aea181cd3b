import Sandflea.Terminal.PlainText

/-!
# What CSI sequences do

The cursor movements, the erasures, the saved cursor and the private modes 25 and 1049 of the ANSI parser,
against what the sequences are meant to do (`reference`): there a parameter is a number of any size, moves
end at the edges, a missing parameter of an erasure is 0, and mode 25 shows the cursor.

The parser differs in four ways. It keeps parameters in 16 bits, and so does `ansi_execute` with the sum of
a move; it takes a missing or zero parameter for 1 in the erasures too; it hides the cursor when mode 25 is
set and shows it when that is reset; and `ESC[?1049l` moves the cursor to the position that was last saved
with `ESC[s`. `csi_semantics_iff` gives the exact condition for each command.
-/

namespace Sandflea

open Console

/-! ## Sequences -/

/-- The commands, with the final bytes `H f A B C D J K s u`, and `h` and `l` without and with the private
marker. -/
inductive CsiCommand
  | cup | hvp | cuu | cud | cuf | cub | ed | el | scp | rcp | setMode | resetMode | decset | decrst
deriving DecidableEq, Repr

/-- A CSI sequence: a command and the digits of its parameters. -/
structure Csi where
  command : CsiCommand
  params : List (List (Fin 10))
deriving DecidableEq, Repr

/-- The final byte of a sequence. -/
def CsiCommand.final : CsiCommand → UInt8
  | .cup => 72
  | .hvp => 102
  | .cuu => 65
  | .cud => 66
  | .cuf => 67
  | .cub => 68
  | .ed => 74
  | .el => 75
  | .scp => 115
  | .rcp => 117
  | .setMode | .decset => 104
  | .resetMode | .decrst => 108

/-- The sequence has the marker `?`. -/
def CsiCommand.isPrivate : CsiCommand → Bool
  | .decset | .decrst => true
  | _ => false

/-- The digits of a parameter. -/
def digitBytes (ds : List (Fin 10)) : List UInt8 := ds.map fun d => .ofNat (48 + d.val)

/-- The parameters, with `;` between them. -/
def paramBytes : List (List (Fin 10)) → List UInt8
  | [] => []
  | ds :: rest => digitBytes ds ++ rest.flatMap fun ds => 59 :: digitBytes ds

/-- The bytes of a sequence. -/
def Csi.bytes (q : Csi) : List UInt8 :=
  [27, 91] ++ (if q.command.isPrivate then [63] else []) ++ paramBytes q.params ++ [q.command.final]

/-- The number that digits stand for. -/
def digitsValue (ds : List (Fin 10)) : ℕ := ds.foldl (fun v (d : Fin 10) => v * 10 + d.val) 0

/-- The parameters as numbers. -/
def Csi.values (q : Csi) : List ℕ := q.params.map digitsValue

/-- A parameter, of which 0 stands for a missing one. -/
def Csi.param (q : Csi) (i : ℕ) : ℕ := q.values.getD i 0

/-- The bytes of a sequence are written to a terminal. -/
def Csi.send (q : Csi) (c : Console) : Console := ansiPutcs (pushLineAt 2) q.bytes c

/-! ## What the sequences are meant to do -/

/-- What a terminal shows, and its saved cursor. -/
structure Screen where
  cells : ℕ → Cell
  cursorX : ℕ
  cursorY : ℕ
  visible : Bool
  savedX : ℕ
  savedY : ℕ

/-- The screen of a session. -/
def TermSession.screen (s : TermSession) : Screen :=
  ⟨s.cells, s.cursorX, s.cursorY, s.cursorVisible, s.savedCursorX, s.savedCursorY⟩

namespace Screen

/-- Two screens of a grid are the same. -/
structure Same (g : Grid) (s t : Screen) : Prop where
  cells : ∀ i < g.size, s.cells i = t.cells i
  cursorX : s.cursorX = t.cursorX
  cursorY : s.cursorY = t.cursorY
  visible : s.visible = t.visible
  savedX : s.savedX = t.savedX
  savedY : s.savedY = t.savedY

def moveTo (s : Screen) (x y : ℕ) : Screen := { s with cursorX := x, cursorY := y }

/-- Some cells are cleared. -/
def erase (s : Screen) (P : ℕ → Bool) : Screen :=
  { s with cells := fun i => if P i then .blank else s.cells i }

end Screen

/-- The cells that an erasure in the display clears, with the cursor at (`x`, `y`): from the cursor on, up to
the cursor, or all. -/
def edErases (g : Grid) (x y : ℕ) : ℕ → ℕ → Bool
  | 0, i => y * g.cols + x ≤ i
  | 1, i => i ≤ y * g.cols + x
  | 2, _ => true
  | _, _ => false

/-- The cells that an erasure in the line clears. -/
def elErases (g : Grid) (x y : ℕ) : ℕ → ℕ → Bool
  | 0, i => y * g.cols + x ≤ i && i < (y + 1) * g.cols
  | 1, i => y * g.cols ≤ i && i ≤ y * g.cols + x
  | 2, i => y * g.cols ≤ i && i < (y + 1) * g.cols
  | _, _ => false

/-- What a sequence is meant to do. Mode 1049 is described by `ScreenRestored`. -/
def reference (g : Grid) (q : Csi) (s : Screen) : Screen :=
  let n := max 1 (q.param 0)
  match q.command with
  | .cup | .hvp => s.moveTo (min (max 1 (q.param 1) - 1) (g.cols - 1)) (min (n - 1) (g.rows - 1))
  | .cuu => s.moveTo s.cursorX (s.cursorY - n)
  | .cud => s.moveTo s.cursorX (min (s.cursorY + n) (g.rows - 1))
  | .cuf => s.moveTo (min (s.cursorX + n) (g.cols - 1)) s.cursorY
  | .cub => s.moveTo (s.cursorX - n) s.cursorY
  | .ed => s.erase (edErases g s.cursorX s.cursorY (q.param 0))
  | .el => s.erase (elErases g s.cursorX s.cursorY (q.param 0))
  | .scp => { s with savedX := s.cursorX, savedY := s.cursorY }
  | .rcp => s.moveTo s.savedX s.savedY
  | .setMode | .resetMode => s
  | .decset => if 25 ∈ q.values then { s with visible := true } else s
  | .decrst => if 25 ∈ q.values then { s with visible := false } else s

/-- A sequence does to the screen of a terminal what it is meant to do. -/
def MeetsReference (c : Console) (q : Csi) : Prop :=
  (q.send c).session.screen.Same c.session.grid (reference c.session.grid q c.session.screen)

/-- The cells and the cursor are, after output in between, what they were at `ESC[?1049h`. -/
def ScreenRestored (c c' : Console) : Prop :=
  (∀ i < c.session.grid.size, c'.session.cells i = c.session.cells i) ∧
    c'.session.cursorX = c.session.cursorX ∧ c'.session.cursorY = c.session.cursorY

/-! ## The parser -/

theorem foldl_u16 (ds : List (Fin 10)) (v : ℕ) :
    ds.foldl (fun v (d : Fin 10) => u16 (v * 10 + d.val)) (u16 v) =
      u16 (ds.foldl (fun v (d : Fin 10) => v * 10 + d.val) v) := by
  induction ds generalizing v with
  | nil => rfl
  | cons d ds ih =>
    rw [List.foldl_cons, List.foldl_cons, ← ih]
    congr 1
    unfold u16
    omega

section Parser

variable {pushLine : List UInt8 → Console → Console} {c : Console}

theorem ansiPutcs_append (xs ys : List UInt8) (c : Console) :
    ansiPutcs pushLine (xs ++ ys) c = ansiPutcs pushLine ys (ansiPutcs pushLine xs c) :=
  List.foldl_append

theorem ansiPutcs_cons (x : UInt8) (xs : List UInt8) (c : Console) :
    ansiPutcs pushLine (x :: xs) c = ansiPutcs pushLine xs (ansiPutc pushLine x c) := rfl

/-- A digit goes into the current parameter. -/
theorem ansiPutc_digit (hs : c.parser.state = .csi) (d : Fin 10) :
    ansiPutc pushLine (.ofNat (48 + d.val)) c = { c with parser := { c.parser with
      params := Function.update c.parser.params c.parser.paramCount
        (u16 (c.parser.params c.parser.paramCount * 10 + d.val)) } } := by
  have hbyte : (UInt8.ofNat (48 + d.val)).toNat = 48 + d.val := by
    rw [UInt8.toNat_ofNat', Nat.mod_eq_of_lt (by omega)]
  have hdigit : 48 ≤ UInt8.ofNat (48 + d.val) ∧ UInt8.ofNat (48 + d.val) ≤ 57 := by
    rw [UInt8.le_iff_toNat_le, UInt8.le_iff_toNat_le, hbyte]
    have h48 : (48 : UInt8).toNat = 48 := rfl
    have h57 : (57 : UInt8).toNat = 57 := rfl
    omega
  unfold ansiPutc
  dsimp only
  rw [hs]
  dsimp only
  rw [if_pos hdigit, hbyte, Nat.add_sub_cancel_left]

theorem ansiPutcs_digits (ds : List (Fin 10)) : ∀ {c : Console}, c.parser.state = .csi →
    ansiPutcs pushLine (digitBytes ds) c = { c with parser := { c.parser with
      params := Function.update c.parser.params c.parser.paramCount
        (ds.foldl (fun v (d : Fin 10) => u16 (v * 10 + d.val))
          (c.parser.params c.parser.paramCount)) } } := by
  induction ds with
  | nil =>
    intro c _
    rw [List.foldl_nil, Function.update_eq_self]
    rfl
  | cons d ds ih =>
    intro c hs
    unfold digitBytes at ih ⊢
    rw [List.map_cons, ansiPutcs_cons, ansiPutc_digit hs, ih]
    · dsimp only
      rw [Function.update_idem, Function.update_self, List.foldl_cons]
    · exact hs

/-- A separator moves to the next parameter, and stays at the last. -/
theorem ansiPutc_separator (hs : c.parser.state = .csi) : ansiPutc pushLine 59 c =
    { c with parser := { c.parser with
      paramCount := if c.parser.paramCount < 15 then c.parser.paramCount + 1 else c.parser.paramCount } } := by
  unfold ansiPutc
  dsimp only
  rw [hs]
  dsimp only
  rw [if_neg (by decide), if_pos rfl, ← hs]
  split <;> rfl

/-- More parameters leave those before alone. -/
theorem ansiPutcs_params (rest : List (List (Fin 10))) : ∀ {c : Console}, c.parser.state = .csi →
    ∃ p, ansiPutcs pushLine (rest.flatMap fun ds => 59 :: digitBytes ds) c = { c with parser := p } ∧
      p.state = .csi ∧ p.privateMarker = c.parser.privateMarker ∧
      ∀ j ≤ c.parser.paramCount, j < 15 → p.params j = c.parser.params j := by
  induction rest with
  | nil => exact fun {c} hs => ⟨c.parser, rfl, hs, rfl, fun _ _ _ => rfl⟩
  | cons ds rest ih =>
    intro c hs
    rw [List.flatMap_cons, List.cons_append, ansiPutcs_cons, ansiPutc_separator hs, ansiPutcs_append,
      ansiPutcs_digits]
    swap
    · exact hs
    generalize hcount : (if c.parser.paramCount < 15 then c.parser.paramCount + 1
      else c.parser.paramCount) = k
    dsimp only
    obtain ⟨p, hrun, hp, hpriv, hparams⟩ := @ih { c with parser := { c.parser with
      paramCount := k
      params := Function.update c.parser.params k (ds.foldl (fun v (d : Fin 10) => u16 (v * 10 + d.val))
        (c.parser.params k)) } } hs
    refine ⟨p, hrun, hp, hpriv, fun j hj hlt => ?_⟩
    have hjk : j ≤ k ∧ j ≠ k := by split at hcount <;> omega
    rw [hparams j hjk.1 hlt]
    exact Function.update_of_ne hjk.2 _ _

/-- The parameters of a sequence, in 16 bits. -/
theorem ansiPutcs_paramBytes (params : List (List (Fin 10))) (hs : c.parser.state = .csi)
    (hcount : c.parser.paramCount = 0) (hzero : ∀ j, c.parser.params j = 0) :
    ∃ p, ansiPutcs pushLine (paramBytes params) c = { c with parser := p } ∧ p.state = .csi ∧
      p.privateMarker = c.parser.privateMarker ∧
      ∀ j < 2, p.params j = u16 ((params.map digitsValue).getD j 0) := by
  have hvalue : ∀ ds : List (Fin 10),
      ds.foldl (fun v (d : Fin 10) => u16 (v * 10 + d.val)) 0 = u16 (digitsValue ds) := fun ds =>
    foldl_u16 ds 0
  cases params with
  | nil =>
    refine ⟨c.parser, rfl, hs, rfl, fun j _ => ?_⟩
    rw [hzero]
    rfl
  | cons ds rest =>
    unfold paramBytes
    rw [ansiPutcs_append, ansiPutcs_digits ds hs, hcount, hzero, hvalue]
    cases rest with
    | nil =>
      refine ⟨_, rfl, hs, rfl, fun j hj => ?_⟩
      dsimp only
      obtain rfl | rfl : j = 0 ∨ j = 1 := by omega
      · exact Function.update_self _ _ _
      · rw [Function.update_of_ne Nat.one_ne_zero, hzero]
        rfl
    | cons ds' rest =>
      rw [List.flatMap_cons, List.cons_append, ansiPutcs_cons, ansiPutc_separator, ansiPutcs_append,
        ansiPutcs_digits]
      rotate_left
      · exact hs
      · exact hs
      dsimp only
      rw [hcount, if_pos (by decide), Function.update_of_ne Nat.one_ne_zero, hzero, hvalue]
      obtain ⟨p, hrun, hp, hpriv, hparams⟩ := @ansiPutcs_params pushLine rest
        { c with parser := { c.parser with
          paramCount := 0 + 1
          params := Function.update (Function.update c.parser.params 0 (u16 (digitsValue ds))) (0 + 1)
            (u16 (digitsValue ds')) } } hs
      refine ⟨p, hrun, hp, hpriv, fun j hj => ?_⟩
      have hle : j ≤ 0 + 1 := by omega
      rw [hparams j hle (by omega)]
      dsimp only
      obtain rfl | rfl : j = 0 ∨ j = 1 := by omega
      · rw [Function.update_of_ne Nat.zero_ne_one, Function.update_self]
        rfl
      · exact Function.update_self _ _ _

/-- A sequence is executed with its parameters in 16 bits. -/
theorem ansiPutcs_bytes (q : Csi) (hs : c.parser.state = .ground) :
    ∃ p, ansiPutcs pushLine q.bytes c =
        { ansiExecute { c with parser := p } with
          parser := (ansiExecute { c with parser := p }).parser.restart .ground } ∧
      p.finalByte = q.command.final ∧ p.privateMarker = q.command.isPrivate ∧
      ∀ j < 2, p.params j = u16 (q.param j) := by
  unfold Csi.bytes
  rw [ansiPutcs_append, ansiPutcs_append, ansiPutcs_append]
  -- the start of the sequence
  have hstart : ansiPutcs pushLine [27, 91] c =
      { c with parser := { c.parser.restart .esc with state := .csi } } := by
    rw [ansiPutcs_cons, ansiPutcs_cons]
    have hesc : ansiPutc pushLine 27 c = { c with parser := c.parser.restart .esc } := by
      unfold ansiPutc
      dsimp only
      rw [hs]
      rfl
    rw [hesc]
    rfl
  have hmarker : ansiPutcs pushLine (if q.command.isPrivate then [63] else [])
      { c with parser := { c.parser.restart .esc with state := .csi } } =
      { c with parser := { c.parser.restart .esc with
        state := .csi
        privateMarker := q.command.isPrivate } } := by
    cases q.command.isPrivate <;> rfl
  rw [hstart, hmarker]
  obtain ⟨p, hrun, hp, hpriv, hparams⟩ := @ansiPutcs_paramBytes pushLine
    { c with parser := { c.parser.restart .esc with
      state := .csi
      privateMarker := q.command.isPrivate } } q.params rfl rfl fun _ => rfl
  rw [hrun]
  refine ⟨{ p with finalByte := q.command.final }, ?_, rfl, hpriv, hparams⟩
  rw [ansiPutcs_cons]
  unfold ansiPutc
  dsimp only
  rw [hp]
  dsimp only
  cases q.command <;> rfl

end Parser

/-! ## The commands -/

/-- The first parameter as `ansi_execute` sees it. -/
def wrapped (n : ℕ) : ℕ := if n % 2 ^ 16 = 0 then 1 else n % 2 ^ 16

theorem csiParam_eq {p : AnsiParser} {n j : ℕ} (h : p.params j = u16 n) : csiParam p j = wrapped n := by
  unfold csiParam wrapped
  rw [h]
  rfl

theorem wrapped_of_lt {n : ℕ} (h : n < 2 ^ 16) : wrapped n = max 1 n := by
  unfold wrapped
  rw [Nat.mod_eq_of_lt h]
  split <;> omega

theorem wrapped_pos (n : ℕ) : 1 ≤ wrapped n := by
  unfold wrapped
  split <;> omega

theorem wrapped_lt (n : ℕ) : wrapped n < 2 ^ 16 := by
  unfold wrapped
  split <;> omega

/-- The exact condition under which a sequence does what it is meant to do. -/
def Csi.Holds (c : Console) (q : Csi) : Prop :=
  let s := c.session
  let g := s.grid
  let w := wrapped (q.param 0)
  match q.command with
  | .cup | .hvp =>
    (q.param 0 < 2 ^ 16 ∨ g.rows ≤ w) ∧ (q.param 1 < 2 ^ 16 ∨ g.cols ≤ wrapped (q.param 1))
  | .cuu => q.param 0 < 2 ^ 16 ∨ s.cursorY ≤ w
  | .cub => q.param 0 < 2 ^ 16 ∨ s.cursorX ≤ w
  | .cud => q.param 0 < 2 ^ 16 ∧ s.cursorY + w < 2 ^ 16 ∨ g.rows - 1 ≤ u16 (s.cursorY + w)
  | .cuf => q.param 0 < 2 ^ 16 ∧ s.cursorX + w < 2 ^ 16 ∨ g.cols - 1 ≤ u16 (s.cursorX + w)
  | .ed => ∀ i < g.size, edErases g s.cursorX s.cursorY (q.param 0) i ≠
      edErases g s.cursorX s.cursorY w i → s.cells i = .blank
  | .el => ∀ i < g.size, elErases g s.cursorX s.cursorY (q.param 0) i ≠
      elErases g s.cursorX s.cursorY w i → s.cells i = .blank
  | .scp | .rcp | .setMode | .resetMode => True
  | .decset =>
    (if 25 ∈ q.values then w ≠ 25 ∧ s.cursorVisible = true else w = 25 → s.cursorVisible = false) ∧
      (w = 1049 → s.altCells = none ∧ c.kmallocOk = false ∨
        (∀ i < g.size, s.cells i = .blank) ∧ s.cursorX = 0 ∧ s.cursorY = 0)
  | .decrst =>
    (if 25 ∈ q.values then w ≠ 25 ∧ s.cursorVisible = false else w = 25 → s.cursorVisible = true) ∧
      (w = 1049 → ∀ alt, s.altCells = some alt →
        (∀ i < g.size, alt i = s.cells i) ∧ s.savedCursorX = s.cursorX ∧ s.savedCursorY = s.cursorY)

/-- What `ansi_execute` does for a sequence, with its parameters in 16 bits. -/
def Csi.execute (q : Csi) (c : Console) : Console :=
  let s := c.session
  let w := wrapped (q.param 0)
  match q.command with
  | .cup | .hvp =>
    c.moveTo (min (wrapped (q.param 1) - 1) (s.grid.cols - 1)) (min (w - 1) (s.grid.rows - 1))
  | .cuu => c.moveTo s.cursorX (if w ≤ s.cursorY then s.cursorY - w else 0)
  | .cud => c.moveTo s.cursorX (min (u16 (s.cursorY + w)) (s.grid.rows - 1))
  | .cuf => c.moveTo (min (u16 (s.cursorX + w)) (s.grid.cols - 1)) s.cursorY
  | .cub => c.moveTo (if w ≤ s.cursorX then s.cursorX - w else 0) s.cursorY
  | .ed => eraseInDisplay w c
  | .el => eraseInLine w c
  | .scp => { c with session := { s with savedCursorX := s.cursorX, savedCursorY := s.cursorY } }
  | .rcp => c.moveTo s.savedCursorX s.savedCursorY
  | .setMode | .resetMode => c
  | .decset =>
    if w = 25 then { c with session := { s with cursorVisible := false } }
    else if w = 1049 then enterAltScreen c
    else c
  | .decrst =>
    if w = 25 then { c with session := { s with cursorVisible := true } }
    else if w = 1049 then leaveAltScreen c
    else c

/-- The parser does not matter to what is done. -/
theorem execute_keeps (c : Console) (p : AnsiParser) :
    (∀ w, (eraseInDisplay w { c with parser := p }).session = (eraseInDisplay w c).session) ∧
      (∀ w, (eraseInLine w { c with parser := p }).session = (eraseInLine w c).session) ∧
      (enterAltScreen { c with parser := p }).session = (enterAltScreen c).session ∧
      (leaveAltScreen { c with parser := p }).session = (leaveAltScreen c).session := by
  refine ⟨fun w => ?_, fun w => ?_, ?_, ?_⟩
  · unfold eraseInDisplay
    dsimp only
    split_ifs <;> rfl
  · unfold eraseInLine
    dsimp only
    split_ifs <;> rfl
  · unfold enterAltScreen
    dsimp only
    split
    · rfl
    · have hk : ({ c with parser := p } : Console).kmallocOk = c.kmallocOk := rfl
      rw [hk]
      split <;> rfl
  · unfold leaveAltScreen
    dsimp only
    split <;> rfl

/-- The session after a sequence. -/
theorem send_session (q : Csi) {c : Console} (hs : c.parser.state = .ground) :
    (q.send c).session = (q.execute c).session := by
  obtain ⟨p, hrun, hfinal, hpriv, hparams⟩ := @ansiPutcs_bytes (pushLineAt 2) c q hs
  have h0 := csiParam_eq (hparams 0 (by decide))
  have h1 := csiParam_eq (hparams 1 (by decide))
  unfold Csi.send
  rw [hrun]
  dsimp only
  unfold ansiExecute Csi.execute
  dsimp only
  rw [hfinal, hpriv, h0, h1]
  cases q.command with
  | cup => rfl
  | hvp => rfl
  | cuu => rfl
  | cud => rfl
  | cuf => rfl
  | cub => rfl
  | ed => exact (execute_keeps c p).1 _
  | el => exact (execute_keeps c p).2.1 _
  | scp => rfl
  | rcp => rfl
  | setMode => rfl
  | resetMode => rfl
  | decset =>
    change (if wrapped (q.param 0) = 25 then
        { c with parser := p, session := { c.session with cursorVisible := false } }
      else if wrapped (q.param 0) = 1049 then enterAltScreen { c with parser := p }
      else { c with parser := p } : Console).session = _
    dsimp only
    split_ifs
    · rfl
    · exact (execute_keeps c p).2.2.1
    · rfl
  | decrst =>
    change (if wrapped (q.param 0) = 25 then
        { c with parser := p, session := { c.session with cursorVisible := true } }
      else if wrapped (q.param 0) = 1049 then leaveAltScreen { c with parser := p }
      else { c with parser := p } : Console).session = _
    dsimp only
    split_ifs
    · rfl
    · exact (execute_keeps c p).2.2.2
    · rfl

/-! ## Screens -/

namespace Screen

variable {g : Grid} {s t u : Screen}

theorem Same.refl (g : Grid) (s : Screen) : s.Same g s := ⟨fun _ _ => rfl, rfl, rfl, rfl, rfl, rfl⟩

theorem Same.symm (h : s.Same g t) : t.Same g s :=
  ⟨fun i hi => (h.cells i hi).symm, h.cursorX.symm, h.cursorY.symm, h.visible.symm, h.savedX.symm,
    h.savedY.symm⟩

theorem Same.trans (h : s.Same g t) (h' : t.Same g u) : s.Same g u :=
  ⟨fun i hi => (h.cells i hi).trans (h'.cells i hi), h.cursorX.trans h'.cursorX,
    h.cursorY.trans h'.cursorY, h.visible.trans h'.visible, h.savedX.trans h'.savedX,
    h.savedY.trans h'.savedY⟩

theorem Same.congr_left (h : s.Same g t) : s.Same g u ↔ t.Same g u :=
  ⟨fun hu => h.symm.trans hu, fun hu => h.trans hu⟩

theorem same_moveTo {x y x' y' : ℕ} :
    (s.moveTo x y).Same g (s.moveTo x' y') ↔ x = x' ∧ y = y' :=
  ⟨fun h => ⟨h.cursorX, h.cursorY⟩, fun h => ⟨fun _ _ => rfl, h.1, h.2, rfl, rfl, rfl⟩⟩

/-- Two erasures are the same when the cells that only one of them clears are blank. -/
theorem same_erase {P Q : ℕ → Bool} :
    (s.erase P).Same g (s.erase Q) ↔ ∀ i < g.size, Q i ≠ P i → s.cells i = .blank := by
  constructor
  · intro h i hi hne
    have hcell := h.cells i hi
    dsimp only [erase] at hcell
    cases hP : P i <;> cases hQ : Q i <;> simp_all
  · intro h
    refine ⟨fun i hi => ?_, rfl, rfl, rfl, rfl, rfl⟩
    have hcell := h i hi
    dsimp only [erase]
    cases hP : P i <;> cases hQ : Q i <;> simp_all

end Screen

variable {g : Grid} {c : Console}

/-- A range of cells is cleared. -/
theorem same_clearCells (b : Bool) {lo len : ℕ} {P : ℕ → Bool}
    (h : ∀ i < g.size, (lo ≤ i ∧ i < lo + len) ↔ P i = true) :
    (c.clearCells b lo len).session.screen.Same g (c.session.screen.erase P) := by
  refine ⟨fun i hi => ?_, rfl, rfl, rfl, rfl, rfl⟩
  change (if lo ≤ i ∧ i < lo + len then Cell.blank else c.session.cells i) =
    if P i = true then Cell.blank else c.session.cells i
  exact if_congr (h i hi) rfl rfl

/-- Nothing is cleared. -/
theorem same_erase_none {P : ℕ → Bool} (h : ∀ i, P i = false) :
    c.session.screen.Same g (c.session.screen.erase P) := by
  refine ⟨fun i _ => ?_, rfl, rfl, rfl, rfl, rfl⟩
  change c.session.cells i = if P i = true then Cell.blank else c.session.cells i
  rw [h i, if_neg Bool.false_ne_true]

/-- `ESC[J` clears what the parameter says that it sees. -/
theorem same_eraseInDisplay (h : c.Placed g) (w : ℕ) : (eraseInDisplay w c).session.screen.Same g
    (c.session.screen.erase (edErases g c.session.cursorX c.session.cursorY w)) := by
  obtain rfl := h.grid
  have hindex : c.session.cursorY * c.session.grid.cols + c.session.cursorX + 1 ≤
      c.session.grid.cols * c.session.grid.rows := index_lt rfl h.cursorX h.cursorY
  have hsize : c.session.grid.size = c.session.grid.cols * c.session.grid.rows := rfl
  unfold eraseInDisplay
  dsimp only
  split_ifs with h₂ h₀ h₁
  · subst h₂
    refine same_clearCells false fun i hi => ?_
    simp only [edErases, iff_true]
    omega
  · subst h₀
    refine same_clearCells true fun i hi => ?_
    simp only [edErases, decide_eq_true_eq, index]
    omega
  · subst h₁
    refine same_clearCells true fun i hi => ?_
    simp only [edErases, decide_eq_true_eq, index]
    omega
  · refine same_erase_none fun i => ?_
    unfold edErases
    split <;> simp_all

/-- `ESC[K` clears what the parameter says that it sees. -/
theorem same_eraseInLine (h : c.Placed g) (w : ℕ) : (eraseInLine w c).session.screen.Same g
    (c.session.screen.erase (elErases g c.session.cursorX c.session.cursorY w)) := by
  obtain rfl := h.grid
  have hx := h.cursorX
  unfold eraseInLine
  dsimp only
  split_ifs with h₂₀ h₀ h₁
  · subst h₀
    refine same_clearCells true fun i hi => ?_
    simp only [elErases, Bool.and_eq_true, decide_eq_true_eq, index, Nat.add_mul, Nat.one_mul]
    omega
  · obtain rfl := h₂₀.resolve_right h₀
    refine same_clearCells true fun i hi => ?_
    simp only [elErases, Bool.and_eq_true, decide_eq_true_eq, index, Nat.add_mul, Nat.one_mul]
    omega
  · subst h₁
    refine same_clearCells true fun i hi => ?_
    simp only [elErases, Bool.and_eq_true, decide_eq_true_eq, index]
    omega
  · refine same_erase_none fun i => ?_
    unfold elErases
    split <;> simp_all

/-! ## The alternate screen -/

/-- `ESC[?1049h` has somewhere to save the cells. -/
def Console.CanSave (c : Console) : Prop := c.session.altCells ≠ none ∨ c.kmallocOk = true

/-- `ESC[?1049h` saves the cells and clears them, if it can. -/
theorem enterAltScreen_session (c : Console) :
    (c.CanSave → (enterAltScreen c).session.screen.Same c.session.grid
        ((c.session.screen.erase fun _ => true).moveTo 0 0) ∧
      (enterAltScreen c).session.altCells = some c.session.cells) ∧
    (¬ c.CanSave → (enterAltScreen c).session = c.session) := by
  have hsave : ∀ c' : Console, c'.session = c.session →
      (saveScreen c').session.screen.Same c.session.grid
          ((c.session.screen.erase fun _ => true).moveTo 0 0) ∧
        (saveScreen c').session.altCells = some c.session.cells := by
    intro c' hc'
    rw [← hc']
    refine ⟨⟨fun i hi => ?_, rfl, rfl, rfl, rfl, rfl⟩, rfl⟩
    exact if_pos ⟨Nat.zero_le i, by rw [Nat.zero_add]; exact hi⟩
  unfold CanSave enterAltScreen
  cases halt : c.session.altCells with
  | some alt => exact ⟨fun _ => hsave c rfl, fun hn => absurd (.inl (by simp)) hn⟩
  | none =>
    cases hk : c.kmallocOk with
    | true => exact ⟨fun _ => hsave c.afterKmalloc rfl, fun hn => absurd (.inr rfl) hn⟩
    | false => exact ⟨fun hs => absurd hs (by simp), fun _ => rfl⟩

/-- `ESC[?1049l` brings the saved cells back, and the position saved with `ESC[s`. -/
theorem leaveAltScreen_session (c : Console) :
    (∀ alt, c.session.altCells = some alt →
      (∀ i < c.session.grid.size, (leaveAltScreen c).session.cells i = alt i) ∧
        (leaveAltScreen c).session.cursorX = c.session.savedCursorX ∧
        (leaveAltScreen c).session.cursorY = c.session.savedCursorY ∧
        (leaveAltScreen c).session.cursorVisible = c.session.cursorVisible ∧
        (leaveAltScreen c).session.savedCursorX = c.session.savedCursorX ∧
        (leaveAltScreen c).session.savedCursorY = c.session.savedCursorY) ∧
    (c.session.altCells = none → leaveAltScreen c = c) := by
  unfold leaveAltScreen
  dsimp only
  cases halt : c.session.altCells with
  | none => exact ⟨fun _ he => absurd he (by simp), fun _ => rfl⟩
  | some alt =>
    refine ⟨fun alt' he => ?_, fun he => absurd he (by simp)⟩
    obtain rfl := Option.some.inj he
    exact ⟨fun i hi => if_pos hi, rfl, rfl, rfl, rfl, rfl⟩

/-! ## One sequence -/

/-- The sequence has mode 1049 among its parameters. -/
def Csi.Alternate (q : Csi) : Prop :=
  (q.command = .decset ∨ q.command = .decrst) ∧ 1049 ∈ q.values

/-- A move along a row or column, with a number that is kept in 16 bits. -/
theorem position_iff {n size : ℕ} (hpos : 0 < size) (hsize : size < 2 ^ 16) :
    min (wrapped n - 1) (size - 1) = min (max 1 n - 1) (size - 1) ↔ n < 2 ^ 16 ∨ size ≤ wrapped n := by
  have hw := wrapped_pos n
  by_cases hn : n < 2 ^ 16
  · rw [wrapped_of_lt hn]
    exact ⟨fun _ => .inl hn, fun _ => rfl⟩
  · omega

theorem back_iff {n x : ℕ} (hx : x < 2 ^ 16) :
    (if wrapped n ≤ x then x - wrapped n else 0) = x - max 1 n ↔ n < 2 ^ 16 ∨ x ≤ wrapped n := by
  have hw := wrapped_pos n
  by_cases hn : n < 2 ^ 16
  · rw [wrapped_of_lt hn]
    refine ⟨fun _ => .inl hn, fun _ => ?_⟩
    split <;> omega
  · split <;> omega

theorem forward_iff {n x size : ℕ} (hx : x < size) (hsize : size < 2 ^ 16) :
    min (u16 (x + wrapped n)) (size - 1) = min (x + max 1 n) (size - 1) ↔
      n < 2 ^ 16 ∧ x + wrapped n < 2 ^ 16 ∨ size - 1 ≤ u16 (x + wrapped n) := by
  have hw := wrapped_pos n
  by_cases hn : n < 2 ^ 16
  · rw [wrapped_of_lt hn]
    by_cases hsum : x + max 1 n < 2 ^ 16
    · have hu : u16 (x + max 1 n) = x + max 1 n := Nat.mod_eq_of_lt hsum
      rw [hu]
      exact ⟨fun _ => .inl ⟨hn, hsum⟩, fun _ => rfl⟩
    · omega
  · omega

/-- A screen with the cursor shown or hidden. -/
def Screen.show (s : Screen) (b : Bool) : Screen := { s with visible := b }

theorem screen_same_show {s : Screen} {b : Bool} : s.Same g (s.show b) ↔ s.visible = b :=
  ⟨fun h => h.visible, fun h => ⟨fun _ _ => rfl, rfl, rfl, h, rfl, rfl⟩⟩

/-- A private mode: mode 25 shows the cursor as `b` says, and the code does the opposite; what it does for
mode 1049 is known from its screen. -/
theorem mode_iff (b : Bool) (w : ℕ) (shows : Prop) [Decidable shows] {alt : Console} {A : Prop}
    (halt : ∀ v, alt.session.screen.Same g (c.session.screen.show v) ↔ c.session.cursorVisible = v ∧ A) :
    ((if w = 25 then { c with session := { c.session with cursorVisible := !b } }
        else if w = 1049 then alt else c : Console).session.screen.Same g
      (if shows then c.session.screen.show b else c.session.screen)) ↔
    (if shows then w ≠ 25 ∧ c.session.cursorVisible = b else w = 25 → c.session.cursorVisible = !b) ∧
      (w = 1049 → A) := by
  have hshow : (if shows then c.session.screen.show b else c.session.screen) =
      c.session.screen.show (if shows then b else c.session.cursorVisible) := by
    split <;> rfl
  rw [hshow]
  by_cases h25 : w = 25
  · subst h25
    have hcode : ({ c with session := { c.session with cursorVisible := !b } } : Console).session.screen.Same g
        (c.session.screen.show (if shows then b else c.session.cursorVisible)) ↔
        (!b) = if shows then b else c.session.cursorVisible :=
      ⟨fun h => h.visible, fun h => ⟨fun _ _ => rfl, rfl, rfl, h, rfl, rfl⟩⟩
    rw [if_pos rfl, hcode]
    by_cases hs : shows
    · rw [if_pos hs, if_pos hs]
      simp
    · rw [if_neg hs, if_neg hs]
      simp [eq_comm]
  rw [if_neg h25]
  by_cases h1049 : w = 1049
  · subst h1049
    rw [if_pos rfl, halt]
    by_cases hs : shows <;> simp [hs]
  · rw [if_neg h1049]
    refine screen_same_show.trans ?_
    by_cases hs : shows
    · rw [if_pos hs, if_pos hs]
      exact ⟨fun hv => ⟨⟨h25, hv⟩, fun hw => absurd hw h1049⟩, fun hv => hv.1.2⟩
    · rw [if_neg hs, if_neg hs]
      exact iff_of_true rfl ⟨fun hw => absurd hw h25, fun hw => absurd hw h1049⟩

/-- `ESC[?1049h` changes nothing when it cannot save the cells, or on a blank screen. -/
theorem enterAltScreen_same_iff (v : Bool) :
    (enterAltScreen c).session.screen.Same c.session.grid (c.session.screen.show v) ↔
      c.session.cursorVisible = v ∧ (c.session.altCells = none ∧ c.kmallocOk = false ∨
        (∀ i < c.session.grid.size, c.session.cells i = .blank) ∧ c.session.cursorX = 0 ∧
          c.session.cursorY = 0) := by
  obtain ⟨hsave, hfail⟩ := enterAltScreen_session c
  by_cases hs : c.CanSave
  · have hnone : ¬ (c.session.altCells = none ∧ c.kmallocOk = false) := fun hn =>
      hs.elim (fun h => h hn.1) fun h => Bool.false_ne_true (hn.2.symm.trans h)
    rw [(hsave hs).1.congr_left, or_iff_right hnone]
    constructor
    · exact fun h => ⟨h.visible, fun i hi => (h.cells i hi).symm, h.cursorX.symm, h.cursorY.symm⟩
    · exact fun ⟨hv, hcells, hx, hy⟩ =>
        ⟨fun i hi => (hcells i hi).symm, hx.symm, hy.symm, hv, rfl, rfl⟩
  · rw [hfail hs, screen_same_show]
    unfold CanSave at hs
    rw [not_or, not_not, Bool.not_eq_true] at hs
    exact ⟨fun hv => ⟨hv, .inl hs⟩, fun hv => hv.1⟩

/-- `ESC[?1049l` changes nothing when no cells are saved, or when they and the saved position are what the
screen shows. -/
theorem leaveAltScreen_same_iff (v : Bool) :
    (leaveAltScreen c).session.screen.Same c.session.grid (c.session.screen.show v) ↔
      c.session.cursorVisible = v ∧ ∀ alt, c.session.altCells = some alt →
        (∀ i < c.session.grid.size, alt i = c.session.cells i) ∧
          c.session.savedCursorX = c.session.cursorX ∧ c.session.savedCursorY = c.session.cursorY := by
  obtain ⟨hback, hnone⟩ := leaveAltScreen_session c
  cases halt : c.session.altCells with
  | none =>
    rw [hnone halt, screen_same_show]
    exact ⟨fun hv => ⟨hv, fun _ he => absurd he (by simp)⟩, fun hv => hv.1⟩
  | some alt =>
    obtain ⟨hcells, hx, hy, hvis, hsx, hsy⟩ := hback alt halt
    constructor
    · intro h
      refine ⟨hvis.symm.trans h.visible, fun alt' he => ?_⟩
      obtain rfl := Option.some.inj he
      exact ⟨fun i hi => (hcells i hi).symm.trans (h.cells i hi), hx.symm.trans h.cursorX,
        hy.symm.trans h.cursorY⟩
    · rintro ⟨hv, hsame⟩
      obtain ⟨hsame, hsameX, hsameY⟩ := hsame alt rfl
      exact ⟨fun i hi => (hcells i hi).trans (hsame i hi), hx.trans hsameX, hy.trans hsameY,
        hvis.trans hv, hsx, hsy⟩

theorem screen_moveTo (c : Console) (x y : ℕ) :
    (c.moveTo x y).session.screen = c.session.screen.moveTo x y := rfl

/-- A sequence does what it is meant to do if and only if its condition holds. -/
theorem meetsReference_iff (h : c.Placed g) (hs : c.parser.state = .ground) (q : Csi) :
    MeetsReference c q ↔ q.Holds c := by
  obtain rfl := h.grid
  have hcols := c.session.grid.cols_pos
  have hrows := c.session.grid.rows_pos
  have hcolsLt := c.session.grid.cols_lt
  have hrowsLt := c.session.grid.rows_lt
  have hx := h.cursorX
  have hy := h.cursorY
  unfold MeetsReference
  rw [send_session q hs]
  unfold Csi.execute reference Csi.Holds
  dsimp only
  cases hcommand : q.command with
  | cup | hvp =>
    dsimp only
    rw [screen_moveTo]
    refine Screen.same_moveTo.trans (and_comm.trans (and_congr ?_ ?_))
    · exact position_iff hrows hrowsLt
    · exact position_iff hcols hcolsLt
  | cuu =>
    dsimp only
    rw [screen_moveTo]
    refine Screen.same_moveTo.trans ((and_iff_right rfl).trans ?_)
    exact back_iff (hy.trans hrowsLt)
  | cud =>
    dsimp only
    rw [screen_moveTo]
    refine Screen.same_moveTo.trans ((and_iff_right rfl).trans ?_)
    exact forward_iff hy hrowsLt
  | cuf =>
    dsimp only
    rw [screen_moveTo]
    refine Screen.same_moveTo.trans ((and_iff_left rfl).trans ?_)
    exact forward_iff hx hcolsLt
  | cub =>
    dsimp only
    rw [screen_moveTo]
    refine Screen.same_moveTo.trans ((and_iff_left rfl).trans ?_)
    exact back_iff (hx.trans hcolsLt)
  | ed => exact (same_eraseInDisplay h _).congr_left.trans Screen.same_erase
  | el => exact (same_eraseInLine h _).congr_left.trans Screen.same_erase
  | scp | rcp | setMode | resetMode => exact iff_of_true (.refl _ _) trivial
  | decset =>
    dsimp only
    exact mode_iff true _ _ enterAltScreen_same_iff
  | decrst =>
    dsimp only
    exact mode_iff false _ _ leaveAltScreen_same_iff

/-! ## The alternate screen and back -/

/-- The sequence is `ESC[?1049h` or `ESC[?1049l`. -/
def Csi.Is1049 (q : Csi) (command : CsiCommand) : Prop := q.command = command ∧ q.values = [1049]

theorem Csi.Is1049.execute {q : Csi} {command : CsiCommand} (h : q.Is1049 command) (c : Console) :
    (command = .decset → q.execute c = enterAltScreen c) ∧
      (command = .decrst → q.execute c = leaveAltScreen c) := by
  have hw : wrapped (q.param 0) = 1049 := by
    unfold Csi.param
    rw [h.2]
    rfl
  constructor <;> rintro rfl <;> unfold Csi.execute <;> rw [h.1, hw] <;> rfl

/-- A sequence and output after it. -/
def Csi.sendThen (q : Csi) (between : List UInt8) (c : Console) : Console :=
  ansiPutcs (pushLineAt 2) between (q.send c)

/-- The condition under which `ESC[?1049l` in the second console brings back the screen of the first. -/
def Restores (c c' : Console) : Prop :=
  c.CanSave ∧ c'.session.savedCursorX = c.session.cursorX ∧ c'.session.savedCursorY = c.session.cursorY ∨
    ¬ c.CanSave ∧ ScreenRestored c c'

/-- The screen after `ESC[?1049h`, any output without another one, and `ESC[?1049l`. -/
theorem screenRestored_iff (hs : c.parser.state = .ground) {on off : Csi} (hon : on.Is1049 .decset)
    (hoff : off.Is1049 .decrst) {between : List UInt8}
    (hbetween : BytesMeet (fun ch c => ¬ EntersAltScreen ch c) (pushLineAt 2) between (on.send c))
    (hs' : (on.sendThen between c).parser.state = .ground) :
    ScreenRestored c (off.send (on.sendThen between c)) ↔ Restores c (on.sendThen between c) := by
  have hgrid : (on.sendThen between c).session.grid = c.session.grid :=
    (onward_ansiPutcs (onward_pushLineAt 2) between (on.send c)).grid.trans
      (onward_ansiPutcs (onward_pushLineAt 2) on.bytes c).grid
  have halt : (on.sendThen between c).session.altCells = (on.send c).session.altCells :=
    altCells_ansiPutcs (printsPlain_pushLineAt 2) hbetween
  rw [send_session on hs, (hon.execute c).1 rfl] at halt
  unfold ScreenRestored Restores
  rw [send_session off hs', (hoff.execute _).2 rfl]
  generalize on.sendThen between c = c₂ at *
  obtain ⟨hsave, hfail⟩ := enterAltScreen_session c
  obtain ⟨hback, hnone⟩ := leaveAltScreen_session c₂
  by_cases hcan : c.CanSave
  · rw [(hsave hcan).2] at halt
    obtain ⟨hcells, hx, hy, -⟩ := hback _ halt
    rw [hgrid] at hcells
    rw [hx, hy]
    exact ⟨fun h => .inl ⟨hcan, h.2⟩, fun h => ⟨hcells, (h.resolve_right fun hn => hn.1 hcan).2⟩⟩
  · have hempty : c.session.altCells = none := by
      by_contra hne
      exact hcan (.inl hne)
    rw [hfail hcan] at halt
    rw [hnone (halt.trans hempty)]
    exact ⟨fun h => .inr ⟨hcan, h⟩, fun h => (h.resolve_left fun hn => hcan hn.1).2⟩

/-- The console after calls that print, from a new session on. -/
def Console.after (g : Grid) (p : AnsiParser) (memory : List Bool) (calls : List Output) : Console :=
  calls.foldl perform (.start g p memory)

/-- CSI sequences. In every state that calls which print lead to, a sequence with any parameters does what
it is meant to do if and only if its condition holds; and the cells and the cursor of `ESC[?1049h` come back
with `ESC[?1049l`, after any output without another one, if and only if they could be saved and the
position saved with `ESC[s` is that of the cursor, or they could not and are unchanged. -/
theorem csi_semantics_iff (g : Grid) (p : AnsiParser) (memory : List Bool) (calls : List Output)
    (hs : (Console.after g p memory calls).parser.state = .ground) :
    (∀ q : Csi, ¬ q.Alternate →
        (MeetsReference (.after g p memory calls) q ↔ q.Holds (.after g p memory calls))) ∧
      ∀ (on off : Csi) (between : List UInt8), on.Is1049 .decset → off.Is1049 .decrst →
        BytesMeet (fun ch c => ¬ EntersAltScreen ch c) (pushLineAt 2) between
          (on.send (.after g p memory calls)) →
        (on.sendThen between (.after g p memory calls)).parser.state = .ground →
        (ScreenRestored (.after g p memory calls)
            (off.send (on.sendThen between (.after g p memory calls))) ↔
          Restores (.after g p memory calls) (on.sendThen between (.after g p memory calls))) := by
  have hplaced : (Console.after g p memory calls).Placed g := placed_performAll p memory calls
  refine ⟨fun q _ => meetsReference_iff hplaced hs q, fun on off between hon hoff hbetween hs' => ?_⟩
  exact screenRestored_iff hs hon hoff hbetween hs'

/-- A new session, with an `A` in its first cell. -/
def letterA : Console := .after smallestGrid .zeroed [true] [⟨false, false, .write [65]⟩]

theorem csi_semantics_letterA :
    (MeetsReference letterA ⟨.cud, [[7]]⟩ ↔ Csi.Holds letterA ⟨.cud, [[7]]⟩) ∧
      (ScreenRestored letterA (Csi.send ⟨.decrst, [[1, 0, 4, 9]]⟩
          (Csi.sendThen ⟨.decset, [[1, 0, 4, 9]]⟩ [66] letterA)) ↔
        Restores letterA (Csi.sendThen ⟨.decset, [[1, 0, 4, 9]]⟩ [66] letterA)) := by
  obtain ⟨hone, hpair⟩ := csi_semantics_iff smallestGrid .zeroed [true] [⟨false, false, .write [65]⟩] rfl
  refine ⟨hone ⟨.cud, [[7]]⟩ fun h => ?_, hpair ⟨.decset, [[1, 0, 4, 9]]⟩ ⟨.decrst, [[1, 0, 4, 9]]⟩ [66]
    ⟨rfl, rfl⟩ ⟨rfl, rfl⟩ ⟨by decide +kernel, trivial⟩ (by decide +kernel)⟩
  exact absurd h.1 (by decide)

/-- `ESC[J` clears the cells up to the cursor, not from the cursor on. -/
theorem erase_before_cursor : ¬ MeetsReference letterA ⟨.ed, []⟩ := fun h =>
  absurd (h.cells 0 (by decide)) (by decide +kernel)

end Sandflea
