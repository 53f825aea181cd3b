import Sandflea.Wat.Buffer
import Sandflea.Wat.Lexer

/-!
# Function bodies in WAT

`parse_expr` takes one instruction off the tokens, `parse_body` goes on until a closing parenthesis. What they do
depends on the tokens only, unless an allocation fails: then they stop. So they are given here as the writes they make,
one after the other, and how they end. The tokens that are left are a list; the position in the array is how much is
gone.
-/

namespace Sandflea

namespace Wat

/-! ## Looking at the tokens -/

/-- `expect`, where its result is not used -/
def expect (type : TokType) : List Tok → List Tok
  | [] => []
  | t :: toks => if t.type = type then toks else t :: toks

/-- The next token has a type. -/
def nextIs (type : TokType) : List Tok → Bool
  | [] => false
  | t :: _ => t.type == type

/-- `match_id` -/
def matchId (s : List UInt8) : List Tok → Bool
  | [] => false
  | t :: _ => t.type == .ident && t.len.toNat == s.length && t.chars == s

/-- `parse_vt`: nothing for its `-1` -/
def parseVt (toks : List Tok) : Option UInt8 × List Tok :=
  if matchId (word "i32") toks then (some 0x7F, toks.tail)
  else if matchId (word "i64") toks then (some 0x7E, toks.tail)
  else if matchId (word "f32") toks then (some 0x7D, toks.tail)
  else if matchId (word "f64") toks then (some 0x7C, toks.tail)
  else (none, toks)

/-! ## Names -/

/-- `import_name_t`: the name is what the text has from there on. -/
structure ImportName where
  name : List UInt8
  len : UInt32
  index : UInt32

/-- `wat_memcmp` with the name in the table, and whether they are the same; nothing if it reads past the text -/
def watMemcmp : List UInt8 → List UInt8 → Option Bool
  | [], _ => some true
  | _ :: _, [] => none
  | c :: cs, d :: ds => if c = d then watMemcmp cs ds else some false

/-- `nt_lookup`, and whether it reads past the text -/
def ntLookup (start : List UInt8) (len : UInt32) : List ImportName → Option (Option UInt32)
  | [] => some none
  | e :: names =>
    if e.len = len then
      match watMemcmp (e.name.take len.toNat) start with
      | none => none
      | some true => some (some e.index)
      | some false => ntLookup start len names
    else ntLookup start len names

/-! ## Instructions -/

/-- What follows the name of an instruction, and what is written -/
inductive Form where
  | simple (ws : List Write)
  | const (op : UInt8)
  | float (ws : List Write)
  | index (op : UInt8)
  | global (op : UInt8)
  | call
deriving DecidableEq

/-- An instruction that is a byte -/
def Form.byte (op : UInt8) : Form := .simple [.put [op]]

/-- A load or a store, with its alignment and the offset 0 -/
def Form.access (op align : UInt8) : Form := .simple [.put [op], .put [align], .emit (wbUleb 0)]

/-- The instructions of `parse_expr`, in the order in which it asks for them -/
def forms : List (String × Form) :=
  [("i32.const", .const 0x41), ("i64.const", .const 0x42),
    ("f32.const", .float [.put [0x43], .put [0, 0, 0, 0]]),
    ("f64.const", .float [.put [0x44], .put [0, 0, 0, 0], .put [0, 0, 0, 0]]),
    ("i32.add", .byte 0x6A), ("i32.sub", .byte 0x6B), ("i32.mul", .byte 0x6C), ("i32.and", .byte 0x71),
    ("i32.or", .byte 0x72), ("i32.xor", .byte 0x73), ("i32.shl", .byte 0x74), ("i32.shr_u", .byte 0x76),
    ("i32.eqz", .byte 0x45), ("i32.eq", .byte 0x46), ("i32.ne", .byte 0x47), ("i32.lt_s", .byte 0x48),
    ("i32.gt_s", .byte 0x4A), ("i32.le_s", .byte 0x4C), ("i32.ge_s", .byte 0x4E), ("f32.add", .byte 0x92),
    ("f32.sub", .byte 0x93), ("f32.mul", .byte 0x94), ("f32.div", .byte 0x95), ("drop", .byte 0x1A),
    ("return", .byte 0x0F), ("nop", .byte 0x01), ("unreachable", .byte 0x00), ("local.get", .index 0x20),
    ("local.set", .index 0x21), ("local.tee", .index 0x22), ("global.get", .global 0x23),
    ("global.set", .global 0x24), ("call", .call), ("br", .index 0x0C), ("br_if", .index 0x0D),
    ("memory.size", .simple [.put [0x3F], .put [0]]), ("memory.grow", .simple [.put [0x40], .put [0]]),
    ("i32.load", .access 0x28 2), ("i64.load", .access 0x29 3), ("f32.load", .access 0x2A 2),
    ("f64.load", .access 0x2B 3), ("i32.load8_u", .access 0x2C 0), ("i32.store", .access 0x36 2),
    ("i64.store", .access 0x37 3), ("f32.store", .access 0x38 2), ("f64.store", .access 0x39 3),
    ("i32.store8", .access 0x3A 0)]

/-- What `parse_expr` does: it returns 0 where it is; it writes, with the tokens that are left meanwhile and afterwards,
and returns 0; it returns -1, having shown a token or not; or it reads past the text. -/
inductive Expr where
  | stays
  | writes (ws : List Write) (during after : List Tok)
  | fails (shown : Option Tok) (toks : List Tok)
  | outside

/-- The part of `parse_expr` behind the name of the instruction -/
def Form.parse (names : List ImportName) : Form → List Tok → Expr
  | simple ws, toks => .writes ws toks toks
  | const _, [] | float _, [] | index _, [] | global _, [] | call, [] => .fails none []
  | const op, v :: toks =>
    if v.type = .int then .writes [.put [op], .emit (wbSleb v.intVal.toInt32)] (v :: toks) toks
    else .fails none (v :: toks)
  | float ws, _ :: toks => .writes ws toks toks
  | index op, v :: toks =>
    if v.type = .int then .writes [.put [op], .emit (wbUleb v.intVal.toUInt64.toUInt32)] (v :: toks) toks
    else .fails none (v :: toks)
  | global op, v :: toks =>
    if v.type = .int then .writes [.put [op], .emit (wbUleb v.intVal.toUInt64.toUInt32)] (v :: toks) toks
    else .writes [.put [op], .emit (wbUleb 0)] toks toks
  | call, v :: toks =>
    if v.type = .int then .writes [.put [0x10], .emit (wbUleb v.intVal.toUInt64.toUInt32)] (v :: toks) toks
    else
      match ntLookup v.start v.len names with
      | none => .outside
      | some none => .fails (some v) (v :: toks)
      | some (some idx) => .writes [.put [0x10], .emit (wbUleb idx)] toks toks

/-- `parse_expr` -/
def parseExpr (names : List ImportName) : List Tok → Expr
  | [] => .fails none []
  | t :: toks =>
    if t.type = .rparen ∨ t.type = .eof then .stays
    else if matchId (word "end") (t :: toks) ∨ matchId (word "else") (t :: toks) then .stays
    else
      match forms.find? fun f => matchId (word f.1) (t :: toks) with
      | some f => f.2.parse names toks
      | none => .fails (some t) toks

/-! ## Bodies -/

/-- How `parse_body` ends: it returns 0 at a closing parenthesis; it returns -1, having shown a token or not; it reads
past the text; or it goes on. -/
inductive BodyEnd where
  | closes (toks : List Tok)
  | fails (shown : Option Tok)
  | outside
  | endless

/-- What `parse_body` writes, and how it ends -/
structure Walk where
  writes : List Write
  ending : BodyEnd

/-- Writes, and then the rest -/
def Walk.after (ws : List Write) (w : Walk) : Walk := ⟨ws ++ w.writes, w.ending⟩

/-- What comes behind a body that closes -/
def Walk.andThen (w : Walk) (k : List Tok → Walk) : Walk :=
  match w.ending with
  | .closes toks => (k toks).after w.writes
  | _ => w

/-- The opcode of a block, a loop or an if -/
def blockOp (toks : List Tok) : Option UInt8 :=
  if matchId (word "block") toks then some 0x02
  else if matchId (word "loop") toks then some 0x03
  else if matchId (word "if") toks then some 0x04
  else none

/-- The type of a block, as it is given to `wb_sleb`, and what follows -/
def blockType (toks : List Tok) : Int32 × List Tok :=
  if nextIs .lparen toks then
    if matchId (word "result") toks.tail then
      let (vt, toks) := parseVt toks.tail.tail
      (match vt with
        | none => -1
        | some vt => Int32.ofNat vt.toNat, expect .rparen toks)
    else (-64, expect .rparen toks.tail)
  else (-64, toks)

/-- A parenthesis and a keyword -/
def opensWith (s : List UInt8) (toks : List Tok) : Bool := nextIs .lparen toks && matchId s toks.tail

/-- `parse_body`, by the number of rounds -/
def parseBody (names : List ImportName) : ℕ → List Tok → Walk
  | 0, _ => ⟨[], .endless⟩
  | _ + 1, [] => ⟨[], .fails none⟩
  | rounds + 1, t :: rest =>
    let expr (toks : List Tok) (close : List Tok → List Tok) : Walk :=
      match parseExpr names toks with
      | .stays => parseBody names rounds (close toks)
      | .writes ws _ after => (parseBody names rounds (close after)).after ws
      | .fails shown _ => ⟨[], .fails shown⟩
      | .outside => ⟨[], .outside⟩
    let finish (toks : List Tok) : Walk := (parseBody names rounds (expect .rparen toks)).after [.put [0x0B]]
    if t.type = .rparen then ⟨[], .closes (t :: rest)⟩
    else if t.type = .lparen then
      match blockOp rest with
      | some op =>
        ((parseBody names rounds (blockType rest.tail).2).andThen fun toks =>
          if op = 0x04 then
            let toks := if opensWith (word "then") toks then expect .rparen (toks.drop 2) else toks
            if opensWith (word "else") toks then
              ((parseBody names rounds (toks.drop 2)).andThen fun toks => finish (expect .rparen toks)).after
                [.put [0x05]]
            else finish toks
          else finish toks).after [.put [op], .emit (wbSleb (blockType rest.tail).1)]
      | none => expr rest (expect .rparen)
    else expr (t :: rest) id

/-! ## Identifiers -/

/-- The token is an identifier. -/
structure IsWord (t : Tok) (w : List UInt8) : Prop where
  type : t.type = .ident
  len : t.len.toNat = w.length
  chars : t.chars = w

theorem IsWord.matchId {t : Tok} {w : List UInt8} (h : IsWord t w) (s : List UInt8) (toks : List Tok) :
    matchId s (t :: toks) = (w == s) := by
  have hlen : w ≠ s ∨ w.length = s.length := by
    rcases eq_or_ne w s with rfl | hne
    · exact .inr rfl
    · exact .inl hne
  rw [Wat.matchId, h.type, h.len, h.chars, beq_self_eq_true, Bool.true_and]
  rcases hlen with hne | heq
  · rw [beq_eq_false_iff_ne.mpr hne, Bool.and_false]
  · rw [heq, beq_self_eq_true, Bool.true_and]

/-- An identifier in the place of an instruction is looked up. -/
theorem IsWord.parseExpr {t : Tok} {w : List UInt8} (h : IsWord t w) (names : List ImportName) (toks : List Tok) :
    parseExpr names (t :: toks) =
      if w = word "end" ∨ w = word "else" then .stays
      else
        match forms.find? fun f => w == word f.1 with
        | some f => f.2.parse names toks
        | none => .fails (some t) toks := by
  have hfind : (fun f : String × Form => Wat.matchId (word f.1) (t :: toks)) = fun f => w == word f.1 :=
    funext fun f => h.matchId (word f.1) toks
  rw [Wat.parseExpr, if_neg (by rw [h.type]; decide), h.matchId, h.matchId, hfind]
  simp only [beq_iff_eq]

end Wat

end Sandflea
