import Sandflea.Lib.Stopping
import Sandflea.Wat.Parser

/-!
# The WAT compiler

`wat2wasm_compile` reads the fields of a module one after the other, collects each section in a buffer of its own, and
puts the sections together at the end. `goto error` frees the buffers; a `wb1` that fails returns from the function and
frees nothing. What it reads is passed along; what it does to the buffers are commands, so that one text can be followed
over any heap.
-/

namespace Sandflea

namespace Wat

/-- The buffers of `wat2wasm_compile` -/
inductive Buf where
  | out | types | imports | funcs | exports | code | mem | data | glob | start | db | locals | body | entry
deriving DecidableEq

/-- How `wat2wasm_compile` stops before its end: `return -1`, `goto error`, by reading past the text, or not at all -/
inductive Exit where
  | leaves | error | outside | endless
deriving DecidableEq

/-- A write that returns if it fails -/
def Write.isPut : Write → Bool
  | put _ => true
  | emit _ => false

/-! ## Commands -/

/-- What `wat2wasm_compile` does to its buffers: writes of its own; those of `parse_body` in a function; those of
`parse_expr` in a global; reading and freeing a buffer; the beginning and the end of a section; and stopping -/
inductive Op where
  | write (buf : Buf) (ws : List Write)
  | body (ws : List Write)
  | init (ws : List Write)
  | contents (buf : Buf)
  | free (buf : Buf)
  | secStart (id : UInt8)
  | secEnd (pos : UInt32)
  | exit (e : Exit)

/-- What comes back -/
def Op.Resp : Op → Type
  | init _ => Bool
  | contents _ => List UInt8
  | secStart _ => UInt32
  | exit _ => Empty
  | _ => Unit

/-- Who calls `kmalloc`: a `wb1` of `parse_body` in a function, a `wb1` of `wat2wasm_compile`, or a write whose failure
nobody learns of -/
inductive Caller where
  | body | leaves | drops
deriving DecidableEq

/-- The heap and the buffers. The callers of `kmalloc` so far are not in the source. -/
structure Mem where
  heap : Allocs
  bufs : Buf → Wbin
  callers : List Caller

namespace Mem

/-- Nothing is written yet. -/
def init : Mem := ⟨⟨0, []⟩, fun _ => .init, []⟩

/-- A write has changed a buffer and the heap. -/
def set (s : Mem) (buf : Buf) (b : Wbin) (m : Allocs) (caller : Caller) : Mem :=
  ⟨m, Function.update s.bufs buf b, s.callers ++ List.replicate (m.calls - s.heap.calls) caller⟩

/-- Writes to a buffer, and whether none of them returns. If one goes on for ever, that is where they stop. The caller
is that of a `wb1`. -/
def writes (alloc : ℕ → Option Bytes) (caller : Caller) (buf : Buf) : List Write → Mem → Except Mem (Bool × Mem)
  | [], s => .ok (true, s)
  | w :: ws, s =>
    match w.run alloc (s.bufs buf) s.heap with
    | none => .error s
    | some (ok, b, m) =>
      let s := s.set buf b m (if w.isPut then caller else .drops)
      if ok then writes alloc caller buf ws s else .ok (false, s)

/-- `wb_free` -/
def free (s : Mem) (buf : Buf) : Mem :=
  ⟨{ s.heap with live := (s.bufs buf).block.elim s.heap.live s.heap.live.erase }, Function.update s.bufs buf .init,
    s.callers⟩

end Mem

/-- How a run goes on after writes -/
def after {ρ : Type} (r : Except Mem (Bool × Mem)) (k : Bool → Mem → Except (Exit × Mem) (ρ × Mem)) :
    Except (Exit × Mem) (ρ × Mem) :=
  match r with
  | .error s => .error (.endless, s)
  | .ok (ok, s) => k ok s

/-- What a command does. A write of `wat2wasm_compile` that fails leaves it; one of `parse_body` goes to `error`; that
one of `parse_expr` in a global has failed is not looked at; and `wb_sec_start` gives its `-1` as the place. -/
def step (alloc : ℕ → Option Bytes) : (op : Op) → Mem → Except (Exit × Mem) (op.Resp × Mem)
  | .write buf ws, s =>
    after (s.writes alloc .leaves buf ws) fun ok s => if ok then .ok ((), s) else .error (.leaves, s)
  | .body ws, s =>
    after (s.writes alloc .body .body ws) fun ok s =>
      if ok then .ok ((), s) else .error (.error, (s.free .locals).free .body)
  | .init ws, s => after (s.writes alloc .drops .glob ws) fun ok s => .ok (ok, s)
  | .contents buf, s => .ok ((s.bufs buf).contents, s)
  | .free buf, s => .ok ((), s.free buf)
  | .secStart id, s =>
    after (s.writes alloc .drops .out (.put [id] :: List.replicate 5 (.put [0]))) fun ok s' =>
      .ok ((if ok then (s.bufs .out).size + 1 else 0xFFFFFFFF : UInt32), s')
  | .secEnd pos, s => .ok ((), { s with bufs := Function.update s.bufs .out (wbSecEnd pos (s.bufs .out)) })
  | .exit e, s => .error (e, s)

theorem exists_writes_of_writeAll {alloc : ℕ → Option Bytes} (caller : Caller) {buf : Buf} {ws : List Write} {s : Mem}
    {ok : Bool} {b : Wbin} {m : Allocs} (h : writeAll alloc ws (s.bufs buf) s.heap = some (ok, b, m)) :
    ∃ s', s.writes alloc caller buf ws = .ok (ok, s') ∧ s'.bufs buf = b ∧ s'.heap = m := by
  induction ws generalizing s with
  | nil =>
    cases h
    exact ⟨s, rfl, rfl, rfl⟩
  | cons w ws ih =>
    rw [writeAll] at h
    rw [Mem.writes]
    cases hrun : w.run alloc (s.bufs buf) s.heap with
    | none =>
      rw [hrun] at h
      cases h
    | some r =>
      obtain ⟨ok₁, b₁, m₁⟩ := r
      rw [hrun] at h
      have hset : (s.set buf b₁ m₁ (if w.isPut then caller else .drops)).bufs buf = b₁ := Function.update_self _ _ _
      cases ok₁ with
      | false =>
        cases h
        exact ⟨_, rfl, hset, rfl⟩
      | true =>
        refine ih ?_
        rw [hset]
        exact h

theorem size_of_wbGrow {alloc : ℕ → Option Bytes} {need : UInt32} {b b' : Wbin} {m m' : Allocs} {ok : Bool}
    (h : wbGrow alloc need b m = some (ok, b', m')) : b'.size = b.size := by
  unfold wbGrow at h
  split at h
  · cases h
    rfl
  · obtain ⟨cap, -, hcap⟩ := Option.map_eq_some_iff.mp h
    cases halloc : alloc m.calls with
    | none =>
      rw [halloc] at hcap
      cases hcap
      rfl
    | some p =>
      rw [halloc] at hcap
      cases hblock : b.block <;> rw [hblock] at hcap <;> cases hcap <;> rfl

theorem size_of_wb1 {alloc : ℕ → Option Bytes} {v : UInt8} {b b' : Wbin} {m m' : Allocs}
    (h : wb1 alloc v b m = some (true, b', m')) : b'.size = b.size + 1 := by
  obtain ⟨⟨ok, b₁, m₁⟩, hgrow, heq⟩ := Option.map_eq_some_iff.mp h
  cases ok with
  | false => cases heq
  | true =>
    cases heq
    rw [← size_of_wbGrow hgrow]
    rfl

/-- The command is the `wb_sec_start` of the buffers. -/
theorem step_secStart {alloc : ℕ → Option Bytes} {id : UInt8} {s : Mem} {pos : UInt32} {b : Wbin} {m : Allocs}
    (h : wbSecStart alloc id (s.bufs .out) s.heap = some (pos, b, m)) :
    ∃ s', step alloc (.secStart id) s = .ok (pos, s') ∧ s'.bufs .out = b ∧ s'.heap = m := by
  obtain ⟨⟨ok₁, b₁, m₁⟩, hid, hrest⟩ := Option.bind_eq_some_iff.mp h
  have hall : ∃ ok, writeAll alloc (.put [id] :: List.replicate 5 (.put [0])) (s.bufs .out) s.heap = some (ok, b, m) ∧
      pos = if ok then (s.bufs .out).size + 1 else 0xFFFFFFFF := by
    have hput : (Write.put [id]).run alloc (s.bufs .out) s.heap = some (ok₁, b₁, m₁) := hid
    rw [writeAll, hput]
    cases ok₁ with
    | false =>
      cases hrest
      exact ⟨false, rfl, rfl⟩
    | true =>
      obtain ⟨⟨ok, b₂, m₂⟩, hreserve, heq⟩ := Option.map_eq_some_iff.mp hrest
      rw [reserve_eq] at hreserve
      rw [← size_of_wb1 hid]
      cases ok with
      | false =>
        cases heq
        exact ⟨false, hreserve, rfl⟩
      | true =>
        cases heq
        exact ⟨true, hreserve, rfl⟩
  obtain ⟨ok, hall, hpos⟩ := hall
  obtain ⟨s', hs', hb, hm⟩ := exists_writes_of_writeAll .drops hall
  refine ⟨s', ?_, hb, hm⟩
  rw [step, hs', hpos]
  rfl

/-- What is read: the tokens that are left, the names, and the numbers of what was read -/
structure View where
  toks : List Tok
  names : List ImportName
  nImportFuncs : UInt32
  nFuncs : UInt32
  nTypes : UInt32
  nExports : UInt32
  nDataSegs : UInt32
  nGlobals : UInt32

/-- A part of `wat2wasm_compile` -/
abbrev M := StateT View (Prog Op Op.Resp)

/-- A command -/
def issue (op : Op) : M op.Resp := fun v => .call op fun r => .ret (r, v)

/-- The function stops here. -/
def exit {α : Type} (e : Exit) : M α := fun _ => .call (.exit e) fun r => Empty.elim r

/-! ## Tokens -/

/-- The tokens that are left -/
def toks : M (List Tok) := fun v => .ret (v.toks, v)

def setToks (toks : List Tok) : M Unit := fun v => .ret ((), { v with toks := toks })

/-- `next` -/
def next : M Unit := fun v => .ret ((), { v with toks := v.toks.tail })

/-- `expect`, where its result is not used -/
def expects (type : TokType) : M Unit := fun v => .ret ((), { v with toks := expect type v.toks })

/-- `match_id` -/
def matchesId (s : String) : M Bool := fun v => .ret (matchId (word s) v.toks, v)

/-- Whether a token is a name -/
def isName (t : Tok) : Bool := t.type == .ident && t.len != 0 && t.start.head? == some 36

/-- What follows a name that may be there -/
def skipName : List Tok → List Tok
  | [] => []
  | t :: toks => if isName t then toks else t :: toks

/-- A token of a type, or `goto error` -/
def require (type : TokType) : M Tok := do
  match ← toks with
  | [] => exit .error
  | t :: toks =>
    if t.type = type then
      setToks toks
      return t
    else exit .error

/-- The number that may be there -/
def numberTok : M (Option UInt32) := do
  match ← toks with
  | [] => return none
  | t :: toks =>
    if t.type = .int then
      setToks toks
      return some t.intVal.toUInt64.toUInt32
    else return none

/-- A token is shown with `%.*s`, which stops at a NUL. -/
def showTok (t : Option Tok) : M Unit :=
  match t with
  | none => return
  | some t => if t.len.toNat ≤ t.start.length ∨ 0 ∈ t.start then return else exit .outside

/-! ## Buffers -/

/-- What is in a buffer -/
def contents (buf : Buf) : M (List UInt8) := issue (.contents buf)

/-- Writes to a buffer in `wat2wasm_compile` itself -/
def write (buf : Buf) (ws : List Write) : M Unit := issue (.write buf ws)

/-- `wb_uleb_buf` -/
def writeUleb (buf : Buf) (v : UInt32) : M Unit := write buf [.emit (wbUleb v)]

/-- `wb_str` of a token -/
def writeStr (buf : Buf) (t : Tok) : M Unit := do
  writeUleb buf t.len
  if t.len.toNat ≤ t.start.length then write buf [.emit t.chars] else exit .outside

/-- `wb_free` -/
def free (buf : Buf) : M Unit := issue (.free buf)

/-- `wb_sec_start`, the writes, and `wb_sec_end`, on the binary -/
def sec (id : UInt8) (ws : List Write) : M Unit := do
  let pos ← issue (.secStart id)
  write .out ws
  issue (.secEnd pos)

/-! ## Fields -/

/-- The types up to a closing parenthesis or another token -/
def valTypes : List Tok → List UInt8 × List Tok
  | [] => ([], [])
  | t :: toks =>
    if t.type = .rparen then ([], t :: toks)
    else
      match (parseVt (t :: toks)).1 with
      | some vt => (vt :: (valTypes toks).1, (valTypes toks).2)
      | none => ([], t :: toks)

/-- The parameters, results and locals of a function -/
structure Header where
  params : List UInt8
  results : List UInt8
  locals : List UInt8

/-- The loop over the parameters, results and locals. It takes a token in each round. -/
def headerLoop (withLocals : Bool) : ℕ → Header → List Tok → Header × List Tok
  | 0, h, toks => (h, toks)
  | _ + 1, h, [] => (h, [])
  | n + 1, h, t :: toks =>
    if t.type = .lparen then
      if matchId (word "param") toks then
        let (vts, toks) := valTypes (skipName toks.tail)
        headerLoop withLocals n { h with params := (h.params ++ vts).take 32 } (expect .rparen toks)
      else if matchId (word "result") toks then
        let (vts, toks) := valTypes toks.tail
        headerLoop withLocals n { h with results := (h.results ++ vts).take 8 } (expect .rparen toks)
      else if withLocals && matchId (word "local") toks then
        let (vts, toks) := valTypes (skipName toks.tail)
        headerLoop withLocals n { h with locals := h.locals ++ vts } (expect .rparen toks)
      else headerLoop withLocals n h (expect .rparen toks)
    else (h, t :: toks)

/-- The parameters, results and locals that come next -/
def header (withLocals : Bool) : M Header := do
  let (h, rest) := headerLoop withLocals (← toks).length ⟨[], [], []⟩ (← toks)
  setToks rest
  return h

/-- The entry of a function in the type section -/
def writeType (h : Header) : M Unit := do
  write .types [.put [0x60]]
  writeUleb .types (UInt32.ofNat h.params.length)
  write .types (h.params.map fun vt => .put [vt])
  writeUleb .types (UInt32.ofNat h.results.length)
  write .types (h.results.map fun vt => .put [vt])
  modify fun s => { s with nTypes := s.nTypes + 1 }

/-- `nt_add` of a name that may be there -/
def addName : M Unit := do
  let v ← get
  match v.toks with
  | [] => return
  | t :: toks =>
    if isName t then
      setToks toks
      if v.names.length < 64 then
        modify fun v => { v with names := v.names ++ [⟨t.start, t.len, v.nImportFuncs⟩] }

/-- `(import "module" "name" (func ...))` -/
def importField : M Unit := do
  next
  let modT ← require .string
  let nameT ← require .string
  expects .lparen
  if ← matchesId "func" then
    next
    addName
    let h ← header false
    writeType h
    writeStr .imports modT
    writeStr .imports nameT
    write .imports [.put [0x00]]
    writeUleb .imports ((← get).nTypes - 1)
    modify fun s => { s with nImportFuncs := s.nImportFuncs + 1 }
    expects .rparen
  else exit .error
  expects .rparen

/-- `(memory pages)` -/
def memoryField : M Unit := do
  next
  let pages ← numberTok
  write .mem [.put [0x00], .emit (wbUleb (pages.getD 1))]
  expects .rparen

/-- A character of a string, or an escape: the byte, and how many characters it takes; nothing if it reads past the
text -/
def escapeStep (remain : ℕ) : List UInt8 → Option (UInt8 × ℕ)
  | [] => none
  | c :: sp =>
    if c = 92 ∧ 2 ≤ remain then
      match sp with
      | [] => none
      | d :: sp =>
        if d = 110 then some (10, 2)
        else if d = 116 then some (9, 2)
        else if d = 34 then some (34, 2)
        else if d = 92 then some (92, 2)
        else if d = 120 ∧ 4 ≤ remain then
          match sp with
          | [] => none
          | [e] => if isHex e then none else some (c, 1)
          | e :: f :: _ => if isHex e && isHex f then some (hexV e * 16 + hexV f, 4) else some (c, 1)
        else if 3 ≤ remain ∧ isHex d then
          match sp with
          | [] => none
          | e :: _ => if isHex e then some (hexV d * 16 + hexV e, 3) else some (c, 1)
        else some (c, 1)
    else some (c, 1)

/-- The loop over a string: the bytes, and whether it reads past the text. Each round takes a character. -/
def unescape : ℕ → ℕ → List UInt8 → List UInt8 × Bool
  | 0, _, _ => ([], false)
  | n + 1, remain, sp =>
    if remain = 0 then ([], false)
    else
      match escapeStep remain sp with
      | none => ([], true)
      | some (v, k) => (v :: (unescape n (remain - k) (sp.drop k)).1, (unescape n (remain - k) (sp.drop k)).2)

/-- The strings of a data segment -/
def dataStrings : List Tok → M Unit
  | [] => setToks []
  | t :: toks =>
    if t.type = .string then do
      let (vs, past) := unescape t.len.toNat t.len.toNat t.start
      write .db (vs.map fun v => .put [v])
      if past then exit .outside else dataStrings toks
    else setToks (t :: toks)

/-- `(data (i32.const offset) "bytes")` -/
def dataField : M Unit := do
  next
  expects .lparen
  let dataOff ← do
    if ← matchesId "i32.const" then
      next
      numberTok
    else pure none
  expects .rparen
  dataStrings (← toks)
  let db ← contents .db
  write .data [.put [0x00], .put [0x41], .emit (wbSleb (dataOff.getD 0).toInt32), .put [0x0B]]
  write .data [.emit (wbUleb (UInt32.ofNat db.length)), .emit db]
  modify fun s => { s with nDataSegs := s.nDataSegs + 1 }
  free .db
  expects .rparen

/-- `parse_expr` of a global, whose result is not used -/
def initExpr : M Unit := do
  let v ← get
  match parseExpr v.names v.toks with
  | .stays => return
  | .writes ws during after =>
    let ok : Bool ← issue (.init ws)
    setToks (if ok then after else during)
  | .fails shown toks =>
    showTok shown
    setToks toks
  | .outside => exit .outside

/-- The type of a global, and whether it is mutable -/
def globalType : M (Bool × Option UInt8) := do
  if nextIs .lparen (← toks) then
    next
    let isMut ← matchesId "mut"
    if isMut then next
    let (vt, rest) := parseVt (← toks)
    setToks (expect .rparen rest)
    return (isMut, vt)
  else
    let (vt, rest) := parseVt (← toks)
    setToks rest
    return (false, vt)

/-- `(global $name (mut type) init)` -/
def globalField : M Unit := do
  next
  setToks (skipName (← toks))
  let (isMut, vt) ← globalType
  match vt with
  | none => exit .error
  | some vt =>
    write .glob [.put [vt], .put [if isMut then 1 else 0]]
    if nextIs .lparen (← toks) then
      next
      initExpr
      expects .rparen
    write .glob [.put [0x0B]]
    modify fun s => { s with nGlobals := s.nGlobals + 1 }
    expects .rparen

/-- `(export "name")` in a function -/
def inlineExport : M Unit := do
  if nextIs .lparen (← toks) then
    next
    if ← matchesId "export" then
      next
      match ← toks with
      | [] => return
      | en :: _ =>
        if en.type = .string then
          writeStr .exports en
          write .exports [.put [0x00]]
          writeUleb .exports ((← get).nImportFuncs + (← get).nFuncs)
          modify fun s => { s with nExports := s.nExports + 1 }
          next
    expects .rparen

/-- The body of a function, and what happens if there is none -/
def bodyOf (rounds : ℕ) : M Unit := do
  let v ← get
  let w := parseBody v.names rounds v.toks
  issue (.body w.writes)
  match w.ending with
  | .closes toks => setToks toks
  | .fails shown =>
    showTok shown
    free .locals
    free .body
    exit .error
  | .outside => exit .outside
  | .endless => exit .endless

/-- `(func $name (export "name") (param ...) (result ...) (local ...) ...)` -/
def funcField (rounds : ℕ) : M Unit := do
  next
  setToks (skipName (← toks))
  inlineExport
  let h ← header true
  write .locals (h.locals.flatMap fun vt => [.emit (wbUleb 1), .put [vt]])
  writeType h
  writeUleb .funcs ((← get).nTypes - 1)
  modify fun s => { s with nFuncs := s.nFuncs + 1 }
  let locals ← contents .locals
  if locals ≠ [] then write .body [.emit (wbUleb 1), .emit locals]
  else write .body [.emit (wbUleb 0)]
  bodyOf rounds
  write .body [.put [0x0B]]
  let body ← contents .body
  write .entry [.emit (wbUleb (UInt32.ofNat body.length)), .emit body]
  write .code [.emit (← contents .entry)]
  free .locals
  free .body
  free .entry
  expects .rparen

/-- `(export "name" (func index))` -/
def exportField : M Unit := do
  next
  let en ← require .string
  expects .lparen
  if ← matchesId "func" then
    next
    let s ← get
    let fidx ← numberTok
    if nextIs .ident s.toks then next
    writeStr .exports en
    write .exports [.put [0x00]]
    writeUleb .exports (fidx.getD (s.nImportFuncs + s.nFuncs - 1))
    modify fun s => { s with nExports := s.nExports + 1 }
  expects .rparen
  expects .rparen

/-- `(start index)` -/
def startField : M Unit := do
  next
  match ← numberTok with
  | some si => writeUleb .start si
  | none => pure ()
  expects .rparen

/-- The loop over a construct that is not supported, up to the parenthesis that closes it -/
def skipField : ℕ → List Tok → List Tok
  | _, [] => []
  | d, t :: toks =>
    if t.type = .lparen then skipField (d + 1) toks
    else if t.type = .rparen then if d ≤ 1 then t :: toks else skipField (d - 1) toks
    else skipField d toks

/-- A field, behind its parenthesis -/
def field (rounds : ℕ) : M Unit := do
  if ← matchesId "import" then importField
  else if ← matchesId "memory" then memoryField
  else if ← matchesId "data" then dataField
  else if ← matchesId "global" then globalField
  else if ← matchesId "func" then funcField rounds
  else if ← matchesId "export" then exportField
  else if ← matchesId "start" then startField
  else setToks (skipField 1 (← toks))

/-- The loop over the fields -/
def fields (rounds : ℕ) : ℕ → M Unit
  | 0 => exit .endless
  | n + 1 => do
    match ← toks with
    | [] => return
    | t :: rest =>
      if t.type = .rparen ∨ t.type = .eof then return
      else if t.type ≠ .lparen then exit .error
      else
        setToks rest
        field rounds
        fields rounds n

/-! ## The module -/

/-- A section with a number of entries, from its buffer -/
def sectionIf (id : UInt8) (there : Bool) (n : UInt32) (buf : Buf) : M Unit := do
  if there then sec id [.emit (wbUleb n), .emit (← contents buf)]

/-- The buffers of the sections -/
def sectionBufs : List Buf := [.types, .imports, .funcs, .exports, .code, .mem, .data, .glob, .start]

/-- The sections in order -/
def sections : M Unit := do
  let v ← get
  sectionIf 1 ((← contents .types) ≠ [] ∨ v.nTypes > 0) v.nTypes .types
  sectionIf 2 (v.nImportFuncs > 0) v.nImportFuncs .imports
  sectionIf 3 (v.nFuncs > 0) v.nFuncs .funcs
  sectionIf 5 ((← contents .mem) ≠ []) 1 .mem
  sectionIf 6 (v.nGlobals > 0) v.nGlobals .glob
  sectionIf 7 (v.nExports > 0) v.nExports .exports
  let start ← contents .start
  if start ≠ [] then sec 8 [.emit start]
  sectionIf 10 (v.nFuncs > 0) v.nFuncs .code
  sectionIf 11 (v.nDataSegs > 0) v.nDataSegs .data
  sectionBufs.forM free

/-- `wat2wasm_compile` behind the lexer -/
def compileModule (rounds : ℕ) : M Unit := do
  write .out [.put [0x00], .put [0x61], .put [0x73], .put [0x6D], .put [0x01], .put [0x00], .put [0x00],
    .put [0x00]]
  if nextIs .lparen (← toks) then
    next
    if ← matchesId "module" then
      next
      fields rounds rounds
      expects .rparen
      sections
    else exit .error
  else exit .error

/-- What `wat2wasm_compile` comes to: it returns 0 and a binary, it returns -1, it reads past the text, or it does not
return. -/
inductive Result where
  | returns (wasm : List UInt8) (heap : Allocs)
  | fails (heap : Allocs)
  | outside
  | endless

/-- The binary that is returned -/
def Result.wasm : Result → Option (List UInt8)
  | returns wasm _ => some wasm
  | _ => none

/-- What is read of a text at first -/
def View.start (ts : List Tok) : View := ⟨ts, [], 0, 0, 0, 0, 0, 0⟩

/-- What the run behind the lexer comes to -/
def Result.of : Except (Exit × Mem) ((Unit × View) × Mem) → Result
  | .ok (_, s) => .returns (s.bufs .out).contents s.heap
  | .error (.leaves, s) => .fails s.heap
  | .error (.error, s) => .fails ((Buf.out :: sectionBufs).foldl Mem.free s).heap
  | .error (.outside, _) => .outside
  | .error (.endless, _) => .endless

/-- `wat2wasm_compile`, by the number of rounds -/
def wat2wasmCompile (alloc : ℕ → Option Bytes) (junk : ℕ → Tok) (rounds : ℕ) (wat : List UInt8) : Result :=
  match watLex junk rounds wat with
  | .endless => .endless
  | .failed => .fails ⟨0, []⟩
  | .tokens ts => .of ((compileModule rounds (.start ts)).exec (step alloc) Mem.init)

end Wat

end Sandflea
