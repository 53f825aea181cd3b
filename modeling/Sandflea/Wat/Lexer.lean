import Sandflea.Strings.Numbers

/-!
# The tokens of a WAT text

`wat_lex` cuts a text into at most 4095 tokens. A pointer into the text is what the text has from there on. A token that
is a parenthesis, or the one at the end, keeps the fields that nothing sets; the array of tokens is not initialised.
-/

namespace Sandflea

namespace Wat

/-- `tok_type_t`, as far as the lexer uses it -/
inductive TokType where
  | lparen | rparen | ident | int | string | eof
deriving DecidableEq

/-- `tok_t` -/
structure Tok where
  type : TokType
  start : List UInt8
  len : UInt32
  intVal : Int64
deriving DecidableEq

/-- The text of a token -/
def Tok.chars (t : Tok) : List UInt8 := t.start.take t.len.toNat

/-- The bytes of a string literal -/
def word (s : String) : List UInt8 := s.toList.map fun c => UInt8.ofNat c.toNat

/-- `TOK_MAX` -/
def tokMax : ℕ := 4096

/-! ## Characters -/

/-- A blank, a tab, or the end of a line -/
def isSpace (c : UInt8) : Bool := c == 32 || c == 9 || c == 10 || c == 13

def isDigit (c : UInt8) : Bool := 48 ≤ c && c ≤ 57

/-- `is_iden` -/
def isIden (c : UInt8) : Bool :=
  97 ≤ c && c ≤ 122 || 65 ≤ c && c ≤ 90 || isDigit c || (word "_-.$/:*+><=!~@#^&").contains c

/-- `hex_v(c) >= 0` -/
def isHex (c : UInt8) : Bool := isDigit c || 97 ≤ c && c ≤ 102 || 65 ≤ c && c ≤ 70

/-- `hex_v` of a hexadecimal digit -/
def hexV (c : UInt8) : UInt8 := if isDigit c then c - 48 else if 97 ≤ c && c ≤ 102 then c - 97 + 10 else c - 65 + 10

/-! ## The lexer -/

/-- What follows a block comment. One that is not closed takes the rest. -/
def skipBlock : List UInt8 → List UInt8
  | [] => []
  | c :: cs => if c = 59 ∧ cs.head? = some 41 then cs.tail else skipBlock cs

/-- The loop over a string: how far `p` goes, and what is there. A backslash takes the next character with it, also when
there is none. -/
def scanString : List UInt8 → ℕ × List UInt8
  | [] => (0, [])
  | [c] => if c = 34 then (0, [c]) else if c = 92 then (2, []) else (1, [])
  | c :: d :: cs =>
    if c = 34 then (0, c :: d :: cs)
    else if c = 92 then ((scanString cs).1 + 2, (scanString cs).2)
    else ((scanString (d :: cs)).1 + 1, (scanString (d :: cs)).2)

/-- A hexadecimal number at a place whose first character may be a sign, and what follows it -/
def lexHex (junk : Tok) (ns : List UInt8) : Option (Tok × List UInt8) :=
  let isNeg := ns.head? = some 45
  match if isNeg ∨ ns.head? = some 43 then ns.tail else ns with
  | 48 :: x :: cs =>
    let p := cs.dropWhile isHex
    let len := ns.length - p.length
    let skip := if isNeg then 3 else 2
    if (x = 120 ∨ x = 88) ∧ skip < len then
      let val := snToI64 (fun i => (ns.drop skip).getD i 0) (len - skip) 16
      some ({ junk with type := .int, start := ns, len := UInt32.ofNat len, intVal := if isNeg then -val else val }, p)
    else none
  | _ => none

/-- `all_digits`, with the sign that the first character may be -/
def allDigits : List UInt8 → Bool
  | [] => false
  | c :: cs => (isDigit c || c == 45 || c == 43) && cs.all isDigit

/-- A decimal number or an identifier, and what follows it -/
def lexWord (junk : Tok) (ns : List UInt8) : Tok × List UInt8 :=
  let chars := ns.takeWhile isIden
  let t := { junk with start := ns, len := UInt32.ofNat chars.length }
  if allDigits chars then
    ({ t with type := .int, intVal := snToI64 (fun i => ns.getD i 0) chars.length 10 }, ns.dropWhile isIden)
  else ({ t with type := .ident }, ns.dropWhile isIden)

/-- What a round of the loop does -/
inductive LexStep where
  | done
  | skips (cs : List UInt8)
  | token (t : Tok) (cs : List UInt8)
  | fails

/-- A round of the loop, with what is in the next token already, and the number of tokens -/
def lexStep (junk : Tok) (ntokens : ℕ) (text : List UInt8) : LexStep :=
  match text.dropWhile isSpace with
  | [] => .done
  | c :: cs =>
    if c = 59 ∧ cs.head? = some 59 then .skips ((c :: cs).dropWhile (· ≠ 10))
    else if c = 40 ∧ cs.head? = some 59 then .skips (skipBlock cs.tail)
    else if tokMax - 1 ≤ ntokens then .fails
    else if c = 40 then .token { junk with type := .lparen, start := c :: cs } cs
    else if c = 41 then .token { junk with type := .rparen, start := c :: cs } cs
    else if c = 34 then
      .token { junk with type := .string, start := cs, len := UInt32.ofNat (scanString cs).1 } (scanString cs).2.tail
    else if isIden c || c == 43 || c == 45 then
      match lexHex junk (c :: cs) with
      | some (t, p) => .token t p
      | none => .token (lexWord junk (c :: cs)).1 (lexWord junk (c :: cs)).2
    else .fails

/-- What the lexer comes to -/
inductive Lexed where
  | tokens (ts : List Tok)
  | failed
  | endless

/-- A token before the others -/
def Lexed.cons (t : Tok) : Lexed → Lexed
  | tokens ts => tokens (t :: ts)
  | failed => failed
  | endless => endless

/-- So many rounds of the loop, and the token at the end -/
def lexLoop (junk : ℕ → Tok) : ℕ → ℕ → List UInt8 → Lexed
  | 0, _, _ => .endless
  | rounds + 1, n, text =>
    match lexStep (junk n) n text with
    | .done => if tokMax - 1 ≤ n then .failed else .tokens [{ junk n with type := .eof }]
    | .skips cs => lexLoop junk rounds n cs
    | .token t cs => (lexLoop junk rounds (n + 1) cs).cons t
    | .fails => .failed

/-- `wat_lex`, by the number of rounds -/
def watLex (junk : ℕ → Tok) (rounds : ℕ) (text : List UInt8) : Lexed := lexLoop junk rounds 0 text

/-! ## Characters of words -/

theorem forall_byte {p : UInt8 → Prop} (h : ∀ n < 256, p (UInt8.ofNat n)) (c : UInt8) : p c := by
  have hc := h c.toNat c.toNat_lt
  rwa [UInt8.ofNat_toNat] at hc

/-- A character of a word is not one that is taken otherwise. -/
theorem of_isIden {c : UInt8} (h : isIden c = true) :
    isSpace c = false ∧ c ≠ 59 ∧ c ≠ 40 ∧ c ≠ 41 ∧ c ≠ 34 := by
  revert h
  exact forall_byte (p := fun c => isIden c = true → isSpace c = false ∧ c ≠ 59 ∧ c ≠ 40 ∧ c ≠ 41 ∧ c ≠ 34)
    (by decide +kernel) c

theorem isIden_of_isHex {c : UInt8} (h : isHex c = true) : isIden c = true := by
  revert h
  exact forall_byte (p := fun c => isHex c = true → isIden c = true) (by decide +kernel) c

theorem isHex_of_isDigit {c : UInt8} (h : isDigit c = true) : isHex c = true := by
  rw [isHex, h, Bool.true_or, Bool.true_or]

/-- A text ends, or goes on with a character that is in no word. -/
def Delimited (tail : List UInt8) : Prop := ∀ c ∈ tail.head?, isIden c = false

section

variable {junk : Tok} {n : ℕ} {p : UInt8 → Bool} {w tail : List UInt8}

theorem takeWhile_append (hw : ∀ c ∈ w, p c = true) (htail : ∀ c ∈ tail.head?, p c = false) :
    (w ++ tail).takeWhile p = w := by
  rw [List.takeWhile_append_of_pos hw]
  cases tail with
  | nil => exact List.append_nil w
  | cons c tail => rw [List.takeWhile_cons_of_neg (Bool.eq_false_iff.mp (htail c rfl)), List.append_nil]

theorem dropWhile_append (hw : ∀ c ∈ w, p c = true) (htail : ∀ c ∈ tail.head?, p c = false) :
    (w ++ tail).dropWhile p = tail := by
  rw [List.dropWhile_append_of_pos hw]
  cases tail with
  | nil => rfl
  | cons c tail => exact List.dropWhile_cons_of_neg (Bool.eq_false_iff.mp (htail c rfl))

/-- Blanks before a token make no difference. -/
theorem lexStep_blanks {blanks : List UInt8} (h : ∀ c ∈ blanks, isSpace c = true) (text : List UInt8) :
    lexStep junk n (blanks ++ text) = lexStep junk n text := by
  unfold lexStep
  rw [List.dropWhile_append_of_pos h]

/-- What is done with a word -/
theorem lexStep_word {c : UInt8} {cs : List UInt8} (hc : isIden c = true) (hn : n < tokMax - 1) :
    lexStep junk n (c :: cs) =
      match lexHex junk (c :: cs) with
      | some (t, rest) => .token t rest
      | none => .token (lexWord junk (c :: cs)).1 (lexWord junk (c :: cs)).2 := by
  obtain ⟨hspace, hsemi, hopen, hclose, hquote⟩ := of_isIden hc
  unfold lexStep
  rw [List.dropWhile_cons_of_neg (Bool.eq_false_iff.mp hspace)]
  dsimp only
  rw [if_neg fun h => hsemi h.1, if_neg fun h => hopen h.1, if_neg (Nat.not_le.mpr hn), if_neg hopen, if_neg hclose,
    if_neg hquote, hc, Bool.true_or, Bool.true_or, if_pos rfl]

theorem lexWord_eq (hw : ∀ c ∈ w, isIden c = true) (htail : Delimited tail) :
    lexWord junk (w ++ tail) =
      (if allDigits w then
          { junk with
            type := .int, start := w ++ tail, len := UInt32.ofNat w.length
            intVal := snToI64 (fun i => (w ++ tail).getD i 0) w.length 10 }
        else { junk with type := .ident, start := w ++ tail, len := UInt32.ofNat w.length }, tail) := by
  unfold lexWord
  rw [takeWhile_append hw htail, dropWhile_append hw htail]
  dsimp only
  split <;> rfl

variable (junk tail) in
/-- A word that does not begin like a number is an identifier. -/
theorem lexStep_ident {c : UInt8} {cs : List UInt8} (hw : ∀ d ∈ c :: cs, isIden d = true)
    (hc : isDigit c = false ∧ c ≠ 45 ∧ c ≠ 43) (htail : Delimited tail) (hn : n < tokMax - 1) :
    lexStep junk n (c :: cs ++ tail) =
      .token { junk with type := .ident, start := c :: cs ++ tail, len := UInt32.ofNat (c :: cs).length } tail := by
  obtain ⟨hdigit, hminus, hplus⟩ := hc
  have hnumber : allDigits (c :: cs) = false := by
    rw [allDigits, hdigit, beq_eq_false_iff_ne.mpr hminus, beq_eq_false_iff_ne.mpr hplus]
    rfl
  have hhex : lexHex junk (c :: cs ++ tail) = none := by
    have hsign : ¬ (((c :: cs ++ tail).head? = some 45) ∨ ((c :: cs ++ tail).head? = some 43)) := by
      rintro (h | h)
      · exact hminus (Option.some.inj h)
      · exact hplus (Option.some.inj h)
    unfold lexHex
    dsimp only
    rw [if_neg hsign]
    split
    · rename_i heq
      cases (List.cons.inj heq).1
      cases hdigit
    · rfl
  rw [List.cons_append, lexStep_word (hw c List.mem_cons_self) hn, ← List.cons_append, hhex, lexWord_eq hw htail,
    hnumber]
  rfl

end

section

variable {junk : ℕ → Tok} {rounds n : ℕ} {text rest : List UInt8} {t : Tok}

theorem lexLoop_of_token (h : lexStep (junk n) n text = .token t rest) :
    lexLoop junk (rounds + 1) n text = (lexLoop junk rounds (n + 1) rest).cons t := by
  rw [lexLoop, h]

theorem lexLoop_nil (hn : n < tokMax - 1) :
    lexLoop junk (rounds + 1) n [] = .tokens [{ junk n with type := .eof }] := by
  have hdone : lexStep (junk n) n [] = .done := rfl
  rw [lexLoop, hdone]
  exact if_neg (Nat.not_le.mpr hn)

end

end Wat

end Sandflea
