import Sandflea.Wat.Parser

/-!
# Integer constants in WAT

The value of a literal goes through the lexer, `sn_to_i64`, a cast to 32 bits and `wb_sleb`. An underscore between the
digits ends a hexadecimal number and makes a decimal one an identifier, a plus sign before a hexadecimal number makes it
zero, and `i64.const` has the cast of `i32.const`. `int_const_iff` says for which literals the value comes through.
-/

namespace Sandflea

namespace Wat

/-! ## Literals -/

inductive Sign where
  | none | plus | minus

def Sign.text : Sign → List UInt8
  | none => []
  | plus => [43]
  | minus => [45]

/-- A digit of a decimal or a hexadecimal number -/
def isNumeral (hex : Bool) (c : UInt8) : Bool := if hex then isHex c else isDigit c

/-- An integer literal of the text format: each digit but the first may have an underscore before it. -/
structure IntLiteral where
  sign : Sign
  hex : Bool
  first : UInt8
  rest : List (Bool × UInt8)
  first_valid : isNumeral hex first = true
  rest_valid : ∀ d ∈ rest, isNumeral hex d.2 = true

namespace IntLiteral

variable (lit : IntLiteral)

def base : ℕ := if lit.hex then 16 else 10

/-- The digits, with the underscores between them -/
def digitsText : List UInt8 := lit.first :: lit.rest.flatMap fun d => if d.1 then [95, d.2] else [d.2]

/-- The literal as it is written -/
def text : List UInt8 := lit.sign.text ++ (if lit.hex then [48, 120] else []) ++ lit.digitsText

/-- The digits -/
def digits : List UInt8 := lit.first :: lit.rest.map Prod.snd

def magnitude : ℕ := lit.digits.foldl (fun a c => a * lit.base + (hexV c).toNat) 0

/-- The number that is meant -/
def value : ℤ :=
  match lit.sign with
  | .minus => -lit.magnitude
  | _ => lit.magnitude

/-- It is a number of a type, signed or unsigned. -/
def InRange (width : ℕ) : Prop := -(2 ^ (width - 1)) ≤ lit.value ∧ lit.value < 2 ^ width

/-- There is no underscore. -/
def Plain : Prop := ∀ d ∈ lit.rest, d.1 = false

/-- A plus sign before a hexadecimal number other than zero -/
def PlusHex : Prop := lit.sign = .plus ∧ lit.hex = true ∧ lit.value ≠ 0

end IntLiteral

/-! ## What a constant should be -/

/-- A signed LEB128 of a number of a type, that is some number modulo the width -/
def Encodes (width : ℕ) (bytes : List UInt8) (value : ℤ) : Prop :=
  ∃ v, Leb128.decodeSigned bytes = some (v, []) ∧ -(2 ^ (width - 1)) ≤ v ∧ v < 2 ^ (width - 1) ∧
    v % 2 ^ width = value % 2 ^ width

/-- Wherever the instruction and the literal stand, they are two tokens, and the instruction is compiled to its opcode
and the number. -/
def ConstOk (name : String) (op : UInt8) (width : ℕ) (lit : IntLiteral) : Prop :=
  ∀ (junk : ℕ → Tok) (rounds n : ℕ) (blanks tail : List UInt8), n + 2 < tokMax → blanks ≠ [] →
    (∀ c ∈ blanks, isSpace c = true) → Delimited tail →
    ∃ t v, lexLoop junk (rounds + 2) n (word name ++ (blanks ++ (lit.text ++ tail))) =
        ((lexLoop junk rounds (n + 2) tail).cons v).cons t ∧
      ∀ names toks, ∃ bytes, parseExpr names (t :: v :: toks) = .writes [.put [op], .emit bytes] (v :: toks) toks ∧
        Encodes width bytes lit.value

/-! ## Reading the digits -/

theorem of_isHex {c : UInt8} (h : isHex c = true) :
    digitValue c = some (hexV c).toNat ∧ (hexV c).toNat < 16 ∧ c ≠ 0 ∧ c ≠ 43 ∧ c ≠ 45 ∧ c ≠ 95 := by
  revert h
  exact forall_byte (p := fun c => isHex c = true →
    digitValue c = some (hexV c).toNat ∧ (hexV c).toNat < 16 ∧ c ≠ 0 ∧ c ≠ 43 ∧ c ≠ 45 ∧ c ≠ 95) (by decide +kernel) c

theorem of_isDigit {c : UInt8} (h : isDigit c = true) : (hexV c).toNat < 10 ∧ c ≠ 120 ∧ c ≠ 88 := by
  revert h
  exact forall_byte (p := fun c => isDigit c = true → (hexV c).toNat < 10 ∧ c ≠ 120 ∧ c ≠ 88) (by decide +kernel) c

theorem isHex_of_isNumeral {hex : Bool} {c : UInt8} (h : isNumeral hex c = true) : isHex c = true := by
  cases hex with
  | false => exact isHex_of_isDigit h
  | true => exact h

/-- Digits are read as the number that they are, up to the last of them. -/
theorem parseLoop_numerals {hex : Bool} {cs : List UInt8} (hcs : ∀ c ∈ cs, isNumeral hex c = true) {str : Bytes}
    {i a : ℕ} (htext : HoldsText str i cs) :
    parseLoop str (if hex then 16 else 10) cs.length i (Int64.ofNat a) =
      Int64.ofNat (cs.foldl (fun a c => a * (if hex then 16 else 10) + (hexV c).toNat) a) := by
  induction cs generalizing i a with
  | nil => rfl
  | cons c cs ih =>
    obtain ⟨hc, hrest⟩ := List.forall_mem_cons.mp hcs
    rw [HoldsText.cons_iff] at htext
    obtain ⟨hvalue, hlt, hnz, -⟩ := of_isHex (isHex_of_isNumeral hc)
    have hbase : ¬ (if hex then 16 else 10) ≤ (hexV c).toNat := by
      cases hex with
      | false =>
        have hten := (of_isDigit hc).1
        exact Nat.not_le.mpr hten
      | true => exact Nat.not_le.mpr hlt
    rw [List.length_cons, parseLoop, htext.1, if_neg hnz, hvalue]
    dsimp only
    rw [if_neg hbase, ← Int64.ofNat_mul, ← Int64.ofNat_add]
    exact ih hrest htext.2

theorem holdsText_getD (pre cs tail : List UInt8) :
    HoldsText (fun i => (pre ++ (cs ++ tail)).getD i 0) pre.length cs := by
  intro j hj
  dsimp only
  rw [List.getD_append_right _ _ _ _ (Nat.le_add_right _ _), Nat.add_sub_cancel_left, List.getD_append _ _ _ _ hj,
    List.getD_eq_getElem _ _ hj]

namespace IntLiteral

variable {lit : IntLiteral}

theorem digits_valid (lit : IntLiteral) : ∀ c ∈ lit.digits, isNumeral lit.hex c = true := by
  refine List.forall_mem_cons.mpr ⟨lit.first_valid, fun c hc => ?_⟩
  obtain ⟨d, hd, rfl⟩ := List.mem_map.mp hc
  exact lit.rest_valid d hd

theorem digitsText_of_plain (h : lit.Plain) : lit.digitsText = lit.digits := by
  have hrest : ∀ rest : List (Bool × UInt8), (∀ d ∈ rest, d.1 = false) →
      (rest.flatMap fun d => if d.1 then [95, d.2] else [d.2]) = rest.map Prod.snd := fun rest hrest => by
    induction rest with
    | nil => rfl
    | cons d rest ih =>
      obtain ⟨hd, htail⟩ := List.forall_mem_cons.mp hrest
      rw [List.flatMap_cons, hd, ih htail]
      rfl
  exact congrArg (lit.first :: ·) (hrest lit.rest h)

/-- `sn_to_i64` of the digits -/
theorem snToI64_digits (lit : IntLiteral) (tail : List UInt8) :
    snToI64 (fun i => (lit.digits ++ tail).getD i 0) lit.digits.length lit.base = Int64.ofNat lit.magnitude := by
  have htext := holdsText_getD [] lit.digits tail
  have hfirst : (fun i => (lit.digits ++ tail).getD i 0) 0 = lit.first := rfl
  obtain ⟨-, -, -, hplus, hminus, -⟩ := of_isHex (isHex_of_isNumeral lit.first_valid)
  have hbase : ¬ (lit.digits.length = 0 ∨ lit.base < 2 ∨ 36 < lit.base) := by
    unfold base digits
    rw [List.length_cons]
    split <;> omega
  unfold snToI64
  rw [if_neg hbase, hfirst, if_neg hminus, if_neg hplus]
  exact (Int64.mul_one _).trans (parseLoop_numerals lit.digits_valid htext)

/-- `sn_to_i64` of a sign and the digits -/
theorem snToI64_signed (h : lit.hex = false) (tail : List UInt8) :
    snToI64 (fun i => (lit.sign.text ++ (lit.digits ++ tail)).getD i 0) (lit.sign.text ++ lit.digits).length 10 =
      Int64.ofInt lit.value := by
  have htext := holdsText_getD lit.sign.text lit.digits tail
  have hparse := parseLoop_numerals lit.digits_valid (a := 0) htext
  have hten : lit.base = 10 := by rw [base, h]; rfl
  have hmag : lit.magnitude = lit.digits.foldl (fun a c => a * 10 + (hexV c).toNat) 0 := by rw [magnitude, hten]
  rw [h] at hparse
  rw [List.length_append]
  unfold value
  cases hsign : lit.sign with
  | none =>
    have hdigits := lit.snToI64_digits tail
    rw [hten] at hdigits
    rw [Sign.text, List.nil_append, List.length_nil, Nat.zero_add, hdigits]
    exact Int64.ofInt_eq_ofNat.symm
  | plus =>
    rw [hsign] at hparse
    unfold snToI64
    rw [if_neg (by rw [Sign.text, List.length_singleton]; omega)]
    show (if (43 : UInt8) = 45 then _ else if (43 : UInt8) = 43 then _ else _) = _
    rw [if_neg (by decide), if_pos rfl, Int64.mul_one]
    refine Eq.trans ?_ (hparse.trans ?_)
    · rw [Sign.text, List.length_singleton, Nat.add_sub_cancel_left]
      rfl
    · rw [hmag]
      exact Int64.ofInt_eq_ofNat.symm
  | minus =>
    rw [hsign] at hparse
    unfold snToI64
    rw [if_neg (by rw [Sign.text, List.length_singleton]; omega)]
    show (if (45 : UInt8) = 45 then _ else _) = _
    rw [if_pos rfl, hmag]
    have hread : parseLoop (fun i => (Sign.minus.text ++ (lit.digits ++ tail)).getD i 0) 10
        (Sign.minus.text.length + lit.digits.length - 1) 1 0 =
          Int64.ofNat (lit.digits.foldl (fun a c => a * 10 + (hexV c).toNat) 0) := by
      rw [Sign.text, List.length_singleton, Nat.add_sub_cancel_left]
      exact hparse
    rw [hread, Int64.ofInt_neg, Int64.ofInt_eq_ofNat]
    exact (Int64.mul_neg _ 1).trans (congrArg Neg.neg (Int64.mul_one _))

theorem of_mem_digitsText {c : UInt8} (h : c ∈ lit.digitsText) : isNumeral lit.hex c = true ∨ c = 95 := by
  rcases List.mem_cons.mp h with rfl | h
  · exact .inl lit.first_valid
  · obtain ⟨d, hd, hc⟩ := List.mem_flatMap.mp h
    have hvalid := lit.rest_valid d hd
    split at hc
    · rcases List.mem_cons.mp hc with rfl | hc
      · exact .inr rfl
      · exact .inl (List.mem_singleton.mp hc ▸ hvalid)
    · exact .inl (List.mem_singleton.mp hc ▸ hvalid)

theorem isIden_of_mem_text {c : UInt8} (h : c ∈ lit.text) : isIden c = true := by
  rcases List.mem_append.mp h with h | h
  · rcases List.mem_append.mp h with h | h
    · cases hsign : lit.sign with
      | none =>
        rw [hsign] at h
        cases h
      | plus =>
        rw [hsign] at h
        rw [List.mem_singleton.mp h]
        decide
      | minus =>
        rw [hsign] at h
        rw [List.mem_singleton.mp h]
        decide
    · split at h
      · rcases List.mem_cons.mp h with rfl | h
        · decide
        · rw [List.mem_singleton.mp h]
          decide
      · cases h
  · rcases of_mem_digitsText h with h | rfl
    · exact isIden_of_isHex (isHex_of_isNumeral h)
    · decide

theorem mem_digitsText_of_not_plain (h : ¬ lit.Plain) : 95 ∈ lit.digitsText := by
  unfold Plain at h
  push Not at h
  obtain ⟨d, hd, hunder⟩ := h
  refine List.mem_cons_of_mem _ (List.mem_flatMap.mpr ⟨d, hd, ?_⟩)
  rw [if_pos (Bool.ne_false_iff.mp hunder)]
  exact List.mem_cons_self

end IntLiteral

/-! ## Lexing a literal -/

section

variable {junk : Tok} {n : ℕ} {lit : IntLiteral} {tail : List UInt8}

theorem lexStep_of_head {ns : List UInt8} {c : UInt8} (hhead : ns.head? = some c) (hc : isIden c = true)
    (hn : n < tokMax - 1) :
    lexStep junk n ns =
      match lexHex junk ns with
      | some (t, rest) => .token t rest
      | none => .token (lexWord junk ns).1 (lexWord junk ns).2 := by
  cases ns with
  | nil => cases hhead
  | cons d ns =>
    cases hhead
    exact lexStep_word hc hn

/-- How many characters `lexHex` leaves out before the digits -/
def skipped : Sign → ℕ
  | .minus => 3
  | _ => 2

/-- A hexadecimal number behind a sign -/
theorem lexHex_sign (s : Sign) (cs : List UInt8) :
    lexHex junk (s.text ++ 48 :: 120 :: cs) =
      (let ns := s.text ++ 48 :: 120 :: cs
        let len := ns.length - (cs.dropWhile isHex).length
        let val := snToI64 (fun i => (ns.drop (skipped s)).getD i 0) (len - skipped s) 16
        if skipped s < len then
          some ({ junk with
            type := .int, start := ns, len := UInt32.ofNat len
            intVal := match s with | .minus => -val | _ => val }, cs.dropWhile isHex)
        else none) := by
  cases s <;> simp [lexHex, Sign.text, skipped]

theorem lexHex_eq_none (s : Sign) {c : UInt8} {cs : List UInt8} (hc : c ≠ 45 ∧ c ≠ 43)
    (hcs : ∀ d ∈ cs.head?, d ≠ 120 ∧ d ≠ 88) : lexHex junk (s.text ++ c :: cs) = none := by
  have hrest : (if (s.text ++ c :: cs).head? = some 45 ∨ (s.text ++ c :: cs).head? = some 43 then
      (s.text ++ c :: cs).tail else s.text ++ c :: cs) = c :: cs := by
    cases s with
    | none =>
      refine if_neg ?_
      rintro (h | h)
      · exact hc.1 (Option.some.inj h)
      · exact hc.2 (Option.some.inj h)
    | plus => exact if_pos (.inr rfl)
    | minus => exact if_pos (.inl rfl)
  unfold lexHex
  dsimp only
  rw [hrest]
  split
  · rename_i x cs' heq
    obtain ⟨rfl, rfl⟩ := List.cons.inj heq
    obtain ⟨hx, hX⟩ := hcs x rfl
    rw [if_neg]
    rintro ⟨rfl | rfl, -⟩
    · exact hx rfl
    · exact hX rfl
  · rfl

theorem head_text (lit : IntLiteral) (tail : List UInt8) :
    ∃ c, (lit.text ++ tail).head? = some c ∧ isIden c = true := by
  cases htext : lit.text with
  | nil =>
    have hne : lit.text ≠ [] := List.append_ne_nil_of_right_ne_nil _ nofun
    exact absurd htext hne
  | cons c cs => exact ⟨c, rfl, IntLiteral.isIden_of_mem_text (htext ▸ List.mem_cons_self)⟩

/-- What is done with a decimal literal -/
theorem lexStep_decimal (h : lit.hex = false) (htail : Delimited tail) (hn : n < tokMax - 1) :
    lexStep junk n (lit.text ++ tail) =
      .token (if allDigits lit.text then
          { junk with
            type := .int, start := lit.text ++ tail, len := UInt32.ofNat lit.text.length
            intVal := snToI64 (fun i => (lit.text ++ tail).getD i 0) lit.text.length 10 }
        else { junk with type := .ident, start := lit.text ++ tail, len := UInt32.ofNat lit.text.length }) tail := by
  obtain ⟨c, hhead, hc⟩ := head_text lit tail
  have hhex : lexHex junk (lit.text ++ tail) = none := by
    have htext : lit.text ++ tail = lit.sign.text ++ lit.first :: ((lit.rest.flatMap fun d =>
        if d.1 then [95, d.2] else [d.2]) ++ tail) := by
      unfold IntLiteral.text IntLiteral.digitsText
      rw [h, if_neg Bool.false_ne_true, List.append_nil, List.append_assoc, List.cons_append]
    obtain ⟨-, -, -, hplus, hminus, -⟩ := of_isHex (isHex_of_isNumeral lit.first_valid)
    rw [htext]
    refine lexHex_eq_none lit.sign ⟨hminus, hplus⟩ fun d hd => ?_
    -- the second character is a digit, an underscore, or what follows the literal
    have hvalid := lit.rest_valid
    cases hrest : lit.rest with
    | nil =>
      rw [hrest] at hd
      have hdelim := htail d hd
      constructor
      · rintro rfl
        cases hdelim
      · rintro rfl
        cases hdelim
    | cons e rest =>
      rw [hrest] at hd hvalid
      have hnum := hvalid e List.mem_cons_self
      rw [h] at hnum
      rw [List.flatMap_cons] at hd
      split at hd
      · cases hd
        decide
      · cases hd
        exact (of_isDigit hnum).2
  rw [lexStep_of_head hhead hc hn, hhex, lexWord_eq (fun d hd => IntLiteral.isIden_of_mem_text hd) htail]

theorem text_hex (h : lit.hex = true) (tail : List UInt8) :
    lit.text ++ tail = lit.sign.text ++ 48 :: 120 :: (lit.digitsText ++ tail) := by
  unfold IntLiteral.text
  rw [h, if_pos rfl, List.append_assoc, List.append_assoc]
  rfl

/-- What a hexadecimal literal is read as -/
def IntLiteral.hexValue (lit : IntLiteral) : ℤ :=
  match lit.sign with
  | .plus => 0
  | _ => lit.value

/-- `sn_to_i64` behind the prefix. Behind a plus sign it is given the `x`. -/
theorem snToI64_hex (h : lit.hex = true) (tail : List UInt8) :
    (match lit.sign with
      | .minus => -snToI64 (fun i => ((lit.sign.text ++ 48 :: 120 :: (lit.digits ++ tail)).drop
          (skipped lit.sign)).getD i 0) (lit.sign.text.length + 2 + lit.digits.length - skipped lit.sign) 16
      | _ => snToI64 (fun i => ((lit.sign.text ++ 48 :: 120 :: (lit.digits ++ tail)).drop
          (skipped lit.sign)).getD i 0) (lit.sign.text.length + 2 + lit.digits.length - skipped lit.sign) 16) =
      Int64.ofInt lit.hexValue := by
  have hdigits := lit.snToI64_digits tail
  have hbase : lit.base = 16 := by rw [IntLiteral.base, h]; rfl
  rw [hbase] at hdigits
  unfold IntLiteral.hexValue IntLiteral.value
  cases hsign : lit.sign with
  | none =>
    show snToI64 _ (0 + 2 + lit.digits.length - 2) 16 = _
    rw [Nat.zero_add, Nat.add_sub_cancel_left]
    exact hdigits.trans Int64.ofInt_eq_ofNat.symm
  | plus =>
    show snToI64 (fun i => (120 :: (lit.digits ++ tail)).getD i 0) (1 + 2 + lit.digits.length - 2) 16 = 0
    have hlen : 1 + 2 + lit.digits.length - 2 = lit.digits.length + 1 := by omega
    rw [hlen]
    rfl
  | minus =>
    show -snToI64 (fun i => (lit.digits ++ tail).getD i 0) (1 + 2 + lit.digits.length - 3) 16 = _
    rw [show 1 + 2 + lit.digits.length - 3 = lit.digits.length by omega, hdigits, Int64.ofInt_neg, Int64.ofInt_eq_ofNat]

/-- What is done with a hexadecimal literal: it is read up to the first character that is no digit. -/
theorem lexStep_hex (h : lit.hex = true) (hn : n < tokMax - 1) {ds rest : List UInt8}
    (hsplit : lit.digitsText ++ tail = ds ++ rest) (hds : ∀ c ∈ ds, isHex c = true) (hne : ds ≠ [])
    (hrest : ∀ c ∈ rest.head?, isHex c = false) :
    lexStep junk n (lit.text ++ tail) =
      .token { junk with
        type := .int, start := lit.text ++ tail, len := UInt32.ofNat (lit.sign.text.length + 2 + ds.length)
        intVal := match lit.sign with
          | .minus => -snToI64 (fun i => ((lit.sign.text ++ 48 :: 120 :: (ds ++ rest)).drop
              (skipped lit.sign)).getD i 0) (lit.sign.text.length + 2 + ds.length - skipped lit.sign) 16
          | _ => snToI64 (fun i => ((lit.sign.text ++ 48 :: 120 :: (ds ++ rest)).drop
              (skipped lit.sign)).getD i 0) (lit.sign.text.length + 2 + ds.length - skipped lit.sign) 16 } rest := by
  obtain ⟨c, hhead, hc⟩ := head_text lit tail
  have hlen : (lit.sign.text ++ 48 :: 120 :: (ds ++ rest)).length - rest.length =
      lit.sign.text.length + 2 + ds.length := by
    rw [List.length_append, List.length_cons, List.length_cons, List.length_append]
    omega
  have hpos := List.length_pos_iff.mpr hne
  have hskip : skipped lit.sign < lit.sign.text.length + 2 + ds.length := by
    cases lit.sign with
    | none =>
      show 2 < 0 + 2 + ds.length
      omega
    | plus =>
      show 2 < 1 + 2 + ds.length
      omega
    | minus =>
      show 3 < 1 + 2 + ds.length
      omega
  rw [lexStep_of_head hhead hc hn, text_hex h, hsplit, lexHex_sign, dropWhile_append hds hrest]
  dsimp only
  rw [hlen, if_pos hskip]

variable (junk n tail) in
/-- A literal without an underscore is one token. -/
theorem lexStep_plain (h : lit.Plain) (htail : Delimited tail) (hn : n < tokMax - 1) :
    ∃ v, lexStep junk n (lit.text ++ tail) = .token v tail ∧ v.type = .int ∧
      v.intVal = Int64.ofInt (if lit.hex then lit.hexValue else lit.value) := by
  have hdigits := IntLiteral.digitsText_of_plain h
  cases hhex : lit.hex with
  | false =>
    have htext : lit.text = lit.sign.text ++ lit.digits := by
      rw [IntLiteral.text, hdigits, hhex, if_neg Bool.false_ne_true, List.append_nil]
    have hall : allDigits lit.text = true := by
      have hvalid := lit.digits_valid
      rw [hhex] at hvalid
      have hcons : lit.digits.all isDigit = true := List.all_eq_true.mpr hvalid
      rw [htext]
      cases lit.sign with
      | none =>
        obtain ⟨hfirst, hrest⟩ := List.forall_mem_cons.mp hvalid
        have hd : isDigit lit.first = true := hfirst
        have hds : (lit.rest.map Prod.snd).all isDigit = true := List.all_eq_true.mpr hrest
        show ((isDigit lit.first || lit.first == 45 || lit.first == 43) && (lit.rest.map Prod.snd).all isDigit) = true
        rw [hd, hds]
        rfl
      | plus => exact hcons
      | minus => exact hcons
    refine ⟨_, lexStep_decimal hhex htail hn, ?_, ?_⟩
    · rw [hall]
      rfl
    · rw [hall, if_pos rfl]
      show snToI64 (fun i => (lit.text ++ tail).getD i 0) lit.text.length 10 = Int64.ofInt lit.value
      rw [htext, List.append_assoc]
      exact IntLiteral.snToI64_signed hhex tail
  | true =>
    have hsplit : lit.digitsText ++ tail = lit.digits ++ tail := by rw [hdigits]
    have hends : ∀ c ∈ tail.head?, isHex c = false := fun c hc => by
      by_contra hc'
      have hiden := isIden_of_isHex (Bool.eq_true_of_not_eq_false hc')
      rw [htail c hc] at hiden
      cases hiden
    exact ⟨_, lexStep_hex hhex hn hsplit (fun c hc => isHex_of_isNumeral (lit.digits_valid c hc))
      (List.cons_ne_nil _ _) hends, rfl, snToI64_hex hhex tail⟩

theorem allDigits_eq_false {w : List UInt8} (h : 95 ∈ w) : allDigits w = false := by
  cases w with
  | nil => cases h
  | cons c cs =>
    rcases List.mem_cons.mp h with rfl | h
    · rfl
    · have hall : cs.all isDigit = false := List.all_eq_false.mpr ⟨95, h, by decide⟩
      rw [allDigits, hall, Bool.and_false]

variable (junk tail) in
/-- One with an underscore is an identifier, or a number with an identifier behind it. -/
theorem lexStep_not_plain (h : ¬ lit.Plain) (htail : Delimited tail) (hn : n < tokMax - 1) :
    (∃ v, lexStep junk n (lit.text ++ tail) = .token v tail ∧ v.type = .ident) ∨
      ∃ v post, lexStep junk n (lit.text ++ tail) = .token v (95 :: post ++ tail) ∧ ∀ c ∈ post, isIden c = true := by
  have hmem := IntLiteral.mem_digitsText_of_not_plain h
  cases hhex : lit.hex with
  | false =>
    left
    have hall : allDigits lit.text = false := allDigits_eq_false (List.mem_append_right _ hmem)
    refine ⟨_, lexStep_decimal hhex htail hn, ?_⟩
    rw [hall]
    rfl
  | true =>
    right
    -- the number goes up to the first underscore
    have hparts : lit.digitsText.takeWhile isHex ++ lit.digitsText.dropWhile isHex = lit.digitsText :=
      List.takeWhile_append_dropWhile
    obtain ⟨post, hpost⟩ : ∃ post, lit.digitsText.dropWhile isHex = 95 :: post := by
      cases hdrop : lit.digitsText.dropWhile isHex with
      | nil =>
        have hhexes := List.dropWhile_eq_nil_iff.mp hdrop 95 hmem
        cases hhexes
      | cons c post =>
        have hnot : isHex c = false := by
          have hhead := List.head?_dropWhile_not isHex lit.digitsText
          rw [hdrop] at hhead
          simpa using hhead
        have hc : c ∈ lit.digitsText := by
          rw [← hparts, hdrop]
          exact List.mem_append_right _ List.mem_cons_self
        rcases IntLiteral.of_mem_digitsText hc with hnum | rfl
        · rw [isHex_of_isNumeral hnum] at hnot
          cases hnot
        · exact ⟨post, rfl⟩
    have hsplit : lit.digitsText ++ tail = lit.digitsText.takeWhile isHex ++ (95 :: post ++ tail) := by
      rw [← List.append_assoc, ← hpost, hparts]
    have hne : lit.digitsText.takeWhile isHex ≠ [] := by
      unfold IntLiteral.digitsText
      rw [List.takeWhile_cons_of_pos (isHex_of_isNumeral lit.first_valid)]
      exact List.cons_ne_nil _ _
    refine ⟨_, post, lexStep_hex hhex hn hsplit (fun c hc => List.mem_takeWhile_imp hc) hne (fun c hc => ?_),
      fun c hc => ?_⟩
    · cases hc
      rfl
    · have hc' : c ∈ lit.digitsText := by
        rw [← hparts, hpost]
        exact List.mem_append_right _ (List.mem_cons_of_mem _ hc)
      exact IntLiteral.isIden_of_mem_text (List.mem_append_right _ hc')

end

/-! ## When a constant keeps its value -/

theorem encodes_iff (width : ℕ) (x value : ℤ) :
    Encodes width (wbSleb (Int32.ofInt x)) value ↔
      -(2 ^ (width - 1)) ≤ x.bmod (2 ^ 32) ∧ x.bmod (2 ^ 32) < 2 ^ (width - 1) ∧
        x.bmod (2 ^ 32) % 2 ^ width = value % 2 ^ width := by
  have hdecode := Leb128.decodeSigned_signed (Int32.ofInt x).toInt []
  rw [List.append_nil, ← wbSleb_eq, Int32.toInt_ofInt] at hdecode
  constructor
  · rintro ⟨v, hv, hlow, hhigh, hmod⟩
    rw [hdecode] at hv
    cases hv
    exact ⟨hlow, hhigh, hmod⟩
  · exact fun ⟨hlow, hhigh, hmod⟩ => ⟨_, hdecode, hlow, hhigh, hmod⟩

/-- The number that is in the token of a literal -/
def IntLiteral.readValue (lit : IntLiteral) : ℤ := if lit.hex then lit.hexValue else lit.value

/-- The instruction of a constant -/
structure IsConst (name : String) (op : UInt8) : Prop where
  form : ∃ f, (forms.find? fun f => word name == word f.1) = some f ∧ f.2 = .const op
  spelled : ∃ c cs, word name = c :: cs ∧ (∀ d ∈ c :: cs, isIden d = true) ∧ isDigit c = false ∧ c ≠ 45 ∧ c ≠ 43
  short : (word name).length < 2 ^ 32
  other : ¬ (word name = word "end" ∨ word name = word "else")

theorem IsConst.parseExpr {name : String} {op : UInt8} (h : IsConst name op) {t : Tok} (ht : IsWord t (word name))
    (names : List ImportName) (v : Tok) (toks : List Tok) :
    parseExpr names (t :: v :: toks) =
      if v.type = .int then .writes [.put [op], .emit (wbSleb v.intVal.toInt32)] (v :: toks) toks
      else .fails none (v :: toks) := by
  obtain ⟨f, hfind, hf⟩ := h.form
  rw [ht.parseExpr, if_neg h.other, hfind]
  show f.2.parse names (v :: toks) = _
  rw [hf]
  rfl

/-- The name is a token of its own. -/
theorem IsConst.lexStep {name : String} {op : UInt8} (h : IsConst name op) (junk : Tok) {n : ℕ} (hn : n < tokMax - 1)
    {blanks : List UInt8} (hne : blanks ≠ []) (hblanks : ∀ c ∈ blanks, isSpace c = true) (text : List UInt8) :
    ∃ t, lexStep junk n (word name ++ (blanks ++ text)) = .token t (blanks ++ text) ∧ IsWord t (word name) := by
  obtain ⟨c, cs, hword, hiden, hc⟩ := h.spelled
  have hdelim : Delimited (blanks ++ text) := by
    cases blanks with
    | nil => exact absurd rfl hne
    | cons b blanks =>
      intro d hd
      cases hd
      by_contra hiden
      have hspace := hblanks b List.mem_cons_self
      rw [(of_isIden (Bool.eq_true_of_not_eq_false hiden)).1] at hspace
      cases hspace
  have hlen : (UInt32.ofNat (word name).length).toNat = (word name).length := UInt32.toNat_ofNat_of_lt' h.short
  have hstep := lexStep_ident junk (blanks ++ text) hiden hc hdelim hn
  rw [← hword] at hstep
  refine ⟨_, hstep, rfl, hlen, ?_⟩
  show (word name ++ (blanks ++ text)).take (UInt32.ofNat (word name).length).toNat = _
  rw [hlen, List.take_left]

theorem constOk_iff {name : String} {op : UInt8} (h : IsConst name op) (width : ℕ) (lit : IntLiteral) :
    ConstOk name op width lit ↔ lit.Plain ∧ Encodes width (wbSleb (Int32.ofInt lit.readValue)) lit.value := by
  constructor
  · intro hok
    -- the literal at the end of a text, behind the instruction and a blank
    let junk : ℕ → Tok := fun _ => ⟨.eof, [], 0, 0⟩
    obtain ⟨t, v, hlex, hparse⟩ := hok junk 2 0 [32] [] (by decide) (List.cons_ne_nil _ _)
      (fun c hc => by rw [List.mem_singleton.mp hc]; rfl) nofun
    obtain ⟨t', hname, ht'⟩ := h.lexStep (junk 0) (n := 0) (by decide) (List.cons_ne_nil 32 [])
      (fun c hc => by rw [List.mem_singleton.mp hc]; rfl) (lit.text ++ [])
    have hblank : ∀ c ∈ [(32 : UInt8)], isSpace c = true := fun c hc => by rw [List.mem_singleton.mp hc]; rfl
    rw [lexLoop_of_token hname, lexLoop_nil (by decide)] at hlex
    by_cases hplain : lit.Plain
    · refine ⟨hplain, ?_⟩
      obtain ⟨v', hstep, htype, hval⟩ := lexStep_plain (junk 1) 1 [] hplain nofun
        (show 1 < tokMax - 1 by decide)
      rw [lexLoop_of_token ((lexStep_blanks hblank _).trans hstep), lexLoop_nil (by decide)] at hlex
      cases hlex
      obtain ⟨bytes, hbytes, henc⟩ := hparse [] []
      rw [h.parseExpr ht', if_pos htype, hval, Int64.toInt32_ofInt] at hbytes
      cases hbytes
      exact henc
    · exfalso
      rcases lexStep_not_plain (junk 1) [] hplain nofun (show 1 < tokMax - 1 by decide) with
        ⟨v', hstep, htype⟩ | ⟨v', post, hstep, hpost⟩
      · rw [lexLoop_of_token ((lexStep_blanks hblank _).trans hstep), lexLoop_nil (by decide)] at hlex
        cases hlex
        obtain ⟨bytes, hbytes, -⟩ := hparse [] []
        rw [h.parseExpr ht', if_neg (by rw [htype]; decide)] at hbytes
        cases hbytes
      · have hunder : ∀ d ∈ 95 :: post, isIden d = true := List.forall_mem_cons.mpr ⟨by decide, hpost⟩
        have hthird := lexStep_ident (junk 2) [] hunder (by decide) nofun
          (show 2 < tokMax - 1 by decide)
        rw [lexLoop_of_token ((lexStep_blanks hblank _).trans hstep), lexLoop_of_token hthird,
          lexLoop_nil (by decide)] at hlex
        cases hlex
  · rintro ⟨hplain, henc⟩ junk rounds n blanks tail hn hne hblanks htail
    have hn : n + 2 ≤ tokMax - 1 := Nat.le_sub_one_of_lt hn
    obtain ⟨t, hname, ht⟩ := h.lexStep (junk n) (n := n) (by omega) hne hblanks (lit.text ++ tail)
    obtain ⟨v, hstep, htype, hval⟩ := lexStep_plain (junk (n + 1)) (n + 1) tail hplain htail (by omega)
    refine ⟨t, v, ?_, fun names toks => ⟨_, ?_, henc⟩⟩
    · rw [lexLoop_of_token hname, lexLoop_of_token ((lexStep_blanks hblanks _).trans hstep)]
    · rw [h.parseExpr ht, if_pos htype, hval, Int64.toInt32_ofInt]
      rfl

theorem isConst_i32 : IsConst "i32.const" 0x41 :=
  ⟨⟨("i32.const", .const 0x41), by decide +kernel, rfl⟩,
    ⟨105, [51, 50, 46, 99, 111, 110, 115, 116], by decide, by decide +kernel, by decide, by decide, by decide⟩,
    by decide, by decide⟩

theorem isConst_i64 : IsConst "i64.const" 0x42 :=
  ⟨⟨("i64.const", .const 0x42), by decide +kernel, rfl⟩,
    ⟨105, [54, 52, 46, 99, 111, 110, 115, 116], by decide, by decide +kernel, by decide, by decide, by decide⟩,
    by decide, by decide⟩

/-- Behind a plus sign a hexadecimal number is zero, and otherwise the literal is read as its value. -/
theorem readValue_eq (lit : IntLiteral) :
    (lit.PlusHex → lit.readValue = 0) ∧ (¬ lit.PlusHex → lit.readValue = lit.value) := by
  unfold IntLiteral.PlusHex IntLiteral.readValue IntLiteral.hexValue
  cases hhex : lit.hex with
  | false => exact ⟨fun h => absurd h.2.1 Bool.false_ne_true, fun _ => rfl⟩
  | true =>
    rw [if_pos rfl]
    cases hsign : lit.sign with
    | plus => exact ⟨fun _ => rfl, fun h => (not_not.mp fun hne => h ⟨rfl, rfl, hne⟩).symm⟩
    | none => exact ⟨fun h => (nomatch h.1), fun _ => rfl⟩
    | minus => exact ⟨fun h => (nomatch h.1), fun _ => rfl⟩

theorem PlusHex.value_pos {lit : IntLiteral} (h : lit.PlusHex) : 0 < lit.value := by
  obtain ⟨hsign, -, hne⟩ := h
  unfold IntLiteral.value at hne ⊢
  rw [hsign] at hne ⊢
  exact lt_of_le_of_ne (Int.natCast_nonneg _) (Ne.symm hne)

/-- For which literals `i32.const` and `i64.const` are compiled to the value of the literal -/
theorem int_const_iff (lit : IntLiteral) :
    (lit.InRange 32 → (ConstOk "i32.const" 0x41 32 lit ↔ lit.Plain ∧ ¬ lit.PlusHex)) ∧
      (lit.InRange 64 → (ConstOk "i64.const" 0x42 64 lit ↔
        lit.Plain ∧ ¬ lit.PlusHex ∧ -(2 ^ 31) ≤ lit.value.bmod (2 ^ 64) ∧ lit.value.bmod (2 ^ 64) < 2 ^ 31)) := by
  obtain ⟨hplus, hother⟩ := readValue_eq lit
  constructor
  · rintro ⟨hlow, hhigh⟩
    rw [constOk_iff isConst_i32, encodes_iff]
    refine and_congr_right fun _ => ?_
    by_cases hp : lit.PlusHex
    · have hpos := PlusHex.value_pos hp
      rw [hplus hp]
      refine iff_of_false (fun h => ?_) (not_not.mpr hp)
      have hmod := h.2.2
      rw [Int.emod_eq_of_lt hpos.le hhigh] at hmod
      exact absurd hmod hpos.ne
    · rw [hother hp]
      refine iff_of_true ?_ hp
      rw [Int.bmod_def]
      split <;> omega
  · rintro ⟨hlow, hhigh⟩
    rw [constOk_iff isConst_i64, encodes_iff]
    refine and_congr_right fun _ => ?_
    by_cases hp : lit.PlusHex
    · have hpos := PlusHex.value_pos hp
      rw [hplus hp]
      refine iff_of_false (fun h => ?_) fun h => h.1 hp
      have hmod := h.2.2
      rw [Int.emod_eq_of_lt hpos.le hhigh] at hmod
      exact absurd hmod hpos.ne
    · rw [hother hp, and_iff_right hp, Int.bmod_def, Int.bmod_def]
      split <;> split <;> omega

/-- `-7` -/
def minusSeven : IntLiteral := ⟨.minus, false, 55, [], by decide, nofun⟩

/-- `4294967296` -/
def twoPow32 : IntLiteral :=
  ⟨.none, false, 52, [(false, 50), (false, 57), (false, 52), (false, 57), (false, 54), (false, 55), (false, 50),
    (false, 57), (false, 54)], by decide, by decide +kernel⟩

theorem int_const_minusSeven : ConstOk "i32.const" 0x41 32 minusSeven :=
  ((int_const_iff minusSeven).1 (by unfold IntLiteral.InRange; decide)).mpr ⟨nofun, fun h => (nomatch h.1)⟩

/-- `i64.const 4294967296` is compiled to the constant 0. -/
theorem not_int_const : ¬ ∀ lit : IntLiteral, lit.InRange 64 → ConstOk "i64.const" 0x42 64 lit := by
  intro h
  have henc := ((constOk_iff isConst_i64 64 twoPow32).mp (h twoPow32 (by unfold IntLiteral.InRange; decide))).2
  rw [encodes_iff] at henc
  exact absurd henc.2.2 (by decide)

end Wat

end Sandflea
