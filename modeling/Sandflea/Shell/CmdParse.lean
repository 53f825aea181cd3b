import Sandflea.Lib.Words
import Sandflea.Strings.Numbers
import Sandflea.Strings.StrView

/-!
# Command lines

`cmd_parse` cuts a command at its spaces, except inside double quotes and behind a backslash. A word ends when the
scanner comes to a space or to the NUL. It passes over the NUL behind an unpaired backslash, and then the last word is
never set; and the length of a word is a 16-bit number. In all other cases nothing is lost (`tokenises_iff`).
-/

namespace Sandflea

/-- `CMD_WORD_TYPE` -/
inductive CmdWordType
  | str
  | i64
deriving DecidableEq

/-- `cmd_word_t`; `none` is a field that was not set. -/
structure CmdWord where
  loc : ℕ
  len : Option ℕ
  text : Option StrView
  valI64 : Option Int64
  valType : CmdWordType

/-- A command string in memory -/
structure Command where
  mem : Bytes
  str : ℕ
  len : ℕ
  nul : mem (str + len) = 0
  text : ∀ i < len, mem (str + i) ≠ 0

/-! ## The code -/

/-- A sign in front of a number -/
def isSign (c : UInt8) : Bool := c = 45 || c = 43

/-- The digits of base 10 -/
def isDecimalDigit (c : UInt8) : Bool := 48 ≤ c && c ≤ 57

/-- The digits of base 16 -/
def isHexDigit (c : UInt8) : Bool := isDecimalDigit c || (97 ≤ c && c ≤ 102) || (65 ≤ c && c ≤ 70)

/-- `0x` behind the sign, with something behind it -/
def hasHexPrefix (str : Bytes) (len i : ℕ) : Bool :=
  i + 2 < len && str i = 48 && (str (i + 1) = 120 || str (i + 1) = 88)

/-- `is_numeric` -/
def isNumeric (str : Bytes) (len : ℕ) : Bool :=
  if len = 0 then false
  else if isSign (str 0) && len = 1 then false
  else
    let i := if isSign (str 0) then 1 else 0
    if hasHexPrefix str len i then (List.range' (i + 2) (len - (i + 2))).all fun j => isHexDigit (str j)
    else (List.range' i (len - i)).all fun j => isDecimalDigit (str j)

/-- The value of a numeric word -/
def wordValue (str : Bytes) (len : ℕ) : Int64 :=
  let offset := if isSign (str 0) then 1 else 0
  if hasHexPrefix str len offset then
    let sign : Int64 := if str 0 = 45 then -1 else 1
    sign * snToI64 (memFrom str (offset + 2)) (len - offset - 2) 16
  else snToI64 str len 10

/-- A word before its end is found -/
def newWord (loc : ℕ) : CmdWord := ⟨loc, none, none, none, .str⟩

/-- `New_Word`: a word with its end -/
def endWord (m : Bytes) (current : CmdWord) (stop : ℕ) : CmdWord :=
  let len := u16 (stop - current.loc)
  let view : StrView := ⟨current.loc, len, (Nat.mod_lt _ (by decide)).trans (by decide)⟩
  let word := { current with len := some len, text := some view }
  if isNumeric (memFrom m word.loc) len then
    { word with valType := .i64, valI64 := some (wordValue (memFrom m word.loc) len) }
  else word

namespace Command

variable (s : Command)

/-- `str[i]` -/
def char (i : ℕ) : UInt8 := s.mem (s.str + i)

/-- `str_len`, which counts in an `i32` -/
def strLen : Option ℕ := if s.len < 2 ^ 31 then some s.len else none

/-- The loop of `cmd_parse` from the `i`-th character on, as the rest of the list -/
def scan : ℕ → ℕ → Bool → Bool → CmdWord → List CmdWord
  | 0, _, _, _, current => [current]
  | n + 1, i, inq, esc, current =>
    let c := s.char i
    if esc then scan n (i + 1) inq false current
    else if c = 92 then scan n (i + 1) inq true current
    else if c = 34 then scan n (i + 1) (!inq) false current
    else if (inq = false ∧ c = 32) ∨ c = 0 then
      let word := endWord s.mem current (s.str + i)
      if c = 0 then [word] else word :: scan n (i + 1) inq false (newWord (s.str + i + 1))
    else scan n (i + 1) inq false current

/-- `cmd_parse`, where every word can be allocated -/
def cmdParse : Option (List CmdWord) :=
  s.strLen.map fun strl => s.scan (strl + 1) 0 false false (newWord s.str)

/-! ## What a command says -/

/-- The backslashes right before a character -/
def backslashes : ℕ → ℕ
  | 0 => 0
  | i + 1 => if s.char i = 92 then backslashes i + 1 else 0

/-- An unpaired backslash precedes. -/
def Escaped (i : ℕ) : Prop := Odd (s.backslashes i)

instance decidableEscaped (i : ℕ) : Decidable (s.Escaped i) := inferInstanceAs (Decidable (Odd _))

/-- A double quote that counts -/
def IsQuote (i : ℕ) : Prop := s.char i = 34 ∧ ¬ s.Escaped i

instance decidableIsQuote : DecidablePred s.IsQuote := fun _ => inferInstanceAs (Decidable (_ ∧ _))

/-- Inside double quotes -/
def Quoted (i : ℕ) : Prop := Odd (Nat.count s.IsQuote i)

instance decidableQuoted (i : ℕ) : Decidable (s.Quoted i) := inferInstanceAs (Decidable (Odd _))

/-- A space that ends a word -/
def IsSplit (i : ℕ) : Prop := s.char i = 32 ∧ ¬ s.Quoted i ∧ ¬ s.Escaped i

instance decidableIsSplit : DecidablePred s.IsSplit := fun _ => inferInstanceAs (Decidable (_ ∧ _ ∧ _))

/-- The spaces that end a word, among some characters -/
def splitsFrom (i n : ℕ) : List ℕ := (List.range' i n).filter s.IsSplit

/-- The spaces that end a word -/
def splits : List ℕ := s.splitsFrom 0 s.len

/-- What is between the splits, with the end of each piece -/
def pieces (stop : ℕ) : ℕ → List ℕ → List (ℕ × ℕ)
  | start, [] => [(start, stop)]
  | start, c :: cs => (start, c) :: pieces stop (c + 1) cs

/-- Some of the characters -/
def slice (p : ℕ × ℕ) : List UInt8 := (List.range' p.1 (p.2 - p.1)).map s.char

/-- Nothing is lost: all words are set, with single spaces between them they are the command, and they end exactly at
the splits. -/
structure Tokenises (words : List CmdWord) : Prop where
  initialised : ∀ w ∈ words, ∃ v, w.text = some v ∧ w.len = some v.len
  joined : [32].intercalate (words.map fun w => (w.text.map (StrView.bytes s.mem)).getD []) = s.slice (0, s.len)
  starts : words.map CmdWord.loc = s.str :: s.splits.map (s.str + · + 1)
  stops : words.map (fun w => w.text.map fun v => v.data + v.len) =
    (s.splits ++ [s.len]).map fun i => some (s.str + i)

/-- All words have lengths of 16 bits. -/
def ShortWords : Prop := ∀ p ∈ pieces s.len 0 s.splits, p.2 - p.1 < 2 ^ 16

section

variable {s}

/-! ## The flags of the scanner -/

theorem escaped_succ (i : ℕ) : s.Escaped (i + 1) ↔ s.char i = 92 ∧ ¬ s.Escaped i := by
  unfold Escaped
  rw [backslashes]
  split
  · rw [Nat.odd_add_one]
    exact (and_iff_right ‹_›).symm
  · exact iff_of_false Nat.not_odd_zero fun h => absurd h.1 ‹_›

theorem quoted_succ (i : ℕ) : s.Quoted (i + 1) ↔ (s.IsQuote i ↔ ¬ s.Quoted i) := by
  unfold Quoted
  rw [Nat.count_succ]
  split
  · rw [Nat.odd_add_one]
    exact (iff_true_left ‹_›).symm
  · rw [Nat.add_zero]
    exact ((iff_false_left ‹_›).trans not_not).symm

theorem splitsFrom_succ (i n : ℕ) :
    s.splitsFrom i (n + 1) = if s.IsSplit i then i :: s.splitsFrom (i + 1) n else s.splitsFrom (i + 1) n := by
  unfold splitsFrom
  rw [List.range'_succ, List.filter_cons]
  simp only [decide_eq_true_eq]

/-! ## The words -/

/-- The list that the scanner makes of the splits that are left. Behind an unpaired backslash the NUL does not end a
word. -/
def tokens (s : Command) : ℕ → List ℕ → List CmdWord
  | start, [] =>
    if s.Escaped s.len then [newWord (s.str + start)] else [endWord s.mem (newWord (s.str + start)) (s.str + s.len)]
  | start, c :: cs => endWord s.mem (newWord (s.str + start)) (s.str + c) :: tokens s (c + 1) cs

/-- The scanner ends the words at the splits. -/
theorem scan_eq (n i start : ℕ) (hn : i + n = s.len) :
    s.scan (n + 1) i (decide (s.Quoted i)) (decide (s.Escaped i)) (newWord (s.str + start)) =
      s.tokens start (s.splitsFrom i n) := by
  induction n generalizing i start with
  | zero =>
    obtain rfl : i = s.len := hn
    have hnul : s.char s.len = 0 := s.nul
    show _ = s.tokens start []
    rw [scan, hnul, tokens]
    by_cases hesc : s.Escaped s.len
    · rw [if_pos hesc, if_pos (decide_eq_true hesc), scan]
    · rw [if_neg hesc, if_neg (by simpa using hesc), if_neg (by decide), if_neg (by decide), if_pos (.inr rfl),
        if_pos rfl]
  | succ n ih =>
    have hchar : s.char i ≠ 0 := s.text i (by omega)
    have hquoted := s.quoted_succ i
    have hescaped := s.escaped_succ i
    have hnext := fun start => ih (i + 1) start (by omega)
    rw [scan, splitsFrom_succ]
    dsimp only
    by_cases hesc : s.Escaped i
    · -- the character behind a backslash
      have hsplit : ¬ s.IsSplit i := fun h => h.2.2 hesc
      have hquote : ¬ s.IsQuote i := fun h => h.2 hesc
      have hflags : decide (s.Quoted (i + 1)) = decide (s.Quoted i) ∧ decide (s.Escaped (i + 1)) = false := by
        simp only [hquoted, hescaped, hesc, iff_false_left hquote, not_true, and_false, not_not, decide_false, and_self]
      rw [if_pos (decide_eq_true hesc), if_neg hsplit, ← hnext start, hflags.1, hflags.2]
    · rw [if_neg (by simpa using hesc)]
      by_cases hslash : s.char i = 92
      · have hsplit : ¬ s.IsSplit i := fun h => absurd (hslash.symm.trans h.1) (by decide)
        have hquote : ¬ s.IsQuote i := fun h => absurd (hslash.symm.trans h.1) (by decide)
        have hflags : decide (s.Quoted (i + 1)) = decide (s.Quoted i) ∧ decide (s.Escaped (i + 1)) = true := by
          simp only [hquoted, hescaped, hesc, hslash, iff_false_left hquote, not_not, not_false_iff, and_self,
            decide_true]
        rw [if_pos hslash, if_neg hsplit, ← hnext start, hflags.1, hflags.2]
      · have hescaped' : decide (s.Escaped (i + 1)) = false := by
          rw [decide_eq_false_iff_not, hescaped]
          exact fun h => hslash h.1
        rw [if_neg hslash]
        by_cases hmark : s.char i = 34
        · have hsplit : ¬ s.IsSplit i := fun h => absurd (hmark.symm.trans h.1) (by decide)
          have hquoted' : decide (s.Quoted (i + 1)) = !decide (s.Quoted i) := by
            rw [← decide_not, decide_eq_decide, hquoted]
            exact iff_true_left ⟨hmark, hesc⟩
          rw [if_pos hmark, if_neg hsplit, ← hnext start, hquoted', hescaped']
        · have hquoted' : decide (s.Quoted (i + 1)) = decide (s.Quoted i) := by
            rw [decide_eq_decide, hquoted]
            exact (iff_false_left fun h => hmark h.1).trans not_not
          rw [if_neg hmark]
          have hends : (decide (s.Quoted i) = false ∧ s.char i = 32) ∨ s.char i = 0 ↔ s.IsSplit i := by
            rw [or_iff_left hchar, decide_eq_false_iff_not]
            exact ⟨fun h => ⟨h.2, h.1, hesc⟩, fun h => ⟨h.2.1, h.1⟩⟩
          by_cases hsplit : s.IsSplit i
          · rw [if_pos (hends.mpr hsplit), if_neg hchar, if_pos hsplit, tokens, ← hnext (i + 1), hquoted', hescaped']
            rfl
          · rw [if_neg (mt hends.mp hsplit), if_neg hsplit, ← hnext start, hquoted', hescaped']

theorem cmdParse_eq : s.cmdParse = if s.len < 2 ^ 31 then some (s.tokens 0 s.splits) else none := by
  have hquoted : ¬ s.Quoted 0 := by
    unfold Quoted
    rw [Nat.count_zero]
    exact Nat.not_odd_zero
  have hescaped : ¬ s.Escaped 0 := Nat.not_odd_zero
  have hscan := scan_eq (s := s) s.len 0 0 (Nat.zero_add _)
  rw [decide_eq_false hquoted, decide_eq_false hescaped] at hscan
  unfold cmdParse strLen
  split
  · exact congrArg some hscan
  · rfl

/-- What is set at the end of a word -/
theorem endWord_fields (m : Bytes) (loc stop : ℕ) :
    (endWord m (newWord loc) stop).loc = loc ∧ (endWord m (newWord loc) stop).len = some (u16 (stop - loc)) ∧
      ∃ v, (endWord m (newWord loc) stop).text = some v ∧ v.data = loc ∧ v.len = u16 (stop - loc) := by
  unfold endWord newWord
  dsimp only
  split <;> exact ⟨rfl, rfl, _, rfl, rfl, rfl⟩

theorem tokens_of_not_escaped (h : ¬ s.Escaped s.len) (start : ℕ) (cs : List ℕ) :
    s.tokens start cs =
      (pieces s.len start cs).map fun p => endWord s.mem (newWord (s.str + p.1)) (s.str + p.2) := by
  induction cs generalizing start with
  | nil => exact if_neg h
  | cons c cs ih =>
    rw [tokens, pieces, List.map_cons, ih]

/-- The last word is not set if there is an unpaired backslash at the end. -/
theorem tokens_of_escaped (h : s.Escaped s.len) (start : ℕ) (cs : List ℕ) :
    ∃ w ∈ s.tokens start cs, w.text = none := by
  induction cs generalizing start with
  | nil =>
    rw [tokens, if_pos h]
    exact ⟨_, List.mem_singleton_self _, rfl⟩
  | cons c cs ih =>
    obtain ⟨w, hw, htext⟩ := ih (c + 1)
    exact ⟨w, List.mem_cons_of_mem _ hw, htext⟩

/-! ## Pieces -/

theorem pieces_map_fst (stop start : ℕ) (cs : List ℕ) :
    (pieces stop start cs).map Prod.fst = start :: cs.map (· + 1) := by
  induction cs generalizing start with
  | nil => rfl
  | cons c cs ih => rw [pieces, List.map_cons, ih, List.map_cons]

theorem pieces_map_snd (stop start : ℕ) (cs : List ℕ) : (pieces stop start cs).map Prod.snd = cs ++ [stop] := by
  induction cs generalizing start with
  | nil => rfl
  | cons c cs ih => rw [pieces, List.map_cons, ih, List.cons_append]

theorem pieces_le {n i start : ℕ} (hstart : start ≤ i) (hn : i + n = s.len) :
    ∀ p ∈ pieces s.len start (s.splitsFrom i n), p.1 ≤ p.2 := by
  induction n generalizing i start with
  | zero =>
    intro p hp
    obtain rfl : p = (start, s.len) := List.mem_singleton.mp hp
    exact hstart.trans hn.le
  | succ n ih =>
    rw [splitsFrom_succ]
    split
    · intro p hp
      rcases List.mem_cons.mp hp with rfl | hp
      · exact hstart
      · exact ih le_rfl (by omega) p hp
    · exact ih (by omega) (by omega)

/-- A slice in two parts -/
theorem slice_append {a b c : ℕ} (hab : a ≤ b) (hbc : b ≤ c) : s.slice (a, c) = s.slice (a, b) ++ s.slice (b, c) := by
  unfold slice
  dsimp only
  rw [← List.map_append, show c - a = (b - a) + (c - b) by omega, ← List.range'_append_1,
    show a + (b - a) = b by omega]

theorem slice_succ {b c : ℕ} (hbc : b < c) : s.slice (b, c) = s.char b :: s.slice (b + 1, c) := by
  unfold slice
  dsimp only
  rw [show c - b = c - (b + 1) + 1 by omega, List.range'_succ, List.map_cons]

/-- With single spaces between them the pieces are what was cut. -/
theorem intercalate_pieces {n i start : ℕ} (hstart : start ≤ i) (hn : i + n = s.len) :
    [32].intercalate ((pieces s.len start (s.splitsFrom i n)).map s.slice) = s.slice (start, s.len) := by
  induction n generalizing i start with
  | zero => exact List.append_nil _
  | succ n ih =>
    rw [splitsFrom_succ]
    split
    · have hspace : s.char i = 32 := And.left ‹s.IsSplit i›
      have hne : (pieces s.len (i + 1) (s.splitsFrom (i + 1) n)).map s.slice ≠ [] := by
        intro hnil
        have hstarts := pieces_map_fst s.len (i + 1) (s.splitsFrom (i + 1) n)
        rw [List.map_eq_nil_iff.mp hnil] at hstarts
        cases hstarts
      rw [pieces, List.map_cons, List.intercalate_cons_of_ne_nil hne, ih le_rfl (by omega), List.append_assoc,
        List.singleton_append, ← hspace, ← slice_succ (by omega), ← slice_append hstart (by omega)]
    · exact ih (by omega) (by omega)

/-! ## Nothing is lost -/

/-- The words of a command are its pieces, if none is longer than the length of a word can be. -/
theorem tokenises_tokens_iff (h : ¬ s.Escaped s.len) : s.Tokenises (s.tokens 0 s.splits) ↔ s.ShortWords := by
  have hle : ∀ p ∈ pieces s.len 0 s.splits, p.1 ≤ p.2 := pieces_le le_rfl (Nat.zero_add _)
  rw [tokens_of_not_escaped h]
  constructor
  · intro htokens p hp
    have hstops := htokens.stops
    rw [List.map_map, ← pieces_map_snd s.len 0 s.splits, List.map_map] at hstops
    obtain ⟨-, -, v, htext, hdata, hlen⟩ := endWord_fields s.mem (s.str + p.1) (s.str + p.2)
    have hstop : (endWord s.mem (newWord (s.str + p.1)) (s.str + p.2)).text.map (fun v => v.data + v.len) =
        some (s.str + p.2) := List.map_inj_left.mp hstops p hp
    rw [htext, Option.map_some, hdata, hlen, Option.some_inj] at hstop
    have hlt : u16 (s.str + p.2 - (s.str + p.1)) < 2 ^ 16 := Nat.mod_lt _ (by decide)
    omega
  · intro hshort
    have hword : ∀ p ∈ pieces s.len 0 s.splits, ∃ v,
        (endWord s.mem (newWord (s.str + p.1)) (s.str + p.2)).text = some v ∧
          (endWord s.mem (newWord (s.str + p.1)) (s.str + p.2)).len = some v.len ∧
          v.data = s.str + p.1 ∧ v.len = p.2 - p.1 := by
      intro p hp
      obtain ⟨-, hlen, v, htext, hdata, hvlen⟩ := endWord_fields s.mem (s.str + p.1) (s.str + p.2)
      have hu16 : u16 (s.str + p.2 - (s.str + p.1)) = p.2 - p.1 := by
        rw [Nat.add_sub_add_left]
        exact Nat.mod_eq_of_lt (hshort p hp)
      exact ⟨v, htext, by rw [hlen, hvlen], hdata, hvlen.trans hu16⟩
    constructor
    · intro w hw
      obtain ⟨p, hp, rfl⟩ := List.mem_map.mp hw
      obtain ⟨v, htext, hlen, -⟩ := hword p hp
      exact ⟨v, htext, hlen⟩
    · rw [List.map_map, ← intercalate_pieces le_rfl (Nat.zero_add _)]
      refine congrArg _ (List.map_congr_left fun p hp => ?_)
      obtain ⟨v, htext, -, hdata, hlen⟩ := hword p hp
      rw [Function.comp_apply, htext, Option.map_some, Option.getD_some]
      unfold StrView.bytes slice
      rw [hlen, List.range'_eq_map_range, List.map_map]
      refine List.map_congr_left fun i _ => ?_
      rw [hdata, Nat.add_assoc]
      rfl
    · have hfst := congrArg (List.map (s.str + ·)) (pieces_map_fst s.len 0 s.splits)
      rw [List.map_map, List.map_cons, List.map_map] at hfst
      rw [List.map_map]
      refine Eq.trans (List.map_congr_left fun p _ => ?_) hfst
      exact (endWord_fields s.mem (s.str + p.1) (s.str + p.2)).1
    · rw [List.map_map, ← pieces_map_snd s.len 0 s.splits, List.map_map]
      refine List.map_congr_left fun p hp => ?_
      obtain ⟨v, htext, -, hdata, hlen⟩ := hword p hp
      have hp := hle p hp
      rw [Function.comp_apply, htext, Option.map_some, hdata, hlen, Function.comp_apply]
      exact congrArg some (by omega)

/-- Then there is no unpaired backslash at the end. -/
theorem Tokenises.not_escaped (h : s.Tokenises (s.tokens 0 s.splits)) : ¬ s.Escaped s.len := by
  intro hescaped
  obtain ⟨w, hw, hnone⟩ := tokens_of_escaped hescaped 0 s.splits
  obtain ⟨v, hsome, -⟩ := h.initialised w hw
  rw [hnone] at hsome
  cases hsome

/-- A command comes apart as it should exactly if it is shorter than `2 ^ 31`, there is no unpaired backslash at its
end, and its words have lengths of 16 bits. -/
theorem tokenises_iff (s : Command) :
    (∃ words, s.cmdParse = some words ∧ s.Tokenises words) ↔
      s.len < 2 ^ 31 ∧ ¬ s.Escaped s.len ∧ s.ShortWords := by
  rw [cmdParse_eq]
  constructor
  · rintro ⟨words, hwords, htokens⟩
    split at hwords
    · cases hwords
      exact ⟨‹_›, htokens.not_escaped, (tokenises_tokens_iff htokens.not_escaped).mp htokens⟩
    · cases hwords
  · rintro ⟨hlen, hescaped, hshort⟩
    exact ⟨_, if_pos hlen, (tokenises_tokens_iff hescaped).mpr hshort⟩

/-- `a` and a backslash -/
def trailingBackslash : Command where
  mem i := if i = 0 then 97 else if i = 1 then 92 else 0
  str := 0
  len := 2
  nul := rfl
  text := by decide

theorem not_tokenises : ¬ ∀ s : Command, ∃ words, s.cmdParse = some words ∧ s.Tokenises words := by
  intro h
  obtain ⟨words, hwords, htokens⟩ := h trailingBackslash
  rw [cmdParse_eq, if_pos (by decide)] at hwords
  cases hwords
  exact htokens.not_escaped (by decide)

end

end Command

end Sandflea
