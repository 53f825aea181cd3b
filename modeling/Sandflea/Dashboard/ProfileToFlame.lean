import Sandflea.Lib.Brackets
import Mathlib.Data.List.DropRight
import Mathlib.Data.List.Pairwise
import Mathlib.Data.List.Sort

/-!
# Profiles as flame graphs

`parse_profile` matches the begins and ends of a profile log, and `to_speedscope` makes an open and a close event of
each scope. Every scope is widened to a microsecond at least, and the events are sorted by their time; events with one
time keep the order of the log. A scope that nothing ends is closed at the last timestamp.
-/

namespace Sandflea

namespace Dashboard

/-! ## The log -/

/-- A line of the log -/
structure Entry where
  ts : ℤ
  etype : List Char
  name : List Char

/-- `line.index(":")` -/
def splitColon (line : List Char) : Option (List Char × List Char) :=
  if ':' ∈ line then some (line.takeWhile (· ≠ ':'), (line.dropWhile (· ≠ ':')).tail) else none

/-- A line, if it can be read. What counts as white space, and how `int` reads a number, are Python's. -/
def readLine (isSpace : Char → Bool) (int : List Char → Option ℤ) (line : List Char) : Option Entry :=
  match splitColon ((line.dropWhile isSpace).rdropWhile isSpace) with
  | none => none
  | some (number, rest) =>
    match int number with
    | none => none
    | some ts => (splitColon rest).map fun (etype, name) => ⟨ts, etype, name⟩

/-! ## `parse_profile` -/

/-- An entry of `pairs` -/
structure Pair where
  name : List Char
  startUs : ℤ
  endUs : ℤ
  durationUs : ℤ
  oSeq : ℕ
  cSeq : ℕ
deriving DecidableEq

/-- An entry of `instants` -/
structure Instant where
  name : List Char
  atUs : ℤ
  seq : ℕ
deriving DecidableEq

/-- An entry of `open_stack` -/
structure OpenScope where
  name : List Char
  start : ℤ
  oSeq : ℕ

/-- The variables of `parse_profile`. The stack has its last entry first. -/
structure Parse where
  pairs : List Pair
  instants : List Instant
  openStack : List OpenScope
  seq : ℕ
  maxUs : ℤ

/-- A scope is complete. -/
def Parse.pair (p : Parse) (o : OpenScope) (ts : ℤ) : Parse :=
  { p with pairs := p.pairs ++ [⟨o.name, o.start, ts, ts - o.start, o.oSeq, p.seq⟩], seq := p.seq + 1 }

/-- A line of the log -/
def Parse.entry (p : Parse) (e : Entry) : Parse :=
  let p := { p with maxUs := max p.maxUs e.ts }
  if e.etype = ['B'] then { p with openStack := ⟨e.name, e.ts, p.seq⟩ :: p.openStack, seq := p.seq + 1 }
  else if e.etype = ['E'] then
    match p.openStack.find? fun o => o.name == e.name with
    | none => p
    | some o => { p with openStack := p.openStack.eraseP fun o => o.name == e.name }.pair o e.ts
  else if e.etype = ['I'] then { p with instants := p.instants ++ [⟨e.name, e.ts, p.seq⟩], seq := p.seq + 1 }
  else p

/-- The loop over the begins that nothing matched, from the first one on -/
def Parse.close (p : Parse) : Parse := p.openStack.reverse.foldl (fun p o => p.pair o p.maxUs) p

/-- `parse_profile`, from its lines on. A file that is not there is like one without lines. -/
def parseProfile (isSpace : Char → Bool) (int : List Char → Option ℤ) (lines : List (List Char)) : Parse :=
  ((lines.filterMap (readLine isSpace int)).foldl Parse.entry ⟨[], [], [], 0, 0⟩).close

/-! ## `to_speedscope` -/

/-- What a pair of events is made of -/
inductive Span where
  | pair (p : Pair)
  | instant (i : Instant)
deriving DecidableEq

/-- An event: whether it opens, when, which frame, and the fields that the order is made with. The span it was made of
is not a field of the source. -/
structure Event where
  opens : Bool
  time : ℤ
  frame : List Char
  seq : ℕ
  isClose : Bool
  span : Span

/-- The events of a pair -/
def Pair.events (p : Pair) : List Event :=
  [⟨true, p.startUs, p.name, p.oSeq, false, .pair p⟩,
    ⟨false, p.startUs + max p.durationUs 1, p.name, p.cSeq, false, .pair p⟩]

/-- The events of an instant -/
def Instant.events (i : Instant) : List Event :=
  [⟨true, i.atUs, i.name, i.seq, false, .instant i⟩, ⟨false, i.atUs + 1, i.name, i.seq, true, .instant i⟩]

/-- The times, the numbers and the marks of the closing events, as they are compared -/
abbrev Key := ℤ ×ₗ ℕ ×ₗ Bool

/-- The key of the order -/
def Event.key (e : Event) : Key := toLex (e.time, toLex (e.seq, e.isClose))

/-- The events of what was parsed, in order -/
def Parse.events (data : Parse) : List Event :=
  (data.pairs.flatMap Pair.events ++ data.instants.flatMap Instant.events).insertionSort fun a b => a.key ≤ b.key

/-- `to_speedscope`: its events -/
def toSpeedscope (isSpace : Char → Bool) (int : List Char → Option ℤ) (lines : List (List Char)) : List Event :=
  (parseProfile isSpace int lines).events

/-! ## Nested logs -/

/-- Every end is that of the scope that began last and has not ended. Scopes may stay open. -/
def Nests : List (List Char) → List Entry → Prop
  | _, [] => True
  | stack, e :: log =>
    if e.etype = ['B'] then Nests (e.name :: stack) log
    else if e.etype = ['E'] then stack.head? = some e.name ∧ Nests stack.tail log
    else Nests stack log

instance Nests.decidable : (stack : List (List Char)) → (log : List Entry) → Decidable (Nests stack log)
  | _, [] => inferInstanceAs (Decidable True)
  | stack, e :: log =>
    have := fun stack => Nests.decidable stack log
    inferInstanceAs (Decidable (if e.etype = ['B'] then Nests (e.name :: stack) log
      else if e.etype = ['E'] then stack.head? = some e.name ∧ Nests stack.tail log else Nests stack log))

/-- A scope or an instant of the log: its name, the place among the begins, ends and instants where it begins, and when;
and where and when it ends, if it does -/
structure Item where
  name : List Char
  first : ℕ
  start : ℤ
  last : Option (ℕ × ℤ)

/-- The scopes and instants of a nested log, from those that are open and the place -/
def items : List Item → ℕ → List Entry → List Item
  | stack, _, [] => stack
  | stack, n, e :: log =>
    if e.etype = ['B'] then items (⟨e.name, n, e.ts, none⟩ :: stack) (n + 1) log
    else if e.etype = ['E'] then
      match stack with
      | [] => items [] (n + 1) log
      | x :: stack => { x with last := some (n, e.ts) } :: items stack (n + 1) log
    else if e.etype = ['I'] then ⟨e.name, n, e.ts, some (n, e.ts)⟩ :: items stack (n + 1) log
    else items stack n log

/-- The line is a begin, an end or an instant. -/
def Entry.counts (e : Entry) : Bool := e.etype == ['B'] || e.etype == ['E'] || e.etype == ['I']

/-- The last timestamp, or 0 if all are before it -/
def lastTs (log : List Entry) : ℤ := log.foldl (fun m e => max m e.ts) 0

/-- How two items are tangled that end so, or are left open. The second begins at the timestamp of the first, which is
over by then; or it takes no time, at the timestamp at which the first ends after some time or is left open; or both are
left open. -/
def TangledEnds (lastUs : ℤ) (x y : Item) : Option (ℕ × ℤ) → Option (ℕ × ℤ) → Prop
  | some (j, t), none => j < y.first ∧ t = x.start ∧ y.start = x.start
  | some (j, t), some (k, u) =>
    (j < y.first ∧ t = x.start ∧ y.start = x.start) ∨ (k < j ∧ x.start < t ∧ y.start = t ∧ u = t)
  | none, some (_, u) => x.start < lastUs ∧ y.start = lastUs ∧ u = lastUs
  | none, none => True

instance (lastUs : ℤ) (x y : Item) : (a b : Option (ℕ × ℤ)) → Decidable (TangledEnds lastUs x y a b)
  | some (_, _), none => inferInstanceAs (Decidable (_ ∧ _))
  | some (_, _), some (_, _) => inferInstanceAs (Decidable (_ ∨ _))
  | none, some (_, _) => inferInstanceAs (Decidable (_ ∧ _))
  | none, none => inferInstanceAs (Decidable True)

/-- The second item begins after the first, and is tangled with it. -/
def Tangled (lastUs : ℤ) (x y : Item) : Prop := x.first < y.first ∧ TangledEnds lastUs x y x.last y.last

instance (lastUs : ℤ) (x y : Item) : Decidable (Tangled lastUs x y) := inferInstanceAs (Decidable (_ ∧ _))

/-- No two items of the log are tangled. -/
def Untangled (log : List Entry) : Prop :=
  ∀ x ∈ items [] 0 log, ∀ y ∈ items [] 0 log, ¬ Tangled (lastTs log) x y

instance (log : List Entry) : Decidable (Untangled log) :=
  inferInstanceAs (Decidable (∀ x ∈ items [] 0 log, ∀ y ∈ items [] 0 log, ¬ Tangled (lastTs log) x y))

/-! ## The items of a log -/

/-- What two items of a nested log have to do with each other, the one that begins first being the first -/
structure Fits (x y : Item) : Prop where
  first_lt : x.first < y.first
  start_le : x.start ≤ y.start
  closed : ∀ j t, x.last = some (j, t) →
    (j < y.first ∧ t ≤ y.start) ∨ ∃ k u, y.last = some (k, u) ∧ x.first < j ∧ k < j ∧ u ≤ t

/-- Two different items -/
def Apart (x y : Item) : Prop := Fits x y ∨ Fits y x

/-- What an item is that comes of the rest of a log: it is on the stack, or begins from there on; and it ends from there
on. -/
structure Item.From (stack : List Item) (n : ℕ) (T : ℤ) (x : Item) : Prop where
  begun : (∃ y ∈ stack, y.first = x.first ∧ y.start = x.start) ∨ (n ≤ x.first ∧ T ≤ x.start)
  closed : ∀ j t, x.last = some (j, t) → n ≤ j ∧ T ≤ t

/-- The items that are open: they began one after the other. -/
structure Open (stack : List Item) (n : ℕ) (T : ℤ) : Prop where
  sorted : stack.Pairwise fun x y => y.first < x.first ∧ y.start ≤ x.start
  last_eq : ∀ x ∈ stack, x.last = none
  first_lt : ∀ x ∈ stack, x.first < n
  start_le : ∀ x ∈ stack, x.start ≤ T

section

variable {stack : List Item} {n : ℕ} {T ts : ℤ} {x y : Item} {log : List Entry} {e : Entry}

theorem Open.mono (h : Open stack n T) (hT : T ≤ ts) : Open stack (n + 1) ts where
  sorted := h.sorted
  last_eq := h.last_eq
  first_lt x hx := Nat.lt_succ_of_lt (h.first_lt x hx)
  start_le x hx := (h.start_le x hx).trans hT

theorem Open.begins (h : Open stack n T) (hT : T ≤ ts) (name : List Char) :
    Open (⟨name, n, ts, none⟩ :: stack) (n + 1) ts where
  sorted := List.pairwise_cons.mpr ⟨fun y hy => ⟨h.first_lt y hy, (h.start_le y hy).trans hT⟩, h.sorted⟩
  last_eq := List.forall_mem_cons.mpr ⟨rfl, h.last_eq⟩
  first_lt := List.forall_mem_cons.mpr ⟨Nat.lt_succ_self n, (h.mono hT).first_lt⟩
  start_le := List.forall_mem_cons.mpr ⟨le_refl ts, (h.mono hT).start_le⟩

theorem Open.ends (h : Open (x :: stack) n T) : Open stack n T where
  sorted := h.sorted.of_cons
  last_eq := (List.forall_mem_cons.mp h.last_eq).2
  first_lt := (List.forall_mem_cons.mp h.first_lt).2
  start_le := (List.forall_mem_cons.mp h.start_le).2

/-- What comes of a later place -/
theorem Item.From.of_later {stack' : List Item} (h : x.From stack' (n + 1) ts) (hT : T ≤ ts)
    (hstack : ∀ y ∈ stack', y ∈ stack ∨ (n ≤ y.first ∧ T ≤ y.start)) : x.From stack n T where
  begun := by
    rcases h.begun with ⟨y, hy, hfirst, hstart⟩ | ⟨hfirst, hstart⟩
    · rw [← hfirst, ← hstart]
      exact (hstack y hy).imp (fun hmem => ⟨y, hmem, rfl, rfl⟩) id
    · exact .inr ⟨by omega, hT.trans hstart⟩
  closed j t hjt := by
    obtain ⟨hj, ht⟩ := h.closed j t hjt
    exact ⟨by omega, hT.trans ht⟩

theorem Item.From.mono (h : x.From stack n ts) (hT : T ≤ ts) : x.From stack n T where
  begun := h.begun.imp_right fun hx => ⟨hx.1, hT.trans hx.2⟩
  closed j t hjt := ⟨(h.closed j t hjt).1, hT.trans (h.closed j t hjt).2⟩

/-- An item that ends now is apart from all that end later. -/
theorem apart_of_ends (hlast : x.last = some (n, ts)) (hfirst : x.first ≤ n) (hstart : x.start ≤ ts)
    (hstack : ∀ w ∈ stack, w.first < x.first ∧ w.start ≤ x.start) (h : y.From stack (n + 1) ts) : Apart x y := by
  rcases h.begun with ⟨w, hw, hwfirst, hwstart⟩ | ⟨hyfirst, hystart⟩
  · obtain ⟨hlt, hle⟩ := hstack w hw
    refine .inr ⟨hwfirst ▸ hlt, hwstart ▸ hle, fun j t hjt => ?_⟩
    obtain ⟨hj, ht⟩ := h.closed j t hjt
    exact .inr ⟨n, ts, hlast, by omega, by omega, ht⟩
  · refine .inl ⟨by omega, hstart.trans hystart, fun j t hjt => ?_⟩
    obtain ⟨rfl, rfl⟩ : n = j ∧ ts = t := Prod.mk.inj (Option.some.inj (hlast.symm.trans hjt))
    exact .inl ⟨hyfirst, hystart⟩

/-- The items that come of a place, and that they are apart -/
theorem items_spec (h : Open stack n T) (hsorted : log.Pairwise fun a b => a.ts ≤ b.ts)
    (hlog : ∀ e ∈ log, T ≤ e.ts) :
    (∀ x ∈ items stack n log, x.From stack n T) ∧ (items stack n log).Pairwise Apart := by
  induction log generalizing stack n T with
  | nil =>
    refine ⟨fun x hx => ⟨.inl ⟨x, hx, rfl, rfl⟩, fun j t hjt => ?_⟩, h.sorted.imp_of_mem fun {x y} _ hy hxy => ?_⟩
    · cases (h.last_eq x hx).symm.trans hjt
    · exact .inr ⟨hxy.1, hxy.2, fun j t hjt => nomatch (h.last_eq y hy).symm.trans hjt⟩
  | cons e log ih =>
    have hT : T ≤ e.ts := hlog e List.mem_cons_self
    obtain ⟨hle, hrest⟩ := List.pairwise_cons.mp hsorted
    unfold items
    split
    · obtain ⟨hfrom, hapart⟩ := ih (h.begins hT e.name) hrest hle
      refine ⟨fun x hx => (hfrom x hx).of_later hT ?_, hapart⟩
      exact List.forall_mem_cons.mpr ⟨.inr ⟨le_refl n, hT⟩, fun y hy => .inl hy⟩
    · split
      · split
        next _ =>
          obtain ⟨hfrom, hapart⟩ := ih (h.mono hT) hrest hle
          exact ⟨fun x hx => (hfrom x hx).of_later hT fun y hy => .inl hy, hapart⟩
        next _ x stack =>
          obtain ⟨hfrom, hapart⟩ := ih (h.ends.mono hT) hrest hle
          have hx := List.mem_cons_self (a := x) (l := stack)
          refine ⟨List.forall_mem_cons.mpr ⟨⟨.inl ⟨x, hx, rfl, rfl⟩, fun j t hjt => ?_⟩, fun y hy =>
            (hfrom y hy).of_later hT fun w hw => .inl (List.mem_cons_of_mem _ hw)⟩, List.pairwise_cons.mpr
            ⟨fun y hy => apart_of_ends rfl (h.first_lt x hx).le ((h.start_le x hx).trans hT)
              (List.pairwise_cons.mp h.sorted).1 (hfrom y hy), hapart⟩⟩
          obtain ⟨rfl, rfl⟩ : n = j ∧ e.ts = t := Prod.mk.inj (Option.some.inj hjt)
          exact ⟨le_refl n, hT⟩
      · split
        · obtain ⟨hfrom, hapart⟩ := ih (h.mono hT) hrest hle
          refine ⟨List.forall_mem_cons.mpr ⟨⟨.inr ⟨le_refl n, hT⟩, fun j t hjt => ?_⟩, fun y hy =>
            (hfrom y hy).of_later hT fun w hw => .inl hw⟩, List.pairwise_cons.mpr
            ⟨fun y hy => apart_of_ends rfl (le_refl n) (le_refl e.ts)
              (fun w hw => ⟨h.first_lt w hw, (h.start_le w hw).trans hT⟩) (hfrom y hy), hapart⟩⟩
          obtain ⟨rfl, rfl⟩ : n = j ∧ e.ts = t := Prod.mk.inj (Option.some.inj hjt)
          exact ⟨le_refl n, hT⟩
        · exact ih h hrest fun e he => hlog e (List.mem_cons_of_mem _ he)

end

/-- An item that ends does so after its beginning, before a place and a time. -/
structure Item.Wf (N : ℕ) (lastUs : ℤ) (x : Item) : Prop where
  first_lt : x.first < N
  start_le : x.start ≤ lastUs
  closed : ∀ j t, x.last = some (j, t) → x.first ≤ j ∧ j < N ∧ x.start ≤ t ∧ t ≤ lastUs ∧ (x.first = j → t = x.start)

theorem counts_of_eq {e : Entry} (h : e.etype = ['B'] ∨ e.etype = ['E'] ∨ e.etype = ['I']) : e.counts = true := by
  rcases h with h | h | h <;> rw [Entry.counts, h] <;> rfl

theorem add_countP_cons {e : Entry} {log : List Entry} {n : ℕ}
    (h : e.etype = ['B'] ∨ e.etype = ['E'] ∨ e.etype = ['I']) :
    n + (e :: log).countP Entry.counts = n + 1 + log.countP Entry.counts := by
  rw [List.countP_cons_of_pos (counts_of_eq h)]
  omega

theorem items_wf {stack : List Item} {n N : ℕ} {T L : ℤ} {log : List Entry} (h : Open stack n T) (hT : T ≤ L)
    (hN : n + log.countP Entry.counts ≤ N) (hsorted : log.Pairwise fun a b => a.ts ≤ b.ts)
    (hlog : ∀ e ∈ log, T ≤ e.ts ∧ e.ts ≤ L) : ∀ x ∈ items stack n log, x.Wf N L := by
  induction log generalizing stack n T with
  | nil =>
    intro x hx
    refine ⟨(h.first_lt x hx).trans_le hN, (h.start_le x hx).trans hT, fun j t hjt => ?_⟩
    cases (h.last_eq x hx).symm.trans hjt
  | cons e log ih =>
    obtain ⟨hTe, heL⟩ := hlog e List.mem_cons_self
    obtain ⟨hle, hrest⟩ := List.pairwise_cons.mp hsorted
    have hlog' : ∀ a ∈ log, e.ts ≤ a.ts ∧ a.ts ≤ L := fun a ha => ⟨hle a ha, (hlog a (List.mem_cons_of_mem _ ha)).2⟩
    unfold items
    split
    next hb =>
      rw [List.countP_cons_of_pos (counts_of_eq (.inl hb))] at hN
      exact ih (h.begins hTe e.name) heL (by omega) hrest hlog'
    · split
      next he =>
        rw [List.countP_cons_of_pos (counts_of_eq (.inr (.inl he)))] at hN
        split
        next _ => exact ih (h.mono hTe) heL (by omega) hrest hlog'
        next _ x stack =>
          have hx := List.mem_cons_self (a := x) (l := stack)
          have hfirst : x.first < n := h.first_lt x hx
          have hstart : x.start ≤ e.ts := (h.start_le x hx).trans hTe
          refine List.forall_mem_cons.mpr ⟨⟨by show x.first < N; omega, hstart.trans heL, fun j t hjt => ?_⟩,
            ih (h.ends.mono hTe) heL (by omega) hrest hlog'⟩
          obtain ⟨rfl, rfl⟩ : n = j ∧ e.ts = t := Prod.mk.inj (Option.some.inj hjt)
          exact ⟨hfirst.le, by omega, hstart, heL, fun heq => absurd heq hfirst.ne⟩
      · split
        next hi =>
          rw [List.countP_cons_of_pos (counts_of_eq (.inr (.inr hi)))] at hN
          refine List.forall_mem_cons.mpr ⟨⟨by show n < N; omega, heL, fun j t hjt => ?_⟩,
            ih (h.mono hTe) heL (by omega) hrest hlog'⟩
          obtain ⟨rfl, rfl⟩ : n = j ∧ e.ts = t := Prod.mk.inj (Option.some.inj hjt)
          exact ⟨le_refl n, by omega, le_refl e.ts, heL, fun _ => rfl⟩
        · rw [List.countP_cons] at hN
          exact ih h hT (by omega) hrest fun a ha => hlog a (List.mem_cons_of_mem _ ha)

/-! ## The keys of a span -/

/-- The events of a span -/
def Span.events : Span → List Event
  | .pair p => p.events
  | .instant i => i.events

/-- The key of the event that opens a span -/
def Span.left : Span → Key
  | .pair p => toLex (p.startUs, toLex (p.oSeq, false))
  | .instant i => toLex (i.atUs, toLex (i.seq, false))

/-- The key of the event that closes a span -/
def Span.right : Span → Key
  | .pair p => toLex (p.startUs + max p.durationUs 1, toLex (p.cSeq, false))
  | .instant i => toLex (i.atUs + 1, toLex (i.seq, true))

theorem Span.left_lt_right (s : Span) : s.left < s.right := by
  cases s with
  | pair p => exact Prod.Lex.toLex_lt_toLex.mpr (.inl (by show p.startUs < p.startUs + max p.durationUs 1; omega))
  | instant i => exact Prod.Lex.toLex_lt_toLex.mpr (.inl (by show i.atUs < i.atUs + 1; omega))

/-- The span that comes of an item, where the closing events of those that are open have numbers of their own -/
def Item.span (r : ℕ → ℕ) (lastUs : ℤ) (x : Item) : Span :=
  match x.last with
  | none => .pair ⟨x.name, x.start, lastUs, lastUs - x.start, x.first, r x.first⟩
  | some (j, t) =>
    if j = x.first then .instant ⟨x.name, x.start, x.first⟩
    else .pair ⟨x.name, x.start, t, t - x.start, x.first, j⟩

/-- A key as a time and a number -/
def rank (k : Key) : ℤ × ℕ := ((ofLex k).1, 2 * (ofLex (ofLex k).2).1 + (ofLex (ofLex k).2).2.toNat)

theorem lt_iff_rank (k k' : Key) :
    k < k' ↔ (rank k).1 < (rank k').1 ∨ (rank k).1 = (rank k').1 ∧ (rank k).2 < (rank k').2 := by
  rw [Prod.Lex.lt_iff, Prod.Lex.lt_iff]
  refine or_congr Iff.rfl (and_congr Iff.rfl ?_)
  rcases k with ⟨a, b, c⟩
  rcases k' with ⟨a', b', c'⟩
  show b < b' ∨ b = b' ∧ c < c' ↔ 2 * b + c.toNat < 2 * b' + c'.toNat
  have hbool : c < c' ↔ c.toNat < c'.toNat := by revert c c'; decide
  have hle : c.toNat ≤ 1 := Bool.toNat_le c
  have hle' : c'.toNat ≤ 1 := Bool.toNat_le c'
  rw [hbool]
  omega

section

variable {r : ℕ → ℕ} {N : ℕ} {L : ℤ} {x y : Item}

theorem rank_left (x : Item) : rank (x.span r L).left = (x.start, 2 * x.first) := by
  unfold Item.span
  split
  · rfl
  · split <;> rfl

theorem rank_right_open (h : x.last = none) :
    rank (x.span r L).right = (x.start + max (L - x.start) 1, 2 * r x.first) := by
  rw [Item.span, h]
  rfl

/-- An instant and a pair have the time in common, and the number but for a mark. -/
theorem rank_right_closed {j : ℕ} {t : ℤ} (hx : x.Wf N L) (h : x.last = some (j, t)) :
    (rank (x.span r L).right).1 = max t (x.start + 1) ∧
      (rank (x.span r L).right).2 = 2 * j + if j = x.first then 1 else 0 := by
  obtain ⟨-, -, hstart, -, hinstant⟩ := hx.closed j t h
  rw [Item.span, h]
  dsimp only
  split
  next heq =>
    have ht : t = x.start := hinstant heq.symm
    refine ⟨?_, ?_⟩
    · show x.start + 1 = _
      omega
    · show 2 * x.first + 1 = _
      omega
  next hne =>
    refine ⟨?_, rfl⟩
    show x.start + max (t - x.start) 1 = _
    omega

/-- The numbers of the closing events of what is left open come behind all others, and keep the order. -/
structure Numbers (N : ℕ) (its : List Item) (r : ℕ → ℕ) : Prop where
  le : ∀ x ∈ its, x.last = none → N ≤ r x.first
  lt : ∀ x ∈ its, ∀ y ∈ its, x.last = none → y.last = none → x.first < y.first → r x.first < r y.first

/-- The spans of two items cross exactly if the items are tangled. -/
theorem crosses_iff {its : List Item} (hr : Numbers N its r) (hxm : x ∈ its) (hym : y ∈ its) (hx : x.Wf N L)
    (hy : y.Wf N L) (h : Fits x y) :
    Brackets.Crosses Span.left Span.right (x.span r L) (y.span r L) ↔ Tangled L x y := by
  have hfirst := h.first_lt
  have hstart := h.start_le
  have hyN := hy.first_lt
  have hyL := hy.start_le
  unfold Brackets.Crosses Tangled
  rw [lt_iff_rank, lt_iff_rank, lt_iff_rank, rank_left, rank_left]
  cases hxl : x.last with
  | none =>
    have hrx := hr.le x hxm hxl
    rw [rank_right_open hxl]
    cases hyl : y.last with
    | none =>
      have hrr := hr.lt x hxm y hym hxl hyl hfirst
      rw [rank_right_open hyl]
      refine iff_of_true ?_ ⟨hfirst, trivial⟩
      dsimp only
      omega
    | some last =>
      obtain ⟨k, u⟩ := last
      obtain ⟨hk, hkN, hu, huL, -⟩ := hy.closed k u hyl
      obtain ⟨htime, hnumber⟩ := rank_right_closed (r := r) hy hyl
      rw [htime, hnumber]
      show _ ↔ x.first < y.first ∧ x.start < L ∧ y.start = L ∧ u = L
      split <;> omega
  | some last =>
    obtain ⟨j, t⟩ := last
    obtain ⟨hj, hjN, ht, htL, -⟩ := hx.closed j t hxl
    obtain ⟨htime, hnumber⟩ := rank_right_closed (r := r) hx hxl
    have hclosed := h.closed j t hxl
    rw [htime, hnumber]
    cases hyl : y.last with
    | none =>
      have hry := hr.le y hym hyl
      replace hclosed : j < y.first ∧ t ≤ y.start :=
        hclosed.resolve_right fun ⟨k, u, hku, _⟩ => nomatch hyl.symm.trans hku
      rw [rank_right_open hyl]
      show _ ↔ x.first < y.first ∧ j < y.first ∧ t = x.start ∧ y.start = x.start
      split <;> omega
    | some last =>
      obtain ⟨k, u⟩ := last
      obtain ⟨hk, hkN, hu, huL, -⟩ := hy.closed k u hyl
      obtain ⟨hytime, hynumber⟩ := rank_right_closed (r := r) hy hyl
      replace hclosed : (j < y.first ∧ t ≤ y.start) ∨ (x.first < j ∧ k < j ∧ u ≤ t) := by
        refine hclosed.imp_right fun ⟨k', u', hku, hle⟩ => ?_
        obtain ⟨rfl, rfl⟩ := Prod.mk.inj (Option.some.inj (hyl.symm.trans hku))
        exact hle
      rw [hytime, hynumber]
      show _ ↔ x.first < y.first ∧
        ((j < y.first ∧ t = x.start ∧ y.start = x.start) ∨ (k < j ∧ x.start < t ∧ y.start = t ∧ u = t))
      split <;> split <;> omega

end

/-! ## What is parsed -/

/-- The spans of what was parsed -/
def Parse.spans (p : Parse) : List Span := p.pairs.map .pair ++ p.instants.map .instant

/-- A scope that is open, as an item -/
def OpenScope.item (o : OpenScope) : Item := ⟨o.name, o.oSeq, o.start, none⟩

section

variable {p : Parse} {its : List Item} {r : ℕ → ℕ} {N : ℕ} {T : ℤ} {x : Item} {e : Entry}

theorem Parse.spans_pair (p : Parse) (o : OpenScope) (ts : ℤ) :
    (p.pair o ts).spans.Perm (.pair ⟨o.name, o.start, ts, ts - o.start, o.oSeq, p.seq⟩ :: p.spans) := by
  rw [spans, pair, List.map_append, List.append_assoc]
  exact List.perm_middle

theorem Numbers.cons_closed (h : Numbers N its r) (hx : x.last ≠ none) : Numbers N (x :: its) r where
  le := List.forall_mem_cons.mpr ⟨fun hlast => absurd hlast hx, h.le⟩
  lt := by
    intro y hy z hz hylast hzlast
    rcases List.mem_cons.mp hy with rfl | hy
    · exact absurd hylast hx
    · rcases List.mem_cons.mp hz with rfl | hz
      · exact absurd hzlast hx
      · exact h.lt y hy z hz hylast hzlast

/-- The loop at the end numbers what is open, from the first one on. -/
theorem foldl_pair (V : List OpenScope) (p : Parse) (hV : V.Pairwise fun a b => a.oSeq < b.oSeq) :
    ∃ r, Numbers p.seq (V.map OpenScope.item) r ∧
      (V.foldl (fun p o => p.pair o p.maxUs) p).spans.Perm (p.spans ++ V.map fun o => o.item.span r p.maxUs) := by
  induction V generalizing p with
  | nil =>
    refine ⟨id, ⟨nofun, nofun⟩, ?_⟩
    rw [List.map_nil, List.append_nil]
    exact List.Perm.refl _
  | cons o V ih =>
    obtain ⟨hlt, hrest⟩ := List.pairwise_cons.mp hV
    obtain ⟨r, hr, hperm⟩ := ih (p.pair o p.maxUs) hrest
    have hne : ∀ o' ∈ V, Function.update r o.oSeq p.seq o'.oSeq = r o'.oSeq :=
      fun o' ho' => Function.update_of_ne (hlt o' ho').ne' _ _
    have hle : ∀ o' ∈ V, p.seq < r o'.oSeq := fun o' ho' => hr.le o'.item (List.mem_map_of_mem ho') rfl
    refine ⟨Function.update r o.oSeq p.seq, ⟨?_, ?_⟩, ?_⟩
    · intro x hx _
      obtain ⟨o', ho', rfl⟩ := List.mem_map.mp hx
      show p.seq ≤ Function.update r o.oSeq p.seq o'.oSeq
      rcases List.mem_cons.mp ho' with rfl | ho'
      · rw [Function.update_self]
      · rw [hne o' ho']
        exact (hle o' ho').le
    · intro x hx y hy _ _ hxy
      obtain ⟨a, ha, rfl⟩ := List.mem_map.mp hx
      obtain ⟨b, hb, rfl⟩ := List.mem_map.mp hy
      show Function.update r o.oSeq p.seq a.oSeq < Function.update r o.oSeq p.seq b.oSeq
      replace hxy : a.oSeq < b.oSeq := hxy
      rcases List.mem_cons.mp hb with rfl | hbV
      · rcases List.mem_cons.mp ha with rfl | haV
        · exact absurd hxy (lt_irrefl _)
        · exact absurd hxy (hlt a haV).asymm
      · rw [hne b hbV]
        rcases List.mem_cons.mp ha with rfl | haV
        · rw [Function.update_self]
          exact hle b hbV
        · rw [hne a haV]
          exact hr.lt a.item (List.mem_map_of_mem haV) b.item (List.mem_map_of_mem hbV) rfl rfl hxy
    · have hmap : (V.map fun o' => o'.item.span (Function.update r o.oSeq p.seq) p.maxUs) =
          V.map fun o' => o'.item.span r p.maxUs := by
        refine List.map_congr_left fun o' ho' => ?_
        show Span.pair ⟨_, _, _, _, _, Function.update r o.oSeq p.seq o'.oSeq⟩ = .pair ⟨_, _, _, _, _, r o'.oSeq⟩
        rw [hne o' ho']
      have hhead : o.item.span (Function.update r o.oSeq p.seq) p.maxUs =
          .pair ⟨o.name, o.start, p.maxUs, p.maxUs - o.start, o.oSeq, p.seq⟩ := by
        show Span.pair ⟨_, _, _, _, _, Function.update r o.oSeq p.seq o.oSeq⟩ = _
        rw [Function.update_self]
        rfl
      rw [List.map_cons, hmap, hhead, List.foldl_cons]
      refine hperm.trans ?_
      refine ((p.spans_pair o p.maxUs).append_right _).trans ?_
      exact List.perm_middle.symm

theorem Parse.close_spans (h : Open (p.openStack.map OpenScope.item) p.seq T) :
    ∃ r, Numbers p.seq (p.openStack.map OpenScope.item) r ∧
      p.close.spans.Perm (p.spans ++ (p.openStack.map OpenScope.item).map (Item.span r p.maxUs)) := by
  have hV : p.openStack.reverse.Pairwise fun a b => a.oSeq < b.oSeq := by
    rw [List.pairwise_reverse]
    exact (List.pairwise_map.mp h.sorted).imp fun hab => hab.1
  obtain ⟨r, hr, hperm⟩ := foldl_pair p.openStack.reverse p hV
  refine ⟨r, ⟨fun x hx => hr.le x ?_, fun x hx y hy => hr.lt x ?_ y ?_⟩, hperm.trans ?_⟩
  · rwa [List.map_reverse, List.mem_reverse]
  · rwa [List.map_reverse, List.mem_reverse]
  · rwa [List.map_reverse, List.mem_reverse]
  · rw [List.map_map, List.map_reverse]
    exact (List.reverse_perm _).append_left _

theorem Parse.entry_begin (hb : e.etype = ['B']) :
    p.entry e = { p with
      openStack := ⟨e.name, e.ts, p.seq⟩ :: p.openStack, seq := p.seq + 1, maxUs := max p.maxUs e.ts } := by
  rw [entry, if_pos hb]

theorem Parse.entry_end {o : OpenScope} {stack : List OpenScope} (hb : e.etype ≠ ['B']) (he : e.etype = ['E'])
    (hstack : p.openStack = o :: stack) (hname : o.name = e.name) :
    p.entry e = { p with openStack := stack, maxUs := max p.maxUs e.ts : Parse }.pair o e.ts := by
  have htop : (fun a : OpenScope => a.name == e.name) o = true := beq_iff_eq.mpr hname
  have hfind : (o :: stack).find? (fun a => a.name == e.name) = some o := List.find?_cons_of_pos htop
  have herase : ((o :: stack).eraseP fun a => a.name == e.name) = stack := List.eraseP_cons_of_pos htop
  rw [entry, if_neg hb, if_pos he, hstack]
  dsimp only
  rw [hfind, herase]

theorem Parse.entry_instant (hb : e.etype ≠ ['B']) (he : e.etype ≠ ['E']) (hi : e.etype = ['I']) :
    p.entry e = { p with
      instants := p.instants ++ [⟨e.name, e.ts, p.seq⟩], seq := p.seq + 1, maxUs := max p.maxUs e.ts } := by
  rw [entry, if_neg hb, if_neg he, if_pos hi]

theorem Parse.entry_other (hb : e.etype ≠ ['B']) (he : e.etype ≠ ['E']) (hi : e.etype ≠ ['I']) :
    p.entry e = { p with maxUs := max p.maxUs e.ts } := by
  rw [entry, if_neg hb, if_neg he, if_neg hi]

/-- The spans of a nested log are those of its items. -/
theorem foldl_spans {log : List Entry} (hnest : Nests (p.openStack.map OpenScope.name) log)
    (h : Open (p.openStack.map OpenScope.item) p.seq T) (hsorted : log.Pairwise fun a b => a.ts ≤ b.ts)
    (hlog : ∀ e ∈ log, T ≤ e.ts) :
    ∃ r, Numbers (p.seq + log.countP Entry.counts) (items (p.openStack.map OpenScope.item) p.seq log) r ∧
      (log.foldl Parse.entry p).close.spans.Perm (p.spans ++
        (items (p.openStack.map OpenScope.item) p.seq log).map
          (Item.span r (log.foldl (fun m e => max m e.ts) p.maxUs))) := by
  induction log generalizing p T with
  | nil => exact p.close_spans h
  | cons e log ih =>
    have hT : T ≤ e.ts := hlog e List.mem_cons_self
    obtain ⟨hle, hrest⟩ := List.pairwise_cons.mp hsorted
    rw [List.foldl_cons, List.foldl_cons]
    unfold items
    unfold Nests at hnest
    split
    next hb =>
      rw [if_pos hb] at hnest
      rw [Parse.entry_begin hb, add_countP_cons (.inl hb)]
      exact ih (p := ⟨p.pairs, p.instants, ⟨e.name, e.ts, p.seq⟩ :: p.openStack, p.seq + 1, max p.maxUs e.ts⟩)
        hnest (h.begins hT e.name) hrest hle
    next hb =>
      rw [if_neg hb] at hnest
      split
      next he =>
        rw [if_pos he] at hnest
        rw [add_countP_cons (.inr (.inl he))]
        cases hst : p.openStack with
        | nil =>
          rw [hst] at hnest
          cases hnest.1
        | cons o stack =>
          rw [hst] at hnest h
          have hname : o.name = e.name := Option.some.inj hnest.1
          have hfirst : o.oSeq < p.seq := h.first_lt o.item List.mem_cons_self
          rw [Parse.entry_end hb he hst hname]
          obtain ⟨r, hr, hperm⟩ := ih (p := Parse.pair ⟨p.pairs, p.instants, stack, p.seq, max p.maxUs e.ts⟩ o e.ts)
            hnest.2 (h.ends.mono hT) hrest hle
          refine ⟨r, hr.cons_closed (by simp), hperm.trans ?_⟩
          have hspan : Item.span r (log.foldl (fun m e => max m e.ts) (max p.maxUs e.ts))
              { o.item with last := some (p.seq, e.ts) } =
              .pair ⟨o.name, o.start, e.ts, e.ts - o.start, o.oSeq, p.seq⟩ := if_neg hfirst.ne'
          rw [List.map_cons, List.map_cons, hspan]
          exact ((Parse.spans_pair _ o e.ts).append_right _).trans List.perm_middle.symm
      next he =>
        rw [if_neg he] at hnest
        split
        next hi =>
          rw [Parse.entry_instant hb he hi, add_countP_cons (.inr (.inr hi))]
          obtain ⟨r, hr, hperm⟩ := ih (p := ⟨p.pairs, p.instants ++ [⟨e.name, e.ts, p.seq⟩], p.openStack, p.seq + 1,
            max p.maxUs e.ts⟩) hnest (h.mono hT) hrest hle
          refine ⟨r, hr.cons_closed (by simp), hperm.trans ?_⟩
          have hspan : Item.span r (log.foldl (fun m e => max m e.ts) (max p.maxUs e.ts))
              ⟨e.name, p.seq, e.ts, some (p.seq, e.ts)⟩ = .instant ⟨e.name, e.ts, p.seq⟩ := if_pos rfl
          rw [List.map_cons, hspan]
          refine List.Perm.trans ?_ List.perm_middle.symm
          rw [Parse.spans, List.map_append, ← List.append_assoc]
          exact (List.perm_append_singleton _ _).append_right _
        next hi =>
          have hcount : (e :: log).countP Entry.counts = log.countP Entry.counts := by
            refine List.countP_cons_of_neg ?_
            rw [Entry.counts, beq_eq_false_iff_ne.mpr hb, beq_eq_false_iff_ne.mpr he, beq_eq_false_iff_ne.mpr hi]
            decide
          rw [Parse.entry_other hb he hi, hcount]
          exact ih (p := ⟨p.pairs, p.instants, p.openStack, p.seq, max p.maxUs e.ts⟩) hnest h hrest fun a ha =>
            hlog a (List.mem_cons_of_mem _ ha)

end

/-! ## The events -/

/-- The name of a span -/
def Span.name : Span → List Char
  | .pair p => p.name
  | .instant i => i.name

theorem Span.mem_events {s : Span} {e : Event} (h : e ∈ s.events) :
    e.span = s ∧ e.frame = s.name ∧ e.key = Brackets.place Span.left Span.right (e.opens, s) := by
  cases s with
  | pair p => rcases List.mem_pair.mp h with rfl | rfl <;> exact ⟨rfl, rfl, rfl⟩
  | instant i => rcases List.mem_pair.mp h with rfl | rfl <;> exact ⟨rfl, rfl, rfl⟩

theorem Span.exists_event (s : Span) (opens : Bool) : ∃ e ∈ s.events, e.opens = opens := by
  cases s <;> cases opens
  · exact ⟨_, List.mem_pair.mpr (.inr rfl), rfl⟩
  · exact ⟨_, List.mem_pair.mpr (.inl rfl), rfl⟩
  · exact ⟨_, List.mem_pair.mpr (.inr rfl), rfl⟩
  · exact ⟨_, List.mem_pair.mpr (.inl rfl), rfl⟩

theorem Span.map_key_events (s : Span) : s.events.map Event.key = [s.left, s.right] := by
  cases s <;> rfl

/-- The events, as brackets -/
def Event.bracket (e : Event) : Bool × Span := (e.opens, e.span)

section

variable {data : Parse}

theorem Parse.events_perm (data : Parse) : data.events.Perm (data.spans.flatMap Span.events) := by
  rw [events, spans, List.flatMap_append, List.flatMap_map, List.flatMap_map]
  exact List.perm_insertionSort _ _

theorem Parse.mem_events {e : Event} (he : e ∈ data.events) : e.span ∈ data.spans ∧ e ∈ e.span.events := by
  obtain ⟨s, hs, hes⟩ := List.mem_flatMap.mp (data.events_perm.mem_iff.mp he)
  rw [(Span.mem_events hes).1]
  exact ⟨hs, hes⟩

theorem Parse.mem_brackets {opens : Bool} {s : Span} :
    (opens, s) ∈ data.events.map Event.bracket ↔ s ∈ data.spans := by
  constructor
  · intro h
    obtain ⟨e, he, heq⟩ := List.mem_map.mp h
    rw [← (Prod.mk.inj heq).2]
    exact (mem_events he).1
  · intro h
    obtain ⟨e, he, rfl⟩ := s.exists_event opens
    refine List.mem_map.mpr ⟨e, data.events_perm.mem_iff.mpr (List.mem_flatMap.mpr ⟨s, h, he⟩), ?_⟩
    rw [Event.bracket, (Span.mem_events he).1]

theorem Parse.events_sorted (data : Parse) : data.events.Pairwise fun a b => a.key ≤ b.key :=
  List.pairwise_insertionSort _ _

/-- If no two keys are the same, the events are read as brackets. -/
theorem Parse.reading (hkeys : (data.spans.flatMap fun s => [s.left, s.right]).Nodup) :
    Brackets.Reading Span.left Span.right [] (data.events.map Event.bracket) where
  sorted := by
    have hperm : (data.events.map Event.key).Perm (data.spans.flatMap fun s => [s.left, s.right]) := by
      refine (data.events_perm.map _).trans (List.Perm.of_eq ?_)
      rw [List.map_flatMap]
      exact List.flatMap_congr fun s _ => s.map_key_events
    have hne : data.events.Pairwise fun a b => a.key ≠ b.key :=
      List.pairwise_map.mp (hperm.nodup_iff.mpr hkeys)
    refine List.pairwise_map.mpr ((data.events_sorted.and hne).imp_of_mem fun {a b} ha hb hab => ?_)
    rw [Event.bracket, Event.bracket, ← (Span.mem_events (mem_events ha).2).2.2,
      ← (Span.mem_events (mem_events hb).2).2.2]
    exact hab.1.lt_of_ne hab.2
  stack_sorted := List.Pairwise.nil
  begun := nofun
  ends_of_stack := nofun
  ends_of_begin s hs := mem_brackets.mpr (mem_brackets.mp hs)
  ends s hs := .inr (mem_brackets.mpr (mem_brackets.mp hs))

end

section

variable {r : ℕ → ℕ} {N : ℕ} {L : ℤ} {x y : Item} {its : List Item}

/-- The keys of two items are different. -/
theorem keys_disjoint (hr : Numbers N its r) (hxm : x ∈ its) (hym : y ∈ its) (hx : x.Wf N L) (hy : y.Wf N L)
    (h : Fits x y) : [(x.span r L).left, (x.span r L).right].Disjoint [(y.span r L).left, (y.span r L).right] := by
  have hfirst := h.first_lt
  have hyN := hy.first_lt
  have hright : ∀ z ∈ its, z.Wf N L → (rank (z.span r L).right).2 = 2 * r z.first ∧ N ≤ r z.first ∧ z.last = none ∨
      ∃ j t, z.last = some (j, t) ∧ z.first ≤ j ∧ j < N ∧
        (rank (z.span r L).right).2 = 2 * j + if j = z.first then 1 else 0 := by
    intro z hzm hz
    cases hlast : z.last with
    | none => exact .inl ⟨by rw [rank_right_open hlast], hr.le z hzm hlast, rfl⟩
    | some last =>
      obtain ⟨j, t⟩ := last
      obtain ⟨hj, hjN, -⟩ := hz.closed j t hlast
      exact .inr ⟨j, t, rfl, hj, hjN, (rank_right_closed hz hlast).2⟩
  have hleft : ∀ z : Item, (rank (z.span r L).left).2 = 2 * z.first := fun z => by rw [rank_left]
  have hxleft := hleft x
  have hyleft := hleft y
  have hne : ∀ k k' : Key, (rank k).2 ≠ (rank k').2 → k ≠ k' := fun k k' hk heq => hk (heq ▸ rfl)
  rw [List.disjoint_left]
  rintro k hkx hky
  obtain hkx | hkx := List.mem_pair.mp hkx <;> obtain hky | hky := List.mem_pair.mp hky
  · refine hne _ _ ?_ (hkx.symm.trans hky)
    omega
  · refine hne _ _ ?_ (hkx.symm.trans hky)
    obtain ⟨hn, hN, -⟩ | ⟨j, t, -, hj, hjN, hn⟩ := hright y hym hy
    · omega
    · split at hn <;> omega
  · refine hne _ _ ?_ (hkx.symm.trans hky)
    obtain ⟨hn, hN, -⟩ | ⟨j, t, hlast, hj, hjN, hn⟩ := hright x hxm hx
    · omega
    · obtain ⟨hlt, -⟩ | ⟨k, u, hylast, hxj, hkj, -⟩ := h.closed j t hlast
      · split at hn <;> omega
      · obtain ⟨hk, -⟩ := hy.closed k u hylast
        rw [if_neg hxj.ne'] at hn
        omega
  · refine hne _ _ ?_ (hkx.symm.trans hky)
    obtain ⟨hn, hN, hxlast⟩ | ⟨j, t, hlast, hj, hjN, hn⟩ := hright x hxm hx <;>
      obtain ⟨hyn, hyNr, hylast⟩ | ⟨k, u, hylast, hk, hkN, hyn⟩ := hright y hym hy
    · have hlt := hr.lt x hxm y hym hxlast hylast hfirst
      omega
    · split at hyn <;> omega
    · split at hn <;> omega
    · obtain ⟨hlt, -⟩ | ⟨k', u', hylast', hxj, hkj, -⟩ := h.closed j t hlast
      · split at hn <;> split at hyn <;> omega
      · obtain ⟨rfl, rfl⟩ := Prod.mk.inj (Option.some.inj (hylast.symm.trans hylast'))
        split at hn <;> split at hyn <;> omega

end

section

variable {r : ℕ → ℕ} {N : ℕ} {L : ℤ} {its : List Item}

/-- Among the items of a log, in any order -/
theorem crosses_iff_tangled (hr : Numbers N its r) (hapart : its.Pairwise Apart) (hwf : ∀ x ∈ its, x.Wf N L)
    {x y : Item} (hx : x ∈ its) (hy : y ∈ its) :
    Brackets.Crosses Span.left Span.right (x.span r L) (y.span r L) ↔ Tangled L x y := by
  have hsymm : Std.Symm Apart := ⟨fun _ _ => Or.symm⟩
  by_cases heq : x = y
  · subst heq
    exact iff_of_false (fun h => lt_irrefl _ h.1) fun h => lt_irrefl _ h.1
  · rcases hapart.forall hx hy heq with hxy | hyx
    · exact crosses_iff hr hx hy (hwf x hx) (hwf y hy) hxy
    · have hfirst := hyx.first_lt
      have hstart := hyx.start_le
      refine iff_of_false (fun h => ?_) fun h => hfirst.asymm h.1
      have hlt := (lt_iff_rank _ _).mp h.1
      rw [rank_left, rank_left] at hlt
      dsimp only at hlt
      omega

theorem Item.span_name (x : Item) : (x.span r L).name = x.name := by
  unfold Item.span
  split
  · rfl
  · split <;> rfl

end

/-! ## Nesting -/

/-- Every close event is that of the frame that was opened last and is not closed, and none stays open. Frames are told
apart by a label. -/
def Nested {α : Type} (label : Event → α) (events : List Event) : Prop :=
  Brackets.Balanced [] (events.map fun e => (e.opens, label e))

/-- Every frame that is opened is closed later. -/
def Closes (events : List Event) : Prop :=
  ∀ before e after, events = before ++ e :: after → e.opens = true →
    ∃ c ∈ after, c.opens = false ∧ c.span = e.span ∧ c.frame = e.frame

section

variable {log : List Entry}

theorem le_foldl_max (log : List Entry) (m : ℤ) :
    m ≤ log.foldl (fun m e => max m e.ts) m ∧ ∀ e ∈ log, e.ts ≤ log.foldl (fun m e => max m e.ts) m := by
  induction log generalizing m with
  | nil => exact ⟨le_refl m, nofun⟩
  | cons e log ih =>
    obtain ⟨hle, hall⟩ := ih (max m e.ts)
    exact ⟨(le_max_left _ _).trans hle, List.forall_mem_cons.mpr ⟨(le_max_right _ _).trans hle, hall⟩⟩

/-- The timestamps lie between one and the last one. -/
theorem exists_bound (hts : log.Pairwise fun a b => a.ts ≤ b.ts) :
    ∃ T ≤ lastTs log, ∀ e ∈ log, T ≤ e.ts ∧ e.ts ≤ lastTs log := by
  obtain ⟨hzero, hall⟩ := le_foldl_max log 0
  cases log with
  | nil => exact ⟨0, hzero, nofun⟩
  | cons e log =>
    have hle : ∀ a ∈ e :: log, e.ts ≤ a.ts := List.forall_mem_cons.mpr ⟨le_refl e.ts, (List.pairwise_cons.mp hts).1⟩
    exact ⟨e.ts, hall e List.mem_cons_self, fun a ha => ⟨hle a ha, hall a ha⟩⟩

/-- No scope is open at the beginning. -/
theorem open_nil (n : ℕ) (T : ℤ) : Open [] n T := ⟨List.Pairwise.nil, nofun, nofun, nofun⟩

/-- What a log is parsed to -/
abbrev parsed (log : List Entry) : Parse := (log.foldl Parse.entry ⟨[], [], [], 0, 0⟩).close

/-- The spans that a nested log comes to are those of its items, and the keys of their events are different. -/
theorem parsed_spec (hts : log.Pairwise fun a b => a.ts ≤ b.ts) (hnest : Nests [] log) :
    (Brackets.Reading Span.left Span.right [] ((parsed log).events.map Event.bracket)) ∧
      ((∀ s ∈ (parsed log).spans, ∀ s' ∈ (parsed log).spans, ¬ Brackets.Crosses Span.left Span.right s s') ↔
        Untangled log) ∧
      ((∀ x ∈ items [] 0 log, ∀ y ∈ items [] 0 log, x.name = y.name → x = y) →
        ∀ s ∈ (parsed log).spans, ∀ s' ∈ (parsed log).spans, s.name = s'.name → s = s') := by
  obtain ⟨T, hT, hlog⟩ := exists_bound hts
  obtain ⟨r, hr, hperm⟩ := foldl_spans (p := ⟨[], [], [], 0, 0⟩) hnest (open_nil 0 T) hts fun e he => (hlog e he).1
  obtain ⟨-, hapart⟩ := items_spec (open_nil 0 T) hts fun e he => (hlog e he).1
  have hwf : ∀ x ∈ items [] 0 log, x.Wf (0 + log.countP Entry.counts) (lastTs log) :=
    items_wf (open_nil 0 T) hT (le_refl _) hts hlog
  replace hperm : (parsed log).spans.Perm ((items [] 0 log).map (Item.span r (lastTs log))) := hperm
  have hmem : ∀ s, s ∈ (parsed log).spans ↔ ∃ x ∈ items [] 0 log, x.span r (lastTs log) = s := fun s =>
    hperm.mem_iff.trans List.mem_map
  refine ⟨Parse.reading ?_, ⟨fun hall x hx y hy => ?_, fun hall s hs s' hs' => ?_⟩, fun hnames s hs s' hs' heq => ?_⟩
  · rw [(hperm.flatMap_right _).nodup_iff, List.flatMap_map, List.nodup_flatMap]
    refine ⟨fun x _ => List.nodup_cons.mpr ⟨?_, List.nodup_singleton _⟩, hapart.imp_of_mem fun {x y} hx hy hxy => ?_⟩
    · rw [List.mem_singleton]
      exact (Span.left_lt_right _).ne
    · rcases hxy with hxy | hyx
      · exact keys_disjoint hr hx hy (hwf x hx) (hwf y hy) hxy
      · exact fun k hkx hky => keys_disjoint hr hy hx (hwf y hy) (hwf x hx) hyx hky hkx
  · rw [← crosses_iff_tangled hr hapart hwf hx hy]
    exact hall _ ((hmem _).mpr ⟨x, hx, rfl⟩) _ ((hmem _).mpr ⟨y, hy, rfl⟩)
  · obtain ⟨x, hx, rfl⟩ := (hmem s).mp hs
    obtain ⟨y, hy, rfl⟩ := (hmem s').mp hs'
    rw [crosses_iff_tangled hr hapart hwf hx hy]
    exact hall x hx y hy
  · obtain ⟨x, hx, rfl⟩ := (hmem s).mp hs
    obtain ⟨y, hy, rfl⟩ := (hmem s').mp hs'
    rw [x.span_name, y.span_name] at heq
    rw [hnames x hx y hy heq]

theorem Parse.closes (data : Parse) : Closes data.events := by
  intro before e after heq hopens
  have he : e ∈ data.events := heq ▸ List.mem_append_right _ List.mem_cons_self
  obtain ⟨hspan, hevent⟩ := mem_events he
  obtain ⟨c, hc, hcloses⟩ := e.span.exists_event false
  obtain ⟨hcspan, hcframe, hckey⟩ := Span.mem_events hc
  have hcmem : c ∈ before ++ e :: after :=
    heq ▸ data.events_perm.mem_iff.mpr (List.mem_flatMap.mpr ⟨e.span, hspan, hc⟩)
  have hlt : e.key < c.key := by
    rw [(Span.mem_events hevent).2.2, hckey, hopens, hcloses]
    exact e.span.left_lt_right
  refine ⟨c, ?_, hcloses, hcspan, hcframe.trans (Span.mem_events hevent).2.1.symm⟩
  have hsorted := data.events_sorted
  rw [heq, List.pairwise_append] at hsorted
  rcases List.mem_append.mp hcmem with hbefore | hafter
  · exact absurd (hsorted.2.2 c hbefore e List.mem_cons_self) hlt.not_ge
  · exact (List.mem_cons.mp hafter).resolve_left fun hce => hlt.ne (congrArg Event.key hce.symm)

theorem Parse.nested_frame_eq (data : Parse) :
    (data.events.map fun e => (e.opens, e.frame)) = (data.events.map Event.bracket).map (Prod.map id Span.name) := by
  rw [List.map_map]
  refine List.map_congr_left fun e he => ?_
  show (e.opens, e.frame) = (e.opens, e.span.name)
  rw [(Span.mem_events (mem_events he).2).2.1]

/-- The events of a log in order whose scopes are nested are sorted, and every frame is closed after it is opened. The
close events are those of the frames that were opened last exactly if nothing is tangled; then they have their names as
well, and if the names are different they have their names only then. -/
theorem keeps_nesting_iff (isSpace : Char → Bool) (int : List Char → Option ℤ) (lines : List (List Char))
    (hts : (lines.filterMap (readLine isSpace int)).Pairwise fun a b => a.ts ≤ b.ts)
    (hnest : Nests [] (lines.filterMap (readLine isSpace int))) :
    (toSpeedscope isSpace int lines).Pairwise (fun a b => a.time ≤ b.time) ∧
      Closes (toSpeedscope isSpace int lines) ∧
      (Nested Event.span (toSpeedscope isSpace int lines) ↔
        Untangled (lines.filterMap (readLine isSpace int))) ∧
      (Untangled (lines.filterMap (readLine isSpace int)) →
        Nested Event.frame (toSpeedscope isSpace int lines)) ∧
      ((∀ x ∈ items [] 0 (lines.filterMap (readLine isSpace int)),
          ∀ y ∈ items [] 0 (lines.filterMap (readLine isSpace int)), x.name = y.name → x = y) →
        (Nested Event.frame (toSpeedscope isSpace int lines) ↔
          Untangled (lines.filterMap (readLine isSpace int)))) := by
  obtain ⟨hreading, huntangled, hnames⟩ := parsed_spec hts hnest
  have hdata : toSpeedscope isSpace int lines = (parsed (lines.filterMap (readLine isSpace int))).events := rfl
  generalize lines.filterMap (readLine isSpace int) = log at *
  rw [hdata]
  have hspan : Nested Event.span (parsed log).events ↔ Untangled log := by
    refine (Brackets.balanced_iff Span.left_lt_right hreading).trans (Iff.trans ?_ huntangled)
    simp only [Parse.mem_brackets]
    exact ⟨fun h s hs s' hs' => h s s' hs hs', fun h s s' hs hs' => h s hs s' hs'⟩
  have hframe : Untangled log → Nested Event.frame (parsed log).events := by
    intro h
    rw [Nested, Parse.nested_frame_eq]
    exact Brackets.Balanced.map Span.name (hspan.mpr h)
  refine ⟨(parsed log).events_sorted.imp fun {a b} hab => ?_, (parsed log).closes, hspan, hframe,
    fun hdistinct => ⟨fun h => ?_, hframe⟩⟩
  · rcases Prod.Lex.toLex_le_toLex.mp hab with hlt | ⟨heq, -⟩
    · exact hlt.le
    · exact heq.le
  · rw [Nested, Parse.nested_frame_eq] at h
    refine hspan.mp (Brackets.Balanced.of_map (f := Span.name) (fun s hs s' hs' => hnames hdistinct s ?_ s' ?_) h)
    · obtain ⟨b, hb, rfl⟩ := List.mem_map.mp hs
      exact Parse.mem_brackets.mp hb
    · obtain ⟨b, hb, rfl⟩ := List.mem_map.mp hs'
      exact Parse.mem_brackets.mp hb

end

/-- `int` of a number that is written with digits only -/
def intOfDigits (cs : List Char) : Option ℤ :=
  if cs ≠ [] ∧ cs.all Char.isDigit then some (cs.foldl (fun n c => 10 * n + (c.toNat - 48)) 0) else none

/-- A scope and an instant in it -/
theorem keeps_nesting_instant :
    Nested Event.frame (toSpeedscope Char.isWhitespace intOfDigits
      ["3:B:f".toList, "5:I:tick".toList, "7:E:f".toList]) :=
  (keeps_nesting_iff Char.isWhitespace intOfDigits ["3:B:f".toList, "5:I:tick".toList, "7:E:f".toList]
    (by decide +kernel) (by decide +kernel)).2.2.2.1 (by decide +kernel)

/-- Two scopes without duration at one timestamp are opened both before the first is closed. -/
theorem not_keeps_nesting :
    ¬ ∀ (isSpace : Char → Bool) (int : List Char → Option ℤ) (lines : List (List Char)),
      (lines.filterMap (readLine isSpace int)).Pairwise (fun a b => a.ts ≤ b.ts) →
      Nests [] (lines.filterMap (readLine isSpace int)) →
      (toSpeedscope isSpace int lines).Pairwise (fun a b => a.time ≤ b.time) ∧
        Nested Event.frame (toSpeedscope isSpace int lines) ∧ Closes (toSpeedscope isSpace int lines) := by
  intro h
  have hnested := (h Char.isWhitespace intOfDigits
    ["5:B:f".toList, "5:E:f".toList, "5:B:g".toList, "5:E:g".toList] (by decide +kernel) (by decide +kernel)).2.1
  revert hnested
  unfold Nested
  decide +kernel

end Dashboard

end Sandflea
