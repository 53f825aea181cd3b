import Sandflea.Terminal.Scrollback
import Sandflea.Terminal.Bounds
import Sandflea.Lib.Runs

/-!
# Scrollback is kept

For every run of output and switches, the rows of every session are the last 1000 that were pushed to it or
scrolled off its grid, and no freed row is reached, as long as the calls are careful (`rows_kept`). Not careful
are the calls that reach one of these defects: only session 0 ever has a list, so that what the others push is
lost (`scrollback_lost`); blank rows are not pushed, and rows as wide as the screen are cut in two; output of
the active session moves the saved ends and leaves the globals behind, or the other way round for a key that is
echoed, so that later output is linked to a row that is no longer the last, and the head is still pointed to
after it is freed; a `term_write` that scrolls pushes rows in the middle of a push and forgets them.
-/

namespace Sandflea
/-! ## Which bytes scroll -/

section PushLine

variable (pushLine : List UInt8 → Console → Console) (ch : UInt8) (c : Console)

/-- A byte starts a new line where `newlineAt` says so, and nowhere else. -/
theorem termPutc_eq_newlineAt :
    termPutc pushLine ch c =
      match newlineAt ch c with
      | some d => termNewline pushLine d
      | none => termPutc (fun _ c => c) ch c := by
  have htab : ¬ c.session.grid.cols ≤
      min (u16 ((c.session.cursorX + 8) / 8 * 8)) (c.session.grid.cols - 1) := by
    have hpos := c.session.grid.cols_pos
    omega
  by_cases h10 : ch = 10
  · simp only [termPutc, newlineAt, h10, if_true]
  by_cases h32 : 32 ≤ ch ∧ c.session.grid.cols ≤ u16 (c.session.cursorX + 1)
  · have h13 : ch ≠ 13 := by rintro rfl; exact absurd h32.1 (by decide)
    have h8 : ch ≠ 8 := by rintro rfl; exact absurd h32.1 (by decide)
    have h9 : ch ≠ 9 := by rintro rfl; exact absurd h32.1 (by decide)
    simp only [termPutc, newlineAt, h10, h13, h8, h9, h32.1, h32.2, and_self, if_false, if_true]
  · have hnone : newlineAt ch c = none := by simp only [newlineAt, h10, h32, if_false]
    have hwide : 32 ≤ ch → ¬ c.session.grid.cols ≤ u16 (c.session.cursorX + 1) :=
      fun h h' => h32 ⟨h, h'⟩
    rw [hnone]
    unfold termPutc
    dsimp only
    rw [if_neg htab, if_neg htab]
    by_cases h : 32 ≤ ch
    · rw [if_neg (hwide h), if_neg (hwide h)]
      split_ifs <;> rfl
    · rw [if_neg h, if_neg h]
      split_ifs <;> rfl

/-- A byte scrolls the grid where `scrollAt` says so, and calls `screen_push_line` nowhere else. -/
theorem ansiPutc_eq_scrollAt :
    ansiPutc pushLine ch c =
      match scrollAt ch c with
      | some d =>
        let e := scrollCellBuffer pushLine d
        e.moveTo e.session.cursorX (e.session.grid.rows - 1)
      | none => ansiPutc (fun _ c => c) ch c := by
  by_cases hput : c.parser.state = .ground ∧ ch ≠ 27
  · have hground : ∀ p, ansiPutc p ch c = termPutc p ch c := fun p => by
      simp only [ansiPutc, hput.1, hput.2, if_false]
    rw [hground, hground, termPutc_eq_newlineAt, termPutc_eq_newlineAt (fun _ c => c)]
    rw [scrollAt, if_pos hput]
    cases newlineAt ch c with
    | none => rfl
    | some d =>
      dsimp only
      unfold termNewline
      by_cases hrows : d.session.grid.rows ≤ u16 (d.session.cursorY + 1)
      · simp only [Console.moveTo, hrows, if_true]
      · simp only [Console.moveTo, hrows, if_false]
  · rw [scrollAt, if_neg hput]
    unfold ansiPutc
    dsimp only
    split
    · rename_i hstate
      rw [if_pos (by_contra fun h27 => hput ⟨hstate, h27⟩),
        if_pos (by_contra fun h27 => hput ⟨hstate, h27⟩)]
    all_goals rfl

end PushLine

/-! ## What is kept, and which calls are careful -/

namespace ScreenText

/-- The texts of the rows that a pointer leads to -/
def textsFrom (t : ScreenText) (p : Option ℕ) : List (List UInt8) :=
  (t.reach p).map fun r => (t.rows r).str

/-- No freed row is reached from the ends of a list. -/
def Live (t : ScreenText) (l : TextList) : Prop := ∀ r ∈ t.reach l.root ++ t.reach l.tail, r ∉ t.freed

instance (t : ScreenText) (l : TextList) : Decidable (t.Live l) :=
  inferInstanceAs (Decidable (∀ r ∈ _, r ∉ t.freed))

end ScreenText

namespace TextSessions

/-- The ends of the list of a session: the globals while it is active -/
def endsOf (s : TextSessions) (i : ℕ) : TextList := if s.active = i then s.text.ends else s.ends i

/-- The lists hold what they should, and nothing that was freed is reached. -/
structure RowsKept (s : TextSessions) : Prop where
  texts : ∀ i, s.text.textsFrom (s.endsOf i).root = (s.expected i).rtake terminalMaxRows
  globals : s.text.Live s.text.ends
  saved : ∀ i, s.text.Live (s.ends i)

/-- A list can take `n` rows at given ends: it is there, its last row is known, and while its session is active
there is room for the rows. -/
def CanTake (s : TextSessions) (l : TextList) (i n : ℕ) : Prop :=
  l.root ≠ none ∧ l.tail = (s.text.reach (s.endsOf i).root).getLast? ∧
    (s.active = i → (s.text.reach (s.endsOf i).root).length + n ≤ terminalMaxRows)

instance (s : TextSessions) (l : TextList) (i n : ℕ) : Decidable (s.CanTake l i n) :=
  inferInstanceAs (Decidable (_ ∧ _ ∧ (_ → _)))

/-- The rows that a line scrolls off -/
def lineDrops (s : TextSessions) (i : ℕ) (str : List UInt8) : List (List UInt8) :=
  droppedRows (str ++ [10]) { s.console i with cellbufLineActive := true }

/-- The calls that keep the rows -/
def Careful (s : TextSessions) : OutputCall → Prop
  | .write i bytes => droppedRows bytes (s.console i) = []
  | .line i str =>
    if (s.sessions i).ownsFramebuffer then
      str ≠ [] ∧ s.CanTake (s.ends i) i (rowsOf s.text.rowLen str).length
    else
      s.lineDrops i str = [] ∨
        s.CanTake (s.ends i) i (s.lineDrops i str).length ∧
          ∀ row ∈ s.lineDrops i str, row ≠ [] ∧ row.length < s.text.rowLen
  | .echo i _ => s.active = i ∧ s.CanTake s.text.ends i 1
  | .switch _ => True
  | .owns _ _ => True

instance (s : TextSessions) : ∀ e, Decidable (s.Careful e)
  | .write _ _ => inferInstanceAs (Decidable (_ = []))
  | .line _ _ => by unfold Careful; infer_instance
  | .echo _ _ => inferInstanceAs (Decidable (_ ∧ _))
  | .switch _ | .owns _ _ => .isTrue trivial

end TextSessions

/-! ## Rows that are linked -/

/-- Rows are linked one behind the other, with given texts, and none of them is freed. -/
structure Chained (t : ScreenText) (ids : List ℕ) (texts : List (List UInt8)) : Prop where
  chain : LinkedList.IsChain t.next ids.head? ids
  nonempty : ids ≠ []
  nodup : ids.Nodup
  lt : ∀ r ∈ ids, r < t.nextRow
  live : ∀ r ∈ ids, r ∉ t.freed
  freed_lt : ∀ r ∈ t.freed, r < t.nextRow
  texts : ids.map (fun r => (t.rows r).str) = texts

namespace Chained

variable {t : ScreenText} {ids : List ℕ} {texts : List (List UInt8)}

/-- The globals can be set to anything. -/
theorem setEnds (h : Chained t ids texts) (l : TextList) : Chained { t with ends := l } ids texts :=
  ⟨h.chain, h.nonempty, h.nodup, h.lt, h.live, h.freed_lt, h.texts⟩

theorem length_le (h : Chained t ids texts) : ids.length ≤ t.nextRow := by
  have hsub : ids ⊆ List.range t.nextRow := fun r hr => List.mem_range.mpr (h.lt r hr)
  simpa using (h.nodup.subperm hsub).length_le

/-- The head leads to all rows. -/
theorem reach_head (h : Chained t ids texts) : t.reach ids.head? = ids :=
  h.chain.follow_eq h.length_le

/-- A row of the list leads to rows of the list. -/
theorem reach_mem (h : Chained t ids texts) {r : ℕ} (hr : r ∈ ids) : t.reach (some r) ⊆ ids := by
  obtain ⟨front, back, hids⟩ := List.append_of_mem hr
  have hchain := h.chain
  rw [hids] at hchain ⊢
  have hlen : (r :: back).length ≤ t.nextRow := by
    have hle := h.length_le
    rw [hids, List.length_append] at hle
    omega
  rw [ScreenText.reach, hchain.of_append.follow_eq hlen]
  exact List.subset_append_right front (r :: back)

/-- A row is pushed at the end of the list. -/
theorem pushRow (h : Chained t ids texts) (htail : t.ends.tail = ids.getLast?) (str : List UInt8) :
    Chained (t.pushRow str) (ids ++ [t.nextRow]) (texts ++ [str]) ∧
      (t.pushRow str).ends = ⟨t.ends.root, some t.nextRow⟩ ∧ (t.pushRow str).freed = t.freed ∧
      (t.pushRow str).nextRow = t.nextRow + 1 ∧ (t.pushRow str).rowLen = t.rowLen := by
  obtain ⟨front, last, rfl⟩ : ∃ front last, ids = front ++ [last] :=
    ⟨ids.dropLast, ids.getLast h.nonempty, (List.dropLast_append_getLast h.nonempty).symm⟩
  have hfresh : t.nextRow ∉ front ++ [last] := fun hmem => (h.lt _ hmem).false
  have hlast : t.ends.tail = some last := by rw [htail, List.getLast?_concat]
  have hne : t.nextRow ≠ last := fun heq => hfresh (by rw [heq]; simp)
  have hrows : ∀ r ∈ front, r ≠ last ∧ r ≠ t.nextRow := fun r hr =>
    ⟨fun heq => (List.nodup_append.mp h.nodup).2.2 r hr last List.mem_cons_self heq,
      fun heq => hfresh (by rw [← heq]; exact List.mem_append_left _ hr)⟩
  have heq : t.pushRow str =
      { t with
        rows := Function.update (Function.update t.rows t.nextRow ⟨str, none⟩) last
          { t.rows last with next := some t.nextRow }
        nextRow := t.nextRow + 1
        ends := ⟨t.ends.root, some t.nextRow⟩ } := by
    unfold ScreenText.pushRow
    rw [hlast]
    dsimp only
    rw [Function.update_of_ne hne.symm]
  rw [heq]
  refine ⟨⟨?_, by simp, ?_, ?_, ?_, ?_, ?_⟩, rfl, rfl, rfl, rfl⟩
  · rw [List.head?_append_of_ne_nil _ h.nonempty]
    refine h.chain.concat (fun r hr => ?_) ?_ ?_
    · simp only [ScreenText.next, Function.update_of_ne (hrows r hr).1, Function.update_of_ne (hrows r hr).2]
    · simp only [ScreenText.next, Function.update_self]
    · simp only [ScreenText.next, Function.update_of_ne hne, Function.update_self]
  · exact List.nodup_append.mpr ⟨h.nodup, List.nodup_singleton _, fun r hr s hs => by
      rw [List.mem_singleton.mp hs]
      exact fun heq => hfresh (heq ▸ hr)⟩
  · intro r hr
    rcases List.mem_append.mp hr with hr | hr
    · exact Nat.lt_succ_of_lt (h.lt r hr)
    · rw [List.mem_singleton.mp hr]
      exact Nat.lt_succ_self _
  · intro r hr
    rcases List.mem_append.mp hr with hr | hr
    · exact h.live r hr
    · rw [List.mem_singleton.mp hr]
      exact fun hmem => (h.freed_lt _ hmem).false
  · exact fun r hr => Nat.lt_succ_of_lt (h.freed_lt r hr)
  · have hold : ∀ r ∈ front ++ [last], (Function.update (Function.update t.rows t.nextRow ⟨str, none⟩) last
        { t.rows last with next := some t.nextRow } r).str = (t.rows r).str := fun r hr => by
      rcases List.mem_append.mp hr with hr | hr
      · rw [Function.update_of_ne (hrows r hr).1, Function.update_of_ne (hrows r hr).2]
      · rw [List.mem_singleton.mp hr, Function.update_self]
    rw [List.map_append, List.map_congr_left hold, h.texts]
    simp only [List.map_cons, List.map_nil, Function.update_of_ne hne, Function.update_self]

/-- Rows are pushed at the end of the list. -/
theorem pushRows (h : Chained t ids texts) (htail : t.ends.tail = ids.getLast?)
    (strs : List (List UInt8)) :
    ∃ new, Chained (strs.foldl ScreenText.pushRow t) (ids ++ new) (texts ++ strs) ∧
      (strs.foldl ScreenText.pushRow t).ends = ⟨t.ends.root, (ids ++ new).getLast?⟩ ∧
      (strs.foldl ScreenText.pushRow t).freed = t.freed := by
  induction strs generalizing t ids texts with
  | nil => exact ⟨[], by simpa using h, by simp [← htail], rfl⟩
  | cons str strs ih =>
    obtain ⟨hpush, hends, hfreed, -, -⟩ := h.pushRow htail str
    have htail' : (t.pushRow str).ends.tail = (ids ++ [t.nextRow]).getLast? := by
      rw [hends, List.getLast?_concat]
    obtain ⟨new, hnew, hends', hfreed'⟩ := ih hpush htail'
    refine ⟨t.nextRow :: new, ?_, ?_, hfreed'.trans hfreed⟩
    · simpa using hnew
    · rw [List.foldl_cons, hends', hends]
      simp

/-- Rows are taken off the head of the list, and freed. -/
theorem removeRows (h : Chained t ids texts) (hroot : t.ends.root = ids.head?)
    (htail : t.ends.tail = ids.getLast?) {n : ℕ} (hn : n < ids.length) :
    Chained (t.removeRows n) (ids.drop n) (texts.drop n) ∧
      (t.removeRows n).ends = ⟨(ids.drop n).head?, (ids.drop n).getLast?⟩ ∧
      (t.removeRows n).freed = (ids.take n).reverse ++ t.freed := by
  induction n generalizing t ids texts with
  | zero => exact ⟨h, by rw [List.drop_zero, ← hroot, ← htail]; rfl, rfl⟩
  | succ n ih =>
    obtain ⟨old, ids, rfl⟩ := List.exists_cons_of_ne_nil h.nonempty
    obtain ⟨next, rest, rfl⟩ : ∃ next rest, ids = next :: rest :=
      List.exists_cons_of_length_pos (by simp only [List.length_cons] at hn; omega)
    have hold := List.nodup_cons.mp h.nodup
    unfold ScreenText.removeRows
    rw [hroot]
    dsimp only [List.head?_cons]
    have hnext : t.next old = some next := h.chain.2.1
    have hrest : Chained { t with freed := old :: t.freed, ends := ⟨t.next old, t.ends.tail⟩ }
        (next :: rest) (texts.drop 1) := by
      refine ⟨⟨rfl, h.chain.2.2⟩, by simp, hold.2, fun r hr => h.lt r (List.mem_cons_of_mem _ hr), ?_, ?_, ?_⟩
      · intro r hr hmem
        rcases List.mem_cons.mp hmem with rfl | hmem
        · exact hold.1 hr
        · exact h.live r (List.mem_cons_of_mem _ hr) hmem
      · intro r hr
        rcases List.mem_cons.mp hr with rfl | hr
        · exact h.lt r List.mem_cons_self
        · exact h.freed_lt r hr
      · rw [← h.texts]
        rfl
    obtain ⟨hchained, hends, hfreed⟩ :=
      ih hrest hnext (by rw [htail]; simp) (by simp only [List.length_cons] at hn ⊢; omega)
    rw [List.drop_drop, Nat.add_comm] at hchained
    refine ⟨hchained, hends, hfreed.trans ?_⟩
    rw [List.take_succ_cons, List.reverse_cons, List.append_assoc]
    rfl

end Chained

namespace ScreenText

@[simp] theorem rowLen_pushRow (t : ScreenText) (str : List UInt8) : (t.pushRow str).rowLen = t.rowLen := by
  unfold pushRow
  split <;> rfl

@[simp] theorem rowLen_pushRows (strs : List (List UInt8)) (t : ScreenText) :
    (strs.foldl pushRow t).rowLen = t.rowLen := by
  induction strs generalizing t with
  | nil => rfl
  | cons str strs ih => exact (ih _).trans (t.rowLen_pushRow str)

@[simp] theorem rowLen_removeRows (n : ℕ) (t : ScreenText) : (t.removeRows n).rowLen = t.rowLen := by
  induction n generalizing t with
  | zero => rfl
  | succ n ih =>
    unfold removeRows
    split
    · rfl
    · exact ih _

@[simp] theorem rowLen_prune (t : ScreenText) : t.prune.rowLen = t.rowLen := by
  unfold prune
  by_cases hcount : terminalMaxRows < t.getLineCount
  · by_cases hroot : (t.removeRows (t.getLineCount - terminalMaxRows)).ends.root = none
    · simp only [hcount, hroot, if_true, rowLen_removeRows]
    · simp only [hcount, hroot, if_true, if_false, rowLen_removeRows]
  · simp only [hcount, if_false]

/-- The length of rows does not change. -/
@[simp] theorem rowLen_pushBuf (buf : List UInt8) (t : ScreenText) : (t.pushBuf buf).rowLen = t.rowLen := by
  unfold pushBuf
  split
  · rfl
  · rw [rowLen_prune, rowLen_pushRows]

end ScreenText

/-- What was left out before is left out later. -/
theorem rtake_append_rtake {α : Type*} (n : ℕ) (xs ys : List α) :
    (xs.rtake n ++ ys).rtake n = (xs ++ ys).rtake n := by
  simp only [List.rtake_eq_reverse_take_reverse, List.reverse_append, List.reverse_reverse, List.take_append,
    List.take_take, List.length_reverse, Nat.min_eq_left (Nat.sub_le n ys.length)]

namespace Chained

variable {t : ScreenText} {ids : List ℕ} {texts : List (List UInt8)}

theorem length_texts (h : Chained t ids texts) : texts.length = ids.length := by
  rw [← h.texts, List.length_map]

/-- The rows over the limit are taken off. -/
theorem prune (h : Chained t ids texts) (hends : t.ends = ⟨ids.head?, ids.getLast?⟩) :
    Chained t.prune (ids.drop (ids.length - terminalMaxRows)) (texts.rtake terminalMaxRows) ∧
      t.prune.ends = ⟨(ids.drop (ids.length - terminalMaxRows)).head?,
        (ids.drop (ids.length - terminalMaxRows)).getLast?⟩ ∧
      t.prune.freed = (ids.take (ids.length - terminalMaxRows)).reverse ++ t.freed := by
  have hcount : t.getLineCount = ids.length := by
    rw [ScreenText.getLineCount, hends, h.reach_head]
  unfold ScreenText.prune
  dsimp only
  rw [hcount, List.rtake, h.length_texts]
  by_cases hlen : terminalMaxRows < ids.length
  · rw [if_pos hlen]
    obtain ⟨hdrop, hends', hfreed⟩ := h.removeRows (n := ids.length - terminalMaxRows) (by rw [hends])
      (by rw [hends]) (by unfold terminalMaxRows at *; omega)
    have hsome : ¬ (t.removeRows (ids.length - terminalMaxRows)).ends.root = none := by
      rw [hends', List.head?_eq_none_iff]
      exact hdrop.nonempty
    rw [if_neg hsome]
    exact ⟨hdrop, hends', hfreed⟩
  · rw [if_neg hlen, Nat.sub_eq_zero_of_le (by omega), List.drop_zero]
    exact ⟨h, hends, rfl⟩

/-- A text is pushed at the end of the list. -/
theorem pushBuf (h : Chained t ids texts) (hends : t.ends = ⟨ids.head?, ids.getLast?⟩) {buf : List UInt8}
    (hbuf : buf ≠ []) :
    ∃ ids', Chained (t.pushBuf buf) ids' ((texts ++ rowsOf t.rowLen buf).rtake terminalMaxRows) ∧
      (t.pushBuf buf).ends = ⟨ids'.head?, ids'.getLast?⟩ ∧
      (ids.length + (rowsOf t.rowLen buf).length ≤ terminalMaxRows →
        ids <+: ids' ∧ ids'.length = ids.length + (rowsOf t.rowLen buf).length) := by
  obtain ⟨new, hnew, hends', -⟩ := h.pushRows (by rw [hends]) (rowsOf t.rowLen buf)
  have hends'' : ((rowsOf t.rowLen buf).foldl ScreenText.pushRow t).ends =
      ⟨(ids ++ new).head?, (ids ++ new).getLast?⟩ := by
    rw [hends', hends, List.head?_append_of_ne_nil _ h.nonempty]
  obtain ⟨hids', hends₃, -⟩ := hnew.prune hends''
  have hlen : (ids ++ new).length = ids.length + (rowsOf t.rowLen buf).length := by
    rw [← hnew.length_texts, List.length_append, h.length_texts]
  have hroot : ¬ (buf = [] ∨ t.ends.root = none) := by
    rw [hends, List.head?_eq_none_iff]
    exact fun hor => hor.elim hbuf h.nonempty
  rw [ScreenText.pushBuf, if_neg hroot]
  refine ⟨_, hids', hends₃, fun hroom => ?_⟩
  rw [Nat.sub_eq_zero_of_le (by omega), List.drop_zero]
  exact ⟨List.prefix_append _ _, hlen⟩

end Chained

/-! ## Rows of a grid -/

/-- A row that is short enough is one row. -/
theorem rowsOf_of_fits {rowLen : ℕ} {row : List UInt8} (hne : row ≠ []) (hlen : row.length < rowLen)
    (hfeed : 10 ∉ row) : rowsOf rowLen row = [row] := by
  obtain ⟨n, hn⟩ : ∃ n, row.length = n + 1 := Nat.exists_eq_succ_of_ne_zero (by simpa using hne)
  have htake : (row.take (rowLen - 1)).takeWhile (· ≠ 10) = row := by
    rw [List.take_of_length_le (by omega), List.takeWhile_eq_self_iff]
    intro ch hch
    simpa using fun heq : ch = 10 => hfeed (heq ▸ hch)
  have hnil : ∀ fuel, splitRows rowLen fuel [] = [] := fun fuel => by cases fuel <;> rfl
  rw [rowsOf, hn, splitRows, if_neg hne]
  simp only [htake, List.drop_length, List.head?_nil, List.tail_nil, hnil, reduceCtorEq, if_false]

/-- The text of a row of a grid has no line feed. -/
theorem feed_notMem_droppedRow (c : Console) : 10 ∉ droppedRow c := by
  have hchar : ∀ ch : UInt8, 10 ∉ rowChar ch := by
    intro ch hmem
    unfold rowChar at hmem
    split_ifs at hmem with hprint htab
    · rw [← List.mem_singleton.mp hmem] at hprint
      exact absurd hprint (by decide)
    · exact absurd (List.mem_singleton.mp hmem) (by decide)
    · exact absurd hmem List.not_mem_nil
  have hrow : ∀ (cells : ℕ → Cell) n x (row : List UInt8), 10 ∉ row → 10 ∉ (topRow cells n x row).1 := by
    intro cells n
    induction n with
    | zero => exact fun _ _ h => h
    | succ n ih =>
      intro x row h
      unfold topRow
      split
      · exact ih _ _ fun hmem => (List.mem_append.mp hmem).elim h (hchar _)
      · exact h
  exact hrow _ _ _ _ List.not_mem_nil

/-- A scroll finds the guard as the byte does. -/
theorem guard_of_scrollAt {ch : UInt8} {c d : Console} (hd : scrollAt ch c = some d) :
    d.cellbufLineActive = c.cellbufLineActive := by
  have hnewline : ∀ {e}, newlineAt ch c = some e → e.cellbufLineActive = c.cellbufLineActive := by
    intro e he
    unfold newlineAt at he
    dsimp only at he
    split_ifs at he
    · rw [← Option.some.inj he]
    · rw [← Option.some.inj he]
      rfl
  unfold scrollAt at hd
  split at hd
  · split at hd
    · rename_i e he
      dsimp only at hd
      have hguard := hnewline he
      split at hd
      · rw [← Option.some.inj hd]
        exact hguard
      · exact absurd hd (nomatch ·)
    · exact absurd hd (nomatch ·)
  · exact absurd hd (nomatch ·)

/-- Under the guard of `screen_push_line`, bytes scroll under the guard. -/
theorem guarded_of_mem_scrollsOf {bytes : List UInt8} {c d : Console} (hc : c.cellbufLineActive = true)
    (hd : d ∈ scrollsOf bytes c) : d.cellbufLineActive = true := by
  induction bytes generalizing c with
  | nil => exact absurd hd List.not_mem_nil
  | cons ch bytes ih =>
    rcases List.mem_append.mp hd with hd | hd
    · exact (guard_of_scrollAt (Option.mem_toList.mp hd)).trans hc
    · exact ih ((onward_ansiPutc (onward_pushLineAt 2) ch c).cellbufLineActive.trans hc) hd

/-! ## The invariant -/

/-- The ends of a list of rows, the tail possibly one that is no longer the last -/
structure TextList.Into (l : TextList) (ids : List ℕ) : Prop where
  root : l.root = ids.head?
  tail : ∃ r ∈ ids, l.tail = some r

theorem TextList.Into.mono {l : TextList} {ids ids' : List ℕ} (h : l.Into ids) (hne : ids ≠ [])
    (hpre : ids <+: ids') : l.Into ids' := by
  obtain ⟨new, rfl⟩ := hpre
  obtain ⟨r, hr, htail⟩ := h.tail
  exact ⟨by rw [h.root, List.head?_append_of_ne_nil _ hne], r, List.mem_append_left _ hr, htail⟩

/-- Both ends of a list of rows -/
theorem TextList.into_ends {ids : List ℕ} (hne : ids ≠ []) :
    TextList.Into ⟨ids.head?, ids.getLast?⟩ ids :=
  ⟨rfl, ids.getLast hne, List.getLast_mem hne, List.getLast?_eq_some_getLast hne⟩

namespace TextSessions

/-- Session 0 has the only list, the saved ends of which point into it, and the globals while it is active. -/
structure Linked (s : TextSessions) (ids : List ℕ) : Prop where
  chained : Chained s.text ids ((s.expected 0).rtake terminalMaxRows)
  saved : (s.ends 0).Into ids
  globals : s.active = 0 → s.text.ends.Into ids
  away : s.active ≠ 0 → s.text.ends = ⟨none, none⟩
  others : ∀ i, i ≠ 0 → s.ends i = ⟨none, none⟩ ∧ s.expected i = []

theorem expected_expect_self (s : TextSessions) (i : ℕ) (rows : List (List UInt8)) :
    (s.expect i rows).expected i = s.expected i ++ rows := Function.update_self _ _ _

theorem expected_expect_of_ne (s : TextSessions) {i j : ℕ} (h : j ≠ i) (rows : List (List UInt8)) :
    (s.expect i rows).expected j = s.expected j := Function.update_of_ne h _ _

/-- A text is pushed with the saved ends of a session in the globals. -/
theorem withEnds_pushBuf (s : TextSessions) (i : ℕ) (buf : List UInt8) :
    s.withEnds i (TextSessions.pushBuf buf) =
      { s with
        ends := Function.update s.ends i ({ s.text with ends := s.ends i }.pushBuf buf).ends
        text := { { s.text with ends := s.ends i }.pushBuf buf with ends := s.text.ends } } := rfl

namespace Linked

variable {s : TextSessions} {ids : List ℕ}

theorem start (rowLen : ℕ) (grids : ℕ → Grid) : (TextSessions.start rowLen grids).Linked [0] where
  chained := ⟨⟨rfl, rfl⟩, by simp, by simp, by simp [TextSessions.start], by simp [TextSessions.start],
    by simp [TextSessions.start], by simp [TextSessions.start, List.rtake, terminalMaxRows]⟩
  saved := ⟨rfl, 0, by simp, rfl⟩
  globals _ := ⟨rfl, 0, by simp, rfl⟩
  away h := absurd rfl h
  others i hi := by simp [TextSessions.start, hi]

/-- The root of the list of session 0 -/
theorem root_zero (h : s.Linked ids) : (s.endsOf 0).root = ids.head? := by
  unfold endsOf
  split
  · exact (h.globals (by assumption)).root
  · exact h.saved.root

/-- The other sessions have no list. -/
theorem endsOf_other (h : s.Linked ids) {i : ℕ} (hi : i ≠ 0) : s.endsOf i = ⟨none, none⟩ := by
  unfold endsOf
  split
  · exact h.away (by omega)
  · exact (h.others i hi).1

theorem live_into (h : s.Linked ids) {l : TextList} (hl : l.Into ids) : s.text.Live l := by
  intro r hr
  obtain ⟨t, ht, htail⟩ := hl.tail
  rw [hl.root, htail, h.chained.reach_head] at hr
  exact h.chained.live r ((List.mem_append.mp hr).elim id fun hr => h.chained.reach_mem ht hr)

theorem live_none (t : ScreenText) : t.Live ⟨none, none⟩ := by
  intro r hr
  simp [ScreenText.reach] at hr

/-- The rows are kept. -/
theorem rowsKept (h : s.Linked ids) : s.RowsKept where
  texts i := by
    by_cases hi : i = 0
    · rw [hi, ScreenText.textsFrom, h.root_zero, h.chained.reach_head, h.chained.texts]
    · rw [h.endsOf_other hi, (h.others i hi).2, ScreenText.textsFrom, ScreenText.reach,
        LinkedList.follow_none]
      rfl
  globals := by
    by_cases h0 : s.active = 0
    · exact h.live_into (h.globals h0)
    · rw [h.away h0]
      exact live_none s.text
  saved i := by
    by_cases hi : i = 0
    · exact hi ▸ h.live_into h.saved
    · rw [(h.others i hi).1]
      exact live_none s.text

/-- Where rows can be taken at the saved ends of a session, it is session 0, and its saved tail is the last
row. -/
theorem canTake_saved (h : s.Linked ids) {i n : ℕ} (hcan : s.CanTake (s.ends i) i n) :
    i = 0 ∧ s.ends 0 = ⟨ids.head?, ids.getLast?⟩ ∧ (s.active = 0 → ids.length + n ≤ terminalMaxRows) := by
  obtain ⟨hroot, htail, hroom⟩ := hcan
  have hi : i = 0 := by_contra fun hi => hroot (by rw [(h.others i hi).1])
  subst hi
  rw [h.root_zero, h.chained.reach_head] at htail hroom
  refine ⟨rfl, ?_, hroom⟩
  calc s.ends 0 = ⟨(s.ends 0).root, (s.ends 0).tail⟩ := rfl
    _ = ⟨ids.head?, ids.getLast?⟩ := by rw [h.saved.root, htail]

/-- A grid and the parser do not matter. -/
theorem setConsole (h : s.Linked ids) (i : ℕ) (c : Console) : (s.setConsole i c).Linked ids :=
  ⟨h.chained, h.saved, h.globals, h.away, h.others⟩

/-- A text is pushed at the saved ends of session 0. -/
theorem pushSaved (h : s.Linked ids) (hends : s.ends 0 = ⟨ids.head?, ids.getLast?⟩) {buf : List UInt8}
    (hbuf : buf ≠ [])
    (hroom : s.active = 0 → ids.length + (rowsOf s.text.rowLen buf).length ≤ terminalMaxRows) :
    ∃ ids', ((s.expect 0 (rowsOf s.text.rowLen buf)).withEnds 0 (TextSessions.pushBuf buf)).Linked ids' ∧
      ((s.expect 0 (rowsOf s.text.rowLen buf)).withEnds 0 (TextSessions.pushBuf buf)).ends 0 =
        ⟨ids'.head?, ids'.getLast?⟩ ∧
      (s.active = 0 → ids'.length = ids.length + (rowsOf s.text.rowLen buf).length) := by
  obtain ⟨ids', hids', hends', hkeep⟩ := (h.chained.setEnds (s.ends 0)).pushBuf hends hbuf
  have hsaved : ((s.expect 0 (rowsOf s.text.rowLen buf)).withEnds 0 (TextSessions.pushBuf buf)).ends 0 =
      ⟨ids'.head?, ids'.getLast?⟩ := by
    rw [withEnds_pushBuf]
    dsimp only
    rw [Function.update_self]
    exact hends'
  refine ⟨ids', ⟨?_, ?_, ?_, h.away, ?_⟩, hsaved, fun h0 => (hkeep (hroom h0)).2⟩
  · have hexpected : ((s.expect 0 (rowsOf s.text.rowLen buf)).withEnds 0 (TextSessions.pushBuf buf)).expected 0 =
        s.expected 0 ++ rowsOf s.text.rowLen buf := expected_expect_self s 0 _
    rw [hexpected, ← rtake_append_rtake]
    exact hids'.setEnds s.text.ends
  · rw [hsaved]
    exact TextList.into_ends hids'.nonempty
  · exact fun h0 => (h.globals h0).mono h.chained.nonempty (hkeep (hroom h0)).1
  · intro i hi
    exact ⟨(Function.update_of_ne hi _ _).trans (h.others i hi).1,
      (expected_expect_of_ne s hi _).trans (h.others i hi).2⟩

/-- A text is pushed at the globals while session 0 is active. -/
theorem pushGlobals (h : s.Linked ids) (h0 : s.active = 0) {buf : List UInt8} (hbuf : buf ≠ [])
    (hends : s.text.ends = ⟨ids.head?, ids.getLast?⟩)
    (hroom : ids.length + (rowsOf s.text.rowLen buf).length ≤ terminalMaxRows) :
    ∃ ids', ((s.expect 0 (rowsOf s.text.rowLen buf)).pushBuf buf).Linked ids' := by
  obtain ⟨ids', hids', hends', hkeep⟩ := h.chained.pushBuf hends hbuf
  refine ⟨ids', ⟨?_, ?_, ?_, ?_, ?_⟩⟩
  · have hexpected : ((s.expect 0 (rowsOf s.text.rowLen buf)).pushBuf buf).expected 0 =
        s.expected 0 ++ rowsOf s.text.rowLen buf := expected_expect_self s 0 _
    rw [hexpected, ← rtake_append_rtake]
    exact hids'
  · exact h.saved.mono h.chained.nonempty (hkeep hroom).1
  · intro _
    have hglobals : ((s.expect 0 (rowsOf s.text.rowLen buf)).pushBuf buf).text.ends =
        ⟨ids'.head?, ids'.getLast?⟩ := hends'
    rw [hglobals]
    exact TextList.into_ends hids'.nonempty
  · exact fun hne => absurd h0 hne
  · intro i hi
    exact ⟨(h.others i hi).1, (expected_expect_of_ne s hi _).trans (h.others i hi).2⟩

/-- The rows that are scrolled off under the guard are pushed one after the other. -/
theorem scrolls (h : s.Linked ids) (hends : s.ends 0 = ⟨ids.head?, ids.getLast?⟩) {cs : List Console}
    (hguard : ∀ c ∈ cs, c.cellbufLineActive = true)
    (hfits : ∀ c ∈ cs, droppedRow c ≠ [] ∧ (droppedRow c).length < s.text.rowLen)
    (hroom : s.active = 0 → ids.length + cs.length ≤ terminalMaxRows) :
    ∃ ids', (cs.foldl (scrollText (pushLineText 0 1) 0) s).Linked ids' := by
  induction cs generalizing s ids with
  | nil => exact ⟨ids, h⟩
  | cons c cs ih =>
    obtain ⟨hne, hlen⟩ := hfits c List.mem_cons_self
    have hrow := rowsOf_of_fits hne hlen (feed_notMem_droppedRow c)
    have hstep : scrollText (pushLineText 0 1) 0 s c =
        (s.expect 0 (rowsOf s.text.rowLen (droppedRow c))).withEnds 0 (TextSessions.pushBuf (droppedRow c)) := by
      have hpush : pushLineText 0 1 (droppedRow c) c = TextSessions.pushBuf (droppedRow c) := by
        funext s
        rw [pushLineText, if_pos (hguard c List.mem_cons_self)]
      rw [scrollText, hpush, hrow]
    have hone : s.active = 0 → ids.length + (rowsOf s.text.rowLen (droppedRow c)).length ≤ terminalMaxRows := by
      intro h0
      have hle := hroom h0
      rw [hrow]
      simp only [List.length_cons, List.length_nil] at hle ⊢
      omega
    obtain ⟨ids', hids', hends', hlen'⟩ := h.pushSaved hends hne hone
    rw [← hstep] at hids' hends'
    refine ih hids' hends' (fun d hd => hguard d (List.mem_cons_of_mem c hd)) (fun d hd => ?_) ?_
    · have hrowLen : (scrollText (pushLineText 0 1) 0 s c).text.rowLen = s.text.rowLen := by
        rw [hstep]
        exact ScreenText.rowLen_pushBuf _ _
      rw [hrowLen]
      exact hfits d (List.mem_cons_of_mem c hd)
    · intro h0
      have hactive : s.active = 0 := by rw [hstep] at h0; exact h0
      have hle := hroom hactive
      rw [hlen' hactive, hrow]
      simp only [List.length_cons, List.length_nil] at hle ⊢
      omega

end Linked

end TextSessions

/-! ## Steps and runs -/

namespace TextSessions

namespace Linked

variable {s : TextSessions} {ids : List ℕ}

/-- A line that goes to the rows or to the grid -/
theorem line (h : s.Linked ids) {i : ℕ} {str : List UInt8} (hc : s.Careful (.line i str)) :
    ∃ ids', (s.step (.line i str)).Linked ids' := by
  by_cases howns : (s.sessions i).ownsFramebuffer = true
  · rw [Careful, if_pos howns] at hc
    obtain ⟨hne, hcan⟩ := hc
    obtain ⟨rfl, hends, hroom⟩ := h.canTake_saved hcan
    obtain ⟨ids', hids', -⟩ := h.pushSaved hends hne hroom
    have hstep : s.step (.line 0 str) =
        ((s.expect 0 (rowsOf s.text.rowLen str)).withEnds 0 (TextSessions.pushBuf str)).setConsole 0
          (screenPushLine str (s.console 0)) := by
      simp only [step, pushLineText, console, howns, linesOf, hne, if_true, if_false, Bool.false_eq_true]
    rw [hstep]
    exact ⟨ids', hids'.setConsole 0 _⟩
  · rw [Careful, if_neg howns] at hc
    have hstep : s.step (.line i str) =
        ((scrollsOf (str ++ [10]) { s.console i with cellbufLineActive := true }).foldl
          (scrollText (pushLineText i 1) i) s).setConsole i (screenPushLine str (s.console i)) := by
      simp only [step, pushLineText, console, howns, if_false, Bool.false_eq_true]
    rw [hstep]
    rcases hc with hnone | ⟨hcan, hfits⟩
    · rw [lineDrops, droppedRows, List.map_eq_nil_iff] at hnone
      rw [hnone]
      exact ⟨ids, h.setConsole i _⟩
    · obtain ⟨rfl, hends, hroom⟩ := h.canTake_saved hcan
      rw [lineDrops, droppedRows, List.length_map] at hroom
      obtain ⟨ids', hids'⟩ := h.scrolls hends (fun c hmem => guarded_of_mem_scrollsOf rfl hmem)
        (fun c hmem => hfits _ (List.mem_map_of_mem hmem)) hroom
      exact ⟨ids', hids'.setConsole 0 _⟩

/-- A key that is echoed -/
theorem echo (h : s.Linked ids) {i : ℕ} {key : UInt8} (hc : s.Careful (.echo i key)) :
    ∃ ids', (s.step (.echo i key)).Linked ids' := by
  obtain ⟨hactive, hroot, htail, hroom⟩ := hc
  have h0 : s.active = 0 := by_contra fun hne => hroot (by rw [h.away hne])
  obtain rfl : i = 0 := hactive.symm.trans h0
  rw [h.root_zero, h.chained.reach_head] at htail hroom
  have hone : (rowsOf s.text.rowLen [key]).length = 1 := by simp [rowsOf, splitRows]
  have hends : s.text.ends = ⟨ids.head?, ids.getLast?⟩ :=
    calc s.text.ends = ⟨s.text.ends.root, s.text.ends.tail⟩ := rfl
      _ = ⟨ids.head?, ids.getLast?⟩ := by rw [(h.globals h0).root, htail]
  exact h.pushGlobals h0 (by simp) hends (by rw [hone]; exact hroom h0)

/-- `session_switch` carries the ends of the list along. -/
theorem switch (h : s.Linked ids) (id : ℕ) : (s.sessionSwitch id).Linked ids := by
  unfold sessionSwitch
  split
  · exact h
  rename_i hid
  have hne : id ≠ s.active := fun heq => hid (.inr heq)
  by_cases h0 : s.active = 0
  · have hid0 : id ≠ 0 := fun heq => hne (heq.trans h0.symm)
    refine ⟨h.chained.setEnds _, ?_, fun heq => absurd heq hid0, fun _ => (h.others id hid0).1, ?_⟩
    · dsimp only
      rw [h0, Function.update_self]
      exact h.globals h0
    · intro i hi
      dsimp only
      rw [h0, Function.update_of_ne hi]
      exact h.others i hi
  · refine ⟨h.chained.setEnds _, ?_, ?_, fun hid0 => (h.others id hid0).1, ?_⟩
    · dsimp only
      rw [Function.update_of_ne (Ne.symm h0)]
      exact h.saved
    · intro hid0
      dsimp only at hid0 ⊢
      rw [hid0]
      exact h.saved
    · intro i hi
      refine ⟨?_, (h.others i hi).2⟩
      by_cases hia : i = s.active
      · dsimp only
        rw [hia, Function.update_self]
        exact h.away h0
      · exact (Function.update_of_ne hia _ _).trans (h.others i hi).1

/-- A careful call keeps the list of session 0 linked. -/
theorem step (h : s.Linked ids) {e : OutputCall} (hc : s.Careful e) : ∃ ids', (s.step e).Linked ids' := by
  cases e with
  | write i bytes =>
    have hnone : scrollsOf bytes (s.console i) = [] := List.map_eq_nil_iff.mp hc
    have hstep : s.step (.write i bytes) = s.setConsole i (termWrite bytes (s.console i)) := by
      rw [TextSessions.step, hnone]
      rfl
    rw [hstep]
    exact ⟨ids, h.setConsole i _⟩
  | line i str => exact h.line hc
  | echo i key => exact h.echo hc
  | switch id => exact ⟨ids, h.switch id⟩
  | owns i b => exact ⟨ids, ⟨h.chained, h.saved, h.globals, h.away, h.others⟩⟩

end Linked

/-- In every run of careful calls, the list of every session holds the last 1000 rows that were pushed to it or
scrolled off its grid, and nothing that was freed is reached. -/
theorem rows_kept (rowLen : ℕ) (grids : ℕ → Grid) {es : List OutputCall}
    (h : Runs.Along step Careful (start rowLen grids) es) :
    Runs.Always step RowsKept (start rowLen grids) es :=
  (Runs.always_of_along (P := fun s : TextSessions => ∃ ids, s.Linked ids) (fun _ _ ⟨_, hs⟩ hc => hs.step hc)
    ⟨[0], Linked.start rowLen grids⟩ h).mono fun _ ⟨_, hs⟩ => hs.rowsKept

/-- A key is echoed for session 0, and then its program prints in the background. -/
theorem rows_kept_background :
    Runs.Always step RowsKept (start 16 fun _ => smallGrid)
      [.echo 0 104, .switch 1, .line 0 [97], .line 0 [98], .line 1 [99], .line 0 [100], .switch 0] :=
  rows_kept 16 (fun _ => smallGrid) (by decide +kernel)

/-- A screen of 1024 by 768 pixels -/
def screenGrid : Grid := ⟨128, 46, by decide, by decide, by decide, by decide, by decide⟩

/-- A line of the active session moves the saved tail and not the one in the globals, which the switch saves: the
next line is linked in the place of the first. -/
theorem scrollback_lost :
    ¬ Runs.Always step RowsKept (start 128 fun _ => screenGrid)
      [.owns 0 true, .line 0 [97], .switch 1, .line 0 [98]] := by
  intro h
  have htexts := h.last.texts 0
  exact absurd htexts (by decide +kernel)

end TextSessions

end Sandflea
