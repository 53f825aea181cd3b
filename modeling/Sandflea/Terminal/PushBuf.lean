import Sandflea.Terminal.RowsKept

/-!
# Pushing text to the scrollback

`screen_push_buf` with all outcomes of its calls of `kmalloc`. A row takes two blocks, one for the row and one
for its text; the first that is not given ends the loop.

`screen_push_buf_iff` says that the list of rows is in order afterwards, with the lines of the text behind the
old rows and without the oldest over the limit, exactly if the list was not empty: on an empty list
`screen_push_buf` does nothing.
-/

namespace Sandflea

namespace ScreenText

/-- The loop of `screen_push_buf`; `memory i` says whether the `i`th call of `kmalloc` from here on gives
memory. -/
def pushRowsWith (memory : ℕ → Bool) : ℕ → List UInt8 → ScreenText → ScreenText
  | 0, _, t => t
  | fuel + 1, buf, t =>
    if buf = [] then t
    else if memory 0 = false then t
    else if memory 1 = false then
      -- the row is freed again
      { t with nextRow := t.nextRow + 1, freed := t.nextRow :: t.freed }
    else
      let row := (buf.take (t.rowLen - 1)).takeWhile (· ≠ 10)
      let rest := buf.drop row.length
      pushRowsWith (fun i => memory (i + 2)) fuel (if rest.head? = some 10 then rest.tail else rest)
        (t.pushRow row)

/-- `screen_push_buf`. The heap has no room for as many rows as an `i32` counts. -/
def screenPushBuf (memory : ℕ → Bool) (buf : List UInt8) (t : ScreenText) : ScreenText :=
  if buf = [] ∨ t.ends.root = none then t else (pushRowsWith memory buf.length buf t).prune

end ScreenText

/-! ## Lines -/

/-- The lines of a text, each ended by a line feed or by the end of the text -/
def textLines (buf : List UInt8) : List (List UInt8) :=
  if (buf.splitOn 10).getLast? = some [] then (buf.splitOn 10).dropLast else buf.splitOn 10

/-- The pieces of a line, of `n` bytes each but the last; an empty line is one piece. -/
def linePieces (n : ℕ) (line : List UInt8) : List (List UInt8) :=
  (List.range (max 1 ((line.length + n - 1) / n))).map fun i => (line.drop (i * n)).take n

/-- A text in rows of at most `rowLen - 1` bytes -/
def textRows (rowLen : ℕ) (buf : List UInt8) : List (List UInt8) :=
  (textLines buf).flatMap (linePieces (rowLen - 1))

theorem textLines_nil : textLines [] = [] := by decide

/-- The first line ends with the text or at a line feed. -/
theorem textLines_append {line tail : List UInt8} (hline : 10 ∉ line)
    (htail : tail = [] ∧ line ≠ [] ∨ tail.head? = some 10) :
    textLines (line ++ tail) = line :: textLines tail.tail := by
  rcases htail with ⟨rfl, hne⟩ | hfeed
  · rw [List.append_nil, textLines, List.splitOn_eq_singleton hline, if_neg (by simpa using hne)]
    rfl
  · obtain ⟨u, rfl⟩ : ∃ u, tail = 10 :: u := List.head?_eq_some_iff.mp hfeed
    have hsplit : (line ++ 10 :: u).splitOn 10 = line :: u.splitOn 10 := by
      rw [List.splitOn_append_cons_self, List.splitOn_eq_singleton hline]
      rfl
    obtain ⟨s, segs, hsegs⟩ := List.exists_cons_of_ne_nil (List.splitOn_ne_nil (10 : UInt8) u)
    have hlast : (line :: u.splitOn 10).getLast? = (u.splitOn 10).getLast? := by
      rw [hsegs, List.getLast?_cons_cons]
    have hdrop : (line :: u.splitOn 10).dropLast = line :: (u.splitOn 10).dropLast := by
      rw [hsegs, List.dropLast_cons_cons]
    rw [textLines, textLines, hsplit, hlast, hdrop, List.tail_cons]
    split <;> rfl

theorem linePieces_of_le {n : ℕ} {line : List UInt8} (hn : 0 < n) (hle : line.length ≤ n) :
    linePieces n line = [line] := by
  have hcount : max 1 ((line.length + n - 1) / n) = 1 := by
    have hlt : (line.length + n - 1) / n < 2 := (Nat.div_lt_iff_lt_mul hn).mpr (by omega)
    omega
  rw [linePieces, hcount]
  simp [List.take_of_length_le hle]

theorem linePieces_of_lt {n : ℕ} {line : List UInt8} (hn : 0 < n) (hlt : n < line.length) :
    linePieces n line = line.take n :: linePieces n (line.drop n) := by
  have hsplit : (line.length + n - 1) / n = (line.length - n + n - 1) / n + 1 := by
    rw [← Nat.add_div_right _ hn]
    congr 1
    omega
  have hpos : 1 ≤ (line.length - n + n - 1) / n := (Nat.one_le_div_iff hn).mpr (by omega)
  have hcount : max 1 ((line.length + n - 1) / n) = max 1 (((line.drop n).length + n - 1) / n) + 1 := by
    rw [List.length_drop]
    omega
  rw [linePieces, hcount, List.range_succ_eq_map, List.map_cons, List.map_map, Nat.zero_mul, List.drop_zero]
  congr 1
  refine List.map_congr_left fun i _ => ?_
  rw [Function.comp_apply, List.drop_drop, Nat.succ_mul, Nat.add_comm]

theorem textRows_append {rowLen : ℕ} {line tail : List UInt8} (hline : 10 ∉ line)
    (htail : tail = [] ∧ line ≠ [] ∨ tail.head? = some 10) :
    textRows rowLen (line ++ tail) = linePieces (rowLen - 1) line ++ textRows rowLen tail.tail := by
  rw [textRows, textLines_append hline htail, List.flatMap_cons]
  rfl

/-- The loop makes a row of a line, or of as much of it as fits into a row. -/
theorem splitRows_eq {rowLen fuel : ℕ} {buf : List UInt8} (hrow : 2 ≤ rowLen) (hfuel : buf.length ≤ fuel) :
    splitRows rowLen fuel buf = textRows rowLen buf := by
  induction fuel generalizing buf with
  | zero =>
    obtain rfl := List.length_eq_zero_iff.mp (Nat.le_zero.mp hfuel)
    rfl
  | succ fuel ih =>
    rw [splitRows]
    by_cases hbuf : buf = []
    · rw [if_pos hbuf, hbuf]
      rfl
    rw [if_neg hbuf]
    -- the first line, and the text from its line feed on
    obtain ⟨line, tail, hsplit, hline, htail⟩ : ∃ line tail, buf = line ++ tail ∧ 10 ∉ line ∧
        (tail = [] ∨ tail.head? = some 10) := by
      refine ⟨buf.takeWhile (· ≠ 10), buf.dropWhile (· ≠ 10), List.takeWhile_append_dropWhile.symm,
        fun hmem => by simpa using List.mem_takeWhile_imp hmem, ?_⟩
      have hhead := List.head?_dropWhile_not (fun b : UInt8 => decide (b ≠ 10)) buf
      cases hdrop : buf.dropWhile (· ≠ 10) with
      | nil => exact .inl rfl
      | cons b u =>
        rw [hdrop] at hhead
        exact .inr (by simpa using hhead)
    subst hsplit
    have hends : tail = [] ∧ line ≠ [] ∨ tail.head? = some 10 :=
      htail.imp_left fun hnil => ⟨hnil, fun hline => hbuf (by rw [hline, hnil]; rfl)⟩
    have hfree : ∀ b ∈ line, decide (b ≠ (10 : UInt8)) = true := fun b hb =>
      decide_eq_true fun heq => hline (heq ▸ hb)
    rw [List.length_append] at hfuel
    rw [textRows_append hline hends]
    rcases Nat.lt_or_ge (rowLen - 1) line.length with hlong | hfits
    · have hrow' : ((line ++ tail).take (rowLen - 1)).takeWhile (· ≠ 10) = line.take (rowLen - 1) := by
        rw [List.take_append_of_le_length hlong.le, List.takeWhile_eq_self_iff]
        exact fun b hb => hfree b (List.mem_of_mem_take hb)
      have hlen : (line.take (rowLen - 1)).length = rowLen - 1 := List.length_take_of_le hlong.le
      have hdrop : (line ++ tail).drop (rowLen - 1) = line.drop (rowLen - 1) ++ tail :=
        List.drop_append_of_le_length hlong.le
      obtain ⟨b, u, hu⟩ := List.exists_cons_of_length_pos
        (show 0 < (line.drop (rowLen - 1)).length by rw [List.length_drop]; omega)
      have hline' : 10 ∉ line.drop (rowLen - 1) := fun hmem => hline (List.mem_of_mem_drop hmem)
      have hhead : ¬(line.drop (rowLen - 1) ++ tail).head? = some 10 := by
        rw [hu, List.cons_append, List.head?_cons, Option.some.injEq]
        exact fun heq => hline' (by rw [hu, heq]; exact List.mem_cons_self)
      dsimp only
      rw [hrow', hlen, hdrop, if_neg hhead, ih (by rw [List.length_append, List.length_drop]; omega),
        textRows_append hline' (htail.imp_left fun hnil => ⟨hnil, by rw [hu]; exact List.cons_ne_nil _ _⟩),
        linePieces_of_lt (by omega) hlong]
      rfl
    · have hrow' : ((line ++ tail).take (rowLen - 1)).takeWhile (· ≠ 10) = line := by
        rw [List.take_append, List.take_of_length_le hfits, List.takeWhile_append_of_pos hfree]
        rcases htail with rfl | hfeed
        · simp
        · obtain ⟨u, rfl⟩ := List.head?_eq_some_iff.mp hfeed
          cases rowLen - 1 - line.length with
          | zero => simp
          | succ n => simp
      have hnext : (if tail.head? = some 10 then tail.tail else tail) = tail.tail := by
        rcases htail with rfl | hfeed
        · rfl
        · rw [if_pos hfeed]
      have hshorter : tail.tail.length ≤ fuel := by
        rw [List.length_tail]
        rcases hends with ⟨rfl, -⟩ | hfeed
        · simp
        · omega
      dsimp only
      rw [hrow', List.drop_left, hnext, ih hshorter, linePieces_of_le (by omega) hfits]
      rfl

theorem textRows_eq_nil {rowLen : ℕ} {buf : List UInt8} (hrow : 2 ≤ rowLen) :
    textRows rowLen buf = [] ↔ buf = [] := by
  rw [← splitRows_eq hrow le_rfl]
  cases buf with
  | nil => exact ⟨fun _ => rfl, fun _ => rfl⟩
  | cons b bs =>
    rw [List.length_cons, splitRows, if_neg (List.cons_ne_nil b bs)]
    exact ⟨fun h => absurd h (List.cons_ne_nil _ _), fun h => absurd h (List.cons_ne_nil _ _)⟩

/-! ## Lists of rows -/

/-- The scrollback is the list of some rows with given texts: it ends with a null pointer, the tail points to
its last row, and none of its rows is freed. -/
structure RowList (t : ScreenText) (ids : List ℕ) (texts : List (List UInt8)) : Prop where
  chain : LinkedList.IsChain t.next t.ends.root ids
  tail : t.ends.tail = ids.getLast?
  nodup : ids.Nodup
  lt : ∀ r ∈ ids, r < t.nextRow
  live : ∀ r ∈ ids, r ∉ t.freed
  freed_lt : ∀ r ∈ t.freed, r < t.nextRow
  texts : ids.map (fun r => (t.rows r).str) = texts

/-- A list of rows is in order after a text was pushed: what was added are the rows of the text, or those for
which there was memory; the oldest rows over the limit are gone, and they and no others were freed, once. -/
structure Pushed (memory : ℕ → Bool) (t : ScreenText) (ids : List ℕ) (texts : List (List UInt8))
    (buf : List UInt8) (t' : ScreenText) (new : List ℕ) (added : List (List UInt8)) : Prop where
  begins : added <+: textRows t.rowLen buf
  starved : added ≠ textRows t.rowLen buf →
    memory (2 * added.length) = false ∨ memory (2 * added.length + 1) = false
  length_new : new.length = added.length
  list : RowList t' ((ids ++ new).drop ((ids ++ new).length - terminalMaxRows))
    ((texts ++ added).drop ((ids ++ new).length - terminalMaxRows))
  freed : ∀ r ∈ ids ++ new, t'.freed.count r =
    if r ∈ (ids ++ new).take ((ids ++ new).length - terminalMaxRows) then 1 else 0

theorem RowList.chained {t : ScreenText} {ids : List ℕ} {texts : List (List UInt8)} (h : RowList t ids texts)
    (hne : ids ≠ []) : Chained t ids texts ∧ t.ends = ⟨ids.head?, ids.getLast?⟩ := by
  have hroot := h.chain.head?
  refine ⟨⟨by rw [hroot]; exact h.chain, hne, h.nodup, h.lt, h.live, h.freed_lt, h.texts⟩, ?_⟩
  rw [hroot, ← h.tail]

theorem Chained.rowList {t : ScreenText} {ids : List ℕ} {texts : List (List UInt8)} (h : Chained t ids texts)
    (hends : t.ends = ⟨ids.head?, ids.getLast?⟩) : RowList t ids texts :=
  ⟨by rw [hends]; exact h.chain, by rw [hends], h.nodup, h.lt, h.live, h.freed_lt, h.texts⟩

/-- What the loop leaves, with the rows that it made -/
structure Looped (memory : ℕ → Bool) (rows : List (List UInt8)) (t : ScreenText) (ids : List ℕ)
    (texts : List (List UInt8)) (t' : ScreenText) (new : List ℕ) (added : List (List UInt8)) : Prop where
  chained : Chained t' (ids ++ new) (texts ++ added)
  ends : t'.ends = ⟨t.ends.root, (ids ++ new).getLast?⟩
  begins : added <+: rows
  starved : added ≠ rows → memory (2 * added.length) = false ∨ memory (2 * added.length + 1) = false
  length_new : new.length = added.length

theorem pushRowsWith_spec {fuel : ℕ} {memory : ℕ → Bool} {buf : List UInt8} {t : ScreenText} {ids : List ℕ}
    {texts : List (List UInt8)} (h : Chained t ids texts) (htail : t.ends.tail = ids.getLast?) :
    ∃ new added, Looped memory (splitRows t.rowLen fuel buf) t ids texts
      (ScreenText.pushRowsWith memory fuel buf t) new added := by
  induction fuel generalizing memory buf t ids texts with
  | zero =>
    rw [ScreenText.pushRowsWith.eq_def]
    exact ⟨[], [], by simpa using h, by simp [← htail], List.nil_prefix, fun hne => absurd rfl hne, rfl⟩
  | succ fuel ih =>
    rw [ScreenText.pushRowsWith.eq_def, splitRows]
    dsimp only
    by_cases hbuf : buf = []
    · rw [if_pos hbuf, if_pos hbuf]
      exact ⟨[], [], by simpa using h, by simp [← htail], List.nil_prefix, fun hne => absurd rfl hne, rfl⟩
    rw [if_neg hbuf, if_neg hbuf]
    generalize (buf.take (t.rowLen - 1)).takeWhile (· ≠ 10) = row
    by_cases hfirst : memory 0 = false
    · rw [if_pos hfirst]
      exact ⟨[], [], by simpa using h, by simp [← htail], List.nil_prefix, fun _ => .inl hfirst, rfl⟩
    rw [if_neg hfirst]
    by_cases hsecond : memory 1 = false
    · rw [if_pos hsecond]
      refine ⟨[], [], ?_, by simp [← htail], List.nil_prefix, fun _ => .inr hsecond, rfl⟩
      rw [List.append_nil, List.append_nil]
      refine ⟨h.chain, h.nonempty, h.nodup, fun r hr => Nat.lt_succ_of_lt (h.lt r hr), ?_, ?_, h.texts⟩
      · intro r hr hmem
        rcases List.mem_cons.mp hmem with rfl | hmem
        · exact (h.lt _ hr).false
        · exact h.live r hr hmem
      · intro r hr
        rcases List.mem_cons.mp hr with rfl | hr
        · exact Nat.lt_succ_self _
        · exact Nat.lt_succ_of_lt (h.freed_lt r hr)
    rw [if_neg hsecond]
    obtain ⟨hpush, hends, -, -, hlen⟩ := h.pushRow htail row
    have htail' : (t.pushRow row).ends.tail = (ids ++ [t.nextRow]).getLast? := by
      rw [hends, List.getLast?_concat]
    generalize (if (buf.drop row.length).head? = some 10 then (buf.drop row.length).tail
      else buf.drop row.length) = rest
    obtain ⟨new, added, hnew⟩ := @ih (fun i => memory (i + 2)) rest _ _ _ hpush htail'
    rw [hlen] at hnew
    refine ⟨t.nextRow :: new, row :: added, by simpa using hnew.chained, ?_, ?_, ?_, ?_⟩
    · rw [hnew.ends, hends]
      simp
    · exact List.cons_prefix_cons.mpr ⟨rfl, hnew.begins⟩
    · intro hne
      have hcount : 2 * (row :: added).length = 2 * added.length + 2 := by
        rw [List.length_cons]
        omega
      rw [hcount, Nat.add_right_comm]
      exact hnew.starved fun heq => hne (by rw [heq])
    · rw [List.length_cons, List.length_cons, hnew.length_new]

/-- While there is memory, the loop makes all rows. -/
theorem pushRowsWith_of_memory {memory : ℕ → Bool} (hmemory : ∀ i, memory i = true) (fuel : ℕ)
    (buf : List UInt8) (t : ScreenText) :
    ScreenText.pushRowsWith memory fuel buf t = (splitRows t.rowLen fuel buf).foldl ScreenText.pushRow t := by
  induction fuel generalizing memory buf t with
  | zero => rfl
  | succ fuel ih =>
    rw [ScreenText.pushRowsWith.eq_def, splitRows]
    dsimp only
    by_cases hbuf : buf = []
    · rw [if_pos hbuf, if_pos hbuf]
      rfl
    · rw [if_neg hbuf, if_neg hbuf, hmemory, hmemory, if_neg (by decide), if_neg (by decide),
        ih fun i => hmemory (i + 2), ScreenText.rowLen_pushRow]
      rfl

/-- Without failures, this is the push of the scrollback. -/
theorem screenPushBuf_of_memory {memory : ℕ → Bool} (hmemory : ∀ i, memory i = true) (buf : List UInt8)
    (t : ScreenText) : t.screenPushBuf memory buf = t.pushBuf buf := by
  unfold ScreenText.screenPushBuf ScreenText.pushBuf rowsOf
  rw [pushRowsWith_of_memory hmemory]

/-- Behind a list that is not empty, the rows of a text are added. -/
theorem RowList.push {t : ScreenText} {ids : List ℕ} {texts : List (List UInt8)} (h : RowList t ids texts)
    (hlen : ids.length ≤ terminalMaxRows) (hrow : 2 ≤ t.rowLen) {memory : ℕ → Bool} {buf : List UInt8}
    (hpush : buf = [] ∨ ids ≠ []) :
    ∃ new added, Pushed memory t ids texts buf (t.screenPushBuf memory buf) new added := by
  by_cases hbuf : buf = []
  · have hsame : t.screenPushBuf memory buf = t := if_pos (.inl hbuf)
    have hzero : (ids ++ []).length - terminalMaxRows = 0 := by
      rw [List.append_nil, Nat.sub_eq_zero_of_le hlen]
    have hrows : textRows t.rowLen buf = [] := (textRows_eq_nil hrow).mpr hbuf
    refine ⟨[], [], by rw [hrows], fun hne => absurd hrows.symm hne, rfl, ?_, ?_⟩
    · rw [hsame, hzero, List.append_nil, List.append_nil]
      exact h
    · intro r hr
      rw [List.append_nil] at hr
      rw [hsame, hzero, List.take_zero, if_neg List.not_mem_nil]
      exact List.count_eq_zero_of_not_mem (h.live r hr)
  · have hne := hpush.resolve_left hbuf
    obtain ⟨hchained, hends⟩ := h.chained hne
    obtain ⟨new, added, hloop⟩ :=
      @pushRowsWith_spec buf.length memory buf t ids texts hchained h.tail
    rw [splitRows_eq hrow le_rfl] at hloop
    have hroot : ¬(buf = [] ∨ t.ends.root = none) := by
      rw [hends, List.head?_eq_none_iff]
      exact not_or.mpr ⟨hbuf, hne⟩
    have heq : t.screenPushBuf memory buf = (ScreenText.pushRowsWith memory buf.length buf t).prune :=
      if_neg hroot
    have hends' : (ScreenText.pushRowsWith memory buf.length buf t).ends =
        ⟨(ids ++ new).head?, (ids ++ new).getLast?⟩ := by
      rw [hloop.ends, hends, List.head?_append_of_ne_nil _ hne]
    obtain ⟨hpruned, hprunedEnds, hfreed⟩ := hloop.chained.prune hends'
    rw [heq]
    refine ⟨new, added, hloop.begins, hloop.starved, hloop.length_new, ?_, fun r hr => ?_⟩
    · rw [List.rtake, hloop.chained.length_texts] at hpruned
      exact hpruned.rowList hprunedEnds
    · rw [hfreed, List.count_append, List.count_reverse,
        List.count_eq_zero_of_not_mem (hloop.chained.live r hr), Nat.add_zero]
      exact (hloop.chained.nodup.sublist (List.take_sublist _ _)).count

/-- On an empty list nothing is pushed, so that only a text for which there is no memory can be said to be
pushed. -/
theorem RowList.not_push {t : ScreenText} {texts : List (List UInt8)} (h : RowList t [] texts)
    (hrow : 2 ≤ t.rowLen) {memory : ℕ → Bool} {buf : List UInt8} (hbuf : buf ≠ []) {new : List ℕ}
    {added : List (List UInt8)} (hpushed : Pushed memory t [] texts buf (t.screenPushBuf memory buf) new added) :
    memory 0 = false ∨ memory 1 = false := by
  have hroot : t.ends.root = none := LinkedList.isChain_nil.mp h.chain
  have hsame : t.screenPushBuf memory buf = t := if_pos (.inr hroot)
  have hlist := hpushed.list
  generalize hn : ([] ++ new).length - terminalMaxRows = n at hlist
  rw [hsame] at hlist
  have hdrop := hlist.chain.head?
  rw [hroot, List.head?_eq_none_iff, List.drop_eq_nil_iff] at hdrop
  have hadded : added = [] := by
    have hlength := hpushed.length_new
    rw [List.nil_append] at hdrop hn
    unfold terminalMaxRows at hn
    exact List.length_eq_zero_iff.mp (by omega)
  have hstarved := hpushed.starved fun heq => hbuf ((textRows_eq_nil hrow).mp (by rw [← heq, hadded]))
  rw [hadded] at hstarved
  exact hstarved

/-- Where nothing is pushed, the list is as it was. -/
theorem RowList.unpushed {t : ScreenText} {texts : List (List UInt8)} (h : RowList t [] texts)
    {memory : ℕ → Bool} {buf : List UInt8} (hmem : memory 0 = false ∨ memory 1 = false) :
    Pushed memory t [] texts buf (t.screenPushBuf memory buf) [] [] := by
  have hsame : t.screenPushBuf memory buf = t := if_pos (.inr (LinkedList.isChain_nil.mp h.chain))
  refine ⟨List.nil_prefix, fun _ => hmem, rfl, ?_, fun r hr => absurd hr List.not_mem_nil⟩
  rw [hsame, List.append_nil, List.append_nil, List.length_nil, Nat.zero_sub, List.drop_zero, List.drop_zero]
  exact h

/-- For every list of at most 1000 rows, every text and every outcome of `kmalloc`, the list is in order after
`screen_push_buf`, exactly if it was not empty, or there is nothing to push, or no memory for the first row. -/
theorem screen_push_buf_iff {t : ScreenText} {ids : List ℕ} {texts : List (List UInt8)}
    (h : RowList t ids texts) (hlen : ids.length ≤ terminalMaxRows) (hrow : 2 ≤ t.rowLen)
    (memory : ℕ → Bool) (buf : List UInt8) :
    (∃ new added, Pushed memory t ids texts buf (t.screenPushBuf memory buf) new added) ↔
      buf = [] ∨ ids ≠ [] ∨ memory 0 = false ∨ memory 1 = false := by
  constructor
  · rintro ⟨new, added, hpushed⟩
    by_cases hids : ids = []
    · subst hids
      by_cases hbuf : buf = []
      · exact .inl hbuf
      · exact .inr (.inr (h.not_push hrow hbuf hpushed))
    · exact .inr (.inl hids)
  · rintro (hbuf | hids | hmem)
    · exact h.push hlen hrow (.inl hbuf)
    · exact h.push hlen hrow (.inr hids)
    · by_cases hids : ids = []
      · subst hids
        exact ⟨[], [], h.unpushed hmem⟩
      · exact h.push hlen hrow (.inr hids)

/-- The title row, with rows of 4 bytes -/
def titleRow : ScreenText where
  rows _ := ⟨[115, 97, 110], none⟩
  nextRow := 1
  freed := []
  ends := ⟨some 0, some 0⟩
  rowLen := 4

theorem titleRow_rowList : RowList titleRow [0] [[115, 97, 110]] :=
  ⟨⟨rfl, rfl⟩, rfl, List.nodup_singleton 0, by decide, by decide, by decide, rfl⟩

/-- A text of three rows, for the last of which there is no memory -/
theorem screen_push_buf_three : ∃ new added, Pushed (fun i => decide (i < 4)) titleRow [0] [[115, 97, 110]]
    [97, 98, 99, 100, 10, 101] (titleRow.screenPushBuf (fun i => decide (i < 4)) [97, 98, 99, 100, 10, 101])
    new added :=
  (screen_push_buf_iff titleRow_rowList (by decide) (by decide) _ _).mpr (.inr (.inl (List.cons_ne_nil _ _)))

/-- An empty list -/
def noRows : ScreenText := { titleRow with ends := ⟨none, none⟩ }

theorem noRows_rowList : RowList noRows [] [] :=
  ⟨rfl, rfl, List.nodup_nil, fun _ hr => absurd hr List.not_mem_nil, fun _ hr => absurd hr List.not_mem_nil,
    by decide, rfl⟩

/-- What is pushed to an empty list is lost. -/
theorem push_to_empty_lost : ¬∀ (t : ScreenText) (ids : List ℕ) (texts : List (List UInt8)),
    RowList t ids texts → ids.length ≤ terminalMaxRows → 2 ≤ t.rowLen → ∀ (memory : ℕ → Bool) buf,
    ∃ new added, Pushed memory t ids texts buf (t.screenPushBuf memory buf) new added := by
  intro hall
  obtain ⟨new, added, hpushed⟩ := hall noRows [] [] noRows_rowList (by decide) (by decide) (fun _ => true) [97]
  have hmem := noRows_rowList.not_push (by decide) (List.cons_ne_nil _ _) hpushed
  exact absurd hmem (by decide)

end Sandflea
