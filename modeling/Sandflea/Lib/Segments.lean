import Mathlib

/-!
# Texts of segments

A text is cut at a separator into segments (`segments`), and segments are put together with a separator
in front of each (`joined`); on segments that are not empty and do not have the separator in them the two
are inverse to one another.

A list of segments is read as moves on a stack: some are skipped, some remove the segment before them,
and the others are pushed (`push`). A stack of at most `n` places drops what is pushed when it is full
(`pushAtMost`). It ends as the one without a limit does exactly if that one, whenever it is deeper than
`n`, is empty at some later time (`Fits`).
-/

namespace Segments

section

variable {α : Type} (sep : α)

/-- The segments, each behind a separator -/
def joined (segs : List (List α)) : List α := segs.flatMap (sep :: ·)

variable {sep}

@[simp] theorem joined_nil : joined sep [] = [] := rfl

@[simp] theorem joined_cons (s : List α) (segs : List (List α)) :
    joined sep (s :: segs) = sep :: s ++ joined sep segs := List.flatMap_cons

/-- Fewer segments make a shorter text. -/
theorem length_joined_le (sep : α) {segs segs' : List (List α)} (h : segs.Sublist segs') :
    (joined sep segs).length ≤ (joined sep segs').length := by
  induction h with
  | slnil => exact le_rfl
  | cons s _ ih =>
    rw [joined_cons, List.length_append]
    omega
  | cons_cons s _ ih =>
    rw [joined_cons, joined_cons, List.length_append, List.length_append]
    omega

end

section

variable {α : Type} [DecidableEq α] (sep : α)

/-- The segments between the separators of a text, without the empty ones -/
def segments (t : List α) : List (List α) := (t.splitOn sep).filter (· ≠ [])

variable {sep}

@[simp] theorem segments_nil : segments sep [] = [] := rfl

/-- A separator ends a segment. -/
theorem segments_append_sep (t u : List α) :
    segments sep (t ++ sep :: u) = segments sep t ++ segments sep u := by
  unfold segments
  rw [List.splitOn_append_cons_self, List.filter_append]

@[simp] theorem segments_sep_cons (u : List α) : segments sep (sep :: u) = segments sep u :=
  segments_append_sep [] u

/-- A text without a separator is one segment. -/
theorem segments_of_not_mem {t : List α} (ht : sep ∉ t) (hne : t ≠ []) : segments sep t = [t] := by
  unfold segments
  rw [List.splitOn_eq_singleton ht]
  simp [hne]

/-- The first segment ends at the first separator. -/
theorem segments_append_sep_of_not_mem {s : List α} (hs : sep ∉ s) (u : List α) :
    segments sep (s ++ sep :: u) = if s = [] then segments sep u else s :: segments sep u := by
  rw [segments_append_sep]
  split
  next hnil => rw [hnil, segments_nil, List.nil_append]
  next hne =>
    rw [segments_of_not_mem hs hne]
    rfl

/-- Separators in front of a text do not count. -/
theorem segments_dropWhile (t : List α) : segments sep (t.dropWhile (· = sep)) = segments sep t := by
  induction t with
  | nil => rfl
  | cons c t ih =>
    by_cases hc : c = sep
    · rw [List.dropWhile_cons_of_pos (by simpa using hc), ih, hc, segments_sep_cons]
    · rw [List.dropWhile_cons_of_neg (by simpa using hc)]

/-- The first segment of a text that does not begin with a separator, and the others -/
theorem segments_eq_cons {t : List α} (hne : t ≠ []) (hhead : t.head? ≠ some sep) :
    segments sep t = t.takeWhile (· ≠ sep) :: segments sep (t.dropWhile (· ≠ sep)) := by
  have hfree : sep ∉ t.takeWhile (· ≠ sep) := fun hmem => by simpa using List.mem_takeWhile_imp hmem
  have hfirst : t.takeWhile (· ≠ sep) ≠ [] := by
    obtain ⟨c, cs, rfl⟩ := List.exists_cons_of_ne_nil hne
    have hc : c ≠ sep := fun h => hhead (by rw [h]; rfl)
    rw [List.takeWhile_cons_of_pos (by simpa using hc)]
    exact List.cons_ne_nil _ _
  have hsplit : t = t.takeWhile (· ≠ sep) ++ t.dropWhile (· ≠ sep) := List.takeWhile_append_dropWhile.symm
  have hrest := List.head?_dropWhile_not (fun x => decide (x ≠ sep)) t
  nth_rewrite 1 [hsplit]
  cases hdrop : t.dropWhile (· ≠ sep) with
  | nil => rw [List.append_nil, segments_of_not_mem hfree hfirst, segments_nil]
  | cons c u =>
    rw [hdrop] at hrest
    have hc : c = sep := by simpa using hrest
    rw [hc, segments_append_sep_of_not_mem hfree, if_neg hfirst, segments_sep_cons]

/-- Segments are not empty and have no separator in them. -/
theorem mem_segments {t s : List α} (hs : s ∈ segments sep t) : s ≠ [] ∧ sep ∉ s := by
  induction hn : t.length using Nat.strong_induction_on generalizing t with
  | _ n ih =>
    by_cases hmem : sep ∈ t
    · obtain ⟨v, u, rfl, hv⟩ := List.eq_append_cons_of_mem hmem
      have hu : s ∈ segments sep u → s ≠ [] ∧ sep ∉ s := fun h =>
        ih u.length (by rw [← hn, List.length_append, List.length_cons]; omega) h rfl
      rw [segments_append_sep_of_not_mem hv] at hs
      split at hs
      · exact hu hs
      next hne =>
        rcases List.mem_cons.mp hs with rfl | hs
        · exact ⟨hne, hv⟩
        · exact hu hs
    · by_cases hne : t = []
      · rw [hne] at hs
        exact absurd hs List.not_mem_nil
      · rw [segments_of_not_mem hmem hne, List.mem_singleton] at hs
        rw [hs]
        exact ⟨hne, hmem⟩

/-- What is in a segment is in the text. -/
theorem mem_of_mem_segments {t s : List α} {c : α} (hs : s ∈ segments sep t) (hc : c ∈ s) : c ∈ t := by
  induction hn : t.length using Nat.strong_induction_on generalizing t with
  | _ n ih =>
    by_cases hmem : sep ∈ t
    · obtain ⟨v, u, rfl, hv⟩ := List.eq_append_cons_of_mem hmem
      have hu : s ∈ segments sep u → c ∈ v ++ sep :: u := fun h =>
        List.mem_append_right v (List.mem_cons_of_mem sep
          (ih u.length (by rw [← hn, List.length_append, List.length_cons]; omega) h rfl))
      rw [segments_append_sep_of_not_mem hv] at hs
      split at hs
      · exact hu hs
      next hne =>
        rcases List.mem_cons.mp hs with rfl | hs
        · exact List.mem_append_left _ hc
        · exact hu hs
    · by_cases hne : t = []
      · rw [hne] at hs
        exact absurd hs List.not_mem_nil
      · rw [segments_of_not_mem hmem hne, List.mem_singleton] at hs
        rwa [← hs]

/-- Joined segments are cut into what they were. -/
theorem segments_joined {segs : List (List α)} (h : ∀ s ∈ segs, s ≠ [] ∧ sep ∉ s) :
    segments sep (joined sep segs) = segs := by
  induction segs with
  | nil => rfl
  | cons s segs ih =>
    obtain ⟨hne, hfree⟩ := h s List.mem_cons_self
    have hrest := ih fun u hu => h u (List.mem_cons_of_mem s hu)
    rw [joined_cons, List.cons_append, segments_sep_cons]
    cases segs with
    | nil =>
      rw [joined_nil, List.append_nil]
      exact segments_of_not_mem hfree hne
    | cons u segs =>
      rw [joined_cons, List.cons_append] at hrest ⊢
      rw [segments_sep_cons] at hrest
      rw [segments_append_sep, segments_of_not_mem hfree hne, hrest]
      rfl

/-- Joined segments are no longer than the text behind a separator. -/
theorem length_joined_segments_le (sep : α) (t : List α) :
    (joined sep (segments sep t)).length ≤ t.length + 1 := by
  induction hn : t.length using Nat.strong_induction_on generalizing t with
  | _ n ih =>
    by_cases hmem : sep ∈ t
    · obtain ⟨v, u, rfl, hv⟩ := List.eq_append_cons_of_mem hmem
      rw [List.length_append, List.length_cons] at hn
      have hu := ih u.length (by omega) u rfl
      rw [segments_append_sep_of_not_mem hv]
      split
      · omega
      · rw [joined_cons, List.length_append, List.length_cons]
        omega
    · by_cases hne : t = []
      · rw [hne]
        exact Nat.zero_le _
      · rw [segments_of_not_mem hmem hne, joined_cons, joined_nil, List.append_nil, List.length_cons, hn]

end

/-! ## Stacks of segments -/

section

variable {β : Type} (skip up : β → Prop) [DecidablePred skip] [DecidablePred up]

/-- One segment is skipped, or removes the one before it, or is put behind it. -/
def push (stack : List β) (x : β) : List β :=
  if skip x then stack else if up x then stack.dropLast else stack ++ [x]

/-- The same on a stack of at most `n` places -/
def pushAtMost (n : ℕ) (stack : List β) (x : β) : List β :=
  if skip x then stack
  else if up x then stack.dropLast
  else if stack.length < n then stack ++ [x]
  else stack

/-- The stack is empty now or at some later time. -/
def Empties : List β → List β → Prop
  | stack, [] => stack = []
  | stack, x :: xs => stack = [] ∨ Empties (push skip up stack x) xs

/-- Whenever the stack is deeper than `n`, it is empty at some later time. -/
def Fits (n : ℕ) : List β → List β → Prop
  | stack, [] => stack.length ≤ n
  | stack, x :: xs => (n < stack.length → Empties skip up stack (x :: xs)) ∧
    Fits n (push skip up stack x) xs

instance decidableEmpties [DecidableEq β] : ∀ stack xs, Decidable (Empties skip up stack xs)
  | stack, [] => inferInstanceAs (Decidable (stack = []))
  | stack, x :: xs =>
    have : Decidable (Empties skip up (push skip up stack x) xs) :=
      decidableEmpties (push skip up stack x) xs
    inferInstanceAs (Decidable (stack = [] ∨ Empties skip up (push skip up stack x) xs))

instance decidableFits [DecidableEq β] (n : ℕ) : ∀ stack xs, Decidable (Fits skip up n stack xs)
  | stack, [] => inferInstanceAs (Decidable (stack.length ≤ n))
  | stack, x :: xs =>
    have : Decidable (Fits skip up n (push skip up stack x) xs) :=
      decidableFits n (push skip up stack x) xs
    inferInstanceAs (Decidable ((n < stack.length → Empties skip up stack (x :: xs)) ∧
      Fits skip up n (push skip up stack x) xs))

variable {skip up} {n : ℕ} {c r : List β}

/-- In the end the stack has at most `n` places. -/
theorem Fits.length_le {xs : List β} (h : Fits skip up n r xs) :
    (xs.foldl (push skip up) r).length ≤ n := by
  induction xs generalizing r with
  | nil => exact h
  | cons x xs ih => exact ih h.2

/-- If nothing is skipped or removed, the stack is the list. -/
theorem foldl_push_of_plain {xs : List β} (h : ∀ x ∈ xs, ¬ skip x ∧ ¬ up x) :
    xs.foldl (push skip up) r = r ++ xs := by
  induction xs generalizing r with
  | nil => rw [List.append_nil]; rfl
  | cons x xs ih =>
    obtain ⟨hskip, hup⟩ := h x List.mem_cons_self
    rw [List.foldl_cons, ih fun y hy => h y (List.mem_cons_of_mem x hy), push, if_neg hskip, if_neg hup,
      List.append_assoc]
    rfl

/-- A list from which nothing is skipped or removed fits if it is short enough. -/
theorem fits_of_plain {xs : List β} (h : ∀ x ∈ xs, ¬ skip x ∧ ¬ up x)
    (hn : r.length + xs.length ≤ n) : Fits skip up n r xs := by
  induction xs generalizing r with
  | nil => exact hn
  | cons x xs ih =>
    obtain ⟨hskip, hup⟩ := h x List.mem_cons_self
    rw [List.length_cons] at hn
    refine ⟨fun hlt => absurd hlt (by omega), ih (fun y hy => h y (List.mem_cons_of_mem x hy)) ?_⟩
    rw [push, if_neg hskip, if_neg hup, List.length_append, List.length_singleton]
    omega

/-- What is on the stack is neither skipped nor removes anything. -/
theorem plain_of_mem_foldl {xs : List β} (hr : ∀ x ∈ r, ¬ skip x ∧ ¬ up x) {x : β}
    (hx : x ∈ xs.foldl (push skip up) r) : ¬ skip x ∧ ¬ up x := by
  induction xs generalizing r with
  | nil => exact hr x hx
  | cons y xs ih =>
    refine ih (fun z hz => ?_) hx
    unfold push at hz
    split_ifs at hz with hskip hup
    · exact hr z hz
    · exact hr z (List.mem_of_mem_dropLast hz)
    · rcases List.mem_append.mp hz with hz | hz
      · exact hr z hz
      · rw [List.mem_singleton.mp hz]
        exact ⟨hskip, hup⟩

/-- What is on the stack was there or was pushed. -/
theorem mem_of_mem_foldl {xs : List β} {x : β} (hx : x ∈ xs.foldl (push skip up) r) :
    x ∈ r ∨ x ∈ xs := by
  induction xs generalizing r with
  | nil => exact .inl hx
  | cons y xs ih =>
    rcases ih hx with hx | hx
    · unfold push at hx
      split_ifs at hx
      · exact .inl hx
      · exact .inl (List.mem_of_mem_dropLast hx)
      · rcases List.mem_append.mp hx with hx | hx
        · exact .inl hx
        · exact .inr (List.mem_singleton.mp hx ▸ List.mem_cons_self)
    · exact .inr (List.mem_cons_of_mem y hx)

/-- The stack has some of what was there and what came. -/
theorem foldl_push_sublist (xs : List β) : (xs.foldl (push skip up) r).Sublist (r ++ xs) := by
  induction xs generalizing r with
  | nil => exact List.sublist_append_left r []
  | cons x xs ih =>
    have hstep : (push skip up r x).Sublist (r ++ [x]) := by
      unfold push
      split_ifs
      · exact List.sublist_append_left r [x]
      · exact (List.dropLast_sublist r).trans (List.sublist_append_left r [x])
      · exact List.Sublist.refl _
    have happ : r ++ x :: xs = (r ++ [x]) ++ xs := List.append_cons r x xs
    rw [List.foldl_cons, happ]
    exact ih.trans (hstep.append_right xs)

/-- The limited stack has some of what the other has. -/
theorem foldl_pushAtMost_sublist {xs : List β} (h : c.Sublist r) :
    (xs.foldl (pushAtMost skip up n) c).Sublist (xs.foldl (push skip up) r) := by
  induction xs generalizing c r with
  | nil => exact h
  | cons x xs ih =>
    refine ih ?_
    unfold push pushAtMost
    split_ifs
    · exact h
    · have htail := h.reverse.tail.reverse
      rwa [List.tail_reverse, List.tail_reverse, List.reverse_reverse, List.reverse_reverse] at htail
    · exact h.append_right [x]
    · exact h.trans (List.sublist_append_left r [x])

/-- The limited stack lacks something. -/
def Behind (n : ℕ) (c r : List β) : Prop := c.length < r.length ∧ c.length ≤ n

/-- The limited stack still lacks something after a step, or both are empty. -/
theorem Behind.step (h : Behind n c r) (x : β) :
    Behind n (pushAtMost skip up n c x) (push skip up r x) ∨
      pushAtMost skip up n c x = [] ∧ push skip up r x = [] := by
  obtain ⟨hlt, hle⟩ := h
  unfold push pushAtMost
  split_ifs with hskip hup hroom
  · exact .inl ⟨hlt, hle⟩
  · by_cases hr : r.length = 1
    · right
      exact ⟨List.eq_nil_of_length_eq_zero (by rw [List.length_dropLast]; omega),
        List.eq_nil_of_length_eq_zero (by rw [List.length_dropLast]; omega)⟩
    · left
      refine ⟨?_, ?_⟩ <;> simp only [List.length_dropLast] <;> omega
  · left
    refine ⟨?_, ?_⟩ <;> simp only [List.length_append, List.length_singleton] <;> omega
  · left
    refine ⟨?_, hle⟩
    simp only [List.length_append, List.length_singleton]
    omega

/-- The two stacks end alike: from the same stack exactly if it fits, and from two that differ exactly if
the deeper one is empty at some time too. -/
theorem foldl_pushAtMost_iff (xs : List β) :
    (∀ r : List β, r.length ≤ n → (xs.foldl (pushAtMost skip up n) r = xs.foldl (push skip up) r ↔
      Fits skip up n r xs)) ∧
    ∀ c r, Behind n c r → (xs.foldl (pushAtMost skip up n) c = xs.foldl (push skip up) r ↔
      Fits skip up n r xs ∧ Empties skip up r xs) := by
  induction xs with
  | nil =>
    refine ⟨fun r hr => ⟨fun _ => hr, fun _ => rfl⟩, fun c r hbehind => ?_⟩
    have hne : r ≠ [] := List.ne_nil_of_length_pos (by have := hbehind.1; omega)
    refine ⟨fun he => ?_, fun he => absurd he.2 hne⟩
    have hlen : c.length = r.length := congrArg List.length he
    exact absurd hlen (Nat.ne_of_lt hbehind.1)
  | cons x xs ih =>
    obtain ⟨hsame, hbehind⟩ := ih
    constructor
    · intro r hr
      have hshallow : n < r.length → Empties skip up r (x :: xs) := fun hlt => absurd hr (by omega)
      have hfits : Fits skip up n r (x :: xs) ↔ Fits skip up n (push skip up r x) xs :=
        and_iff_right hshallow
      rw [hfits, List.foldl_cons, List.foldl_cons]
      by_cases hstep : pushAtMost skip up n r x = push skip up r x ∧ (push skip up r x).length ≤ n
      · rw [hstep.1]
        exact hsame _ hstep.2
      · -- the stack is full, and a segment is dropped
        have hfull : pushAtMost skip up n r x = r ∧ push skip up r x = r ++ [x] ∧ r.length = n := by
          unfold push pushAtMost at hstep ⊢
          split_ifs at hstep ⊢ with hskip hup hroom
          · exact absurd ⟨rfl, hr⟩ hstep
          · exact absurd ⟨rfl, by rw [List.length_dropLast]; omega⟩ hstep
          · exact absurd ⟨rfl, by rw [List.length_append, List.length_singleton]; omega⟩ hstep
          · exact ⟨rfl, rfl, by omega⟩
        obtain ⟨hc, hr', hn⟩ := hfull
        have hlen : n < (r ++ [x]).length := by
          rw [List.length_append, List.length_singleton]
          omega
        rw [hc, hr', hbehind r (r ++ [x]) ⟨by omega, hr⟩, and_iff_left_iff_imp]
        intro hfit
        cases xs with
        | nil => exact absurd hfit (Nat.not_le.mpr hlen)
        | cons y ys => exact hfit.1 hlen
    · intro c r hcr
      have hne : r ≠ [] := List.ne_nil_of_length_pos (by have := hcr.1; omega)
      have hempties : Empties skip up r (x :: xs) ↔ Empties skip up (push skip up r x) xs :=
        or_iff_right hne
      rw [List.foldl_cons, List.foldl_cons]
      have hsplit : Fits skip up n r (x :: xs) ∧ Empties skip up r (x :: xs) ↔
          Fits skip up n (push skip up r x) xs ∧ Empties skip up (push skip up r x) xs := by
        constructor
        · exact fun ⟨hfit, he⟩ => ⟨hfit.2, hempties.mp he⟩
        · exact fun ⟨hfit, he⟩ => ⟨⟨fun _ => hempties.mpr he, hfit⟩, hempties.mpr he⟩
      rw [hsplit]
      have hstep : Behind n (pushAtMost skip up n c x) (push skip up r x) ∨
          pushAtMost skip up n c x = [] ∧ push skip up r x = [] := hcr.step x
      rcases hstep with hcr' | ⟨hc, hr⟩
      · exact hbehind _ _ hcr'
      · have hempty : Empties skip up ([] : List β) xs := by
          cases xs with
          | nil => rfl
          | cons y ys => exact .inl rfl
        rw [hc, hr, hsame [] (Nat.zero_le n), and_iff_left hempty]

end

end Segments
