import Sandflea.Strings.StrView

/-!
# Splitting views

`str_view_split` cuts a view at a delimiter into at most as many components as there is space for. With space enough
they are what is between the delimiters, and joining them gives the view back (`str_view_split_law`).
-/

namespace Sandflea

/-! ## Slices -/

/-- `str_view_slice_from` -/
def strViewSliceFrom (sv : StrView) (start : ℕ) : StrView :=
  if sv.len ≤ start then ⟨sv.data + sv.len, 0, by decide⟩
  else ⟨sv.data + start, sv.len - start, (Nat.sub_le _ _).trans_lt sv.len_lt⟩

/-- `str_view_slice` -/
def strViewSlice (sv : StrView) (start len : ℕ) : StrView :=
  if sv.len ≤ start then ⟨sv.data + sv.len, 0, by decide⟩
  else ⟨sv.data + start, min len (sv.len - start), (min_le_right _ _).trans_lt ((Nat.sub_le _ _).trans_lt sv.len_lt)⟩

section

variable (m : Bytes) (sv : StrView) {start : ℕ}

theorem bytes_strViewSliceFrom : (strViewSliceFrom sv start).bytes m = (sv.bytes m).drop start := by
  apply List.ext_getElem
  · unfold strViewSliceFrom
    split
    · simp
      omega
    · simp
  · intro i h₁ h₂
    have hlt : i < sv.len - start := by simpa using h₂
    unfold strViewSliceFrom
    split
    · omega
    · simp [StrView.bytes, Nat.add_assoc]

theorem bytes_strViewSlice {len : ℕ} : (strViewSlice sv start len).bytes m = ((sv.bytes m).drop start).take len := by
  apply List.ext_getElem
  · unfold strViewSlice
    split <;> simp
    omega
  · intro i h₁ h₂
    have hlt : i < min len (sv.len - start) := by simpa using h₂
    unfold strViewSlice
    split
    · omega
    · simp [StrView.bytes, Nat.add_assoc]

/-- The bytes of a view from one of them on -/
theorem drop_bytes {i : ℕ} (hi : i < sv.len) :
    (sv.bytes m).drop i = m (sv.data + i) :: (sv.bytes m).drop (i + 1) := by
  rw [List.drop_eq_getElem_cons (by simpa using hi)]
  congr 1
  simp [StrView.bytes]

end

/-! ## The scan -/

/-- The loop of `str_view_split` over the last `n` bytes, from the `i`-th on: the start of what is left, and `out` -/
def splitLoop (m : Bytes) (sv : StrView) (delimiter : UInt8) (maxOut : ℕ) :
    ℕ → ℕ → ℕ → List StrView → ℕ × List StrView
  | 0, _, start, out => (start, out)
  | n + 1, i, start, out =>
    if out.length < maxOut then
      if m (sv.data + i) = delimiter then
        splitLoop m sv delimiter maxOut n (i + 1) (i + 1) (out ++ [strViewSlice sv start (i - start)])
      else splitLoop m sv delimiter maxOut n (i + 1) start out
    else (start, out)

/-- The end of `str_view_split` -/
def splitFinish (sv : StrView) (maxOut : ℕ) (r : ℕ × List StrView) : List StrView :=
  if r.2.length < maxOut then r.2 ++ [strViewSliceFrom sv r.1] else r.2

/-- `str_view_split`: what it writes to `out`, from the start on. It returns the length. -/
def strViewSplit (m : Bytes) (sv : StrView) (delimiter : UInt8) (maxOut : ℕ) : List StrView :=
  if maxOut = 0 then []
  else splitFinish sv maxOut (splitLoop m sv delimiter maxOut sv.len 0 0 [])

/-- All components, as the loop finds them from the `i`-th byte on -/
def components (m : Bytes) (sv : StrView) (delimiter : UInt8) : ℕ → ℕ → ℕ → List StrView
  | 0, _, start => [strViewSliceFrom sv start]
  | n + 1, i, start =>
    if m (sv.data + i) = delimiter then
      strViewSlice sv start (i - start) :: components m sv delimiter n (i + 1) (i + 1)
    else components m sv delimiter n (i + 1) start

section

variable (m : Bytes) (sv : StrView) (delimiter : UInt8) {maxOut : ℕ}

/-- The loop writes the components that there is space for. -/
theorem splitLoop_eq (n i start : ℕ) {out : List StrView} (hout : out.length ≤ maxOut) :
    splitFinish sv maxOut (splitLoop m sv delimiter maxOut n i start out) =
      (out ++ components m sv delimiter n i start).take maxOut := by
  induction n generalizing i start out with
  | zero =>
    unfold splitLoop components splitFinish
    dsimp only
    split
    · exact (List.take_of_length_le (by simpa using ‹_›)).symm
    · rw [List.take_append_of_le_length (by omega), List.take_of_length_le hout]
  | succ n ih =>
    unfold splitLoop
    split_ifs with hroom hdelim
    · rw [ih _ _ (by simpa using hroom), components, if_pos hdelim, List.append_assoc]
      rfl
    · rw [ih _ _ hout, components, if_neg hdelim]
    · rw [List.take_append_of_le_length (by omega), List.take_of_length_le hout]
      exact if_neg hroom

theorem strViewSplit_eq (maxOut : ℕ) :
    strViewSplit m sv delimiter maxOut = (components m sv delimiter sv.len 0 0).take maxOut := by
  unfold strViewSplit
  split
  · rw [‹maxOut = 0›]
    rfl
  · exact splitLoop_eq m sv delimiter sv.len 0 0 (Nat.zero_le _)

/-- From a byte with no delimiter between it and the start of a component, the components are those of the bytes from
that start on. -/
theorem bytes_components (n i start : ℕ) (hn : i + n = sv.len) (hstart : start ≤ i)
    (hno : delimiter ∉ ((sv.bytes m).drop start).take (i - start)) :
    (components m sv delimiter n i start).map (StrView.bytes m) =
      ((sv.bytes m).drop start).splitOn delimiter := by
  induction n generalizing i start with
  | zero =>
    rw [components, List.map_singleton, bytes_strViewSliceFrom]
    rw [List.take_of_length_le (by simp; omega)] at hno
    exact (List.splitOn_eq_singleton hno).symm
  | succ n ih =>
    have hsplit := (List.take_append_drop (i - start) ((sv.bytes m).drop start)).symm
    rw [List.drop_drop, Nat.add_sub_cancel' hstart, drop_bytes m sv (by omega : i < sv.len)] at hsplit
    rw [components]
    by_cases hdelim : m (sv.data + i) = delimiter
    · rw [if_pos hdelim, List.map_cons, bytes_strViewSlice, ih (i + 1) (i + 1) (by omega) le_rfl (by simp)]
      conv_rhs => rw [hsplit, hdelim, List.splitOn_append_cons_self_of_not_mem hno]
    · rw [if_neg hdelim]
      refine ih (i + 1) start (by omega) (by omega) ?_
      rw [Nat.sub_add_comm hstart, List.take_add_one, List.getElem?_drop, Nat.add_sub_cancel' hstart]
      simp only [List.mem_append, not_or]
      refine ⟨hno, ?_⟩
      have hget : (sv.bytes m)[i]? = some (m (sv.data + i)) := by
        rw [← List.head?_drop, drop_bytes m sv (by omega : i < sv.len)]
        rfl
      simpa [hget] using Ne.symm hdelim

/-- The components are what is between the delimiters. -/
theorem bytes_components_all :
    (components m sv delimiter sv.len 0 0).map (StrView.bytes m) = (sv.bytes m).splitOn delimiter :=
  bytes_components m sv delimiter sv.len 0 0 (Nat.zero_add _) le_rfl (by simp)

end

/-! ## What is between delimiters -/

theorem not_mem_of_mem_splitOn (d : UInt8) (xs : List UInt8) : ∀ l ∈ xs.splitOn d, d ∉ l := by
  induction xs with
  | nil => simp
  | cons x xs ih =>
    rw [List.splitOn_cons_eq_if_modifyHead]
    by_cases hx : x = d
    · rw [if_pos (by simpa using hx)]
      simpa using ih
    · rw [if_neg (by simpa using hx)]
      cases hs : xs.splitOn d with
      | nil => simp
      | cons head tail =>
        rw [hs] at ih
        simpa [Ne.symm hx] using ih

theorem length_splitOn (d : UInt8) (xs : List UInt8) : (xs.splitOn d).length = xs.count d + 1 := by
  induction xs with
  | nil => rfl
  | cons x xs ih =>
    rw [List.splitOn_cons_eq_if_modifyHead, List.count_cons]
    split
    · rw [List.length_cons, ih]
    · rw [List.length_modifyHead, ih, Nat.add_zero]

/-- No more components are written than there is space for. With more space than there are delimiters there is one
component more than delimiters, none has a delimiter in it, and with delimiters between them they are the view again.
With less space it is the first of these components that are written, as many as there is space for. -/
theorem str_view_split_law (m : Bytes) (sv : StrView) (delimiter : UInt8) (maxOut : ℕ) :
    (strViewSplit m sv delimiter maxOut).length ≤ maxOut ∧
      ((sv.bytes m).count delimiter < maxOut →
        (strViewSplit m sv delimiter maxOut).length = (sv.bytes m).count delimiter + 1 ∧
        (∀ c ∈ strViewSplit m sv delimiter maxOut, delimiter ∉ c.bytes m) ∧
        [delimiter].intercalate ((strViewSplit m sv delimiter maxOut).map (StrView.bytes m)) = sv.bytes m) ∧
      (maxOut ≤ (sv.bytes m).count delimiter →
        (strViewSplit m sv delimiter maxOut).length = maxOut ∧
        ∀ enough, (sv.bytes m).count delimiter < enough →
          strViewSplit m sv delimiter maxOut = (strViewSplit m sv delimiter enough).take maxOut) := by
  have hall := bytes_components_all m sv delimiter
  have hlen : (components m sv delimiter sv.len 0 0).length = (sv.bytes m).count delimiter + 1 := by
    have h := congrArg List.length hall
    rwa [List.length_map, length_splitOn] at h
  rw [strViewSplit_eq, List.length_take, hlen]
  refine ⟨min_le_left _ _, fun hmore => ?_, fun hless => ⟨by omega, fun enough henough => ?_⟩⟩
  · rw [List.take_of_length_le (by omega), hall, List.intercalate_splitOn]
    refine ⟨by omega, fun c hc => ?_, rfl⟩
    apply not_mem_of_mem_splitOn delimiter (sv.bytes m)
    rw [← hall]
    exact List.mem_map_of_mem hc
  · rw [strViewSplit_eq, List.take_take, min_eq_left (by omega)]

end Sandflea
