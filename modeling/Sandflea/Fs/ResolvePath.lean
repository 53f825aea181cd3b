import Sandflea.Fs.NormalPath
import Sandflea.Lib.Buffers

/-!
# `fs_resolve_path` in its buffers

The code of `fs_resolve_path` over the arrays of its frame and the buffer of its caller, with every access
and every subtraction checked (`fsResolvePathInto`). For all strings of less than `2 ^ 31` bytes and every
buffer that is not empty the checks pass, and the buffer holds the text of `resolvedText`, terminated.
-/

namespace Sandflea

open Bytes Segments Buffers

/-- `.` -/
def dot : UInt8 := 46

/-- A C string: bytes with a terminator among them -/
structure CString where
  bytes : Str
  terminated : 0 ∈ bytes

/-- The text in front of the first terminator -/
def CString.text (s : CString) : Str := cstr s.bytes

/-- The text of a string literal -/
def CString.ofText (t : Str) : CString := ⟨t ++ [0], List.mem_append_right t (List.mem_singleton_self 0)⟩

/-- The arrays of the frame, as the call finds them. A pointer into `combined` is its index there. -/
structure Frame where
  combined : Str
  drivePref : Str
  drivePrefix : Str
  segments : List ℕ
  segLens : List ℕ
  combined_length : combined.length = 512
  drivePref_length : drivePref.length = 32
  drivePrefix_length : drivePrefix.length = 32
  segments_length : segments.length = 32
  segLens_length : segLens.length = 32

/-! ## The code -/

/-- `str_len`, which counts in an `i32` -/
def strLen (buf : Str) : Option ℕ := do
  let i ← skip (· ≠ 0) buf 0
  if i < 2 ^ 31 then pure i else none

/-- `s[0] == '/' && s[1] == '/'` -/
def hasDriveAt (buf : Str) : Option Bool := do
  let c ← load buf 0
  if c = slash then do
    let c ← load buf 1
    pure (decide (c = slash))
  else pure false

/-- `len` bytes, cut to `sizeof(buf) - 1`, and a terminator behind them -/
def copyText (buf src : Str) (len : ℕ) : Option (Str × ℕ) := do
  let len ← room buf.length 0 len
  let buf ← memCopy buf 0 src 0 len
  let buf ← store buf len 0
  pure (buf, len)

/-- `n` bytes behind the first `len`, cut to `sizeof(buf) - 1 - len`, and a terminator behind them -/
def appendText (buf src : Str) (len n : ℕ) : Option Str := do
  let n ← room buf.length len n
  let buf ← memCopy buf len src 0 n
  store buf (len + n) 0

/-- The drive prefix of a string, and where it ends there -/
def extractDrive (buf src : Str) : Option (Str × ℕ) := do
  let p ← skip (fun c => c ≠ 0 && c ≠ slash) src 2
  let (buf, _) ← copyText buf src p
  pure (buf, p)

/-- `(active_drive && active_drive->name[0]) ? active_drive->name[0] : 'A'` -/
def driveLetter : Option CString → Option UInt8
  | none => some 65
  | some name => do
    let c ← load name.bytes 0
    pure (if c ≠ 0 then c else 65)

/-- The prefix of the active drive -/
def letterDrive (buf : Str) (active : Option CString) : Option Str := do
  let buf ← store buf 0 slash
  let buf ← store buf 1 slash
  let c ← driveLetter active
  let buf ← store buf 2 c
  store buf 3 0

/-- A slash behind the working directory, if there is none and there is room for one -/
def closeBase (combined : Str) (cwdLen : ℕ) : Option (Str × ℕ) := do
  let unclosed ← (
    if cwdLen > 0 then do
      let c ← load combined (cwdLen - 1)
      pure (decide (c ≠ slash))
    else pure false)
  if unclosed ∧ cwdLen < combined.length - 1 then do
    let combined ← store combined cwdLen slash
    let combined ← store combined (cwdLen + 1) 0
    pure (combined, cwdLen + 1)
  else pure (combined, cwdLen)

/-- `combined` -/
def combineInto (frame : Frame) (path cwd : Str) (active : Option CString) : Option Str := do
  let combined ← store frame.combined 0 0
  let explicit ← hasDriveAt path
  let first ← load path 0
  if explicit then do
    let len ← strLen path
    let (combined, _) ← copyText combined path len
    pure combined
  else if first = slash then do
    let drivePref ← store frame.drivePref 0 0
    let onDrive ← hasDriveAt cwd
    let drivePref ← (
      if onDrive then do
        let (drivePref, _) ← extractDrive drivePref cwd
        pure drivePref
      else letterDrive drivePref active)
    let dlen ← strLen drivePref
    let combined ← memCopy combined 0 drivePref 0 dlen
    let plen ← strLen path
    appendText combined path dlen plen
  else do
    let cwdLen ← strLen cwd
    let (combined, cwdLen) ← copyText combined cwd cwdLen
    let (combined, cwdLen) ← closeBase combined cwdLen
    let pathLen ← strLen path
    appendText combined path cwdLen pathLen

/-- The segments found so far -/
structure Tokens where
  segments : List ℕ
  segLens : List ℕ
  depth : ℕ

/-- `n` dots from an index on -/
def dotsAt (buf : Str) : ℕ → ℕ → Option Bool
  | _, 0 => some true
  | i, n + 1 => do
    let c ← load buf i
    if c = dot then dotsAt buf (i + 1) n else pure false

/-- The loop over the segments of `combined` -/
def tokenize (combined : Str) : ℕ → ℕ → Tokens → Option Tokens
  | 0, _, _ => none
  | fuel + 1, scan, tokens => do
    let c ← load combined scan
    if c = 0 then pure tokens
    else do
      let segStart ← skip (· = slash) combined scan
      let c ← load combined segStart
      if c = 0 then pure tokens
      else do
        let scan ← skip (fun c => c ≠ 0 && c ≠ slash) combined segStart
        let slen ← subtract scan segStart
        let isDot ← (if slen = 1 then dotsAt combined segStart 1 else pure false)
        let isDotDot ← (if slen = 2 then dotsAt combined segStart 2 else pure false)
        if isDot then tokenize combined fuel scan tokens
        else if isDotDot then
          tokenize combined fuel scan
            (if tokens.depth > 0 then { tokens with depth := tokens.depth - 1 } else tokens)
        else if tokens.depth < 32 then do
          let segments ← store tokens.segments tokens.depth segStart
          let segLens ← store tokens.segLens tokens.depth slen
          tokenize combined fuel scan ⟨segments, segLens, tokens.depth + 1⟩
        else tokenize combined fuel scan tokens

/-- `if (pos < out_size - 1) out[pos++] = '/';` -/
def putSlash (out : Str) (pos : ℕ) : Option (Str × ℕ) := do
  let last ← subtract out.length 1
  if pos < last then do
    let out ← store out pos slash
    pure (out, pos + 1)
  else pure (out, pos)

/-- `n` more segments, from the `i`-th on -/
def putSegments (combined : Str) (tokens : Tokens) : ℕ → ℕ → Str → ℕ → Option (Str × ℕ)
  | 0, _, out, pos => some (out, pos)
  | n + 1, i, out, pos => do
    let (out, pos) ← putSlash out pos
    let slen ← load tokens.segLens i
    let slen ← room out.length pos slen
    let segment ← load tokens.segments i
    let out ← memCopy out pos combined segment slen
    putSegments combined tokens n (i + 1) out (pos + slen)

/-- The normalized output -/
def assemble (drivePrefix combined : Str) (tokens : Tokens) (out : Str) : Option Str := do
  let dlen ← strLen drivePrefix
  let pos ← room out.length 0 dlen
  let out ← memCopy out 0 drivePrefix 0 pos
  let (out, pos) ← (
    if tokens.depth = 0 then putSlash out pos else putSegments combined tokens tokens.depth 0 out pos)
  store out pos 0

/-- `fs_resolve_path(path, out, out_size)` behind a working directory, with the name of the active drive.
The length of `out` is its size. -/
def fsResolvePathInto (frame : Frame) (path cwd : CString) (active : Option CString) (out : Str) :
    Option Str :=
  if out.length = 0 then some out
  else do
    let out ← store out 0 0
    let c ← load cwd.bytes 0
    let cwd := if c = 0 then CString.ofText (str "//A/") else cwd
    let c ← load path.bytes 0
    if c = 0 then do
      let len ← strLen cwd.bytes
      let (out, _) ← copyText out cwd.bytes len
      pure out
    else do
      let combined ← combineInto frame path.bytes cwd.bytes active
      let drivePrefix ← store frame.drivePrefix 0 0
      let onDrive ← hasDriveAt combined
      let (drivePrefix, scan) ← (
        if onDrive then extractDrive drivePrefix combined
        else do
          let drivePrefix ← letterDrive drivePrefix active
          pure (drivePrefix, 0))
      let tokens ← tokenize combined combined.length scan ⟨frame.segments, frame.segLens, 0⟩
      assemble drivePrefix combined tokens out

/-! ## Strings in buffers -/

/-- A buffer that begins with a text and a terminator -/
def Holds (buf t : Str) : Prop := t ++ [0] <+: buf ∧ 0 ∉ t

theorem CString.holds (s : CString) : Holds s.bytes s.text := by
  constructor
  · obtain ⟨t, rest, hsplit, hfree⟩ := List.eq_append_cons_of_mem s.terminated
    have htext : s.text = t := by
      unfold CString.text cstr
      rw [hsplit, List.takeWhile_append_of_pos, List.takeWhile_cons_of_neg (by simp), List.append_nil]
      intro c hc
      rw [decide_eq_true_eq]
      rintro rfl
      exact hfree hc
    rw [htext, hsplit]
    exact ⟨rest, by rw [List.append_assoc]; rfl⟩
  · intro hmem
    simpa using List.mem_takeWhile_imp hmem

theorem CString.text_ofText {t : Str} (ht : 0 ∉ t) : (CString.ofText t).text = t := by
  change (t ++ [0]).takeWhile (· ≠ 0) = t
  rw [List.takeWhile_append_of_pos, List.takeWhile_cons_of_neg (by simp), List.append_nil]
  intro c hc
  rw [decide_eq_true_eq]
  rintro rfl
  exact ht hc

variable {buf src t u : Str}

theorem Holds.length_lt (h : Holds buf t) : t.length < buf.length := by
  have hle := h.1.length_le
  rw [List.length_append, List.length_singleton] at hle
  omega

theorem Holds.begins (h : Holds buf t) : t <+: buf := (List.prefix_append t [0]).trans h.1

theorem Holds.load (h : Holds buf t) {i : ℕ} (hi : i ≤ t.length) :
    Buffers.load buf i = some (t.getD i 0) := by
  refine load_of_prefix h.1 ?_
  rcases hi.lt_or_eq with hlt | rfl
  · rw [List.getElem?_append_left hlt, List.getD_eq_getElem?_getD, List.getElem?_eq_getElem hlt]
    rfl
  · rw [List.getElem?_append_right le_rfl, Nat.sub_self, List.getD_eq_default _ _ le_rfl]
    rfl

theorem Holds.strLen (h : Holds buf t) (hlen : t.length < 2 ^ 31) : strLen buf = some t.length := by
  have hall : t.takeWhile (· ≠ 0) = t := List.takeWhile_eq_self_iff.mpr fun c hc => by
    rw [decide_eq_true_eq]
    rintro rfl
    exact h.2 hc
  have hskip : skip (· ≠ 0) buf 0 = some t.length := by
    rw [skip_spec h.1 (by simp) (Nat.zero_le _), List.drop_zero, hall, Nat.zero_add]
  unfold Sandflea.strLen
  rw [bind_of_eq hskip, if_pos hlen]
  rfl

theorem Holds.hasDriveAt (h : Holds buf t) : hasDriveAt buf = some (hasDrive t) := by
  unfold Sandflea.hasDriveAt hasDrive
  rw [bind_of_eq (h.load (Nat.zero_le _))]
  match t, h with
  | [], _ => rfl
  | [c], h =>
    rw [bind_of_eq (h.load (i := 1) le_rfl)]
    have hzero : (0 : UInt8) ≠ slash := by decide
    simp [hzero]
  | c :: d :: cs, h =>
    rw [bind_of_eq (h.load (i := 1) (by simp))]
    by_cases hc : c = slash
    · simp [hc]
    · simp [hc]

/-- The first two bytes decide; what does not begin with a terminator is not empty. -/
theorem Holds.first (h : Holds buf t) : Buffers.load buf 0 = some (t.headD 0) := by
  rw [h.load (Nat.zero_le _)]
  cases t with
  | nil => rfl
  | cons c cs => rfl

theorem Holds.first_eq_zero_iff (h : Holds buf t) : t.headD 0 = 0 ↔ t = [] := by
  cases t with
  | nil => exact ⟨fun _ => rfl, fun _ => rfl⟩
  | cons c cs =>
    refine ⟨fun hc => absurd hc fun hc => h.2 ?_, fun hnil => by cases hnil⟩
    change c = 0 at hc
    rw [hc]
    exact List.mem_cons_self

theorem not_mem_appendTo {c : UInt8} {n : ℕ} (ht : c ∉ t) (hu : c ∉ u) : c ∉ appendTo n t u := by
  intro hmem
  rcases List.mem_append.mp (List.mem_of_mem_take hmem) with hmem | hmem
  · exact ht hmem
  · exact hu hmem

/-! ## Copies of strings -/

/-- `copyText` leaves what fits of the text. -/
theorem copyText_spec (hbuf : 0 < buf.length) (hu : u <+: src) (hfree : 0 ∉ u) (hlen : u.length < 2 ^ 32) :
    ∃ buf', copyText buf src u.length = some (buf', (appendTo buf.length [] u).length) ∧
      buf'.length = buf.length ∧ Holds buf' (appendTo buf.length [] u) := by
  obtain ⟨n, buf₁, hroom, hcopy, hsize, hbegins, hn⟩ := memCopy_room (s := 0) List.nil_prefix
    hbuf hu (Nat.zero_le _) (by rw [List.length_nil]; omega)
  rw [List.length_nil] at hroom hcopy hn
  rw [Nat.zero_add] at hn
  change appendTo buf.length [] u <+: buf₁ at hbegins
  change (appendTo buf.length [] u).length = n at hn
  have hlt : (appendTo buf.length [] u).length < buf₁.length := by
    have hle : (appendTo buf.length [] u).length ≤ buf.length - 1 := List.length_take_le _ _
    omega
  obtain ⟨buf', hstore, hsize', hholds⟩ := store_prefix (0 : UInt8) hbegins hlt
  rw [hn] at hstore
  refine ⟨buf', ?_, hsize'.trans hsize, hholds, not_mem_appendTo List.not_mem_nil hfree⟩
  unfold copyText
  rw [bind_of_eq hroom, bind_of_eq hcopy, bind_of_eq hstore, hn]
  rfl

/-- `appendText` leaves what fits of the text behind the one before it. -/
theorem appendText_spec (ht : t <+: buf) (hlt : t.length < buf.length) (hfree : 0 ∉ t) (hu : Holds src u)
    (hlen : t.length + u.length < 2 ^ 32) :
    ∃ buf', appendText buf src t.length u.length = some buf' ∧ buf'.length = buf.length ∧
      Holds buf' (appendTo buf.length t u) := by
  obtain ⟨n, buf₁, hroom, hcopy, hsize, hbegins, hn⟩ := memCopy_room (s := 0) ht hlt
    hu.begins (Nat.zero_le _) hlen
  change appendTo buf.length t u <+: buf₁ at hbegins
  change (appendTo buf.length t u).length = t.length + n at hn
  have hlt' : (appendTo buf.length t u).length < buf₁.length := by
    have hle : (appendTo buf.length t u).length ≤ buf.length - 1 := List.length_take_le _ _
    omega
  obtain ⟨buf', hstore, hsize', hholds⟩ := store_prefix (0 : UInt8) hbegins hlt'
  rw [hn] at hstore
  refine ⟨buf', ?_, hsize'.trans hsize, hholds, not_mem_appendTo hfree hu.2⟩
  unfold appendText
  rw [bind_of_eq hroom, bind_of_eq hcopy]
  exact hstore

/-! ## Drive prefixes -/

theorem driveOf_isPrefix (t : Str) : driveOf t <+: t := by
  obtain ⟨rest, hrest⟩ := List.takeWhile_prefix (l := t.drop 2) (· ≠ slash)
  refine ⟨rest, ?_⟩
  unfold driveOf
  rw [List.append_assoc, hrest, List.take_append_drop]

/-- The scan of a name ends where the name does. -/
theorem Holds.skipName (h : Holds buf t) {i : ℕ} (hi : i ≤ t.length) :
    skip (fun c => c ≠ 0 && c ≠ slash) buf i =
      some (i + ((t.drop i).takeWhile (· ≠ slash)).length) := by
  have hname : (t.drop i).takeWhile (fun c => c ≠ 0 && c ≠ slash) = (t.drop i).takeWhile (· ≠ slash) := by
    refine takeWhile_eq_of_forall fun c hc => ?_
    have hne : c ≠ 0 := by
      rintro rfl
      exact h.2 (List.mem_of_mem_drop hc)
    simp [hne]
  rw [skip_spec h.1 (by simp) hi, hname]

theorem extractDrive_spec (hbuf : 0 < buf.length) (h : Holds src t) (hdrive : hasDrive t = true)
    (hlen : t.length < 2 ^ 31) :
    ∃ buf', extractDrive buf src = some (buf', (driveOf t).length) ∧ buf'.length = buf.length ∧
      Holds buf' ((driveOf t).take (buf.length - 1)) := by
  have hbegins := driveOf_isPrefix t
  obtain ⟨rest, hrest⟩ := hasDrive_iff.mp hdrive
  have htwo : 2 ≤ t.length := by
    rw [hrest]
    simp
  have hend : 2 + ((t.drop 2).takeWhile (· ≠ slash)).length = (driveOf t).length := by
    unfold driveOf
    rw [List.length_append, List.length_take, min_eq_left htwo]
  have hskip := h.skipName htwo
  rw [hend] at hskip
  obtain ⟨buf', hcopy, hsize, hholds⟩ := copyText_spec hbuf (hbegins.trans h.begins)
    (fun hmem => h.2 (hbegins.subset hmem)) (by have := hbegins.length_le; omega)
  refine ⟨buf', ?_, hsize, hholds⟩
  unfold extractDrive
  rw [bind_of_eq hskip, bind_of_eq hcopy]
  rfl

/-- The name of the active drive -/
def activeText (active : Option CString) : Str := active.elim [] CString.text

theorem driveLetter_eq (active : Option CString) :
    driveLetter active = some ((activeText active).headD 65) ∧ (activeText active).headD 65 ≠ 0 := by
  cases active with
  | none => exact ⟨rfl, by decide⟩
  | some name =>
    have hname := name.holds
    have hload : driveLetter (some name) =
        some (if name.text.headD 0 ≠ 0 then name.text.headD 0 else 65) := bind_of_eq hname.first _
    unfold activeText
    rw [hload, Option.elim_some]
    cases htext : name.text with
    | nil => exact ⟨rfl, by decide⟩
    | cons c cs =>
      have hc : c ≠ 0 := by
        rintro rfl
        rw [htext] at hname
        exact hname.2 List.mem_cons_self
      exact ⟨congrArg some (if_pos hc), hc⟩

theorem zero_not_mem_letterPrefix (active : Option CString) : 0 ∉ letterPrefix (activeText active) := by
  have hslash : (0 : UInt8) ≠ slash := by decide
  have hne := (driveLetter_eq active).2
  intro hmem
  rcases List.mem_cons.mp hmem with hmem | hmem
  · exact hslash hmem
  rcases List.mem_cons.mp hmem with hmem | hmem
  · exact hslash hmem
  · exact hne (List.mem_singleton.mp hmem).symm

theorem letterDrive_spec (hbuf : 4 ≤ buf.length) (active : Option CString) :
    ∃ buf', letterDrive buf active = some buf' ∧ buf'.length = buf.length ∧
      Holds buf' (letterPrefix (activeText active)) := by
  have hletter := (driveLetter_eq active).1
  obtain ⟨b₁, h₁, hs₁, hp₁⟩ := store_prefix slash (List.nil_prefix (l := buf)) (by rw [List.length_nil]; omega)
  obtain ⟨b₂, h₂, hs₂, hp₂⟩ := store_prefix slash hp₁ (by simp; omega)
  obtain ⟨b₃, h₃, hs₃, hp₃⟩ := store_prefix ((activeText active).headD 65) hp₂ (by simp; omega)
  obtain ⟨b₄, h₄, hs₄, hp₄⟩ := store_prefix (0 : UInt8) hp₃ (by simp; omega)
  refine ⟨b₄, ?_, by omega, hp₄, zero_not_mem_letterPrefix active⟩
  unfold letterDrive
  rw [List.length_nil] at h₁
  rw [bind_of_eq h₁]
  refine (bind_of_eq h₂ _).trans ?_
  rw [bind_of_eq hletter]
  exact (bind_of_eq h₃ _).trans h₄

/-! ## The combined path -/

theorem not_mem_take {c : UInt8} {n : ℕ} (ht : c ∉ t) : c ∉ t.take n := fun h => ht (List.mem_of_mem_take h)

/-- The working directory in `combined`, with a slash behind it -/
def closedBase (w : Str) : Str :=
  if appendTo 512 [] w ≠ [] ∧ (appendTo 512 [] w).getLast? ≠ some slash then
    appendTo 512 (appendTo 512 [] w) [slash]
  else appendTo 512 [] w

theorem not_mem_slash : (0 : UInt8) ∉ [slash] := by decide

theorem closeBase_spec (hbuf : buf.length = 512) (h : Holds buf (appendTo 512 [] u)) :
    ∃ buf', closeBase buf (appendTo 512 [] u).length = some (buf', (closedBase u).length) ∧
      buf'.length = 512 ∧ Holds buf' (closedBase u) := by
  generalize hbase : appendTo 512 [] u = base at h
  have hle : base.length ≤ 511 := by
    rw [← hbase]
    exact List.length_take_le _ _
  have hlast : (if base.length > 0 then do
        let c ← Buffers.load buf (base.length - 1)
        pure (decide (c ≠ slash))
      else pure false) = some (decide (base ≠ [] ∧ base.getLast? ≠ some slash)) := by
    cases hempty : base with
    | nil => rfl
    | cons c cs =>
      rw [← hempty, if_pos (by rw [hempty]; simp), bind_of_eq (h.load (by omega))]
      have hget : base.getLast? = some (base.getD (base.length - 1) 0) := by
        rw [List.getLast?_eq_getElem?, List.getD_eq_getElem?_getD,
          List.getElem?_eq_getElem (by rw [hempty]; simp)]
        rfl
      have hne : base ≠ [] := by rw [hempty]; exact List.cons_ne_nil c cs
      rw [hget]
      simp [hne]
  unfold closeBase closedBase
  rw [bind_of_eq hlast, hbase, hbuf]
  simp only [decide_eq_true_eq]
  split
  next hopen =>
    -- the slash has room
    have hcut : appendTo 512 base [slash] = base ++ [slash] :=
      List.take_of_length_le (by rw [List.length_append, List.length_singleton]; omega)
    obtain ⟨b₁, h₁, hs₁, hp₁⟩ := store_prefix slash h.begins (by omega)
    obtain ⟨b₂, h₂, hs₂, hp₂⟩ := store_prefix (0 : UInt8) hp₁
      (by rw [List.length_append, List.length_singleton]; omega)
    rw [List.length_append, List.length_singleton] at h₂
    rw [if_pos hopen.1, hcut, bind_of_eq h₁, bind_of_eq h₂, List.length_append, List.length_singleton]
    refine ⟨b₂, rfl, by omega, hp₂, ?_⟩
    rw [← hcut]
    exact not_mem_appendTo h.2 not_mem_slash
  next hclosed =>
    have hsame : (if base ≠ [] ∧ base.getLast? ≠ some slash then appendTo 512 base [slash] else base) =
        base := by
      split
      next hopen =>
        have hfull : base.length = 511 := by
          by_contra hne
          exact hclosed ⟨hopen, by omega⟩
        unfold appendTo
        rw [List.take_append_of_le_length (by omega), List.take_of_length_le (by omega)]
      next => rfl
    rw [hsame]
    exact ⟨buf, rfl, hbuf, h⟩

/-- The combined path is that of the functional model, cut to 511 bytes. -/
theorem combineInto_spec {p w : Str} (frame : Frame) {path cwd : Str} (active : Option CString)
    (hp : Holds path p) (hw : Holds cwd w) (hplen : p.length < 2 ^ 31) (hwlen : w.length < 2 ^ 31) :
    ∃ combined, combineInto frame path cwd active = some combined ∧ combined.length = 512 ∧
      Holds combined (combinePath w (activeText active) p) := by
  have hsize : (frame.combined.set 0 0).length = 512 := by rw [List.length_set, frame.combined_length]
  have hstore : store frame.combined 0 0 = some (frame.combined.set 0 0) :=
    store_of_lt 0 (by rw [frame.combined_length]; omega)
  have hpos : 0 < (frame.combined.set 0 0).length := by omega
  unfold combineInto combinePath
  rw [bind_of_eq hstore, bind_of_eq hp.hasDriveAt, bind_of_eq hp.first]
  by_cases hdrive : hasDrive p = true
  · -- a drive of its own
    rw [if_pos hdrive, if_pos hdrive, bind_of_eq (hp.strLen hplen)]
    obtain ⟨buf', hcopy, hsize', hholds⟩ := copyText_spec hpos hp.begins hp.2 (by omega)
    rw [bind_of_eq hcopy]
    rw [hsize] at hsize' hholds
    exact ⟨buf', rfl, hsize', hholds⟩
  rw [if_neg hdrive, if_neg hdrive]
  have hfirst : p.headD 0 = slash ↔ p.head? = some slash := by
    cases p with
    | nil => exact ⟨fun h => absurd h (by decide), fun h => absurd h (by decide)⟩
    | cons c cs => simp
  by_cases habs : p.head? = some slash
  · -- behind a drive
    rw [if_pos (hfirst.mpr habs), if_pos habs]
    have hpref : (frame.drivePref.set 0 0).length = 32 := by rw [List.length_set, frame.drivePref_length]
    have hstore' : store frame.drivePref 0 0 = some (frame.drivePref.set 0 0) :=
      store_of_lt 0 (by rw [frame.drivePref_length]; omega)
    have hpos' : 0 < (frame.drivePref.set 0 0).length := by omega
    have hfour : 4 ≤ (frame.drivePref.set 0 0).length := by omega
    rw [bind_of_eq hstore', bind_of_eq hw.hasDriveAt]
    dsimp only
    obtain ⟨pref, hexec, hplen', hholds, hle⟩ : ∃ pref,
        (if hasDrive w = true then do
          let (drivePref, _) ← extractDrive (frame.drivePref.set 0 0) cwd
          pure drivePref
        else letterDrive (frame.drivePref.set 0 0) active) = some pref ∧ pref.length = 32 ∧
        Holds pref (if hasDrive w = true then (driveOf w).take 31 else letterPrefix (activeText active)) ∧
        (if hasDrive w = true then (driveOf w).take 31 else letterPrefix (activeText active)).length ≤ 31 := by
      split
      next hd =>
        obtain ⟨buf', hdrive', hsize', hholds⟩ := extractDrive_spec hpos' hw hd hwlen
        rw [hpref] at hsize' hholds
        refine ⟨buf', ?_, hsize', hholds, List.length_take_le _ _⟩
        rw [bind_of_eq hdrive']
        rfl
      next hd =>
        obtain ⟨buf', hletter, hsize', hholds⟩ := letterDrive_spec hfour active
        rw [hpref] at hsize'
        exact ⟨buf', hletter, hsize', hholds, by simp [letterPrefix]⟩
    rw [bind_of_eq hexec]
    generalize (if hasDrive w = true then (driveOf w).take 31 else letterPrefix (activeText active)) = d at *
    rw [bind_of_eq (hholds.strLen (by omega))]
    obtain ⟨b₁, hcopy, hs₁, hp₁⟩ := memCopy_prefix (s := 0) (List.nil_prefix (l := frame.combined.set 0 0))
      hholds.begins (Nat.zero_le _) (by rw [List.length_nil]; omega)
    rw [List.nil_append] at hp₁
    rw [List.length_nil] at hcopy
    rw [bind_of_eq hcopy, bind_of_eq (hp.strLen hplen)]
    obtain ⟨b₂, happend, hs₂, hh₂⟩ := appendText_spec hp₁ (by omega) hholds.2 hp (by omega)
    have hb₁ : b₁.length = 512 := hs₁.trans hsize
    rw [hb₁] at hs₂ hh₂
    exact ⟨b₂, happend, hs₂, hh₂⟩
  · -- behind the working directory
    rw [if_neg fun h => habs (hfirst.mp h), if_neg habs, bind_of_eq (hw.strLen hwlen)]
    obtain ⟨b₁, hcopy, hs₁, hh₁⟩ := copyText_spec hpos hw.begins hw.2 (by omega)
    rw [hsize] at hcopy hs₁ hh₁
    rw [bind_of_eq hcopy]
    obtain ⟨b₂, hclose, hs₂, hh₂⟩ := closeBase_spec hs₁ hh₁
    dsimp only
    rw [bind_of_eq hclose]
    dsimp only
    rw [bind_of_eq (hp.strLen hplen)]
    have hlt : (closedBase w).length < b₂.length := hh₂.length_lt
    obtain ⟨b₃, happend, hs₃, hh₃⟩ := appendText_spec hh₂.begins hlt hh₂.2 hp (by omega)
    rw [hs₂] at hs₃ hh₃
    exact ⟨b₃, happend, hs₃, hh₃⟩

/-! ## The segments -/

/-- A part of the text in a buffer -/
def PartAt (buf : Str) (i : ℕ) (t : Str) : Prop := i ≤ buf.length ∧ t <+: buf.drop i

/-- The tokens are these segments of the text in the buffer. -/
structure Tokens.Denotes (buf : Str) (tokens : Tokens) (segs : List Str) : Prop where
  segments_length : tokens.segments.length = 32
  segLens_length : tokens.segLens.length = 32
  depth : tokens.depth = segs.length
  length_le : segs.length ≤ 32
  part : ∀ (i : ℕ) (seg : Str), segs[i]? = some seg → ∃ off, tokens.segments[i]? = some off ∧
    tokens.segLens[i]? = some seg.length ∧ PartAt buf off seg

variable {segs : List Str} {tokens : Tokens}

theorem dotsAt_eq {seg : Str} {i n : ℕ} (h : PartAt buf i seg) (hn : seg.length = n) :
    dotsAt buf i n = some (decide (seg = List.replicate n dot)) := by
  induction n generalizing i seg with
  | zero =>
    rw [List.length_eq_zero_iff] at hn
    rw [hn]
    rfl
  | succ n ih =>
    obtain ⟨c, cs, rfl⟩ := List.exists_cons_of_length_eq_add_one hn
    obtain ⟨hle, rest, hrest⟩ := h
    have hload : Buffers.load buf i = some c := by
      have hget : (buf.drop i)[0]? = some c := by rw [← hrest]; rfl
      rw [List.getElem?_drop, Nat.add_zero] at hget
      exact hget
    have hdrop : buf.drop (i + 1) = cs ++ rest := by
      rw [← List.drop_drop, ← hrest]
      rfl
    have hlt : i + 1 ≤ buf.length := by
      have hi := (List.getElem?_eq_some_iff.mp hload).1
      omega
    have hnext := ih (i := i + 1) ⟨hlt, rest, hdrop.symm⟩ (Nat.succ.inj hn)
    unfold dotsAt
    rw [bind_of_eq hload, List.replicate_succ, hnext]
    split
    next hc => simp [hc]
    next hc => simp [hc]

/-- `..` gives up the last segment. -/
theorem Tokens.Denotes.up (h : tokens.Denotes buf segs) :
    (if tokens.depth > 0 then { tokens with depth := tokens.depth - 1 } else tokens).Denotes buf
      segs.dropLast := by
  have hlen : segs.dropLast.length = segs.length - 1 := List.length_dropLast
  have hdepth := h.depth
  have hle := h.length_le
  have hpart : ∀ (i : ℕ) (seg : Str), segs.dropLast[i]? = some seg → segs[i]? = some seg := fun i seg hseg => by
    have hi := (List.getElem?_eq_some_iff.mp hseg).1
    rw [← hseg, List.getElem?_dropLast, if_pos (by omega)]
  split
  · exact ⟨h.segments_length, h.segLens_length, by dsimp only; omega, by omega,
      fun i seg hseg => h.part i seg (hpart i seg hseg)⟩
  · exact ⟨h.segments_length, h.segLens_length, by omega, by omega,
      fun i seg hseg => h.part i seg (hpart i seg hseg)⟩

/-- A segment behind the others -/
theorem Tokens.Denotes.push (h : tokens.Denotes buf segs) {off : ℕ} {seg : Str} (hseg : PartAt buf off seg)
    (hlt : segs.length < 32) :
    ∃ segments segLens, store tokens.segments tokens.depth off = some segments ∧
      store tokens.segLens tokens.depth seg.length = some segLens ∧
      (Tokens.mk segments segLens (tokens.depth + 1)).Denotes buf (segs ++ [seg]) := by
  have hdepth := h.depth
  have hsegments := h.segments_length
  have hsegLens := h.segLens_length
  refine ⟨_, _, store_of_lt off (by omega), store_of_lt seg.length (by omega), ?_⟩
  constructor
  · rw [List.length_set, hsegments]
  · rw [List.length_set, hsegLens]
  · rw [List.length_append, List.length_singleton, hdepth]
  · rw [List.length_append, List.length_singleton]
    omega
  · intro i s hs
    rcases lt_trichotomy i segs.length with hi | hi | hi
    · rw [List.getElem?_append_left hi] at hs
      obtain ⟨o, ho, hlen, hpart⟩ := h.part i s hs
      refine ⟨o, ?_, ?_, hpart⟩
      · rw [List.getElem?_set_ne (by omega), ho]
      · rw [List.getElem?_set_ne (by omega), hlen]
    · subst hi
      rw [List.getElem?_append_right le_rfl, Nat.sub_self] at hs
      obtain rfl := Option.some.inj hs
      refine ⟨off, ?_, ?_, hseg⟩
      · dsimp only
        rw [hdepth, List.getElem?_set_self (by omega)]
      · dsimp only
        rw [hdepth, List.getElem?_set_self (by omega)]
    · rw [List.getElem?_eq_none (by rw [List.length_append, List.length_singleton]; omega)] at hs
      cases hs

/-- The scan of the slashes ends where they do. -/
theorem Holds.skipSlashes (h : Holds buf t) {i : ℕ} (hi : i ≤ t.length) :
    ∃ j, skip (· = slash) buf i = some j ∧ i ≤ j ∧ j ≤ t.length ∧
      t.drop j = (t.drop i).dropWhile (· = slash) :=
  ⟨_, skip_spec h.1 (by decide) hi, Nat.le_add_right _ _, length_skipped_le _ hi, drop_skipped _ t i⟩

/-- The text from an index on begins with the byte at the index. -/
theorem Holds.load_drop (h : Holds buf t) {i : ℕ} (hi : i ≤ t.length) :
    Buffers.load buf i = some ((t.drop i).headD 0) ∧ ((t.drop i).headD 0 = 0 → t.drop i = []) := by
  rw [h.load hi, List.getD_eq_getElem?_getD, ← List.head?_drop]
  cases hdrop : t.drop i with
  | nil => exact ⟨rfl, fun _ => rfl⟩
  | cons c cs =>
    refine ⟨rfl, fun hc => ?_⟩
    have hmem : c ∈ t := List.mem_of_mem_drop (by rw [hdrop]; exact List.mem_cons_self)
    change c = 0 at hc
    rw [hc] at hmem
    exact absurd hmem h.2

/-- The comparisons of a segment with `.` and `..` -/
theorem matchDots_eq {seg : Str} {i : ℕ} (h : PartAt buf i seg) (n : ℕ) :
    (if seg.length = n then dotsAt buf i n else pure false) =
      some (decide (seg = List.replicate n dot)) := by
  split
  next hn => exact dotsAt_eq h hn
  next hn =>
    have hne : seg ≠ List.replicate n dot := by
      rintro rfl
      exact hn (List.length_replicate ..)
    rw [decide_eq_false hne]
    rfl

/-- What the loop does with one segment that it has found -/
def tokenStep (segs : List Str) (seg : Str) : List Str := pushAtMost (· = str ".") (· = str "..") 32 segs seg

/-- The loop finds the segments of the text, and ends. -/
theorem tokenize_spec (h : Holds buf t) {fuel scan : ℕ} (hscan : scan ≤ t.length)
    (hfuel : t.length < scan + fuel) (htokens : tokens.Denotes buf segs) :
    ∃ tokens', tokenize buf fuel scan tokens = some tokens' ∧
      tokens'.Denotes buf ((segments slash (t.drop scan)).foldl tokenStep segs) := by
  induction fuel generalizing scan tokens segs with
  | zero => omega
  | succ fuel ih =>
    unfold tokenize
    obtain ⟨hload, hzero⟩ := h.load_drop hscan
    rw [bind_of_eq hload]
    by_cases hend : (t.drop scan).headD 0 = 0
    · rw [if_pos hend, hzero hend]
      exact ⟨tokens, rfl, htokens⟩
    rw [if_neg hend]
    obtain ⟨segStart, hskip, hge, hstart, hdrop⟩ := h.skipSlashes hscan
    obtain ⟨hload', hzero'⟩ := h.load_drop hstart
    rw [bind_of_eq hskip, bind_of_eq hload', ← segments_dropWhile, ← hdrop]
    by_cases hend' : (t.drop segStart).headD 0 = 0
    · rw [if_pos hend', hzero' hend']
      exact ⟨tokens, rfl, htokens⟩
    rw [if_neg hend', bind_of_eq (h.skipName hstart)]
    have hne : t.drop segStart ≠ [] := fun hnil => hend' (by rw [hnil]; rfl)
    have hhead : (t.drop segStart).head? ≠ some slash := by
      have hnot := List.head?_dropWhile_not (fun x : UInt8 => decide (x = slash)) (t.drop scan)
      rw [← hdrop] at hnot
      intro hslash
      rw [hslash] at hnot
      simp at hnot
    have hrest := drop_skipped (· ≠ slash) t segStart
    have hle := length_skipped_le (· ≠ slash) hstart
    have hbegins := List.takeWhile_prefix (l := t.drop segStart) (· ≠ slash)
    have hmem := mem_segments (by rw [segments_eq_cons hne hhead]; exact List.mem_cons_self)
    rw [segments_eq_cons hne hhead, List.foldl_cons, ← hrest]
    generalize (t.drop segStart).takeWhile (· ≠ slash) = seg at *
    have hpos : 0 < seg.length := List.length_pos_iff.mpr hmem.1
    have hpart : PartAt buf segStart seg :=
      ⟨by have := h.length_lt; omega, hbegins.trans (h.begins.drop segStart)⟩
    rw [bind_of_eq (subtract_of_le (Nat.le_add_right _ _)), Nat.add_sub_cancel_left]
    have hdot : (if seg.length = 1 then dotsAt buf segStart 1 else pure false) =
        some (decide (seg = str ".")) := matchDots_eq hpart 1
    have hdotdot : (if seg.length = 2 then dotsAt buf segStart 2 else pure false) =
        some (decide (seg = str "..")) := matchDots_eq hpart 2
    rw [bind_of_eq hdot, bind_of_eq hdotdot]
    simp only [decide_eq_true_eq]
    have hnext : ∀ {tokens segs}, tokens.Denotes buf segs →
        ∃ tokens', tokenize buf fuel (segStart + seg.length) tokens = some tokens' ∧
          tokens'.Denotes buf
            ((segments slash (t.drop (segStart + seg.length))).foldl tokenStep segs) :=
      fun hdenotes => ih (by omega) (by omega) hdenotes
    unfold tokenStep pushAtMost at *
    split
    · exact hnext htokens
    split
    · exact hnext htokens.up
    rw [htokens.depth]
    split
    next hlt =>
      obtain ⟨segments, segLens, hstore, hstore', hdenotes⟩ := htokens.push hpart hlt
      rw [htokens.depth] at hstore hstore' hdenotes
      rw [bind_of_eq hstore, bind_of_eq hstore']
      exact hnext hdenotes
    · exact hnext htokens

/-! ## The output -/

variable {out acc : Str}

theorem length_appendTo_lt (hout : 0 < out.length) : (appendTo out.length t u).length < out.length := by
  have hle : (appendTo out.length t u).length ≤ out.length - 1 := List.length_take_le _ _
  omega

theorem putSlash_spec (hacc : acc <+: out) (hlt : acc.length < out.length) :
    ∃ out', putSlash out acc.length = some (out', (appendTo out.length acc [slash]).length) ∧
      out'.length = out.length ∧ appendTo out.length acc [slash] <+: out' := by
  have hlast : subtract out.length 1 = some (out.length - 1) := subtract_of_le (by omega)
  unfold putSlash
  rw [bind_of_eq hlast]
  split
  next hroom =>
    have hcut : appendTo out.length acc [slash] = acc ++ [slash] :=
      List.take_of_length_le (by rw [List.length_append, List.length_singleton]; omega)
    obtain ⟨out', hstore, hsize, hbegins⟩ := store_prefix slash hacc hlt
    rw [bind_of_eq hstore, hcut, List.length_append, List.length_singleton]
    exact ⟨out', rfl, hsize, hbegins⟩
  next hfull =>
    have hcut : appendTo out.length acc [slash] = acc := by
      unfold appendTo
      rw [List.take_append_of_le_length (by omega), List.take_of_length_le (by omega)]
    rw [hcut]
    exact ⟨out, rfl, rfl, hacc⟩

/-- The output behind which one more segment has been put -/
def putSegment (size : ℕ) (acc seg : Str) : Str := appendTo size (appendTo size acc [slash]) seg

theorem putSegments_spec (htokens : tokens.Denotes buf segs) (hsize : buf.length = 512) {n i : ℕ}
    (hn : i + n = segs.length) (hacc : acc <+: out) (hlt : acc.length < out.length)
    (hsum : acc.length + n * 513 < 2 ^ 32) :
    ∃ out', putSegments buf tokens n i out acc.length =
        some (out', ((segs.drop i).foldl (putSegment out.length) acc).length) ∧
      out'.length = out.length ∧ (segs.drop i).foldl (putSegment out.length) acc <+: out' ∧
      ((segs.drop i).foldl (putSegment out.length) acc).length < out.length := by
  induction n generalizing i out acc with
  | zero =>
    rw [List.drop_of_length_le (by omega)]
    exact ⟨out, rfl, rfl, hacc, hlt⟩
  | succ n ih =>
    have hi : i < segs.length := by omega
    obtain ⟨off, hoff, hlen, hle, hpart⟩ := htokens.part i segs[i] (List.getElem?_eq_getElem hi)
    rw [List.drop_eq_getElem_cons hi, List.foldl_cons]
    generalize segs[i] = seg at *
    obtain ⟨out₁, hslash, hs₁, hp₁⟩ := putSlash_spec hacc hlt
    have hlt₁ : (appendTo out.length acc [slash]).length < out₁.length := by
      rw [hs₁]
      exact length_appendTo_lt (by omega)
    have hle₁ : (appendTo out.length acc [slash]).length ≤ acc.length + 1 := by
      refine (List.length_take_le' _ _).trans ?_
      rw [List.length_append, List.length_singleton]
    have hseg : seg.length ≤ 512 := by
      have hlen' := hpart.length_le
      rw [List.length_drop] at hlen'
      omega
    obtain ⟨m, out₂, hroom, hcopy, hs₂, hp₂, hm⟩ := memCopy_room hp₁ hlt₁ hpart hle (by omega)
    rw [hs₁] at hp₂ hm
    change putSegment out.length acc seg <+: out₂ at hp₂
    change (putSegment out.length acc seg).length = _ at hm
    have hs : out₂.length = out.length := hs₂.trans hs₁
    have hlt₂ : (putSegment out.length acc seg).length < out₂.length := by
      rw [hs]
      exact length_appendTo_lt (by omega)
    have hm' : m ≤ seg.length := by
      have hle₂ : (putSegment out.length acc seg).length ≤
          (appendTo out.length acc [slash]).length + seg.length := by
        refine (List.length_take_le' _ _).trans ?_
        rw [List.length_append]
      omega
    obtain ⟨out', hput, hs', hp', hlt'⟩ := ih (i := i + 1) (by omega) hp₂ hlt₂ (by omega)
    rw [hs] at hput hs' hp' hlt'
    refine ⟨out', ?_, hs', hp', hlt'⟩
    unfold putSegments
    rw [bind_of_eq hslash]
    dsimp only
    rw [bind_of_eq (show load tokens.segLens i = _ from hlen), bind_of_eq hroom,
      bind_of_eq (show load tokens.segments i = _ from hoff), bind_of_eq hcopy, ← hm]
    exact hput

theorem zero_not_mem_canonicalize (outSize : ℕ) {driveName combined : Str}
    (hname : 0 ∉ letterPrefix driveName) (hcombined : 0 ∉ combined) :
    0 ∉ canonicalize outSize driveName combined := by
  have hbegins : 0 ∉ prefixOf driveName combined := by
    unfold prefixOf
    split
    · exact fun hmem => hcombined ((driveOf_isPrefix combined).subset hmem)
    · exact hname
  have hrest : ∀ c ∈ restOf combined, c ∈ combined := by
    intro c hc
    unfold restOf at hc
    split at hc
    · exact List.mem_of_mem_drop ((List.dropWhile_sublist _).subset hc)
    · exact hc
  rw [canonicalize_eq]
  refine not_mem_take ?_
  unfold rooted
  intro hmem
  rcases List.mem_append.mp hmem with hmem | hmem
  · exact not_mem_take hbegins hmem
  split at hmem
  · exact not_mem_slash hmem
  · obtain ⟨seg, hseg, hmem⟩ := List.mem_flatMap.mp hmem
    rcases List.mem_cons.mp hmem with hmem | hmem
    · exact absurd hmem (by decide)
    have hseg' : seg ∈ segments slash (restOf combined) :=
      ((keptSegments_sublist _).trans (foldl_push_sublist _)).subset hseg
    exact hcombined (hrest _ (mem_of_mem_segments hseg' hmem))

/-- A prefix and segments as the code puts them together in a buffer -/
def assembled (size : ℕ) (d : Str) (segs : List Str) : Str :=
  if segs = [] then appendTo size (appendTo size [] d) [slash]
  else segs.foldl (putSegment size) (appendTo size [] d)

theorem canonicalize_eq_assembled (size : ℕ) (driveName t : Str) :
    canonicalize size driveName t = assembled size ((prefixOf driveName t).take 31)
      ((segments slash (restOf t)).foldl tokenStep []) := by
  unfold canonicalize
  rw [take_prefixOf]
  dsimp only
  rw [foldl_pushSegment]
  rfl

/-- The output is the normalized text, cut to the buffer. -/
theorem assemble_spec {d : Str} {drivePrefix : Str} (hd : Holds drivePrefix d) (hdlen : d.length ≤ 31)
    (htokens : tokens.Denotes buf segs) (hsize : buf.length = 512) (hout : 0 < out.length) :
    ∃ out', assemble drivePrefix buf tokens out = some out' ∧ out'.length = out.length ∧
      assembled out.length d segs ++ [0] <+: out' := by
  obtain ⟨n, out₁, hroom, hcopy, hs₁, hp₁, hn⟩ := memCopy_room (s := 0)
    List.nil_prefix hout hd.begins (Nat.zero_le _) (by rw [List.length_nil]; omega)
  rw [List.length_nil] at hroom hcopy hn
  rw [Nat.zero_add] at hn
  change appendTo out.length [] d <+: out₁ at hp₁
  change (appendTo out.length [] d).length = n at hn
  have hlt₁ : (appendTo out.length [] d).length < out₁.length := by
    rw [hs₁]
    exact length_appendTo_lt hout
  have hle₁ : (appendTo out.length [] d).length ≤ d.length := List.length_take_le' _ _
  have hdepth := htokens.depth
  have hsegs := htokens.length_le
  obtain ⟨out₂, hput, hs₂, hp₂, hlt₂⟩ : ∃ out₂,
      (if tokens.depth = 0 then putSlash out₁ n else putSegments buf tokens tokens.depth 0 out₁ n) =
        some (out₂, (assembled out.length d segs).length) ∧
      out₂.length = out.length ∧ assembled out.length d segs <+: out₂ ∧
      (assembled out.length d segs).length < out₂.length := by
    unfold assembled
    rw [← hn, hdepth]
    by_cases hnil : segs = []
    · rw [if_pos hnil, if_pos (by rw [hnil]; rfl)]
      obtain ⟨out₂, hput, hs₂, hp₂⟩ := putSlash_spec hp₁ hlt₁
      rw [hs₁] at hput hs₂ hp₂
      refine ⟨out₂, hput, hs₂, hp₂, ?_⟩
      rw [hs₂]
      exact length_appendTo_lt hout
    · rw [if_neg hnil, if_neg fun h => hnil (List.length_eq_zero_iff.mp h)]
      obtain ⟨out₂, hput, hs₂, hp₂, hlt₂⟩ := putSegments_spec htokens hsize (Nat.zero_add segs.length) hp₁
        hlt₁ (by omega)
      rw [List.drop_zero] at hput hp₂ hlt₂
      rw [hs₁] at hput hs₂ hp₂ hlt₂
      exact ⟨out₂, hput, hs₂, hp₂, by omega⟩
  obtain ⟨out₃, hstore, hs₃, hp₃⟩ := store_prefix (0 : UInt8) hp₂ hlt₂
  refine ⟨out₃, ?_, hs₃.trans hs₂, hp₃⟩
  unfold assemble
  rw [bind_of_eq (hd.strLen (by omega)), bind_of_eq hroom, bind_of_eq hcopy, bind_of_eq hput]
  exact hstore

/-! ## The call -/

/-- The working directory, or the root of the first drive -/
def cwdText (cwd : CString) : Str := if cwd.text = [] then str "//A/" else cwd.text

/-- The working directory that the call goes on with -/
theorem currentDir_holds (cwd : CString) :
    Holds (if cwd.text.headD 0 = 0 then CString.ofText (str "//A/") else cwd).bytes (cwdText cwd) := by
  unfold cwdText
  by_cases hempty : cwd.text = []
  · rw [if_pos hempty, if_pos (cwd.holds.first_eq_zero_iff.mpr hempty)]
    have hholds := (CString.ofText (str "//A/")).holds
    rwa [CString.text_ofText (by decide)] at hholds
  · rw [if_neg hempty, if_neg fun h => hempty (cwd.holds.first_eq_zero_iff.mp h)]
    exact cwd.holds

theorem length_cwdText_lt {cwd : CString} (hcwd : cwd.text.length < 2 ^ 31) :
    (cwdText cwd).length < 2 ^ 31 := by
  unfold cwdText
  split
  · decide
  · exact hcwd

/-- Path normalisation stays within its buffers. For every path and working directory of less than `2 ^ 31`
bytes, whatever is in the arrays of the frame, and for every output buffer that is not empty, all accesses
of `fs_resolve_path` are within their arrays, no subtraction is negative, and the output begins with the
resolved text and a terminator, with no terminator in the text. -/
theorem resolve_path_in_bounds (frame : Frame) (path cwd : CString) (active : Option CString) (out : Str)
    (hpath : path.text.length < 2 ^ 31) (hcwd : cwd.text.length < 2 ^ 31) (hout : 1 ≤ out.length) :
    ∃ out', fsResolvePathInto frame path cwd active out = some out' ∧ out'.length = out.length ∧
      Holds out' (resolvedText out.length (cwdText cwd) (activeText active) path.text) := by
  have hstore : store out 0 0 = some (out.set 0 0) := store_of_lt 0 (by omega)
  have hsize : (out.set 0 0).length = out.length := List.length_set
  have hcur := currentDir_holds cwd
  have hcurlen := length_cwdText_lt hcwd
  have hp := path.holds
  unfold fsResolvePathInto resolvedText
  rw [if_neg (by omega), bind_of_eq hstore, bind_of_eq cwd.holds.first]
  dsimp only
  generalize (if cwd.text.headD 0 = 0 then CString.ofText (str "//A/") else cwd) = cur at *
  generalize cwdText cwd = w at *
  rw [bind_of_eq hp.first]
  by_cases hempty : path.text = []
  · -- the working directory itself
    rw [if_pos (hp.first_eq_zero_iff.mpr hempty), if_pos hempty, bind_of_eq (hcur.strLen hcurlen)]
    obtain ⟨out', hcopy, hs, hholds⟩ := copyText_spec (by rw [hsize]; exact hout) hcur.begins hcur.2
      (by omega)
    rw [hsize] at hs hholds
    rw [bind_of_eq hcopy]
    exact ⟨out', rfl, hs, hholds⟩
  rw [if_neg fun h => hempty (hp.first_eq_zero_iff.mp h), if_neg hempty]
  obtain ⟨combined, hcombine, hlen, hc⟩ := combineInto_spec frame active hp hcur hpath hcurlen
  generalize combinePath w (activeText active) path.text = t at *
  have htlen := hc.length_lt
  have hpref : store frame.drivePrefix 0 0 = some (frame.drivePrefix.set 0 0) :=
    store_of_lt 0 (by rw [frame.drivePrefix_length]; omega)
  have hpsize : (frame.drivePrefix.set 0 0).length = 32 := by
    rw [List.length_set, frame.drivePrefix_length]
  have hpos : 0 < (frame.drivePrefix.set 0 0).length := by omega
  have hfour : 4 ≤ (frame.drivePrefix.set 0 0).length := by omega
  rw [bind_of_eq hcombine, bind_of_eq hpref, bind_of_eq hc.hasDriveAt]
  obtain ⟨pref, scan, hexec, hd, hdlen, hscan, hdrop⟩ : ∃ pref scan,
      (if hasDrive t = true then extractDrive (frame.drivePrefix.set 0 0) combined
        else do
          let drivePrefix ← letterDrive (frame.drivePrefix.set 0 0) active
          pure (drivePrefix, 0)) = some (pref, scan) ∧
      Holds pref ((prefixOf (activeText active) t).take 31) ∧
      ((prefixOf (activeText active) t).take 31).length ≤ 31 ∧ scan ≤ t.length ∧
      t.drop scan = restOf t := by
    unfold prefixOf restOf
    split
    next hdrive =>
      obtain ⟨pref, hexec, hs, hholds⟩ := extractDrive_spec hpos hc hdrive (by omega)
      rw [hpsize] at hholds
      obtain ⟨-, hsplit, -⟩ := drive_split hdrive
      refine ⟨pref, _, hexec, hholds, List.length_take_le _ _, (driveOf_isPrefix t).length_le, ?_⟩
      nth_rewrite 2 [hsplit]
      exact List.drop_left
    next hdrive =>
      obtain ⟨pref, hexec, hs, hholds⟩ := letterDrive_spec hfour active
      refine ⟨pref, 0, ?_, hholds, List.length_take_le _ _, Nat.zero_le _, rfl⟩
      rw [bind_of_eq hexec]
      rfl
  have hnone : (Tokens.mk frame.segments frame.segLens 0).Denotes combined [] :=
    ⟨frame.segments_length, frame.segLens_length, rfl, Nat.zero_le _, fun i seg hseg => by
      rw [List.getElem?_nil] at hseg
      cases hseg⟩
  obtain ⟨tokens, htokenize, htokens⟩ := tokenize_spec hc hscan
    (show t.length < scan + combined.length by omega) hnone
  obtain ⟨out', hassemble, hs, hbegins⟩ := assemble_spec hd hdlen htokens hlen
    (by rw [hsize]; exact hout)
  rw [hsize] at hs hbegins
  rw [bind_of_eq hexec]
  dsimp only
  rw [bind_of_eq htokenize]
  rw [hdrop, ← canonicalize_eq_assembled] at hbegins
  exact ⟨out', hassemble, hs, hbegins,
    zero_not_mem_canonicalize _ (zero_not_mem_letterPrefix active) hc.2⟩

/-- A frame of zeros -/
def Frame.zero : Frame where
  combined := List.replicate 512 0
  drivePref := List.replicate 32 0
  drivePrefix := List.replicate 32 0
  segments := List.replicate 32 0
  segLens := List.replicate 32 0
  combined_length := List.length_replicate
  drivePref_length := List.length_replicate
  drivePrefix_length := List.length_replicate
  segments_length := List.length_replicate
  segLens_length := List.length_replicate

/-- An output of five bytes has room for the drive alone. -/
theorem resolve_path_in_five_bytes :
    ∃ out', fsResolvePathInto Frame.zero (CString.ofText (str "/bin/../sbin/ls")) (CString.ofText (str "//B/home"))
        none (List.replicate 5 255) = some out' ∧ out'.length = 5 ∧ Holds out' (str "//B/") := by
  have htext : resolvedText 5 (cwdText (CString.ofText (str "//B/home"))) (activeText none)
      (CString.ofText (str "/bin/../sbin/ls")).text = str "//B/" := by decide +kernel
  have h := resolve_path_in_bounds Frame.zero (CString.ofText (str "/bin/../sbin/ls"))
    (CString.ofText (str "//B/home")) none (List.replicate 5 255) (by decide +kernel) (by decide +kernel)
    (by decide)
  rwa [List.length_replicate, htext] at h

end Sandflea
