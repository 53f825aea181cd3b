import Sandflea.Lib.Bytes
import Sandflea.Lib.Runs

/-!
# Owned strings

`str_t`: a buffer that grows, which always holds a string with a NUL behind it. The growth can fail, and most of the
functions go on as if it had not; and the lengths are 32-bit numbers that wrap. The invariant of the header holds in
every state exactly if neither happens, and then the contents are what they should be if no view reads
the buffer after it was moved or written (`owned_strings`).
-/

namespace Sandflea

/-- `str_t`: the buffer from `data` on, or `null`; and whether a byte outside of `cap` bytes was written -/
structure OwnedStr where
  buf : Option Bytes
  len : UInt32
  cap : UInt32
  stray : Bool

/-- `str_view_t` as an argument: what it points into -/
inductive StrArg
  /-- Nothing -/
  | null (len : UInt32)
  /-- Memory of someone else -/
  | external (mem : Bytes) (len : UInt32)
  /-- The buffer of the string -/
  | internal (off : ℕ) (len : UInt32)

/-- What `kern_realloc` does. A new block has contents of its own behind what is copied, and so does the old one when
it was released. -/
inductive Realloc
  | fail
  | keep
  | move (fresh stale : Bytes)

namespace StrArg

/-- The length -/
def len : StrArg → UInt32
  | null n | external _ n | internal _ n => n

/-- The pointer is null, as one into the buffer is if there is none. -/
def isNull (buf : Option Bytes) : StrArg → Bool
  | null _ => true
  | external _ _ => false
  | internal _ _ => buf.isNone

/-- A byte, given the buffer and what is left of it if it was released -/
def read (old : Option Bytes) (b : Bytes) (i : ℕ) : StrArg → UInt8
  | null _ => 0
  | external mem _ => mem i
  | internal off _ => (old.getD b) (off + i)

/-- The bytes at the call -/
def bytes (buf : Option Bytes) (sv : StrArg) : List UInt8 :=
  if sv.isNull buf then [] else (List.range sv.len.toNat).map fun i => sv.read none (buf.getD Bytes.zeros) i

end StrArg

namespace Realloc

/-- What is left of the old buffer, if it was released -/
def stale : Realloc → Option Bytes
  | move _ stale => some stale
  | fail | keep => none

/-- The growth fails. -/
def failed : Realloc → Bool
  | fail => true
  | keep | move _ _ => false

end Realloc

namespace OwnedStr

/-- `STR_MIN_CAP` -/
def strMinCap : UInt32 := 16

/-! ## The functions -/

/-- `str_grow_cap` -/
def strGrowCap (current needed : UInt32) : UInt32 :=
  let next := if current ≠ 0 then current * 2 else strMinCap
  if next > needed then next else needed

/-- `s->data[i] = v` -/
def poke (s : OwnedStr) (i : ℕ) (v : UInt8) : OwnedStr :=
  { s with buf := s.buf.map (Function.update · i v), stray := s.stray || decide (s.cap.toNat ≤ i) }

/-- `kern_realloc`, and the update of the string if it succeeds. The second part is what is left of the old buffer.
A size of 0 releases the buffer. -/
def kernRealloc (s : OwnedStr) (size : UInt32) (out : Realloc) : OwnedStr × Option Bytes :=
  match s.buf, out with
  | none, .move fresh _ => ({ s with buf := some fresh, cap := size }, none)
  | none, .fail | none, .keep => (s, none)
  | some b, out =>
    if size = 0 then ({ s with buf := some (out.stale.getD b) }, none)
    else
      match out with
      | .fail => (s, none)
      | .keep => ({ s with cap := size }, none)
      | .move fresh stale =>
        ({ s with buf := some fun i => if i < s.cap.toNat then b i else fresh i, cap := size }, some stale)

/-- `str_realloc` -/
def strRealloc (s : OwnedStr) (newCap : UInt32) (out : Realloc) : OwnedStr × Option Bytes :=
  if newCap ≤ s.cap then (s, none)
  else s.kernRealloc (if newCap < strMinCap then strMinCap else newCap) out

/-- `str_ensure_cap` -/
def strEnsureCap (s : OwnedStr) (additional : UInt32) (out : Realloc) : OwnedStr × Option Bytes :=
  let needed := s.len + additional + 1
  if needed > s.cap then s.strRealloc (strGrowCap s.cap needed) out else (s, none)

/-- `mem_copy` from a view to the buffer, byte by byte -/
def copyView (s : OwnedStr) (dst : ℕ) (sv : StrArg) (old : Option Bytes) (n : ℕ) : OwnedStr :=
  (List.range n).foldl (fun s (i : ℕ) => s.poke (dst + i) (sv.read old (s.buf.getD Bytes.zeros) i)) s

/-- `s->len = l; s->data[s->len] = 0` -/
def terminate (s : OwnedStr) (l : UInt32) : OwnedStr := { s with len := l }.poke l.toNat 0

/-- `str_new` -/
def strNew (s : OwnedStr) (cap : UInt32) (out : Option Bytes) : OwnedStr :=
  let cap := if cap < strMinCap then strMinCap else cap
  match out with
  | none => { s with buf := none, len := 0, cap := 0 }
  | some fresh => { s with buf := some fresh, cap := cap }.terminate 0

/-- `str_from_view` -/
def strFromView (s : OwnedStr) (sv : StrArg) (out : Option Bytes) : OwnedStr :=
  let len := if sv.isNull s.buf then 0 else sv.len
  let cap := if len + 1 < strMinCap then strMinCap else len + 1
  match out with
  | none => { s with buf := none, len := len, cap := 0 }
  | some fresh => ({ s with buf := some fresh, cap := cap }.copyView 0 sv s.buf len.toNat).terminate len

/-- `str_append` -/
def strAppend (s : OwnedStr) (sv : StrArg) (out : Realloc) : OwnedStr :=
  if s.buf.isNone ∨ sv.len = 0 ∨ sv.isNull s.buf then s
  else
    let (t, old) := s.strEnsureCap sv.len out
    (t.copyView t.len.toNat sv old sv.len.toNat).terminate (t.len + sv.len)

/-- `str_push` -/
def strPush (s : OwnedStr) (c : UInt8) (out : Realloc) : OwnedStr :=
  if s.buf.isNone then s
  else
    let t := (s.strEnsureCap 1 out).1
    (t.poke t.len.toNat c).terminate (t.len + 1)

/-- `str_set`. A view into the buffer is moved to its start, which does nothing if it is there. -/
def strSet (s : OwnedStr) (sv : StrArg) (out : Realloc) : OwnedStr :=
  if s.buf.isNone then s
  else
    let needed := sv.len + 1
    let (t, old) :=
      if needed > s.cap then s.strRealloc (if needed > strMinCap then needed else strMinCap) out else (s, none)
    if t.buf.isNone then t
    else
      let t :=
        if sv.isNull s.buf ∨ sv.len = 0 then t
        else
          match sv, old with
          | .internal 0 _, none => t
          | _, _ => t.copyView 0 sv old sv.len.toNat
      t.terminate sv.len

/-- `str_clear` -/
def strClear (s : OwnedStr) : OwnedStr := if s.buf.isNone then s else s.terminate 0

/-- `str_reserve` -/
def strReserve (s : OwnedStr) (newCap : UInt32) (out : Realloc) : OwnedStr :=
  if newCap > s.cap then (s.strRealloc newCap out).1 else s

/-- `str_shrink` -/
def strShrink (s : OwnedStr) (out : Realloc) : OwnedStr :=
  if s.buf.isNone then s
  else
    let exact := s.len + 1
    if exact < s.cap then (s.kernRealloc exact out).1 else s

end OwnedStr

/-! ## Runs -/

/-- An operation, with what the allocator does -/
inductive StrOp
  | new (cap : UInt32) (out : Option Bytes)
  | fromView (sv : StrArg) (out : Option Bytes)
  | append (sv : StrArg) (out : Realloc)
  | push (c : UInt8) (out : Realloc)
  | set (sv : StrArg) (out : Realloc)
  | clear
  | reserve (newCap : UInt32) (out : Realloc)
  | shrink (out : Realloc)

/-- A string, with the contents it should have, if there is one -/
structure StrRun where
  str : OwnedStr
  model : Option (List UInt8)

namespace StrOp

/-- The string after an operation -/
def exec (s : OwnedStr) : StrOp → OwnedStr
  | new cap out => s.strNew cap out
  | fromView sv out => s.strFromView sv out
  | append sv out => s.strAppend sv out
  | push c out => s.strPush c out
  | set sv out => s.strSet sv out
  | clear => s.strClear
  | reserve newCap out => s.strReserve newCap out
  | shrink out => s.strShrink out

/-- An allocation fails. -/
def failed : StrOp → Bool
  | new _ out | fromView _ out => out.isNone
  | append _ out | push _ out | set _ out | reserve _ out | shrink out => out.failed
  | clear => false

/-- What an operation should make of the contents, given the buffer at the call -/
def apply (buf : Option Bytes) (model : Option (List UInt8)) : StrOp → Option (List UInt8)
  | new _ out => out.map fun _ => []
  | fromView sv out => out.map fun _ => sv.bytes buf
  | append sv _ => model.map (· ++ sv.bytes buf)
  | push c _ => model.map (· ++ [c])
  | set sv _ => model.map fun _ => sv.bytes buf
  | clear => model.map fun _ => []
  | reserve _ _ | shrink _ => model

end StrOp

namespace StrRun

/-- There is no string. -/
def start : StrRun := ⟨⟨none, 0, 0, false⟩, none⟩

/-- The state after an operation -/
def step (s : StrRun) (op : StrOp) : StrRun := ⟨op.exec s.str, op.apply s.str.buf s.model⟩

end StrRun

/-! ## What is claimed, and when it holds -/

namespace OwnedStr

/-- The invariant of the header, and nothing was written outside of `cap` bytes -/
structure Sound (s : OwnedStr) : Prop where
  inside : s.stray = false
  terminated : ∀ b, s.buf = some b → b s.len.toNat = 0
  room : s.buf.isSome → s.len.toNat + 1 ≤ s.cap.toNat

/-- The contents -/
def contents (s : OwnedStr) : Option (List UInt8) := s.buf.map fun b => (List.range s.len.toNat).map b

/-- The length is a 32-bit number, and so is the room it takes, for which the buffer grows if it has to. -/
def Fits (s : OwnedStr) (total : ℕ) (out : Realloc) : Prop :=
  total + 1 < 2 ^ 32 ∧ (total + 1 ≤ s.cap.toNat ∨ out.failed = false)

/-- An operation has the room it needs. -/
def Roomy (s : OwnedStr) : StrOp → Prop
  | .new _ _ | .clear | .shrink _ => True
  | .fromView sv out => sv.isNull s.buf ∨ out = none ∨ sv.len.toNat + 1 < 2 ^ 32
  | .append sv out =>
    s.buf.isNone ∨ sv.len = 0 ∨ sv.isNull s.buf ∨ s.Fits (s.len.toNat + sv.len.toNat) out
  | .push _ out => s.buf.isNone ∨ s.Fits (s.len.toNat + 1) out
  | .set sv out => s.buf.isNone ∨ s.Fits sv.len.toNat out
  | .reserve newCap out =>
    -- a string without a buffer gets one that nobody writes to
    s.buf.isSome ∨ newCap ≤ s.cap ∨
      ∀ fresh stale, out = .move fresh stale →
        fresh s.len.toNat = 0 ∧ s.len.toNat + 1 ≤ max newCap.toNat strMinCap.toNat

/-- A view reads the same while it is copied to an offset as at the call, when the string is to have a length. -/
def Steady (s : OwnedStr) (total dst : ℕ) (out : Realloc) : StrArg → Prop
  | .internal off n =>
    match (if total + 1 ≤ s.cap.toNat then none else out.stale) with
    | some stale => ∀ i < n.toNat, stale (off + i) = s.buf.getD Bytes.zeros (off + i)
    | none => off + n.toNat ≤ dst ∨ dst ≤ off
  | .null _ | .external _ _ => True

/-- An operation reads what it should. -/
def Readable (s : OwnedStr) : StrOp → Prop
  | .new _ _ | .fromView _ _ | .push _ _ | .clear | .shrink _ => True
  | .append sv out => s.Steady (s.len.toNat + sv.len.toNat) s.len.toNat out sv
  | .set sv out => (sv.isNull s.buf → sv.len = 0) ∧ s.Steady sv.len.toNat 0 out sv
  | .reserve newCap out => s.buf.isSome ∨ newCap ≤ s.cap ∨ out.stale = none

end OwnedStr

/-! ## Growing and writing -/

namespace OwnedStr

section

variable {s : OwnedStr} {b : Bytes}

theorem le_strGrowCap (current needed : UInt32) : needed.toNat ≤ (strGrowCap current needed).toNat := by
  have hmax : ∀ next : UInt32, needed.toNat ≤ (if next > needed then next else needed).toNat := by
    intro next
    split
    · exact (UInt32.lt_iff_toNat_lt.mp ‹_›).le
    · exact le_rfl
  exact hmax _

/-- What the growth of a buffer does: the new one agrees with the old one on its bytes, and views read what is left of
the old one if it moved. -/
structure Grew (s t : OwnedStr) (b : Bytes) (old : Option Bytes) : Prop where
  len : t.len = s.len
  stray : t.stray = s.stray
  buf : ∃ b', t.buf = some b' ∧ (∀ i < s.cap.toNat, b' i = b i) ∧ (old = none → b' = b)

theorem Grew.refl (hb : s.buf = some b) : Grew s s b none := ⟨rfl, rfl, b, hb, fun _ _ => rfl, fun _ => rfl⟩

theorem kernRealloc_spec (hb : s.buf = some b) {size : UInt32} (hsize : size ≠ 0) (out : Realloc) :
    Grew s (s.kernRealloc size out).1 b (s.kernRealloc size out).2 ∧ (s.kernRealloc size out).2 = out.stale ∧
      (s.kernRealloc size out).1.cap = if out.failed then s.cap else size := by
  unfold kernRealloc
  rw [hb]
  dsimp only
  rw [if_neg hsize]
  cases out with
  | fail => exact ⟨Grew.refl hb, rfl, rfl⟩
  | keep => exact ⟨⟨rfl, rfl, b, rfl, fun _ _ => rfl, fun _ => rfl⟩, rfl, rfl⟩
  | move fresh stale => exact ⟨⟨rfl, rfl, _, rfl, fun i hi => if_pos hi, fun h => nomatch h⟩, rfl, rfl⟩

theorem toNat_max_strMinCap (cap : UInt32) :
    (if cap < strMinCap then strMinCap else cap).toNat = max cap.toNat strMinCap.toNat := by
  split
  · exact (max_eq_right (UInt32.lt_iff_toNat_lt.mp ‹_›).le).symm
  · exact (max_eq_left (UInt32.le_iff_toNat_le.mp (UInt32.not_lt.mp ‹_›))).symm

theorem strRealloc_spec (hb : s.buf = some b) {newCap : UInt32} (hcap : s.cap < newCap) (out : Realloc) :
    Grew s (s.strRealloc newCap out).1 b (s.strRealloc newCap out).2 ∧ (s.strRealloc newCap out).2 = out.stale ∧
      (s.strRealloc newCap out).1.cap.toNat =
        if out.failed then s.cap.toNat else max newCap.toNat strMinCap.toNat := by
  have hlt := UInt32.lt_iff_toNat_lt.mp hcap
  have hmax := toNat_max_strMinCap newCap
  have hsize : (if newCap < strMinCap then strMinCap else newCap) ≠ 0 := by
    intro h
    rw [h] at hmax
    have hzero : (0 : UInt32).toNat = 0 := rfl
    omega
  unfold strRealloc
  rw [if_neg (UInt32.not_le.mpr hcap)]
  obtain ⟨hgrew, hstale, hcap'⟩ := kernRealloc_spec hb hsize out
  refine ⟨hgrew, hstale, ?_⟩
  rw [hcap']
  split
  · rfl
  · exact hmax

/-- A growth makes room for a length exactly if that fits. -/
theorem grow_spec (hb : s.buf = some b) {needed request : UInt32} {total : ℕ}
    (hneeded : needed.toNat = (total + 1) % 2 ^ 32) (hrequest : needed.toNat ≤ request.toNat) (out : Realloc)
    {t : OwnedStr} {old : Option Bytes}
    (ht : (if needed > s.cap then s.strRealloc request out else (s, none)) = (t, old)) :
    Grew s t b old ∧ (total < t.cap.toNat ↔ s.Fits total out) ∧
      (total + 1 < 2 ^ 32 → old = if total + 1 ≤ s.cap.toNat then none else out.stale) := by
  have hcap := s.cap.toNat_lt
  have hbound := t.cap.toNat_lt
  unfold Fits
  by_cases hgrow : needed > s.cap
  · have hlt := UInt32.lt_iff_toNat_lt.mp hgrow
    have hlarge : s.cap < request := UInt32.lt_iff_toNat_lt.mpr (by omega)
    obtain ⟨hgrew, hstale, hcap'⟩ := strRealloc_spec hb hlarge out
    rw [if_pos hgrow] at ht
    rw [ht] at hgrew hstale hcap'
    dsimp only at hcap'
    refine ⟨hgrew, ?_, fun hfits => ?_⟩
    · cases hfailed : out.failed with
      | true =>
        rw [hfailed, if_pos rfl] at hcap'
        simp only [Bool.true_eq_false, or_false]
        omega
      | false =>
        rw [hfailed, if_neg Bool.false_ne_true] at hcap'
        simp only [or_true, and_true]
        omega
    · rw [if_neg (by omega)]
      exact hstale
  · have hle := UInt32.le_iff_toNat_le.mp (UInt32.not_lt.mp hgrow)
    rw [if_neg hgrow] at ht
    obtain ⟨rfl, rfl⟩ := Prod.mk.inj ht
    refine ⟨Grew.refl hb, ?_, fun hfits => ?_⟩
    · constructor
      · intro h
        exact ⟨by omega, .inl (by omega)⟩
      · rintro ⟨hfits, -⟩
        omega
    · rw [if_pos (by omega)]

/-- `str_ensure_cap` -/
theorem strEnsureCap_spec (hb : s.buf = some b) {n : UInt32} {out : Realloc} {t : OwnedStr} {old : Option Bytes}
    (ht : s.strEnsureCap n out = (t, old)) :
    Grew s t b old ∧
      (s.len.toNat + n.toNat < t.cap.toNat ↔ s.Fits (s.len.toNat + n.toNat) out) ∧
      (s.len.toNat + n.toNat + 1 < 2 ^ 32 →
        old = if s.len.toNat + n.toNat + 1 ≤ s.cap.toNat then none else out.stale) := by
  have hneeded : (s.len + n + 1).toNat = (s.len.toNat + n.toNat + 1) % 2 ^ 32 := by
    rw [UInt32.toNat_add, UInt32.toNat_add]
    exact Nat.mod_add_mod _ _ _
  exact grow_spec hb hneeded (le_strGrowCap _ _) out ht

/-! ### Writing -/

@[simp] theorem poke_len (i : ℕ) (v : UInt8) : (s.poke i v).len = s.len := rfl

@[simp] theorem poke_cap (i : ℕ) (v : UInt8) : (s.poke i v).cap = s.cap := rfl

/-- A string is sound after the NUL is written, exactly if all was inside and so is the NUL. -/
theorem sound_terminate_iff (hb : s.buf = some b) (l : UInt32) :
    (s.terminate l).Sound ↔ s.stray = false ∧ l.toNat < s.cap.toNat := by
  constructor
  · intro h
    have hinside := h.inside
    unfold terminate poke at hinside
    rw [Bool.or_eq_false_iff, decide_eq_false_iff_not, not_le] at hinside
    exact hinside
  · rintro ⟨hstray, hlt⟩
    constructor
    · unfold terminate poke
      rw [Bool.or_eq_false_iff, decide_eq_false_iff_not, not_le]
      exact ⟨hstray, hlt⟩
    · intro b' hb'
      unfold terminate poke at hb'
      rw [hb, Option.map_some] at hb'
      cases hb'
      exact Function.update_self _ _ _
    · exact fun _ => hlt

/-- The contents are what was written before the NUL. -/
theorem contents_terminate (hb : s.buf = some b) (l : UInt32) :
    (s.terminate l).contents = some ((List.range l.toNat).map b) := by
  unfold contents terminate poke
  rw [hb, Option.map_some, Option.map_some]
  refine congrArg some (List.map_congr_left fun i hi => ?_)
  exact Function.update_of_ne (List.mem_range.mp hi).ne _ _

/-- A view is copied byte by byte. The bytes are those before the copy, if it does not run into itself. -/
theorem copyView_spec (hb : s.buf = some b) (dst : ℕ) (sv : StrArg) (old : Option Bytes) (n : ℕ) :
    (s.copyView dst sv old n).len = s.len ∧ (s.copyView dst sv old n).cap = s.cap ∧
      ((s.copyView dst sv old n).stray = false ↔ s.stray = false ∧ (n = 0 ∨ dst + n ≤ s.cap.toNat)) ∧
      ∃ b', (s.copyView dst sv old n).buf = some b' ∧ (∀ i < dst, b' i = b i) ∧ (∀ i, dst + n ≤ i → b' i = b i) ∧
        ((∀ off len, sv = .internal off len → old = none → off + n ≤ dst ∨ dst ≤ off) →
          ∀ i < n, b' (dst + i) = sv.read old b i) := by
  induction n with
  | zero => exact ⟨rfl, rfl, by simp [copyView], b, hb, fun _ _ => rfl, fun _ _ => rfl, fun _ _ h => by omega⟩
  | succ n ih =>
    obtain ⟨hlen, hcap, hstray, b', hb', hbefore, hbehind, hcopied⟩ := ih
    have hsucc : s.copyView dst sv old (n + 1) =
        (s.copyView dst sv old n).poke (dst + n) (sv.read old b' n) := by
      unfold copyView at hb' ⊢
      rw [List.range_succ, List.foldl_append, List.foldl_cons, List.foldl_nil, hb']
      rfl
    rw [hsucc]
    refine ⟨hlen, hcap, ?_, Function.update b' (dst + n) (sv.read old b' n), ?_, ?_, ?_, ?_⟩
    · unfold poke
      rw [Bool.or_eq_false_iff, decide_eq_false_iff_not, hstray, hcap, and_assoc]
      exact and_congr_right fun _ => by omega
    · unfold poke
      rw [hb', Option.map_some]
    · intro i hi
      rw [Function.update_of_ne (by omega), hbefore i hi]
    · intro i hi
      rw [Function.update_of_ne (by omega), hbehind i (by omega)]
    · intro hapart i hi
      have hrest := hcopied fun off len hsv hold => by
        have := hapart off len hsv hold
        omega
      by_cases hlast : i = n
      · subst hlast
        rw [Function.update_self]
        -- the byte to be read has not been written
        cases sv with
        | null len => rfl
        | external mem len => rfl
        | internal off len =>
          cases old with
          | some stale => rfl
          | none =>
            show b' (off + i) = b (off + i)
            rcases hapart off len rfl rfl with hle | hle
            · exact hbefore _ (by omega)
            · exact hbehind _ (by omega)
      · rw [Function.update_of_ne (by omega), hrest i (by omega)]

/-- A view that reads the same reads the bytes at the call. -/
theorem Steady.read (hb : s.buf = some b) {b' : Bytes} {old : Option Bytes} (hb' : old = none → b' = b)
    {total dst : ℕ} {out : Realloc} (hold : old = if total + 1 ≤ s.cap.toNat then none else out.stale) {sv : StrArg}
    (h : s.Steady total dst out sv) :
    (∀ off len, sv = .internal off len → old = none → off + sv.len.toNat ≤ dst ∨ dst ≤ off) ∧
      ∀ i < sv.len.toNat, sv.read old b' i = sv.read none b i := by
  cases sv with
  | null n => exact ⟨fun off len heq _ => (nomatch heq), fun _ _ => rfl⟩
  | external mem n => exact ⟨fun off len heq _ => (nomatch heq), fun _ _ => rfl⟩
  | internal off n =>
    unfold Steady at h
    rw [← hold, hb] at h
    cases old with
    | some stale => exact ⟨fun _ _ _ hnone => (nomatch hnone), fun i hi => h i hi⟩
    | none =>
      obtain rfl := hb' rfl
      refine ⟨fun off' n' heq _ => ?_, fun _ _ => rfl⟩
      cases heq
      exact h

theorem exists_buf (h : ¬ s.buf.isNone) : ∃ b, s.buf = some b := by
  cases hb : s.buf with
  | none =>
    rw [hb] at h
    exact absurd rfl h
  | some b => exact ⟨b, rfl⟩

theorem contents_of_isNone (h : s.buf.isNone) : s.contents = none := by
  unfold contents
  rw [Option.isNone_iff_eq_none.mp h]
  rfl

theorem contents_of_buf (hb : s.buf = some b) : s.contents = some ((List.range s.len.toNat).map b) := by
  unfold contents
  rw [hb]
  rfl

theorem bytes_of_not_isNull (hb : s.buf = some b) {sv : StrArg} (h : ¬ sv.isNull s.buf) :
    sv.bytes s.buf = (List.range sv.len.toNat).map fun i => sv.read none b i := by
  unfold StrArg.bytes
  rw [if_neg h, hb]
  rfl

theorem bytes_of_isNull {buf : Option Bytes} {sv : StrArg} (h : sv.isNull buf) : sv.bytes buf = [] := if_pos h

theorem bytes_of_len_eq_zero {buf : Option Bytes} {sv : StrArg} (h : sv.len = 0) : sv.bytes buf = [] := by
  unfold StrArg.bytes
  rw [h, ite_eq_left_iff]
  exact fun _ => rfl

theorem Sound.length_lt (h : s.Sound) (hb : s.buf = some b) : s.len.toNat < s.cap.toNat :=
  h.room (by rw [hb]; rfl)

/-! ## Every operation -/

theorem strNew_sound (h : s.Sound) (cap : UInt32) (out : Option Bytes) : (s.strNew cap out).Sound := by
  unfold strNew
  cases out with
  | none => exact ⟨h.inside, fun _ hb => (nomatch hb), fun hb => (nomatch hb)⟩
  | some fresh =>
    refine (sound_terminate_iff rfl 0).mpr ⟨h.inside, ?_⟩
    show 0 < (if cap < strMinCap then strMinCap else cap).toNat
    rw [toNat_max_strMinCap]
    exact lt_max_of_lt_right (by decide)

theorem strNew_contents (cap : UInt32) (out : Option Bytes) : (s.strNew cap out).contents = out.map fun _ => [] := by
  unfold strNew
  cases out with
  | none => rfl
  | some fresh => exact contents_terminate rfl 0

/-- A copy with the NUL behind it leaves a sound string exactly if there is room for both. -/
theorem copyView_terminate_sound_iff (hb : s.buf = some b) {dst : ℕ} (hdst : dst < 2 ^ 32) (sv : StrArg)
    (old : Option Bytes) {n : ℕ} {l : UInt32} (hl : l.toNat = (dst + n) % 2 ^ 32) :
    ((s.copyView dst sv old n).terminate l).Sound ↔ s.stray = false ∧ dst + n < s.cap.toNat := by
  obtain ⟨-, hcap, hstray, b', hb', -⟩ := copyView_spec hb dst sv old n
  have hbound := s.cap.toNat_lt
  rw [sound_terminate_iff hb', hstray, hcap, and_assoc]
  refine and_congr_right fun _ => ?_
  omega

/-- The contents are those before the offset, and what the view reads. -/
theorem copyView_terminate_contents (hb : s.buf = some b) {dst : ℕ} {sv : StrArg} {old : Option Bytes} {n : ℕ}
    (hapart : ∀ off len, sv = .internal off len → old = none → off + n ≤ dst ∨ dst ≤ off) {l : UInt32}
    (hl : l.toNat = dst + n) :
    ((s.copyView dst sv old n).terminate l).contents =
      some ((List.range dst).map b ++ (List.range n).map (sv.read old b)) := by
  obtain ⟨-, -, -, b', hb', hbefore, -, hcopied⟩ := copyView_spec hb dst sv old n
  rw [contents_terminate hb', hl, List.range_add, List.map_append, List.map_map]
  have hfirst : (List.range dst).map b' = (List.range dst).map b :=
    List.map_congr_left fun i hi => hbefore i (List.mem_range.mp hi)
  have hsecond : (List.range n).map (b' ∘ (dst + ·)) = (List.range n).map (sv.read old b) :=
    List.map_congr_left fun i hi => hcopied hapart i (List.mem_range.mp hi)
  rw [hfirst, hsecond]

/-- `str_from_view` copies the view, with the bytes at the call, into a new buffer. -/
theorem strFromView_spec (h : s.Sound) (sv : StrArg) (out : Option Bytes) :
    ((s.strFromView sv out).Sound ↔ s.Roomy (.fromView sv out)) ∧
      (s.Roomy (.fromView sv out) → (s.strFromView sv out).contents = out.map fun _ => sv.bytes s.buf) := by
  cases out with
  | none =>
    refine ⟨iff_of_true ?_ (.inr (.inl rfl)), fun _ => rfl⟩
    exact ⟨h.inside, fun _ hb => (nomatch hb), fun hb => (nomatch hb)⟩
  | some fresh =>
    unfold strFromView Roomy
    dsimp only
    generalize hl : (if sv.isNull s.buf then 0 else sv.len) = l
    have hcap : (if l + 1 < strMinCap then strMinCap else l + 1).toNat =
        max ((l.toNat + 1) % 2 ^ 32) strMinCap.toNat := by
      rw [toNat_max_strMinCap]
      exact congrArg (max · _) (UInt32.toNat_add l 1)
    have hmin : strMinCap.toNat = 16 := rfl
    have hbound := l.toNat_lt
    have hroomy : (sv.isNull s.buf ∨ some fresh = none ∨ sv.len.toNat + 1 < 2 ^ 32) ↔ l.toNat + 1 < 2 ^ 32 := by
      subst hl
      split
      · exact iff_of_true (.inl ‹_›) (by decide)
      · simp [*]
    rw [hroomy]
    constructor
    · rw [copyView_terminate_sound_iff rfl (by decide) sv s.buf (by omega : l.toNat = (0 + l.toNat) % 2 ^ 32)]
      dsimp only
      rw [hcap, hmin]
      simp only [h.inside, true_and]
      omega
    · intro _
      -- the buffer of before is not released, so that the view reads the same
      have hapart : ∀ off len, sv = .internal off len → s.buf = none → off + l.toNat ≤ 0 ∨ 0 ≤ off :=
        fun off _ _ _ => .inr (Nat.zero_le off)
      rw [copyView_terminate_contents rfl hapart (Nat.zero_add _).symm]
      subst hl
      split
      · rw [Option.map_some, bytes_of_isNull ‹_›]
        rfl
      · have hread : sv.read s.buf fresh = sv.read none (s.buf.getD Bytes.zeros) := by
          cases sv with
          | null _ | external _ _ => rfl
          | internal off n =>
            obtain ⟨b, hb⟩ := exists_buf (s := s) ‹_›
            rw [hb]
            rfl
        unfold StrArg.bytes
        rw [hread, if_neg ‹_›]
        rfl

/-! `str_append` and `str_push` -/

theorem strAppend_sound_iff (h : s.Sound) (sv : StrArg) (out : Realloc) :
    (s.strAppend sv out).Sound ↔ s.Roomy (.append sv out) := by
  unfold strAppend Roomy
  by_cases hskip : s.buf.isNone ∨ sv.len = 0 ∨ sv.isNull s.buf
  · rw [if_pos hskip]
    exact iff_of_true h (by tauto)
  · rw [if_neg hskip]
    rw [not_or, not_or] at hskip
    obtain ⟨b, hb⟩ := exists_buf hskip.1
    generalize ht : s.strEnsureCap sv.len out = grown
    obtain ⟨t, old⟩ := grown
    obtain ⟨hgrew, hroom, -⟩ := strEnsureCap_spec hb ht
    obtain ⟨b', hb', -⟩ := hgrew.buf
    show ((t.copyView t.len.toNat sv old sv.len.toNat).terminate (t.len + sv.len)).Sound ↔ _
    rw [copyView_terminate_sound_iff hb' t.len.toNat_lt sv old (UInt32.toNat_add _ _), hgrew.stray, hgrew.len, hroom]
    simp only [h.inside, true_and]
    tauto

/-- The view is appended, with its bytes at the call. -/
theorem strAppend_contents (h : s.Sound) {sv : StrArg} {out : Realloc} (hroomy : s.Roomy (.append sv out))
    (hread : s.Readable (.append sv out)) :
    (s.strAppend sv out).contents = s.contents.map (· ++ sv.bytes s.buf) := by
  unfold strAppend
  by_cases hskip : s.buf.isNone ∨ sv.len = 0 ∨ sv.isNull s.buf
  · rw [if_pos hskip]
    rcases hskip with hnone | hzero | hnull
    · rw [contents_of_isNone hnone]
      rfl
    · rw [bytes_of_len_eq_zero hzero]
      simp
    · rw [bytes_of_isNull hnull]
      simp
  · rw [if_neg hskip]
    unfold Roomy at hroomy
    have hfits : s.Fits (s.len.toNat + sv.len.toNat) out := by tauto
    rw [not_or, not_or] at hskip
    obtain ⟨b, hb⟩ := exists_buf hskip.1
    generalize ht : s.strEnsureCap sv.len out = grown
    obtain ⟨t, old⟩ := grown
    obtain ⟨hgrew, -, hold⟩ := strEnsureCap_spec hb ht
    obtain ⟨b', hb', hkept, hsame⟩ := hgrew.buf
    obtain ⟨hapart, hreads⟩ := Steady.read hb hsame (hold hfits.1) hread
    show ((t.copyView t.len.toNat sv old sv.len.toNat).terminate (t.len + sv.len)).contents = _
    have hl : (t.len + sv.len).toNat = t.len.toNat + sv.len.toNat := by
      rw [UInt32.toNat_add, hgrew.len]
      exact Nat.mod_eq_of_lt (by have := hfits.1; omega)
    rw [← hgrew.len] at hapart
    rw [copyView_terminate_contents hb' hapart hl, bytes_of_not_isNull hb hskip.2.2, hgrew.len]
    have hlen := h.length_lt hb
    have hfirst : (List.range s.len.toNat).map b' = (List.range s.len.toNat).map b :=
      List.map_congr_left fun i hi => hkept i ((List.mem_range.mp hi).trans hlen)
    have hsecond : (List.range sv.len.toNat).map (sv.read old b') = (List.range sv.len.toNat).map (sv.read none b) :=
      List.map_congr_left fun i hi => hreads i (List.mem_range.mp hi)
    rw [hfirst, hsecond, contents_of_buf hb]
    rfl

/-- A byte is a view of length 1. -/
theorem strPush_eq (c : UInt8) (out : Realloc) : s.strPush c out = s.strAppend (.external (fun _ => c) 1) out := by
  unfold strPush strAppend
  by_cases hnone : s.buf.isNone
  · rw [if_pos hnone, if_pos (.inl hnone)]
  · have hskip : ¬ (s.buf.isNone ∨ (StrArg.external (fun _ => c) 1).len = 0 ∨
        (StrArg.external (fun _ => c) 1).isNull s.buf) := by
      rintro (h | h | h)
      · exact hnone h
      · exact absurd h (by decide : (1 : UInt32) ≠ 0)
      · exact Bool.false_ne_true h
    rw [if_neg hnone, if_neg hskip]
    rfl

theorem roomy_push (c : UInt8) (out : Realloc) :
    s.Roomy (.push c out) ↔ s.Roomy (.append (.external (fun _ => c) 1) out) := by
  unfold Roomy
  have hone : (StrArg.external (fun _ => c) 1).len ≠ 0 := by
    show (1 : UInt32) ≠ 0
    decide
  constructor
  · exact Or.imp_right fun hfits => .inr (.inr hfits)
  · rintro (hnone | hzero | hnull | hfits)
    · exact .inl hnone
    · exact absurd hzero hone
    · exact absurd hnull Bool.false_ne_true
    · exact .inr hfits

/-! `str_set` -/

/-- The string before the NUL is written -/
theorem strSet_spec (hb : s.buf = some b) (sv : StrArg) (out : Realloc) :
    ∃ (t : OwnedStr) (b' : Bytes), s.strSet sv out = t.terminate sv.len ∧ t.buf = some b' ∧
      (t.stray = false ∧ sv.len.toNat < t.cap.toNat ↔ s.stray = false ∧ s.Fits sv.len.toNat out) ∧
      (s.Fits sv.len.toNat out → s.Readable (.set sv out) →
        (List.range sv.len.toNat).map b' = sv.bytes s.buf) := by
  have hneeded : (sv.len + 1).toNat = (sv.len.toNat + 1) % 2 ^ 32 := UInt32.toNat_add _ _
  have hrequest : (sv.len + 1).toNat ≤ (if sv.len + 1 > strMinCap then sv.len + 1 else strMinCap).toNat := by
    split
    · exact le_rfl
    · exact UInt32.le_iff_toNat_le.mp (UInt32.not_lt.mp ‹_›)
  unfold strSet
  rw [if_neg (by rw [hb]; exact Bool.false_ne_true)]
  dsimp only
  generalize ht : (if sv.len + 1 > s.cap then
    s.strRealloc (if sv.len + 1 > strMinCap then sv.len + 1 else strMinCap) out else (s, none)) = grown
  obtain ⟨t, old⟩ := grown
  obtain ⟨hgrew, hroom, hold⟩ := grow_spec hb hneeded hrequest out ht
  obtain ⟨b', hb', -, hsame⟩ := hgrew.buf
  dsimp only
  rw [if_neg (by rw [hb']; exact Bool.false_ne_true)]
  have hsound : t.stray = false ∧ sv.len.toNat < t.cap.toNat ↔ s.stray = false ∧ s.Fits sv.len.toNat out := by
    rw [hgrew.stray, hroom]
  by_cases hskip : sv.isNull s.buf ∨ sv.len = 0
  · refine ⟨t, b', by rw [if_pos hskip], hb', hsound, fun _ hread => ?_⟩
    have hzero : sv.len = 0 := hskip.elim hread.1 id
    rw [bytes_of_len_eq_zero hzero, hzero]
    rfl
  · rw [if_neg hskip]
    rw [not_or] at hskip
    rw [bytes_of_not_isNull hb hskip.1]
    split
    · refine ⟨t, b', rfl, hb', hsound, fun _ _ => ?_⟩
      rw [hsame rfl]
      refine List.map_congr_left fun i _ => ?_
      exact congrArg b (Nat.zero_add i).symm
    · obtain ⟨-, hcap, hstray, b'', hb'', -, -, hcopied⟩ := copyView_spec hb' 0 sv old sv.len.toNat
      refine ⟨_, b'', rfl, hb'', ?_, fun hfits hread => List.map_congr_left fun i hi => ?_⟩
      · rw [hstray, hcap, ← hsound, and_assoc]
        exact and_congr_right fun _ => by omega
      · obtain ⟨hapart, hreads⟩ := Steady.read hb hsame (hold hfits.1) hread.2
        have hi := List.mem_range.mp hi
        have hbyte := hcopied hapart i hi
        rw [Nat.zero_add] at hbyte
        rw [hbyte, hreads i hi]

theorem strSet_sound_iff (h : s.Sound) (sv : StrArg) (out : Realloc) :
    (s.strSet sv out).Sound ↔ s.Roomy (.set sv out) := by
  by_cases hnone : s.buf.isNone
  · have hset : s.strSet sv out = s := if_pos hnone
    rw [hset]
    exact iff_of_true h (.inl hnone)
  · obtain ⟨b, hb⟩ := exists_buf hnone
    obtain ⟨t, b', hset, hb', hsound, -⟩ := strSet_spec hb sv out
    rw [hset, sound_terminate_iff hb', hsound]
    constructor
    · exact fun hfits => .inr hfits.2
    · exact fun hroomy => ⟨h.inside, hroomy.resolve_left hnone⟩

/-- The contents are the bytes of the view at the call. -/
theorem strSet_contents {sv : StrArg} {out : Realloc} (hroomy : s.Roomy (.set sv out))
    (hread : s.Readable (.set sv out)) :
    (s.strSet sv out).contents = s.contents.map fun _ => sv.bytes s.buf := by
  by_cases hnone : s.buf.isNone
  · have hset : s.strSet sv out = s := if_pos hnone
    rw [hset, contents_of_isNone hnone]
    rfl
  · obtain ⟨b, hb⟩ := exists_buf hnone
    obtain ⟨t, b', hset, hb', -, hbytes⟩ := strSet_spec hb sv out
    rw [hset, contents_terminate hb', hbytes (hroomy.resolve_left hnone) hread, contents_of_buf hb]
    rfl

/-! `str_clear`, `str_reserve` and `str_shrink` -/

theorem strClear_sound (h : s.Sound) : s.strClear.Sound := by
  unfold strClear
  split
  · exact h
  · obtain ⟨b, hb⟩ := exists_buf (s := s) ‹_›
    have hlen := h.length_lt hb
    exact (sound_terminate_iff hb 0).mpr ⟨h.inside, (Nat.zero_le _).trans_lt hlen⟩

theorem strClear_contents : s.strClear.contents = s.contents.map fun _ => [] := by
  unfold strClear
  by_cases hnone : s.buf.isNone
  · rw [if_pos hnone, contents_of_isNone hnone]
    rfl
  · obtain ⟨b, hb⟩ := exists_buf hnone
    rw [if_neg hnone, contents_terminate hb 0, contents_of_buf hb]
    rfl

/-- A buffer that grew, or kept the bytes of the string, still has the string. -/
theorem Grew.sound {t : OwnedStr} {old : Option Bytes} (hgrew : Grew s t b old) (h : s.Sound) (hb : s.buf = some b)
    (hcap : s.len.toNat < t.cap.toNat) : t.Sound := by
  obtain ⟨b', hb', hkept, -⟩ := hgrew.buf
  refine ⟨hgrew.stray.trans h.inside, fun b'' hb'' => ?_, fun _ => ?_⟩
  · rw [hb'] at hb''
    cases hb''
    rw [hgrew.len, hkept _ (h.length_lt hb)]
    exact h.terminated b hb
  · rw [hgrew.len]
    exact hcap

theorem Grew.contents_eq {t : OwnedStr} {old : Option Bytes} (hgrew : Grew s t b old) (h : s.Sound)
    (hb : s.buf = some b) : t.contents = s.contents := by
  obtain ⟨b', hb', hkept, -⟩ := hgrew.buf
  have hlen := h.length_lt hb
  rw [contents_of_buf hb', contents_of_buf hb, hgrew.len]
  exact congrArg some (List.map_congr_left fun i hi => hkept i ((List.mem_range.mp hi).trans hlen))

/-- A string without a buffer gets the new one as it is. -/
theorem strReserve_of_isNone (hnone : s.buf.isNone) {newCap : UInt32} (hcap : s.cap < newCap) (out : Realloc) :
    s.strReserve newCap out =
      match out with
      | .move fresh _ => { s with buf := some fresh, cap := if newCap < strMinCap then strMinCap else newCap }
      | .fail | .keep => s := by
  unfold strReserve strRealloc kernRealloc
  rw [if_pos hcap, if_neg (UInt32.not_le.mpr hcap), Option.isNone_iff_eq_none.mp hnone]
  cases out <;> rfl

theorem strReserve_of_buf (hb : s.buf = some b) {newCap : UInt32} (hcap : s.cap < newCap) (out : Realloc) :
    ∃ old, Grew s (s.strReserve newCap out) b old ∧ s.cap.toNat ≤ (s.strReserve newCap out).cap.toNat := by
  obtain ⟨hgrew, -, hroom⟩ := strRealloc_spec hb hcap out
  have hlt := UInt32.lt_iff_toNat_lt.mp hcap
  have hreserve : s.strReserve newCap out = (s.strRealloc newCap out).1 := if_pos hcap
  rw [hreserve, hroom]
  refine ⟨_, hgrew, ?_⟩
  split
  · exact le_rfl
  · exact hlt.le.trans (le_max_left _ _)

theorem strReserve_sound_iff (h : s.Sound) (newCap : UInt32) (out : Realloc) :
    (s.strReserve newCap out).Sound ↔ s.Roomy (.reserve newCap out) := by
  unfold Roomy
  dsimp only
  by_cases hcap : s.cap < newCap
  · by_cases hnone : s.buf.isNone
    · have hsome : ¬ s.buf.isSome := by
        rw [Option.isNone_iff_eq_none.mp hnone]
        exact Bool.false_ne_true
      rw [strReserve_of_isNone hnone hcap, or_iff_right hsome, or_iff_right (UInt32.not_le.mpr hcap)]
      cases out with
      | fail | keep => exact iff_of_true h fun _ _ heq => nomatch heq
      | move fresh stale =>
        constructor
        · rintro ⟨-, hterminated, hroom⟩ _ _ heq
          cases heq
          have hroom := hroom rfl
          dsimp only at hroom
          rw [toNat_max_strMinCap] at hroom
          exact ⟨hterminated fresh rfl, hroom⟩
        · intro hfresh
          obtain ⟨hzero, hroom⟩ := hfresh fresh stale rfl
          refine ⟨h.inside, fun b hb => ?_, fun _ => ?_⟩
          · cases hb
            exact hzero
          · dsimp only
            rw [toNat_max_strMinCap]
            exact hroom
    · obtain ⟨b, hb⟩ := exists_buf hnone
      obtain ⟨old, hgrew, hle⟩ := strReserve_of_buf hb hcap out
      refine iff_of_true (hgrew.sound h hb ((h.length_lt hb).trans_le hle)) (.inl ?_)
      rw [hb]
      rfl
  · have hreserve : s.strReserve newCap out = s := if_neg hcap
    rw [hreserve]
    exact iff_of_true h (.inr (.inl (UInt32.not_lt.mp hcap)))

theorem strReserve_contents (h : s.Sound) {newCap : UInt32} {out : Realloc}
    (hread : s.Readable (.reserve newCap out)) : (s.strReserve newCap out).contents = s.contents := by
  by_cases hcap : s.cap < newCap
  · by_cases hnone : s.buf.isNone
    · rw [strReserve_of_isNone hnone hcap]
      have hstale : out.stale = none := by
        rcases hread with hsome | hle | hstale
        · rw [Option.isNone_iff_eq_none.mp hnone] at hsome
          exact absurd hsome Bool.false_ne_true
        · exact absurd hle (UInt32.not_le.mpr hcap)
        · exact hstale
      cases out with
      | fail | keep => rfl
      | move fresh stale => exact absurd hstale (Option.some_ne_none stale)
    · obtain ⟨b, hb⟩ := exists_buf hnone
      obtain ⟨old, hgrew, -⟩ := strReserve_of_buf hb hcap out
      exact hgrew.contents_eq h hb
  · have hreserve : s.strReserve newCap out = s := if_neg hcap
    rw [hreserve]

/-- The length and the NUL still fit. -/
theorem strShrink_spec (h : s.Sound) (out : Realloc) :
    (s.strShrink out).Sound ∧ (s.strShrink out).contents = s.contents := by
  unfold strShrink
  split
  · exact ⟨h, rfl⟩
  · obtain ⟨b, hb⟩ := exists_buf (s := s) ‹_›
    have hlen := h.length_lt hb
    have hbound := s.cap.toNat_lt
    have hexact : (s.len + 1).toNat = s.len.toNat + 1 :=
      (UInt32.toNat_add _ _).trans (Nat.mod_eq_of_lt (by show s.len.toNat + 1 < 2 ^ 32; omega))
    dsimp only
    split
    · have hsize : s.len + 1 ≠ 0 := by
        intro hzero
        rw [hzero] at hexact
        exact absurd hexact (Nat.succ_ne_zero _).symm
      obtain ⟨hgrew, -, hcap⟩ := kernRealloc_spec hb hsize out
      refine ⟨hgrew.sound h hb ?_, hgrew.contents_eq h hb⟩
      rw [hcap]
      split
      · exact hlen
      · rw [hexact]
        exact Nat.lt_succ_self _
    · exact ⟨h, rfl⟩

end

end OwnedStr

/-! ## Every run -/

namespace StrOp

/-- An operation leaves a sound string exactly if it has the room it needs. -/
theorem exec_sound_iff {s : OwnedStr} (h : s.Sound) (op : StrOp) : (op.exec s).Sound ↔ s.Roomy op := by
  cases op with
  | new cap out => exact iff_of_true (OwnedStr.strNew_sound h cap out) trivial
  | fromView sv out => exact (OwnedStr.strFromView_spec h sv out).1
  | append sv out => exact OwnedStr.strAppend_sound_iff h sv out
  | push c out =>
    rw [OwnedStr.roomy_push c out]
    show (s.strPush c out).Sound ↔ _
    rw [OwnedStr.strPush_eq c out]
    exact OwnedStr.strAppend_sound_iff h _ out
  | set sv out => exact OwnedStr.strSet_sound_iff h sv out
  | clear => exact iff_of_true (OwnedStr.strClear_sound h) trivial
  | reserve newCap out => exact OwnedStr.strReserve_sound_iff h newCap out
  | shrink out => exact iff_of_true (OwnedStr.strShrink_spec h out).1 trivial

/-- An operation that has the room and reads what it should does to the contents what it should. -/
theorem exec_contents {s : OwnedStr} (h : s.Sound) {op : StrOp} (hroomy : s.Roomy op) (hread : s.Readable op) :
    (op.exec s).contents = op.apply s.buf s.contents := by
  cases op with
  | new cap out => exact OwnedStr.strNew_contents cap out
  | fromView sv out => exact (OwnedStr.strFromView_spec h sv out).2 hroomy
  | append sv out => exact OwnedStr.strAppend_contents h hroomy hread
  | push c out =>
    show (s.strPush c out).contents = s.contents.map (· ++ [c])
    rw [OwnedStr.strPush_eq c out]
    exact OwnedStr.strAppend_contents h ((OwnedStr.roomy_push c out).mp hroomy) trivial
  | set sv out => exact OwnedStr.strSet_contents hroomy hread
  | clear => exact OwnedStr.strClear_contents
  | reserve newCap out => exact OwnedStr.strReserve_contents h hread
  | shrink out => exact (OwnedStr.strShrink_spec h out).2

end StrOp

namespace StrRun

theorem start_sound : start.str.Sound := ⟨rfl, fun _ hb => (nomatch hb), fun hb => (nomatch hb)⟩

/-- The string is sound in every state of a run exactly if all operations have the room they need, and if they also
read what they should the contents are those of the string the operations describe. -/
theorem owned_strings (ops : List StrOp) :
    (Runs.Always step (fun s => s.str.Sound) start ops ↔ Runs.Along step (fun s op => s.str.Roomy op) start ops) ∧
      (Runs.Along step (fun s op => s.str.Roomy op ∧ s.str.Readable op) start ops →
        Runs.Always step (fun s => s.str.Sound ∧ s.str.contents = s.model) start ops) := by
  constructor
  · exact Runs.always_iff_along (fun s op h => StrOp.exec_sound_iff h op) start_sound
  · refine Runs.always_of_along (P := fun s : StrRun => s.str.Sound ∧ s.str.contents = s.model)
      (fun s op ⟨hsound, hmodel⟩ ⟨hroomy, hread⟩ => ?_) ⟨start_sound, rfl⟩
    refine ⟨(StrOp.exec_sound_iff hsound op).mpr hroomy, ?_⟩
    show (op.exec s.str).contents = op.apply s.str.buf s.model
    rw [StrOp.exec_contents hsound hroomy hread, hmodel]

theorem owned_strings_small :
    Runs.Always step (fun s => s.str.Sound ∧ s.str.contents = s.model) start
      [.new 0 (some Bytes.zeros), .push 97 .fail, .append (.internal 0 1) .fail] := by
  refine (owned_strings _).2 ⟨⟨trivial, trivial⟩, ⟨.inr ⟨by decide, .inl (by decide)⟩, trivial⟩, ⟨?_, ?_⟩, trivial⟩
  · exact .inr (.inr (.inr ⟨by decide, .inl (by decide)⟩))
  · exact .inl le_rfl

/-- If the growth fails, the NUL is written behind the buffer. And a view into the string is read after the buffer was
released. -/
theorem not_owned_strings :
    (¬ ∀ ops, Runs.Always step (fun s => s.str.Sound) start ops) ∧
      ¬ ∀ ops, (∀ op ∈ ops, op.failed = false) →
        Runs.Always step (fun s => s.str.contents = s.model) start ops := by
  constructor
  · intro h
    have hinside := (h [.new 16 (some Bytes.zeros), .append (.external (fun _ => 97) 16) .fail]).last.inside
    exact absurd hinside (by decide +kernel)
  · intro h
    have hmodel := (h [.new 16 (some Bytes.zeros), .append (.external (fun _ => 97) 8) .keep,
      .append (.internal 0 8) (.move Bytes.zeros Bytes.zeros)] (by decide)).last
    exact absurd hmodel (by decide +kernel)

end StrRun

end Sandflea
