import Sandflea.Heap.Calloc
import Sandflea.Lib.Copies
import Sandflea.Strings.Numbers

/-!
# The C library

The functions that stand in for `string.h`, over a memory that notes what is written. `memcpy`, `memmove` and `memset`
cut the size to 32 bits, and `strncpy` writes one byte too many if it pads. With `calloc`, `c_contracts` says exactly
when each of them does what the C standard says.
-/

namespace Sandflea

/-- A memory, and the addresses that were written -/
structure TracedMemory where
  bytes : Bytes
  written : List ℕ

namespace TracedMemory

/-- One byte is written. -/
def store (t : TracedMemory) (a : ℕ) (v : UInt8) : TracedMemory := ⟨Function.update t.bytes a v, a :: t.written⟩

/-- The forward loop of `mem_move` -/
def moveForward : ℕ → ℕ → ℕ → TracedMemory → TracedMemory
  | 0, _, _, t => t
  | n + 1, d, s, t => moveForward n (d + 1) (s + 1) (t.store d (t.bytes s))

/-- The backward loop of `mem_move` -/
def moveBackward : ℕ → ℕ → ℕ → TracedMemory → TracedMemory
  | 0, _, _, t => t
  | n + 1, d, s, t => moveBackward n d s (t.store (d + n) (t.bytes (s + n)))

/-- `mem_move` -/
def memMove (d s n : ℕ) (t : TracedMemory) : TracedMemory :=
  if d < s then moveForward n d s t else if s < d then moveBackward n d s t else t

/-- The loop of `mem_set`, which is also the second one of `strncpy` -/
def fill (v : UInt8) : ℕ → ℕ → TracedMemory → TracedMemory
  | 0, _, t => t
  | n + 1, d, t => fill v n (d + 1) (t.store d v)

/-- The first loop of `strncpy`: what is left of `n`, the next place, and the memory. The NUL is copied before it ends
the loop, and not counted. -/
def copyString : ℕ → ℕ → ℕ → TracedMemory → ℕ × ℕ × TracedMemory
  | 0, dest, _, t => (0, dest, t)
  | n + 1, dest, src, t =>
    if t.bytes src = 0 then (n + 1, dest + 1, t.store dest 0)
    else copyString n (dest + 1) (src + 1) (t.store dest (t.bytes src))

/-- `str_len`: its counter is an `i32`, and past the largest one there is no result. -/
def strLenFrom (t : TracedMemory) (s : ℕ) : ℕ → ℕ → Option ℕ
  | 0, _ => none
  | left + 1, i => if t.bytes (s + i) = 0 then some i else strLenFrom t s left (i + 1)

/-- The loop of `strncat`: the next place, and the memory -/
def appendString : ℕ → ℕ → ℕ → TracedMemory → ℕ × TracedMemory
  | 0, d, _, t => (d, t)
  | n + 1, d, s, t =>
    if t.bytes s = 0 then (d, t) else appendString n (d + 1) (s + 1) (t.store d (t.bytes s))

/-! ## The functions -/

/-- `memcpy` and `memmove` -/
def memmove (dest src : ℕ) (n : UInt64) (t : TracedMemory) : TracedMemory := t.memMove dest src n.toUInt32.toNat

/-- `memset` -/
def memset (s : ℕ) (c : UInt32) (n : UInt64) (t : TracedMemory) : TracedMemory := fill c.toUInt8 n.toUInt32.toNat s t

/-- `strncpy` -/
def strncpy (dest src : ℕ) (n : UInt64) (t : TracedMemory) : TracedMemory :=
  let (n, dest, t) := copyString n.toNat dest src t
  fill 0 n dest t

/-- `strncat` -/
def strncat (d s : ℕ) (n : UInt64) (t : TracedMemory) : Option TracedMemory :=
  (t.strLenFrom d (2 ^ 31) 0).map fun len =>
    let (d, t) := appendString n.toNat (d + len) s t
    t.store d 0

end TracedMemory

/-! ## What the standard says -/

/-- A call, with the strings that its arguments point to -/
inductive LibCall
  | memcpy (dest src : ℕ) (n : UInt64)
  | memmove (dest src : ℕ) (n : UInt64)
  | memset (s : ℕ) (c : UInt32) (n : UInt64)
  | strncpy (dest src : ℕ) (n : UInt64) (text : List UInt8)
  | strncat (d s : ℕ) (n : UInt64) (front text : List UInt8)

namespace LibCall

/-- Two regions of memory are apart. -/
def Apart (a n b k : ℕ) : Prop := a + n ≤ b ∨ b + k ≤ a

/-- The arguments that the standard allows -/
def Legal : LibCall → Prop
  | memcpy dest src n => Apart dest n.toNat src n.toNat
  | memmove _ _ _ | memset _ _ _ => True
  | strncpy dest src n text => 0 ∉ text ∧ Apart dest n.toNat src (min n.toNat (text.length + 1))
  | strncat d s n front text =>
    0 ∉ front ∧ 0 ∉ text ∧ Apart d (front.length + min n.toNat text.length + 1) s (min n.toNat (text.length + 1))

/-- The strings are in the memory. Of a source only as much has to be there as may be read. -/
def Holds (m : Bytes) : LibCall → Prop
  | memcpy _ _ _ | memmove _ _ _ | memset _ _ _ => True
  | strncpy _ src n text => HoldsText m src ((text ++ [0]).take n.toNat)
  | strncat d s n front text => HoldsText m d (front ++ [0]) ∧ HoldsText m s ((text ++ [0]).take n.toNat)

/-- The memory after a call -/
def exec (t : TracedMemory) : LibCall → Option TracedMemory
  | memcpy dest src n | memmove dest src n => some (t.memmove dest src n)
  | memset s c n => some (t.memset s c n)
  | strncpy dest src n _ => some (t.strncpy dest src n)
  | strncat d s n _ _ => t.strncat d s n

/-- Where a call is to write -/
def start : LibCall → ℕ
  | memcpy dest _ _ | memmove dest _ _ | strncpy dest _ _ _ => dest
  | memset s _ _ => s
  | strncat d _ _ front _ => d + front.length

/-- How much a call is to write -/
def extent : LibCall → ℕ
  | memcpy _ _ n | memmove _ _ n | memset _ _ n | strncpy _ _ n _ => n.toNat
  | strncat _ _ n _ text => min n.toNat text.length + 1

/-- What a call is to write -/
def content (m : Bytes) : LibCall → ℕ → UInt8
  | memcpy _ src _, i | memmove _ src _, i => m (src + i)
  | memset _ c _, _ => c.toUInt8
  | strncpy _ _ _ text, i => text.getD i 0
  | strncat _ _ n _ text, i => (text.take n.toNat).getD i 0

end LibCall

/-- A region has new contents, and nothing else was written. -/
structure Fills (t t' : TracedMemory) (d n : ℕ) (f : ℕ → UInt8) : Prop where
  content : ∀ i < n, t'.bytes (d + i) = f i
  frame : ∀ a, a < d ∨ d + n ≤ a → t'.bytes a = t.bytes a
  written : ∀ a ∈ t'.written, a ∈ t.written ∨ d ≤ a ∧ a < d + n

/-- A call does what the standard says, whatever else is in the memory. -/
def LibCall.Contract (call : LibCall) : Prop :=
  ∀ m, call.Holds m → ∃ t, call.exec ⟨m, []⟩ = some t ∧
    Fills ⟨m, []⟩ t call.start call.extent (call.content m)

/-- When it does -/
def LibCall.Narrow : LibCall → Prop
  | memcpy dest src n | memmove dest src n => n.toNat < 2 ^ 32 ∨ dest = src
  | memset _ _ n => n.toNat < 2 ^ 32
  | strncpy _ _ n text => n.toNat ≤ text.length
  | strncat _ _ _ front _ => front.length < 2 ^ 31

section

variable {t t' : TracedMemory} {d s n : ℕ} {f g : ℕ → UInt8}

/-! ## Regions -/

theorem Fills.nil (t : TracedMemory) (d : ℕ) (f : ℕ → UInt8) : Fills t t d 0 f :=
  ⟨fun _ h => absurd h (Nat.not_lt_zero _), fun _ _ => rfl, fun _ h => .inl h⟩

/-- One byte, and then the ones behind it -/
theorem Fills.cons {v : UInt8} (h : Fills (t.store d v) t' (d + 1) n g) (hzero : f 0 = v)
    (hsucc : ∀ i < n, f (i + 1) = g i) : Fills t t' d (n + 1) f := by
  constructor
  · intro i hi
    cases i with
    | zero =>
      rw [hzero, Nat.add_zero, h.frame d (.inl (Nat.lt_succ_self d))]
      exact Function.update_self _ _ _
    | succ i =>
      rw [show d + (i + 1) = d + 1 + i by omega, hsucc i (by omega)]
      exact h.content i (by omega)
  · intro a ha
    rw [h.frame a (by omega)]
    exact Function.update_of_ne (by omega) _ _
  · intro a ha
    rcases h.written a ha with hold | hnew
    · rcases List.mem_cons.mp hold with rfl | hold
      · exact .inr ⟨le_rfl, by omega⟩
      · exact .inl hold
    · exact .inr ⟨by omega, by omega⟩

/-- The last byte, and then the ones before it -/
theorem Fills.snoc {v : UInt8} (h : Fills (t.store (d + n) v) t' d n g) (hlast : f n = v)
    (hinit : ∀ i < n, f i = g i) : Fills t t' d (n + 1) f := by
  constructor
  · intro i hi
    by_cases heq : i = n
    · rw [heq, hlast, h.frame _ (.inr le_rfl)]
      exact Function.update_self _ _ _
    · rw [hinit i (by omega)]
      exact h.content i (by omega)
  · intro a ha
    rw [h.frame a (by omega)]
    exact Function.update_of_ne (by omega) _ _
  · intro a ha
    rcases h.written a ha with hold | hnew
    · rcases List.mem_cons.mp hold with rfl | hold
      · exact .inr ⟨by omega, by omega⟩
      · exact .inl hold
    · exact .inr ⟨by omega, by omega⟩

/-- A region, and then the byte behind it -/
theorem Fills.append {v : UInt8} (h : Fills t t' d n g) (hlast : f n = v) (hinit : ∀ i < n, f i = g i) :
    Fills t (t'.store (d + n) v) d (n + 1) f := by
  constructor
  · intro i hi
    by_cases heq : i = n
    · rw [heq, hlast]
      exact Function.update_self _ _ _
    · rw [hinit i (by omega), ← h.content i (by omega)]
      exact Function.update_of_ne (by omega) _ _
  · intro a ha
    rw [← h.frame a (by omega)]
    exact Function.update_of_ne (by omega) _ _
  · intro a ha
    rcases List.mem_cons.mp ha with rfl | ha
    · exact .inr ⟨by omega, by omega⟩
    · exact (h.written a ha).imp_right fun hin => ⟨hin.1, by omega⟩

theorem Fills.congr (h : Fills t t' d n g) (heq : ∀ i < n, f i = g i) : Fills t t' d n f :=
  ⟨fun i hi => (h.content i hi).trans (heq i hi).symm, h.frame, h.written⟩

/-! ## The loops -/

namespace TracedMemory

theorem store_bytes_of_ne {v : UInt8} {a b : ℕ} (h : b ≠ a) : (t.store a v).bytes b = t.bytes b :=
  Function.update_of_ne h _ _

theorem moveForward_fills (hds : d < s) : Fills t (moveForward n d s t) d n fun i => t.bytes (s + i) := by
  induction n generalizing d s t with
  | zero => exact Fills.nil _ _ _
  | succ n ih =>
    refine Fills.cons (ih (by omega)) rfl fun i _ => ?_
    rw [store_bytes_of_ne (by omega), Nat.add_right_comm, Nat.add_assoc]

theorem moveBackward_fills (hsd : s < d) : Fills t (moveBackward n d s t) d n fun i => t.bytes (s + i) := by
  induction n generalizing t with
  | zero => exact Fills.nil _ _ _
  | succ n ih => exact Fills.snoc ih rfl fun i hi => (store_bytes_of_ne (by omega)).symm

theorem memMove_fills (d s n : ℕ) (t : TracedMemory) : Fills t (t.memMove d s n) d n fun i => t.bytes (s + i) := by
  unfold memMove
  split
  · exact moveForward_fills ‹_›
  · split
    · exact moveBackward_fills ‹_›
    · obtain rfl : d = s := by omega
      exact ⟨fun _ _ => rfl, fun _ _ => rfl, fun _ h => .inl h⟩

theorem fill_fills (v : UInt8) (n d : ℕ) (t : TracedMemory) : Fills t (fill v n d t) d n fun _ => v := by
  induction n generalizing d t with
  | zero => exact Fills.nil _ _ _
  | succ n ih => exact Fills.cons (ih _ _) rfl fun _ _ => rfl

theorem mem_written_fill (v : UInt8) {a : ℕ} (ha : a ∈ t.written ∨ d ≤ a ∧ a < d + n) : a ∈ (fill v n d t).written := by
  induction n generalizing d t with
  | zero => exact ha.resolve_right (by omega)
  | succ n ih =>
    refine ih (ha.elim (fun h => .inl (List.mem_cons_of_mem _ h)) fun h => ?_)
    by_cases heq : a = d
    · exact .inl (heq ▸ List.mem_cons_self)
    · exact .inr ⟨by omega, by omega⟩

/-- The front of a string that is there -/
theorem holdsText_take {b : Bytes} {i n : ℕ} {c : UInt8} {text : List UInt8}
    (h : HoldsText b i ((c :: text).take (n + 1))) : b i = c ∧ HoldsText b (i + 1) (text.take n) := by
  rw [List.take_succ_cons] at h
  exact HoldsText.cons_iff.mp h

theorem holdsText_store {v : UInt8} {a i : ℕ} {text : List UInt8} (h : HoldsText t.bytes i text)
    (ha : a < i ∨ i + text.length ≤ a) : HoldsText (t.store a v).bytes i text := by
  intro j hj
  rw [store_bytes_of_ne (by omega)]
  exact h j hj

/-- The string is copied, with its NUL if that is within `n` bytes, which is not counted. -/
theorem copyString_spec {text : List UInt8} (htext : 0 ∉ text) (hholds : HoldsText t.bytes s ((text ++ [0]).take n))
    (hapart : LibCall.Apart d n s (min n (text.length + 1))) :
    ∃ t', copyString n d s t = (n - text.length, d + min n (text.length + 1), t') ∧
      Fills t t' d (min n (text.length + 1)) fun i => text.getD i 0 := by
  induction n generalizing d s t text with
  | zero =>
    rw [Nat.zero_sub, Nat.zero_min]
    exact ⟨t, rfl, Fills.nil _ _ _⟩
  | succ n ih =>
    cases text with
    | nil =>
      obtain ⟨hbyte, -⟩ := holdsText_take hholds
      have hone : min (n + 1) (List.length ([] : List UInt8) + 1) = 1 :=
        Nat.min_eq_right (Nat.succ_le_succ (Nat.zero_le n))
      rw [hone]
      refine ⟨t.store d 0, if_pos hbyte, ?_⟩
      exact Fills.cons (Fills.nil _ _ fun _ => 0) rfl fun i hi => absurd hi (Nat.not_lt_zero i)
    | cons c text =>
      obtain ⟨hbyte, hrest⟩ := holdsText_take hholds
      rw [List.mem_cons, not_or] at htext
      rw [List.length_cons] at hapart
      unfold LibCall.Apart at hapart
      obtain ⟨t', hcopy, hfills⟩ := ih (d := d + 1) (s := s + 1) (t := t.store d (t.bytes s)) htext.2
        (holdsText_store hrest (by rw [List.length_take, List.length_append, List.length_singleton]; omega))
        (by unfold LibCall.Apart; omega)
      refine ⟨t', ?_, ?_⟩
      · unfold copyString
        rw [if_neg (by rw [hbyte]; exact fun h => htext.1 h.symm), hcopy, List.length_cons, Nat.add_sub_add_right,
          Nat.add_min_add_right, Nat.add_right_comm d 1, Nat.add_assoc d]
      · rw [List.length_cons, Nat.add_min_add_right]
        exact Fills.cons hfills hbyte.symm fun _ _ => rfl

theorem strLenFrom_eq {text : List UInt8} (htext : 0 ∉ text) (hholds : HoldsText t.bytes s (text ++ [0])) {left i : ℕ}
    (hi : i ≤ text.length) :
    t.strLenFrom s left i = if text.length < i + left then some text.length else none := by
  induction left generalizing i with
  | zero =>
    rw [if_neg (by omega)]
    rfl
  | succ left ih =>
    have hbyte := hholds i (by rw [List.length_append, List.length_singleton]; omega)
    unfold strLenFrom
    rcases hi.eq_or_lt with rfl | hlt
    · rw [List.getElem_append_right le_rfl, List.getElem_singleton] at hbyte
      rw [if_pos hbyte, if_pos (by omega)]
    · have hne : t.bytes (s + i) ≠ 0 := by
        rw [hbyte, List.getElem_append_left hlt]
        exact fun h => htext (h ▸ List.getElem_mem hlt)
      rw [if_neg hne, ih hlt, Nat.succ_add_eq_add_succ]

/-- At most `n` characters are appended. -/
theorem appendString_spec {text : List UInt8} (htext : 0 ∉ text) (hholds : HoldsText t.bytes s ((text ++ [0]).take n))
    (hapart : LibCall.Apart d (min n text.length) s (min n (text.length + 1))) :
    ∃ t', appendString n d s t = (d + min n text.length, t') ∧
      Fills t t' d (min n text.length) fun i => text.getD i 0 := by
  induction n generalizing d s t text with
  | zero =>
    rw [Nat.zero_min]
    exact ⟨t, rfl, Fills.nil _ _ _⟩
  | succ n ih =>
    cases text with
    | nil =>
      obtain ⟨hbyte, -⟩ := holdsText_take hholds
      refine ⟨t, if_pos hbyte, Fills.nil _ _ _⟩
    | cons c text =>
      obtain ⟨hbyte, hrest⟩ := holdsText_take hholds
      rw [List.mem_cons, not_or] at htext
      rw [List.length_cons] at hapart
      unfold LibCall.Apart at hapart
      obtain ⟨t', hcopy, hfills⟩ := ih (d := d + 1) (s := s + 1) (t := t.store d (t.bytes s)) htext.2
        (holdsText_store hrest (by rw [List.length_take, List.length_append, List.length_singleton]; omega))
        (by unfold LibCall.Apart; omega)
      refine ⟨t', ?_, ?_⟩
      · unfold appendString
        rw [if_neg (by rw [hbyte]; exact fun h => htext.1 h.symm), hcopy, List.length_cons, Nat.add_min_add_right,
          Nat.add_right_comm d 1, Nat.add_assoc d]
      · rw [List.length_cons, Nat.add_min_add_right]
        exact Fills.cons hfills hbyte.symm fun _ _ => rfl

/-! ## The functions -/

theorem strncpy_fills {n : UInt64} {text : List UInt8} (htext : 0 ∉ text)
    (hholds : HoldsText t.bytes s ((text ++ [0]).take n.toNat))
    (hapart : LibCall.Apart d n.toNat s (min n.toNat (text.length + 1))) (hn : n.toNat ≤ text.length) :
    Fills t (t.strncpy d s n) d n.toNat fun i => text.getD i 0 := by
  obtain ⟨t', hcopy, hfills⟩ := copyString_spec htext hholds hapart
  unfold strncpy
  rw [hcopy]
  dsimp only
  rw [Nat.sub_eq_zero_of_le hn, fill]
  rwa [Nat.min_eq_left (by omega)] at hfills

/-- A string that is padded has one zero too many. -/
theorem strncpy_overrun {n : UInt64} {text : List UInt8} (htext : 0 ∉ text)
    (hholds : HoldsText t.bytes s ((text ++ [0]).take n.toNat))
    (hapart : LibCall.Apart d n.toNat s (min n.toNat (text.length + 1))) (hn : text.length < n.toNat) :
    d + n.toNat ∈ (t.strncpy d s n).written := by
  obtain ⟨t', hcopy, -⟩ := copyString_spec htext hholds hapart
  unfold strncpy
  rw [hcopy]
  exact mem_written_fill 0 (.inr ⟨by omega, by omega⟩)

theorem strncat_fills {n : UInt64} {front text : List UInt8} (hfront : 0 ∉ front)
    (hholds : HoldsText t.bytes d (front ++ [0])) (htext : 0 ∉ text)
    (hholds' : HoldsText t.bytes s ((text ++ [0]).take n.toNat))
    (hapart : LibCall.Apart d (front.length + min n.toNat text.length + 1) s (min n.toNat (text.length + 1)))
    (hlen : front.length < 2 ^ 31) :
    ∃ t', t.strncat d s n = some t' ∧ Fills t t' (d + front.length) (min n.toNat text.length + 1)
      fun i => (text.take n.toNat).getD i 0 := by
  unfold LibCall.Apart at hapart
  obtain ⟨t', happend, hfills⟩ := appendString_spec (d := d + front.length) htext hholds'
    (by unfold LibCall.Apart; omega)
  unfold strncat
  rw [strLenFrom_eq hfront hholds (Nat.zero_le _), if_pos (by omega), Option.map_some, happend]
  refine ⟨_, rfl, Fills.append hfills ?_ fun i hi => ?_⟩
  · rw [List.getD_eq_default _ _ (by rw [List.length_take])]
  · rw [List.getD_eq_getElem _ _ (by rw [List.length_take]; omega), List.getElem_take,
      List.getD_eq_getElem _ _ (by omega)]

end TracedMemory

/-! ## The contracts -/

namespace LibCall

/-- A memory with a string -/
def stringAt (a : ℕ) (text : List UInt8) : Bytes := fun b => (text ++ [0]).getD (b - a) 0

theorem holdsText_stringAt {a n : ℕ} {text : List UInt8} : HoldsText (stringAt a text) a ((text ++ [0]).take n) := by
  intro j hj
  rw [List.getElem_take, stringAt, Nat.add_sub_cancel_left, List.getD_eq_getElem]

/-- A copy is right exactly if its size has 32 bits, or there is nothing to do. -/
theorem copy_iff (d s : ℕ) (n : UInt64) :
    (∀ m, ∃ t, some (TracedMemory.memmove d s n ⟨m, []⟩) = some t ∧ Fills ⟨m, []⟩ t d n.toNat fun i => m (s + i)) ↔
      n.toNat < 2 ^ 32 ∨ d = s := by
  have hn : n.toUInt32.toNat = n.toNat % 2 ^ 32 := UInt64.toNat_toUInt32 n
  constructor
  · intro h
    by_contra hnot
    rw [not_or] at hnot
    -- the first byte behind those that are copied
    obtain ⟨t, ht, hfills⟩ := h fun a => if a = s + n.toNat % 2 ^ 32 then 1 else 0
    cases ht
    have hcontent := hfills.content (n.toNat % 2 ^ 32) (by omega)
    have hframe := (TracedMemory.memMove_fills d s n.toUInt32.toNat
      ⟨fun a => if a = s + n.toNat % 2 ^ 32 then 1 else 0, []⟩).frame (d + n.toNat % 2 ^ 32) (.inr (by omega))
    rw [TracedMemory.memmove, hframe] at hcontent
    dsimp only at hcontent
    rw [if_neg (by omega), if_pos rfl] at hcontent
    exact absurd hcontent (by decide)
  · intro h m
    refine ⟨_, rfl, ?_⟩
    rcases h with hlt | rfl
    · unfold TracedMemory.memmove
      rw [hn, Nat.mod_eq_of_lt hlt]
      exact TracedMemory.memMove_fills d s n.toNat ⟨m, []⟩
    · have hnone : TracedMemory.memmove d d n ⟨m, []⟩ = ⟨m, []⟩ := by
        unfold TracedMemory.memmove TracedMemory.memMove
        rw [if_neg (lt_irrefl d), if_neg (lt_irrefl d)]
      rw [hnone]
      exact ⟨fun _ _ => rfl, fun _ _ => rfl, fun _ h => .inl h⟩

theorem memset_iff (s : ℕ) (c : UInt32) (n : UInt64) : (memset s c n).Contract ↔ n.toNat < 2 ^ 32 := by
  have hn : n.toUInt32.toNat = n.toNat % 2 ^ 32 := UInt64.toNat_toUInt32 n
  constructor
  · intro h
    by_contra hnot
    obtain ⟨t, ht, hfills⟩ := h (fun _ => c.toUInt8 + 1) trivial
    cases ht
    have hcontent := hfills.content (n.toNat % 2 ^ 32) (by show n.toNat % 2 ^ 32 < n.toNat; omega)
    have hframe := (TracedMemory.fill_fills c.toUInt8 n.toUInt32.toNat s ⟨fun _ => c.toUInt8 + 1, []⟩).frame
      (s + n.toNat % 2 ^ 32) (.inr (by omega))
    have heq : c.toUInt8 + 1 = c.toUInt8 := hframe.symm.trans hcontent
    exact absurd (add_eq_left.mp heq) (by decide)
  · intro hlt m _
    refine ⟨_, rfl, ?_⟩
    unfold TracedMemory.memset
    rw [hn, Nat.mod_eq_of_lt hlt]
    exact TracedMemory.fill_fills c.toUInt8 n.toNat s ⟨m, []⟩

theorem strncpy_iff {dest src : ℕ} {n : UInt64} {text : List UInt8} (h : (strncpy dest src n text).Legal) :
    (strncpy dest src n text).Contract ↔ n.toNat ≤ text.length := by
  obtain ⟨htext, hapart⟩ := h
  constructor
  · intro h
    by_contra hnot
    have hholds : HoldsText (stringAt src text) src ((text ++ [0]).take n.toNat) := holdsText_stringAt
    obtain ⟨t, ht, hfills⟩ := h (stringAt src text) hholds
    cases ht
    have hover := TracedMemory.strncpy_overrun (t := ⟨stringAt src text, []⟩) htext hholds hapart (Nat.not_le.mp hnot)
    rcases hfills.written _ hover with hold | hin
    · exact absurd hold List.not_mem_nil
    · exact absurd hin.2 (lt_irrefl _)
  · intro hn m hholds
    exact ⟨_, rfl, TracedMemory.strncpy_fills (t := ⟨m, []⟩) htext hholds hapart hn⟩

theorem strncat_iff {d s : ℕ} {n : UInt64} {front text : List UInt8} (h : (strncat d s n front text).Legal) :
    (strncat d s n front text).Contract ↔ front.length < 2 ^ 31 := by
  obtain ⟨hfront, htext, hapart⟩ := h
  constructor
  · intro h
    by_contra hnot
    obtain ⟨m, hd, hs⟩ : ∃ m, HoldsText m d (front ++ [0]) ∧ HoldsText m s ((text ++ [0]).take n.toNat) := by
      refine ⟨fun a => if d ≤ a ∧ a < d + (front.length + 1) then stringAt d front a else stringAt s text a, ?_, ?_⟩
      · intro j hj
        have hfrontAt : HoldsText (stringAt d front) d ((front ++ [0]).take (front.length + 1)) := holdsText_stringAt
        rw [List.take_of_length_le (by simp)] at hfrontAt
        rw [List.length_append, List.length_singleton] at hj
        exact (if_pos ⟨by omega, by omega⟩).trans (hfrontAt j _)
      · intro j hj
        have hj' := hj
        rw [List.length_take, List.length_append, List.length_singleton] at hj'
        unfold Apart at hapart
        exact (if_neg (by omega)).trans (holdsText_stringAt j hj)
    obtain ⟨t, ht, -⟩ := h m ⟨hd, hs⟩
    have hnone : TracedMemory.strncat d s n ⟨m, []⟩ = none := by
      unfold TracedMemory.strncat
      rw [TracedMemory.strLenFrom_eq hfront hd (Nat.zero_le _), if_neg (by omega)]
      rfl
    exact absurd (hnone.symm.trans ht) (by simp)
  · intro hlen m hm
    exact TracedMemory.strncat_fills (t := ⟨m, []⟩) hfront hm.1 htext hm.2 hapart hlen

theorem contract_iff {call : LibCall} (h : call.Legal) : call.Contract ↔ call.Narrow := by
  cases call with
  | memcpy dest src n =>
    exact Iff.trans (forall_congr' fun _ => true_imp_iff) (copy_iff dest src n)
  | memmove dest src n =>
    exact Iff.trans (forall_congr' fun _ => true_imp_iff) (copy_iff dest src n)
  | memset s c n => exact memset_iff s c n
  | strncpy dest src n text => exact strncpy_iff h
  | strncat d s n front text => exact strncat_iff h

end LibCall

/-- The functions of `string.h` do what the standard says exactly if the sizes have 32 bits, `strncpy` does not pad, and
`strncat` appends to a string whose length has 31 bits; and `calloc` exactly if the product is a size that `kmalloc` can
serve, or one for which it has no block. -/
theorem c_contracts (call : LibCall) (nmemb size : UInt64) :
    (call.Legal → (call.Contract ↔ call.Narrow)) ∧
      (CallocContract nmemb size ↔ nmemb.toNat * size.toNat ≤ 2 ^ 64 - 16 ∨ nmemb * size = 0 ∨
        (largestBlock < (nmemb * size).toNat ∧ (nmemb * size).toNat ≤ 2 ^ 64 - 16)) :=
  ⟨fun h => LibCall.contract_iff h, callocContract_iff nmemb size⟩

/-- `strncpy` of a string of one character to four bytes -/
def paddedCopy : LibCall := .strncpy 0 100 4 [97]

theorem paddedCopy_legal : paddedCopy.Legal := ⟨by decide, .inl (by decide)⟩

theorem c_contracts_paddedCopy : paddedCopy.Contract ↔ paddedCopy.Narrow :=
  (c_contracts paddedCopy 0 0).1 paddedCopy_legal

theorem not_c_contracts :
    ¬ ((∀ call : LibCall, call.Legal → call.Contract) ∧ ∀ nmemb size : UInt64, CallocContract nmemb size) := by
  rintro ⟨h, -⟩
  have hnarrow := (LibCall.strncpy_iff paddedCopy_legal).mp (h paddedCopy paddedCopy_legal)
  exact absurd hnarrow (by decide)

end

end Sandflea
