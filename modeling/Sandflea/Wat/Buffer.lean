import Sandflea.Lib.Leb128
import Sandflea.Strings.CLibrary

/-!
# The buffers of the WAT compiler

`wbin_t` is a block that doubles when it is full. Numbers are written to it as LEB128. A section starts with its id and
five bytes that are reserved for its length; when it is complete the length is written over them, and the content is
moved down to follow it.
-/

namespace Sandflea

namespace Wat

/-- The heap as the compiler sees it: how often `kmalloc` was called, and the blocks that were not freed -/
structure Allocs where
  calls : ℕ
  live : List ℕ
deriving DecidableEq

/-- `wbin_t`: the block that `data` points to, and what is in it -/
structure Wbin where
  block : Option ℕ
  data : Bytes
  size : UInt32
  cap : UInt32

namespace Wbin

/-- `wb_init` -/
def init : Wbin := ⟨none, Bytes.zeros, 0, 0⟩

/-- The bytes of a buffer -/
def contents (b : Wbin) : List UInt8 := (List.range b.size.toNat).map b.data

/-- What holds of every buffer: it is within its block. -/
structure Wf (b : Wbin) : Prop where
  size_le : b.size.toNat ≤ b.cap.toNat
  null : b.block = none → b.cap = 0

end Wbin

/-! ## Numbers -/

theorem toNat_shiftRight_seven (v : UInt32) : (v >>> 7).toNat = v.toNat / 128 := by
  rw [UInt32.toNat_shiftRight]
  exact Nat.shiftRight_eq_div_pow _ 7

/-- The loop of `wb_uleb` -/
def ulebLoop : ℕ → UInt32 → List UInt8
  | 0, _ => []
  | n + 1, v =>
    let byte := (v &&& 0x7F).toUInt8
    if v >>> 7 ≠ 0 then (byte ||| 0x80) :: ulebLoop n (v >>> 7) else [byte]

/-- `wb_uleb`: what is in `buf`. No number of 32 bits has more than five groups. -/
def wbUleb (v : UInt32) : List UInt8 := ulebLoop 5 v

theorem toInt_shiftRight_seven (v : Int32) : (v >>> 7).toInt = v.toInt / 128 := by
  have hbits : (v >>> 7).toBitVec = v.toBitVec.sshiftRight 7 := rfl
  rw [← Int32.toInt_toBitVec, hbits, BitVec.toInt_sshiftRight, Int.shiftRight_eq_div_pow]
  rfl

theorem toNat_lowSeven (v : Int32) : ((v.toUInt32 &&& 0x7F).toUInt8).toNat = (v.toInt % 128).toNat := by
  have hint : v.toInt = v.toUInt32.toNat ∨ v.toInt = v.toUInt32.toNat - 2 ^ 32 := by
    have hbits : v.toInt = v.toUInt32.toBitVec.toInt := rfl
    rw [hbits, BitVec.toInt_eq_toNat_cond]
    split
    · exact .inl rfl
    · exact .inr rfl
  rw [UInt32.toNat_toUInt8, UInt32.toNat_and]
  show (v.toUInt32.toNat &&& 2 ^ 7 - 1) % 2 ^ 8 = _
  rw [Nat.and_two_pow_sub_one_eq_mod]
  omega

theorem signBit_eq_zero_iff {byte : UInt8} (h : byte.toNat < 128) : byte &&& 0x40 = 0 ↔ byte.toNat < 64 := by
  have hall : ∀ n < 128, UInt8.ofNat n &&& 0x40 = 0 ↔ n < 64 := by decide +kernel
  have hbyte := hall byte.toNat h
  rwa [UInt8.ofNat_toNat] at hbyte

/-- `wb_sleb` stops if what is left is the sign of the group. -/
theorem stops_iff (v : Int32) :
    ((v >>> 7 = 0 ∧ (v.toUInt32 &&& 0x7F).toUInt8 &&& 0x40 = 0) ∨
      (v >>> 7 = -1 ∧ (v.toUInt32 &&& 0x7F).toUInt8 &&& 0x40 ≠ 0)) ↔ -64 ≤ v.toInt ∧ v.toInt < 64 := by
  have hbyte := toNat_lowSeven v
  have hdiv := toInt_shiftRight_seven v
  rw [ne_eq, signBit_eq_zero_iff (by omega), ← Int32.toInt_inj, ← Int32.toInt_inj, hbyte, hdiv]
  have hzero : (0 : Int32).toInt = 0 := rfl
  have hneg : (-1 : Int32).toInt = -1 := rfl
  rw [hzero, hneg]
  omega

/-- The loop of `wb_sleb` -/
def slebLoop : ℕ → Int32 → List UInt8
  | 0, _ => []
  | n + 1, v =>
    let byte := (v.toUInt32 &&& 0x7F).toUInt8
    if ¬ ((v >>> 7 = 0 ∧ byte &&& 0x40 = 0) ∨ (v >>> 7 = -1 ∧ byte &&& 0x40 ≠ 0)) then
      (byte ||| 0x80) :: slebLoop n (v >>> 7)
    else [byte]

/-- `wb_sleb`: what is in `buf` -/
def wbSleb (v : Int32) : List UInt8 := slebLoop 5 v

theorem toNat_continued {byte : UInt8} (h : byte.toNat < 128) : (byte ||| 0x80).toNat = byte.toNat + 128 := by
  rw [UInt8.toNat_or, Nat.or_comm]
  exact (Nat.two_pow_add_eq_or_of_lt (i := 7) h 1).symm.trans (Nat.add_comm _ _)

/-- One group of `wb_uleb`, on numbers -/
theorem ulebLoop_succ (n : ℕ) (v : UInt32) :
    ulebLoop (n + 1) v =
      if v.toNat < 128 then [UInt8.ofNat v.toNat] else UInt8.ofNat (v.toNat % 128 + 128) :: ulebLoop n (v >>> 7) := by
  have hdiv := toNat_shiftRight_seven v
  have hlow : (v &&& 0x7F).toUInt8.toNat = v.toNat % 128 := by
    rw [UInt32.toNat_toUInt8, UInt32.toNat_and]
    show (v.toNat &&& 2 ^ 7 - 1) % 2 ^ 8 = _
    rw [Nat.and_two_pow_sub_one_eq_mod]
    omega
  rw [ulebLoop]
  rcases Nat.lt_or_ge v.toNat 128 with hlt | hge
  · have hzero : v >>> 7 = 0 := UInt32.toNat_inj.mp (by rw [hdiv]; exact Nat.div_eq_of_lt hlt)
    rw [if_neg (not_not.mpr hzero), if_pos hlt]
    refine congrArg (· :: []) (UInt8.toNat_inj.mp ?_)
    rw [hlow, Leb128.toNat_byte (by omega), Nat.mod_eq_of_lt hlt]
  · have hne : v >>> 7 ≠ 0 := fun hzero => by
      rw [hzero] at hdiv
      have hzero' : (0 : UInt32).toNat = 0 := rfl
      omega
    rw [if_pos hne, if_neg (Nat.not_lt.mpr hge)]
    refine congrArg (· :: _) (UInt8.toNat_inj.mp ?_)
    rw [toNat_continued (by omega), hlow, Leb128.toNat_byte (by omega)]

theorem ulebLoop_eq {n : ℕ} {v : UInt32} (h : v.toNat < 128 ^ (n + 1)) :
    ulebLoop (n + 1) v = Leb128.unsigned v.toNat := by
  induction n generalizing v with
  | zero =>
    have hlt : v.toNat < 128 := by omega
    rw [ulebLoop_succ, if_pos hlt, Leb128.unsigned_of_lt hlt]
  | succ n ih =>
    have hdiv := toNat_shiftRight_seven v
    rw [ulebLoop_succ]
    split
    · rw [Leb128.unsigned_of_lt ‹_›]
    · rw [pow_succ] at h
      rw [Leb128.unsigned_of_le (Nat.not_lt.mp ‹¬ v.toNat < 128›), ih (by omega), hdiv]

theorem wbUleb_eq (v : UInt32) : wbUleb v = Leb128.unsigned v.toNat :=
  ulebLoop_eq (v.toNat_lt.trans_le (by decide))

/-- One group of `wb_sleb`, on numbers -/
theorem slebLoop_succ (n : ℕ) (v : Int32) :
    slebLoop (n + 1) v =
      if -64 ≤ v.toInt ∧ v.toInt < 64 then [UInt8.ofNat (v.toInt % 128).toNat]
      else UInt8.ofNat ((v.toInt % 128).toNat + 128) :: slebLoop n (v >>> 7) := by
  have hlow := toNat_lowSeven v
  rw [slebLoop]
  by_cases hmem : -64 ≤ v.toInt ∧ v.toInt < 64
  · rw [if_neg (not_not.mpr ((stops_iff v).mpr hmem)), if_pos hmem]
    refine congrArg (· :: []) (UInt8.toNat_inj.mp ?_)
    rw [hlow, Leb128.toNat_byte (by omega)]
  · rw [if_pos (mt (stops_iff v).mp hmem), if_neg hmem]
    refine congrArg (· :: _) (UInt8.toNat_inj.mp ?_)
    rw [toNat_continued (by omega), hlow, Leb128.toNat_byte (by omega)]

theorem slebLoop_eq {n : ℕ} {v : Int32} (hlow : -(64 * 128 ^ n) ≤ v.toInt) (hhigh : v.toInt < 64 * 128 ^ n) :
    slebLoop (n + 1) v = Leb128.signed v.toInt := by
  induction n generalizing v with
  | zero =>
    have hmem : -64 ≤ v.toInt ∧ v.toInt < 64 := by omega
    rw [slebLoop_succ, if_pos hmem, Leb128.signed_of_mem hmem]
  | succ n ih =>
    have hdiv := toInt_shiftRight_seven v
    rw [slebLoop_succ]
    split
    · rw [Leb128.signed_of_mem ‹_›]
    · rw [pow_succ] at hlow hhigh
      rw [Leb128.signed_of_not_mem ‹¬ (-64 ≤ v.toInt ∧ v.toInt < 64)›, ih (by omega) (by omega), hdiv]

theorem wbSleb_eq (v : Int32) : wbSleb v = Leb128.signed v.toInt := by
  have hlow := v.le_toInt
  have hhigh := v.toInt_lt
  exact slebLoop_eq (n := 4) (by omega) (by omega)

/-! ## Buffers -/

section

variable (alloc : ℕ → Option Bytes)

/-- `while (new_cap < b->size + need) new_cap *= 2`. After 32 rounds nothing is left of a capacity, and the loop goes
on for ever. -/
def growLoop : ℕ → UInt32 → UInt32 → Option UInt32
  | 0, _, _ => none
  | n + 1, newCap, need => if newCap < need then growLoop n (newCap * 2) need else some newCap

/-- `wb_grow`: whether it succeeded, the buffer, and the heap. `alloc` is what each call of `kmalloc` gives, a block
with something in it or nothing. -/
def wbGrow (need : UInt32) (b : Wbin) (m : Allocs) : Option (Bool × Wbin × Allocs) :=
  if b.size + need ≤ b.cap then some (true, b, m)
  else
    (growLoop 33 (if b.cap ≠ 0 then b.cap * 2 else 4096) (b.size + need)).map fun newCap =>
      match alloc m.calls with
      | none => (false, b, ⟨m.calls + 1, m.live⟩)
      | some p =>
        match b.block with
        | none => (true, ⟨some m.calls, p, b.size, newCap⟩, ⟨m.calls + 1, m.calls :: m.live⟩)
        | some old =>
          (true, ⟨some m.calls, Bytes.copyInto p 0 b.data 0 b.size.toNat, b.size, newCap⟩,
            ⟨m.calls + 1, (m.calls :: m.live).erase old⟩)

/-- `(b)->data[(b)->size++] = v` -/
def Wbin.put (b : Wbin) (v : UInt8) : Wbin :=
  { b with data := Function.update b.data b.size.toNat v, size := b.size + 1 }

/-- `wb1` and `wb4`, by the bytes that are stored, and whether the function goes on -/
def wbPut (vs : List UInt8) (b : Wbin) (m : Allocs) : Option (Bool × Wbin × Allocs) :=
  (wbGrow alloc (UInt32.ofNat vs.length) b m).map fun (ok, b, m) =>
    if ok then (true, vs.foldl Wbin.put b, m) else (false, b, m)

/-- `wb1` -/
def wb1 (v : UInt8) (b : Wbin) (m : Allocs) : Option (Bool × Wbin × Allocs) := wbPut alloc [v] b m

/-- `wb4` -/
def wb4 (v : UInt32) (b : Wbin) (m : Allocs) : Option (Bool × Wbin × Allocs) :=
  wbPut alloc [v.toUInt8, (v >>> 8).toUInt8, (v >>> 16).toUInt8, (v >>> 24).toUInt8] b m

/-- `wb_emit`. If there is no room nothing is written. -/
def wbEmit (src : List UInt8) (b : Wbin) (m : Allocs) : Option (Wbin × Allocs) :=
  (wbGrow alloc (UInt32.ofNat src.length) b m).map fun (ok, b, m) =>
    if ok then
      ({ b with
          data := Bytes.copyInto b.data b.size.toNat (fun i => src.getD i 0) 0 src.length
          size := b.size + UInt32.ofNat src.length }, m)
    else (b, m)

/-- The loop of `wb_sec_start`, which reserves the bytes of the length -/
def reserve : ℕ → Wbin → Allocs → Option (Bool × Wbin × Allocs)
  | 0, b, m => some (true, b, m)
  | n + 1, b, m => (wb1 alloc 0 b m).bind fun (ok, b, m) => if ok then reserve n b m else some (false, b, m)

/-- `wb_sec_start`: the place of the length, or the `-1` of a `wb1` that failed -/
def wbSecStart (id : UInt8) (b : Wbin) (m : Allocs) : Option (UInt32 × Wbin × Allocs) :=
  (wb1 alloc id b m).bind fun (ok, b, m) =>
    if ok then (reserve alloc 5 b m).map fun (ok, b', m) => if ok then (b.size, b', m) else (0xFFFFFFFF, b', m)
    else some (0xFFFFFFFF, b, m)

/-- The loop of `wb_sec_end` over the bytes of the length, from the `i`-th on -/
def writeLength (pos : UInt32) : List UInt8 → ℕ → Bytes → Bytes
  | [], _, data => data
  | v :: tmp, i, data => writeLength pos tmp (i + 1) (Function.update data (pos + UInt32.ofNat i).toNat v)

/-- `wb_sec_end` -/
def wbSecEnd (pos : UInt32) (b : Wbin) : Wbin :=
  let len := b.size - pos - 5
  let tmp := wbUleb len
  let n := tmp.length
  let data := writeLength pos tmp 0 b.data
  if n < 5 then
    { b with
      data := (TracedMemory.memMove (pos.toNat + n) (pos.toNat + 5) len.toNat ⟨data, []⟩).bytes
      size := b.size - UInt32.ofNat (5 - n) }
  else { b with data := data }

end

/-! ## What a write does -/

namespace Wbin

theorem length_contents (b : Wbin) : b.contents.length = b.size.toNat := by
  rw [contents, List.length_map, List.length_range]

theorem contents_eq_of_lt {b b' : Wbin} (hsize : b'.size = b.size)
    (hdata : ∀ i < b.size.toNat, b'.data i = b.data i) : b'.contents = b.contents := by
  rw [contents, contents, hsize]
  exact List.map_congr_left fun i hi => hdata i (List.mem_range.mp hi)

theorem contents_append {b b' : Wbin} {src : List UInt8} (hsize : b'.size.toNat = b.size.toNat + src.length)
    (hold : ∀ i < b.size.toNat, b'.data i = b.data i)
    (hnew : ∀ i < src.length, b'.data (b.size.toNat + i) = src.getD i 0) : b'.contents = b.contents ++ src := by
  rw [contents, contents, hsize, List.range_add, List.map_append, List.map_map]
  congr 1
  · exact List.map_congr_left fun i hi => hold i (List.mem_range.mp hi)
  · refine List.ext_getElem (by rw [List.length_map, List.length_range]) fun i hi hi' => ?_
    rw [List.getElem_map, List.getElem_range, Function.comp_apply, hnew i hi', List.getD_eq_getElem _ _ hi']

end Wbin

/-- There is room in a buffer for so much more, and its bytes are those of another one. -/
structure Grown (b b' : Wbin) (need : ℕ) : Prop where
  wf : b'.Wf
  size : b'.size = b.size
  contents : b'.contents = b.contents
  room : b.size.toNat + need ≤ b'.cap.toNat

theorem growLoop_spec {n : ℕ} {newCap need : UInt32} (hneed : need.toNat ≤ 2 ^ 31)
    (hle : need.toNat ≤ newCap.toNat * 2 ^ n) : ∃ cap, growLoop (n + 1) newCap need = some cap ∧ need ≤ cap := by
  induction n generalizing newCap with
  | zero =>
    have hnot : ¬ newCap < need := by
      rw [UInt32.lt_iff_toNat_lt]
      omega
    exact ⟨newCap, if_neg hnot, UInt32.not_lt.mp hnot⟩
  | succ n ih =>
    rw [growLoop]
    split
    · rename_i hlt
      have hdouble : (newCap * 2).toNat = newCap.toNat * 2 := by
        rw [UInt32.lt_iff_toNat_lt] at hlt
        rw [UInt32.toNat_mul]
        exact Nat.mod_eq_of_lt (by show newCap.toNat * 2 < 2 ^ 32; omega)
      refine ih ?_
      rw [hdouble, Nat.mul_assoc, ← Nat.pow_succ']
      exact hle
    · exact ⟨newCap, rfl, UInt32.not_lt.mp ‹_›⟩

/-- Up to 2³¹ bytes a buffer grows, or the allocation fails. -/
theorem wbGrow_spec (alloc : ℕ → Option Bytes) {b : Wbin} (hb : b.Wf) (need : UInt32)
    (hneed : b.size.toNat + need.toNat ≤ 2 ^ 31) (m : Allocs) :
    (∃ b' m', wbGrow alloc need b m = some (true, b', m') ∧ Grown b b' need.toNat) ∨
      (alloc m.calls = none ∧ wbGrow alloc need b m = some (false, b, ⟨m.calls + 1, m.live⟩)) := by
  have hsum : (b.size + need).toNat = b.size.toNat + need.toNat := by
    rw [UInt32.toNat_add]
    exact Nat.mod_eq_of_lt (by omega)
  unfold wbGrow
  split
  · rename_i hle
    rw [UInt32.le_iff_toNat_le, hsum] at hle
    exact .inl ⟨b, m, rfl, hb, rfl, rfl, hle⟩
  · rename_i hgt
    rw [UInt32.le_iff_toNat_le, hsum] at hgt
    obtain ⟨cap, hloop, hcap⟩ : ∃ cap,
        growLoop 33 (if b.cap ≠ 0 then b.cap * 2 else 4096) (b.size + need) = some cap ∧ b.size + need ≤ cap := by
      refine growLoop_spec (by omega) ?_
      split
      · rename_i hne
        have hpos : b.cap.toNat ≠ 0 := fun hzero => hne (UInt32.toNat_inj.mp hzero)
        have hdouble : (b.cap * 2).toNat = b.cap.toNat * 2 := by
          rw [UInt32.toNat_mul]
          exact Nat.mod_eq_of_lt (by show b.cap.toNat * 2 < 2 ^ 32; omega)
        omega
      · have hpage : (4096 : UInt32).toNat = 4096 := rfl
        omega
    rw [UInt32.le_iff_toNat_le, hsum] at hcap
    rw [hloop, Option.map_some]
    cases halloc : alloc m.calls with
    | none => exact .inr ⟨rfl, rfl⟩
    | some p =>
      left
      cases hblock : b.block with
      | none =>
        -- nothing has been written yet
        have hzero : b.size.toNat = 0 := by
          have hle := hb.size_le
          rw [hb.null hblock] at hle
          exact Nat.le_zero.mp hle
        refine ⟨_, _, rfl, ⟨?_, nofun⟩, rfl, ?_, hcap⟩
        · exact (Nat.le_add_right _ _).trans hcap
        · exact Wbin.contents_eq_of_lt rfl fun i hi => absurd hi (by omega)
      | some old =>
        refine ⟨_, _, rfl, ⟨?_, nofun⟩, rfl, ?_, hcap⟩
        · exact (Nat.le_add_right _ _).trans hcap
        · refine Wbin.contents_eq_of_lt rfl fun i hi => ?_
          show Bytes.copyInto p 0 b.data 0 b.size.toNat i = b.data i
          rw [Bytes.copyInto_of_mem (Nat.zero_le i) (by omega), Nat.zero_add, Nat.sub_zero]

theorem put_spec {b : Wbin} (hb : b.Wf) (hroom : b.size.toNat + 1 ≤ b.cap.toNat) (v : UInt8) :
    (b.put v).Wf ∧ (b.put v).cap = b.cap ∧ (b.put v).size.toNat = b.size.toNat + 1 ∧
      (b.put v).contents = b.contents ++ [v] := by
  have hcap := b.cap.toNat_lt
  have hsize : (b.put v).size.toNat = b.size.toNat + 1 := by
    show (b.size + 1).toNat = _
    rw [UInt32.toNat_add]
    exact Nat.mod_eq_of_lt (by show b.size.toNat + 1 < 2 ^ 32; omega)
  refine ⟨⟨by rw [hsize]; exact hroom, hb.null⟩, rfl, hsize, Wbin.contents_append hsize (fun i hi => ?_) fun i hi => ?_⟩
  · exact Function.update_of_ne (Nat.ne_of_lt hi) _ _
  · obtain rfl : i = 0 := Nat.lt_one_iff.mp hi
    exact Function.update_self _ _ _

theorem foldl_put_spec {b : Wbin} (hb : b.Wf) (vs : List UInt8) (hroom : b.size.toNat + vs.length ≤ b.cap.toNat) :
    (vs.foldl Wbin.put b).Wf ∧ (vs.foldl Wbin.put b).contents = b.contents ++ vs := by
  induction vs generalizing b with
  | nil => exact ⟨hb, (List.append_nil _).symm⟩
  | cons v vs ih =>
    rw [List.length_cons] at hroom
    obtain ⟨hput, hcap, hsize, hcontents⟩ := put_spec hb (by omega) v
    obtain ⟨hwf, hrest⟩ := ih hput (by rw [hsize, hcap]; omega)
    refine ⟨hwf, ?_⟩
    rw [List.foldl_cons, hrest, hcontents, List.append_assoc]
    rfl

theorem wbPut_spec (alloc : ℕ → Option Bytes) {b : Wbin} (hb : b.Wf) (vs : List UInt8)
    (hroom : b.size.toNat + vs.length ≤ 2 ^ 31) (m : Allocs) :
    (∃ b' m', wbPut alloc vs b m = some (true, b', m') ∧ b'.Wf ∧ b'.contents = b.contents ++ vs) ∨
      (alloc m.calls = none ∧ wbPut alloc vs b m = some (false, b, ⟨m.calls + 1, m.live⟩)) := by
  have hlen : (UInt32.ofNat vs.length).toNat = vs.length :=
    UInt32.toNat_ofNat_of_lt' (by show vs.length < 2 ^ 32; omega)
  unfold wbPut
  rcases wbGrow_spec alloc hb (UInt32.ofNat vs.length) (by rwa [hlen]) m with
    ⟨b', m', hgrow, hgrown⟩ | ⟨halloc, hgrow⟩
  · left
    rw [hgrow]
    obtain ⟨hwf, hcontents⟩ := foldl_put_spec hgrown.wf vs (by rw [hgrown.size, ← hlen]; exact hgrown.room)
    exact ⟨_, m', rfl, hwf, by rw [hcontents, hgrown.contents]⟩
  · right
    rw [hgrow]
    exact ⟨halloc, rfl⟩

theorem wbEmit_spec (alloc : ℕ → Option Bytes) {b : Wbin} (hb : b.Wf) (src : List UInt8)
    (hroom : b.size.toNat + src.length ≤ 2 ^ 31) (m : Allocs) :
    (∃ b' m', wbEmit alloc src b m = some (b', m') ∧ b'.Wf ∧ b'.contents = b.contents ++ src) ∨
      (alloc m.calls = none ∧ wbEmit alloc src b m = some (b, ⟨m.calls + 1, m.live⟩)) := by
  have hlen : (UInt32.ofNat src.length).toNat = src.length :=
    UInt32.toNat_ofNat_of_lt' (by show src.length < 2 ^ 32; omega)
  unfold wbEmit
  rcases wbGrow_spec alloc hb (UInt32.ofNat src.length) (by rwa [hlen]) m with
    ⟨b', m', hgrow, hgrown⟩ | ⟨halloc, hgrow⟩
  · left
    rw [hgrow]
    have hsize : (b'.size + UInt32.ofNat src.length).toNat = b'.size.toNat + src.length := by
      rw [UInt32.toNat_add, hgrown.size, hlen]
      exact Nat.mod_eq_of_lt (by omega)
    have hfits := hgrown.room
    rw [hlen] at hfits
    refine ⟨_, m', rfl, ⟨?_, hgrown.wf.null⟩, ?_⟩
    · show (b'.size + UInt32.ofNat src.length).toNat ≤ b'.cap.toNat
      rw [hsize, hgrown.size]
      exact hfits
    · rw [← hgrown.contents]
      refine Wbin.contents_append hsize (fun i hi => ?_) fun i hi => ?_
      · show Bytes.copyInto b'.data b'.size.toNat (fun i => src.getD i 0) 0 src.length i = b'.data i
        exact Bytes.copyInto_of_not_mem (by omega)
      · show Bytes.copyInto b'.data b'.size.toNat (fun i => src.getD i 0) 0 src.length (b'.size.toNat + i) = _
        rw [Bytes.copyInto_of_mem (Nat.le_add_right _ _) (by omega), Nat.zero_add, Nat.add_sub_cancel_left]
  · right
    rw [hgrow]
    exact ⟨halloc, rfl⟩

/-! ## Sections -/

namespace Wbin

theorem getD_contents {b : Wbin} {i : ℕ} (h : i < b.size.toNat) : b.contents.getD i 0 = b.data i := by
  rw [List.getD_eq_getElem _ _ (by rwa [length_contents])]
  unfold contents
  rw [List.getElem_map, List.getElem_range]

end Wbin

theorem writeLength_of_not_mem {pos : UInt32} {tmp : List UInt8} {i k : ℕ} {data : Bytes}
    (hfits : pos.toNat + i + tmp.length ≤ 2 ^ 32) (h : k < pos.toNat + i ∨ pos.toNat + i + tmp.length ≤ k) :
    writeLength pos tmp i data k = data k := by
  induction tmp generalizing i data with
  | nil => rfl
  | cons v tmp ih =>
    rw [List.length_cons] at hfits h
    have hplace : (pos + UInt32.ofNat i).toNat = pos.toNat + i := by
      rw [UInt32.toNat_add, UInt32.toNat_ofNat_of_lt' (by show i < 2 ^ 32; omega)]
      exact Nat.mod_eq_of_lt (by omega)
    rw [writeLength, ih (by omega) (by omega), hplace]
    exact Function.update_of_ne (by omega) _ _

theorem writeLength_of_lt {pos : UInt32} {tmp : List UInt8} {i j : ℕ} {data : Bytes}
    (hfits : pos.toNat + i + tmp.length ≤ 2 ^ 32) (hj : j < tmp.length) :
    writeLength pos tmp i data (pos.toNat + i + j) = tmp.getD j 0 := by
  induction tmp generalizing i j data with
  | nil => exact absurd hj (Nat.not_lt_zero j)
  | cons v tmp ih =>
    rw [List.length_cons] at hfits hj
    rw [writeLength]
    cases j with
    | zero =>
      have hplace : (pos + UInt32.ofNat i).toNat = pos.toNat + i := by
        rw [UInt32.toNat_add, UInt32.toNat_ofNat_of_lt' (by show i < 2 ^ 32; omega)]
        exact Nat.mod_eq_of_lt (by omega)
      rw [writeLength_of_not_mem (by omega) (by omega), hplace]
      exact Function.update_self _ _ _
    | succ j =>
      rw [show pos.toNat + i + (j + 1) = pos.toNat + (i + 1) + j by omega]
      exact ih (by omega) (by omega)

theorem length_wbUleb_le (v : UInt32) : (wbUleb v).length ≤ 5 := by
  rw [wbUleb_eq]
  exact Leb128.length_unsigned_le (k := 4) (v.toNat_lt.trans_le (by decide))

/-- The length takes the place of the reserved bytes. -/
theorem wbSecEnd_spec {b : Wbin} (hb : b.Wf) {pos : UInt32} {before content : List UInt8}
    (hcontents : ∃ reserved : List UInt8, reserved.length = 5 ∧ b.contents = before ++ reserved ++ content)
    (hpos : pos.toNat = before.length) :
    (wbSecEnd pos b).Wf ∧
      (wbSecEnd pos b).contents = before ++ wbUleb (UInt32.ofNat content.length) ++ content := by
  obtain ⟨reserved, hreserved, hcontents⟩ := hcontents
  have hsize : b.size.toNat = before.length + 5 + content.length := by
    rw [← b.length_contents, hcontents, List.length_append, List.length_append, hreserved]
  have hlt := b.size.toNat_lt
  have hfive : (5 : UInt32).toNat = 5 := rfl
  have hlen : (b.size - pos - 5).toNat = content.length := by
    have hsub : (b.size - pos).toNat = b.size.toNat - pos.toNat :=
      UInt32.toNat_sub_of_le _ _ (by rw [UInt32.le_iff_toNat_le]; omega)
    rw [UInt32.toNat_sub_of_le _ _ (by rw [UInt32.le_iff_toNat_le]; omega), hsub]
    omega
  have hnum : UInt32.ofNat content.length = b.size - pos - 5 := by rw [← hlen, UInt32.ofNat_toNat]
  rw [hnum]
  -- where the parts were
  have hold : ∀ i < before.length, b.data i = before.getD i 0 := fun i hi => by
    rw [← Wbin.getD_contents (by omega), hcontents, List.append_assoc, List.getD_append _ _ _ _ hi]
  have hmoved : ∀ i < content.length, b.data (pos.toNat + 5 + i) = content.getD i 0 := fun i hi => by
    rw [← Wbin.getD_contents (by omega), hcontents, List.getD_append_right _ _ _ _ (by
      rw [List.length_append]; omega), List.length_append, hreserved, hpos, Nat.add_sub_cancel_left]
  have htmp := length_wbUleb_le (b.size - pos - 5)
  unfold wbSecEnd
  dsimp only
  generalize wbUleb (b.size - pos - 5) = tmp at htmp ⊢
  -- the buffer up to the length, with the length, and with the content
  have hbefore : ({ b with size := pos } : Wbin).contents = before := by
    refine List.ext_getElem ?_ fun i hi hi' => ?_
    · rw [Wbin.length_contents]
      exact hpos
    · have hi'' : i < pos.toNat := by rwa [hpos]
      rw [← List.getD_eq_getElem _ 0 hi, ← List.getD_eq_getElem _ 0 hi', Wbin.getD_contents hi'']
      exact hold i hi'
  have hplace : (pos + UInt32.ofNat tmp.length).toNat = pos.toNat + tmp.length := by
    rw [UInt32.toNat_add, UInt32.toNat_ofNat_of_lt' (by show tmp.length < 2 ^ 32; omega)]
    exact Nat.mod_eq_of_lt (by omega)
  have hparts : ∀ b' : Wbin, b'.size.toNat = pos.toNat + tmp.length + content.length →
      (∀ i < pos.toNat, b'.data i = b.data i) → (∀ i < tmp.length, b'.data (pos.toNat + i) = tmp.getD i 0) →
      (∀ i < content.length, b'.data (pos.toNat + tmp.length + i) = b.data (pos.toNat + 5 + i)) →
      b'.contents = before ++ tmp ++ content := fun b' hsize' hfirst hsecond hthird => by
    have hlength : ({ b' with size := pos + UInt32.ofNat tmp.length } : Wbin).contents = before ++ tmp := by
      rw [← hbefore]
      exact Wbin.contents_append hplace (fun i hi => hfirst i hi) fun i hi => hsecond i hi
    rw [← hlength]
    refine Wbin.contents_append (by rw [hsize', hplace]) (fun i hi => rfl) fun i hi => ?_
    rw [← hmoved i hi, ← hthird i hi]
    exact congrArg b'.data (by rw [hplace])
  have hwrite : ∀ i < tmp.length, writeLength pos tmp 0 b.data (pos.toNat + i) = tmp.getD i 0 := fun i hi =>
    writeLength_of_lt (i := 0) (by omega) hi
  have hkeep : ∀ k, k < pos.toNat ∨ pos.toNat + tmp.length ≤ k → writeLength pos tmp 0 b.data k = b.data k :=
    fun k hk => writeLength_of_not_mem (by omega) hk
  split
  · -- the content moves down
    rename_i hshort
    have hmove := TracedMemory.memMove_fills (pos.toNat + tmp.length) (pos.toNat + 5) (b.size - pos - 5).toNat
      ⟨writeLength pos tmp 0 b.data, []⟩
    rw [hlen] at hmove ⊢
    have hsize' : (b.size - UInt32.ofNat (5 - tmp.length)).toNat = pos.toNat + tmp.length + content.length := by
      have hshift : (UInt32.ofNat (5 - tmp.length)).toNat = 5 - tmp.length :=
        UInt32.toNat_ofNat_of_lt' (by show 5 - tmp.length < 2 ^ 32; omega)
      rw [UInt32.toNat_sub_of_le _ _ (by rw [UInt32.le_iff_toNat_le]; omega), hshift]
      omega
    refine ⟨⟨?_, hb.null⟩, hparts _ hsize' (fun i hi => ?_) (fun i hi => ?_) fun i hi => ?_⟩
    · have hle := hb.size_le
      show (b.size - UInt32.ofNat (5 - tmp.length)).toNat ≤ b.cap.toNat
      omega
    · exact (hmove.frame i (.inl (by omega))).trans (hkeep i (.inl hi))
    · exact (hmove.frame _ (.inl (by omega))).trans (hwrite i hi)
    · exact (hmove.content i hi).trans (hkeep _ (.inr (by omega)))
  · rename_i hlong
    have hfull : tmp.length = 5 := by omega
    have hsize' : b.size.toNat = pos.toNat + tmp.length + content.length := by omega
    refine ⟨⟨hb.size_le, hb.null⟩, hparts _ hsize' (fun i hi => ?_) hwrite fun i hi => ?_⟩
    · exact hkeep i (.inl hi)
    · rw [hfull]
      exact hkeep _ (.inr (by omega))

/-- A write to a section: `wb1` and the like, or `wb_emit` as in `wb_uleb_buf`, `wb_sleb_buf` and `wb_str` -/
inductive Write where
  | put (vs : List UInt8)
  | emit (src : List UInt8)
deriving DecidableEq

/-- What a write adds -/
def Write.bytes : Write → List UInt8
  | put vs => vs
  | emit src => src

/-- A write, and whether the function goes on -/
def Write.run (alloc : ℕ → Option Bytes) : Write → Wbin → Allocs → Option (Bool × Wbin × Allocs)
  | put vs, b, m => wbPut alloc vs b m
  | emit src, b, m => (wbEmit alloc src b m).map fun (b, m) => (true, b, m)

/-- Writes one after the other -/
def writeAll (alloc : ℕ → Option Bytes) : List Write → Wbin → Allocs → Option (Bool × Wbin × Allocs)
  | [], b, m => some (true, b, m)
  | w :: ws, b, m => (w.run alloc b m).bind fun (ok, b, m) => if ok then writeAll alloc ws b m else some (false, b, m)

/-- `wb_sec_start`, the writes, and `wb_sec_end` -/
def writeSection (alloc : ℕ → Option Bytes) (id : UInt8) (ws : List Write) (b : Wbin) (m : Allocs) :
    Option (Bool × Wbin × Allocs) :=
  (wbSecStart alloc id b m).bind fun (pos, b, m) =>
    (writeAll alloc ws b m).map fun (ok, b, m) => (ok, if ok then wbSecEnd pos b else b, m)

section

variable {alloc : ℕ → Option Bytes}

theorem Write.run_spec (halloc : ∀ k, alloc k ≠ none) (w : Write) {b : Wbin} (hb : b.Wf)
    (hroom : b.size.toNat + w.bytes.length ≤ 2 ^ 31) (m : Allocs) :
    ∃ b' m', w.run alloc b m = some (true, b', m') ∧ b'.Wf ∧ b'.contents = b.contents ++ w.bytes := by
  cases w with
  | put vs =>
    rcases wbPut_spec alloc hb vs hroom m with h | ⟨hnone, -⟩
    · exact h
    · exact absurd hnone (halloc _)
  | emit src =>
    rcases wbEmit_spec alloc hb src hroom m with ⟨b', m', hemit, hb', hcontents⟩ | ⟨hnone, -⟩
    · exact ⟨b', m', by rw [Write.run, hemit]; rfl, hb', hcontents⟩
    · exact absurd hnone (halloc _)

theorem writeAll_spec (halloc : ∀ k, alloc k ≠ none) (ws : List Write) {b : Wbin} (hb : b.Wf)
    (hroom : b.size.toNat + (ws.flatMap Write.bytes).length ≤ 2 ^ 31) (m : Allocs) :
    ∃ b' m', writeAll alloc ws b m = some (true, b', m') ∧ b'.Wf ∧
      b'.contents = b.contents ++ ws.flatMap Write.bytes := by
  induction ws generalizing b m with
  | nil => exact ⟨b, m, rfl, hb, (List.append_nil _).symm⟩
  | cons w ws ih =>
    rw [List.flatMap_cons, List.length_append] at hroom
    obtain ⟨b₁, m₁, hrun, hb₁, hcontents₁⟩ := w.run_spec halloc hb (by omega) m
    have hsize : b₁.size.toNat = b.size.toNat + w.bytes.length := by
      rw [← Wbin.length_contents, hcontents₁, List.length_append, Wbin.length_contents]
    obtain ⟨b₂, m₂, hrest, hb₂, hcontents₂⟩ := ih hb₁ (by omega) m₁
    refine ⟨b₂, m₂, ?_, hb₂, ?_⟩
    · rw [writeAll, hrun]
      exact hrest
    · rw [hcontents₂, hcontents₁, List.flatMap_cons, List.append_assoc]

/-- The reserved bytes are writes like others. -/
theorem reserve_eq (n : ℕ) (b : Wbin) (m : Allocs) :
    reserve alloc n b m = writeAll alloc (List.replicate n (.put [0])) b m := by
  induction n generalizing b m with
  | zero => rfl
  | succ n ih =>
    rw [reserve, List.replicate_succ, writeAll, Write.run, wb1]
    simp only [ih]

theorem wbSecStart_spec (halloc : ∀ k, alloc k ≠ none) (id : UInt8) {b : Wbin} (hb : b.Wf)
    (hroom : b.size.toNat + 6 ≤ 2 ^ 31) (m : Allocs) :
    ∃ pos b' m', wbSecStart alloc id b m = some (pos, b', m') ∧ b'.Wf ∧ pos.toNat = (b.contents ++ [id]).length ∧
      b'.contents = b.contents ++ [id] ++ List.replicate 5 0 := by
  obtain ⟨b₁, m₁, hrun, hb₁, hcontents₁⟩ := Write.run_spec halloc (.put [id]) hb (by show _ + 1 ≤ _; omega) m
  have hsize : b₁.size.toNat = (b.contents ++ [id]).length := by
    rw [← Wbin.length_contents, hcontents₁]
    rfl
  have hbytes : (List.replicate 5 (Write.put [0])).flatMap Write.bytes = List.replicate 5 0 := rfl
  obtain ⟨b₂, m₂, hrest, hb₂, hcontents₂⟩ := writeAll_spec halloc (List.replicate 5 (.put [0])) hb₁
    (by rw [hsize, List.length_append, Wbin.length_contents, hbytes]; show _ + 1 + 5 ≤ _; omega) m₁
  refine ⟨b₁.size, b₂, m₂, ?_, hb₂, hsize, ?_⟩
  · have hid : wb1 alloc id b m = some (true, b₁, m₁) := hrun
    rw [wbSecStart, hid]
    show (reserve alloc 5 b₁ m₁).map _ = _
    rw [reserve_eq, hrest]
    rfl
  · rw [hcontents₂, hcontents₁, hbytes]
    rfl

theorem writeSection_spec (halloc : ∀ k, alloc k ≠ none) (id : UInt8) (ws : List Write) {b : Wbin} (hb : b.Wf)
    (hroom : b.size.toNat + 6 + (ws.flatMap Write.bytes).length ≤ 2 ^ 31) (m : Allocs) :
    ∃ b' m', writeSection alloc id ws b m = some (true, b', m') ∧ b'.Wf ∧
      b'.contents = b.contents ++ [id] ++ wbUleb (UInt32.ofNat (ws.flatMap Write.bytes).length) ++
        ws.flatMap Write.bytes := by
  obtain ⟨pos, b₁, m₁, hstart, hb₁, hpos, hcontents₁⟩ := wbSecStart_spec halloc id hb (by omega) m
  have hsize : b₁.size.toNat = b.size.toNat + 6 := by
    rw [← Wbin.length_contents, hcontents₁, List.length_append, List.length_append, Wbin.length_contents,
      List.length_replicate]
    rfl
  obtain ⟨b₂, m₂, hwrites, hb₂, hcontents₂⟩ := writeAll_spec halloc ws hb₁ (by omega) m₁
  rw [hcontents₁] at hcontents₂
  obtain ⟨hb₃, hcontents₃⟩ := wbSecEnd_spec hb₂ ⟨List.replicate 5 0, List.length_replicate, hcontents₂⟩ hpos
  refine ⟨wbSecEnd pos b₂, m₂, ?_, hb₃, hcontents₃⟩
  rw [writeSection, hstart]
  show (writeAll alloc ws b₁ m₁).map _ = _
  rw [hwrites]
  rfl

end

/-- The encoders are those of LEB128, and give the shortest texts; and a section has its length before it. The six bytes
are those that `wb_sec_start` writes. -/
theorem leb_and_sections :
    (∀ v : UInt32,
      (∀ rest, Leb128.decodeUnsigned (wbUleb v ++ rest) = some (v.toNat, rest)) ∧
      (∀ text rest, Leb128.decodeUnsigned (text ++ rest) = some (v.toNat, rest) →
        (wbUleb v).length ≤ text.length) ∧
      (wbUleb v).length ≤ 5) ∧
    (∀ v : Int32,
      (∀ rest, Leb128.decodeSigned (wbSleb v ++ rest) = some (v.toInt, rest)) ∧
      (∀ text rest, Leb128.decodeSigned (text ++ rest) = some (v.toInt, rest) →
        (wbSleb v).length ≤ text.length) ∧
      (wbSleb v).length ≤ 5) ∧
    ∀ alloc : ℕ → Option Bytes, (∀ k, alloc k ≠ none) → ∀ (id : UInt8) (ws : List Write) (b : Wbin) (m : Allocs), b.Wf →
      b.size.toNat + 6 + (ws.flatMap Write.bytes).length < 2 ^ 31 →
      ∃ b' m', writeSection alloc id ws b m = some (true, b', m') ∧ b'.Wf ∧
        b'.contents = b.contents ++ [id] ++ wbUleb (UInt32.ofNat (ws.flatMap Write.bytes).length) ++
          ws.flatMap Write.bytes := by
  refine ⟨fun v => ⟨fun rest => ?_, fun text rest h => ?_, length_wbUleb_le v⟩,
    fun v => ⟨fun rest => ?_, fun text rest h => ?_, ?_⟩,
    fun alloc halloc id ws b m hb hroom => writeSection_spec halloc id ws hb hroom.le m⟩
  · rw [wbUleb_eq]
    exact Leb128.decodeUnsigned_unsigned _ _
  · have hle := Leb128.length_unsigned_le_of_decode h
    rw [List.length_append] at hle
    rw [wbUleb_eq]
    omega
  · rw [wbSleb_eq]
    exact Leb128.decodeSigned_signed _ _
  · have hle := Leb128.length_signed_le_of_decode h
    rw [List.length_append] at hle
    rw [wbSleb_eq]
    omega
  · have hlow := v.le_toInt
    have hhigh := v.toInt_lt
    rw [wbSleb_eq]
    exact Leb128.length_signed_le (k := 4) (by omega) (by omega)

/-- A section with one byte -/
theorem leb_and_sections_one :
    ∃ b' m', writeSection (fun _ => some Bytes.zeros) 1 [.put [5]] Wbin.init ⟨0, []⟩ = some (true, b', m') ∧ b'.Wf ∧
      b'.contents = [1] ++ wbUleb 1 ++ [5] :=
  leb_and_sections.2.2 (fun _ => some Bytes.zeros) nofun 1 [.put [5]] Wbin.init ⟨0, []⟩
    ⟨Nat.le_refl 0, fun _ => rfl⟩ (by decide)

end Wat

end Sandflea
