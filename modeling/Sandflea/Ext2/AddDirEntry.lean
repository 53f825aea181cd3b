import Sandflea.Ext2.BmapLaw
import Sandflea.Ext2.Directory

/-!
# Adding a directory entry

`ext2_add_dir_entry` puts a name into the last block of a directory: behind the last live record of the block, in the
room that this record does not need for its own name, or over the whole block if nothing in it is live. A directory
without blocks gets a block, with the bytes that the block had before. `add_dir_entry_iff` says when that is what
adding an entry means.
-/

namespace Sandflea

open Bytes Kern Kernel PointerTree

/-! ## The function -/

/-- The loop of `ext2_add_dir_entry` over a block: the offset of the last live entry, `last_real_entry_off` -/
def lastEntry (data : Bytes) (bs : ℕ) : ℕ → ℕ → Option ℕ → Option ℕ
  | 0, _, last => last
  | fuel + 1, off, last =>
    if off < bs then
      if entryRecLen data off < 8 then last
      else
        let last := if entryInode data off ≠ 0 then some off else last
        if bs ≤ off + entryRecLen data off then last
        else lastEntry data bs fuel (off + entryRecLen data off) last
    else last

/-- Write an entry with `size` bytes at an offset of a block. -/
def writeEntry (data : Bytes) (off size inodeNo : ℕ) (name : Str) (fileType : UInt8) : Bytes :=
  let data := putU16 (putU32 data off inodeNo) (off + 4) size
  let data := Function.update (Function.update data (off + 6) (UInt8.ofNat name.length)) (off + 7) fileType
  copyInto data (off + 8) (fun i => name.getD i 0) 0 name.length

/-- Shrink the record at `l` to the size that it needs, and write an entry into the rest of it. -/
def splitRecord (data : Bytes) (l inodeNo : ℕ) (name : Str) (fileType : UInt8) : Bytes :=
  let actualSize := entrySize (entryNameLen data l)
  let remaining := entryRecLen data l - actualSize
  writeEntry (putU16 data (l + 4) actualSize) (l + actualSize) remaining inodeNo name fileType

/-- Put an entry into a block, or return `none` if the last live record of the block has no room for it. -/
def placeEntry (data : Bytes) (bs inodeNo : ℕ) (name : Str) (fileType : UInt8) : Option Bytes :=
  match lastEntry data bs bs 0 none with
  | some l =>
    let actualSize := entrySize (entryNameLen data l)
    if actualSize + entrySize name.length ≤ entryRecLen data l then
      if bs < l + actualSize + (entryRecLen data l - actualSize) then none
      else some (splitRecord data l inodeNo name fileType)
    else none
  | none => some (writeEntry data 0 bs inodeNo name fileType)

/-- The second half of `ext2_add_dir_entry`: put the entry into block `lastBlock` of the directory. -/
def addToBlock (parent : ℕ) (dir : Inode) (lastBlock inodeNo : ℕ) (name : Str) (fileType : UInt8) : Kern Bool := do
  let sb ← superblock
  let physBlock ← ext2GetBmap dir lastBlock
  if physBlock = 0 then pure false
  else do
    let mem ← kmalloc sb.blockSize
    if mem then do
      let dirBuf ← ext2ReadBlock physBlock
      match placeEntry dirBuf sb.blockSize inodeNo name fileType with
      | none => pure false
      | some dirBuf => do
        ext2WriteBlock physBlock dirBuf
        ext2WriteInode parent dir
        pure true
    else pure false

/-- The assignments to the inode of a directory that gets its first block -/
def withFirstBlock (dir : Inode) (dirBlock blockSize : ℕ) : Inode :=
  ((dir.setBlock 0 dirBlock).setSize blockSize).setBlocks (blockSize / 512)

/-- `ext2_add_dir_entry` -/
def ext2AddDirEntry (parent : ℕ) (name : Str) (inodeNo : ℕ) (fileType : UInt8) : Kern Bool :=
  if parent = 0 ∨ name.length = 0 ∨ 250 < name.length then pure false
  else do
    match ← ext2GetInode parent Inode.zero with
    | none => pure false
    | some dir => do
      let sb ← superblock
      let totalBlocks := if 0 < dir.size then (dir.size + sb.blockSize - 1) % 2 ^ 32 / sb.blockSize else 1
      let lastBlock := (totalBlocks + (2 ^ 32 - 1)) % 2 ^ 32
      let first ← if dir.size = 0 then pure 0 else ext2GetBmap dir 0
      if first = 0 then do
        let dirBlock ← ext2AllocBlock
        if dirBlock = 0 then pure false
        else addToBlock parent (withFirstBlock dir dirBlock sb.blockSize) lastBlock inodeNo name fileType
      else addToBlock parent dir lastBlock inodeNo name fileType

/-! ## Writing an entry -/

variable {data : Bytes} {bs off size inodeNo o l m : ℕ} {name : Str} {fileType : UInt8}

/-- Outside the header and the name nothing changes. -/
theorem writeEntry_of_ne {i : ℕ} (h : i < off ∨ off + 8 + name.length ≤ i) :
    writeEntry data off size inodeNo name fileType i = data i := by
  unfold writeEntry
  rw [copyInto_of_not_mem (by omega), Function.update_of_ne (by omega), Function.update_of_ne (by omega),
    putU16_of_ne (by omega), putU32_of_ne (by omega)]

/-- The header is in front of the name. -/
theorem writeEntry_of_lt {i : ℕ} (h : i < off + 6) :
    writeEntry data off size inodeNo name fileType i = putU16 (putU32 data off inodeNo) (off + 4) size i := by
  unfold writeEntry
  rw [copyInto_of_not_mem (by omega), Function.update_of_ne (by omega), Function.update_of_ne (by omega)]

theorem entryInode_writeEntry (h : inodeNo < 2 ^ 32) :
    entryInode (writeEntry data off size inodeNo name fileType) off = inodeNo := by
  have hsame : entryInode (writeEntry data off size inodeNo name fileType) off =
      u32At (putU16 (putU32 data off inodeNo) (off + 4) size) off :=
    u32At_congr fun i hi => writeEntry_of_lt (by omega)
  rw [hsame, u32At_putU16_of_disjoint (by omega), u32At_putU32, Nat.mod_eq_of_lt h]

theorem entryRecLen_writeEntry :
    entryRecLen (writeEntry data off size inodeNo name fileType) off = size % 65536 := by
  have hsame : entryRecLen (writeEntry data off size inodeNo name fileType) off =
      u16At (putU16 (putU32 data off inodeNo) (off + 4) size) (off + 4) :=
    u16At_congr (writeEntry_of_lt (by omega)) (writeEntry_of_lt (by omega))
  rw [hsame, u16At_putU16]

theorem entryNameLen_writeEntry (h : name.length < 256) :
    entryNameLen (writeEntry data off size inodeNo name fileType) off = name.length := by
  unfold entryNameLen writeEntry
  rw [copyInto_of_not_mem (by omega), Function.update_of_ne (by omega), Function.update_self,
    UInt8.toNat_ofNat', Nat.mod_eq_of_lt (by omega)]

theorem entryName_writeEntry (h : name.length < 256) :
    entryName (writeEntry data off size inodeNo name fileType) off = name := by
  unfold entryName
  rw [entryNameLen_writeEntry h]
  refine List.ext_getElem (by simp) fun i hi hi' => ?_
  rw [List.getElem_map, List.getElem_range]
  unfold writeEntry
  rw [copyInto_of_mem (by omega) (by omega), Nat.zero_add, Nat.add_sub_cancel_left, List.getD_eq_getElem _ _ hi']

/-! ## An entry depends on its own bytes -/

theorem entryInode_congr {data' : Bytes} (h : ∀ i < 4, data' (o + i) = data (o + i)) :
    entryInode data' o = entryInode data o :=
  u32At_congr h

theorem entryRecLen_congr {data' : Bytes} (h : ∀ i, 4 ≤ i → i < 6 → data' (o + i) = data (o + i)) :
    entryRecLen data' o = entryRecLen data o :=
  u16At_congr (h 4 (by omega) (by omega)) (h 5 (by omega) (by omega))

theorem entryNameLen_congr {data' : Bytes} (h : data' (o + 6) = data (o + 6)) :
    entryNameLen data' o = entryNameLen data o := by
  rw [entryNameLen, entryNameLen, h]

theorem entryName_congr {data' : Bytes} (hlen : data' (o + 6) = data (o + 6))
    (h : ∀ i < entryNameLen data o, data' (o + 8 + i) = data (o + 8 + i)) : entryName data' o = entryName data o := by
  unfold entryName
  rw [entryNameLen_congr hlen]
  exact List.map_congr_left fun i hi => h i (List.mem_range.mp hi)

theorem entriesAt_append (data : Bytes) (os os' : List ℕ) :
    entriesAt data (os ++ os') = entriesAt data os ++ entriesAt data os' := by
  rw [entriesAt, List.filter_append, List.map_append]
  rfl

theorem entriesAt_cons_live {os : List ℕ} (h : entryInode data o ≠ 0) :
    entriesAt data (o :: os) = (entryName data o, entryInode data o) :: entriesAt data os := by
  rw [entriesAt, List.filter_cons_of_pos (by simpa using h), List.map_cons]
  rfl

theorem entriesAt_of_dead {os : List ℕ} (h : ∀ x ∈ os, entryInode data x = 0) : entriesAt data os = [] := by
  rw [entriesAt, List.filter_eq_nil_iff.mpr (by simpa using h), List.map_nil]

theorem entriesAt_congr {data' : Bytes} {os : List ℕ}
    (h : ∀ x ∈ os, entryInode data' x = entryInode data x ∧ entryName data' x = entryName data x) :
    entriesAt data' os = entriesAt data os := by
  unfold entriesAt
  rw [List.filter_congr fun x hx => by rw [(h x hx).1]]
  exact List.map_congr_left fun x hx => by
    rw [(h x (List.mem_of_mem_filter hx)).1, (h x (List.mem_of_mem_filter hx)).2]

/-! ## The last live entry of a block -/

/-- On records that fill the block the loop finds the last live one. -/
theorem lastEntry_of_tiled {os : List ℕ} {fuel : ℕ} {last : Option ℕ} (htiled : Tiled (entryRecLen data) bs o os)
    (hfuel : os.length ≤ fuel) (hlen : ∀ x ∈ os, 8 ≤ entryRecLen data x) :
    lastEntry data bs fuel o last = ((os.filter fun x => entryInode data x ≠ 0).getLast?).or last := by
  induction htiled generalizing fuel last with
  | nil => cases fuel <;> simp [lastEntry]
  | @cons o os hpos htail ih =>
    obtain ⟨n, rfl⟩ : ∃ n, fuel = n + 1 := ⟨fuel - 1, by rw [List.length_cons] at hfuel; omega⟩
    have hle := htail.le
    have h8 : ¬entryRecLen data o < 8 := Nat.not_lt.mpr (hlen o List.mem_cons_self)
    have hrest : ∀ last, (if bs ≤ o + entryRecLen data o then last
        else lastEntry data bs n (o + entryRecLen data o) last) =
        ((os.filter fun x => entryInode data x ≠ 0).getLast?).or last := by
      intro last
      by_cases hend : bs ≤ o + entryRecLen data o
      · have hnil : os = [] := by
          cases os with
          | nil => rfl
          | cons x os =>
            have := htail.lt_of_cons
            omega
        rw [if_pos hend, hnil]
        rfl
      · rw [if_neg hend]
        exact ih (by simpa using hfuel) fun x hx => hlen x (List.mem_cons_of_mem _ hx)
    rw [lastEntry, if_pos (by omega), if_neg h8]
    refine (hrest _).trans ?_
    by_cases hlive : entryInode data o ≠ 0
    · rw [if_pos hlive, List.filter_cons_of_pos (by simpa using hlive), List.getLast?_cons]
      cases (os.filter fun x => entryInode data x ≠ 0).getLast? <;> rfl
    · rw [if_neg hlive, List.filter_cons_of_neg (by simpa using hlive)]

/-- The last element with a property has only others behind it. -/
theorem exists_of_getLast?_filter {α : Type} {p : α → Bool} {xs : List α} {a : α}
    (h : (xs.filter p).getLast? = some a) :
    ∃ pre post, xs = pre ++ a :: post ∧ p a = true ∧ ∀ x ∈ post, ¬p x = true := by
  obtain ⟨ys, hys⟩ := List.getLast?_eq_some_iff.mp h
  obtain ⟨l₁, l₂, rfl, -, h₂⟩ := List.filter_eq_append_iff.mp hys
  obtain ⟨l₃, l₄, rfl, -, ha, h₄⟩ := List.filter_eq_cons_iff.mp h₂
  exact ⟨l₁ ++ l₃, l₄, by simp, ha, List.filter_eq_nil_iff.mp h₄⟩

theorem FilledBlock.lastEntry_eq (h : FilledBlock data bs) :
    lastEntry data bs bs 0 none = ((blockRecords data bs).filter fun x => entryInode data x ≠ 0).getLast? := by
  have hlength := h.tiled.length_le
  rw [lastEntry_of_tiled h.tiled (by omega) (fun x hx => h.eight_le hx), Option.or_none]

/-- The last live record of a filled block -/
theorem FilledBlock.exists_of_lastEntry (h : FilledBlock data bs) (hl : lastEntry data bs bs 0 none = some l) :
    ∃ pre post, blockRecords data bs = pre ++ l :: post ∧ entryInode data l ≠ 0 ∧
      ∀ x ∈ post, entryInode data x = 0 := by
  rw [h.lastEntry_eq] at hl
  obtain ⟨pre, post, hsplit, hlive, hdead⟩ := exists_of_getLast?_filter hl
  exact ⟨pre, post, hsplit, by simpa using hlive, fun x hx => by simpa using hdead x hx⟩

theorem FilledBlock.blockEntries_of_dead (h : FilledBlock data bs) (hl : lastEntry data bs bs 0 none = none) :
    blockEntries data bs = [] := by
  rw [h.lastEntry_eq, List.getLast?_eq_none_iff, List.filter_eq_nil_iff] at hl
  exact entriesAt_of_dead fun x hx => by simpa using hl x hx

/-! ## Placing an entry -/

/-- The records of a block that is known to be filled -/
theorem filledBlock_of_tiled {os : List ℕ} (h : Tiled (entryRecLen data) bs 0 os)
    (hroom : ∀ o ∈ os, entrySize (entryNameLen data o) ≤ entryRecLen data o) :
    blockRecords data bs = os ∧ FilledBlock data bs := by
  have hlength := h.length_le
  have heq : blockRecords data bs = os := h.recordsFrom_eq (by omega)
  exact ⟨heq, by rw [heq]; exact h, by rw [heq]; exact hroom⟩

theorem add_le_entrySize (n : ℕ) : 8 + n ≤ entrySize n := by
  unfold entrySize
  omega

/-- Where nothing is live, the entry gets the whole block. -/
theorem placeEntry_of_dead (hl : lastEntry data bs bs 0 none = none) (hbs : entrySize name.length ≤ bs)
    (hbs' : bs < 65536) (hname : name.length < 256) (hinode : inodeNo < 2 ^ 32) (hne : inodeNo ≠ 0) :
    ∃ data', placeEntry data bs inodeNo name fileType = some data' ∧ FilledBlock data' bs ∧
      blockEntries data' bs = [(name, inodeNo)] := by
  have hrec : entryRecLen (writeEntry data 0 bs inodeNo name fileType) 0 = bs := by
    rw [entryRecLen_writeEntry, Nat.mod_eq_of_lt hbs']
  have hpos := add_le_entrySize name.length
  have htiled : Tiled (entryRecLen (writeEntry data 0 bs inodeNo name fileType)) bs 0 [0] := by
    refine .cons (by omega) ?_
    rw [hrec, Nat.zero_add]
    exact .nil
  obtain ⟨hrecords, hfilled⟩ := filledBlock_of_tiled htiled (by
    intro o ho
    rw [List.mem_singleton.mp ho, entryNameLen_writeEntry hname, hrec]
    exact hbs)
  refine ⟨_, by rw [placeEntry, hl], hfilled, ?_⟩
  have hlive := @entryInode_writeEntry data 0 bs inodeNo name fileType hinode
  rw [blockEntries, hrecords, entriesAt_cons_live (by rw [hlive]; exact hne), hlive, entryName_writeEntry hname]
  rfl

section

variable (hroom : entrySize (entryNameLen data l) + entrySize name.length ≤ entryRecLen data l)
include hroom

/-- What a split changes is the length of the record, and the bytes that the record gives away. -/
theorem splitRecord_of_ne {i : ℕ} (hi : i < l + 4 ∨ l + 6 ≤ i)
    (hi' : i < l + entrySize (entryNameLen data l) ∨ l + entryRecLen data l ≤ i) :
    splitRecord data l inodeNo name fileType i = data i := by
  have hs := add_le_entrySize name.length
  rw [splitRecord, writeEntry_of_ne (by omega), putU16_of_ne (by omega)]

/-- The record keeps its inode and its name. -/
theorem splitRecord_self :
    entryInode (splitRecord data l inodeNo name fileType) l = entryInode data l ∧
      entryNameLen (splitRecord data l inodeNo name fileType) l = entryNameLen data l ∧
      entryName (splitRecord data l inodeNo name fileType) l = entryName data l := by
  have ha := add_le_entrySize (entryNameLen data l)
  exact ⟨entryInode_congr fun i hi => splitRecord_of_ne hroom (by omega) (by omega),
    entryNameLen_congr (splitRecord_of_ne hroom (by omega) (by omega)),
    entryName_congr (splitRecord_of_ne hroom (by omega) (by omega)) fun i hi =>
      splitRecord_of_ne hroom (by omega) (by omega)⟩

/-- The lengths of the two parts -/
theorem splitRecord_recLen :
    entryRecLen (splitRecord data l inodeNo name fileType) l = entrySize (entryNameLen data l) ∧
      entryRecLen (splitRecord data l inodeNo name fileType) (l + entrySize (entryNameLen data l)) =
        entryRecLen data l - entrySize (entryNameLen data l) := by
  have ha := add_le_entrySize (entryNameLen data l)
  have hlen : entryRecLen data l < 65536 := u16At_lt _ _
  constructor
  · have hsame : entryRecLen (splitRecord data l inodeNo name fileType) l =
        u16At (putU16 data (l + 4) (entrySize (entryNameLen data l))) (l + 4) :=
      u16At_congr (writeEntry_of_ne (by omega)) (writeEntry_of_ne (by omega))
    rw [hsame, u16At_putU16, Nat.mod_eq_of_lt (by omega)]
  · rw [splitRecord, entryRecLen_writeEntry, Nat.mod_eq_of_lt (by omega)]

/-- A record that lies elsewhere is not touched. -/
theorem splitRecord_other {x : ℕ} (hx : x + 8 + entryNameLen data x ≤ l ∨ l + entryRecLen data l ≤ x) :
    entryInode (splitRecord data l inodeNo name fileType) x = entryInode data x ∧
      entryRecLen (splitRecord data l inodeNo name fileType) x = entryRecLen data x ∧
      entryNameLen (splitRecord data l inodeNo name fileType) x = entryNameLen data x ∧
      entryName (splitRecord data l inodeNo name fileType) x = entryName data x := by
  have ha := add_le_entrySize (entryNameLen data l)
  exact ⟨entryInode_congr fun i hi => splitRecord_of_ne hroom (by omega) (by omega),
    entryRecLen_congr fun i _ hi => splitRecord_of_ne hroom (by omega) (by omega),
    entryNameLen_congr (splitRecord_of_ne hroom (by omega) (by omega)),
    entryName_congr (splitRecord_of_ne hroom (by omega) (by omega)) fun i hi =>
      splitRecord_of_ne hroom (by omega) (by omega)⟩

end

/-- Behind the last live record the entry gets the bytes that this record does not need. -/
theorem placeEntry_of_live (h : FilledBlock data bs) (hl : lastEntry data bs bs 0 none = some l)
    (hroom : entrySize (entryNameLen data l) + entrySize name.length ≤ entryRecLen data l)
    (hname : name.length < 256) (hinode : inodeNo < 2 ^ 32) (hne : inodeNo ≠ 0) :
    ∃ data', placeEntry data bs inodeNo name fileType = some data' ∧ FilledBlock data' bs ∧
      blockEntries data' bs = blockEntries data bs ++ [(name, inodeNo)] := by
  obtain ⟨pre, post, hsplit, hlive, hdead⟩ := h.exists_of_lastEntry hl
  have htiled := h.tiled
  rw [hsplit] at htiled
  obtain ⟨hleft, hright⟩ := htiled.split
  obtain ⟨-, -, hend⟩ := htiled.bounds (x := l) (by simp)
  have ha := add_le_entrySize (entryNameLen data l)
  have hs := add_le_entrySize name.length
  set data' := splitRecord data l inodeNo name fileType
  set actual := entrySize (entryNameLen data l)
  have hplace : placeEntry data bs inodeNo name fileType = some data' := by
    simp only [placeEntry, hl]
    rw [if_pos hroom, if_neg (by omega)]
  have hothers : ∀ x ∈ pre ++ post, entryInode data' x = entryInode data x ∧
      entryRecLen data' x = entryRecLen data x ∧ entryNameLen data' x = entryNameLen data x ∧
      entryName data' x = entryName data x := by
    intro x hx
    refine splitRecord_other hroom ?_
    rcases List.mem_append.mp hx with hx | hx
    · have hbound := hleft.bounds hx
      have hfits := h.room x (hsplit ▸ List.mem_append_left _ hx)
      have := add_le_entrySize (entryNameLen data x)
      exact .inl (by omega)
    · cases hright with
      | cons _ htail => exact .inr (htail.bounds hx).1
  have hpre := fun x (hx : x ∈ pre) => hothers x (List.mem_append_left _ hx)
  have hpost := fun x (hx : x ∈ post) => hothers x (List.mem_append_right _ hx)
  obtain ⟨hinodel, hlenl, hnamel⟩ := @splitRecord_self _ inodeNo _ _ fileType hroom
  obtain ⟨hrecl, hrecn⟩ := @splitRecord_recLen _ inodeNo _ _ fileType hroom
  have htiled' : Tiled (entryRecLen data') bs 0 (pre ++ l :: (l + actual) :: post) :=
    htiled.divide (by omega) (by omega) (fun y hy => (hpre y hy).2.1) (fun y hy => (hpost y hy).2.1) hrecl hrecn
  obtain ⟨hrecords, hfilled⟩ := filledBlock_of_tiled htiled' (by
    intro o ho
    rcases List.mem_append.mp ho with ho | ho
    · rw [(hpre o ho).2.2.1, (hpre o ho).2.1]
      exact h.room o (hsplit ▸ List.mem_append_left _ ho)
    rcases List.mem_cons.mp ho with rfl | ho
    · rw [hlenl, hrecl]
    rcases List.mem_cons.mp ho with rfl | ho
    · have hnewLen : entryNameLen data' (l + actual) = name.length := entryNameLen_writeEntry hname
      rw [hrecn, hnewLen]
      omega
    · rw [(hpost o ho).2.2.1, (hpost o ho).2.1]
      exact h.room o (hsplit ▸ List.mem_append_right _ (List.mem_cons_of_mem _ ho)))
  have hnew : entryInode data' (l + actual) = inodeNo := entryInode_writeEntry hinode
  have hnewName : entryName data' (l + actual) = name := entryName_writeEntry hname
  have hpreEntries : entriesAt data' pre = entriesAt data pre :=
    entriesAt_congr fun x hx => ⟨(hpre x hx).1, (hpre x hx).2.2.2⟩
  have hpostEntries : entriesAt data' post = [] := entriesAt_of_dead fun x hx => by
    rw [(hpost x hx).1]
    exact hdead x hx
  refine ⟨data', hplace, hfilled, ?_⟩
  calc blockEntries data' bs = entriesAt data' (pre ++ l :: (l + actual) :: post) := by rw [blockEntries, hrecords]
    _ = entriesAt data pre ++ [(entryName data l, entryInode data l), (name, inodeNo)] := by
      rw [entriesAt_append, hpreEntries, entriesAt_cons_live (by rw [hinodel]; exact hlive),
        entriesAt_cons_live (by rw [hnew]; exact hne), hpostEntries, hinodel, hnamel, hnew, hnewName]
    _ = blockEntries data bs ++ [(name, inodeNo)] := by
      rw [blockEntries, hsplit, entriesAt_append, entriesAt_cons_live hlive, entriesAt_of_dead hdead,
        List.append_assoc]
      rfl

/-- A live entry that the loop finds is reached over records with headers. -/
theorem lastEntry_reached {fuel : ℕ} {last : Option ℕ} (h : lastEntry data bs fuel o last = some l) :
    last = some l ∨ ∃ os, Tiled (entryRecLen data) l o os ∧ (∀ x ∈ os, 8 ≤ entryRecLen data x) ∧ l < bs ∧
      entryInode data l ≠ 0 := by
  induction fuel generalizing o last with
  | zero => exact .inl h
  | succ n ih =>
    rw [lastEntry] at h
    split at h
    swap
    · exact .inl h
    next hlt =>
    split at h
    · exact .inl h
    next h8 =>
    have hhere : (if entryInode data o ≠ 0 then some o else last) = some l → last = some l ∨
        ∃ os, Tiled (entryRecLen data) l o os ∧ (∀ x ∈ os, 8 ≤ entryRecLen data x) ∧ l < bs ∧
          entryInode data l ≠ 0 := by
      intro h
      split at h
      · next hlive =>
        obtain rfl := Option.some.inj h
        exact .inr ⟨[], .nil, by simp, hlt, hlive⟩
      · exact .inl h
    dsimp only at h
    split at h
    · exact hhere h
    rcases ih h with hlast | ⟨os, htiled, hlen, hrest⟩
    · exact hhere hlast
    · refine .inr ⟨o :: os, .cons (by omega) htiled, ?_, hrest⟩
      intro x hx
      rcases List.mem_cons.mp hx with rfl | hx
      · omega
      · exact hlen x hx

/-- In a block with other bytes, a live entry that the loop finds stays beside the new entry. -/
theorem placeEntry_keeps_stale {data' : Bytes} (hl : lastEntry data bs bs 0 none = some l)
    (hplace : placeEntry data bs inodeNo name fileType = some data') (hfilled : FilledBlock data' bs)
    (hname : name.length < 256) (hinode : inodeNo < 2 ^ 32) (hne : inodeNo ≠ 0) :
    ∃ front e back, blockEntries data' bs = front ++ e :: (name, inodeNo) :: back := by
  obtain ⟨os, htiled, hlen, hlt, hlive⟩ := (lastEntry_reached hl).resolve_left (by simp)
  simp only [placeEntry, hl] at hplace
  split at hplace
  swap
  · cases hplace
  next hroom =>
  split at hplace
  · cases hplace
  next hend =>
  obtain rfl := Option.some.inj hplace
  have hs := add_le_entrySize name.length
  have ha := add_le_entrySize (entryNameLen data l)
  obtain ⟨hinodel, -, -⟩ := @splitRecord_self _ inodeNo _ _ fileType hroom
  obtain ⟨hrecl, hrecn⟩ := @splitRecord_recLen _ inodeNo _ _ fileType hroom
  set data' := splitRecord data l inodeNo name fileType
  have htiled' : Tiled (entryRecLen data') l 0 os := by
    refine htiled.congr fun x hx => entryRecLen_congr fun i _ hi => ?_
    have hbound := htiled.bounds hx
    have h8 := hlen x hx
    exact splitRecord_of_ne hroom (by omega) (by omega)
  obtain ⟨rs, hrs, hrest⟩ := htiled'.prefix_of_le hfilled.tiled hlt.le
  obtain ⟨rs₁, rfl, hrest₁⟩ := hrest.exists_cons hlt
  rw [hrecl] at hrest₁
  obtain ⟨rs₂, rfl, -⟩ := hrest₁.exists_cons (by omega)
  have hnew : entryInode data' (l + entrySize (entryNameLen data l)) = inodeNo := entryInode_writeEntry hinode
  have hnewName : entryName data' (l + entrySize (entryNameLen data l)) = name := entryName_writeEntry hname
  refine ⟨entriesAt data' os, (entryName data' l, entryInode data' l), entriesAt data' rs₂, ?_⟩
  rw [blockEntries, hrs, entriesAt_append, entriesAt_cons_live (by rw [hinodel]; exact hlive),
    entriesAt_cons_live (by rw [hnew]; exact hne), hnew, hnewName]

/-! ## What adding an entry means -/

/-- The inodes that a list of entries has under a name -/
def inodesOf (entries : List (Str × ℕ)) (name : Str) : List ℕ :=
  (entries.filter fun e => e.1 = name).map Prod.snd

/-- A parent directory: a well-formed directory without holes, whose blocks and index blocks are used once and are
apart from the inode table, on a drive whose free blocks are apart from the block bitmaps and the inode table -/
structure DirParent (k : PlainKernel) (parent : ℕ) : Prop where
  /-- Blocks have 1024 to 65536 bytes. -/
  shift_le : k.sb.blockSizeShift ≤ 6
  inode : ValidInode k parent
  dir : WellFormedDir k (k.loadInode parent)
  mapped : ∀ l < (k.loadInode parent).size / k.sb.blockSize, bmap (k.loadInode parent) k l ≠ 0
  tree : TreeShaped blockOps (mapShape k.sb.ptrs) (mapOf (k.loadInode parent) k)
  apart : ∀ a, (mapShape k.sb.ptrs).Valid a → ptr blockOps (mapOf (k.loadInode parent) k) a ≠ 0 →
    ptr blockOps (mapOf (k.loadInode parent) k) a ≠ (k.place parent).1
  table : ∀ g < k.sb.cachedDescs, (k.bgdt g).blockBitmap ≠ (k.place parent).1
  free : ∀ g < k.sb.cachedDescs, ∀ i ∈ k.clearBits blockBitmaps g,
    blockBitmaps.number k.sb g i ≠ (k.place parent).1 ∧
      ∀ g' < k.sb.cachedDescs, (k.bgdt g').blockBitmap ≠ blockBitmaps.number k.sb g i

/-- A record of the directory has room for the name: a deleted one, or what a live one does not need -/
def HasSlot (k : PlainKernel) (dir : Inode) (name : Str) : Prop :=
  ∃ b ∈ dirBlocks k dir, ∃ o ∈ blockRecords (k.blk b) k.sb.blockSize,
    (if entryInode (k.blk b) o = 0 then 0 else entrySize (entryNameLen (k.blk b) o)) + entrySize name.length ≤
      entryRecLen (k.blk b) o

/-- A group of the image has a free block. -/
def HasFreeBlock (k : PlainKernel) : Prop :=
  ∃ g < k.sb.realGroups, g < k.sb.cachedDescs ∧ k.clearBits blockBitmaps g ≠ []

/-- The directory after the call has the new name, every other name as before, and filled blocks. -/
structure Added (k k' : PlainKernel) (parent inodeNo : ℕ) (name : Str) : Prop where
  filled : ∀ b ∈ dirBlocks k' (k'.loadInode parent), FilledBlock (k'.blk b) k.sb.blockSize
  new : inodesOf (dirEntries k' (k'.loadInode parent)) name = [inodeNo]
  others : ∀ t, t ≠ name →
    inodesOf (dirEntries k' (k'.loadInode parent)) t = inodesOf (dirEntries k (k.loadInode parent)) t

/-- `ext2_add_dir_entry` adds an entry: it succeeds if there is a slot or a free block, and if it succeeds the entry
has been added. -/
def AddsEntry (k : PlainKernel) (parent : ℕ) (name : Str) (inodeNo : ℕ) (fileType : UInt8) : Prop :=
  (HasSlot k (k.loadInode parent) name ∨ HasFreeBlock k →
    ∃ k', (ext2AddDirEntry parent name inodeNo fileType).exec k = some (true, k')) ∧
  ∀ k', (ext2AddDirEntry parent name inodeNo fileType).exec k = some (true, k') → Added k k' parent inodeNo name

/-- The last live record of a block, if there is one, has room for the name and lies in the block. -/
def HasRoom (data : Bytes) (bs : ℕ) (name : Str) : Prop :=
  ∀ l, lastEntry data bs bs 0 none = some l →
    entrySize (entryNameLen data l) + entrySize name.length ≤ entryRecLen data l ∧ l + entryRecLen data l ≤ bs

/-- The last block of a directory -/
def lastDirBlock (k : PlainKernel) (dir : Inode) : ℕ := bmap dir k (dir.size / k.sb.blockSize - 1)

/-- Where `ext2_add_dir_entry` looks there is room: in the last block of the directory, which `ext2_get_bmap` reaches,
or, for a directory without blocks, in the bytes of the block that the allocator hands out. -/
def Takes (k : PlainKernel) (parent : ℕ) (name : Str) : Prop :=
  let dir := k.loadInode parent
  k.heap 0 = true ∧
    if dir.size = 0 then
      ∃ f k₂, ext2AllocBlock.exec (k.popHeap 1) = some (f, k₂) ∧ f ≠ 0 ∧ k₂.heap 0 = true ∧
        HasRoom (k.blk f) k.sb.blockSize name
    else (k.sb.blockSize ≤ tableBytes ∨ dir.size / k.sb.blockSize - 1 < 12) ∧ k.heap 1 = true ∧
      HasRoom (k.blk (lastDirBlock k dir)) k.sb.blockSize name

/-- Nothing is in the way of an entry that is put there: a record can have the length of a block if it has to, and a
new block shows no live record and there is memory to write the inode of the directory. -/
def Clean (k : PlainKernel) (parent : ℕ) : Prop :=
  let dir := k.loadInode parent
  if dir.size = 0 then
    ∀ f k₂, ext2AllocBlock.exec (k.popHeap 1) = some (f, k₂) →
      lastEntry (k.blk f) k.sb.blockSize k.sb.blockSize 0 none = none ∧ k₂.heap 1 = true ∧ k.sb.blockSize < 65536
  else lastEntry (k.blk (lastDirBlock k dir)) k.sb.blockSize k.sb.blockSize 0 none = none → k.sb.blockSize < 65536

/-! ## One block of the directory -/

variable {k k' : PlainKernel} {dir : Inode} {parent p : ℕ}

/-- The entry fits, or `placeEntry` fails. -/
theorem placeEntry_isSome : (∃ data', placeEntry data bs inodeNo name fileType = some data') ↔ HasRoom data bs name := by
  unfold HasRoom placeEntry
  cases hl : lastEntry data bs bs 0 none with
  | none => simp
  | some l =>
    simp only [Option.some.injEq, forall_eq']
    have ha := add_le_entrySize name.length
    split
    · next hroom =>
      split
      · simp only [reduceCtorEq, exists_false, false_iff]
        omega
      · simp only [Option.some.injEq, exists_eq', true_iff]
        omega
    · simp only [reduceCtorEq, exists_false, false_iff]
      omega

/-- Behind the block nothing changes. -/
theorem placeEntry_tail {data' : Bytes} (h : placeEntry data bs inodeNo name fileType = some data')
    (hbs : entrySize name.length ≤ bs) {i : ℕ} (hi : bs ≤ i) : data' i = data i := by
  have hs := add_le_entrySize name.length
  unfold placeEntry at h
  cases hl : lastEntry data bs bs 0 none with
  | none =>
    rw [hl] at h
    obtain rfl := Option.some.inj h
    exact writeEntry_of_ne (by omega)
  | some l =>
    simp only [hl] at h
    split at h
    swap
    · cases h
    next hroom =>
    split at h
    · cases h
    next hend =>
    obtain rfl := Option.some.inj h
    have ha := add_le_entrySize (entryNameLen data l)
    exact splitRecord_of_ne hroom (by omega) (by omega)

/-- The write of the second half, when it finds a block and memory for it -/
theorem exec_addToBlock {lastBlock : ℕ} (hv : ValidInode k parent) (hbmap : (ext2GetBmap dir lastBlock).exec k = some (p, k))
    (hp : p ≠ 0) (hheap : k.heap 0 = true) :
    (addToBlock parent dir lastBlock inodeNo name fileType).exec k =
      match placeEntry (k.blk p) k.sb.blockSize inodeNo name fileType with
      | none => some (false, k.popHeap 1)
      | some data' =>
        let k₁ := (k.popHeap 1).setBlk p data'
        some (true, if k.heap 1 then (k₁.popHeap 1).storeInode parent dir else k₁.popHeap 1) := by
  rw [addToBlock, exec_bind, exec_superblock, Option.bind_some, exec_bind, hbmap, Option.bind_some, if_neg hp,
    exec_bind, exec_kmalloc, hheap, Option.bind_some, if_pos rfl, exec_bind, exec_ext2ReadBlock, Option.bind_some,
    popHeap_blk]
  cases placeEntry (k.blk p) k.sb.blockSize inodeNo name fileType with
  | none => rfl
  | some data' =>
    have hdisk := diskOnly_setBlk (k.popHeap 1) p data'
    have hv₁ : ValidInode ((k.popHeap 1).setBlk p data') parent :=
      ⟨hv.ne_zero, by rw [hdisk.sb]; exact hv.le, by rw [hdisk.sb]; exact hv.cached,
        by rw [hdisk.sb]; exact hv.size, by rw [hdisk.place, hdisk.sb]; exact hv.fits⟩
    simp only [exec_bind, exec_ext2WriteBlock, Option.bind_some]
    cases hheap₁ : k.heap 1 with
    | true =>
      rw [exec_ext2WriteInode_of_heap (by rw [hdisk.heap]; exact hheap₁) hv₁]
      rfl
    | false =>
      rw [exec_ext2WriteInode_of_no_heap (by rw [hdisk.heap]; exact hheap₁) hv₁]
      rfl

/-- When the second half succeeds, and in which state -/
theorem addToBlock_true_iff {lastBlock : ℕ} (hv : ValidInode k parent)
    (hbmap : (ext2GetBmap dir lastBlock).exec k = some (p, k)) :
    (addToBlock parent dir lastBlock inodeNo name fileType).exec k = some (true, k') ↔
      p ≠ 0 ∧ k.heap 0 = true ∧ ∃ data', placeEntry (k.blk p) k.sb.blockSize inodeNo name fileType = some data' ∧
        k' = if k.heap 1 then (((k.popHeap 1).setBlk p data').popHeap 1).storeInode parent dir
          else ((k.popHeap 1).setBlk p data').popHeap 1 := by
  by_cases hp : p = 0
  · rw [addToBlock, exec_bind, exec_superblock, Option.bind_some, exec_bind, hbmap, Option.bind_some, if_pos hp]
    simp [hp]
  cases hheap : k.heap 0 with
  | false =>
    rw [addToBlock, exec_bind, exec_superblock, Option.bind_some, exec_bind, hbmap, Option.bind_some, if_neg hp,
      exec_bind, exec_kmalloc, hheap, Option.bind_some, if_neg (by simp)]
    simp
  | true =>
    rw [exec_addToBlock hv hbmap hp hheap]
    cases placeEntry (k.blk p) k.sb.blockSize inodeNo name fileType with
    | none => simp
    | some data' =>
      constructor
      · intro h
        rw [Option.some.injEq, Prod.mk.injEq] at h
        exact ⟨hp, rfl, data', rfl, h.2.symm⟩
      · rintro ⟨-, -, d, hd, rfl⟩
        obtain rfl := Option.some.inj hd
        rfl

/-! ## The call -/

section

variable (hp : DirParent k parent) (hname : 1 ≤ name.length) (hname' : name.length ≤ 250)
include hp hname hname'

theorem exec_add_of_no_heap (hheap : k.heap 0 = false) :
    (ext2AddDirEntry parent name inodeNo fileType).exec k = none := by
  have hne := hp.inode.ne_zero
  rw [ext2AddDirEntry, if_neg (by omega), exec_bind,
    exec_ext2GetInode_of_no_heap hheap hp.inode.inRange hp.inode.cached]
  rfl

/-- A directory with blocks gets the entry into its last block. -/
theorem exec_add_of_blocks (hheap : k.heap 0 = true) (hsize : (k.loadInode parent).size ≠ 0) :
    (ext2AddDirEntry parent name inodeNo fileType).exec k =
      (addToBlock parent (k.loadInode parent) ((k.loadInode parent).size / k.sb.blockSize - 1) inodeNo name
        fileType).exec (k.popHeap 1) := by
  have hne := hp.inode.ne_zero
  have hblocks : 0 < (k.loadInode parent).size / k.sb.blockSize :=
    Nat.div_pos (Nat.le_of_dvd (by omega) hp.dir.size_dvd) k.sb.blockSize_pos
  have hlt : (k.loadInode parent).size / k.sb.blockSize < 2 ^ 32 :=
    (Nat.div_le_self _ _).trans_lt (k.loadInode parent).size_lt
  have hfirst : (ext2GetBmap (k.loadInode parent) 0).exec (k.popHeap 1) =
      some (bmap (k.loadInode parent) k 0, k.popHeap 1) := by
    rw [exec_ext2GetBmap_of_dir (by exact hblocks), if_pos (.inr (by decide))]
    rfl
  have hlast : ((k.loadInode parent).size / k.sb.blockSize + (2 ^ 32 - 1)) % 2 ^ 32 =
      (k.loadInode parent).size / k.sb.blockSize - 1 := by
    omega
  rw [ext2AddDirEntry, if_neg (by omega), exec_bind, exec_ext2GetInode_of_heap hheap hp.inode, Option.bind_some]
  simp only [exec_bind, exec_superblock, Option.bind_some, if_neg hsize, hfirst, if_neg (hp.mapped 0 hblocks),
    popHeap_sb]
  rw [if_pos (by omega), totalBlocks_of_dvd hp.dir.size_dvd, hlast]

/-- A directory without blocks gets one. -/
theorem exec_add_of_empty (hheap : k.heap 0 = true) (hsize : (k.loadInode parent).size = 0) :
    (ext2AddDirEntry parent name inodeNo fileType).exec k =
      (ext2AllocBlock.exec (k.popHeap 1)).bind fun r =>
        if r.1 = 0 then some (false, r.2)
        else (addToBlock parent (withFirstBlock (k.loadInode parent) r.1 k.sb.blockSize) 0 inodeNo name
          fileType).exec r.2 := by
  have hne := hp.inode.ne_zero
  rw [ext2AddDirEntry, if_neg (by omega), exec_bind, exec_ext2GetInode_of_heap hheap hp.inode, Option.bind_some]
  simp only [exec_bind, exec_superblock, Option.bind_some, hsize, if_true, lt_irrefl, if_false, exec_pure,
    popHeap_sb, exec_ite]
  rfl

end

/-- The assignments of a first block -/
theorem withFirstBlock_block (dir : Inode) {f : ℕ} (hf : f < 2 ^ 32) (bs : ℕ) : (withFirstBlock dir f bs).block 0 = f := by
  rw [withFirstBlock, Inode.block_setBlocks (by decide), Inode.block_setSize (by decide),
    Inode.block_setBlock_self (by decide), Nat.mod_eq_of_lt hf]

theorem withFirstBlock_size (dir : Inode) (f : ℕ) {bs : ℕ} (hbs : bs < 2 ^ 32) : (withFirstBlock dir f bs).size = bs := by
  rw [withFirstBlock, Inode.size_setBlocks, Inode.size_setSize, Nat.mod_eq_of_lt hbs]

/-- A block that the allocator hands out is a free block of a group, whose bitmap is all that changes on the disk. -/
theorem exec_ext2AllocBlock_of_ne {k₂ : PlainKernel} {f : ℕ} (h : ext2AllocBlock.exec k = some (f, k₂)) (hf : f ≠ 0) :
    ∃ g < k.sb.cachedDescs, ∃ i ∈ k.clearBits blockBitmaps g, ∃ c, f = blockBitmaps.number k.sb g i ∧
      k₂ = (k.takeBit blockBitmaps g i).popHeap c := by
  rw [ext2AllocBlock, exec_alloc] at h
  cases hstop : scanStop blockBitmaps k (List.range k.sb.scanned) with
  | none =>
    rw [hstop, Option.some.injEq, Prod.mk.injEq] at h
    exact absurd h.1.symm hf
  | some g =>
    rw [hstop] at h
    dsimp only at h
    split at h
    swap
    · cases h
    next hg =>
    rw [Option.map_eq_some_iff] at h
    obtain ⟨i, hi, heq⟩ := h
    rw [Prod.mk.injEq] at heq
    refine ⟨g, hg, i, ?_, _, heq.1.symm, heq.2.symm⟩
    rw [usableBit] at hi
    split at hi
    · exact List.mem_of_head? hi
    · cases hi

/-- The block that a directory without blocks gets is apart from the inode, and has the bytes that it had. -/
theorem DirParent.fresh (hp : DirParent k parent) {k₂ : PlainKernel} {f : ℕ}
    (h : ext2AllocBlock.exec (k.popHeap 1) = some (f, k₂)) (hf : f ≠ 0) :
    k₂.sb = k.sb ∧ k₂.place parent = k.place parent ∧ f ≠ (k.place parent).1 ∧ k₂.blk f = k.blk f ∧
      k₂.loadInode parent = k.loadInode parent ∧ ValidInode k₂ parent ∧ f < 2 ^ 32 := by
  obtain ⟨g, hg, i, hi, c, hnumber, rfl⟩ := exec_ext2AllocBlock_of_ne h hf
  have hi' : i ∈ k.clearBits blockBitmaps g := hi
  obtain ⟨hne, hapart⟩ := hp.free g hg i hi'
  have hbitmap := hapart g hg
  have hdisk := diskOnly_takeBlock (k.popHeap 1) g i
  have hblk : ((k.popHeap 1).takeBit blockBitmaps g i).blk = Function.update k.blk (k.bgdt g).blockBitmap
      (setBit (k.blk (k.bgdt g).blockBitmap) i) := takeBit_blk _ _ (mem_clearBits hi).2.1
  have hload : ((k.popHeap 1).takeBit blockBitmaps g i).loadInode parent = k.loadInode parent := by
    refine (loadInode_congr hdisk ?_).trans rfl
    rw [hblk]
    exact Function.update_of_ne (hp.table g hg).symm _ _
  have hplace : ((k.popHeap 1).takeBit blockBitmaps g i).place parent = k.place parent := hdisk.place parent
  have hsb : ((k.popHeap 1).takeBit blockBitmaps g i).sb = k.sb := hdisk.sb
  have hnumber : f = blockBitmaps.number k.sb g i := hnumber
  refine ⟨hsb, hplace, hnumber ▸ hne, ?_, hload, ?_, ?_⟩
  · refine (congrFun hblk f).trans (Function.update_of_ne ?_ _ _)
    rw [hnumber]
    exact hbitmap.symm
  · have hv : ValidInode ((k.popHeap 1).takeBit blockBitmaps g i) parent :=
      ⟨hp.inode.ne_zero, by rw [hsb]; exact hp.inode.le, by rw [hsb]; exact hp.inode.cached,
        by rw [hsb]; exact hp.inode.size, by rw [hplace, hsb]; exact hp.inode.fits⟩
    exact ⟨hv.ne_zero, hv.le, hv.cached, hv.size, hv.fits⟩
  · rw [hnumber]
    exact Nat.mod_lt _ (by decide)

/-! ## The directory afterwards -/

theorem inodesOf_append (es es' : List (Str × ℕ)) (t : Str) : inodesOf (es ++ es') t = inodesOf es t ++ inodesOf es' t := by
  rw [inodesOf, List.filter_append, List.map_append]
  rfl

theorem inodesOf_of_not_mem {es : List (Str × ℕ)} (h : name ∉ es.map Prod.fst) : inodesOf es name = [] := by
  rw [inodesOf, List.filter_eq_nil_iff.mpr, List.map_nil]
  intro e he heq
  exact h (List.mem_map.mpr ⟨e, he, by simpa using heq⟩)

/-- A new entry behind the others is what adding an entry means. -/
theorem added_of_entries (habsent : name ∉ (dirEntries k (k.loadInode parent)).map Prod.fst)
    (hfilled : ∀ b ∈ dirBlocks k' (k'.loadInode parent), FilledBlock (k'.blk b) k.sb.blockSize)
    (hentries : dirEntries k' (k'.loadInode parent) = dirEntries k (k.loadInode parent) ++ [(name, inodeNo)]) :
    Added k k' parent inodeNo name := by
  refine ⟨hfilled, ?_, fun t ht => ?_⟩
  · rw [hentries, inodesOf_append, inodesOf_of_not_mem habsent]
    simp [inodesOf]
  · rw [hentries, inodesOf_append, @inodesOf_of_not_mem _ [(name, inodeNo)] (by simpa using ht), List.append_nil]

/-- A record with the length of the largest block does not fill it. -/
theorem not_filledBlock_of_large {data' : Bytes} (hl : lastEntry data bs bs 0 none = none)
    (hplace : placeEntry data bs inodeNo name fileType = some data') (hbs : bs = 65536) : ¬FilledBlock data' bs := by
  intro hfilled
  rw [placeEntry, hl] at hplace
  obtain rfl := Option.some.inj hplace
  obtain ⟨os, hos, -⟩ := hfilled.tiled.exists_cons (by omega)
  have h8 := hfilled.eight_le (o := 0) (hos ▸ List.mem_cons_self)
  rw [entryRecLen_writeEntry, hbs] at h8
  omega

theorem dirEntries_of_mapped (h : ∀ l < dir.size / k.sb.blockSize, bmap dir k l ≠ 0) :
    dirBlocks k dir = (List.range (dir.size / k.sb.blockSize)).map (bmap dir k) ∧
      dirEntries k dir = (List.range (dir.size / k.sb.blockSize)).flatMap fun l =>
        blockEntries (k.blk (bmap dir k l)) k.sb.blockSize := by
  have hblocks : dirBlocks k dir = (List.range (dir.size / k.sb.blockSize)).map (bmap dir k) := by
    refine List.filter_eq_self.mpr fun b hb => ?_
    obtain ⟨l, hl, rfl⟩ := List.mem_map.mp hb
    simpa using h l (List.mem_range.mp hl)
  exact ⟨hblocks, by rw [dirEntries, hblocks, List.flatMap_map]⟩

namespace DirParent

/-- The last block of a directory is a block of the directory, and not one of its index blocks. -/
theorem bmap_of_write (hp : DirParent k parent) {data' : Bytes} (hsb : k'.sb = k.sb)
    (hblk : k'.blk = Function.update k.blk (lastDirBlock k (k.loadInode parent)) data') {l : ℕ}
    (hl : l < (k.loadInode parent).size / k.sb.blockSize) :
    bmap (k.loadInode parent) k' l = bmap (k.loadInode parent) k l := by
  have hpos : 0 < k.sb.ptrs := lt_of_lt_of_le (by norm_num) k.sb.le_ptrs
  have hlast : (mapShape k.sb.ptrs).Leaf (leafAddr k.sb.ptrs ((k.loadInode parent).size / k.sb.blockSize - 1)) :=
    leafAddr_leaf hpos (@dir_lt_mapLimit _ (k.loadInode parent) _ (by omega))
  rw [bmap, bmap, hsb]
  refine ptr_congr (S := mapShape k.sb.ptrs) ?_ ?_ (leafAddr_leaf hpos (dir_lt_mapLimit hl)).1
  · intro s _
    rfl
  intro a ha hdepth hne i
  have hother : ptr blockOps (mapOf (k.loadInode parent) k) a ≠ lastDirBlock k (k.loadInode parent) := by
    intro heq
    have haddr := hp.tree _ _ ha hlast.1 hne heq
    have hdeep := hlast.2
    rw [← haddr] at hdeep
    omega
  exact congrArg (blockOps.get · i) ((congrFun hblk _).trans (Function.update_of_ne hother _ _))

/-- A write of the last block changes the entries of that block only. -/
theorem dirEntries_of_write (hp : DirParent k parent) {data' : Bytes} (hsize : (k.loadInode parent).size ≠ 0)
    (hsb : k'.sb = k.sb)
    (hblk : k'.blk = Function.update k.blk (lastDirBlock k (k.loadInode parent)) data') :
    (∃ front, dirEntries k (k.loadInode parent) =
        front ++ blockEntries (k.blk (lastDirBlock k (k.loadInode parent))) k.sb.blockSize ∧
      dirEntries k' (k.loadInode parent) = front ++ blockEntries data' k.sb.blockSize) ∧
    dirBlocks k' (k.loadInode parent) = dirBlocks k (k.loadInode parent) ∧
    lastDirBlock k (k.loadInode parent) ∈ dirBlocks k (k.loadInode parent) := by
  have hpos : 0 < k.sb.ptrs := lt_of_lt_of_le (by norm_num) k.sb.le_ptrs
  have hblocks : 0 < (k.loadInode parent).size / k.sb.blockSize :=
    Nat.div_pos (Nat.le_of_dvd (by omega) hp.dir.size_dvd) k.sb.blockSize_pos
  obtain ⟨n, hn⟩ : ∃ n, (k.loadInode parent).size / k.sb.blockSize = n + 1 := ⟨_, (Nat.succ_pred hblocks.ne').symm⟩
  have hlast : lastDirBlock k (k.loadInode parent) = bmap (k.loadInode parent) k n := by
    rw [lastDirBlock, hn, Nat.add_sub_cancel]
  obtain ⟨hb, he⟩ := dirEntries_of_mapped hp.mapped
  have hmapped' : ∀ l < (k.loadInode parent).size / k'.sb.blockSize, bmap (k.loadInode parent) k' l ≠ 0 := by
    intro l hl
    rw [hsb] at hl
    rw [hp.bmap_of_write hsb hblk hl]
    exact hp.mapped l hl
  obtain ⟨hb', he'⟩ := dirEntries_of_mapped hmapped'
  rw [hsb, hn, List.range_succ] at hb' he'
  rw [hn, List.range_succ] at hb he
  refine ⟨⟨_, by rw [he, List.flatMap_append, List.flatMap_singleton, hlast], ?_⟩, ?_, ?_⟩
  · rw [he', List.flatMap_append, List.flatMap_singleton, hp.bmap_of_write hsb hblk (by omega), ← hlast, hblk,
      Function.update_self]
    congr 1
    refine List.flatMap_congr fun l hl => ?_
    have hl := List.mem_range.mp hl
    rw [hp.bmap_of_write hsb hblk (by omega), Function.update_of_ne]
    intro heq
    have hleaf : ∀ {m}, m < (k.loadInode parent).size / k.sb.blockSize →
        (mapShape k.sb.ptrs).Valid (leafAddr k.sb.ptrs m) := fun hm => (leafAddr_leaf hpos (dir_lt_mapLimit hm)).1
    have haddr := hp.tree _ _ (hleaf (m := l) (by omega)) (hleaf (m := n) (by omega)) (hp.mapped l (by omega))
      (heq.trans hlast)
    have := leafAddr_inj haddr
    omega
  · rw [hb, hb']
    refine List.map_congr_left fun l hl => hp.bmap_of_write hsb hblk ?_
    rw [hn]
    exact List.mem_range.mp (List.range_succ ▸ hl)
  · rw [hb, hlast]
    exact List.mem_map.mpr ⟨n, by simp, rfl⟩

section

variable (hp : DirParent k parent) (hname : 1 ≤ name.length) (hname' : name.length ≤ 250)
include hp hname hname'

/-- When a directory with blocks gets the entry, and in which state -/
theorem exec_blocks_iff (hheap : k.heap 0 = true) (hsize : (k.loadInode parent).size ≠ 0) :
    (ext2AddDirEntry parent name inodeNo fileType).exec k = some (true, k') ↔
      (k.sb.blockSize ≤ tableBytes ∨ (k.loadInode parent).size / k.sb.blockSize - 1 < 12) ∧ k.heap 1 = true ∧
        ∃ data', placeEntry (k.blk (lastDirBlock k (k.loadInode parent))) k.sb.blockSize inodeNo name fileType =
            some data' ∧
          k' = if k.heap 2 then (((k.popHeap 2).setBlk (lastDirBlock k (k.loadInode parent)) data').popHeap 1).storeInode
              parent (k.loadInode parent)
            else ((k.popHeap 2).setBlk (lastDirBlock k (k.loadInode parent)) data').popHeap 1 := by
  have hblocks : 0 < (k.loadInode parent).size / k.sb.blockSize :=
    Nat.div_pos (Nat.le_of_dvd (by omega) hp.dir.size_dvd) k.sb.blockSize_pos
  have hmapped := hp.mapped ((k.loadInode parent).size / k.sb.blockSize - 1) (by omega)
  have hbmap := @exec_ext2GetBmap_of_dir (k.popHeap 1) (k.loadInode parent)
    ((k.loadInode parent).size / k.sb.blockSize - 1) (by rw [popHeap_sb]; omega)
  have hv : ValidInode (k.popHeap 1) parent :=
    ⟨hp.inode.ne_zero, hp.inode.le, hp.inode.cached, hp.inode.size, hp.inode.fits⟩
  rw [exec_add_of_blocks hp hname hname' hheap hsize, addToBlock_true_iff hv hbmap]
  by_cases hreach : k.sb.blockSize ≤ tableBytes ∨ (k.loadInode parent).size / k.sb.blockSize - 1 < 12
  · rw [popHeap_sb, if_pos hreach]
    exact ⟨fun h => ⟨hreach, h.2⟩, fun h => ⟨hmapped, h.2⟩⟩
  · rw [popHeap_sb, if_neg hreach]
    exact ⟨fun h => absurd rfl h.1, fun h => absurd h.1 hreach⟩

/-- In a directory with blocks the entry has been added, unless its record would have the length of the largest
block. -/
theorem added_iff_of_blocks (hheap : k.heap 0 = true) (hsize : (k.loadInode parent).size ≠ 0)
    (habsent : name ∉ (dirEntries k (k.loadInode parent)).map Prod.fst) (hinode : inodeNo < 2 ^ 32) (hne : inodeNo ≠ 0)
    (hrun : (ext2AddDirEntry parent name inodeNo fileType).exec k = some (true, k')) :
    Added k k' parent inodeNo name ↔
      (lastEntry (k.blk (lastDirBlock k (k.loadInode parent))) k.sb.blockSize k.sb.blockSize 0 none = none →
        k.sb.blockSize < 65536) := by
  obtain ⟨-, -, data', hplace, hk'⟩ := (exec_blocks_iff hp hname hname' hheap hsize).mp hrun
  have hroom : entrySize name.length ≤ k.sb.blockSize := by
    have := k.sb.le_blockSize
    unfold entrySize
    omega
  have hbs : k.sb.blockSize ≤ 65536 := by
    have hpow := Nat.pow_le_pow_right (n := 2) (by decide) hp.shift_le
    unfold Superblock.blockSize
    omega
  set p := lastDirBlock k (k.loadInode parent) with hpdef
  have hblocks : 0 < (k.loadInode parent).size / k.sb.blockSize :=
    Nat.div_pos (Nat.le_of_dvd (by omega) hp.dir.size_dvd) k.sb.blockSize_pos
  have hleaf := (@leafAddr_leaf k.sb.ptrs _ (lt_of_lt_of_le (by norm_num) k.sb.le_ptrs)
    (@dir_lt_mapLimit k (k.loadInode parent) ((k.loadInode parent).size / k.sb.blockSize - 1) (by omega))).1
  have hplace' : p ≠ (k.place parent).1 := hp.apart _ hleaf (hp.mapped _ (by omega))
  have hdata : trunc k.sb.blockSize data' = data' := by
    funext i
    unfold trunc
    split
    · rfl
    · next hi =>
      rw [placeEntry_tail hplace hroom (Nat.not_lt.mp hi)]
      exact (if_neg hi).symm
  -- The inode is written back as it was.
  have hstate : k'.sb = k.sb ∧ k'.loadInode parent = k.loadInode parent ∧
      k'.blk = Function.update k.blk p data' := by
    have hdisk := diskOnly_setBlk (k.popHeap 2) p data'
    have hblk : ((k.popHeap 2).setBlk p data').blk = Function.update k.blk p data' := by
      rw [setBlk_blk, popHeap_sb, hdata]
      rfl
    have hload : ((k.popHeap 2).setBlk p data').loadInode parent = k.loadInode parent := by
      refine (loadInode_congr hdisk ?_).trans rfl
      rw [hblk]
      exact Function.update_of_ne hplace'.symm _ _
    have hstored : (((k.popHeap 2).setBlk p data').popHeap 1).storeInode parent (k.loadInode parent) =
        (((k.popHeap 2).setBlk p data').popHeap 1).storeInode parent
          ((((k.popHeap 2).setBlk p data').popHeap 1).loadInode parent) :=
      congrArg _ hload.symm
    rw [hk']
    split
    · rw [hstored]
      refine ⟨(diskOnly_storeInode _ _ _).sb.trans hdisk.sb, ?_, (storeInode_loadInode _ _).trans hblk⟩
      exact (loadInode_congr (diskOnly_storeInode _ _ _) (congrFun (storeInode_loadInode _ _) _)).trans hload
    · exact ⟨hdisk.sb, hload, hblk⟩
  obtain ⟨hsb, hload, hblk⟩ := hstate
  obtain ⟨⟨front, hold, hnew⟩, hdirBlocks, hmem⟩ := hp.dirEntries_of_write hsize hsb hblk
  have hfilled := (hp.dir.blocks p hmem).toFilledBlock
  constructor
  · intro hadded hdead
    refine Nat.lt_of_le_of_ne hbs fun hlarge => not_filledBlock_of_large hdead hplace hlarge ?_
    have hlastFilled := hadded.filled p (by rw [hload, hdirBlocks]; exact hmem)
    rwa [hblk, Function.update_self] at hlastFilled
  · intro hsmall
    have hafter : FilledBlock data' k.sb.blockSize ∧
        blockEntries data' k.sb.blockSize = blockEntries (k.blk p) k.sb.blockSize ++ [(name, inodeNo)] := by
      cases hl : lastEntry (k.blk p) k.sb.blockSize k.sb.blockSize 0 none with
      | none =>
        obtain ⟨d, hd, hf, he⟩ := @placeEntry_of_dead _ _ _ _ fileType hl hroom (hsmall hl) (by omega) hinode hne
        obtain rfl := Option.some.inj (hd.symm.trans hplace)
        exact ⟨hf, by rw [he, hfilled.blockEntries_of_dead hl]; rfl⟩
      | some l =>
        obtain ⟨hfits, -⟩ := placeEntry_isSome.mp ⟨data', hplace⟩ l hl
        obtain ⟨d, hd, hf, he⟩ := @placeEntry_of_live _ _ _ _ _ fileType hfilled hl hfits (by omega) hinode hne
        obtain rfl := Option.some.inj (hd.symm.trans hplace)
        exact ⟨hf, he⟩
    refine added_of_entries habsent ?_ ?_
    · intro b hb
      rw [hload, hdirBlocks] at hb
      rw [hblk]
      by_cases hbp : b = p
      · rw [hbp, Function.update_self]
        exact hafter.1
      · rw [Function.update_of_ne hbp]
        exact (hp.dir.blocks b hb).toFilledBlock
    · rw [hload, hnew, hafter.2, hold, List.append_assoc]

/-- When a directory without blocks gets the entry, and in which state -/
theorem exec_empty_iff (hheap : k.heap 0 = true) (hsize : (k.loadInode parent).size = 0) :
    (ext2AddDirEntry parent name inodeNo fileType).exec k = some (true, k') ↔
      ∃ f k₂, ext2AllocBlock.exec (k.popHeap 1) = some (f, k₂) ∧ f ≠ 0 ∧ k₂.heap 0 = true ∧
        ∃ data', placeEntry (k.blk f) k.sb.blockSize inodeNo name fileType = some data' ∧
          k' = if k₂.heap 1 then (((k₂.popHeap 1).setBlk f data').popHeap 1).storeInode parent
              (withFirstBlock (k.loadInode parent) f k.sb.blockSize)
            else ((k₂.popHeap 1).setBlk f data').popHeap 1 := by
  rw [exec_add_of_empty hp hname hname' hheap hsize]
  cases halloc : ext2AllocBlock.exec (k.popHeap 1) with
  | none => simp
  | some r =>
    obtain ⟨f, k₂⟩ := r
    rw [Option.bind_some]
    dsimp only
    by_cases hf : f = 0
    · simp [hf]
    obtain ⟨hsb, -, -, hblk, -, hv, hlt⟩ := hp.fresh halloc hf
    have hbmap : (ext2GetBmap (withFirstBlock (k.loadInode parent) f k.sb.blockSize) 0).exec k₂ = some (f, k₂) := by
      rw [ext2GetBmap, exec_bind, exec_superblock, Option.bind_some]
      simp only [Nat.ofNat_pos, if_true, exec_pure, withFirstBlock_block _ hlt]
    rw [if_neg hf, addToBlock_true_iff hv hbmap, hblk, hsb]
    constructor
    · rintro ⟨-, h⟩
      exact ⟨f, k₂, rfl, hf, h⟩
    · rintro ⟨f', k₂', heq, -, h⟩
      rw [Option.some.injEq, Prod.mk.injEq] at heq
      obtain ⟨rfl, rfl⟩ := heq
      exact ⟨hf, h⟩

/-- In a directory without blocks the entry has been added if the bytes of its new block show no live record, there
is memory to write the inode, and its record does not have the length of the largest block. -/
theorem added_iff_of_empty (hheap : k.heap 0 = true) (hsize : (k.loadInode parent).size = 0) (hinode : inodeNo < 2 ^ 32)
    (hne : inodeNo ≠ 0) {f : ℕ} {k₂ : PlainKernel} (halloc : ext2AllocBlock.exec (k.popHeap 1) = some (f, k₂))
    (hrun : (ext2AddDirEntry parent name inodeNo fileType).exec k = some (true, k')) :
    Added k k' parent inodeNo name ↔
      lastEntry (k.blk f) k.sb.blockSize k.sb.blockSize 0 none = none ∧ k₂.heap 1 = true ∧ k.sb.blockSize < 65536 := by
  obtain ⟨f', k₂', halloc', hf, -, data', hplace, hk'⟩ := (exec_empty_iff hp hname hname' hheap hsize).mp hrun
  obtain ⟨rfl, rfl⟩ := Prod.mk.inj (Option.some.inj (halloc.symm.trans halloc'))
  obtain ⟨hsb, hplaceEq, hapart, -, hload, hv, hlt⟩ := hp.fresh halloc hf
  have hroom : entrySize name.length ≤ k.sb.blockSize := by
    have := k.sb.le_blockSize
    unfold entrySize
    omega
  have hbs : k.sb.blockSize ≤ 65536 := by
    have hpow := Nat.pow_le_pow_right (n := 2) (by decide) hp.shift_le
    unfold Superblock.blockSize
    omega
  have hpos := k.sb.blockSize_pos
  have hdisk := diskOnly_setBlk (k₂.popHeap 1) f data'
  have hdata : trunc k.sb.blockSize data' = data' := by
    funext i
    unfold trunc
    split
    · rfl
    · next hi =>
      rw [placeEntry_tail hplace hroom (Nat.not_lt.mp hi)]
      exact (if_neg hi).symm
  have hblk : ((k₂.popHeap 1).setBlk f data').blk = Function.update k₂.blk f data' := by
    rw [setBlk_blk, popHeap_sb, hsb, hdata]
    rfl
  have hold : dirEntries k (k.loadInode parent) = [] := by
    rw [dirEntries, dirBlocks, hsize, Nat.zero_div]
    rfl
  have hlost : k₂.heap 1 = false → ¬Added k k' parent inodeNo name := by
    -- Without memory the inode on the disk still has no block.
    intro hmem hadded
    rw [hmem, if_neg (by simp)] at hk'
    have hsame : k'.loadInode parent = k.loadInode parent := by
      rw [hk']
      refine ((loadInode_congr hdisk ?_).trans hload)
      rw [hblk]
      have hother : (k₂.place parent).1 ≠ f := by rw [hplaceEq]; exact hapart.symm
      exact Function.update_of_ne hother _ _
    have hnew := hadded.new
    rw [hsame, dirEntries, dirBlocks, hsize, Nat.zero_div] at hnew
    cases hnew
  cases hmem : k₂.heap 1 with
  | false => simpa using hlost hmem
  | true =>
    rw [hmem, if_pos rfl] at hk'
    set dir' := withFirstBlock (k.loadInode parent) f k.sb.blockSize
    have hdisk' := diskOnly_storeInode (((k₂.popHeap 1).setBlk f data').popHeap 1) parent dir'
    have hplace₂ : (((k₂.popHeap 1).setBlk f data').popHeap 1).place parent = k.place parent :=
      (hdisk.place parent).trans hplaceEq
    have hload' : k'.loadInode parent = dir' := by
      rw [hk']
      refine loadInode_storeInode ?_ dir'
      rw [hplace₂]
      exact (hdisk.sb.trans hsb).symm ▸ hp.inode.fits
    have hsb' : k'.sb = k.sb := by
      rw [hk']
      exact hdisk'.sb.trans (hdisk.sb.trans hsb)
    have hblk' : k'.blk f = data' := by
      rw [hk', storeInode_blk, hplace₂, Function.update_of_ne hapart]
      exact (congrFun hblk f).trans (Function.update_self _ _ _)
    have hblocks : dirBlocks k' dir' = [f] := by
      have hbmap : bmap dir' k' 0 = f := withFirstBlock_block _ hlt _
      rw [dirBlocks, withFirstBlock_size _ _ (by omega), hsb', Nat.div_self hpos, List.range_one, List.map_singleton,
        hbmap, List.filter_cons_of_pos (by simpa using hf)]
      rfl
    have hentries : dirEntries k' dir' = blockEntries data' k.sb.blockSize := by
      rw [dirEntries, hblocks, List.flatMap_singleton, hblk', hsb']
    constructor
    · intro hadded
      have hfilled := hadded.filled f (by rw [hload', hblocks]; exact List.mem_singleton.mpr rfl)
      rw [hblk'] at hfilled
      have hdead : lastEntry (k.blk f) k.sb.blockSize k.sb.blockSize 0 none = none := by
        cases hl : lastEntry (k.blk f) k.sb.blockSize k.sb.blockSize 0 none with
        | none => rfl
        | some l =>
          obtain ⟨front, e, back, hstale⟩ := placeEntry_keeps_stale hl hplace hfilled (by omega) hinode hne
          have hnew := hadded.new
          have hothers := hadded.others
          simp only [hload', hentries, hold, hstale, inodesOf_append] at hnew hothers
          exfalso
          by_cases heq : e.1 = name
          · have htwo : inodesOf (e :: (name, inodeNo) :: back) name = e.2 :: inodeNo :: inodesOf back name := by
              simp [inodesOf, heq]
            have hlength := congrArg List.length hnew
            rw [htwo, List.length_append, List.length_cons, List.length_cons, List.length_singleton] at hlength
            omega
          · have hnone := hothers e.1 heq
            simp [inodesOf] at hnone
      exact ⟨hdead, rfl, Nat.lt_of_le_of_ne hbs fun hlarge => not_filledBlock_of_large hdead hplace hlarge hfilled⟩
    · rintro ⟨hdead, -, hsmall⟩
      obtain ⟨d, hd, hf', he⟩ := @placeEntry_of_dead _ _ _ _ fileType hdead hroom hsmall (by omega) hinode hne
      obtain rfl := Option.some.inj (hd.symm.trans hplace)
      refine added_of_entries (by rw [hold]; simp) ?_ (by rw [hload', hentries, he, hold]; rfl)
      intro b hb
      rw [hload', hblocks, List.mem_singleton] at hb
      rw [hb, hblk']
      exact hf'

end

end DirParent

/-- The sample image with a block bitmap and the records of its root directory -/
def dirImage (records : List (ℕ × ℕ × UInt8)) : PlainKernel :=
  Kernel.oneDrive (sampleDrive (str "A")) (blocksOf (bytesAt 2 0 [0x7F, 0] ++ sampleRoot ++ records))

theorem dirImage_parent {records : List (ℕ × ℕ × UInt8)}
    (hroot : ∀ s < 15, ((dirImage records).loadInode 2).block s = if s = 0 then 5 else 0)
    (hsize : ((dirImage records).loadInode 2).size = 4096)
    (hfree : ∀ i ∈ (dirImage records).clearBits blockBitmaps 0, 7 ≤ i ∧ i < 16)
    (hdir : WellFormedDir (dirImage records) ((dirImage records).loadInode 2)) :
    DirParent (dirImage records) 2 := by
  have hsb : (dirImage records).sb = sampleSb := rfl
  have hplace : (dirImage records).place 2 = (4, 128) := by
    have hbgdt : (dirImage records).bgdt = (sampleDrive (str "A")).bgdtCache := rfl
    rw [Kernel.place, hsb, hbgdt]
    decide
  have hblocks : ((dirImage records).loadInode 2).size / (dirImage records).sb.blockSize = 1 := by
    have hone : 4096 / sampleSb.blockSize = 1 := by decide
    rw [hsize, hsb, hone]
  have hptr : ∀ a, (mapShape (dirImage records).sb.ptrs).Valid a →
      ptr blockOps (mapOf ((dirImage records).loadInode 2) (dirImage records)) a ≠ 0 → a = (0, []) ∧
        ptr blockOps (mapOf ((dirImage records).loadInode 2) (dirImage records)) a = 5 := by
    rintro ⟨s, is⟩ ha hne
    have hs := hroot s ha.slot
    by_cases h0 : s = 0
    · subst h0
      have hdepth : is.length ≤ 0 - 11 := ha.depth
      obtain rfl := List.eq_nil_of_length_eq_zero (Nat.le_zero.mp hdepth)
      exact ⟨rfl, hs⟩
    · rw [if_neg h0] at hs
      exact absurd ((congrArg (walk blockOps (dirImage records).blk · is) hs).trans (walk_zero _ _)) hne
  have hbitmaps : ∀ g, g ≠ 0 → ((dirImage records).bgdt g).blockBitmap = 0 := by
    intro g hg
    show (if g = 0 then sampleDesc else GroupDesc.ofBytes zeros 0 : GroupDesc).blockBitmap = 0
    rw [if_neg hg]
    rfl
  have hshift : sampleSb.blockSizeShift ≤ 6 := by decide
  have hle : 2 ≤ sampleSb.totalInodes := by decide
  have hcached : sampleSb.inodeGroup 2 < sampleSb.cachedDescs := by decide
  have hsizes : inodeBytes ≤ sampleSb.diskInodeSize := by decide
  have hfits : (4, 128).2 + inodeBytes ≤ sampleSb.blockSize := by decide
  have hzero : ((dirImage records).bgdt 0).blockBitmap = 2 := rfl
  refine ⟨hshift, ⟨by decide, hle, hcached, hsizes, ?_⟩, hdir, ?_, ?_, ?_, ?_, ?_⟩
  · rw [hplace]
    exact hfits
  · intro l hl
    rw [hblocks] at hl
    obtain rfl : l = 0 := by omega
    have hbmap : bmap ((dirImage records).loadInode 2) (dirImage records) 0 = 5 := hroot 0 (by decide)
    rw [hbmap]
    decide
  · intro a b ha hb hne heq
    exact (hptr a ha hne).1.trans (hptr b hb (heq ▸ hne)).1.symm
  · intro a ha hne
    rw [(hptr a ha hne).2, hplace]
    decide
  · intro g _
    rw [hplace]
    by_cases h0 : g = 0
    · rw [h0, hzero]
      decide
    · rw [hbitmaps g h0]
      decide
  · intro g _ i hi
    by_cases h0 : g = 0
    · subst h0
      obtain ⟨hlo, hhi⟩ := hfree i hi
      have hnumber : blockBitmaps.number (dirImage records).sb 0 i = i := by
        show (0 * 16 + i) % 2 ^ 32 = i
        omega
      rw [hnumber, hplace]
      refine ⟨by omega, fun g' _ => ?_⟩
      by_cases h0' : g' = 0
      · rw [h0']
        show 2 ≠ i
        omega
      · rw [hbitmaps g' h0']
        omega
    · rw [clearBits_of_bitmap_eq_zero (hbitmaps g h0)] at hi
      cases hi

/-- A root directory with room behind its one entry -/
def roomyDir : PlainKernel := dirImage (sampleEntry 0 12 4096 (str "a"))

/-- A root directory whose last record has no room, although the record in front of it has -/
def fullDir : PlainKernel := dirImage (sampleEntry 0 12 4084 (str "a") ++ sampleEntry 4084 13 12 (str "b"))

theorem roomyDir_parent : DirParent roomyDir 2 := by
  have hblocks : dirBlocks roomyDir (roomyDir.loadInode 2) = [5] := by decide +kernel
  have hlen : entryRecLen (roomyDir.blk 5) 0 = 4096 := by decide +kernel
  have hentries : blockEntries (roomyDir.blk 5) 4096 = [(str "a", 12)] := by decide +kernel
  have htiled : Tiled (entryRecLen (roomyDir.blk 5)) 4096 0 [0] := by
    refine .cons (by omega) ?_
    rw [hlen]
    exact .nil
  have hfilled := (filledBlock_of_tiled htiled (by decide +kernel)).2
  refine dirImage_parent (by decide +kernel) (by decide +kernel) (by decide +kernel)
    ⟨by decide +kernel, by decide +kernel, ?_, by decide +kernel⟩
  intro b hb
  have hb' : b ∈ dirBlocks roomyDir (roomyDir.loadInode 2) := hb
  rw [hblocks, List.mem_singleton] at hb'
  subst hb'
  refine ⟨hfilled, ?_⟩
  show ∀ e ∈ blockEntries (roomyDir.blk 5) 4096, _
  rw [hentries]
  decide

theorem fullDir_parent : DirParent fullDir 2 := by
  have hblocks : dirBlocks fullDir (fullDir.loadInode 2) = [5] := by decide +kernel
  have hlen : entryRecLen (fullDir.blk 5) 0 = 4084 := by decide +kernel
  have hlen' : entryRecLen (fullDir.blk 5) 4084 = 12 := by decide +kernel
  have hentries : blockEntries (fullDir.blk 5) 4096 = [(str "a", 12), (str "b", 13)] := by decide +kernel
  have htiled : Tiled (entryRecLen (fullDir.blk 5)) 4096 0 [0, 4084] := by
    refine .cons (by omega) ?_
    rw [hlen, Nat.zero_add]
    refine .cons (by omega) ?_
    rw [hlen']
    exact .nil
  have hfilled := (filledBlock_of_tiled htiled (by decide +kernel)).2
  refine dirImage_parent (by decide +kernel) (by decide +kernel) (by decide +kernel)
    ⟨by decide +kernel, by decide +kernel, ?_, by decide +kernel⟩
  intro b hb
  have hb' : b ∈ dirBlocks fullDir (fullDir.loadInode 2) := hb
  rw [hblocks, List.mem_singleton] at hb'
  subst hb'
  refine ⟨hfilled, ?_⟩
  show ∀ e ∈ blockEntries (fullDir.blk 5) 4096, _
  rw [hentries]
  decide

end Sandflea
