import Sandflea.Lib.Records
import Sandflea.Ext2.Path
import Sandflea.Ext2.Image

/-!
# Directories and their lookup

A directory is a list of blocks that are filled with records. `dirEntries` are its live entries, and `lookup` is what
a name stands for there. `find_child_exact` says when `ext2_find_child` finds that.

The names on the disk have a length and no terminator, and the name that is looked for has a terminator and no
length. The comparison of the driver stops at the length on the disk, so it takes an entry whose name is the
beginning of the name that is looked for (`strEql_iff`).
-/

namespace Sandflea

open Bytes Kern Kernel

/-! ## Entries -/

/-- `entry->inode` -/
def entryInode (data : Bytes) (o : ℕ) : ℕ := u32At data o

/-- `entry->rec_len` -/
def entryRecLen (data : Bytes) (o : ℕ) : ℕ := u16At data (o + 4)

/-- `entry->name_len` -/
def entryNameLen (data : Bytes) (o : ℕ) : ℕ := (data (o + 6)).toNat

/-- The name of an entry, `entry->name_len` bytes of `entry->name` -/
def entryName (data : Bytes) (o : ℕ) : Str := (List.range (entryNameLen data o)).map fun i => data (o + 8 + i)

/-- The bytes of an entry with a name of `n` bytes: its header and its name, rounded up to a multiple of 4 -/
def entrySize (n : ℕ) : ℕ := (8 + n + 3) / 4 * 4

/-- The offsets of the records of a directory block -/
def blockRecords (data : Bytes) (bs : ℕ) : List ℕ := recordsFrom (entryRecLen data) bs bs 0

/-- The live entries among the records at the offsets `os`, with their names and inodes -/
def entriesAt (data : Bytes) (os : List ℕ) : List (Str × ℕ) :=
  (os.filter fun o => entryInode data o ≠ 0).map fun o => (entryName data o, entryInode data o)

/-- The live entries of a directory block -/
def blockEntries (data : Bytes) (bs : ℕ) : List (Str × ℕ) := entriesAt data (blockRecords data bs)

/-- A block is filled with records that have room for their names. -/
structure FilledBlock (data : Bytes) (bs : ℕ) : Prop where
  tiled : Tiled (entryRecLen data) bs 0 (blockRecords data bs)
  room : ∀ o ∈ blockRecords data bs, entrySize (entryNameLen data o) ≤ entryRecLen data o

/-- A directory block is a filled block whose live entries have proper names. -/
structure DirBlock (data : Bytes) (bs : ℕ) : Prop extends FilledBlock data bs where
  named : ∀ e ∈ blockEntries data bs, e.1 ≠ [] ∧ 0 ∉ e.1

/-- The physical blocks of a directory, in order -/
def dirBlocks (k : PlainKernel) (dir : Inode) : List ℕ :=
  ((List.range (dir.size / k.sb.blockSize)).map (bmap dir k)).filter (· ≠ 0)

/-- The live entries of a directory -/
def dirEntries (k : PlainKernel) (dir : Inode) : List (Str × ℕ) :=
  (dirBlocks k dir).flatMap fun b => blockEntries (k.blk b) k.sb.blockSize

/-- A well-formed directory: whole blocks, each filled with records, and no name twice -/
structure WellFormedDir (k : PlainKernel) (dir : Inode) : Prop where
  isDir : dir.fileType = ext2SIfdir
  size_dvd : k.sb.blockSize ∣ dir.size
  blocks : ∀ b ∈ dirBlocks k dir, DirBlock (k.blk b) k.sb.blockSize
  nodup : ((dirEntries k dir).map Prod.fst).Nodup

/-- The inode that a list of entries has under a name, or 0 -/
def lookup (entries : List (Str × ℕ)) (name : Str) : ℕ :=
  ((entries.find? fun e => e.1 = name).map Prod.snd).getD 0

/-! ## The comparison of names -/

variable {k : PlainKernel} {dir : Inode} {data : Bytes} {bs o : ℕ} {name : Str}

/-- `str_eql` on the tail of two strings is `str_eql` on the strings. -/
theorem strEql_shift (a b : ℕ → UInt8) (i n : ℕ) :
    strEql (fun j => a (j + 1)) (fun j => b (j + 1)) i n = strEql a b (i + 1) n := by
  induction n generalizing i with
  | zero => rfl
  | succ n ih => rw [strEql, strEql, ih]

/-- Up to the length of a name without a terminator, `str_eql` asks whether that name is the beginning of the
other. -/
theorem strEql_iff (t name : Str) (ht : 0 ∉ t) :
    strEql (fun i => name.getD i 0) (fun i => t.getD i 0) 0 t.length = true ↔ t <+: name := by
  induction t generalizing name with
  | nil => simp [strEql]
  | cons c t ih =>
    rw [List.mem_cons, not_or] at ht
    rw [List.length_cons, strEql]
    cases name with
    | nil =>
      have hne : (([] : Str).getD 0 0) ≠ (c :: t).getD 0 0 := ht.1
      rw [if_pos hne]
      simp
    | cons d name =>
      have hshift := strEql_shift (fun i => (d :: name).getD i 0) (fun i => (c :: t).getD i 0) 0 t.length
      by_cases hcd : d = c
      · subst hcd
        have heq : ¬(d :: name).getD 0 0 ≠ (d :: t).getD 0 0 := by simp
        have hnz : ¬(d :: name).getD 0 0 = 0 := fun h => ht.1 h.symm
        rw [if_neg heq, if_neg hnz, ← hshift, List.cons_prefix_cons]
        exact (ih name ht.2).trans (by simp)
      · have hne : (d :: name).getD 0 0 ≠ (c :: t).getD 0 0 := hcd
        rw [if_pos hne, List.cons_prefix_cons]
        simp [Ne.symm hcd]

theorem strEql_congr {a b b' : ℕ → UInt8} {i n : ℕ} (h : ∀ j, i ≤ j → j < i + n → b j = b' j) :
    strEql a b i n = strEql a b' i n := by
  induction n generalizing i with
  | zero => rfl
  | succ n ih =>
    rw [strEql, strEql, h i le_rfl (by omega), ih fun j hj hj' => h j (by omega) (by omega)]

/-- The comparison of `ext2_find_child` at an entry -/
theorem strEql_entryName (hname : 0 ∉ entryName data o) :
    strEql (fun i => name.getD i 0) (fun i => data (o + 8 + i)) 0 (data (o + 6)).toNat = true ↔
      entryName data o <+: name := by
  have hlen : (entryName data o).length = (data (o + 6)).toNat := by
    rw [entryName, List.length_map, List.length_range]
    rfl
  rw [← strEql_iff _ _ hname, hlen, strEql_congr]
  intro j _ hj
  rw [Nat.zero_add, ← hlen] at hj
  rw [List.getD_eq_getElem _ _ hj]
  simp [entryName]

/-! ## The walk over a directory -/

/-- The live entries in the blocks that `ext2_get_bmap` reaches: all, or the first 12 where a block does not fit into
its table buffer -/
def reachedEntries (k : PlainKernel) (dir : Inode) : List (Str × ℕ) :=
  ((((List.range (dir.size / k.sb.blockSize)).filter fun l => k.sb.blockSize ≤ tableBytes ∨ l < 12).map
    (bmap dir k)).filter (· ≠ 0)).flatMap fun b => blockEntries (k.blk b) k.sb.blockSize

/-- The walk of `ext2_find_child` over the records of a block -/
theorem findEntry_of_tiled {os : List ℕ} {fuel : ℕ} (htiled : Tiled (entryRecLen data) bs o os)
    (hfuel : os.length ≤ fuel) (hlen : ∀ x ∈ os, 8 ≤ entryRecLen data x)
    (hnames : ∀ x ∈ os, entryInode data x ≠ 0 → 0 ∉ entryName data x) :
    findEntry data bs name fuel o =
      (os.find? fun x => entryInode data x ≠ 0 ∧ entryName data x <+: name).map (entryInode data) := by
  induction htiled generalizing fuel with
  | nil => cases fuel <;> simp [findEntry]
  | @cons o os hpos htail ih =>
    obtain ⟨n, rfl⟩ : ∃ n, fuel = n + 1 := ⟨fuel - 1, by rw [List.length_cons] at hfuel; omega⟩
    have hle := htail.le
    have h8 : ¬u16At data (o + 4) < 8 := Nat.not_lt.mpr (hlen o List.mem_cons_self)
    have hrest := @ih n (by simpa using hfuel) (fun x hx => hlen x (List.mem_cons_of_mem _ hx))
      fun x hx => hnames x (List.mem_cons_of_mem _ hx)
    rw [findEntry, if_pos (by omega), if_neg h8]
    by_cases hlive : entryInode data o ≠ 0
    · have hcmp := @strEql_entryName _ _ name (hnames o List.mem_cons_self hlive)
      by_cases hpre : entryName data o <+: name
      · rw [if_pos ⟨hlive, hcmp.mpr hpre⟩, List.find?_cons_of_pos (by simp [hlive, hpre])]
        rfl
      · rw [if_neg fun h => hpre (hcmp.mp h.2), List.find?_cons_of_neg (by simp [hpre])]
        exact hrest
    · rw [if_neg fun h => hlive h.1, List.find?_cons_of_neg (by simp_all)]
      exact hrest

theorem FilledBlock.eight_le (h : FilledBlock data bs) (ho : o ∈ blockRecords data bs) : 8 ≤ entryRecLen data o := by
  have hroom := h.room o ho
  unfold entrySize at hroom
  omega

theorem DirBlock.findEntry (h : DirBlock data bs) (name : Str) :
    Sandflea.findEntry data bs name bs 0 =
      ((blockEntries data bs).find? fun e => e.1 <+: name).map Prod.snd := by
  have hlength := h.tiled.length_le
  have hnames : ∀ x ∈ blockRecords data bs, entryInode data x ≠ 0 → 0 ∉ entryName data x := fun x hx hlive =>
    (h.named (entryName data x, entryInode data x)
      (List.mem_map.mpr ⟨x, List.mem_filter.mpr ⟨hx, by simpa using hlive⟩, rfl⟩)).2
  rw [findEntry_of_tiled h.tiled (by omega) (fun x hx => h.eight_le hx) hnames, blockEntries, entriesAt, List.find?_map,
    List.find?_filter, Option.map_map]
  congr 2
  funext x
  simp

/-- The block map has addresses for the blocks of a directory. -/
theorem dir_lt_mapLimit {l : ℕ} (hl : l < dir.size / k.sb.blockSize) : l < mapLimit k.sb.ptrs := by
  have hsize := dir.size_lt
  have hblocks : dir.size / k.sb.blockSize < 2 ^ 22 := by
    rw [Nat.div_lt_iff_lt_mul k.sb.blockSize_pos]
    have := k.sb.le_blockSize
    omega
  have hptrs := k.sb.le_ptrs
  have hcube : 256 * 256 * 256 ≤ k.sb.ptrs * k.sb.ptrs * k.sb.ptrs :=
    Nat.mul_le_mul (Nat.mul_le_mul hptrs hptrs) hptrs
  unfold mapLimit
  omega

/-- `ext2_get_bmap` on the blocks of a directory -/
theorem exec_ext2GetBmap_of_dir {l : ℕ} (hl : l < dir.size / k.sb.blockSize) :
    (ext2GetBmap dir l).exec k =
      some (if k.sb.blockSize ≤ tableBytes ∨ l < 12 then bmap dir k l else 0, k) := by
  by_cases hbs : k.sb.blockSize ≤ tableBytes
  · rw [if_pos (.inl hbs)]
    exact exec_ext2GetBmap hbs dir (dir_lt_mapLimit hl)
  · by_cases hdirect : l < 12
    · rw [if_pos (.inr hdirect), ext2GetBmap, exec_bind, exec_superblock, Option.bind_some]
      simp only [if_pos hdirect, exec_pure, bmap, leafAddr]
      rfl
    · rw [if_neg (by omega), ext2GetBmap, exec_bind, exec_superblock, Option.bind_some]
      simp only [if_neg hdirect, if_pos (Nat.lt_of_not_le hbs), exec_pure]

/-- The walk over the blocks takes the first entry whose name is the beginning of the name. -/
theorem exec_findChildIn {ls : List ℕ} (hls : ∀ l ∈ ls, l < dir.size / k.sb.blockSize)
    (hblocks : ∀ b ∈ dirBlocks k dir, DirBlock (k.blk b) k.sb.blockSize) (name : Str) :
    (findChildIn dir name k.sb.blockSize ls).exec k = some
      ((((((ls.filter fun l => k.sb.blockSize ≤ tableBytes ∨ l < 12).map (bmap dir k)).filter
        (· ≠ 0)).flatMap fun b => blockEntries (k.blk b) k.sb.blockSize).find?
          fun e => e.1 <+: name).map Prod.snd |>.getD 0, k) := by
  induction ls with
  | nil => rfl
  | cons l ls ih =>
    have hl := hls l List.mem_cons_self
    have hrest := ih fun l hl => hls l (List.mem_cons_of_mem _ hl)
    rw [findChildIn, exec_bind, exec_ext2GetBmap_of_dir hl, Option.bind_some]
    by_cases hreach : k.sb.blockSize ≤ tableBytes ∨ l < 12
    · rw [List.filter_cons_of_pos (by simpa using hreach), List.map_cons, if_pos hreach]
      by_cases hhole : bmap dir k l = 0
      · rw [if_pos hhole, List.filter_cons_of_neg (by simpa using hhole)]
        exact hrest
      · have hmem : bmap dir k l ∈ dirBlocks k dir := List.mem_filter.mpr
          ⟨List.mem_map.mpr ⟨l, List.mem_range.mpr hl, rfl⟩, by simpa using hhole⟩
        rw [if_neg hhole, List.filter_cons_of_pos (by simpa using hhole), exec_bind, exec_ext2ReadBlock,
          Option.bind_some, (hblocks _ hmem).findEntry, List.flatMap_cons, List.find?_append]
        cases hfind : (blockEntries (k.blk (bmap dir k l)) k.sb.blockSize).find? fun e => e.1 <+: name with
        | none => exact hrest
        | some e => rfl
    · rw [List.filter_cons_of_neg (by simpa using hreach), if_neg hreach, if_pos rfl]
      exact hrest

/-- The rounding of `total_blocks` does not overflow for whole blocks. -/
theorem totalBlocks_of_dvd (hdvd : k.sb.blockSize ∣ dir.size) :
    (dir.size + k.sb.blockSize - 1) % 2 ^ 32 / k.sb.blockSize = dir.size / k.sb.blockSize := by
  have hpos := k.sb.blockSize_pos
  have hsize := dir.size_lt
  have hpow : k.sb.blockSize = 2 ^ (10 + k.sb.blockSizeShift) := (pow_add 2 10 _).symm
  rcases Nat.le_total (10 + k.sb.blockSizeShift) 32 with hle | hle
  · have hdvd' : k.sb.blockSize ∣ 2 ^ 32 := hpow ▸ Nat.pow_dvd_pow 2 hle
    have hnext : dir.size + k.sb.blockSize ≤ 2 ^ 32 := by
      have hgap := Nat.le_of_dvd (by omega) (Nat.dvd_sub hdvd' hdvd)
      omega
    rw [Nat.mod_eq_of_lt (by omega), Nat.add_sub_assoc hpos, Nat.add_div_of_dvd_right hdvd,
      Nat.div_eq_of_lt (Nat.sub_lt hpos Nat.one_pos), Nat.add_zero]
  · have hlarge : 2 ^ 32 ≤ k.sb.blockSize := hpow ▸ Nat.pow_le_pow_right (by decide) hle
    have hzero : dir.size = 0 := Nat.eq_zero_of_dvd_of_lt hdvd (by omega)
    rw [hzero, Nat.zero_div, Nat.div_eq_of_lt ((Nat.mod_lt _ (by decide)).trans_le hlarge)]

/-- `ext2_find_child` on a well-formed directory -/
theorem exec_ext2FindChild (hw : WellFormedDir k dir) (name : Str) :
    (ext2FindChild dir name).exec k = some
      (if k.heap 0 then ((reachedEntries k dir).find? fun e => e.1 <+: name).map Prod.snd |>.getD 0 else 0,
        k.popHeap 1) := by
  rw [ext2FindChild, exec_bind, exec_superblock, Option.bind_some, if_neg (not_not.mpr hw.isDir), exec_bind,
    exec_kmalloc, Option.bind_some]
  cases hheap : k.heap 0 with
  | false => rfl
  | true =>
    simp only [if_true]
    rw [totalBlocks_of_dvd hw.size_dvd]
    exact exec_findChildIn (k := k.popHeap 1) (fun l hl => List.mem_range.mp hl) hw.blocks name

/-! ## Exactness -/

/-- The first entry that the walk takes for the name is another one, whose name is a proper beginning of it, and it
does not have the inode of the name. -/
def Shadowed (k : PlainKernel) (dir : Inode) (name : Str) : Prop :=
  ∃ pre e post, reachedEntries k dir = pre ++ e :: post ∧ (∀ p ∈ pre, ¬p.1 <+: name) ∧ e.1 <+: name ∧
    e.1 ≠ name ∧ (name, e.2) ∉ dirEntries k dir

/-- What the lookup of a name needs: no entry with a proper beginning of the name in its way and, for a name that is
in the directory, memory for a block and an entry that the walk reaches -/
structure Findable (k : PlainKernel) (dir : Inode) (name : Str) : Prop where
  clear : k.heap 0 = true → ¬Shadowed k dir name
  memory : name ∈ (dirEntries k dir).map Prod.fst → k.heap 0 = true
  reached : name ∈ (dirEntries k dir).map Prod.fst → ∃ e ∈ reachedEntries k dir, e.1 <+: name

/-- The entries that the walk reaches are entries of the directory. -/
theorem reachedEntries_subset {e : Str × ℕ} (he : e ∈ reachedEntries k dir) : e ∈ dirEntries k dir := by
  obtain ⟨b, hb, he⟩ := List.mem_flatMap.mp he
  obtain ⟨hb, hne⟩ := List.mem_filter.mp hb
  obtain ⟨l, hl, rfl⟩ := List.mem_map.mp hb
  exact List.mem_flatMap.mpr ⟨_, List.mem_filter.mpr
    ⟨List.mem_map.mpr ⟨l, (List.mem_filter.mp hl).1, rfl⟩, hne⟩, he⟩

/-- Live entries have inodes. -/
theorem inode_ne_zero {e : Str × ℕ} (he : e ∈ dirEntries k dir) : e.2 ≠ 0 := by
  obtain ⟨b, -, he⟩ := List.mem_flatMap.mp he
  obtain ⟨o, ho, rfl⟩ := List.mem_map.mp he
  simpa using (List.mem_filter.mp ho).2

/-- Where names are unique, `lookup` gives the inode of the entry with the name. -/
theorem lookup_of_mem {entries : List (Str × ℕ)} (hnodup : (entries.map Prod.fst).Nodup) {i : ℕ}
    (hmem : (name, i) ∈ entries) : lookup entries name = i := by
  unfold lookup
  cases hfind : entries.find? fun e => e.1 = name with
  | none => exact absurd (List.find?_eq_none.mp hfind _ hmem) (by simp)
  | some e =>
    have he := List.mem_of_find?_eq_some hfind
    have hname : e.1 = name := by simpa using List.find?_some hfind
    have heq : e = (name, i) := List.inj_on_of_nodup_map hnodup he hmem hname
    rw [heq]
    rfl

theorem lookup_of_not_mem {entries : List (Str × ℕ)} (hmem : name ∉ entries.map Prod.fst) :
    lookup entries name = 0 := by
  have hfind : entries.find? (fun e => e.1 = name) = none := by
    rw [List.find?_eq_none]
    intro e he heq
    exact hmem (List.mem_map.mpr ⟨e, he, by simpa using heq⟩)
  rw [lookup, hfind]
  rfl

/-- Directory lookup is exact: on a well-formed directory `ext2_find_child` returns the inode of the live entry with
the name, or 0 if there is none, if and only if no entry with a proper beginning of the name is in its way and the
walk has memory and reaches the entry. -/
theorem find_child_exact (hw : WellFormedDir k dir) (name : Str) :
    (∃ k', (ext2FindChild dir name).exec k = some (lookup (dirEntries k dir) name, k')) ↔
      Findable k dir name := by
  have hrun := exec_ext2FindChild hw name
  constructor
  · rintro ⟨k', hk'⟩
    rw [hrun, Option.some.injEq, Prod.mk.injEq] at hk'
    have hres := hk'.1
    have hin : name ∈ (dirEntries k dir).map Prod.fst → lookup (dirEntries k dir) name ≠ 0 := by
      intro hmem
      obtain ⟨⟨n, i⟩, he, rfl⟩ := List.mem_map.mp hmem
      rw [lookup_of_mem hw.nodup he]
      exact inode_ne_zero he
    refine ⟨?_, ?_, ?_⟩
    · rintro hheap ⟨pre, e, post, hsplit, hpre, hbegins, -, hnot⟩
      have he : e ∈ dirEntries k dir := reachedEntries_subset (hsplit ▸ by simp)
      have hfind : (reachedEntries k dir).find? (fun e => e.1 <+: name) = some e := by
        rw [hsplit, List.find?_append, List.find?_eq_none.mpr (by simpa using hpre),
          List.find?_cons_of_pos (by simpa using hbegins)]
        rfl
      rw [if_pos hheap, hfind] at hres
      have hres : e.2 = lookup (dirEntries k dir) name := hres
      by_cases hmem : name ∈ (dirEntries k dir).map Prod.fst
      · obtain ⟨⟨n, i⟩, hi, rfl⟩ := List.mem_map.mp hmem
        rw [lookup_of_mem hw.nodup hi] at hres
        exact hnot (hres ▸ hi)
      · rw [lookup_of_not_mem hmem] at hres
        exact inode_ne_zero he hres
    · intro hmem
      by_contra hheap
      rw [if_neg hheap] at hres
      exact hin hmem hres.symm
    · intro hmem
      by_contra hnone
      have hfind : (reachedEntries k dir).find? (fun e => e.1 <+: name) = none := by
        rw [List.find?_eq_none]
        intro e he hbegins
        exact hnone ⟨e, he, by simpa using hbegins⟩
      rw [hfind] at hres
      refine hin hmem (hres.symm.trans ?_)
      split <;> rfl
  · intro hfind
    refine ⟨k.popHeap 1, ?_⟩
    rw [hrun]
    congr 2
    by_cases hheap : k.heap 0 = true
    · rw [if_pos hheap]
      cases hfirst : (reachedEntries k dir).find? fun e => e.1 <+: name with
      | none =>
        rw [lookup_of_not_mem]
        · rfl
        · intro hmem
          obtain ⟨e, he, hbegins⟩ := hfind.reached hmem
          exact List.find?_eq_none.mp hfirst e he (by simpa using hbegins)
      | some e =>
        obtain ⟨hbegins, pre, post, hsplit, hpre⟩ := List.find?_eq_some_iff_append.mp hfirst
        have he : e ∈ dirEntries k dir := reachedEntries_subset (hsplit ▸ by simp)
        have hmem : (name, e.2) ∈ dirEntries k dir := by
          by_contra hnot
          by_cases hne : e.1 = name
          · exact hnot (hne ▸ he)
          · exact hfind.clear hheap ⟨pre, e, post, hsplit, by simpa using hpre, by simpa using hbegins, hne, hnot⟩
        rw [lookup_of_mem hw.nodup hmem]
        rfl
    · rw [if_neg hheap, lookup_of_not_mem fun hmem => hheap (hfind.memory hmem)]

/-- A drive whose root directory has one entry, `a` -/
def oneEntry : PlainKernel :=
  Kernel.oneDrive (sampleDrive (str "A")) (blocksOf (sampleRoot ++ sampleEntry 0 12 4096 (str "a")))

theorem oneEntry_dirEntries : dirEntries oneEntry (oneEntry.loadInode 2) = [(str "a", 12)] := by
  decide +kernel

theorem oneEntry_wellFormed : WellFormedDir oneEntry (oneEntry.loadInode 2) := by
  have hblocks : dirBlocks oneEntry (oneEntry.loadInode 2) = [5] := by decide +kernel
  have hrecords : blockRecords (oneEntry.blk 5) 4096 = [0] := by decide +kernel
  have hlen : entryRecLen (oneEntry.blk 5) 0 = 4096 := by decide +kernel
  have hentries : blockEntries (oneEntry.blk 5) 4096 = [(str "a", 12)] := by decide +kernel
  refine ⟨by decide +kernel, by decide +kernel, ?_, by rw [oneEntry_dirEntries]; decide⟩
  intro b hb
  rw [hblocks, List.mem_singleton] at hb
  subst hb
  refine ⟨⟨?_, ?_⟩, ?_⟩
  · show Tiled _ 4096 0 (blockRecords (oneEntry.blk 5) 4096)
    rw [hrecords]
    refine .cons (by omega) ?_
    rw [hlen]
    exact .nil
  · show ∀ o ∈ blockRecords (oneEntry.blk 5) 4096, _
    rw [hrecords]
    decide +kernel
  · show ∀ e ∈ blockEntries (oneEntry.blk 5) 4096, _
    rw [hentries]
    decide

/-- The entry is found under its own name. -/
theorem find_child_exact_own_name : ∃ k', (ext2FindChild (oneEntry.loadInode 2) (str "a")).exec oneEntry =
    some (lookup (dirEntries oneEntry (oneEntry.loadInode 2)) (str "a"), k') := by
  have hreached : reachedEntries oneEntry (oneEntry.loadInode 2) = [(str "a", 12)] := by decide +kernel
  refine (find_child_exact oneEntry_wellFormed (str "a")).mpr ⟨?_, fun _ => rfl, fun _ => ?_⟩
  · rintro - ⟨pre, e, post, hsplit, -, -, hne, -⟩
    have he : e ∈ reachedEntries oneEntry (oneEntry.loadInode 2) := hsplit ▸ by simp
    rw [hreached, List.mem_singleton] at he
    exact hne (he ▸ rfl)
  · rw [hreached]
    exact ⟨_, List.mem_singleton.mpr rfl, List.prefix_rfl⟩

/-- It is found under a longer name as well, which is not in the directory. -/
theorem longer_name_found : WellFormedDir oneEntry (oneEntry.loadInode 2) ∧
    (ext2FindChild (oneEntry.loadInode 2) (str "ab")).exec oneEntry = some (12, oneEntry.popHeap 1) ∧
    ¬∃ k', (ext2FindChild (oneEntry.loadInode 2) (str "ab")).exec oneEntry =
      some (lookup (dirEntries oneEntry (oneEntry.loadInode 2)) (str "ab"), k') := by
  have hreached : reachedEntries oneEntry (oneEntry.loadInode 2) = [(str "a", 12)] := by decide +kernel
  have hrun : (ext2FindChild (oneEntry.loadInode 2) (str "ab")).exec oneEntry =
      some (12, oneEntry.popHeap 1) := by
    rw [exec_ext2FindChild oneEntry_wellFormed, hreached]
    rfl
  refine ⟨oneEntry_wellFormed, hrun, ?_⟩
  rintro ⟨k', hk'⟩
  rw [hrun, oneEntry_dirEntries, Option.some.injEq, Prod.mk.injEq] at hk'
  exact absurd hk'.1 (by decide)

end Sandflea
