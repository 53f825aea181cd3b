import Sandflea.Ext2.Commands

/-!
# The bitmap allocators

`ext2_alloc_block` and `ext2_alloc_inode` are one loop: the first clear bit of the first group whose
bitmap has one. `allocScan` is that loop, with what differs between the two in `BitmapKind`.

`exec_allocScan` is its meaning for every outcome of `kmalloc`. When memory is available the free
numbers in the order of the scan (`freeNumbers`) are the whole story: a call takes the first of them
(`exec_alloc_of_free`), or fails and changes nothing (`exec_alloc_of_full`).
-/

namespace Sandflea

open Bytes Kern

/-- The number of groups that the allocators scan, `groups` of the source, whose sum is 32-bit. The
loops stop at 256 groups. -/
def Superblock.groups (sb : Superblock) : ℕ :=
  (sb.totalBlocks + sb.blocksPerGroup - 1) % 2 ^ 32 / sb.blocksPerGroup

/-- What distinguishes the block allocator from the inode allocator. -/
structure BitmapKind where
  /-- The bitmap block of a group. -/
  bitmap : GroupDesc → ℕ
  /-- `start_bit` -/
  startBit : Superblock → ℕ → ℕ
  /-- The number of bits of a group, before it is cut to the bits of a block. -/
  perGroup : Superblock → ℕ
  /-- Count one free number less. -/
  take : GroupDesc → GroupDesc
  /-- The number that bit `bit` of group `g` stands for. -/
  number : Superblock → ℕ → ℕ → ℕ
  /-- Counting does not move the bitmap. -/
  bitmap_take : ∀ d, bitmap (take d) = bitmap d

/-- The bits of a block bitmap. -/
def blockBitmaps : BitmapKind where
  bitmap d := d.blockBitmap
  startBit _ _ := 0
  perGroup sb := sb.blocksPerGroup
  take d := { d with freeBlocksCount := (d.freeBlocksCount + 65535) % 65536 }
  number sb g bit := (g * sb.blocksPerGroup + bit) % 2 ^ 32
  bitmap_take _ := rfl

/-- The bits of an inode bitmap. -/
def inodeBitmaps : BitmapKind where
  bitmap d := d.inodeBitmap
  startBit sb g := if g = 0 then (sb.firstInode + (2 ^ 32 - 1)) % 2 ^ 32 else 0
  perGroup sb := sb.inodesPerGroup
  take d := { d with freeInodesCount := (d.freeInodesCount + 65535) % 65536 }
  number sb g bit := (g * sb.inodesPerGroup + bit + 1) % 2 ^ 32
  bitmap_take _ := rfl

/-- The bits of group `g` that a scan tests, in order. -/
def BitmapKind.bits (K : BitmapKind) (sb : Superblock) (g : ℕ) : List ℕ :=
  let maxBits := min (K.perGroup sb) (sb.blockSize * 8)
  List.range' (K.startBit sb g) (maxBits - K.startBit sb g)

/-- The loop of an allocator over the groups of a list: set the first clear bit and return its
number, or return 0. -/
def allocScan (K : BitmapKind) (sb : Superblock) : List ℕ → Kern ℕ
  | [] => pure 0
  | g :: gs => do
    let bd ← groupDesc g
    if K.bitmap bd = 0 then allocScan K sb gs
    else do
      let mem ← kmalloc sb.blockSize
      if mem then do
        let bitmap ← ext2ReadBlock (K.bitmap bd)
        match (K.bits sb g).find? fun bit => !Bytes.bit bitmap bit with
        | some bit => do
          ext2WriteBlock (K.bitmap bd) (setBit bitmap bit)
          setGroupDesc g (K.take bd)
          pure (K.number sb g bit)
        | none => allocScan K sb gs
      else allocScan K sb gs

/-- The number of groups that a scan visits. -/
def Superblock.scanned (sb : Superblock) : ℕ := min sb.groups 256

/-- An allocator: the scan of the first 256 groups. -/
def alloc (K : BitmapKind) : Kern ℕ := do
  let sb ← superblock
  allocScan K sb (List.range sb.scanned)

/-- `ext2_alloc_block` -/
def ext2AllocBlock : Kern ℕ := alloc blockBitmaps

/-- `ext2_alloc_inode` -/
def ext2AllocInode : Kern ℕ := alloc inodeBitmaps

/-- `ext2_release_inode` -/
def ext2ReleaseInode (inodeNo : ℕ) : Kern Unit :=
  if inodeNo = 0 then pure ()
  else do
    let sb ← superblock
    let g := (inodeNo - 1) / sb.inodesPerGroup
    let bit := (inodeNo - 1) % sb.inodesPerGroup
    let bd ← groupDesc g
    if bd.inodeBitmap = 0 then pure ()
    else do
      let mem ← kmalloc sb.blockSize
      if mem then do
        let ib ← ext2ReadBlock bd.inodeBitmap
        ext2WriteBlock bd.inodeBitmap (clearBit ib bit)
        setGroupDesc g { bd with freeInodesCount := (bd.freeInodesCount + 1) % 65536 }
      else pure ()

/-! ## One group -/

/-- A bit that a scan tests is a bit of the bitmap block. -/
theorem BitmapKind.bits_lt {K : BitmapKind} {sb : Superblock} {g bit : ℕ} (h : bit ∈ K.bits sb g) :
    bit < K.perGroup sb ∧ bit / 8 < sb.blockSize := by
  simp only [bits, List.mem_range'_1] at h
  omega

namespace Kernel

variable (K : BitmapKind) (k : PlainKernel)

/-- The clear bits of a group that the scan tests, in order. -/
def clearBits (g : ℕ) : List ℕ :=
  if K.bitmap (k.bgdt g) = 0 then []
  else (K.bits k.sb g).filter fun bit => !Bytes.bit (k.blk (K.bitmap (k.bgdt g))) bit

/-- The state in which bit `bit` of group `g` is taken. -/
def takeBit (g bit : ℕ) : PlainKernel :=
  (k.setBlk (K.bitmap (k.bgdt g)) (setBit (k.blk (K.bitmap (k.bgdt g))) bit)).setDesc g
    (K.take (k.bgdt g))

/-- The number of calls of `kmalloc` that a scan makes before it reaches group `g`. -/
def scanCalls (g : ℕ) : ℕ := (List.range g).countP fun g' => decide (K.bitmap (k.bgdt g') ≠ 0)

/-- The bit that a scan takes when it reaches group `g`, if it takes one there. -/
def usableBit (g : ℕ) : Option ℕ :=
  if k.heap (k.scanCalls K g) then (k.clearBits K g).head? else none

theorem scanCalls_succ (g : ℕ) :
    k.scanCalls K (g + 1) = k.scanCalls K g + if K.bitmap (k.bgdt g) = 0 then 0 else 1 := by
  rw [scanCalls, List.range_succ, List.countP_append, scanCalls]
  by_cases h : K.bitmap (k.bgdt g) = 0 <;> simp [h]

@[simp] theorem takeBit_sb (g bit : ℕ) : (k.takeBit K g bit).sb = k.sb := by
  simp [takeBit]

theorem takeBit_bgdt (g bit : ℕ) :
    (k.takeBit K g bit).bgdt = Function.update k.bgdt g (K.take (k.bgdt g)) := by
  simp [takeBit]

theorem takeBit_blk {g bit : ℕ} (h : bit ∈ K.bits k.sb g) : (k.takeBit K g bit).blk =
    Function.update k.blk (K.bitmap (k.bgdt g)) (setBit (k.blk (K.bitmap (k.bgdt g))) bit) := by
  rw [takeBit, setDesc_blk, setBlk_blk, trunc_setBit (BitmapKind.bits_lt h).2, blk, trunc_trunc]

end Kernel

/-! ## The scan -/

open Kernel

/-- The first group of a scan that ends it: a group behind the cached descriptors, or one with a bit
to take. -/
def scanStop (K : BitmapKind) (k : PlainKernel) (gs : List ℕ) : Option ℕ :=
  gs.find? fun g => decide (k.sb.cachedDescs ≤ g) || (k.usableBit K g).isSome

/-- One turn of the scan. -/
theorem exec_allocScan_cons (K : BitmapKind) (k : PlainKernel) (c g : ℕ) (gs : List ℕ) :
    (allocScan K k.sb (g :: gs)).exec (k.popHeap c) =
      if g < k.sb.cachedDescs then
        if K.bitmap (k.bgdt g) = 0 then (allocScan K k.sb gs).exec (k.popHeap c)
        else match if k.heap c then (k.clearBits K g).head? else none with
          | some bit => some (K.number k.sb g bit, (k.takeBit K g bit).popHeap (c + 1))
          | none => (allocScan K k.sb gs).exec (k.popHeap (c + 1))
      else none := by
  rw [allocScan, exec_bind, exec_groupDesc, popHeap_sb, popHeap_bgdt]
  by_cases hg : g < k.sb.cachedDescs
  swap
  · rw [if_neg hg, if_neg hg, Option.bind_none]
  rw [if_pos hg, if_pos hg, Option.bind_some, exec_ite]
  by_cases hb : K.bitmap (k.bgdt g) = 0
  · rw [if_pos hb, if_pos hb]
  rw [if_neg hb, if_neg hb]
  simp only [exec_bind, exec_kmalloc, Option.bind_some, popHeap_popHeap, popHeap_heap, Nat.zero_add]
  cases hm : k.heap c with
  | false => simp
  | true =>
    simp only [if_true, exec_bind, exec_ext2ReadBlock, Option.bind_some, popHeap_blk]
    rw [clearBits, if_neg hb, List.head?_filter]
    cases hf : (K.bits k.sb g).find? fun bit => !Bytes.bit (k.blk (K.bitmap (k.bgdt g))) bit with
    | none => rfl
    | some bit =>
      simp only [exec_bind, exec_ext2WriteBlock, Option.bind_some]
      rw [exec_setGroupDesc (by exact hg)]
      rfl

/-- The meaning of a scan from group `i`: it returns 0 when no group ends it, faults at a group
behind the cached descriptors, and otherwise takes the first clear bit of the group that ends it. -/
theorem exec_allocScan (K : BitmapKind) (k : PlainKernel) (i n : ℕ) :
    (allocScan K k.sb (List.range' i n)).exec (k.popHeap (k.scanCalls K i)) =
      match scanStop K k (List.range' i n) with
      | none => some (0, k.popHeap (k.scanCalls K (i + n)))
      | some g => if g < k.sb.cachedDescs then
          (k.usableBit K g).map fun bit =>
            (K.number k.sb g bit, (k.takeBit K g bit).popHeap (k.scanCalls K g + 1))
        else none := by
  induction n generalizing i with
  | zero => simp [allocScan, scanStop]
  | succ n ih =>
    have ih' := ih (i + 1)
    rw [scanCalls_succ, Nat.add_assoc, Nat.add_comm 1 n] at ih'
    rw [List.range'_succ, exec_allocScan_cons]
    by_cases hi : i < k.sb.cachedDescs
    swap
    · simp [scanStop, hi, not_lt.mp hi]
    rw [if_pos hi]
    by_cases hb : K.bitmap (k.bgdt i) = 0
    · have hu : k.usableBit K i = none := by simp [usableBit, clearBits, hb]
      rw [if_pos hb] at ih' ⊢
      simp only [Nat.add_zero] at ih'
      rw [ih', scanStop, scanStop, List.find?_cons_of_neg (by simp [hu, hi])]
    · rw [if_neg hb] at ih' ⊢
      rw [← usableBit]
      cases hu : k.usableBit K i with
      | none =>
        simp only [ih']
        rw [scanStop, scanStop, List.find?_cons_of_neg (by simp [hu, hi])]
      | some bit =>
        rw [scanStop, List.find?_cons_of_pos (by simp [hu])]
        simp [hi, hu]

/-- The meaning of an allocator, for every outcome of `kmalloc`. -/
theorem exec_alloc (K : BitmapKind) (k : PlainKernel) :
    (alloc K).exec k =
      match scanStop K k (List.range k.sb.scanned) with
      | none => some (0, k.popHeap (k.scanCalls K k.sb.scanned))
      | some g => if g < k.sb.cachedDescs then
          (k.usableBit K g).map fun bit =>
            (K.number k.sb g bit, (k.takeBit K g bit).popHeap (k.scanCalls K g + 1))
        else none := by
  have h := exec_allocScan K k 0 k.sb.scanned
  rw [← List.range_eq_range', Nat.zero_add] at h
  exact h

/-! ## The outcomes of an allocator -/

/-- The scan ends before it reaches a descriptor that is not cached. -/
def Kernel.InTable (K : BitmapKind) (k : PlainKernel) : Prop :=
  ∀ g < k.sb.scanned, k.sb.cachedDescs ≤ g → ∃ g' < g, (k.usableBit K g').isSome

theorem mem_clearBits_of_usableBit {K : BitmapKind} {k : PlainKernel} {g i : ℕ}
    (h : k.usableBit K g = some i) : i ∈ k.clearBits K g := by
  rw [usableBit] at h
  split at h
  · exact List.mem_of_head? h
  · cases h

/-- The group that ends a scan has a bit to take, if its descriptor is cached. -/
theorem usableBit_of_scanStop {K : BitmapKind} {k : PlainKernel} {g : ℕ}
    (h : scanStop K k (List.range k.sb.scanned) = some g) (hg : g < k.sb.cachedDescs) :
    ∃ i, k.usableBit K g = some i := by
  have hstop := List.find?_some h
  simp only [not_le.mpr hg, decide_false, Bool.false_or] at hstop
  exact Option.isSome_iff_exists.mp hstop

/-- A scan stays in the table exactly if the group that ends it, if there is one, is cached. -/
theorem inTable_iff (K : BitmapKind) (k : PlainKernel) : k.InTable K ↔
    ∀ g, scanStop K k (List.range k.sb.scanned) = some g → g < k.sb.cachedDescs := by
  constructor
  · intro ht g hs
    obtain ⟨-, hmem, hmin⟩ := List.find?_range_eq_some.mp hs
    by_contra hg
    obtain ⟨g', hlt, hsome⟩ := ht g (List.mem_range.mp hmem) (not_lt.mp hg)
    have hno := hmin g' hlt
    simp [hsome] at hno
  · intro h g hg hout
    cases hs : scanStop K k (List.range k.sb.scanned) with
    | none =>
      rw [scanStop, List.find?_eq_none] at hs
      exact absurd (hs g (List.mem_range.mpr hg)) (by simp [hout])
    | some g' =>
      have hin := h g' hs
      obtain ⟨-, -, hmin⟩ := List.find?_range_eq_some.mp hs
      obtain ⟨i, hi⟩ := usableBit_of_scanStop hs hin
      refine ⟨g', ?_, by rw [hi]; rfl⟩
      by_contra hle
      have hne : g ≠ g' := by omega
      have hno := hmin g (lt_of_le_of_ne (not_lt.mp hle) hne)
      simp [hout] at hno

/-- What an allocator does: it faults if the scan leaves the table, and otherwise returns 0 or takes a
clear bit of a scanned group. -/
theorem exec_alloc_outcome (K : BitmapKind) (k : PlainKernel) :
    (¬ k.InTable K ∧ (alloc K).exec k = none) ∨
      k.InTable K ∧
        ((∃ c, (alloc K).exec k = some (0, k.popHeap c)) ∨
          ∃ g i c, g < k.sb.scanned ∧ g < k.sb.cachedDescs ∧ i ∈ k.clearBits K g ∧
            (alloc K).exec k = some (K.number k.sb g i, (k.takeBit K g i).popHeap c)) := by
  have hrun := exec_alloc K k
  have hiff := inTable_iff K k
  cases hs : scanStop K k (List.range k.sb.scanned) with
  | none =>
    rw [hs] at hrun hiff
    exact .inr ⟨hiff.mpr fun g hg => (Option.some_ne_none g hg.symm).elim, .inl ⟨_, hrun⟩⟩
  | some g =>
    rw [hs] at hrun hiff
    dsimp only at hrun
    by_cases hg : g < k.sb.cachedDescs
    · obtain ⟨i, hi⟩ := usableBit_of_scanStop hs hg
      have hmem := (List.find?_range_eq_some.mp hs).2.1
      rw [if_pos hg, hi] at hrun
      refine .inr ⟨hiff.mpr fun g' hg' => ?_, .inr ⟨g, i, _, List.mem_range.mp hmem, hg,
        mem_clearBits_of_usableBit hi, hrun⟩⟩
      rw [← Option.some.inj hg']
      exact hg
    · rw [if_neg hg] at hrun
      exact .inl ⟨fun ht => hg (hiff.mp ht g rfl), hrun⟩

/-! ## Free numbers -/

namespace Kernel

variable (K : BitmapKind) (k : PlainKernel)

/-- The numbers that an allocator can hand out, in the order in which it does. -/
def freeNumbers : List ℕ :=
  (List.range k.sb.scanned).flatMap fun g => (k.clearBits K g).map (K.number k.sb g)

/-- The scanned groups have their descriptors in the cached block, and bitmaps of their own. -/
structure Bitmaps : Prop where
  /-- The cached block has the descriptors of the scanned groups. -/
  cached : k.sb.scanned ≤ k.sb.cachedDescs
  /-- No two groups share a bitmap. -/
  inj : ∀ g < k.sb.scanned, ∀ g' < k.sb.scanned, K.bitmap (k.bgdt g) ≠ 0 →
    K.bitmap (k.bgdt g) = K.bitmap (k.bgdt g') → g = g'

variable {K k}

theorem usableBit_of_heapOk (hk : k.HeapOk) (g : ℕ) :
    k.usableBit K g = (k.clearBits K g).head? := by
  rw [usableBit, if_pos (hk _)]

/-- The free numbers from the first group that has one. -/
theorem freeNumbers_split {g : ℕ} (hg : g < k.sb.scanned)
    (hbefore : ∀ g' < g, k.clearBits K g' = []) :
    k.freeNumbers K = (k.clearBits K g).map (K.number k.sb g) ++
      (List.range' (g + 1) (k.sb.scanned - (g + 1))).flatMap fun g' =>
        (k.clearBits K g').map (K.number k.sb g') := by
  have hsplit : List.range k.sb.scanned =
      List.range g ++ g :: List.range' (g + 1) (k.sb.scanned - (g + 1)) := by
    have happ := List.range'_append_1 (s := 0) (m := g) (n := k.sb.scanned - g)
    have hsucc : k.sb.scanned - g = k.sb.scanned - (g + 1) + 1 := by omega
    rw [List.range_eq_range', List.range_eq_range', ← List.range'_succ, ← hsucc]
    rw [Nat.zero_add, Nat.add_sub_cancel' hg.le] at happ
    exact happ.symm
  have hnil : (List.range g).flatMap (fun g' => (k.clearBits K g').map (K.number k.sb g')) = [] := by
    rw [List.flatMap_eq_nil_iff]
    intro g' hg'
    rw [hbefore g' (List.mem_range.mp hg'), List.map_nil]
  rw [freeNumbers, hsplit, List.flatMap_append, hnil, List.nil_append, List.flatMap_cons]

/-- An allocator with no free number returns 0 and changes nothing. -/
theorem exec_alloc_of_full (hk : k.HeapOk) (hb : k.sb.scanned ≤ k.sb.cachedDescs)
    (h : k.freeNumbers K = []) : (alloc K).exec k = some (0, k) := by
  have hnone : scanStop K k (List.range k.sb.scanned) = none := by
    rw [scanStop, List.find?_eq_none]
    intro g hg
    have hg' := List.mem_range.mp hg
    have hclear : k.clearBits K g = [] := by
      rw [freeNumbers, List.flatMap_eq_nil_iff] at h
      exact List.map_eq_nil_iff.mp (h g hg)
    simp [usableBit_of_heapOk hk, hclear, lt_of_lt_of_le hg' hb]
  rw [exec_alloc, hnone]
  exact congrArg some (Prod.ext rfl (hk.popHeap _))

/-- An allocator hands out the first free number. -/
theorem exec_alloc_of_free (hk : k.HeapOk) (hb : k.sb.scanned ≤ k.sb.cachedDescs) {f : ℕ}
    {fs : List ℕ} (h : k.freeNumbers K = f :: fs) :
    ∃ g bit bits, g < k.sb.scanned ∧ (∀ g' < g, k.clearBits K g' = []) ∧
      k.clearBits K g = bit :: bits ∧ f = K.number k.sb g bit ∧
      (alloc K).exec k = some (f, k.takeBit K g bit) := by
  have hsome : (scanStop K k (List.range k.sb.scanned)).isSome := by
    rw [scanStop, List.find?_isSome]
    have hf : f ∈ k.freeNumbers K := h ▸ List.mem_cons_self
    obtain ⟨g, hg, hfg⟩ := List.mem_flatMap.mp hf
    refine ⟨g, hg, ?_⟩
    have hne : k.clearBits K g ≠ [] := by
      intro hnil
      simp [hnil] at hfg
    simp [usableBit_of_heapOk hk, hne]
  obtain ⟨g, hg⟩ := Option.isSome_iff_exists.mp hsome
  obtain ⟨hstop, hmem, hmin⟩ := List.find?_range_eq_some.mp hg
  have hgN := List.mem_range.mp hmem
  have hcached : g < k.sb.cachedDescs := lt_of_lt_of_le hgN hb
  have hbefore : ∀ g' < g, k.clearBits K g' = [] := by
    intro g' hg'
    have := hmin g' hg'
    simp only [Bool.not_eq_true', Bool.or_eq_false_iff, usableBit_of_heapOk hk] at this
    simpa using this.2
  cases hc : k.clearBits K g with
  | nil => simp [usableBit_of_heapOk hk, hc, not_le.mpr hcached] at hstop
  | cons bit bits =>
    have hsplit := freeNumbers_split hgN hbefore
    rw [h, hc, List.map_cons, List.cons_append, List.cons.injEq] at hsplit
    refine ⟨g, bit, bits, hgN, hbefore, hc, hsplit.1, ?_⟩
    rw [exec_alloc, hg]
    simp only [if_pos hcached, usableBit_of_heapOk hk, hc, List.head?_cons, Option.map_some,
      hsplit.1]
    have hk' : (k.takeBit K g bit).HeapOk := hk
    rw [hk'.popHeap]

end Kernel

end Sandflea
