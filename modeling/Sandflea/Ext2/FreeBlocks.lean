import Sandflea.Ext2.Alloc

/-!
# What an allocation changes

An allocation changes one bitmap block of the active drive and one counter of a descriptor. The rest
of the kernel keeps its value (`DiskOnly`), and so does every block that is not a bitmap. `Hands k fs k'`
is a run of allocations that hand out `fs`; with bitmaps of their own the groups hand out their free
numbers in order (`hands_of_freeNumbers`).
-/

namespace Sandflea

open Bytes Kern

/-- Two descriptors of one group that differ at most in their counters. -/
def GroupDesc.SameTables (d d' : GroupDesc) : Prop :=
  d.blockBitmap = d'.blockBitmap ∧ d.inodeBitmap = d'.inodeBitmap ∧ d.inodeTable = d'.inodeTable

namespace Kernel

/-- The state with other blocks on the active drive, and other cached descriptors. -/
def onDisk (k : PlainKernel) (blocks : ℕ → Bytes) (descs : ℕ → GroupDesc) : PlainKernel :=
  { k with
    store := Function.update k.store k.active blocks
    drives := Function.update k.drives k.active { k.drives k.active with bgdtCache := descs } }

/-- The second state differs from the first at most in the blocks of the active drive and in the
counters of its descriptors. -/
def DiskOnly (k k' : PlainKernel) : Prop :=
  ∃ blocks descs, k' = k.onDisk blocks descs ∧ ∀ g, (descs g).SameTables (k.bgdt g)

variable {k k' k'' : PlainKernel}

theorem onDisk_onDisk (k : PlainKernel) (bs bs' : ℕ → Bytes) (ds ds' : ℕ → GroupDesc) :
    (k.onDisk bs ds).onDisk bs' ds' = k.onDisk bs' ds' := by
  simp [onDisk]

@[simp] theorem onDisk_sb (k : PlainKernel) (bs : ℕ → Bytes) (ds : ℕ → GroupDesc) :
    (k.onDisk bs ds).sb = k.sb := by
  simp [onDisk, Kernel.sb]

@[simp] theorem onDisk_bgdt (k : PlainKernel) (bs : ℕ → Bytes) (ds : ℕ → GroupDesc) :
    (k.onDisk bs ds).bgdt = ds := by
  simp [onDisk, bgdt]

theorem onDisk_self (k : PlainKernel) : k.onDisk (k.store k.active) k.bgdt = k := by
  simp [onDisk, bgdt]

theorem DiskOnly.refl (k : PlainKernel) : DiskOnly k k :=
  ⟨_, _, (onDisk_self k).symm, fun _ => ⟨rfl, rfl, rfl⟩⟩

theorem DiskOnly.trans (h : DiskOnly k k') (h' : DiskOnly k' k'') : DiskOnly k k'' := by
  obtain ⟨bs, ds, rfl, hds⟩ := h
  obtain ⟨bs', ds', rfl, hds'⟩ := h'
  refine ⟨bs', ds', onDisk_onDisk _ _ _ _ _, fun g => ?_⟩
  have := hds' g
  rw [onDisk_bgdt] at this
  exact ⟨this.1.trans (hds g).1, this.2.1.trans (hds g).2.1, this.2.2.trans (hds g).2.2⟩

theorem diskOnly_setBlk (k : PlainKernel) (b : ℕ) (data : Bytes) : DiskOnly k (k.setBlk b data) := by
  refine ⟨Function.update (k.store k.active) b data, k.bgdt, ?_, fun _ => ⟨rfl, rfl, rfl⟩⟩
  simp [setBlk, onDisk, bgdt]

theorem diskOnly_setDesc (k : PlainKernel) (g : ℕ) {d : GroupDesc} (hd : d.SameTables (k.bgdt g)) :
    DiskOnly k (k.setDesc g d) := by
  refine ⟨k.store k.active, Function.update k.bgdt g d, ?_, fun g' => ?_⟩
  · simp [setDesc, onDisk]
  · by_cases hg : g' = g
    · subst hg
      simpa using hd
    · rw [Function.update_of_ne hg]
      exact ⟨rfl, rfl, rfl⟩

namespace DiskOnly

variable (h : DiskOnly k k')
include h

theorem sb : k'.sb = k.sb := by
  obtain ⟨_, _, rfl, -⟩ := h
  exact onDisk_sb _ _ _

theorem active : k'.active = k.active := by
  obtain ⟨_, _, rfl, -⟩ := h
  rfl

theorem heap : k'.heap = k.heap := by
  obtain ⟨_, _, rfl, -⟩ := h
  rfl

theorem proc : k'.proc = k.proc := by
  obtain ⟨_, _, rfl, -⟩ := h
  rfl

theorem fdTable : k'.fdTable = k.fdTable := by
  obtain ⟨_, _, rfl, -⟩ := h
  rfl

theorem heapOk (hk : k.HeapOk) : k'.HeapOk := fun i => by
  rw [h.heap]
  exact hk i

theorem tables (g : ℕ) : (k'.bgdt g).SameTables (k.bgdt g) := by
  obtain ⟨_, _, rfl, hds⟩ := h
  rw [onDisk_bgdt]
  exact hds g

theorem store_of_ne {d : ℕ} (hd : d ≠ k.active) : k'.store d = k.store d := by
  obtain ⟨_, _, rfl, -⟩ := h
  simp [onDisk, hd]

end DiskOnly

/-! ## Bitmap blocks -/

/-- A bitmap of a group that the allocators scan. -/
def IsBitmap (K : BitmapKind) (k : PlainKernel) (b : ℕ) : Prop :=
  b ≠ 0 ∧ ∃ g < k.sb.scanned, K.bitmap (k.bgdt g) = b

instance (K : BitmapKind) (k : PlainKernel) (b : ℕ) : Decidable (IsBitmap K k b) :=
  inferInstanceAs (Decidable (_ ∧ _))

/-- The blocks of the active drive, without its block bitmaps. -/
def fileBlk (k : PlainKernel) (b : ℕ) : Bytes :=
  if IsBitmap blockBitmaps k b then zeros else k.blk b

theorem fileBlk_of_not_bitmap {b : ℕ} (hb : ¬ IsBitmap blockBitmaps k b) : k.fileBlk b = k.blk b :=
  if_neg hb

theorem DiskOnly.isBitmap (h : DiskOnly k k') (b : ℕ) :
    IsBitmap blockBitmaps k' b ↔ IsBitmap blockBitmaps k b := by
  have hb : ∀ g, blockBitmaps.bitmap (k'.bgdt g) = blockBitmaps.bitmap (k.bgdt g) := fun g =>
    (h.tables g).1
  simp only [IsBitmap, h.sb, hb]

/-- Writing a file block. -/
theorem setBlk_fileBlk {b : ℕ} (hb : ¬ IsBitmap blockBitmaps k b) (data : Bytes) :
    (k.setBlk b data).fileBlk = Function.update k.fileBlk b (trunc k.sb.blockSize data) := by
  funext c
  have hiff := (diskOnly_setBlk k b data).isBitmap c
  by_cases hc : c = b
  · subst hc
    rw [fileBlk_of_not_bitmap (hiff.not.mpr hb), setBlk_blk, Function.update_self,
      Function.update_self]
  · rw [Function.update_of_ne hc]
    by_cases hbm : IsBitmap blockBitmaps k c
    · rw [fileBlk, fileBlk, if_pos hbm, if_pos (hiff.mpr hbm)]
    · rw [fileBlk_of_not_bitmap hbm, fileBlk_of_not_bitmap (hiff.not.mpr hbm), setBlk_blk,
        Function.update_of_ne hc]

/-- The blocks of a plain kernel are one block long. -/
theorem trunc_blk (k : PlainKernel) (b : ℕ) : trunc k.sb.blockSize (k.blk b) = k.blk b := by
  rw [blk, trunc_trunc]

theorem trunc_fileBlk (k : PlainKernel) (b : ℕ) :
    trunc k.sb.blockSize (k.fileBlk b) = k.fileBlk b := by
  rw [fileBlk]
  split
  · exact trunc_zeros _
  · exact trunc_blk k b

/-! ## One allocation -/

variable {K : BitmapKind}

theorem clearBits_of_bitmap_eq_zero {g : ℕ} (h : K.bitmap (k.bgdt g) = 0) : k.clearBits K g = [] :=
  if_pos h

/-- A clear bit is a bit of a bitmap block. -/
theorem mem_clearBits {g i : ℕ} (h : i ∈ k.clearBits K g) :
    K.bitmap (k.bgdt g) ≠ 0 ∧ i ∈ K.bits k.sb g ∧
      Bytes.bit (k.blk (K.bitmap (k.bgdt g))) i = false := by
  rw [clearBits] at h
  split at h
  · cases h
  · next hne =>
    rw [List.mem_filter] at h
    exact ⟨hne, h.1, by simpa using h.2⟩

/-- The two outcomes of an allocator when memory is available: it returns 0 and changes nothing, or it
takes a clear bit of a scanned group. -/
theorem exec_alloc_cases (hk : k.HeapOk) {r : ℕ × PlainKernel} (h : (alloc K).exec k = some r) :
    r = (0, k) ∨ ∃ g i, g < k.sb.scanned ∧ i ∈ k.clearBits K g ∧
      r = (K.number k.sb g i, k.takeBit K g i) := by
  rw [exec_alloc] at h
  cases hs : scanStop K k (List.range k.sb.scanned) with
  | none =>
    rw [hs, Option.some.injEq] at h
    exact Or.inl (h ▸ Prod.ext rfl (hk.popHeap _))
  | some g =>
    rw [hs] at h
    simp only at h
    split at h
    swap
    · cases h
    rw [Option.map_eq_some_iff] at h
    obtain ⟨i, hi, rfl⟩ := h
    rw [usableBit_of_heapOk hk] at hi
    have hg := List.mem_range.mp (List.find?_range_eq_some.mp hs).2.1
    refine Or.inr ⟨g, i, hg, List.mem_of_head? hi, Prod.ext rfl ?_⟩
    have hk' : (k.takeBit K g i).HeapOk := hk
    exact hk'.popHeap _

theorem diskOnly_takeBlock (k : PlainKernel) (g i : ℕ) :
    DiskOnly k (k.takeBit blockBitmaps g i) := by
  have hd : (blockBitmaps.take (k.bgdt g)).SameTables (k.bgdt g) := by
    simp [GroupDesc.SameTables, blockBitmaps]
  exact (diskOnly_setBlk k _ _).trans (diskOnly_setDesc _ g hd)

/-- An allocation of a block leaves everything but the bitmaps and the counters as it was. -/
theorem exec_ext2AllocBlock_frame (hk : k.HeapOk) {f : ℕ}
    (h : ext2AllocBlock.exec k = some (f, k')) : DiskOnly k k' ∧ k'.fileBlk = k.fileBlk := by
  rcases exec_alloc_cases hk h with heq | ⟨g, i, hg, hi, heq⟩
  · obtain rfl : k' = k := congrArg Prod.snd heq
    exact ⟨DiskOnly.refl _, rfl⟩
  · obtain rfl : k' = k.takeBit blockBitmaps g i := congrArg Prod.snd heq
    have hdisk := diskOnly_takeBlock k g i
    refine ⟨hdisk, funext fun b => ?_⟩
    obtain ⟨hne, hbits, -⟩ := mem_clearBits hi
    by_cases hb : IsBitmap blockBitmaps k b
    · rw [fileBlk, fileBlk, if_pos hb, if_pos ((hdisk.isBitmap b).mpr hb)]
    · rw [fileBlk_of_not_bitmap hb, fileBlk_of_not_bitmap ((hdisk.isBitmap b).not.mpr hb),
        takeBit_blk _ _ hbits, Function.update_of_ne]
      rintro rfl
      exact hb ⟨hne, g, hg, rfl⟩

/-- A write of a block that is no bitmap shows nowhere in the scan. -/
theorem clearBits_setBlk {b : ℕ} (hb : ¬ IsBitmap K k b) (data : Bytes) {g : ℕ}
    (hg : g < k.sb.scanned) : (k.setBlk b data).clearBits K g = k.clearBits K g := by
  rw [clearBits, clearBits, setBlk_bgdt, setBlk_sb, setBlk_blk]
  split
  · rfl
  · next hne =>
    rw [Function.update_of_ne]
    rintro rfl
    exact hb ⟨hne, g, hg, rfl⟩

/-- A write of a block that is no bitmap leaves the free numbers as they were. -/
theorem freeNumbers_setBlk {b : ℕ} (hb : ¬ IsBitmap K k b) (data : Bytes) :
    (k.setBlk b data).freeNumbers K = k.freeNumbers K := by
  rw [freeNumbers, freeNumbers, setBlk_sb]
  refine List.flatMap_congr fun g hg => ?_
  rw [clearBits_setBlk hb data (List.mem_range.mp hg)]

/-- An allocation and a write of a block that is no bitmap commute. -/
theorem exec_alloc_setBlk (hk : k.HeapOk) {b : ℕ} (hb : ¬ IsBitmap K k b) (data : Bytes) {f : ℕ}
    (h : (alloc K).exec k = some (f, k')) :
    (alloc K).exec (k.setBlk b data) = some (f, k'.setBlk b data) := by
  have hheap : (k.setBlk b data).HeapOk := hk
  have husable : ∀ g < k.sb.scanned, (k.setBlk b data).usableBit K g = k.usableBit K g :=
    fun g hg => by
      rw [usableBit_of_heapOk hheap, usableBit_of_heapOk hk, clearBits_setBlk hb data hg]
  have hstop : scanStop K (k.setBlk b data) (List.range k.sb.scanned) =
      scanStop K k (List.range k.sb.scanned) := by
    rw [scanStop, scanStop]
    refine List.find?_congr fun g hg => ?_
    rw [husable g (List.mem_range.mp hg), setBlk_sb]
  rw [exec_alloc] at h ⊢
  rw [setBlk_sb, hstop]
  cases hs : scanStop K k (List.range k.sb.scanned) with
  | none =>
    rw [hs, hk.popHeap, Option.some.injEq, Prod.mk.injEq] at h
    rw [hheap.popHeap, ← h.1, ← h.2]
  | some g =>
    have hg := List.mem_range.mp (List.find?_range_eq_some.mp hs).2.1
    rw [hs] at h
    simp only at h ⊢
    split at h
    swap
    · cases h
    next hcached =>
    rw [if_pos hcached, husable g hg]
    rw [Option.map_eq_some_iff] at h ⊢
    obtain ⟨i, hi, heq⟩ := h
    refine ⟨i, hi, ?_⟩
    rw [Prod.mk.injEq] at heq ⊢
    have hk' : (k.takeBit K g i).HeapOk := hk
    have hk'' : ((k.setBlk b data).takeBit K g i).HeapOk := hk
    rw [hk'.popHeap] at heq
    refine ⟨heq.1, ?_⟩
    rw [hk''.popHeap, ← heq.2]
    have hne : K.bitmap (k.bgdt g) ≠ b := by
      rw [usableBit_of_heapOk hk] at hi
      have hclear := mem_clearBits (List.mem_of_head? hi)
      rintro rfl
      exact hb ⟨hclear.1, g, hg, rfl⟩
    simp only [takeBit, setBlk_bgdt, setBlk_blk, Function.update_of_ne hne]
    have hne' : b ≠ K.bitmap ((k.drives k.active).bgdtCache g) := Ne.symm hne
    simp only [setBlk, setDesc, Kernel.bgdt, Function.update_idem, Function.update_self]
    rw [Function.update_comm hne']

/-! ## The free numbers after an allocation -/

theorem bits_nodup (K : BitmapKind) (sb : Superblock) (g : ℕ) : (K.bits sb g).Nodup :=
  List.nodup_range'

/-- Taking a clear bit removes it from the clear bits of its group. -/
theorem clearBits_takeBit_self {g i : ℕ} (hi : i ∈ k.clearBits K g) :
    (k.takeBit K g i).clearBits K g = (k.clearBits K g).filter (· ≠ i) := by
  obtain ⟨hne, hbits, -⟩ := mem_clearBits hi
  simp only [clearBits, takeBit_bgdt, takeBit_sb, Function.update_self, K.bitmap_take, if_neg hne,
    List.filter_filter, takeBit_blk _ _ hbits, bit_setBit]
  refine List.filter_congr fun j _ => ?_
  by_cases hj : j = i <;> simp [hj]

/-- Taking a bit does not show in a group with another bitmap. -/
theorem clearBits_takeBit_of_ne {g g' i : ℕ} (hi : i ∈ k.clearBits K g) (hg : g' ≠ g)
    (hne : K.bitmap (k.bgdt g') ≠ K.bitmap (k.bgdt g)) :
    (k.takeBit K g i).clearBits K g' = k.clearBits K g' := by
  obtain ⟨-, hbits, -⟩ := mem_clearBits hi
  simp only [clearBits, takeBit_bgdt, takeBit_sb, Function.update_of_ne hg,
    takeBit_blk _ _ hbits, Function.update_of_ne hne]

/-- An allocation takes the first free number, and the others stay free. -/
theorem exec_alloc_cons (hk : k.HeapOk) (hb : Bitmaps K k) {f : ℕ} {fs : List ℕ}
    (h : k.freeNumbers K = f :: fs) : ∃ g i, g < k.sb.scanned ∧ i ∈ k.clearBits K g ∧
      f = K.number k.sb g i ∧ (alloc K).exec k = some (f, k.takeBit K g i) ∧
      (k.takeBit K g i).freeNumbers K = fs := by
  obtain ⟨g, i, is, hg, hbefore, hclear, hf, hrun⟩ := exec_alloc_of_free hk hb.cached h
  have hi : i ∈ k.clearBits K g := hclear ▸ List.mem_cons_self
  have hne := (mem_clearBits hi).1
  refine ⟨g, i, hg, hi, hf, hrun, ?_⟩
  have hother : ∀ g' < k.sb.scanned, g' ≠ g →
      (k.takeBit K g i).clearBits K g' = k.clearBits K g' := fun g' hg' hgg =>
    clearBits_takeBit_of_ne hi hgg fun heq => hgg (hb.inj g hg g' hg' hne heq.symm).symm
  have hself : (k.takeBit K g i).clearBits K g = is := by
    have hnodup : (k.clearBits K g).Nodup := by
      rw [clearBits]
      split
      · exact List.nodup_nil
      · exact (bits_nodup K k.sb g).filter _
    rw [clearBits_takeBit_self hi, hclear]
    rw [hclear, List.nodup_cons] at hnodup
    rw [List.filter_cons_of_neg (by simp), List.filter_eq_self]
    rintro j hj
    have : j ≠ i := fun hji => hnodup.1 (hji ▸ hj)
    simpa using this
  have hsplit := freeNumbers_split hg hbefore
  have hsplit' := freeNumbers_split (k := k.takeBit K g i) (K := K) (g := g)
    (by rwa [takeBit_sb]) (fun g' hg' => by
      rw [hother g' (lt_trans hg' hg) (Nat.ne_of_lt hg'), hbefore g' hg'])
  rw [h, hclear, List.map_cons, List.cons_append, List.cons.injEq] at hsplit
  rw [hsplit', hself, hsplit.2, takeBit_sb]
  congr 1
  refine List.flatMap_congr fun g' hg' => ?_
  rw [List.mem_range'_1] at hg'
  rw [hother g' (by omega) (by omega)]

/-! ## Runs of allocations -/

/-- A run of allocations of blocks hands out `fs`. -/
def Hands : PlainKernel → List ℕ → PlainKernel → Prop
  | k, [], k' => k' = k
  | k, f :: fs, k' => f ≠ 0 ∧ ∃ k₁, ext2AllocBlock.exec k = some (f, k₁) ∧ Hands k₁ fs k'

theorem Hands.ne_zero {fs : List ℕ} (h : Hands k fs k') : ∀ f ∈ fs, f ≠ 0 := by
  induction fs generalizing k with
  | nil => simp
  | cons f fs ih =>
    obtain ⟨hf, k₁, -, hrest⟩ := h
    simpa [hf] using ih hrest

/-- A run of allocations leaves everything but the bitmaps and the counters as it was. -/
theorem Hands.frame (hk : k.HeapOk) {fs : List ℕ} (h : Hands k fs k') :
    DiskOnly k k' ∧ k'.fileBlk = k.fileBlk := by
  induction fs generalizing k with
  | nil =>
    obtain rfl : k' = k := h
    exact ⟨DiskOnly.refl _, rfl⟩
  | cons f fs ih =>
    obtain ⟨-, k₁, hrun, hrest⟩ := h
    obtain ⟨hdisk, hblk⟩ := exec_ext2AllocBlock_frame hk hrun
    obtain ⟨hdisk', hblk'⟩ := ih (hdisk.heapOk hk) hrest
    exact ⟨hdisk.trans hdisk', hblk'.trans hblk⟩

/-- A run of allocations commutes with a write of a block that is no bitmap. -/
theorem Hands.setBlk (hk : k.HeapOk) {fs : List ℕ} (h : Hands k fs k') {b : ℕ}
    (hb : ¬ IsBitmap blockBitmaps k b) (data : Bytes) :
    Hands (k.setBlk b data) fs (k'.setBlk b data) := by
  induction fs generalizing k with
  | nil =>
    obtain rfl : k' = k := h
    rfl
  | cons f fs ih =>
    obtain ⟨hf, k₁, hrun, hrest⟩ := h
    obtain ⟨hdisk, -⟩ := exec_ext2AllocBlock_frame hk hrun
    exact ⟨hf, k₁.setBlk b data, exec_alloc_setBlk hk hb data hrun,
      ih (hdisk.heapOk hk) hrest ((hdisk.isBitmap b).not.mpr hb)⟩

theorem Hands.append {fs gs : List ℕ} (h : Hands k fs k') (h' : Hands k' gs k'') :
    Hands k (fs ++ gs) k'' := by
  induction fs generalizing k with
  | nil =>
    obtain rfl : k' = k := h
    exact h'
  | cons f fs ih =>
    obtain ⟨hf, k₁, hrun, hrest⟩ := h
    exact ⟨hf, k₁, hrun, ih hrest⟩

/-- Taking bits keeps the bitmaps of the groups apart. -/
theorem Bitmaps.diskOnly (hb : Bitmaps blockBitmaps k) (h : DiskOnly k k') :
    Bitmaps blockBitmaps k' := by
  have htables : ∀ g, blockBitmaps.bitmap (k'.bgdt g) = blockBitmaps.bitmap (k.bgdt g) := fun g =>
    (h.tables g).1
  refine ⟨by rw [h.sb]; exact hb.cached, ?_⟩
  intro g hg g' hg'
  rw [h.sb] at hg hg'
  rw [htables, htables]
  exact hb.inj g hg g' hg'

/-- The groups hand out their free blocks in order. -/
theorem hands_of_freeNumbers (hk : k.HeapOk) (hb : Bitmaps blockBitmaps k) {fs gs : List ℕ}
    (h : k.freeNumbers blockBitmaps = fs ++ gs) (h0 : 0 ∉ fs) :
    ∃ k', Hands k fs k' ∧ k'.freeNumbers blockBitmaps = gs := by
  induction fs generalizing k with
  | nil => exact ⟨k, rfl, h⟩
  | cons f fs ih =>
    simp only [List.mem_cons, not_or] at h0
    obtain ⟨g, i, -, -, -, hrun, hfree⟩ := exec_alloc_cons hk hb h
    obtain ⟨hdisk, -⟩ := exec_ext2AllocBlock_frame hk hrun
    obtain ⟨k', hhands, hgs⟩ := ih (hdisk.heapOk hk) (hb.diskOnly hdisk) hfree h0.2
    exact ⟨k', ⟨Ne.symm h0.1, _, hrun, hhands⟩, hgs⟩

/-! ## Distinct blocks -/

/-- The bit of a block in the numbering of the driver. -/
def TakenBlock (k : PlainKernel) (b : ℕ) : Prop :=
  Bytes.bit (k.blk (k.bgdt (b / k.sb.blocksPerGroup)).blockBitmap) (b % k.sb.blocksPerGroup) = true

/-- The driver numbers the bits of the scanned groups without overflow. -/
theorem number_block {g i : ℕ} (hg : g < k.sb.scanned) (hi : i < k.sb.blocksPerGroup) :
    blockBitmaps.number k.sb g i = g * k.sb.blocksPerGroup + i ∧
      g * k.sb.blocksPerGroup + i < 2 ^ 32 ∧
      (g * k.sb.blocksPerGroup + i) / k.sb.blocksPerGroup = g ∧
      (g * k.sb.blocksPerGroup + i) % k.sb.blocksPerGroup = i := by
  have hpos : 0 < k.sb.blocksPerGroup := by omega
  have hgroups : g + 1 ≤ k.sb.groups := lt_of_lt_of_le hg (min_le_left _ _)
  have hle := (Nat.le_div_iff_mul_le hpos).mp hgroups
  have hmod := Nat.mod_lt (k.sb.totalBlocks + k.sb.blocksPerGroup - 1) (Nat.two_pow_pos 32)
  rw [Nat.add_mul, Nat.one_mul] at hle
  refine ⟨Nat.mod_eq_of_lt (by omega), by omega, ?_, ?_⟩
  · rw [Nat.mul_comm, Nat.mul_add_div hpos, Nat.div_eq_of_lt hi, Nat.add_zero]
  · rw [Nat.mul_comm, Nat.mul_add_mod, Nat.mod_eq_of_lt hi]

/-- An allocation takes a block that was not taken, and every block that was taken stays so. -/
theorem exec_ext2AllocBlock_taken (hk : k.HeapOk) {f : ℕ} (hf : f ≠ 0)
    (h : ext2AllocBlock.exec k = some (f, k')) :
    f < 2 ^ 32 ∧ ¬ TakenBlock k f ∧ TakenBlock k' f ∧ ∀ b, TakenBlock k b → TakenBlock k' b := by
  have hdisk := (exec_ext2AllocBlock_frame hk h).1
  rcases exec_alloc_cases hk h with heq | ⟨g, i, hg, hi, heq⟩
  · exact absurd (congrArg Prod.fst heq) hf
  obtain ⟨hfg, rfl⟩ := Prod.mk.inj heq
  obtain ⟨hne, hbits, hclear⟩ := mem_clearBits hi
  obtain ⟨hnum, hlt, hdiv, hmod⟩ := number_block hg (BitmapKind.bits_lt hbits).1
  have htables : ∀ g', ((k.takeBit blockBitmaps g i).bgdt g').blockBitmap =
      (k.bgdt g').blockBitmap := fun g' => (hdisk.tables g').1
  rw [hfg, hnum]
  refine ⟨hlt, ?_, ?_, ?_⟩
  · rw [TakenBlock, hdiv, hmod]
    exact Bool.eq_false_iff.mp hclear
  · rw [TakenBlock, takeBit_sb, hdiv, hmod, htables, takeBit_blk _ _ hbits]
    have hself : blockBitmaps.bitmap (k.bgdt g) = (k.bgdt g).blockBitmap := rfl
    rw [hself, Function.update_self, bit_setBit, decide_eq_true rfl, Bool.or_true]
  · intro b hb
    rw [TakenBlock] at hb ⊢
    rw [takeBit_sb, htables, takeBit_blk _ _ hbits]
    by_cases hsame : (k.bgdt (b / k.sb.blocksPerGroup)).blockBitmap =
        blockBitmaps.bitmap (k.bgdt g)
    · rw [hsame] at hb ⊢
      rw [Function.update_self, bit_setBit, hb, Bool.true_or]
    · rw [Function.update_of_ne hsame, hb]

/-- A run of allocations hands out distinct blocks that were not taken. -/
theorem Hands.nodup (hk : k.HeapOk) {fs : List ℕ} (h : Hands k fs k') :
    fs.Nodup ∧ ∀ f ∈ fs, f < 2 ^ 32 ∧ ¬ TakenBlock k f := by
  induction fs generalizing k with
  | nil => simp
  | cons f fs ih =>
    obtain ⟨hf, k₁, hrun, hrest⟩ := h
    obtain ⟨hlt, hnot, htaken, hmono⟩ := exec_ext2AllocBlock_taken hk hf hrun
    obtain ⟨hnodup, hfs⟩ := ih ((exec_ext2AllocBlock_frame hk hrun).1.heapOk hk) hrest
    refine ⟨List.nodup_cons.mpr ⟨fun hmem => (hfs f hmem).2 htaken, hnodup⟩, ?_⟩
    intro g hg
    rcases List.mem_cons.mp hg with rfl | hg
    · exact ⟨hlt, hnot⟩
    · exact ⟨(hfs g hg).1, fun htak => (hfs g hg).2 (hmono g htak)⟩

/-! ## Writes of file blocks -/

/-- The second state is reached from the first by writes of blocks that are no block bitmaps. -/
inductive FileOnly : PlainKernel → PlainKernel → Prop
  | refl (k : PlainKernel) : FileOnly k k
  | write {k k' : PlainKernel} (h : FileOnly k k') {b : ℕ} (hb : ¬ IsBitmap blockBitmaps k' b)
      (data : Bytes) : FileOnly k (k'.setBlk b data)

theorem FileOnly.trans (h : FileOnly k k') (h' : FileOnly k' k'') : FileOnly k k'' := by
  induction h' with
  | refl => exact h
  | write _ hb data ih => exact ih.write hb data

theorem FileOnly.diskOnly (h : FileOnly k k') : DiskOnly k k' := by
  induction h with
  | refl => exact DiskOnly.refl _
  | write _ hb data ih => exact ih.trans (diskOnly_setBlk _ _ _)

theorem FileOnly.bgdt (h : FileOnly k k') : k'.bgdt = k.bgdt := by
  induction h with
  | refl => rfl
  | write _ hb data ih => rw [setBlk_bgdt, ih]

theorem FileOnly.freeNumbers (h : FileOnly k k') :
    k'.freeNumbers blockBitmaps = k.freeNumbers blockBitmaps := by
  induction h with
  | refl => rfl
  | write _ hb data ih => rw [freeNumbers_setBlk hb, ih]

/-- A write of a file block. -/
theorem fileOnly_setBlk {b : ℕ} (hb : ¬ IsBitmap blockBitmaps k b) (data : Bytes) :
    FileOnly k (k.setBlk b data) :=
  (FileOnly.refl k).write hb data

/-- A write of a file block does not change a block bitmap. -/
theorem FileOnly.blk_bitmap (h : FileOnly k k') {b : ℕ} (hb : IsBitmap blockBitmaps k b) :
    k'.blk b = k.blk b := by
  induction h with
  | refl => rfl
  | write h' hc data ih =>
    rw [setBlk_blk, Function.update_of_ne, ih]
    rintro rfl
    exact hc ((h'.diskOnly.isBitmap _).mpr hb)

/-- A run of allocations that ends with no free block stays so after writes of file blocks. -/
theorem FileOnly.exec_full (h : FileOnly k k') (hk : k.HeapOk)
    (hfull : ext2AllocBlock.exec k = some (0, k)) : ext2AllocBlock.exec k' = some (0, k') := by
  induction h with
  | refl => exact hfull
  | write h' hb data ih => exact exec_alloc_setBlk (h'.diskOnly.heapOk hk) hb data ih

end Kernel

end Sandflea
