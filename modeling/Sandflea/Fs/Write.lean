import Sandflea.Ext2.InodeTable
import Sandflea.Fs.Read

/-!
# Writing a file

A file that a handle writes is `Writable`: its block map is a tree apart from the bitmaps and from the
block of its inode, and the blocks that the driver hands out are used by nothing. One turn of the loop
of `fs_write` writes into a mapped block, or maps a new one (`Writable.graft`), or loses the block that
it wrote because an index block could not be allocated (`Writable.lose`). `Grows` is what all of them
keep, and `Lost` says from the state before a write which block it loses.
-/

namespace Sandflea

open Bytes Kern Kernel PointerTree

/-- The contents of a logical block of a file. -/
def fileBlock (x : Inode) (k : PlainKernel) (l : ℕ) : Bytes :=
  if bmap x k l = 0 then zeros else k.blk (bmap x k l)

theorem fileByte_eq (x : Inode) (k : PlainKernel) (off : ℕ) :
    fileByte x k off = fileBlock x k (off / k.sb.blockSize) (off % k.sb.blockSize) := by
  rw [fileByte, fileBlock]
  split <;> rfl

/-- The file of inode `n` can be written through a handle with the inode `x`. -/
structure Writable (n : ℕ) (x : Inode) (k : PlainKernel) : Prop where
  heap : k.HeapOk
  blockSize : k.sb.blockSize ≤ tableBytes
  bitmaps : Bitmaps blockBitmaps k
  tree : TreeShaped blockOps (mapShape k.sb.ptrs) (fileMap x k)
  apart : ∀ a, (mapShape k.sb.ptrs).Valid a → ptr blockOps (fileMap x k) a ≠ 0 →
    ¬ IsBitmap blockBitmaps k (ptr blockOps (fileMap x k) a) ∧
      ptr blockOps (fileMap x k) a ≠ (k.place n).1
  free : ∀ f ∈ k.freeNumbers blockBitmaps, f ≠ 0 ∧
    Unreferenced blockOps (mapShape k.sb.ptrs) (fileMap x k) f ∧ ¬ IsBitmap blockBitmaps k f ∧
      f ≠ (k.place n).1
  inode : ValidInode k n
  table : (k.place n).1 ≠ 0 ∧ ¬ IsBitmap blockBitmaps k (k.place n).1

/-- What a write of a file keeps, when it takes the blocks `taken`. -/
structure Grows (n : ℕ) (x : Inode) (k : PlainKernel) (x' : Inode) (k' : PlainKernel)
    (taken : List ℕ) : Prop where
  writable : Writable n x' k'
  disk : DiskOnly k k'
  free : k.freeNumbers blockBitmaps = taken ++ k'.freeNumbers blockBitmaps
  keeps : ∀ a, (mapShape k.sb.ptrs).Valid a → ptr blockOps (fileMap x k) a ≠ 0 →
    ptr blockOps (fileMap x' k') a = ptr blockOps (fileMap x k) a
  new : ∀ a, (mapShape k.sb.ptrs).Valid a → ptr blockOps (fileMap x' k') a ≠ 0 →
    ptr blockOps (fileMap x' k') a = ptr blockOps (fileMap x k) a ∨
      ptr blockOps (fileMap x' k') a ∈ taken
  frame : ∀ b, b ≠ 0 → ¬ IsBitmap blockBitmaps k b → b ≠ (k.place n).1 → b ∉ taken →
    Unreferenced blockOps (mapShape k.sb.ptrs) (fileMap x k) b → k'.blk b = k.blk b

variable {n p l : ℕ} {x x' x'' : Inode} {k k' k'' : PlainKernel} {fs gs taken taken' : List ℕ}

namespace Writable

theorem clean (h : Writable n x k) : IndexClean x k := fun a ha _ hne => (h.apart a ha hne).1

theorem ptrs_pos (k : PlainKernel) : 0 < k.sb.ptrs := lt_of_lt_of_le (by norm_num) k.sb.le_ptrs

theorem leaf (hl : l < mapLimit k.sb.ptrs) :
    (mapShape k.sb.ptrs).Leaf (leafAddr k.sb.ptrs l) :=
  leafAddr_leaf (ptrs_pos k) hl

theorem bmap_eq (h : Writable n x k) (hl : l < mapLimit k.sb.ptrs) :
    bmap x k l = ptr blockOps (fileMap x k) (leafAddr k.sb.ptrs l) :=
  h.clean.ptr_mapOf (leaf hl).1

/-- The driver hands out a free block once. -/
theorem free_nodup (h : Writable n x k) : (k.freeNumbers blockBitmaps).Nodup := by
  obtain ⟨kA, hands, -⟩ := hands_of_freeNumbers h.heap h.bitmaps (List.append_nil _).symm
    fun h0 => (h.free 0 h0).1 rfl
  exact (hands.nodup h.heap).1

end Writable

/-- A write keeps a file writable when the new pointers are free blocks. -/
theorem Writable.grows (h : Writable n x k) (disk : DiskOnly k k')
    (free : k.freeNumbers blockBitmaps = taken ++ k'.freeNumbers blockBitmaps)
    (tree : TreeShaped blockOps (mapShape k.sb.ptrs) (fileMap x' k'))
    (keeps : ∀ a, (mapShape k.sb.ptrs).Valid a → ptr blockOps (fileMap x k) a ≠ 0 →
      ptr blockOps (fileMap x' k') a = ptr blockOps (fileMap x k) a)
    (new : ∀ a, (mapShape k.sb.ptrs).Valid a → ptr blockOps (fileMap x' k') a ≠ 0 →
      ptr blockOps (fileMap x' k') a = ptr blockOps (fileMap x k) a ∨
        ptr blockOps (fileMap x' k') a ∈ taken)
    (frame : ∀ b, b ≠ 0 → ¬ IsBitmap blockBitmaps k b → b ≠ (k.place n).1 → b ∉ taken →
      Unreferenced blockOps (mapShape k.sb.ptrs) (fileMap x k) b → k'.blk b = k.blk b) :
    Grows n x k x' k' taken := by
  have hnodup := h.free_nodup
  rw [free] at hnodup
  have htaken : ∀ f ∈ taken, f ∈ k.freeNumbers blockBitmaps := fun f hf => by
    rw [free]
    exact List.mem_append_left _ hf
  refine ⟨⟨disk.heapOk h.heap, by rw [disk.sb]; exact h.blockSize, h.bitmaps.diskOnly disk,
    by rw [disk.sb]; exact tree, ?_, ?_, ?_, ?_⟩, disk, free, keeps, new, frame⟩
  · intro a ha hne
    rw [disk.sb] at ha
    rw [disk.isBitmap, disk.place]
    rcases new a ha hne with heq | hmem
    · rw [heq] at hne ⊢
      exact h.apart a ha hne
    · have := h.free _ (htaken _ hmem)
      exact ⟨this.2.2.1, this.2.2.2⟩
  · intro f hf
    have hmem : f ∈ k.freeNumbers blockBitmaps := by
      rw [free]
      exact List.mem_append_right _ hf
    obtain ⟨h0, hunref, hbitmap, hplace⟩ := h.free f hmem
    rw [disk.isBitmap, disk.place, disk.sb]
    refine ⟨h0, fun a ha heq => ?_, hbitmap, hplace⟩
    rcases new a ha (heq.trans_ne h0) with hold | hnew
    · exact hunref a ha (hold ▸ heq)
    · exact (List.nodup_append.mp hnodup).2.2 _ hnew f hf heq
  · have hi := h.inode
    refine ⟨hi.ne_zero, ?_, ?_, ?_, ?_⟩
    · rw [disk.sb]
      exact hi.le
    · rw [disk.sb]
      exact hi.cached
    · rw [disk.sb]
      exact hi.size
    · rw [disk.sb, disk.place]
      exact hi.fits
  · rw [disk.place, disk.isBitmap]
    exact h.table

namespace Grows

theorem trans (h : Grows n x k x' k' taken) (h' : Grows n x' k' x'' k'' taken') :
    Grows n x k x'' k'' (taken ++ taken') where
  writable := h'.writable
  disk := h.disk.trans h'.disk
  free := by rw [h.free, h'.free, List.append_assoc]
  keeps a ha hne := by
    have hfirst := h.keeps a ha hne
    have hsecond := h'.keeps a (by rwa [h.disk.sb]) (hfirst.trans_ne hne)
    exact hsecond.trans hfirst
  new a ha hne := by
    rcases h'.new a (by rwa [h.disk.sb]) hne with heq | hmem
    · rw [heq] at hne ⊢
      exact (h.new a ha hne).imp id (List.mem_append_left _)
    · exact Or.inr (List.mem_append_right _ hmem)
  frame b hb hbitmap hplace hmem hunref := by
    rw [List.mem_append, not_or] at hmem
    have hunref' : Unreferenced blockOps (mapShape k'.sb.ptrs) (fileMap x' k') b := by
      rw [h.disk.sb]
      intro a ha heq
      rcases h.new a ha (heq.trans_ne hb) with hold | hnew
      · exact hunref a ha (hold ▸ heq)
      · exact hmem.1 (heq ▸ hnew)
    rw [h'.frame b hb ((h.disk.isBitmap b).not.mpr hbitmap) (by rwa [h.disk.place]) hmem.2 hunref',
      h.frame b hb hbitmap hplace hmem.1 hunref]

end Grows

/-- The size of an inode does not show in its block map. -/
theorem ptr_setSize (x : Inode) (k : PlainKernel) (v : ℕ) {a : Addr}
    (ha : (mapShape k.sb.ptrs).Valid a) :
    ptr blockOps (fileMap (x.setSize v) k) a = ptr blockOps (fileMap x k) a := by
  have hslot : a.1 < 15 := ha.slot
  exact congrArg (walk blockOps k.fileBlk · a.2) (Inode.block_setSize hslot)

theorem Writable.setSize (h : Writable n x k) (v : ℕ) : Grows n x k (x.setSize v) k [] :=
  h.grows (DiskOnly.refl k) rfl (h.tree.congr fun _ ha => ptr_setSize x k v ha)
    (fun _ ha _ => ptr_setSize x k v ha) (fun _ ha _ => Or.inl (ptr_setSize x k v ha))
    fun _ _ _ _ _ _ => rfl

theorem fileBlock_setSize (h : Writable n x k) (v : ℕ) (hl : l < mapLimit k.sb.ptrs) :
    fileBlock (x.setSize v) k l = fileBlock x k l := by
  have hbmap : bmap (x.setSize v) k l = bmap x k l := by
    rw [(h.setSize v).writable.bmap_eq hl, h.bmap_eq hl, ptr_setSize x k v (leafAddr_leaf
      (Writable.ptrs_pos k) hl).1]
  rw [fileBlock, fileBlock, hbmap]

/-! ## One turn -/

/-- A write of a block that is no index block leaves the map as it was. -/
theorem ptr_setBlk {b : ℕ} (hb : ¬ IsBitmap blockBitmaps k b)
    (hindex : ∀ a, (mapShape k.sb.ptrs).Valid a → ¬ (mapShape k.sb.ptrs).Leaf a →
      ptr blockOps (fileMap x k) a ≠ 0 → ptr blockOps (fileMap x k) a ≠ b) (d : Bytes) {a : Addr}
    (ha : (mapShape k.sb.ptrs).Valid a) :
    ptr blockOps (fileMap x (k.setBlk b d)) a = ptr blockOps (fileMap x k) a := by
  refine ptr_congr (S := mapShape k.sb.ptrs) ?_ ?_ ha
  · intro s _
    rfl
  intro c hc hdepth hne i
  have hblk : (k.setBlk b d).fileBlk (ptr blockOps (fileMap x k) c) =
      k.fileBlk (ptr blockOps (fileMap x k) c) := by
    rw [setBlk_fileBlk hb, Function.update_of_ne (hindex c hc (not_leaf_of_lt hdepth) hne)]
  exact congrArg (blockOps.get · i) hblk

/-- A pointer of a leaf is no index block. -/
theorem index_ne_leaf {F : Forest Bytes} {S : Shape} (hF : TreeShaped blockOps S F) {a : Addr}
    (ha : S.Leaf a) : ∀ b, S.Valid b → ¬ S.Leaf b → ptr blockOps F b ≠ 0 →
      ptr blockOps F b ≠ ptr blockOps F a := by
  intro b hb hleaf hne heq
  exact hleaf (hF b a hb ha.1 hne heq ▸ ha)

/-- Two logical blocks with one physical block are one. -/
theorem Writable.bmap_inj (h : Writable n x k) {l' : ℕ} (hl : l < mapLimit k.sb.ptrs)
    (hl' : l' < mapLimit k.sb.ptrs) (hne : bmap x k l ≠ 0) (heq : bmap x k l = bmap x k l') :
    l = l' := by
  rw [h.bmap_eq hl] at hne heq
  rw [h.bmap_eq hl'] at heq
  exact leafAddr_inj (h.tree _ _ (leaf hl).1 (leaf hl').1 hne heq)

/-- A turn on a mapped block. -/
theorem Writable.overwrite (h : Writable n x k) (hl : l < mapLimit k.sb.ptrs)
    (hmapped : bmap x k l ≠ 0) (d : Bytes) :
    Grows n x k x (k.setBlk (bmap x k l) d) [] ∧
      (∀ a, (mapShape k.sb.ptrs).Valid a →
        ptr blockOps (fileMap x (k.setBlk (bmap x k l) d)) a = ptr blockOps (fileMap x k) a) ∧
      ∀ l' < mapLimit k.sb.ptrs, fileBlock x (k.setBlk (bmap x k l) d) l' =
        if l' = l then trunc k.sb.blockSize d else fileBlock x k l' := by
  have hleaf := leaf hl
  have hbmap := h.bmap_eq hl
  have hbitmap : ¬ IsBitmap blockBitmaps k (bmap x k l) := by
    rw [hbmap] at hmapped ⊢
    exact (h.apart _ hleaf.1 hmapped).1
  have hptr : ∀ a, (mapShape k.sb.ptrs).Valid a →
      ptr blockOps (fileMap x (k.setBlk (bmap x k l) d)) a = ptr blockOps (fileMap x k) a :=
    fun a ha => ptr_setBlk hbitmap (by rw [hbmap]; exact index_ne_leaf h.tree hleaf) d ha
  have hgrows : Grows n x k x (k.setBlk (bmap x k l) d) [] := by
    refine h.grows (diskOnly_setBlk _ _ _) (freeNumbers_setBlk hbitmap d).symm (h.tree.congr hptr)
      (fun a ha _ => hptr a ha) (fun a ha _ => Or.inl (hptr a ha)) ?_
    intro b _ _ _ _ hunref
    have hne : b ≠ bmap x k l := fun heq => hunref _ hleaf.1 (hbmap.symm.trans heq.symm)
    rw [setBlk_blk, Function.update_of_ne hne]
  refine ⟨hgrows, hptr, fun l' hl' => ?_⟩
  have hsame : bmap x (k.setBlk (bmap x k l) d) l' = bmap x k l' := by
    rw [hgrows.writable.bmap_eq hl', h.bmap_eq hl', setBlk_sb, hptr _ (leaf hl').1]
  rw [fileBlock, hsame, setBlk_blk]
  by_cases hll : l' = l
  · rw [if_pos hll, hll, if_neg hmapped, Function.update_self]
  · rw [if_neg hll, fileBlock]
    split
    · rfl
    · next hne => rw [Function.update_of_ne fun heq => hll (h.bmap_inj hl' hl hne heq)]

/-- A turn on a hole that gets the blocks it needs. -/
theorem Writable.graft (h : Writable n x k) (hl : l < mapLimit k.sb.ptrs)
    (hhole : bmap x k l = 0) (hfree : k.freeNumbers blockBitmaps = p :: fs ++ gs)
    (hlen : fs.length = missingAt blockOps (fileMap x k) (leafAddr k.sb.ptrs l)) (d : Bytes) :
    ∃ x' k₁ k₂, ext2AllocBlock.exec k = some (p, k₁) ∧ (ext2SetBmap x l p).exec k₁ = some (x', k₂) ∧
      Grows n x k x' (k₂.setBlk p d) (p :: fs) ∧ (k₂.setBlk p d).freeNumbers blockBitmaps = gs ∧
      Grafted blockOps (mapShape k.sb.ptrs) (fileMap x k) (fileMap x' (k₂.setBlk p d))
        (leafAddr k.sb.ptrs l) p fs ∧
      x'.size = x.size ∧ x'.mode = x.mode ∧
      ∀ l' < mapLimit k.sb.ptrs, fileBlock x' (k₂.setBlk p d) l' =
        if l' = l then trunc k.sb.blockSize d else fileBlock x k l' := by
  have hleaf := leaf hl
  have hnull := (h.bmap_eq hl).symm.trans hhole
  have hfs : ∀ f ∈ p :: fs, f ≠ 0 ∧
      Unreferenced blockOps (mapShape k.sb.ptrs) (fileMap x k) f ∧ ¬ IsBitmap blockBitmaps k f :=
    fun f hf => by
      have := h.free f (by rw [hfree]; exact List.mem_append_left _ hf)
      exact ⟨this.1, this.2.1, this.2.2.1⟩
  have hp := hfs p List.mem_cons_self
  have hnodup := h.free_nodup
  rw [hfree, List.cons_append, List.nodup_cons] at hnodup
  -- the allocations, and the descent between them
  obtain ⟨g, i, -, -, -, hrun, hfree₁⟩ := exec_alloc_cons h.heap h.bitmaps hfree
  obtain ⟨kA, handsAll, -⟩ := hands_of_freeNumbers h.heap h.bitmaps
    (List.append_nil (k.freeNumbers blockBitmaps)).symm fun h0 => (h.free 0 h0).1 rfl
  have hpb : p < 2 ^ 32 := ((handsAll.nodup h.heap).2 p (by
    rw [hfree]
    exact List.mem_append_left _ List.mem_cons_self)).1
  generalize k.takeBit blockBitmaps g i = k₁ at hrun hfree₁
  obtain ⟨hdisk₁, hblk₁⟩ := exec_ext2AllocBlock_frame h.heap hrun
  have hk₁ := hdisk₁.heapOk h.heap
  obtain ⟨kB, hands, hfreeB⟩ := hands_of_freeNumbers hk₁ (h.bitmaps.diskOnly hdisk₁) hfree₁
    fun h0 => (hfs 0 (List.mem_cons_of_mem _ h0)).1 rfl
  have hmap : fileMap x k₁ = fileMap x k := by rw [fileMap, fileMap, hblk₁]
  obtain ⟨x', k₂, hset, honly, hgraft, hclean, hframe, hmode, hsize, -⟩ :=
    exec_ext2SetBmap (x := x) (l := l) hk₁ (by rw [hdisk₁.sb]; exact h.blockSize)
      (by rw [hdisk₁.sb, hmap]; exact h.tree)
      (by
        rw [IndexClean, hdisk₁.sb, hmap]
        intro a ha hnot hne
        rw [hdisk₁.isBitmap]
        exact h.clean a ha hnot hne)
      (by rwa [hdisk₁.sb]) hp.1 hpb (by rw [hdisk₁.sb, hmap]; exact hp.2.1) hands
      (by rw [hdisk₁.sb, hmap]; exact hlen) (by
        intro f hf
        have := hfs f (List.mem_cons_of_mem _ hf)
        rw [hdisk₁.sb, hmap, hdisk₁.isBitmap]
        refine ⟨this.2.1, ?_, this.2.2⟩
        rintro rfl
        exact hnodup.1 (List.mem_append_left _ hf))
  rw [hdisk₁.sb, hmap] at hgraft hframe
  have hdisk₂ : DiskOnly k k₂ := (hdisk₁.trans (hands.frame hk₁).1).trans honly.diskOnly
  have hpb₂ : ¬ IsBitmap blockBitmaps k₂ p := (hdisk₂.isBitmap p).not.mpr hp.2.2
  have hdisk : DiskOnly k (k₂.setBlk p d) := hdisk₂.trans (diskOnly_setBlk _ _ _)
  have hptr : ∀ a, (mapShape k.sb.ptrs).Valid a →
      ptr blockOps (fileMap x' (k₂.setBlk p d)) a = ptr blockOps (fileMap x' k₂) a := by
    intro a ha
    refine ptr_setBlk hpb₂ ?_ d (by rwa [hdisk₂.sb])
    rw [hdisk₂.sb, ← hgraft.leaf]
    exact index_ne_leaf hgraft.tree hleaf
  have hgraft' := hgraft.congr hleaf.1 hptr
  have hfree' : (k₂.setBlk p d).freeNumbers blockBitmaps = gs := by
    rw [freeNumbers_setBlk hpb₂, honly.freeNumbers, hfreeB]
  have hblock : ∀ b, b ≠ 0 → ¬ IsBitmap blockBitmaps k b → b ∉ p :: fs →
      (∀ a, (mapShape k.sb.ptrs).Valid a → ¬ (mapShape k.sb.ptrs).Leaf a →
        ptr blockOps (fileMap x k) a ≠ b) → (k₂.setBlk p d).blk b = k.blk b := by
    intro b hb hbitmap hmem hindex
    rw [List.mem_cons, not_or] at hmem
    have hfile := hframe b hb hmem.2 hindex
    rw [hblk₁, fileBlk_of_not_bitmap hbitmap,
      fileBlk_of_not_bitmap ((hdisk₂.isBitmap b).not.mpr hbitmap)] at hfile
    rw [setBlk_blk, Function.update_of_ne hmem.1, hfile]
  have hgrows : Grows n x k x' (k₂.setBlk p d) (p :: fs) := by
    refine h.grows hdisk (by rw [hfree, hfree']) hgraft'.tree ?_ hgraft'.new
      fun b hb hbitmap _ hmem hunref => hblock b hb hbitmap hmem fun a ha _ => hunref a ha
    intro a ha hne
    refine hgraft'.keeps a ha ?_ hne
    rintro rfl
    exact hne hnull
  refine ⟨x', k₁, k₂, hrun, hset, hgrows, hfree', hgraft', hsize, hmode, fun l' hl' => ?_⟩
  have hsb : (k₂.setBlk p d).sb = k.sb := hdisk.sb
  rw [fileBlock, hgrows.writable.bmap_eq (by rwa [hsb]), hsb]
  by_cases hll : l' = l
  · rw [if_pos hll, hll, hgraft'.leaf, if_neg hp.1, setBlk_blk, Function.update_self, hdisk₂.sb]
  · rw [if_neg hll, hgraft'.leaves _ (leaf hl') fun heq => hll (leafAddr_inj heq), ← h.bmap_eq hl', fileBlock]
    split
    · rfl
    · next hne =>
      rw [h.bmap_eq hl'] at hne ⊢
      refine hblock _ hne (h.apart _ (leaf hl').1 hne).1 ?_ ?_
      · intro hmem
        exact (hfs _ hmem).2.1 _ (leaf hl').1 rfl
      · intro a ha hnot heq
        exact index_ne_leaf h.tree (leaf hl') a ha hnot (heq.trans_ne hne) heq

/-- A turn on a hole that gets its block but not all the index blocks above it: nothing is mapped. -/
theorem Writable.lose (h : Writable n x k) (hl : l < mapLimit k.sb.ptrs)
    (hfree : k.freeNumbers blockBitmaps = p :: fs)
    (hlen : fs.length < missingAt blockOps (fileMap x k) (leafAddr k.sb.ptrs l)) (d : Bytes) :
    ∃ x' k₁ k₂, ext2AllocBlock.exec k = some (p, k₁) ∧ (ext2SetBmap x l p).exec k₁ = some (x', k₂) ∧
      Grows n x k x' (k₂.setBlk p d) (p :: fs) ∧ (k₂.setBlk p d).freeNumbers blockBitmaps = [] ∧
      x'.size = x.size ∧ x'.mode = x.mode ∧
      ∀ l' < mapLimit k.sb.ptrs, bmap x' (k₂.setBlk p d) l' = bmap x k l' ∧
        fileBlock x' (k₂.setBlk p d) l' = fileBlock x k l' := by
  have hleaf := leaf hl
  have hfs : ∀ f ∈ p :: fs, f ≠ 0 ∧
      Unreferenced blockOps (mapShape k.sb.ptrs) (fileMap x k) f ∧ ¬ IsBitmap blockBitmaps k f :=
    fun f hf => by
      have := h.free f (by rwa [hfree])
      exact ⟨this.1, this.2.1, this.2.2.1⟩
  have hp := hfs p List.mem_cons_self
  have hnodup := h.free_nodup
  rw [hfree, List.nodup_cons] at hnodup
  obtain ⟨g, i, -, -, -, hrun, hfree₁⟩ := exec_alloc_cons h.heap h.bitmaps hfree
  generalize k.takeBit blockBitmaps g i = k₁ at hrun hfree₁
  obtain ⟨hdisk₁, hblk₁⟩ := exec_ext2AllocBlock_frame h.heap hrun
  have hk₁ := hdisk₁.heapOk h.heap
  have hbitmaps₁ := h.bitmaps.diskOnly hdisk₁
  obtain ⟨kB, hands, hfreeB⟩ := hands_of_freeNumbers hk₁ hbitmaps₁
    (hfree₁.trans (List.append_nil fs).symm) fun h0 => (hfs 0 (List.mem_cons_of_mem _ h0)).1 rfl
  have hdiskB := (hands.frame hk₁).1
  have hfull : ext2AllocBlock.exec kB = some (0, kB) :=
    exec_alloc_of_full (hdiskB.heapOk hk₁) (hbitmaps₁.diskOnly hdiskB).cached hfreeB
  have hmap : fileMap x k₁ = fileMap x k := by rw [fileMap, fileMap, hblk₁]
  have hrest : ∀ f ∈ fs, f ≠ 0 ∧
      Unreferenced blockOps (mapShape k.sb.ptrs) (fileMap x k) f ∧ ¬ IsBitmap blockBitmaps k f :=
    fun f hf => hfs f (List.mem_cons_of_mem _ hf)
  obtain ⟨x', k₂, gs, hset, honly, hframe, hgs, hlinks, hmode, hsize⟩ :=
    exec_setPath_of_full (x := x) (a := leafAddr k₁.sb.ptrs l) (p := p) hk₁
      (by
        rw [IndexClean, hdisk₁.sb, hmap]
        intro a ha hnot hne
        rw [hdisk₁.isBitmap]
        exact h.clean a ha hnot hne)
      (by rw [hdisk₁.sb]; exact hleaf) hands hfull (by rw [hdisk₁.sb, hmap]; exact h.tree)
      (by
        rw [hdisk₁.sb, hmap]
        obtain ⟨hnodup', hlt⟩ := hands.nodup hk₁
        exact ⟨hnodup', fun f hf => (hrest f hf).1, fun f hf => (hlt f hf).1,
          fun f hf => (hrest f hf).2.1⟩)
      (fun f hf => by
        rw [hdisk₁.isBitmap]
        exact (hrest f hf).2.2)
      (by rw [hdisk₁.sb, hmap]; exact hlen)
  rw [hdisk₁.sb, hmap] at hlinks
  have hset' : (ext2SetBmap x l p).exec k₁ = some (x', k₂) :=
    (ext2SetBmap_eq (by rw [hdisk₁.sb]; exact h.blockSize) x (by rwa [hdisk₁.sb]) hp.1).trans hset
  have hdisk₂ : DiskOnly k k₂ := (hdisk₁.trans hdiskB).trans honly.diskOnly
  have hpb₂ : ¬ IsBitmap blockBitmaps k₂ p := (hdisk₂.isBitmap p).not.mpr hp.2.2
  have hdisk : DiskOnly k (k₂.setBlk p d) := hdisk₂.trans (diskOnly_setBlk _ _ _)
  have hgsp : p ∉ gs := fun hmem => hnodup.1 (hgs p hmem)
  have hunref := hlinks.unreferenced hp.1 hgsp hp.2.1
  have hptr : ∀ a, (mapShape k.sb.ptrs).Valid a →
      ptr blockOps (fileMap x' (k₂.setBlk p d)) a = ptr blockOps (fileMap x' k₂) a := by
    intro a ha
    refine ptr_setBlk hpb₂ ?_ d (by rwa [hdisk₂.sb])
    rw [hdisk₂.sb]
    exact fun b hb _ _ => hunref b hb
  have hlinks' := hlinks.congr hptr
  have hfree' : (k₂.setBlk p d).freeNumbers blockBitmaps = [] := by
    rw [freeNumbers_setBlk hpb₂, honly.freeNumbers, hfreeB]
  have hblock : ∀ b, ¬ IsBitmap blockBitmaps k b → b ∉ p :: fs →
      (k₂.setBlk p d).blk b = k.blk b := by
    intro b hbitmap hmem
    rw [List.mem_cons, not_or] at hmem
    have hfile := hframe b hmem.2
    rw [hblk₁, fileBlk_of_not_bitmap hbitmap,
      fileBlk_of_not_bitmap ((hdisk₂.isBitmap b).not.mpr hbitmap)] at hfile
    rw [setBlk_blk, Function.update_of_ne hmem.1, hfile]
  have hgrows : Grows n x k x' (k₂.setBlk p d) (p :: fs) :=
    h.grows hdisk (by rw [hfree, hfree', List.append_nil]) hlinks'.tree hlinks'.keeps
      (fun a ha hne => (hlinks'.new a ha hne).imp id fun hmem =>
        List.mem_cons_of_mem _ (hgs _ hmem))
      fun b _ hbitmap _ hmem _ => hblock b hbitmap hmem
  refine ⟨x', k₁, k₂, hrun, hset', hgrows, hfree', hsize, hmode, fun l' hl' => ?_⟩
  have hsb : (k₂.setBlk p d).sb = k.sb := hdisk.sb
  have hsame : bmap x' (k₂.setBlk p d) l' = bmap x k l' := by
    rw [hgrows.writable.bmap_eq (by rwa [hsb]), hsb, hlinks'.leaves _ (leaf hl'), h.bmap_eq hl']
  refine ⟨hsame, ?_⟩
  rw [fileBlock, fileBlock, hsame]
  split
  · rfl
  · next hne =>
    rw [h.bmap_eq hl'] at hne ⊢
    exact hblock _ (h.apart _ (leaf hl').1 hne).1 fun hmem =>
      (hfs _ hmem).2.1 _ (leaf hl').1 rfl

/-! ## The blocks that a write demands -/

/-- The number of free blocks. -/
def freeCount (k : PlainKernel) : ℕ := (k.freeNumbers blockBitmaps).length

/-- The number of blocks that must be allocated before the logical blocks from `a` to `b` are mapped:
the null pointers on the ways to them. -/
def mapDemand (x : Inode) (k : PlainKernel) (a b : ℕ) : ℕ :=
  demand blockOps (fileMap x k) ((Finset.Ico a b).image (leafAddr k.sb.ptrs))

theorem Grows.freeCount (h : Grows n x k x' k' taken) :
    freeCount k = taken.length + freeCount k' := by
  rw [Sandflea.freeCount, h.free, List.length_append, Sandflea.freeCount]

theorem mapDemand_self (x : Inode) (k : PlainKernel) (a : ℕ) : mapDemand x k a a = 0 := by
  simp [mapDemand, demand]

theorem mapDemand_mono (x : Inode) (k : PlainKernel) (a : ℕ) {b c : ℕ} (h : b ≤ c) :
    mapDemand x k a b ≤ mapDemand x k a c :=
  demand_mono (Finset.image_subset_image (Finset.Ico_subset_Ico_right h))

theorem image_Ico_insert (f : ℕ → Addr) {a b : ℕ} (h : a < b) :
    (Finset.Ico a b).image f = Insert.insert (f a) ((Finset.Ico (a + 1) b).image f) := by
  rw [← Finset.insert_Ico_add_one_left_eq_Ico h, Finset.image_insert]

theorem valid_of_mem_image {a b : ℕ} (hb : b ≤ mapLimit k.sb.ptrs) :
    ∀ c ∈ (Finset.Ico a b).image (leafAddr k.sb.ptrs), (mapShape k.sb.ptrs).Valid c := by
  intro c hc
  obtain ⟨l, hl, rfl⟩ := Finset.mem_image.mp hc
  exact (Writable.leaf (lt_of_lt_of_le (Finset.mem_Ico.mp hl).2 hb)).1

/-- A mapped block demands nothing. -/
theorem mapDemand_of_mapped (h : Writable n x k) {b : ℕ} (hl : l < b) (hb : b ≤ mapLimit k.sb.ptrs)
    (hmapped : bmap x k l ≠ 0) : mapDemand x k l b = mapDemand x k (l + 1) b := by
  rw [h.bmap_eq (by omega)] at hmapped
  rw [mapDemand, image_Ico_insert _ hl, demand_insert_of_ne hmapped, mapDemand]

/-- The demand depends only on the pointers of the map. -/
theorem mapDemand_congr (hsb : k'.sb = k.sb) {a b : ℕ} (hb : b ≤ mapLimit k.sb.ptrs)
    (hptr : ∀ c, (mapShape k.sb.ptrs).Valid c →
      ptr blockOps (fileMap x' k') c = ptr blockOps (fileMap x k) c) :
    mapDemand x' k' a b = mapDemand x k a b := by
  rw [mapDemand, mapDemand, hsb]
  exact demand_congr (valid_of_mem_image hb) hptr

/-- A turn that maps a block meets the demand of that block. -/
theorem mapDemand_of_grafted (hsb : k'.sb = k.sb) {b : ℕ} (hlb : l < b)
    (hb : b ≤ mapLimit k.sb.ptrs) (hp : p ≠ 0)
    (hnull : ptr blockOps (fileMap x k) (leafAddr k.sb.ptrs l) = 0)
    (hlen : fs.length = missingAt blockOps (fileMap x k) (leafAddr k.sb.ptrs l))
    (h : Grafted blockOps (mapShape k.sb.ptrs) (fileMap x k) (fileMap x' k')
      (leafAddr k.sb.ptrs l) p fs) :
    mapDemand x k l b = fs.length + 1 + mapDemand x' k' (l + 1) b := by
  rw [mapDemand, image_Ico_insert _ hlb, demand_insert_of_grafted h
    (Writable.leaf (lt_of_lt_of_le hlb hb)) hp hnull hlen (valid_of_mem_image hb), mapDemand, hsb]

/-- A hole demands its block and its missing index blocks. -/
theorem missing_lt_mapDemand {b : ℕ} (hl : l < b)
    (hnull : ptr blockOps (fileMap x k) (leafAddr k.sb.ptrs l) = 0) :
    missingAt blockOps (fileMap x k) (leafAddr k.sb.ptrs l) + 1 ≤ mapDemand x k l b := by
  rw [← card_nulls hnull]
  exact card_nulls_le_demand (Finset.mem_image_of_mem _ (Finset.mem_Ico.mpr ⟨le_rfl, hl⟩))

/-- A write from position `q` to `stop` loses block `l`: the free blocks meet the demand of the blocks
in front of it, with at least one to spare, but not its own. -/
def Lost (x : Inode) (k : PlainKernel) (q stop l : ℕ) : Prop :=
  q < stop ∧ q / k.sb.blockSize ≤ l ∧ l * k.sb.blockSize < stop ∧
    mapDemand x k (q / k.sb.blockSize) l < freeCount k ∧
    freeCount k < mapDemand x k (q / k.sb.blockSize) (l + 1)

/-- A turn that meets the demand of its block leaves the same blocks to be lost. -/
theorem lost_iff_of_met (hsb : k'.sb = k.sb) {q q' stop c : ℕ} (hq : q < stop)
    (hstop : stop < 2 ^ 32) (hend : q' = stop ∨ q' = (q / k.sb.blockSize + 1) * k.sb.blockSize)
    (hle : q' ≤ (q / k.sb.blockSize + 1) * k.sb.blockSize) (hfree : freeCount k = c + freeCount k')
    (hdemand : ∀ b, q / k.sb.blockSize < b → b ≤ mapLimit k.sb.ptrs →
      mapDemand x k (q / k.sb.blockSize) b =
        c + mapDemand x' k' (q / k.sb.blockSize + 1) b) (L : ℕ) :
    Lost x k q stop L ↔ Lost x' k' q' stop L := by
  have hbs := k.sb.blockSize_pos
  have hnear : ∀ {L}, L * k.sb.blockSize < stop → L + 1 ≤ mapLimit k.sb.ptrs := fun hL =>
    index_lt_mapLimit (lt_of_le_of_lt (Nat.mul_le_mul_right _ (Nat.sub_le _ _)) (by omega))
  have hbig : ∀ {L}, q / k.sb.blockSize < L → q' ≤ L * k.sb.blockSize := fun hL =>
    le_trans hle (Nat.mul_le_mul_right _ hL)
  have hdiv : q' = (q / k.sb.blockSize + 1) * k.sb.blockSize →
      q' / k.sb.blockSize = q / k.sb.blockSize + 1 := fun h => by
    rw [h, Nat.mul_div_cancel _ hbs]
  unfold Lost
  rw [hsb]
  constructor
  · rintro ⟨-, hqL, hL, hbefore, hafter⟩
    have hne : q / k.sb.blockSize ≠ L := by
      rintro rfl
      rw [hdemand _ (Nat.lt_succ_self _) (hnear hL), mapDemand_self] at hafter
      omega
    have hlt : q / k.sb.blockSize < L := lt_of_le_of_ne hqL hne
    have hq' := hdiv (hend.resolve_left (by have := hbig hlt; omega))
    rw [hdemand _ hlt (le_trans (Nat.le_succ _) (hnear hL))] at hbefore
    rw [hdemand _ (by omega) (hnear hL)] at hafter
    rw [hq']
    refine ⟨?_, hlt, hL, by omega, by omega⟩
    have := hbig hlt
    omega
  · rintro ⟨hq', hqL, hL, hbefore, hafter⟩
    have hq'' := hdiv (hend.resolve_left (by omega))
    rw [hq''] at hqL hbefore hafter
    refine ⟨hq, by omega, hL, ?_, ?_⟩
    · rw [hdemand _ (by omega) (le_trans (Nat.le_succ _) (hnear hL))]
      omega
    · rw [hdemand _ (by omega) (hnear hL)]
      omega

/-- A turn that gets too few blocks is the one that loses. -/
theorem lost_iff_of_short {q stop : ℕ} (hq : q < stop) (hfree : 0 < freeCount k)
    (hshort : freeCount k < mapDemand x k (q / k.sb.blockSize) (q / k.sb.blockSize + 1)) (L : ℕ) :
    Lost x k q stop L ↔ L = q / k.sb.blockSize := by
  constructor
  · rintro ⟨-, hqL, -, hbefore, -⟩
    by_contra hne
    have := mapDemand_mono x k (q / k.sb.blockSize)
      (by omega : q / k.sb.blockSize + 1 ≤ L)
    omega
  · rintro rfl
    refine ⟨hq, le_rfl, lt_of_le_of_lt (Nat.div_mul_le_self _ _) hq, ?_, hshort⟩
    rwa [mapDemand_self]

theorem not_lost_of_full {q stop L : ℕ} (hfree : freeCount k = 0) : ¬ Lost x k q stop L := by
  rintro ⟨-, -, -, hbefore, -⟩
  omega

/-- A lost block is a hole. -/
theorem Lost.hole (h : Writable n x k) {q stop L : ℕ} (hstop : stop < 2 ^ 32)
    (hlost : Lost x k q stop L) : bmap x k L = 0 := by
  obtain ⟨-, hqL, hL, hbefore, hafter⟩ := hlost
  by_contra hmapped
  have hnear : L < mapLimit k.sb.ptrs :=
    index_lt_mapLimit (lt_of_le_of_lt (Nat.mul_le_mul_right _ (Nat.sub_le _ _)) (by omega))
  have hset : (Finset.Ico (q / k.sb.blockSize) (L + 1)).image (leafAddr k.sb.ptrs) =
      Insert.insert (leafAddr k.sb.ptrs L)
        ((Finset.Ico (q / k.sb.blockSize) L).image (leafAddr k.sb.ptrs)) := by
    rw [← Finset.insert_Ico_right_eq_Ico_add_one hqL, Finset.image_insert]
  rw [mapDemand, hset, demand_insert_of_ne (by rwa [← h.bmap_eq hnear])] at hafter
  rw [mapDemand] at hbefore
  omega

/-! ## The loop -/

/-- What the turns of a write do from `w` written bytes on: the file has the data at the positions that
the handle passed, but for the blocks that were lost. -/
structure Wrote (data : Bytes) (lost : ℕ → Prop) (w : ℕ) (h : FileHandle) (k : PlainKernel)
    (w' : ℕ) (h' : FileHandle) (k' : PlainKernel) (taken : List ℕ) : Prop where
  le : w ≤ w'
  pos : h'.pos = h.pos + (w' - w)
  inodeNo : h'.inodeNo = h.inodeNo
  size : h'.inode.size = max h.inode.size h'.pos
  mode : h'.inode.mode = h.inode.mode
  grows : Grows h.inodeNo h.inode k h'.inode k' taken
  bytes : ∀ off < 2 ^ 32, (h.pos ≤ off ∧ off < h'.pos ∧ ¬ lost (off / k.sb.blockSize) →
      fileByte h'.inode k' off = data (w + (off - h.pos))) ∧
    (¬ (h.pos ≤ off ∧ off < h'.pos ∧ ¬ lost (off / k.sb.blockSize)) →
      fileByte h'.inode k' off = fileByte h.inode k off)

theorem Wrote.refl {data : Bytes} {lost : ℕ → Prop} {w : ℕ} {h : FileHandle}
    (hw : Writable h.inodeNo h.inode k) (hpos : h.pos ≤ h.inode.size) :
    Wrote data lost w h k w h k [] where
  le := le_rfl
  pos := by omega
  inodeNo := rfl
  size := (max_eq_left hpos).symm
  mode := rfl
  grows := hw.grows (DiskOnly.refl k) rfl hw.tree (fun _ _ _ => rfl) (fun _ _ _ => Or.inl rfl)
    fun _ _ _ _ _ _ => rfl
  bytes off _ := ⟨fun hin => absurd hin.2.1 (not_lt.mpr hin.1), fun _ => rfl⟩

/-- Turns one behind the other. -/
theorem Wrote.trans {data : Bytes} {lost lost₁ lost₂ : ℕ → Prop} {w w₁ w₂ : ℕ}
    {h h₁ h₂ : FileHandle} (hfst : Wrote data lost₁ w h k w₁ h₁ k' taken)
    (hsnd : Wrote data lost₂ w₁ h₁ k' w₂ h₂ k'' taken')
    (hlost₁ : ∀ off, h.pos ≤ off → off < h₁.pos →
      (lost (off / k.sb.blockSize) ↔ lost₁ (off / k.sb.blockSize)))
    (hlost₂ : ∀ off, h₁.pos ≤ off → off < h₂.pos →
      (lost (off / k.sb.blockSize) ↔ lost₂ (off / k.sb.blockSize))) :
    Wrote data lost w h k w₂ h₂ k'' (taken ++ taken') := by
  have hpos₁ := hfst.pos
  have hpos₂ := hsnd.pos
  have hle₁ := hfst.le
  have hle₂ := hsnd.le
  refine ⟨by omega, by omega, hsnd.inodeNo.trans hfst.inodeNo, ?_, hsnd.mode.trans hfst.mode,
    hfst.grows.trans (hfst.inodeNo ▸ hsnd.grows), fun off hoff => ?_⟩
  · rw [hsnd.size, hfst.size]
    omega
  obtain ⟨hin₁, hout₁⟩ := hfst.bytes off hoff
  obtain ⟨hin₂, hout₂⟩ := hsnd.bytes off hoff
  rw [hfst.grows.disk.sb] at hin₂ hout₂
  constructor
  · rintro ⟨hge, hlt, hnot⟩
    by_cases hoff₁ : off < h₁.pos
    · rw [hout₂ fun hin => absurd hin.1 (by omega)]
      exact hin₁ ⟨hge, hoff₁, fun hl => hnot ((hlost₁ off hge hoff₁).mpr hl)⟩
    · rw [hin₂ ⟨by omega, hlt, fun hl => hnot ((hlost₂ off (by omega) hlt).mpr hl)⟩]
      congr 1
      omega
  · intro hnot
    rw [hout₂ fun ⟨hge, hlt, hl⟩ => hnot ⟨by omega, hlt, fun hl' =>
      hl ((hlost₂ off hge hlt).mp hl')⟩]
    exact hout₁ fun ⟨hge, hlt, hl⟩ => hnot ⟨hge, by omega, fun hl' =>
      hl ((hlost₁ off hge hlt).mp hl')⟩

/-- The handle after a turn that wrote `m` bytes and left the inode `x`. -/
def FileHandle.advance (h : FileHandle) (x : Inode) (m : ℕ) : FileHandle where
  inodeNo := h.inodeNo
  inode := if x.size < (h.pos + m) % 2 ^ 32 then x.setSize ((h.pos + m) % 2 ^ 32) else x
  pos := (h.pos + m) % 2 ^ 32

/-- A turn that writes into one block, or loses it. -/
theorem wrote_turn (data : Bytes) (lost : Prop) [Decidable lost] (w : ℕ) {m : ℕ} {h : FileHandle}
    (hm : h.pos % k.sb.blockSize + m ≤ k.sb.blockSize) (hfit : h.pos + m < 2 ^ 32)
    (hgrows : Grows h.inodeNo h.inode k x' k' taken)
    (hsize : x'.size = h.inode.size) (hmode : x'.mode = h.inode.mode)
    (hblocks : ∀ l' < mapLimit k.sb.ptrs, fileBlock x' k' l' =
      if l' = h.pos / k.sb.blockSize ∧ ¬ lost then
        trunc k.sb.blockSize (copyInto (fileBlock h.inode k (h.pos / k.sb.blockSize))
          (h.pos % k.sb.blockSize) data w m)
      else fileBlock h.inode k l') :
    Wrote data (fun _ => lost) w h k (w + m) (h.advance x' m) k' taken := by
  have hsb := hgrows.disk.sb
  have hbs := k.sb.blockSize_pos
  have hadv : (h.advance x' m).pos = h.pos + m := Nat.mod_eq_of_lt hfit
  have hset : ∀ v, Grows h.inodeNo h.inode k (x'.setSize v) k' taken := fun v => by
    have := hgrows.trans (hgrows.writable.setSize v)
    rwa [List.append_nil] at this
  refine ⟨by omega, by omega, rfl, ?_, ?_, ?_, fun off hoff => ?_⟩
  · rw [hadv, ← hsize]
    simp only [FileHandle.advance, Nat.mod_eq_of_lt hfit]
    split
    · rw [Inode.size_setSize, Nat.mod_eq_of_lt hfit]
      omega
    · omega
  · simp only [FileHandle.advance]
    split
    · rw [Inode.mode_setSize, hmode]
    · exact hmode
  · simp only [FileHandle.advance]
    split
    · exact hset _
    · exact hgrows
  have hnear : off / k.sb.blockSize < mapLimit k.sb.ptrs :=
    index_lt_mapLimit (lt_of_le_of_lt (Nat.mul_le_mul_right _ (Nat.sub_le _ _))
      (lt_of_le_of_lt (Nat.div_mul_le_self _ _) hoff))
  have hblock : fileBlock (h.advance x' m).inode k' (off / k.sb.blockSize) =
      fileBlock x' k' (off / k.sb.blockSize) := by
    simp only [FileHandle.advance]
    split
    · exact fileBlock_setSize hgrows.writable _ (by rwa [hsb])
    · rfl
  rw [fileByte_eq, fileByte_eq, hsb, hblock, hblocks _ hnear, hadv]
  have hdivmod := Nat.div_add_mod off k.sb.blockSize
  have hdivmod' := Nat.div_add_mod h.pos k.sb.blockSize
  have hmod := Nat.mod_lt off hbs
  -- the bytes of the turn lie in the block of the position
  have hinside : h.pos ≤ off ∧ off < h.pos + m ↔ off / k.sb.blockSize = h.pos / k.sb.blockSize ∧
      h.pos % k.sb.blockSize ≤ off % k.sb.blockSize ∧
      off % k.sb.blockSize < h.pos % k.sb.blockSize + m := by
    constructor
    · rintro ⟨hge, hlt⟩
      have hdiv : off / k.sb.blockSize = h.pos / k.sb.blockSize := by
        refine Nat.div_eq_of_lt_le ?_ ?_
        · rw [Nat.mul_comm]
          omega
        · rw [Nat.add_mul, Nat.one_mul, Nat.mul_comm]
          omega
      rw [hdiv] at hdivmod
      exact ⟨hdiv, by omega, by omega⟩
    · rintro ⟨hdiv, hge, hlt⟩
      rw [hdiv] at hdivmod
      omega
  constructor
  · rintro ⟨hge, hlt, hnot⟩
    obtain ⟨hdiv, hge', hlt'⟩ := hinside.mp ⟨hge, hlt⟩
    rw [hdiv] at hdivmod
    rw [if_pos ⟨hdiv, hnot⟩, trunc_of_lt _ hmod, copyInto_of_mem hge' hlt']
    congr 1
    omega
  · intro hnot
    split
    · next hturn =>
      obtain ⟨hdiv, hl⟩ := hturn
      rw [trunc_of_lt _ hmod, copyInto_of_not_mem, hdiv]
      rintro ⟨hge, hlt⟩
      have hin := hinside.mpr ⟨hdiv, hge, hlt⟩
      exact hnot ⟨hin.1, hin.2, hl⟩
    · rfl

/-- The bytes that a turn writes. -/
def turnBytes (k : PlainKernel) (h : FileHandle) (rest : ℕ) : ℕ :=
  min (k.sb.blockSize - h.pos % k.sb.blockSize) rest

/-- The data of a turn in its block. -/
def turnData (data : Bytes) (size w : ℕ) (h : FileHandle) (k : PlainKernel) : Bytes :=
  copyInto (fileBlock h.inode k (h.pos / k.sb.blockSize)) (h.pos % k.sb.blockSize) data w
    (turnBytes k h (size - w))

variable {data : Bytes} {size fuel w : ℕ} {h : FileHandle}

/-- The run of a turn on a mapped block. -/
theorem exec_writeLoop_mapped (hw : Writable h.inodeNo h.inode k) (hlt : w < size)
    (hl : h.pos / k.sb.blockSize < mapLimit k.sb.ptrs)
    (hmapped : bmap h.inode k (h.pos / k.sb.blockSize) ≠ 0) :
    (writeLoop k.sb.blockSize data size (fuel + 1) w h).exec k =
      (writeLoop k.sb.blockSize data size fuel (w + turnBytes k h (size - w))
        (h.advance h.inode (turnBytes k h (size - w)))).exec
        (k.setBlk (bmap h.inode k (h.pos / k.sb.blockSize)) (turnData data size w h k)) := by
  have hget := exec_ext2GetBmap hw.blockSize h.inode hl
  simp only [writeLoop, if_pos hlt, exec_bind]
  rw [hget]
  change ((if bmap h.inode k (h.pos / k.sb.blockSize) = 0 then _ else _ : Kern (ℕ × FileHandle)).exec
    k) = _
  rw [if_neg hmapped, turnData, fileBlock, if_neg hmapped]
  simp only [exec_bind, exec_ext2ReadBlock, Option.bind_some, exec_ext2WriteBlock]
  rfl

/-- The run of a turn on a hole. -/
theorem exec_writeLoop_hole {k₁ k₂ : PlainKernel} (hw : Writable h.inodeNo h.inode k)
    (hlt : w < size) (hl : h.pos / k.sb.blockSize < mapLimit k.sb.ptrs)
    (hhole : bmap h.inode k (h.pos / k.sb.blockSize) = 0) (hp : p ≠ 0)
    (halloc : ext2AllocBlock.exec k = some (p, k₁))
    (hset : (ext2SetBmap h.inode (h.pos / k.sb.blockSize) p).exec k₁ = some (x', k₂)) :
    (writeLoop k.sb.blockSize data size (fuel + 1) w h).exec k =
      (writeLoop k.sb.blockSize data size fuel (w + turnBytes k h (size - w))
        (h.advance x' (turnBytes k h (size - w)))).exec
        (k₂.setBlk p (turnData data size w h k)) := by
  have hget := exec_ext2GetBmap hw.blockSize h.inode hl
  simp only [writeLoop, if_pos hlt, exec_bind]
  rw [hget]
  change ((if bmap h.inode k (h.pos / k.sb.blockSize) = 0 then _ else _ : Kern (ℕ × FileHandle)).exec
    k) = _
  rw [if_pos hhole, turnData, fileBlock, if_pos hhole]
  simp only [exec_bind, halloc, Option.bind_some, if_neg hp, hset, exec_ext2WriteBlock]
  rfl

/-- The end of a write that finds no free block. -/
theorem exec_writeLoop_full (hw : Writable h.inodeNo h.inode k) (hlt : w < size)
    (hl : h.pos / k.sb.blockSize < mapLimit k.sb.ptrs)
    (hhole : bmap h.inode k (h.pos / k.sb.blockSize) = 0)
    (hfree : k.freeNumbers blockBitmaps = []) :
    (writeLoop k.sb.blockSize data size (fuel + 1) w h).exec k = some ((w, h), k) := by
  have hget := exec_ext2GetBmap hw.blockSize h.inode hl
  have hfull : ext2AllocBlock.exec k = some (0, k) :=
    exec_alloc_of_full hw.heap hw.bitmaps.cached hfree
  simp only [writeLoop, if_pos hlt, exec_bind]
  rw [hget]
  change ((if bmap h.inode k (h.pos / k.sb.blockSize) = 0 then _ else _ : Kern (ℕ × FileHandle)).exec
    k) = _
  rw [if_pos hhole]
  simp only [exec_bind, hfull, Option.bind_some, if_true, exec_pure]

/-- What a run of the loop gives: the positions that it passed hold the data but for the lost block,
which counts as written, and without a loss every block that it took is in the map. -/
def LoopResult (data : Bytes) (size w : ℕ) (h : FileHandle) (k : PlainKernel)
    (r : Option ((ℕ × FileHandle) × PlainKernel)) : Prop :=
  ∃ w' h' k' taken, r = some ((w', h'), k') ∧ w' ≤ size ∧
    Wrote data (Lost h.inode k h.pos (h.pos + (size - w))) w h k w' h' k' taken ∧
    (∀ L, Lost h.inode k h.pos (h.pos + (size - w)) L →
      min ((L + 1) * k.sb.blockSize) (h.pos + (size - w)) ≤ h'.pos) ∧
    ((∀ L, ¬ Lost h.inode k h.pos (h.pos + (size - w)) L) → ∀ f ∈ taken,
      ∃ a, (mapShape k.sb.ptrs).Valid a ∧ ptr blockOps (fileMap h'.inode k') a = f)

/-- The first turn and the others make the run. -/
theorem LoopResult.of_turn {lost : Prop} {m : ℕ} {h₁ : FileHandle} {k₁ : PlainKernel}
    {r : Option ((ℕ × FileHandle) × PlainKernel)} (hm0 : 0 < m)
    (hm : h.pos + m = h.pos + (size - w) ∨
      h.pos + m = (h.pos / k.sb.blockSize + 1) * k.sb.blockSize)
    (hle : h.pos + m ≤ (h.pos / k.sb.blockSize + 1) * k.sb.blockSize) (hmle : m ≤ size - w)
    (hturn : Wrote data (fun _ => lost) w h k (w + m) h₁ k₁ taken)
    (hrest : LoopResult data size (w + m) h₁ k₁ r)
    (hlost : ∀ L, Lost h.inode k h.pos (h.pos + (size - w)) L ↔
      (L = h.pos / k.sb.blockSize ∧ lost) ∨
        Lost h₁.inode k₁ h₁.pos (h₁.pos + (size - (w + m))) L)
    (hlinked : ¬ lost → ∀ f ∈ taken, f ≠ 0 ∧
      ∃ a, (mapShape k.sb.ptrs).Valid a ∧ ptr blockOps (fileMap h₁.inode k₁) a = f) :
    LoopResult data size w h k r := by
  obtain ⟨w', h', k', taken', rfl, hsize, hwrote, hcounted, hlinked'⟩ := hrest
  have hpos₁ := hturn.pos
  have hpos' := hwrote.pos
  have hbs := k.sb.blockSize_pos
  have hsb := hturn.grows.disk.sb
  have hdiv : ∀ off, h.pos ≤ off → off < h₁.pos →
      off / k.sb.blockSize = h.pos / k.sb.blockSize := by
    intro off hge hlt
    refine le_antisymm (Nat.lt_succ_iff.mp ((Nat.div_lt_iff_lt_mul hbs).mpr ?_))
      (Nat.div_le_div_right hge)
    rw [Nat.succ_eq_add_one]
    omega
  have hdiv' : ∀ off, h₁.pos ≤ off → off < h'.pos →
      h.pos / k.sb.blockSize < off / k.sb.blockSize := by
    intro off hge hlt
    have hle' := hwrote.le
    have hnext := hm.resolve_left (by omega)
    have hge' : (h.pos / k.sb.blockSize + 1) * k.sb.blockSize ≤ off := by omega
    exact (Nat.le_div_iff_mul_le hbs).mpr hge'
  -- a block that the other turns lose lies behind the first turn
  have hlater : ∀ L, Lost h₁.inode k₁ h₁.pos (h₁.pos + (size - (w + m))) L →
      h.pos / k.sb.blockSize < L := by
    rintro L ⟨hlt, hqL, -⟩
    have hnext := hm.resolve_left (by omega)
    rw [hsb] at hqL
    have hge : (h.pos / k.sb.blockSize + 1) * k.sb.blockSize ≤ h₁.pos := by omega
    exact lt_of_lt_of_le ((Nat.le_div_iff_mul_le hbs).mpr hge) hqL
  refine ⟨w', h', k', taken ++ taken', rfl, hsize,
    hturn.trans hwrote (fun off hge hlt => ?_) (fun off hge hlt => ?_), fun L hL => ?_, ?_⟩
  · rw [hlost, hdiv off hge hlt]
    refine ⟨fun hor => hor.elim (fun hl => hl.2) fun hl => ?_, fun hl => Or.inl ⟨rfl, hl⟩⟩
    exact absurd (hlater _ hl) (lt_irrefl _)
  · rw [hlost]
    refine ⟨fun hor => hor.elim (fun hl => ?_) id, Or.inr⟩
    exact absurd hl.1 (Nat.ne_of_gt (hdiv' off hge hlt))
  · have hle' := hwrote.le
    rcases (hlost L).mp hL with ⟨rfl, -⟩ | hl
    · have hmin := min_le_left ((h.pos / k.sb.blockSize + 1) * k.sb.blockSize)
        (h.pos + (size - w))
      have hmin' := min_le_right ((h.pos / k.sb.blockSize + 1) * k.sb.blockSize)
        (h.pos + (size - w))
      omega
    · have := hcounted L hl
      rw [hsb] at this
      rwa [show h.pos + (size - w) = h₁.pos + (size - (w + m)) by omega]
  · intro hnone f hf
    have hnot : ¬ lost := fun hl => hnone _ ((hlost _).mpr (Or.inl ⟨rfl, hl⟩))
    rcases List.mem_append.mp hf with hmem | hmem
    · obtain ⟨h0, a, ha, heq⟩ := hlinked hnot f hmem
      exact ⟨a, ha, (hwrote.grows.keeps a (by rwa [hsb]) (heq.trans_ne h0)).trans heq⟩
    · rw [← hsb]
      exact hlinked' (fun L hl => hnone L ((hlost L).mpr (Or.inr hl))) f hmem

/-- The numbers of a turn that writes `m` bytes. -/
structure TurnRange (k : PlainKernel) (h : FileHandle) (rest m : ℕ) : Prop where
  ne_zero : 0 < m
  le : m ≤ rest
  room : h.pos % k.sb.blockSize + m ≤ k.sb.blockSize
  next : h.pos + m = h.pos + rest ∨ h.pos + m = (h.pos / k.sb.blockSize + 1) * k.sb.blockSize
  bound : h.pos + m ≤ (h.pos / k.sb.blockSize + 1) * k.sb.blockSize

theorem turnRange (k : PlainKernel) (h : FileHandle) {rest : ℕ} (hrest : 0 < rest) :
    TurnRange k h rest (turnBytes k h rest) := by
  have hbs := k.sb.blockSize_pos
  have hmod := Nat.mod_lt h.pos hbs
  have hnext : (h.pos / k.sb.blockSize + 1) * k.sb.blockSize =
      h.pos - h.pos % k.sb.blockSize + k.sb.blockSize := by
    have := Nat.div_add_mod h.pos k.sb.blockSize
    rw [Nat.add_mul, Nat.one_mul, Nat.mul_comm]
    omega
  have hle := Nat.mod_le h.pos k.sb.blockSize
  unfold turnBytes
  refine ⟨by omega, min_le_right _ _, by omega, ?_, ?_⟩
  · rw [hnext]
    omega
  · rw [hnext]
    omega

/-- The size of an inode does not show in the map of the handle after a turn. -/
theorem ptr_advance {m : ℕ} (hsb : k'.sb = k.sb) {a : Addr} (ha : (mapShape k.sb.ptrs).Valid a) :
    ptr blockOps (fileMap (h.advance x' m).inode k') a = ptr blockOps (fileMap x' k') a := by
  simp only [FileHandle.advance]
  split
  · exact ptr_setSize x' k' _ (by rwa [hsb])
  · rfl

theorem mapDemand_advance {m : ℕ} (hsb : k'.sb = k.sb) {a b : ℕ} (hb : b ≤ mapLimit k.sb.ptrs) :
    mapDemand (h.advance x' m).inode k' a b = mapDemand x' k' a b := by
  refine mapDemand_congr (k := k') rfl (by rwa [hsb]) fun c hc => ?_
  rw [hsb] at hc
  exact ptr_advance hsb hc

/-- The loop with `fuel` turns does what it must from every state. -/
def LoopRuns (data : Bytes) (size fuel : ℕ) : Prop :=
  ∀ (k : PlainKernel) (w : ℕ) (h : FileHandle), Writable h.inodeNo h.inode k →
    h.pos ≤ h.inode.size → w ≤ size → size - w ≤ fuel → h.pos + (size - w) < 2 ^ 32 →
    LoopResult data size w h k ((writeLoop k.sb.blockSize data size fuel w h).exec k)

/-- A turn, and the other turns from the state that it leaves. -/
theorem LoopRuns.turn (ih : LoopRuns data size fuel) {lost : Prop} (hfuel : size - w ≤ fuel + 1)
    (hfit : h.pos + (size - w) < 2 ^ 32) (hlt : w < size)
    (hturn : Wrote data (fun _ => lost) w h k (w + turnBytes k h (size - w))
      (h.advance x' (turnBytes k h (size - w))) k' taken)
    (hlost : ∀ L, Lost h.inode k h.pos (h.pos + (size - w)) L ↔
      (L = h.pos / k.sb.blockSize ∧ lost) ∨
        Lost (h.advance x' (turnBytes k h (size - w))).inode k'
          (h.pos + turnBytes k h (size - w)) (h.pos + (size - w)) L)
    (hlinked : ¬ lost → ∀ f ∈ taken, f ≠ 0 ∧
      ∃ a, (mapShape k.sb.ptrs).Valid a ∧ ptr blockOps (fileMap x' k') a = f) :
    LoopResult data size w h k ((writeLoop k.sb.blockSize data size fuel
      (w + turnBytes k h (size - w)) (h.advance x' (turnBytes k h (size - w)))).exec k') := by
  have hr := turnRange k h (by omega : 0 < size - w)
  have hm0 := hr.ne_zero
  have hmle := hr.le
  have hsb := hturn.grows.disk.sb
  have hpos := hturn.pos
  have hsize := hturn.size
  have hadv : (h.advance x' (turnBytes k h (size - w))).pos =
      h.pos + turnBytes k h (size - w) := by omega
  have hstop : h.pos + (size - w) = (h.advance x' (turnBytes k h (size - w))).pos +
      (size - (w + turnBytes k h (size - w))) := by omega
  rw [← hadv] at hlost
  refine LoopResult.of_turn hm0 hr.next hr.bound hmle hturn ?_ (fun L => ?_) fun hnot f hf => ?_
  · rw [← hsb]
    exact ih _ _ _ hturn.grows.writable (by omega) (by omega) (by omega) (by omega)
  · rw [← hstop]
    exact hlost L
  · obtain ⟨h0, a, ha, heq⟩ := hlinked hnot f hf
    exact ⟨h0, a, ha, (ptr_advance hsb ha).trans heq⟩

/-- The loop from a mapped block on. -/
theorem LoopRuns.mapped (ih : LoopRuns data size fuel) (hw : Writable h.inodeNo h.inode k)
    (hfuel : size - w ≤ fuel + 1)
    (hfit : h.pos + (size - w) < 2 ^ 32) (hlt : w < size)
    (hl : h.pos / k.sb.blockSize < mapLimit k.sb.ptrs)
    (hmapped : bmap h.inode k (h.pos / k.sb.blockSize) ≠ 0) :
    LoopResult data size w h k
      ((writeLoop k.sb.blockSize data size (fuel + 1) w h).exec k) := by
  have hr := turnRange k h (by omega : 0 < size - w)
  have hmle := hr.le
  obtain ⟨hgrows, hptr, hblocks⟩ := hw.overwrite hl hmapped (turnData data size w h k)
  have hturn := wrote_turn data False w hr.room (by omega) hgrows rfl
    rfl (fun l' hl' => by simpa [turnData] using hblocks l' hl')
  rw [exec_writeLoop_mapped hw hlt hl hmapped]
  refine ih.turn hfuel hfit hlt hturn (fun L => ?_) fun _ f hf => absurd hf (by simp)
  rw [and_false, false_or]
  refine lost_iff_of_met hgrows.disk.sb (by omega) hfit hr.next hr.bound hgrows.freeCount
    (fun b hb hb' => ?_) L
  rw [List.length_nil, Nat.zero_add, mapDemand_of_mapped hw hb hb' hmapped,
    mapDemand_advance hgrows.disk.sb hb', mapDemand_congr hgrows.disk.sb hb' hptr]

/-- The loop from a hole on that gets the blocks it needs. -/
theorem LoopRuns.graft (ih : LoopRuns data size fuel) (hw : Writable h.inodeNo h.inode k)
    (hfuel : size - w ≤ fuel + 1)
    (hfit : h.pos + (size - w) < 2 ^ 32) (hlt : w < size)
    (hl : h.pos / k.sb.blockSize < mapLimit k.sb.ptrs)
    (hhole : bmap h.inode k (h.pos / k.sb.blockSize) = 0)
    (hfree : k.freeNumbers blockBitmaps = p :: fs ++ gs)
    (hlen : fs.length = missingAt blockOps (fileMap h.inode k)
      (leafAddr k.sb.ptrs (h.pos / k.sb.blockSize))) :
    LoopResult data size w h k
      ((writeLoop k.sb.blockSize data size (fuel + 1) w h).exec k) := by
  have hr := turnRange k h (by omega : 0 < size - w)
  have hmle := hr.le
  have hne : ∀ f ∈ p :: fs, f ≠ 0 := fun f hf =>
    (hw.free f (by rw [hfree]; exact List.mem_append_left _ hf)).1
  have hp := hne p List.mem_cons_self
  obtain ⟨x', k₁, k₂, halloc, hset, hgrows, -, hgraft, hsize, hmode, hblocks⟩ :=
    hw.graft hl hhole hfree hlen (turnData data size w h k)
  have hturn := wrote_turn data False w hr.room (by omega) hgrows
    hsize hmode (fun l' hl' => by simpa [turnData] using hblocks l' hl')
  rw [exec_writeLoop_hole hw hlt hl hhole hp halloc hset]
  refine ih.turn hfuel hfit hlt hturn (fun L => ?_) fun _ f hf => ⟨hne f hf, ?_⟩
  · rw [and_false, false_or]
    refine lost_iff_of_met hgrows.disk.sb (by omega) hfit hr.next hr.bound hgrows.freeCount
      (fun b hb hb' => ?_) L
    rw [mapDemand_of_grafted hgrows.disk.sb hb hb' hp ((hw.bmap_eq hl).symm.trans hhole) hlen
      hgraft, mapDemand_advance hgrows.disk.sb hb', List.length_cons]
  · rcases List.mem_cons.mp hf with rfl | hmem
    · exact ⟨_, (Writable.leaf hl).1, hgraft.leaf⟩
    · obtain ⟨a, ha, -, heq⟩ := hgraft.linked f hmem
      exact ⟨a, ha, heq⟩

/-- The loop from a hole on that gets its block but not its index blocks. -/
theorem LoopRuns.lose (ih : LoopRuns data size fuel) (hw : Writable h.inodeNo h.inode k)
    (hfuel : size - w ≤ fuel + 1)
    (hfit : h.pos + (size - w) < 2 ^ 32) (hlt : w < size)
    (hl : h.pos / k.sb.blockSize < mapLimit k.sb.ptrs)
    (hhole : bmap h.inode k (h.pos / k.sb.blockSize) = 0)
    (hfree : k.freeNumbers blockBitmaps = p :: fs)
    (hlen : fs.length < missingAt blockOps (fileMap h.inode k)
      (leafAddr k.sb.ptrs (h.pos / k.sb.blockSize))) :
    LoopResult data size w h k
      ((writeLoop k.sb.blockSize data size (fuel + 1) w h).exec k) := by
  have hr := turnRange k h (by omega : 0 < size - w)
  have hmle := hr.le
  have hp : p ≠ 0 := (hw.free p (by rw [hfree]; exact List.mem_cons_self)).1
  obtain ⟨x', k₁, k₂, halloc, hset, hgrows, hfree', hsize, hmode, hblocks⟩ :=
    hw.lose hl hfree hlen (turnData data size w h k)
  have hturn := wrote_turn data True w hr.room (by omega) hgrows
    hsize hmode (fun l' hl' => by simpa [turnData] using (hblocks l' hl').2)
  rw [exec_writeLoop_hole hw hlt hl hhole hp halloc hset]
  refine ih.turn hfuel hfit hlt hturn (fun L => ?_) fun hnot => absurd trivial hnot
  have hcount : freeCount k = fs.length + 1 := by rw [freeCount, hfree, List.length_cons]
  have hmissing := missing_lt_mapDemand (Nat.lt_add_one (h.pos / k.sb.blockSize))
    ((hw.bmap_eq hl).symm.trans hhole)
  rw [and_true, or_iff_left (not_lost_of_full (by rw [freeCount, hfree']; rfl))]
  exact lost_iff_of_short (by omega) (by omega) (by omega) L

/-- The loop where it ends at once. -/
theorem loopResult_end {r : Option ((ℕ × FileHandle) × PlainKernel)}
    (hw : Writable h.inodeNo h.inode k) (hpos : h.pos ≤ h.inode.size) (hle : w ≤ size)
    (hrun : r = some ((w, h), k))
    (hlost : ∀ L, ¬ Lost h.inode k h.pos (h.pos + (size - w)) L) : LoopResult data size w h k r :=
  ⟨w, h, k, [], hrun, hle, Wrote.refl hw hpos, fun L hL => absurd hL (hlost L),
    fun _ f hf => absurd hf (by simp)⟩

/-- The loop of `fs_write`. -/
theorem exec_writeLoop (data : Bytes) (size fuel : ℕ) : LoopRuns data size fuel := by
  induction fuel with
  | zero =>
    intro k w h hw hpos hle hfuel hfit
    refine loopResult_end hw hpos hle rfl ?_
    rintro L ⟨hlt, -⟩
    omega
  | succ fuel ih =>
    intro k w h hw hpos hle hfuel hfit
    by_cases hlt : w < size
    swap
    · refine loopResult_end hw hpos hle (by rw [writeLoop, if_neg hlt, exec_pure]) ?_
      rintro L ⟨hlt', -⟩
      omega
    have hl : h.pos / k.sb.blockSize < mapLimit k.sb.ptrs :=
      index_lt_mapLimit (lt_of_le_of_lt (Nat.mul_le_mul_right _ (Nat.sub_le _ _))
        (lt_of_le_of_lt (Nat.div_mul_le_self _ _) (by omega)))
    by_cases hhole : bmap h.inode k (h.pos / k.sb.blockSize) = 0
    swap
    · exact ih.mapped hw hfuel hfit hlt hl hhole
    cases hfree : k.freeNumbers blockBitmaps with
    | nil =>
      exact loopResult_end hw hpos hle (exec_writeLoop_full hw hlt hl hhole hfree) fun L =>
        not_lost_of_full (by rw [freeCount, hfree]; rfl)
    | cons p fs =>
      by_cases hlen : missingAt blockOps (fileMap h.inode k)
          (leafAddr k.sb.ptrs (h.pos / k.sb.blockSize)) ≤ fs.length
      · obtain ⟨fs₁, fs₂, rfl, hlen'⟩ : ∃ fs₁ fs₂, fs = fs₁ ++ fs₂ ∧ fs₁.length =
            missingAt blockOps (fileMap h.inode k)
              (leafAddr k.sb.ptrs (h.pos / k.sb.blockSize)) :=
          ⟨_, _, (List.take_append_drop _ fs).symm, List.length_take_of_le hlen⟩
        exact ih.graft hw hfuel hfit hlt hl hhole hfree hlen'
      · exact ih.lose hw hfuel hfit hlt hl hhole hfree (not_le.mp hlen)

end Sandflea
