import Sandflea.Ext2.AllocBlock
import Sandflea.Ext2.Bmap

/-!
# The law of the block map

`ext2_set_bmap` against `ext2_get_bmap`: after an assignment the logical block maps to the physical
block that was assigned, every other logical block maps to what it did, the map is tree-shaped again,
and `inode->blocks` counts the new blocks (`exec_ext2SetBmap_law`). The allocations of the call write
the block bitmaps, so that a map that uses a block bitmap as an index block is not safe from them
(`bitmap_index_not_law`).
-/

namespace Sandflea

open Bytes Kern Kernel PointerTree

/-- What `ext2_set_bmap(x, l, p)` must do, with `m` index blocks to allocate. -/
def SetBmapLaw (x : Inode) (k : PlainKernel) (l p m : ℕ) : Prop :=
  ∃ x' k', (ext2SetBmap x l p).exec k = some (x', k') ∧
    (ext2GetBmap x' l).exec k' = some (p, k') ∧
    (∀ l', l' ≠ l → ((ext2GetBmap x' l').exec k').map Prod.fst =
      ((ext2GetBmap x l').exec k).map Prod.fst) ∧
    TreeShaped blockOps (mapShape k.sb.ptrs) (mapOf x' k') ∧
    x'.blocks = (x.blocks + (m + if bmap x k l = 0 then 1 else 0) * (k.sb.blockSize / 512)) % 2 ^ 32

/-- The setting of an assignment to a tree-shaped map whose allocations succeed: the calls of
`ext2_alloc_block` return `fs`, as many as index blocks are missing, and neither they nor `p` are in
the map. -/
structure SetBmapPre (x : Inode) (k : PlainKernel) (l p : ℕ) (fs : List ℕ) : Prop where
  heap : k.HeapOk
  blockSize : k.sb.blockSize ≤ tableBytes
  tree : TreeShaped blockOps (mapShape k.sb.ptrs) (mapOf x k)
  index : l < mapLimit k.sb.ptrs
  ne_zero : p ≠ 0
  lt : p < 2 ^ 32
  unreferenced : Unreferenced blockOps (mapShape k.sb.ptrs) (mapOf x k) p
  hands : ∃ kA, Hands k fs kA
  length : fs.length = missingAt blockOps (mapOf x k) (leafAddr k.sb.ptrs l)
  fresh : ∀ f ∈ fs, Unreferenced blockOps (mapShape k.sb.ptrs) (mapOf x k) f ∧ f ≠ p

/-- Neither the index blocks of the map nor the blocks handed out are block bitmaps. -/
structure ApartFromBitmaps (x : Inode) (k : PlainKernel) (fs : List ℕ) : Prop where
  index : ∀ a, (mapShape k.sb.ptrs).Valid a → ¬ (mapShape k.sb.ptrs).Leaf a →
    ¬ IsBitmap blockBitmaps k (ptr blockOps (mapOf x k) a)
  fresh : ∀ f ∈ fs, ¬ IsBitmap blockBitmaps k f

variable {x x' : Inode} {k k' kA : PlainKernel} {l p : ℕ} {fs : List ℕ}

/-- A node above the leaves of a shape is no leaf. -/
theorem not_leaf_of_lt {S : Shape} {a : Addr} (h : a.2.length < S.depth a.1) : ¬ S.Leaf a :=
  fun hleaf => absurd hleaf.2 (Nat.ne_of_lt h)

/-- Apart from the bitmaps the map is the same with and without them. -/
theorem ptr_fileMap_of_apart
    (h : ∀ a, (mapShape k.sb.ptrs).Valid a → ¬ (mapShape k.sb.ptrs).Leaf a →
      ptr blockOps (mapOf x k) a ≠ 0 → ¬ IsBitmap blockBitmaps k (ptr blockOps (mapOf x k) a))
    {a : Addr} (ha : (mapShape k.sb.ptrs).Valid a) :
    ptr blockOps (fileMap x k) a = ptr blockOps (mapOf x k) a := by
  refine ptr_congr (S := mapShape k.sb.ptrs) ?_ ?_ ha
  · intro s _
    rfl
  intro b hb hdepth hne i
  exact congrArg (blockOps.get · i) (fileBlk_of_not_bitmap (h b hb (not_leaf_of_lt hdepth) hne))

/-- With clean index blocks the map is the same with and without the bitmaps. -/
theorem IndexClean.ptr_mapOf (h : IndexClean x k) {a : Addr}
    (ha : (mapShape k.sb.ptrs).Valid a) :
    ptr blockOps (mapOf x k) a = ptr blockOps (fileMap x k) a := by
  refine ptr_congr (S := mapShape k.sb.ptrs) ?_ ?_ ha
  · intro s _
    rfl
  intro b hb hdepth hne i
  exact congrArg (blockOps.get · i)
    (fileBlk_of_not_bitmap (h b hb (not_leaf_of_lt hdepth) hne)).symm

/-- After a graft the index blocks are apart from the bitmaps again. -/
theorem indexClean_of_grafted {F : Forest Bytes} {a : Addr} (hclean : IndexClean x k)
    (hdisk : DiskOnly k k') (ha : (mapShape k.sb.ptrs).Leaf a)
    (hptr : ∀ b, (mapShape k.sb.ptrs).Valid b → ptr blockOps (fileMap x' k') b = ptr blockOps F b)
    (h : Grafted blockOps (mapShape k.sb.ptrs) (fileMap x k) F a p fs)
    (hfs : ∀ f ∈ fs, ¬ IsBitmap blockBitmaps k f) : IndexClean x' k' := by
  rw [IndexClean, hdisk.sb]
  intro b hb hleaf hne
  rw [hptr b hb] at hne ⊢
  rw [hdisk.isBitmap]
  rcases h.new b hb hne with hold | hnew
  · rw [hold] at hne ⊢
    exact hclean b hb hleaf hne
  rcases List.mem_cons.mp hnew with heq | hmem
  · -- `p` stands at the leaf only
    have := h.tree b a hb ha.1 hne (heq.trans h.leaf.symm)
    exact absurd (this ▸ ha) hleaf
  · exact hfs _ hmem

/-- `ext2_set_bmap` with the blocks that it needs: the graft into the map of the file. -/
theorem exec_ext2SetBmap (hk : k.HeapOk) (hbs : k.sb.blockSize ≤ tableBytes)
    (htree : TreeShaped blockOps (mapShape k.sb.ptrs) (fileMap x k)) (hclean : IndexClean x k)
    (hl : l < mapLimit k.sb.ptrs) (hp0 : p ≠ 0) (hp : p < 2 ^ 32)
    (hunref : Unreferenced blockOps (mapShape k.sb.ptrs) (fileMap x k) p) (hands : Hands k fs kA)
    (hlen : fs.length = missingAt blockOps (fileMap x k) (leafAddr k.sb.ptrs l))
    (hfs : ∀ f ∈ fs, Unreferenced blockOps (mapShape k.sb.ptrs) (fileMap x k) f ∧ f ≠ p ∧
      ¬ IsBitmap blockBitmaps k f) :
    ∃ x' k', (ext2SetBmap x l p).exec k = some (x', k') ∧ FileOnly kA k' ∧
      Grafted blockOps (mapShape k.sb.ptrs) (fileMap x k) (fileMap x' k') (leafAddr k.sb.ptrs l) p
        fs ∧
      IndexClean x' k' ∧
      (∀ b, b ≠ 0 → b ∉ fs → (∀ a, (mapShape k.sb.ptrs).Valid a → ¬ (mapShape k.sb.ptrs).Leaf a →
        ptr blockOps (fileMap x k) a ≠ b) → k'.fileBlk b = k.fileBlk b) ∧
      x'.mode = x.mode ∧ x'.size = x.size ∧
      x'.blocks = (x.blocks + (fs.length + if bmap x k l = 0 then 1 else 0) *
        (k.sb.blockSize / 512)) % 2 ^ 32 := by
  have hn : 0 < k.sb.ptrs := by
    have := k.sb.le_ptrs
    omega
  have hleaf := leafAddr_leaf hn hl
  obtain ⟨hnodup, hfs'⟩ := hands.nodup hk
  have hfresh : Fresh blockOps (mapShape k.sb.ptrs) (fileMap x k) fs :=
    ⟨hnodup, hands.ne_zero, fun f hf => (hfs' f hf).1, fun f hf => (hfs f hf).1⟩
  have hgraft := grafted_graft htree hleaf hp0 hp hunref (fun h => (hfs p h).2.1 rfl) hfresh hlen
  obtain ⟨x', k', hrun, honly, hstore, hroot, hmode, hsize, hblocks⟩ :=
    exec_setPath hk hp hclean hleaf hands (fun f hf => ⟨(hfs' f hf).1, (hfs f hf).2.2⟩) hlen
  have hptr : ∀ b, (mapShape k.sb.ptrs).Valid b → ptr blockOps (fileMap x' k') b =
      ptr blockOps (graft blockOps p (fileMap x k) (leafAddr k.sb.ptrs l) fs) b := by
    intro b hb
    refine ptr_congr (S := mapShape k.sb.ptrs) ?_ ?_ hb
    · exact hroot
    intro c _ _ _ i
    exact congrArg (blockOps.get · i) (congrFun hstore _)
  have hdisk := (hands.frame hk).1.trans honly.diskOnly
  refine ⟨x', k', (ext2SetBmap_eq hbs x hl hp0).trans hrun, honly, hgraft.congr hleaf.1 hptr,
    indexClean_of_grafted hclean hdisk hleaf hptr hgraft fun f hf => (hfs f hf).2.2, ?_, hmode, hsize, ?_⟩
  · intro b hb hbfs hnode
    rw [hstore]
    exact graft_store hleaf hb hbfs (fun h => hands.ne_zero 0 h rfl) hnode
  · rw [hblocks, bmap, hclean.ptr_mapOf hleaf.1]

/-- The law of `ext2_set_bmap`. -/
theorem setBmapLaw_of_apart (h : SetBmapPre x k l p fs) (hapart : ApartFromBitmaps x k fs) :
    SetBmapLaw x k l p fs.length := by
  obtain ⟨hk, hbs, htree, hl, hp0, hp, hunref, ⟨kA, hands⟩, hlen, hfresh⟩ := h
  have hmap : ∀ a, (mapShape k.sb.ptrs).Valid a →
      ptr blockOps (fileMap x k) a = ptr blockOps (mapOf x k) a := fun a ha =>
    ptr_fileMap_of_apart (fun b hb hb' _ => hapart.index b hb hb') ha
  have hclean : IndexClean x k := fun a ha ha' _ => by
    rw [hmap a ha]
    exact hapart.index a ha ha'
  have hn : 0 < k.sb.ptrs := by
    have := k.sb.le_ptrs
    omega
  have hleaf : ∀ {l}, l < mapLimit k.sb.ptrs → (mapShape k.sb.ptrs).Leaf (leafAddr k.sb.ptrs l) :=
    fun hl => leafAddr_leaf hn hl
  have hlen' : fs.length = missingAt blockOps (fileMap x k) (leafAddr k.sb.ptrs l) := by
    rw [hlen]
    symm
    refine missingAt_congr (hleaf hl) ?_ ?_
    · rfl
    intro b hb hb' _ i
    exact congrArg (blockOps.get · i) (fileBlk_of_not_bitmap (hapart.index b hb hb'))
  obtain ⟨x', k', hrun, honly, hgraft, hclean', -, -, -, hblocks⟩ :=
    exec_ext2SetBmap hk hbs (htree.congr hmap) hclean hl hp0 hp (hunref.congr hmap) hands hlen'
      fun f hf => ⟨(hfresh f hf).1.congr hmap, (hfresh f hf).2, hapart.fresh f hf⟩
  have hdisk := (hands.frame hk).1.trans honly.diskOnly
  have hbs' : k'.sb.blockSize ≤ tableBytes := by rwa [hdisk.sb]
  have hmap' : ∀ a, (mapShape k.sb.ptrs).Valid a →
      ptr blockOps (mapOf x' k') a = ptr blockOps (fileMap x' k') a := by
    rw [← hdisk.sb]
    exact fun a ha => hclean'.ptr_mapOf ha
  refine ⟨x', k', hrun, ?_, ?_, hgraft.tree.congr hmap', hblocks⟩
  · rw [exec_ext2GetBmap hbs' x' (by rwa [hdisk.sb]), bmap, hdisk.sb, hmap' _ (hleaf hl).1,
      hgraft.leaf]
  · intro l' hne
    by_cases hl' : l' < mapLimit k.sb.ptrs
    · have hne' : leafAddr k.sb.ptrs l' ≠ leafAddr k.sb.ptrs l := fun h => hne (leafAddr_inj h)
      rw [exec_ext2GetBmap hbs' x' (by rwa [hdisk.sb]), exec_ext2GetBmap hbs x hl']
      simp only [Option.map_some, Option.some.injEq]
      rw [bmap, bmap, hdisk.sb, hmap' _ (hleaf hl').1, hgraft.leaves _ (hleaf hl') hne',
        hmap _ (hleaf hl').1]
    · rw [exec_ext2GetBmap_of_ge hbs' x' (by rw [hdisk.sb]; omega),
        exec_ext2GetBmap_of_ge hbs x (by omega)]
      rfl

/-! ## Maps of the small image -/

/-- The empty inode maps nothing. -/
theorem ptr_zero (k : PlainKernel) (a : Addr) (ha : a.1 < 15) :
    ptr blockOps (mapOf Inode.zero k) a = 0 := by
  have hroot : Inode.zero.block a.1 = 0 := by
    rw [Inode.block, Inode.zero, Inode.u32At_ofBytes (by unfold inodeBytes; omega), u32At_zeros]
  exact (congrArg (walk blockOps k.blk · a.2) hroot).trans (walk_zero _ _)

theorem tinyImage_bitmaps : Bitmaps blockBitmaps (tinyImage 0) := by
  refine ⟨by decide, fun g hg g' hg' _ _ => ?_⟩
  have hone : (tinyImage 0).sb.scanned = 1 := by decide
  omega

theorem tinyImage_hands (fs gs : List ℕ) (h : [5, 6, 7] = fs ++ gs) (h0 : 0 ∉ fs) :
    ∃ kA, Hands (tinyImage 0) fs kA := by
  have hfree : (tinyImage 0).freeNumbers blockBitmaps = fs ++ gs := by
    rw [← h]
    decide
  obtain ⟨kA, hands, -⟩ := hands_of_freeNumbers (fun _ => rfl) tinyImage_bitmaps hfree h0
  exact ⟨kA, hands⟩

/-- The first block behind the direct blocks of an empty file of the small image. -/
theorem tinyImage_setBmapLaw : SetBmapLaw Inode.zero (tinyImage 0) 12 7 1 := by
  have hptr := ptr_zero (tinyImage 0)
  have h0 : ¬ IsBitmap blockBitmaps (tinyImage 0) 0 := by simp [IsBitmap]
  refine @setBmapLaw_of_apart Inode.zero (tinyImage 0) 12 7 [5] ⟨fun _ => rfl, by decide, ?_,
    by decide, by decide, by decide, ?_, tinyImage_hands [5] [6, 7] rfl (by decide), by decide, ?_⟩ ⟨?_, by decide⟩
  · intro a b ha _ hne
    exact absurd (hptr a ha.slot) hne
  · intro a ha
    rw [hptr a ha.slot]
    decide
  · intro f hf
    obtain rfl := List.mem_singleton.mp hf
    refine ⟨fun a ha => ?_, by decide⟩
    rw [hptr a ha.slot]
    decide
  · intro a ha _
    rw [hptr a ha.slot]
    exact h0

/-- An inode that uses the block bitmap of the small image, block 3, as its single indirect block. -/
def bitmapIndex : Inode := Inode.zero.setBlock 12 3

/-- The map of `bitmapIndex` has two pointers: the bitmap, and the number 31 that its bits read as. -/
theorem ptr_bitmapIndex {a : Addr}
    (ha : (mapShape (tinyImage 0).sb.ptrs).Valid a) :
    ptr blockOps (mapOf bitmapIndex (tinyImage 0)) a =
      if a = (12, []) then 3 else if a = (12, [0]) then 31 else 0 := by
  obtain ⟨s, is⟩ := a
  by_cases hs : s = 12
  · subst hs
    have hlen : is.length ≤ 1 := ha.depth
    have hroot : (mapOf bitmapIndex (tinyImage 0)).root 12 = 3 := by decide
    match is, hlen with
    | [], _ => exact hroot
    | [0], _ =>
      rw [ptr, hroot]
      decide
    | [i + 1], _ =>
      have hget : blockOps.get ((tinyImage 0).blk 3) (i + 1) = 0 := by
        refine (u32At_congr (c := zeros) (p := 0) fun j hj => ?_).trans (u32At_zeros 0)
        have hbyte : (tinyImage 0).store 0 3 (4 * (i + 1) + j) = 0 := if_neg (by omega)
        simp only [blk, trunc, zeros_apply]
        split
        · exact hbyte
        · rfl
      have hstore : (mapOf bitmapIndex (tinyImage 0)).store = (tinyImage 0).blk := rfl
      rw [ptr, hroot, walk, if_neg (by decide), walk_nil, hstore, hget]
      simp
  · have hroot : bitmapIndex.block s = 0 := by
      rw [bitmapIndex, Inode.block_setBlock_of_ne ha.slot hs]
      exact ptr_zero (tinyImage 0) (s, []) ha.slot
    rw [if_neg (by simp [hs]), if_neg (by simp [hs])]
    exact (congrArg (walk blockOps (tinyImage 0).blk · is) hroot).trans (walk_zero _ _)

/-- Mapping a block of `bitmapIndex` changes another one: the allocations for the double indirect
block set bits 5 and 6 of the bitmap, and so the pointer that the map reads there. -/
theorem bitmap_index_not_law : SetBmapPre bitmapIndex (tinyImage 0) 268 40 [5, 6] ∧
    ¬ SetBmapLaw bitmapIndex (tinyImage 0) 268 40 2 := by
  have hne : ∀ {v : ℕ}, v ≠ 3 → v ≠ 31 → v ≠ 0 →
      Unreferenced blockOps (mapShape (tinyImage 0).sb.ptrs) (mapOf bitmapIndex (tinyImage 0)) v := by
    intro v h3 h31 h0 a ha
    rw [ptr_bitmapIndex ha]
    split_ifs
    · exact Ne.symm h3
    · exact Ne.symm h31
    · exact Ne.symm h0
  refine ⟨⟨fun _ => rfl, by decide, ?_, by decide, by decide, by decide, hne (by decide) (by decide)
    (by decide), tinyImage_hands [5, 6] [7] rfl (by decide), by decide, ?_⟩, ?_⟩
  · intro a b ha hb hptr heq
    rw [ptr_bitmapIndex ha] at hptr heq
    rw [ptr_bitmapIndex hb] at heq
    split_ifs at hptr heq <;> simp_all
  · intro f hf
    rcases List.mem_cons.mp hf with rfl | hf
    · exact ⟨hne (by decide) (by decide) (by decide), by decide⟩
    · obtain rfl := List.mem_singleton.mp hf
      exact ⟨hne (by decide) (by decide) (by decide), by decide⟩
  · rintro ⟨x', k', hrun, -, hframe, -, -⟩
    have hbefore : ((ext2GetBmap bitmapIndex 12).exec (tinyImage 0)).map Prod.fst = some 31 := by
      decide
    have hafter : ((ext2SetBmap bitmapIndex 268 40).exec (tinyImage 0)).bind
        (fun r => ((ext2GetBmap r.1 12).exec r.2).map Prod.fst) = some 127 := by
      decide +kernel
    rw [hrun, Option.bind_some, hframe 12 (by decide), hbefore] at hafter
    exact absurd hafter (by decide)

end Sandflea
