import Sandflea.Lib.PointerTree
import Sandflea.Ext2.FreeBlocks

/-!
# The block map of an inode

`ext2_get_bmap` and `ext2_set_bmap`: from a logical block of a file to the physical block that holds
it, through up to three levels of index blocks. `leafAddr` is the address of a logical block in the
forest of index blocks whose roots are `inode->block`; the four branches of `ext2_get_bmap` are one
walk to it, and those of `ext2_set_bmap` one descent (`setPath`).

`exec_ext2SetBmap` is the meaning of `ext2_set_bmap` when the allocations that it needs succeed: the
graft of `PointerTree`. `exec_ext2SetBmap_of_full` is what it does when one of them fails.
-/

namespace Sandflea

open Bytes Kern Kernel PointerTree

/-- `sizeof(table)` in `ext2_get_bmap`. -/
def tableBytes : ℕ := 4096

/-- `ext2_get_bmap` -/
def ext2GetBmap (inode : Inode) (logicalBlock : ℕ) : Kern ℕ := do
  let sb ← superblock
  let n := sb.ptrs
  if logicalBlock < 12 then pure (inode.block logicalBlock)
  else
    let l := logicalBlock - 12
    if tableBytes < sb.blockSize then pure 0
    else if l < n then
      if inode.block 12 = 0 then pure 0
      else do
        let table ← ext2ReadBlock (inode.block 12)
        pure (u32At table (4 * l))
    else
      let l := l - n
      if l < n * n % 2 ^ 32 then
        if inode.block 13 = 0 then pure 0
        else do
          let table ← ext2ReadBlock (inode.block 13)
          let indirectBlock := u32At table (4 * (l / n))
          if indirectBlock = 0 then pure 0
          else do
            let table ← ext2ReadBlock indirectBlock
            pure (u32At table (4 * (l % n)))
      else
        let l := l - n * n
        if l < n * n * n % 2 ^ 32 then
          if inode.block 14 = 0 then pure 0
          else do
            let table ← ext2ReadBlock (inode.block 14)
            let dIndirectBlock := u32At table (4 * (l / (n * n)))
            if dIndirectBlock = 0 then pure 0
            else do
              let table ← ext2ReadBlock dIndirectBlock
              let indirectBlock := u32At table (4 * (l / n % n))
              if indirectBlock = 0 then pure 0
              else do
                let table ← ext2ReadBlock indirectBlock
                pure (u32At table (4 * (l % n)))
        else pure 0

/-- The first half of `ALLOC_AND_CLEAR`: allocate a block and zero it. -/
def allocAndClear : Kern ℕ := do
  let target ← ext2AllocBlock
  if target = 0 then pure 0
  else do
    let sb ← superblock
    let mem ← kmalloc sb.blockSize
    (if mem then ext2WriteBlock target zeros else zeroSectors target)
    pure target

/-- `if (inode->block[slot] == 0) ALLOC_AND_CLEAR(inode->block[slot])`. The result 0 is the `return`
of the macro. -/
def linkSlot (inode : Inode) (slot : ℕ) : Kern (ℕ × Inode) :=
  if inode.block slot = 0 then do
    let sb ← superblock
    let target ← allocAndClear
    if target = 0 then pure (0, inode)
    else pure (target, (inode.setBlock slot target).addSectors (sb.blockSize / 512))
  else pure (inode.block slot, inode)

/-- `if (table[i] == 0) ALLOC_AND_CLEAR(table[i])`. The result 0 is the `return` of the macro. -/
def linkEntry (inode : Inode) (table : Bytes) (i : ℕ) : Kern (ℕ × Inode × Bytes) :=
  if u32At table (4 * i) = 0 then do
    let sb ← superblock
    let target ← allocAndClear
    if target = 0 then pure (0, inode, table)
    else pure (target, inode.addSectors (sb.blockSize / 512), putU32 table (4 * i) target)
  else pure (u32At table (4 * i), inode, table)

/-- The innermost block of `ext2_set_bmap`: store `physBlock` in an index block. -/
def setEntry (inode : Inode) (indexBlock i physBlock : ℕ) : Kern Inode := do
  let sb ← superblock
  let mem ← kmalloc sb.blockSize
  if mem then do
    let buf ← ext2ReadBlock indexBlock
    ext2WriteBlock indexBlock (putU32 buf (4 * i) physBlock)
    pure (if u32At buf (4 * i) = 0 then inode.addSectors (sb.blockSize / 512) else inode)
  else pure inode

/-- `ext2_set_bmap`, as the inode that it leaves. -/
def ext2SetBmap (inode : Inode) (logicalBlock physBlock : ℕ) : Kern Inode :=
  if physBlock = 0 then pure inode
  else do
    let sb ← superblock
    let n := sb.ptrs
    if logicalBlock < 12 then
      let counted :=
        if inode.block logicalBlock = 0 then inode.addSectors (sb.blockSize / 512) else inode
      pure (counted.setBlock logicalBlock physBlock)
    else
      let l := logicalBlock - 12
      if l < n then do
        let (block12, inode) ← linkSlot inode 12
        if block12 = 0 then pure inode
        else setEntry inode block12 l physBlock
      else
        let l := l - n
        if l < n * n % 2 ^ 32 then do
          let (block13, inode) ← linkSlot inode 13
          if block13 = 0 then pure inode
          else do
            let dMem ← kmalloc sb.blockSize
            if dMem then do
              let dTable ← ext2ReadBlock block13
              let (iBlock, inode, dTable) ← linkEntry inode dTable (l / n)
              if iBlock = 0 then pure inode
              else do
                let inode ← setEntry inode iBlock (l % n) physBlock
                ext2WriteBlock block13 dTable
                pure inode
            else pure inode
        else
          let l := l - n * n
          if l < n * n * n % 2 ^ 32 then do
            let (block14, inode) ← linkSlot inode 14
            if block14 = 0 then pure inode
            else do
              let tMem ← kmalloc sb.blockSize
              if tMem then do
                let tTable ← ext2ReadBlock block14
                let (dBlock, inode, tTable) ← linkEntry inode tTable (l / (n * n))
                if dBlock = 0 then pure inode
                else do
                  let dMem ← kmalloc sb.blockSize
                  if dMem then do
                    let dTable ← ext2ReadBlock dBlock
                    let (iBlock, inode, dTable) ← linkEntry inode dTable (l / n % n)
                    if iBlock = 0 then pure inode
                    else do
                      let inode ← setEntry inode iBlock (l % n) physBlock
                      ext2WriteBlock dBlock dTable
                      ext2WriteBlock block14 tTable
                      pure inode
                  else pure inode
              else pure inode
          else pure inode

/-! ## The forest of index blocks -/

/-- An index block as an array of pointers. -/
def blockOps : NodeOps Bytes where
  get b i := u32At b (4 * i)
  put b i v := putU32 b (4 * i) v
  blank := zeros
  bound := 2 ^ 32
  get_put b i v hv := by rw [u32At_putU32, Nat.mod_eq_of_lt hv]
  get_put_of_ne b i j v hij := u32At_putU32_of_disjoint (by omega)
  get_blank i := u32At_zeros _

theorem blockOps_get (b : Bytes) (i : ℕ) : blockOps.get b i = u32At b (4 * i) := rfl

theorem blockOps_blank : blockOps.blank = zeros := rfl

/-- The shape of a block map with `n` pointers in an index block. -/
def mapShape (n : ℕ) : Shape where
  slots := 15
  fanout := n
  depth s := s - 11

/-- The block map of an inode: its pointers over the blocks of the active drive. -/
def mapOf (inode : Inode) (k : PlainKernel) : Forest Bytes := ⟨inode.block, k.blk⟩

/-- The block map of an inode over the blocks that are no block bitmaps. -/
def fileMap (inode : Inode) (k : PlainKernel) : Forest Bytes := ⟨inode.block, k.fileBlk⟩

/-- The number of logical blocks that a block map can address. -/
def mapLimit (n : ℕ) : ℕ := 12 + n + n * n + n * n * n

/-- The address of a logical block. -/
def leafAddr (n l : ℕ) : Addr :=
  if l < 12 then (l, [])
  else if l - 12 < n then (12, [l - 12])
  else if l - 12 - n < n * n then (13, [(l - 12 - n) / n, (l - 12 - n) % n])
  else (14, [(l - 12 - n - n * n) / (n * n), (l - 12 - n - n * n) / n % n,
    (l - 12 - n - n * n) % n])

/-- The physical block of a logical block. -/
def bmap (inode : Inode) (k : PlainKernel) (l : ℕ) : ℕ :=
  ptr blockOps (mapOf inode k) (leafAddr k.sb.ptrs l)

theorem leafAddr_leaf {n l : ℕ} (hn : 0 < n) (hl : l < mapLimit n) :
    (mapShape n).Leaf (leafAddr n l) := by
  unfold leafAddr
  split_ifs with h0 h1 h2
  · exact ⟨⟨by simp [mapShape]; omega, by simp, by simp⟩, by simp [mapShape]; omega⟩
  · exact ⟨⟨by simp [mapShape], by simp [mapShape], by simpa [mapShape] using h1⟩, by simp [mapShape]⟩
  · have hdiv : (l - 12 - n) / n < n := Nat.div_lt_of_lt_mul h2
    have hmod := Nat.mod_lt (l - 12 - n) hn
    exact ⟨⟨by simp [mapShape], by simp [mapShape], by simp [mapShape, hdiv, hmod]⟩,
      by simp [mapShape]⟩
  · have hlt : l - 12 - n - n * n < n * n * n := by
      unfold mapLimit at hl
      omega
    have hdiv : (l - 12 - n - n * n) / (n * n) < n := Nat.div_lt_of_lt_mul hlt
    have hmid := Nat.mod_lt ((l - 12 - n - n * n) / n) hn
    have hmod := Nat.mod_lt (l - 12 - n - n * n) hn
    exact ⟨⟨by simp [mapShape], by simp [mapShape], by simp [mapShape, hdiv, hmid, hmod]⟩,
      by simp [mapShape]⟩

/-- Different logical blocks have different addresses. -/
theorem leafAddr_inj {n l l' : ℕ} (h : leafAddr n l = leafAddr n l') : l = l' := by
  have hdouble : ∀ {a b : ℕ}, a / n = b / n → a % n = b % n → a = b := fun {a b} hd hm => by
    rw [← Nat.div_add_mod a n, ← Nat.div_add_mod b n, hd, hm]
  unfold leafAddr at h
  split_ifs at h <;> simp only [Prod.mk.injEq, List.cons.injEq, and_true, reduceCtorEq, and_false,
    Nat.reduceEqDiff, true_and] at h
  · exact h
  · omega
  · have := hdouble h.1 h.2
    omega
  · rw [← Nat.div_div_eq_div_mul, ← Nat.div_div_eq_div_mul] at h
    have := hdouble (hdouble h.1 h.2.1) h.2.2
    omega

/-- With blocks of at most 4096 bytes the products of the branch tests do not overflow. -/
theorem ptrs_products {sb : Superblock} (hbs : sb.blockSize ≤ tableBytes) :
    sb.ptrs * sb.ptrs % 2 ^ 32 = sb.ptrs * sb.ptrs ∧
      sb.ptrs * sb.ptrs * sb.ptrs % 2 ^ 32 = sb.ptrs * sb.ptrs * sb.ptrs := by
  have hn : sb.ptrs ≤ 1024 := by
    have := sb.four_mul_ptrs
    unfold tableBytes at hbs
    omega
  have hn2 : sb.ptrs * sb.ptrs ≤ 1024 * 1024 := Nat.mul_le_mul hn hn
  have hn3 : sb.ptrs * sb.ptrs * sb.ptrs ≤ 1024 * 1024 * 1024 := Nat.mul_le_mul hn2 hn
  exact ⟨Nat.mod_eq_of_lt (by omega), Nat.mod_eq_of_lt (by omega)⟩

/-- `ext2_get_bmap` walks the block map. -/
theorem exec_ext2GetBmap {k : PlainKernel} (hbs : k.sb.blockSize ≤ tableBytes) (inode : Inode)
    {l : ℕ} (hl : l < mapLimit k.sb.ptrs) :
    (ext2GetBmap inode l).exec k = some (bmap inode k l, k) := by
  obtain ⟨hn2, hn3⟩ := ptrs_products hbs
  rw [ext2GetBmap, bmap, leafAddr, exec_bind, exec_superblock, Option.bind_some]
  simp only [hn2, hn3, exec_ite, exec_bind, exec_pure, exec_ext2ReadBlock, Option.bind_some]
  unfold mapLimit at hl
  split_ifs with h0 h1 h2
  all_goals first | omega | simp_all [ptr, walk, mapOf, blockOps]

/-- `ext2_get_bmap` behind the end of the map. -/
theorem exec_ext2GetBmap_of_ge {k : PlainKernel} (hbs : k.sb.blockSize ≤ tableBytes) (inode : Inode)
    {l : ℕ} (hl : mapLimit k.sb.ptrs ≤ l) : (ext2GetBmap inode l).exec k = some (0, k) := by
  obtain ⟨hn2, hn3⟩ := ptrs_products hbs
  unfold mapLimit at hl
  rw [ext2GetBmap, exec_bind, exec_superblock, Option.bind_some]
  simp only [hn2, hn3]
  rw [if_neg (by omega), if_neg (by omega), if_neg (by omega), if_neg (by omega),
    if_neg (by omega), exec_pure]

/-! ## The descent of `ext2_set_bmap` -/

/-- The body of `ext2_set_bmap` below an index block. The flag says whether the blocks above are
written back. -/
def descend (blockSize physBlock : ℕ) : Inode → ℕ → List ℕ → Kern (Bool × Inode)
  | inode, _, [] => pure (true, inode)
  | inode, t, [i] => do
    let inode ← setEntry inode t i physBlock
    pure (true, inode)
  | inode, t, i :: j :: is => do
    let mem ← kmalloc blockSize
    if mem then do
      let table ← ext2ReadBlock t
      let (c, inode, table) ← linkEntry inode table i
      if c = 0 then pure (false, inode)
      else do
        let (written, inode) ← descend blockSize physBlock inode c (j :: is)
        if written then do
          ext2WriteBlock t table
          pure (true, inode)
        else pure (false, inode)
    else pure (false, inode)

/-- `ext2_set_bmap` at the address of the logical block. -/
def setPath (sb : Superblock) (inode : Inode) (a : Addr) (physBlock : ℕ) : Kern Inode :=
  if a.2 = [] then
    let counted := if inode.block a.1 = 0 then inode.addSectors (sb.blockSize / 512) else inode
    pure (counted.setBlock a.1 physBlock)
  else do
    let (t, inode) ← linkSlot inode a.1
    if t = 0 then pure inode
    else do
      let r ← descend sb.blockSize physBlock inode t a.2
      pure r.2

/-- The four branches of `ext2_set_bmap` are one descent. -/
theorem ext2SetBmap_eq {k : PlainKernel} (hbs : k.sb.blockSize ≤ tableBytes) (inode : Inode)
    {l p : ℕ} (hl : l < mapLimit k.sb.ptrs) (hp : p ≠ 0) :
    (ext2SetBmap inode l p).exec k = (setPath k.sb inode (leafAddr k.sb.ptrs l) p).exec k := by
  obtain ⟨hn2, hn3⟩ := ptrs_products hbs
  rw [ext2SetBmap, if_neg hp, exec_bind, exec_superblock, Option.bind_some]
  simp only [hn2, hn3]
  unfold mapLimit at hl
  by_cases h0 : l < 12
  · simp only [leafAddr, setPath, if_pos h0, if_true]
  by_cases h1 : l - 12 < k.sb.ptrs
  · simp only [leafAddr, setPath, if_neg h0, if_pos h1, reduceCtorEq, if_false, descend, bind_assoc,
      pure_bind, bind_pure]
  by_cases h2 : l - 12 - k.sb.ptrs < k.sb.ptrs * k.sb.ptrs
  · simp only [leafAddr, setPath, if_neg h0, if_neg h1, if_pos h2, reduceCtorEq, if_false, if_true,
      descend, bind_assoc, pure_bind, Prog.ite_bind]
  have h3 : l - 12 - k.sb.ptrs - k.sb.ptrs * k.sb.ptrs < k.sb.ptrs * k.sb.ptrs * k.sb.ptrs := by
    omega
  simp only [leafAddr, setPath, if_neg h0, if_neg h1, if_neg h2, if_pos h3, reduceCtorEq, if_false,
    if_true, descend, bind_assoc, pure_bind, Prog.ite_bind, Bool.false_eq_true]

/-! ## The meaning of a descent -/

variable {k k' kA : PlainKernel} {x : Inode} {f i p t : ℕ} {is fs : List ℕ}

theorem exec_kmalloc_of_heapOk (hk : k.HeapOk) (n : ℕ) : (kmalloc n).exec k = some (true, k) := by
  rw [exec_kmalloc, hk, hk.popHeap]

/-- An allocated block is zeroed, with or without memory for a buffer of zeros. -/
theorem exec_allocAndClear (hk : k.HeapOk) (hf : f ≠ 0)
    (h : ext2AllocBlock.exec k = some (f, k')) :
    allocAndClear.exec k = some (f, k'.setBlk f zeros) := by
  have hk' : k'.HeapOk := (exec_ext2AllocBlock_frame hk h).1.heapOk hk
  simp only [allocAndClear, exec_bind, h, Option.bind_some, if_neg hf, exec_superblock,
    exec_kmalloc_of_heapOk hk', if_true, exec_ext2WriteBlock, exec_pure]

theorem exec_allocAndClear_of_full (h : ext2AllocBlock.exec k = some (0, k)) :
    allocAndClear.exec k = some (0, k) := by
  simp only [allocAndClear, exec_bind, h, Option.bind_some, if_true, exec_pure]

theorem exec_setEntry (hk : k.HeapOk) : ∃ x', (setEntry x t i p).exec k =
      some (x', k.setBlk t (putU32 (k.blk t) (4 * i) p)) ∧
    x.Counted x' ((if u32At (k.blk t) (4 * i) = 0 then 1 else 0) * (k.sb.blockSize / 512)) := by
  simp only [setEntry, exec_bind, exec_superblock, Option.bind_some, exec_kmalloc_of_heapOk hk,
    if_true, exec_ext2ReadBlock, exec_ext2WriteBlock, exec_pure]
  refine ⟨_, rfl, ?_⟩
  split
  · rw [one_mul]
    exact Inode.counted_addSectors _ _
  · rw [zero_mul]
    exact Inode.Counted.refl _

/-- An assignment to an entry of an index block. -/
theorem setEntry_fileBlk (ht : ¬ IsBitmap blockBitmaps k t) (hi : i < k.sb.ptrs) (v : ℕ) :
    (k.setBlk t (putU32 (k.blk t) (4 * i) v)).fileBlk =
      Function.update k.fileBlk t (blockOps.put (k.fileBlk t) i v) := by
  have hroom : 4 * i + 4 ≤ k.sb.blockSize := by
    have := k.sb.four_mul_ptrs
    omega
  rw [setBlk_fileBlk ht, trunc_putU32 hroom, trunc_blk, fileBlk_of_not_bitmap ht]
  rfl

/-- The blocks that a descent may pass and link. -/
structure Sound (k : PlainKernel) (t : ℕ) (is fs : List ℕ) : Prop where
  nodes : ∀ b, b ≠ 0 → Passes blockOps k.fileBlk t is b → ¬ IsBitmap blockBitmaps k b
  fresh : ∀ f ∈ fs, f ≠ 0 ∧ ¬ IsBitmap blockBitmaps k f
  index : ∀ i ∈ is, i < k.sb.ptrs

/-- Below a node that was just allocated and zeroed a descent passes nothing else. -/
theorem sound_blank {j : ℕ} (hk : k.HeapOk) (hrun : ext2AllocBlock.exec k = some (f, k'))
    (hfs : ∀ g ∈ f :: fs, g ≠ 0 ∧ ¬ IsBitmap blockBitmaps k g)
    (hindex : ∀ i ∈ j :: is, i < k.sb.ptrs) :
    Sound (k'.setBlk f zeros) f (j :: is) fs ∧
      (k'.setBlk f zeros).fileBlk = Function.update k.fileBlk f zeros := by
  obtain ⟨hdisk, hblk⟩ := exec_ext2AllocBlock_frame hk hrun
  have hf := hfs f List.mem_cons_self
  have hf' : ¬ IsBitmap blockBitmaps k' f := (hdisk.isBitmap f).not.mpr hf.2
  have hdisk' := hdisk.trans (diskOnly_setBlk k' f zeros)
  have hfile : (k'.setBlk f zeros).fileBlk = Function.update k.fileBlk f zeros := by
    rw [setBlk_fileBlk hf', trunc_zeros, hblk]
  refine ⟨⟨?_, ?_, ?_⟩, hfile⟩
  · intro b hb hpass
    rw [hdisk'.isBitmap b]
    by_cases hfb : f = b
    · exact hfb ▸ hf.2
    · rw [hfile] at hpass
      exact absurd hpass (not_passes_blank hfb hb)
  · intro g hg
    rw [hdisk'.isBitmap g]
    exact hfs g (List.mem_cons_of_mem _ hg)
  · intro i hi
    rw [hdisk'.sb]
    exact hindex i hi

theorem Sound.pass {j : ℕ} (ht : t ≠ 0) (h : Sound k t (i :: j :: is) fs) :
    Sound k (u32At (k.fileBlk t) (4 * i)) (j :: is) fs where
  nodes b hb hpass := h.nodes b hb (Passes.tail ht hpass)
  fresh := h.fresh
  index i hi := h.index i (List.mem_cons_of_mem _ hi)

theorem walk_blank (st : ℕ → Bytes) (j : ℕ) (is : List ℕ) (f : ℕ) :
    walk blockOps (Function.update st f zeros) f (j :: is) = 0 := by
  rw [walk, Function.update_self]
  split
  · rfl
  · exact walk_zero _ _

theorem missing_blank (st : ℕ → Bytes) (j : ℕ) (is : List ℕ) (f : ℕ) :
    missing blockOps (Function.update st f zeros) f (j :: is) = is.length := by
  cases is with
  | nil => rfl
  | cons j' is =>
    rw [missing, Function.update_self]
    rfl

/-- A descent that gets the blocks it needs is the insertion along its path. -/
theorem exec_descend (hk : k.HeapOk) (ht : t ≠ 0) (his : is ≠ []) (hands : Hands k fs kA)
    (hs : Sound k t is fs) (hlen : fs.length = missing blockOps k.fileBlk t is) (bs : ℕ) :
    ∃ x' k', (descend bs p x t is).exec k = some ((true, x'), k') ∧ FileOnly kA k' ∧
      k'.fileBlk = insert blockOps p k.fileBlk t is fs ∧
      x.Counted x' ((fs.length + if walk blockOps k.fileBlk t is = 0 then 1 else 0) *
        (k.sb.blockSize / 512)) := by
  induction is generalizing k kA x t fs with
  | nil => exact absurd rfl his
  | cons i is ih =>
    have htb : ¬ IsBitmap blockBitmaps k t := hs.nodes t ht (passes_head _ _ _ _)
    have hi := hs.index i List.mem_cons_self
    have hread := fileBlk_of_not_bitmap htb
    cases is with
    | nil =>
      obtain rfl := List.eq_nil_of_length_eq_zero hlen
      obtain rfl : kA = k := hands
      obtain ⟨x', hrun, hcount⟩ := exec_setEntry (x := x) (t := t) (i := i) (p := p) hk
      refine ⟨x', _, ?_, fileOnly_setBlk htb _, setEntry_fileBlk htb hi p, ?_⟩
      · simp only [descend, exec_bind, hrun, Option.bind_some, exec_pure]
      · rw [walk, if_neg ht, walk_nil, List.length_nil, Nat.zero_add, hread]
        exact hcount
    | cons j is =>
      rw [missing, blockOps_get] at hlen
      by_cases hnull : u32At (k.fileBlk t) (4 * i) = 0
      · rw [if_pos hnull] at hlen
        obtain ⟨f, fs, rfl⟩ := List.exists_cons_of_length_eq_add_one hlen
        obtain ⟨hf, k₁, hrun, hrest⟩ := hands
        obtain ⟨hdisk, -⟩ := exec_ext2AllocBlock_frame hk hrun
        obtain ⟨hs', hfile⟩ := sound_blank hk hrun hs.fresh (fun i hi =>
          hs.index i (List.mem_cons_of_mem _ hi))
        have hk₁ : (k₁.setBlk f zeros).HeapOk := hdisk.heapOk hk
        have hfb := (hdisk.isBitmap f).not.mpr (hs.fresh f List.mem_cons_self).2
        obtain ⟨x', k', hrun', honly, hfile', hcount⟩ := ih (x := x.addSectors (k.sb.blockSize / 512))
          hk₁ hf (by simp) (hrest.setBlk (hdisk.heapOk hk) hfb zeros) hs'
          (by rw [hfile, missing_blank]; simpa using hlen)
        have hfbA := ((hrest.frame (hdisk.heapOk hk)).1.isBitmap f).not.mpr hfb
        have honlyA : FileOnly kA k' := (fileOnly_setBlk hfbA zeros).trans honly
        have hA := (hdisk.trans (hrest.frame (hdisk.heapOk hk)).1).trans honlyA.diskOnly
        have htb' := (hA.isBitmap t).not.mpr htb
        refine ⟨x', k'.setBlk t (putU32 (k.blk t) (4 * i) f), ?_, honlyA.write htb' _, ?_, ?_⟩
        · rw [hread] at hnull
          simp only [descend, linkEntry, exec_bind, exec_kmalloc_of_heapOk hk, Option.bind_some,
            if_true, exec_ext2ReadBlock, if_pos hnull, exec_superblock,
            exec_allocAndClear hk hf hrun, if_neg hf, exec_pure, hrun', exec_ext2WriteBlock]
        · have hroom : 4 * i + 4 ≤ k.sb.blockSize := by
            have := k.sb.four_mul_ptrs
            omega
          rw [setBlk_fileBlk htb', hA.sb, trunc_putU32 hroom, trunc_blk, hfile', hfile, ← hread]
          exact (insert_link hnull).symm
        · have hwalk : walk blockOps k.fileBlk t (i :: j :: is) = 0 := by
            rw [walk, if_neg ht]
            exact (congrArg (fun c => walk blockOps k.fileBlk c (j :: is)) hnull).trans
              (walk_zero _ _)
          rw [hfile, walk_blank, setBlk_sb, hdisk.sb] at hcount
          have := (Inode.counted_addSectors x (k.sb.blockSize / 512)).trans hcount
          rw [hwalk, List.length_cons]
          simp only [if_true] at this ⊢
          convert this using 1
          ring
      · rw [if_neg hnull] at hlen
        obtain ⟨x', k', hrun', honly, hfile', hcount⟩ := ih (x := x) hk hnull (by simp) hands
          (hs.pass ht) hlen
        have hA := (hands.frame hk).1.trans honly.diskOnly
        have htb' := (hA.isBitmap t).not.mpr htb
        refine ⟨x', k'.setBlk t (k.blk t), ?_, honly.write htb' _, ?_, ?_⟩
        · rw [hread] at hnull hrun'
          simp only [descend, linkEntry, exec_bind, exec_kmalloc_of_heapOk hk, Option.bind_some,
            if_true, exec_ext2ReadBlock, if_neg hnull, exec_pure, hrun', exec_ext2WriteBlock]
        · rw [setBlk_fileBlk htb', hA.sb, trunc_blk, hfile', ← hread]
          exact (insert_pass hnull).symm
        · rw [walk, if_neg ht]
          exact hcount

/-- A descent that does not get a block that it needs writes nothing back. -/
theorem exec_descend_of_full (hk : k.HeapOk) (ht : t ≠ 0) (hands : Hands k fs kA)
    (hfull : ext2AllocBlock.exec kA = some (0, kA)) (hs : Sound k t is fs)
    (hlen : fs.length < missing blockOps k.fileBlk t is) (bs : ℕ) :
    ∃ x' k', (descend bs p x t is).exec k = some ((false, x'), k') ∧ FileOnly kA k' ∧
      (∀ b ∉ fs, k'.fileBlk b = k.fileBlk b) ∧
      x.Counted x' (fs.length * (k.sb.blockSize / 512)) := by
  induction is generalizing k kA x t fs with
  | nil => simp [missing] at hlen
  | cons i is ih =>
    have htb : ¬ IsBitmap blockBitmaps k t := hs.nodes t ht (passes_head _ _ _ _)
    have hread := fileBlk_of_not_bitmap htb
    cases is with
    | nil => simp [missing] at hlen
    | cons j is =>
      rw [missing, blockOps_get] at hlen
      by_cases hnull : u32At (k.fileBlk t) (4 * i) = 0
      · rw [if_pos hnull] at hlen
        rw [hread] at hnull
        cases fs with
        | nil =>
          obtain rfl : kA = k := hands
          refine ⟨x, _, ?_, FileOnly.refl _, fun _ _ => rfl, by simpa using Inode.Counted.refl x⟩
          simp only [descend, linkEntry, exec_bind, exec_kmalloc_of_heapOk hk, Option.bind_some,
            if_true, exec_ext2ReadBlock, if_pos hnull, exec_superblock,
            exec_allocAndClear_of_full hfull, exec_pure]
        | cons f fs =>
          obtain ⟨hf, k₁, hrun, hrest⟩ := hands
          obtain ⟨hdisk, -⟩ := exec_ext2AllocBlock_frame hk hrun
          obtain ⟨hs', hfile⟩ := sound_blank hk hrun hs.fresh (fun i hi =>
          hs.index i (List.mem_cons_of_mem _ hi))
          have hfb := (hdisk.isBitmap f).not.mpr (hs.fresh f List.mem_cons_self).2
          have hfbA := ((hrest.frame (hdisk.heapOk hk)).1.isBitmap f).not.mpr hfb
          have hkA := (hrest.frame (hdisk.heapOk hk)).1.heapOk (hdisk.heapOk hk)
          have hwrite := fileOnly_setBlk hfbA zeros
          obtain ⟨x', k', hrun', honly, hfile', hcount⟩ :=
            ih (x := x.addSectors (k.sb.blockSize / 512)) (k := k₁.setBlk f zeros)
              (hdisk.heapOk hk) hf (hrest.setBlk (hdisk.heapOk hk) hfb zeros)
              (hwrite.exec_full hkA hfull) hs' (by
                rw [hfile, missing_blank]
                simpa using hlen)
          refine ⟨x', k', ?_, hwrite.trans honly, ?_, ?_⟩
          · simp only [descend, linkEntry, exec_bind, exec_kmalloc_of_heapOk hk, Option.bind_some,
              if_true, exec_ext2ReadBlock, if_pos hnull, exec_superblock,
              exec_allocAndClear hk hf hrun, if_neg hf, exec_pure, hrun', Bool.false_eq_true,
              if_false]
          · intro b hb
            rw [List.mem_cons, not_or] at hb
            rw [hfile' b hb.2, hfile, Function.update_of_ne hb.1]
          · rw [setBlk_sb, hdisk.sb] at hcount
            have := (Inode.counted_addSectors x (k.sb.blockSize / 512)).trans hcount
            rw [List.length_cons]
            convert this using 1
            ring
      · rw [if_neg hnull] at hlen
        obtain ⟨x', k', hrun', honly, hfile', hcount⟩ := ih (x := x) hk hnull hands hfull
          (hs.pass ht) hlen
        refine ⟨x', k', ?_, honly, hfile', hcount⟩
        rw [hread] at hnull hrun'
        simp only [descend, linkEntry, exec_bind, exec_kmalloc_of_heapOk hk, Option.bind_some,
          if_true, exec_ext2ReadBlock, if_neg hnull, exec_pure, hrun', Bool.false_eq_true, if_false]

/-! ## The meaning of `ext2_set_bmap` -/

/-- No index block of a map is a block bitmap. -/
def IndexClean (x : Inode) (k : PlainKernel) : Prop :=
  ∀ a, (mapShape k.sb.ptrs).Valid a → ¬ (mapShape k.sb.ptrs).Leaf a →
    ptr blockOps (fileMap x k) a ≠ 0 → ¬ IsBitmap blockBitmaps k (ptr blockOps (fileMap x k) a)

theorem IndexClean.sound (h : IndexClean x k) {s : ℕ} (ha : (mapShape k.sb.ptrs).Leaf (s, is))
    (hfs : ∀ f ∈ fs, f ≠ 0 ∧ ¬ IsBitmap blockBitmaps k f) : Sound k (x.block s) is fs where
  nodes b hb hpass := by
    obtain ⟨js, ⟨ks, rfl⟩, hne, rfl⟩ := hpass
    have hks : 0 < ks.length := List.length_pos_of_ne_nil fun h => hne (by simp [h])
    refine h (s, js) ha.1.init ?_ hb
    rintro ⟨-, hfull⟩
    have hlong := ha.2
    simp only [List.length_append] at hlong hfull
    omega
  fresh := hfs
  index := ha.1.index

/-- `ext2_set_bmap` with the blocks that it needs is the graft into the block map. -/
theorem exec_setPath (hk : k.HeapOk) (hp : p < 2 ^ 32) (hclean : IndexClean x k) {a : Addr}
    (ha : (mapShape k.sb.ptrs).Leaf a) (hands : Hands k fs kA)
    (hfs : ∀ f ∈ fs, f < 2 ^ 32 ∧ ¬ IsBitmap blockBitmaps k f)
    (hlen : fs.length = missingAt blockOps (fileMap x k) a) :
    ∃ x' k', (setPath k.sb x a p).exec k = some (x', k') ∧ FileOnly kA k' ∧
      k'.fileBlk = (graft blockOps p (fileMap x k) a fs).store ∧
      (∀ s < 15, x'.block s = (graft blockOps p (fileMap x k) a fs).root s) ∧
      x'.mode = x.mode ∧ x'.size = x.size ∧
      x'.blocks = (x.blocks + (fs.length + if ptr blockOps (fileMap x k) a = 0 then 1 else 0) *
        (k.sb.blockSize / 512)) % 2 ^ 32 := by
  have hfs' : ∀ f ∈ fs, f ≠ 0 ∧ ¬ IsBitmap blockBitmaps k f := fun f hf =>
    ⟨hands.ne_zero f hf, (hfs f hf).2⟩
  obtain ⟨s, is⟩ := a
  by_cases his : is = []
  · subst his
    obtain rfl := List.eq_nil_of_length_eq_zero (hlen.trans (if_pos rfl))
    obtain rfl : kA = k := hands
    have hcount : x.Counted (if x.block s = 0 then x.addSectors (kA.sb.blockSize / 512) else x)
        ((if x.block s = 0 then 1 else 0) * (kA.sb.blockSize / 512)) := by
      split
      · rw [one_mul]
        exact Inode.counted_addSectors _ _
      · rw [zero_mul]
        exact Inode.Counted.refl _
    refine ⟨_, _, by rw [setPath, if_pos rfl, exec_pure], FileOnly.refl _, ?_, ?_, ?_, ?_, ?_⟩
    · rw [graft, if_pos rfl]
      rfl
    · intro s' hs'
      rw [graft, if_pos rfl]
      by_cases hss : s' = s
      · subst hss
        simp only [Function.update_self, Inode.block_setBlock_self hs', Nat.mod_eq_of_lt hp]
      · simp only [Function.update_of_ne hss, Inode.block_setBlock_of_ne hs' hss]
        exact hcount.block s' hs'
    · rw [Inode.mode_setBlock, hcount.mode]
    · rw [Inode.size_setBlock, hcount.size]
    · rw [Inode.blocks_setBlock, hcount.blocks, List.length_nil, Nat.zero_add]
      rfl
  simp only [missingAt, if_neg his] at hlen
  simp only [setPath, linkSlot, if_neg his, graft]
  by_cases hroot : x.block s = 0
  · have hroot' : (fileMap x k).root s = 0 := hroot
    rw [if_pos hroot'] at hlen
    obtain ⟨i, is, rfl⟩ := List.exists_cons_of_ne_nil his
    obtain ⟨f, fs, rfl⟩ := List.exists_cons_of_length_eq_add_one hlen
    obtain ⟨hf, k₁, hrun, hrest⟩ := hands
    obtain ⟨hdisk, -⟩ := exec_ext2AllocBlock_frame hk hrun
    have hindex : ∀ m ∈ i :: is, m < k.sb.ptrs := ha.1.index
    obtain ⟨hs', hfile⟩ := sound_blank hk hrun hfs' hindex
    have hfb := (hdisk.isBitmap f).not.mpr (hfs' f List.mem_cons_self).2
    have hfbA := ((hrest.frame (hdisk.heapOk hk)).1.isBitmap f).not.mpr hfb
    have hk₁ : (k₁.setBlk f zeros).HeapOk := hdisk.heapOk hk
    obtain ⟨x', k', hrun', honly, hfile', hcount⟩ :=
      exec_descend (x := (x.setBlock s f).addSectors (k.sb.blockSize / 512)) (p := p)
        hk₁ hf (by simp) (hrest.setBlk (hdisk.heapOk hk) hfb zeros) hs'
        (by rw [hfile, missing_blank]; simpa using hlen) k.sb.blockSize
    refine ⟨x', k', ?_, (fileOnly_setBlk hfbA zeros).trans honly, ?_, ?_, ?_, ?_, ?_⟩
    · simp only [if_pos hroot, exec_bind, exec_superblock, Option.bind_some,
        exec_allocAndClear hk hf hrun, if_neg hf, exec_pure, hrun']
    · rw [if_pos hroot', hfile', hfile]
      rfl
    · intro s' hs'
      rw [if_pos hroot', hcount.block s' hs', Inode.block_addSectors hs']
      by_cases hss : s' = s
      · subst hss
        simp only [Function.update_self, Inode.block_setBlock_self hs',
          Nat.mod_eq_of_lt (hfs f List.mem_cons_self).1]
      · simp only [Function.update_of_ne hss, Inode.block_setBlock_of_ne hs' hss]
        rfl
    · rw [hcount.mode, Inode.mode_addSectors, Inode.mode_setBlock]
    · rw [hcount.size, Inode.size_addSectors, Inode.size_setBlock]
    · have hnull : ptr blockOps (fileMap x k) (s, i :: is) = 0 := by
        rw [ptr, hroot', walk_zero]
      rw [hfile, walk_blank, setBlk_sb, hdisk.sb] at hcount
      rw [hcount.blocks, Inode.blocks_addSectors, Inode.blocks_setBlock, if_pos hnull, if_pos rfl,
        List.length_cons, Nat.mod_add_mod]
      congr 1
      ring
  · have hroot' : (fileMap x k).root s ≠ 0 := hroot
    rw [if_neg hroot'] at hlen
    obtain ⟨x', k', hrun', honly, hfile', hcount⟩ :=
      exec_descend (x := x) (p := p) hk hroot his hands (hclean.sound ha hfs') hlen k.sb.blockSize
    refine ⟨x', k', ?_, honly, ?_, ?_, hcount.mode, hcount.size, hcount.blocks⟩
    · simp only [if_neg hroot, exec_bind, Option.bind_some, exec_pure, hrun']
    · rw [if_neg hroot', hfile']
      rfl
    · intro s' hs'
      rw [if_neg hroot', hcount.block s' hs']
      rfl

/-- `ext2_set_bmap` that does not get an index block that it needs leaves the leaves of the map as
they were. -/
theorem exec_setPath_of_full (hk : k.HeapOk) (hclean : IndexClean x k) {a : Addr}
    (ha : (mapShape k.sb.ptrs).Leaf a) (hands : Hands k fs kA)
    (hfull : ext2AllocBlock.exec kA = some (0, kA))
    (htree : TreeShaped blockOps (mapShape k.sb.ptrs) (fileMap x k))
    (hfresh : Fresh blockOps (mapShape k.sb.ptrs) (fileMap x k) fs)
    (hfs : ∀ f ∈ fs, ¬ IsBitmap blockBitmaps k f)
    (hlen : fs.length < missingAt blockOps (fileMap x k) a) :
    ∃ x' k' gs, (setPath k.sb x a p).exec k = some (x', k') ∧ FileOnly kA k' ∧
      (∀ b ∉ fs, k'.fileBlk b = k.fileBlk b) ∧ (∀ g ∈ gs, g ∈ fs) ∧
      Links blockOps (mapShape k.sb.ptrs) (fileMap x k) (fileMap x' k') gs ∧
      x'.mode = x.mode ∧ x'.size = x.size := by
  have hfs' : ∀ f ∈ fs, f ≠ 0 ∧ ¬ IsBitmap blockBitmaps k f := fun f hf =>
    ⟨hands.ne_zero f hf, hfs f hf⟩
  obtain ⟨s, is⟩ := a
  by_cases his : is = []
  · simp [missingAt, his] at hlen
  simp only [missingAt, if_neg his] at hlen
  simp only [setPath, linkSlot, if_neg his]
  by_cases hroot : x.block s = 0
  · have hroot' : (fileMap x k).root s = 0 := hroot
    rw [if_pos hroot'] at hlen
    cases fs with
    | nil =>
      obtain rfl : kA = k := hands
      refine ⟨x, _, [], ?_, FileOnly.refl _, fun _ _ => rfl, by simp, Links.refl htree, rfl, rfl⟩
      simp only [if_pos hroot, exec_bind, exec_superblock, Option.bind_some,
        exec_allocAndClear_of_full hfull, if_true, exec_pure]
    | cons f fs =>
      obtain ⟨i, is, rfl⟩ := List.exists_cons_of_ne_nil his
      obtain ⟨hf, k₁, hrun, hrest⟩ := hands
      obtain ⟨hdisk, -⟩ := exec_ext2AllocBlock_frame hk hrun
      have hindex : ∀ m ∈ i :: is, m < k.sb.ptrs := ha.1.index
      obtain ⟨hs', hfile⟩ := sound_blank hk hrun hfs' hindex
      have hfb := (hdisk.isBitmap f).not.mpr (hfs' f List.mem_cons_self).2
      have hfbA := ((hrest.frame (hdisk.heapOk hk)).1.isBitmap f).not.mpr hfb
      have hkA := (hrest.frame (hdisk.heapOk hk)).1.heapOk (hdisk.heapOk hk)
      have hwrite := fileOnly_setBlk hfbA zeros
      have hk₁ : (k₁.setBlk f zeros).HeapOk := hdisk.heapOk hk
      obtain ⟨x', k', hrun', honly, hfile', hcount⟩ :=
        exec_descend_of_full (x := (x.setBlock s f).addSectors (k.sb.blockSize / 512)) (p := p)
          hk₁ hf (hrest.setBlk (hdisk.heapOk hk) hfb zeros) (hwrite.exec_full hkA hfull) hs'
          (by rw [hfile, missing_blank]; simpa using hlen) k.sb.blockSize
      have hf2 : f < 2 ^ 32 := hfresh.lt_bound f List.mem_cons_self
      have hnodup := List.nodup_cons.mp hfresh.nodup
      have hroots : ∀ s' < 15, x'.block s' = Function.update x.block s f s' := by
        intro s' hs'
        rw [hcount.block s' hs', Inode.block_addSectors hs']
        by_cases hss : s' = s
        · subst hss
          rw [Function.update_self, Inode.block_setBlock_self hs', Nat.mod_eq_of_lt hf2]
        · rw [Function.update_of_ne hss, Inode.block_setBlock_of_ne hs' hss]
      have hnotleaf : ¬ (mapShape k.sb.ptrs).Leaf (s, []) := by
        rintro ⟨-, hfull⟩
        have hlong := ha.2
        simp only [List.length_nil, List.length_cons] at hlong hfull
        omega
      have hvalid : (mapShape k.sb.ptrs).Valid (s, [] ++ i :: is) := ha.1
      obtain ⟨hlinks, -⟩ := links_link htree hf hf2 (hfresh.unreferenced f List.mem_cons_self)
        hvalid.init hnotleaf (fun h => absurd rfl h) hroot
      refine ⟨x', k', [f], ?_, hwrite.trans honly, ?_, by simp, hlinks.congr ?_, ?_, ?_⟩
      · simp only [if_pos hroot, exec_bind, exec_superblock, Option.bind_some,
          exec_allocAndClear hk hf hrun, if_neg hf, exec_pure, hrun']
      · intro b hb
        rw [List.mem_cons, not_or] at hb
        rw [hfile' b hb.2, hfile, Function.update_of_ne hb.1]
      · intro b hb
        refine ptr_congr (S := mapShape k.sb.ptrs) (fun s' hs' => hroots s' hs') ?_ hb
        intro c hc _ hne j
        have hc' : ptr blockOps (link blockOps (fileMap x k) (s, []) f) c ∉ fs := by
          intro hmem
          rcases hlinks.new c hc hne with hold | hnew
          · exact hfresh.unreferenced _ (List.mem_cons_of_mem _ hmem) c hc hold.symm
          · exact hnodup.1 (List.mem_singleton.mp hnew ▸ hmem)
        exact congrArg (blockOps.get · j) ((hfile' _ hc').trans (congrFun hfile _))
      · rw [hcount.mode, Inode.mode_addSectors, Inode.mode_setBlock]
      · rw [hcount.size, Inode.size_addSectors, Inode.size_setBlock]
  · have hroot' : (fileMap x k).root s ≠ 0 := hroot
    rw [if_neg hroot'] at hlen
    obtain ⟨x', k', hrun', honly, hfile', hcount⟩ :=
      exec_descend_of_full (x := x) (p := p) hk hroot hands hfull (hclean.sound ha hfs') hlen
        k.sb.blockSize
    refine ⟨x', k', [], ?_, honly, hfile', by simp, (Links.refl htree).congr ?_, hcount.mode,
      hcount.size⟩
    · simp only [if_neg hroot, exec_bind, Option.bind_some, exec_pure, hrun']
    · intro b hb
      refine ptr_congr (S := mapShape k.sb.ptrs) (fun s' hs' => hcount.block s' hs') ?_ hb
      intro c hc _ hne j
      exact congrArg (blockOps.get · j)
        (hfile' _ fun hmem => hfresh.unreferenced _ hmem c hc rfl)

end Sandflea
