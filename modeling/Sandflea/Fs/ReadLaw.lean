import Sandflea.Ext2.Image
import Sandflea.Fs.Read

/-!
# The law of `fs_read`

`ReadsContents` is what a read must do: return as many bytes as the file has left, at most those that are
wanted, fill the buffer with the contents of the file, move the position, and do the same with and
without memory for the batch buffer. `readsContents_iff` is the exact condition under which it does: the
loops stop at a hole without counting the bytes behind it, a hole at an unaligned position clears the
whole buffer, and a position and a count whose sum overflows are not cut at the end of the file.
-/

namespace Sandflea

open Bytes Kern Kernel PointerTree

variable {k : PlainKernel} {i : ℤ} {h : FileHandle} {buf : Bytes} {count : ℕ}

/-- The setting of a read: an open handle on a readable inode, and a 32-bit count. -/
structure ReadSetting (k : PlainKernel) (i : ℤ) (h : FileHandle) (count : ℕ) : Prop where
  fd_nonneg : 0 ≤ i
  fd_lt : i < maxFileHandles
  handle : k.fdTable k.proc i.toNat = some h
  readable : Readable h.inode k
  pos_le : h.pos ≤ h.inode.size
  count_lt : count < 2 ^ 32

/-- The number of bytes that a read must return. -/
def wanted (h : FileHandle) (count : ℕ) : ℕ := min count (h.inode.size - h.pos)

/-- The kernel in which the batch buffer, the second allocation of a read, gets memory or not. -/
def Kernel.withBatch (k : PlainKernel) (b : Bool) : PlainKernel :=
  { k with heap := Function.update k.heap 1 b }

/-- A read returns the contents of the file, with and without memory for the batch buffer. -/
def ReadsContents (k : PlainKernel) (i : ℤ) (h : FileHandle) (buf : Bytes) (count : ℕ) : Prop :=
  ∃ buf', (∀ b, ∃ k', (fsRead i buf count).exec (k.withBatch b) =
      some (((wanted h count : ℤ), buf'), k') ∧
        k'.fdTable k.proc i.toNat = some { h with pos := h.pos + wanted h count }) ∧
    ∀ j < wanted h count, buf' j = fileByte h.inode k (h.pos + j)

/-- The position and the count overflow into the file, so that the count is not cut. -/
def Overflows (h : FileHandle) (count : ℕ) : Prop :=
  2 ^ 32 ≤ h.pos + count ∧ h.pos + count - 2 ^ 32 ≤ h.inode.size

instance : Decidable (Overflows h count) := inferInstanceAs (Decidable (_ ∧ _))

/-- The condition under which a read returns the contents of the file. -/
def ReadCond (k : PlainKernel) (h : FileHandle) (count : ℕ) : Prop :=
  h.pos = h.inode.size ∨ k.heap 0 = true ∧ wanted h count < 2 ^ 31 ∧
    if Overflows h count then
      h.inode.size % k.sb.blockSize = 0 ∧
        (∀ l, h.pos / k.sb.blockSize ≤ l → l < h.inode.size / k.sb.blockSize →
          bmap h.inode k l ≠ 0) ∧
        bmap h.inode k (h.inode.size / k.sb.blockSize) = 0
    else
      (h.pos % k.sb.blockSize ≠ 0 ∧ bmap h.inode k (h.pos / k.sb.blockSize) = 0 ∧
        ∀ j < wanted h count, fileByte h.inode k (h.pos + j) = 0) ∨
      ∀ j < wanted h count, bmap h.inode k ((h.pos + j) / k.sb.blockSize) ≠ 0

/-! ## The count -/

/-- The count that `fs_read` goes on with. -/
def cutCount (h : FileHandle) (count : ℕ) : ℕ :=
  if h.inode.size < (h.pos + count) % 2 ^ 32 then h.inode.size - h.pos else count

theorem ReadSetting.cutCount_of_overflows (hs : ReadSetting k i h count)
    (ho : Overflows h count) : cutCount h count = count := by
  have hsize := h.inode.size_lt
  have hpos := hs.pos_le
  have hcount := hs.count_lt
  obtain ⟨h1, h2⟩ := ho
  rw [cutCount, if_neg (by omega)]

theorem ReadSetting.cutCount_of_not_overflows (hs : ReadSetting k i h count)
    (ho : ¬ Overflows h count) : cutCount h count = wanted h count := by
  have hsize := h.inode.size_lt
  have hpos := hs.pos_le
  have hcount := hs.count_lt
  unfold Overflows at ho
  unfold cutCount wanted
  split_ifs <;> omega

theorem toI32_eq_iff {v c : ℕ} (hv : v < 2 ^ 32) : toI32 v = (c : ℤ) ↔ v = c ∧ c < 2 ^ 31 := by
  unfold toI32
  split_ifs <;> omega

/-! ## The run of a read -/

/-- The state in which a read starts. -/
def startState (h : FileHandle) (buf : Bytes) : ReadState := ⟨buf, 0, h.pos⟩

/-- The bytes of the first phase: up to the end of a block that the position is inside of. -/
def headBytes (k : PlainKernel) (h : FileHandle) (count : ℕ) : ℕ :=
  if h.pos % k.sb.blockSize = 0 then 0 else min (k.sb.blockSize - h.pos % k.sb.blockSize) count

theorem exec_openHandle (hs : ReadSetting k i h count) :
    (openHandle i).exec k = some (some h, k) := by
  have hrange : ¬ (i < 0 ∨ (maxFileHandles : ℤ) ≤ i) := by
    have := hs.fd_nonneg
    have := hs.fd_lt
    omega
  rw [openHandle, if_neg hrange, exec_fd, hs.handle]

/-- At the end of the file. -/
theorem exec_fsRead_of_end (hs : ReadSetting k i h count) (hend : h.pos = h.inode.size) :
    (fsRead i buf count).exec k = some ((0, buf), k) := by
  rw [fsRead, exec_bind, exec_openHandle hs, Option.bind_some]
  simp only [if_pos hend.ge, exec_pure]

/-- Without memory for a block. -/
theorem exec_fsRead_of_no_memory (hs : ReadSetting k i h count) (hlt : h.pos < h.inode.size)
    (hheap : k.heap 0 = false) :
    (fsRead i buf count).exec k = some ((-1, buf), k.popHeap 1) := by
  rw [fsRead, exec_bind, exec_openHandle hs, Option.bind_some]
  simp only [exec_ite, if_neg (not_le.mpr hlt), exec_bind, exec_superblock, exec_kmalloc, hheap,
    Option.bind_some, Bool.false_eq_true, if_false, exec_pure]

theorem ReadSetting.index_near (hs : ReadSetting k i h count) :
    (h.pos / k.sb.blockSize - 64) * k.sb.blockSize < 2 ^ 32 := by
  have hle := Nat.mul_le_mul_right k.sb.blockSize (Nat.sub_le (h.pos / k.sb.blockSize) 64)
  have hdiv := Nat.div_mul_le_self h.pos k.sb.blockSize
  have hsize := h.inode.size_lt
  have hpos := hs.pos_le
  omega

/-- A hole at a position inside a block. -/
theorem exec_fsRead_of_head_hole (hs : ReadSetting k i h count) (buf : Bytes) (hlt : h.pos < h.inode.size)
    (hheap : k.heap 0 = true) (hoff : h.pos % k.sb.blockSize ≠ 0)
    (hhole : bmap h.inode k (h.pos / k.sb.blockSize) = 0) :
    ∃ k', (fsRead i buf count).exec k =
        some ((toI32 (cutCount h count), zeroFill buf 0 (cutCount h count)), k') ∧
      k'.fdTable k.proc i.toNat =
        some { h with pos := (h.pos + cutCount h count) % 2 ^ 32 } := by
  have hget := exec_getBmap_near (hs.readable.popHeap 1) hs.index_near
  rw [bmap_popHeap] at hget
  rw [fsRead, exec_bind, exec_openHandle hs, Option.bind_some]
  simp only [exec_ite, if_neg (not_le.mpr hlt), exec_bind, exec_superblock, exec_kmalloc, hheap,
    Option.bind_some, if_true, readHead, if_neg hoff]
  rw [hget, Option.bind_some]
  simp only
  rw [if_pos hhole]
  simp only [exec_pure, Option.bind_some, exec_bind, exec_setFd, Option.some.injEq, Prod.mk.injEq]
  refine ⟨_, ⟨⟨rfl, rfl⟩, rfl⟩, ?_⟩
  simp [setHandle, popHeap, cutCount]

/-- The state after the first phase. -/
theorem headState_aligned (hs : ReadSetting k i h count) (buf : Bytes) (c : ℕ) :
    ((startState h buf).advance h.inode k (headBytes k h c)).Aligned k c := by
  refine ⟨Nat.mod_lt _ (by norm_num), ?_⟩
  have hdvd := blockSize_dvd hs.readable.blockSize
  simp only [ReadState.advance, startState, headBytes, Nat.zero_add]
  rw [Nat.mod_mod_of_dvd _ hdvd]
  split
  · left
    simpa
  · next hoff =>
    by_cases hfull : c ≤ k.sb.blockSize - h.pos % k.sb.blockSize
    · right
      omega
    · left
      have hlt := Nat.mod_lt h.pos k.sb.blockSize_pos
      have hsum : h.pos + (k.sb.blockSize - h.pos % k.sb.blockSize) =
          (h.pos / k.sb.blockSize + 1) * k.sb.blockSize := by
        have := Nat.div_add_mod h.pos k.sb.blockSize
        rw [Nat.add_mul, Nat.one_mul, Nat.mul_comm]
        omega
      rw [min_eq_left (by omega), hsum, Nat.mul_mod_left]

/-- A read that does not start in a hole inside a block: the first phase copies the rest of the block,
and a loop does the rest. -/
theorem exec_fsRead_loop (hs : ReadSetting k i h count) (buf : Bytes) (hlt : h.pos < h.inode.size)
    (hheap : k.heap 0 = true)
    (hhead : h.pos % k.sb.blockSize = 0 ∨ bmap h.inode k (h.pos / k.sb.blockSize) ≠ 0) :
    ∃ s' k', Reads h.inode k (cutCount h count)
        ((startState h buf).advance h.inode k (headBytes k h (cutCount h count))) s' ∧
      (fsRead i buf count).exec k = some ((toI32 s'.bytesRead, s'.buf), k') ∧
      k'.fdTable k.proc i.toNat = some { h with pos := s'.pos } := by
  have hget := exec_getBmap_near (hs.readable.popHeap 1) hs.index_near
  rw [bmap_popHeap] at hget
  have haligned := headState_aligned hs buf (cutCount h count)
  have hsize := h.inode.size_lt
  have hposlt : h.pos < 2 ^ 32 := by omega
  have hheadrun : (readHead h.inode k.sb.blockSize (cutCount h count)
      (startState h buf)).exec (k.popHeap 1) =
      some (((startState h buf).advance h.inode k (headBytes k h (cutCount h count)), none),
        k.popHeap 1) := by
    by_cases hoff : h.pos % k.sb.blockSize = 0
    · have hoff' : (startState h buf).pos % k.sb.blockSize = 0 := hoff
      simp only [readHead, if_pos hoff', exec_pure]
      rw [headBytes, if_pos hoff, ReadState.advance_zero hposlt]
    · have hoff' : ¬ (startState h buf).pos % k.sb.blockSize = 0 := hoff
      have hmapped := hhead.resolve_left hoff
      have hget' : (ext2GetBmap h.inode ((startState h buf).pos / k.sb.blockSize)).exec
          (k.popHeap 1) = some (bmap h.inode k (h.pos / k.sb.blockSize), k.popHeap 1) := hget
      simp only [readHead, if_neg hoff', exec_bind, hget', Option.bind_some, if_neg hmapped,
        exec_ext2ReadBlock, exec_pure]
      rw [headBytes, if_neg hoff]
      congr 3
      simp only [ReadState.advance, ReadState.mk.injEq]
      refine ⟨funext fun j => ?_, (Nat.zero_add _).symm, rfl⟩
      simp only [startState, popHeap_blk, Nat.zero_add]
      by_cases hj : 0 ≤ j ∧ j < min (k.sb.blockSize - h.pos % k.sb.blockSize) (cutCount h count)
      · have hin : h.pos % k.sb.blockSize + j < k.sb.blockSize := by omega
        have hsplit : h.pos + j = k.sb.blockSize * (h.pos / k.sb.blockSize) +
            (h.pos % k.sb.blockSize + j) := by
          have := Nat.div_add_mod h.pos k.sb.blockSize
          omega
        rw [copyInto_of_mem hj.1 (by omega), if_pos (by omega), Nat.sub_zero, fileByte, hsplit,
          Nat.mul_add_div k.sb.blockSize_pos, Nat.div_eq_of_lt hin, Nat.add_zero,
          Nat.mul_add_mod, Nat.mod_eq_of_lt hin, if_neg hmapped]
      · rw [copyInto_of_not_mem (by omega), if_neg (by omega)]
  have hr := hs.readable.popHeap 2
  rw [fsRead, exec_bind, exec_openHandle hs, Option.bind_some]
  simp only [exec_ite, if_neg (not_le.mpr hlt), exec_bind, exec_superblock, exec_kmalloc, hheap,
    Option.bind_some, if_true]
  change ∃ s' k', _ ∧ ((readHead h.inode k.sb.blockSize (cutCount h count)
    (startState h buf)).exec (k.popHeap 1)).bind _ = _ ∧ _
  rw [hheadrun, Option.bind_some]
  simp only [exec_bind, exec_kmalloc, Option.bind_some, popHeap_heap, popHeap_popHeap, exec_ite]
  -- the two loops take turns of one shape
  cases k.heap (0 + 1) with
  | true =>
    obtain ⟨s', hrun, hreads⟩ := exec_readBatch hr haligned (Nat.sub_le _ _)
    refine ⟨s', (k.popHeap 2).setHandle i.toNat (some { h with pos := s'.pos }), hreads.of_popHeap,
      ?_, by simp [setHandle, popHeap]⟩
    rw [if_pos rfl]
    exact (congrArg (Option.bind · _) hrun)
  | false =>
    obtain ⟨s', hrun, hreads⟩ := exec_readSingle hr haligned (Nat.sub_le _ _)
    refine ⟨s', (k.popHeap 2).setHandle i.toNat (some { h with pos := s'.pos }), hreads.of_popHeap,
      ?_, by simp [setHandle, popHeap]⟩
    rw [if_neg (by decide)]
    exact (congrArg (Option.bind · _) hrun)

/-! ## What a read returns -/

theorem ReadSetting.withBatch (hs : ReadSetting k i h count) (b : Bool) :
    ReadSetting (k.withBatch b) i h count :=
  ⟨hs.fd_nonneg, hs.fd_lt, hs.handle,
    ⟨hs.readable.blockSize, hs.readable.total, hs.readable.mapped⟩, hs.pos_le, hs.count_lt⟩

theorem withBatch_heap_zero (k : PlainKernel) (b : Bool) : (k.withBatch b).heap 0 = k.heap 0 :=
  Function.update_of_ne Nat.zero_ne_one b k.heap

theorem Reads.of_withBatch {x : Inode} {b : Bool} {s s' : ReadState}
    (h : Reads x (k.withBatch b) count s s') : Reads x k count s s' := by
  induction h with
  | full h => exact .full h
  | hole h hole => exact .hole h hole
  | turn r h hr mapped whole _ ih => exact .turn r h hr mapped whole ih

/-- A read that runs the same with and without memory for the batch buffer is judged by its result. -/
theorem readsContents_iff_of_runs {v : ℤ} {buf' : Bytes} {q : ℕ}
    (hrun : ∀ b, ∃ k', (fsRead i buf count).exec (k.withBatch b) = some ((v, buf'), k') ∧
      k'.fdTable k.proc i.toNat = some { h with pos := q }) :
    ReadsContents k i h buf count ↔ v = wanted h count ∧ q = h.pos + wanted h count ∧
      ∀ j < wanted h count, buf' j = fileByte h.inode k (h.pos + j) := by
  constructor
  · rintro ⟨buf'', hall, hbytes⟩
    obtain ⟨k₁, hexec, hfd⟩ := hrun true
    obtain ⟨k₂, hexec', hfd'⟩ := hall true
    rw [hexec, Option.some.injEq, Prod.mk.injEq, Prod.mk.injEq] at hexec'
    obtain ⟨⟨hv, rfl⟩, rfl⟩ := hexec'
    rw [hfd, Option.some.injEq, FileHandle.mk.injEq] at hfd'
    exact ⟨hv, by simp_all, hbytes⟩
  · rintro ⟨rfl, rfl, hbytes⟩
    exact ⟨buf', hrun, hbytes⟩

/-- The loops do not read more than is wanted. -/
theorem Reads.le_count {x : Inode} {s s' : ReadState} (h : Reads x k count s s')
    (hle : s.bytesRead ≤ count) : s'.bytesRead ≤ count := by
  induction h with
  | full => exact hle
  | hole => exact hle
  | turn r hlt hr mapped whole rest ih =>
    exact ih (by simp only [ReadState.advance]; omega)

/-! ## The loops -/

/-- The state behind the first phase. -/
def headState (k : PlainKernel) (h : FileHandle) (buf : Bytes) (c : ℕ) : ReadState :=
  (startState h buf).advance h.inode k (headBytes k h c)

/-- The read does not start in a hole inside a block. -/
def HeadMapped (k : PlainKernel) (h : FileHandle) : Prop :=
  h.pos % k.sb.blockSize = 0 ∨ bmap h.inode k (h.pos / k.sb.blockSize) ≠ 0

theorem exec_fsRead_withBatch (hs : ReadSetting k i h count) (buf : Bytes) (hlt : h.pos < h.inode.size)
    (hheap : k.heap 0 = true) (hhead : HeadMapped k h) (b : Bool) :
    ∃ s' k', Reads h.inode k (cutCount h count) (headState k h buf (cutCount h count)) s' ∧
      (fsRead i buf count).exec (k.withBatch b) = some ((toI32 s'.bytesRead, s'.buf), k') ∧
      k'.fdTable k.proc i.toNat = some { h with pos := s'.pos } := by
  obtain ⟨s', k', hreads, hexec, hfd⟩ := exec_fsRead_loop (hs.withBatch b) buf hlt
    ((withBatch_heap_zero k b).trans hheap) hhead
  exact ⟨s', k', hreads.of_withBatch, hexec, hfd⟩

/-- Where the loops can only end in one state, a read is judged by it. -/
theorem readsContents_iff_of_reads (hs : ReadSetting k i h count) (hlt : h.pos < h.inode.size)
    (hheap : k.heap 0 = true) (hhead : HeadMapped k h) {t : ReadState}
    (hread : ∀ s', Reads h.inode k (cutCount h count) (headState k h buf (cutCount h count)) s' →
      s' = t) :
    ReadsContents k i h buf count ↔ toI32 t.bytesRead = wanted h count ∧
      t.pos = h.pos + wanted h count ∧
      ∀ j < wanted h count, t.buf j = fileByte h.inode k (h.pos + j) := by
  refine readsContents_iff_of_runs fun b => ?_
  obtain ⟨s', k', hreads, hexec, hfd⟩ := exec_fsRead_withBatch hs buf hlt hheap hhead b
  obtain rfl := hread s' hreads
  exact ⟨k', hexec, hfd⟩

theorem ReadSetting.headBytes_le (h : FileHandle) (c : ℕ) : headBytes k h c ≤ c := by
  unfold headBytes
  split
  · exact Nat.zero_le _
  · exact min_le_right _ _

/-- A block behind the first phase starts behind it. -/
theorem headBytes_le_of_block {c l : ℕ} (hl : h.pos / k.sb.blockSize ≤ l)
    (hoff : h.pos % k.sb.blockSize = 0 ∨ l ≠ h.pos / k.sb.blockSize) :
    h.pos + headBytes k h c ≤ l * k.sb.blockSize := by
  have hdiv := Nat.div_add_mod h.pos k.sb.blockSize
  rw [Nat.mul_comm] at hdiv
  unfold headBytes
  split
  · next hzero =>
    have hmul := Nat.mul_le_mul_right k.sb.blockSize hl
    omega
  · next hne =>
    have hnext : h.pos / k.sb.blockSize + 1 ≤ l := by
      have := hoff.resolve_left hne
      omega
    have hmul := Nat.mul_le_mul_right k.sb.blockSize hnext
    have hmod := Nat.mod_lt h.pos k.sb.blockSize_pos
    have hmin := min_le_left (k.sb.blockSize - h.pos % k.sb.blockSize) c
    rw [Nat.add_mul, Nat.one_mul] at hmul
    omega

/-- The state of a read that copied `n` bytes. -/
theorem headState_advance {c n : ℕ} (hfit : h.pos + headBytes k h c < 2 ^ 32)
    (hn : headBytes k h c ≤ n) :
    (headState k h buf c).advance h.inode k (n - headBytes k h c) =
      (startState h buf).advance h.inode k n := by
  rw [headState, ReadState.advance_advance (by exact hfit), Nat.add_sub_cancel' hn]

/-- Over mapped blocks the whole count is read. -/
theorem Reads.eq_start_advance (hs : ReadSetting k i h count) {c : ℕ} {s' : ReadState}
    (hfit : h.pos + c < 2 ^ 32)
    (hmapped : ∀ j < c, bmap h.inode k ((h.pos + j) / k.sb.blockSize) ≠ 0)
    (hreads : Reads h.inode k c (headState k h buf c) s') :
    s' = (startState h buf).advance h.inode k c := by
  have hle := ReadSetting.headBytes_le (k := k) h c
  have hread : (headState k h buf c).bytesRead = headBytes k h c := Nat.zero_add _
  have hpos : (headState k h buf c).pos = h.pos + headBytes k h c := Nat.mod_eq_of_lt (by
    simp only [startState]
    omega)
  rw [hreads.eq_of_mapped hs.readable.blockSize (headState_aligned hs buf c) (by omega) (by omega)
    fun off hoff => ?_, hread, headState_advance (by omega) hle]
  rw [hpos, Nat.add_assoc]
  exact hmapped _ (by omega)

/-- The read ends at the first hole, and has counted the bytes in front of it. -/
theorem Reads.eq_at_hole (hs : ReadSetting k i h count) {c l : ℕ} {s' : ReadState}
    (hhead : HeadMapped k h) (hl : h.pos / k.sb.blockSize ≤ l) (hlt : l * k.sb.blockSize < 2 ^ 32)
    (hwant : l * k.sb.blockSize < h.pos + c)
    (hmapped : ∀ l', h.pos / k.sb.blockSize ≤ l' → l' < l → bmap h.inode k l' ≠ 0)
    (hhole : bmap h.inode k l = 0) (hreads : Reads h.inode k c (headState k h buf c) s') :
    h.pos ≤ l * k.sb.blockSize ∧ s' =
      { (startState h buf).advance h.inode k (l * k.sb.blockSize - h.pos) with
        buf := zeroFill ((startState h buf).advance h.inode k (l * k.sb.blockSize - h.pos)).buf
          (l * k.sb.blockSize - h.pos) (c - (l * k.sb.blockSize - h.pos)) } := by
  have hoff : h.pos % k.sb.blockSize = 0 ∨ l ≠ h.pos / k.sb.blockSize := by
    rcases hhead with hzero | hne
    · exact Or.inl hzero
    · refine Or.inr ?_
      rintro rfl
      exact hne hhole
  have hblock := headBytes_le_of_block (c := c) hl hoff
  have hread : (headState k h buf c).bytesRead = headBytes k h c := Nat.zero_add _
  have hpos : (headState k h buf c).pos = h.pos + headBytes k h c := Nat.mod_eq_of_lt (by
    simp only [startState]
    omega)
  have hsub : l * k.sb.blockSize - (h.pos + headBytes k h c) =
      (l * k.sb.blockSize - h.pos) - headBytes k h c := by
    omega
  have hsum : headBytes k h c + (l * k.sb.blockSize - h.pos - headBytes k h c) =
      l * k.sb.blockSize - h.pos := by
    omega
  have hend := hreads.eq_of_hole hs.readable.blockSize (headState_aligned hs buf c) hlt (by omega)
    (by omega) (fun l' hl' => hmapped l' (le_trans (Nat.div_le_div_right (by omega)) hl')) hhole
  rw [hpos, hread, hsub, hsum, headState_advance (by omega) (by omega)] at hend
  exact ⟨by omega, hend⟩

/-- Where the count is not cut and no hole stands in the file, more is read than the file has. -/
theorem Reads.lt_of_overflows (hs : ReadSetting k i h count) (hlt : h.pos < h.inode.size)
    (ho : Overflows h count) {s' : ReadState}
    (hmapped : ∀ l, h.pos / k.sb.blockSize ≤ l → l ≤ h.inode.size / k.sb.blockSize →
      bmap h.inode k l ≠ 0)
    (hreads : Reads h.inode k count (headState k h buf count) s') :
    h.inode.size - h.pos < s'.bytesRead := by
  have hsize := h.inode.size_lt
  have hread : (headState k h buf count).bytesRead = headBytes k h count := Nat.zero_add _
  have hle := ReadSetting.headBytes_le (k := k) h count
  by_cases hpast : h.inode.size < h.pos + headBytes k h count
  · have := hreads.le
    omega
  have hpos : (headState k h buf count).pos = h.pos + headBytes k h count := Nat.mod_eq_of_lt (by
    simp only [startState]
    omega)
  have := hreads.lt_of_mapped hs.readable.blockSize (headState_aligned hs buf count) hsize (by omega)
    (by have := ho.1; omega) fun l hl hlz => hmapped l (le_trans (Nat.div_le_div_right (by omega)) hl)
      hlz
  omega

/-! ## The law -/

theorem ReadSetting.wanted_lt (hs : ReadSetting k i h count) : wanted h count < 2 ^ 32 :=
  lt_of_le_of_lt (min_le_left _ _) hs.count_lt

/-- The contents are in the buffer as far as they were copied. -/
theorem startState_advance_buf {n j : ℕ} (hj : j < n) :
    ((startState h buf).advance h.inode k n).buf j = fileByte h.inode k (h.pos + j) := by
  simp only [ReadState.advance, startState, Nat.zero_add, Nat.sub_zero]
  rw [if_pos ⟨Nat.zero_le j, hj⟩]

/-- A hole at a position inside a block. -/
theorem readsContents_iff_of_head_hole (hs : ReadSetting k i h count)
    (hlt : h.pos < h.inode.size) (hheap : k.heap 0 = true) (hoff : h.pos % k.sb.blockSize ≠ 0)
    (hhole : bmap h.inode k (h.pos / k.sb.blockSize) = 0) :
    ReadsContents k i h buf count ↔ wanted h count < 2 ^ 31 ∧ ¬ Overflows h count ∧
      ∀ j < wanted h count, fileByte h.inode k (h.pos + j) = 0 := by
  have hw := hs.wanted_lt
  rw [readsContents_iff_of_runs fun b => exec_fsRead_of_head_hole (hs.withBatch b) buf hlt
    ((withBatch_heap_zero k b).trans hheap) hoff hhole]
  by_cases ho : Overflows h count
  · rw [hs.cutCount_of_overflows ho, toI32_eq_iff hs.count_lt]
    have hsize := h.inode.size_lt
    have hover := ho.1
    have hwant : wanted h count ≤ h.inode.size - h.pos := min_le_right _ _
    refine iff_of_false ?_ (fun hall => hall.2.1 ho)
    rintro ⟨⟨hcount, -⟩, -⟩
    omega
  · have hwant : wanted h count ≤ h.inode.size - h.pos := min_le_right _ _
    have hsize := h.inode.size_lt
    rw [hs.cutCount_of_not_overflows ho, toI32_eq_iff hw, Nat.mod_eq_of_lt (by omega)]
    refine ⟨fun ⟨hv, _, hbytes⟩ => ⟨hv.2, ho, fun j hj => ?_⟩,
      fun ⟨hv, _, hbytes⟩ => ⟨⟨rfl, hv⟩, rfl, fun j hj => ?_⟩⟩
    · rw [← hbytes j hj, zeroFill_of_mem (Nat.zero_le j) (by omega)]
    · rw [hbytes j hj, zeroFill_of_mem (Nat.zero_le j) (by omega)]

/-- There is a first hole at or behind a block. -/
theorem exists_first_hole {x : Inode} {m l : ℕ} (hl : m ≤ l) (hhole : bmap x k l = 0) :
    ∃ l', m ≤ l' ∧ l' ≤ l ∧ bmap x k l' = 0 ∧ ∀ l'', m ≤ l'' → l'' < l' → bmap x k l'' ≠ 0 := by
  classical
  have hex : ∃ l, m ≤ l ∧ bmap x k l = 0 := ⟨l, hl, hhole⟩
  obtain ⟨hm, hzero⟩ := Nat.find_spec hex
  exact ⟨_, hm, Nat.find_min' hex ⟨hl, hhole⟩, hzero,
    fun l'' hl'' hlt heq => Nat.find_min hex hlt ⟨hl'', heq⟩⟩

/-- A hole that the read meets before it has the bytes that are wanted. -/
theorem not_readsContents_of_hole (hs : ReadSetting k i h count) (hlt : h.pos < h.inode.size)
    (hheap : k.heap 0 = true) (hhead : HeadMapped k h) (ho : ¬ Overflows h count) {j : ℕ}
    (hj : j < wanted h count) (hhole : bmap h.inode k ((h.pos + j) / k.sb.blockSize) = 0) :
    ¬ ReadsContents k i h buf count := by
  have hsize := h.inode.size_lt
  have hwant : wanted h count ≤ h.inode.size - h.pos := min_le_right _ _
  obtain ⟨l, hl, hfirst, hzero, hmapped⟩ :=
    exists_first_hole (Nat.div_le_div_right (Nat.le_add_right h.pos j)) hhole
  have hle : l * k.sb.blockSize ≤ h.pos + j :=
    le_trans (Nat.mul_le_mul_right _ hfirst) (Nat.div_mul_le_self _ _)
  rw [readsContents_iff_of_reads hs hlt hheap hhead fun s' hreads => by
    rw [hs.cutCount_of_not_overflows ho] at hreads
    exact (hreads.eq_at_hole hs hhead hl (by omega) (by omega) hmapped hzero).2]
  simp only [ReadState.advance, startState, Nat.zero_add]
  rw [toI32_eq_iff (by omega)]
  rintro ⟨⟨hret, -⟩, -⟩
  omega

/-- Where every wanted byte is mapped, the read returns the contents. -/
theorem readsContents_iff_of_mapped (hs : ReadSetting k i h count) (hlt : h.pos < h.inode.size)
    (hheap : k.heap 0 = true) (hhead : HeadMapped k h) (ho : ¬ Overflows h count)
    (hmapped : ∀ j < wanted h count, bmap h.inode k ((h.pos + j) / k.sb.blockSize) ≠ 0) :
    ReadsContents k i h buf count ↔ wanted h count < 2 ^ 31 := by
  have hsize := h.inode.size_lt
  have hwant : wanted h count ≤ h.inode.size - h.pos := min_le_right _ _
  rw [readsContents_iff_of_reads hs hlt hheap hhead fun s' hreads => by
    rw [hs.cutCount_of_not_overflows ho] at hreads
    exact hreads.eq_start_advance hs (by omega) hmapped]
  have hread : ((startState h buf).advance h.inode k (wanted h count)).bytesRead =
      wanted h count := Nat.zero_add _
  have hpos : ((startState h buf).advance h.inode k (wanted h count)).pos =
      h.pos + wanted h count := Nat.mod_eq_of_lt (by
    simp only [startState]
    omega)
  rw [hread, hpos, toI32_eq_iff hs.wanted_lt]
  exact ⟨fun hall => hall.1.2, fun hv => ⟨⟨rfl, hv⟩, rfl, fun j hj => startState_advance_buf hj⟩⟩

/-- Where the count is not cut at the end of the file, only a hole right there ends the read. -/
theorem readsContents_iff_of_overflows (hs : ReadSetting k i h count)
    (hlt : h.pos < h.inode.size) (hheap : k.heap 0 = true) (hhead : HeadMapped k h)
    (ho : Overflows h count) :
    ReadsContents k i h buf count ↔ wanted h count < 2 ^ 31 ∧
      h.inode.size % k.sb.blockSize = 0 ∧
      (∀ l, h.pos / k.sb.blockSize ≤ l → l < h.inode.size / k.sb.blockSize →
        bmap h.inode k l ≠ 0) ∧
      bmap h.inode k (h.inode.size / k.sb.blockSize) = 0 := by
  have hsize := h.inode.size_lt
  have hover := ho.1
  have hwant : wanted h count = h.inode.size - h.pos := min_eq_right (by omega)
  have hcut := hs.cutCount_of_overflows ho
  by_cases hex : ∃ l, h.pos / k.sb.blockSize ≤ l ∧ l ≤ h.inode.size / k.sb.blockSize ∧
      bmap h.inode k l = 0
  · obtain ⟨l₀, hl₀, hlast₀, hzero₀⟩ := hex
    obtain ⟨l, hl, hfirst, hzero, hmapped⟩ := exists_first_hole hl₀ hzero₀
    have hle : l * k.sb.blockSize ≤ h.inode.size :=
      le_trans (Nat.mul_le_mul_right _ (le_trans hfirst hlast₀)) (Nat.div_mul_le_self _ _)
    have hend : ∀ s', Reads h.inode k count (headState k h buf count) s' → _ := fun s' hreads =>
      hreads.eq_at_hole hs hhead hl (by omega) (by omega) hmapped hzero
    rw [readsContents_iff_of_reads hs hlt hheap hhead fun s' hreads => by
      rw [hcut] at hreads
      exact (hend s' hreads).2]
    have hpos : h.pos ≤ l * k.sb.blockSize := by
      obtain ⟨s', -, hreads, -⟩ := exec_fsRead_withBatch hs buf hlt hheap hhead true
      rw [hcut] at hreads
      exact (hend s' hreads).1
    simp only [ReadState.advance, startState, Nat.zero_add]
    rw [toI32_eq_iff (by omega), hwant]
    constructor
    · rintro ⟨⟨hret, hv⟩, -⟩
      have hsz : h.inode.size = l * k.sb.blockSize := by omega
      have hdiv : h.inode.size / k.sb.blockSize = l := by
        rw [hsz, Nat.mul_div_cancel _ k.sb.blockSize_pos]
      exact ⟨hv, by rw [hsz, Nat.mul_mod_left], by rwa [hdiv], by rwa [hdiv]⟩
    · rintro ⟨hv, hmod, hall, -⟩
      have hdiv : l = h.inode.size / k.sb.blockSize := by
        by_contra hne
        exact hall _ hl (by omega) hzero
      have hsz : l * k.sb.blockSize = h.inode.size := by
        rw [hdiv, Nat.div_mul_cancel (Nat.dvd_of_mod_eq_zero hmod)]
      rw [hsz]
      refine ⟨⟨rfl, hv⟩, Nat.mod_eq_of_lt (by omega), fun j hj => ?_⟩
      rw [zeroFill_of_not_mem (by omega)]
      simp only [Nat.zero_le, hj, and_self, if_true, Nat.sub_zero]
  · have hmapped : ∀ l, h.pos / k.sb.blockSize ≤ l → l ≤ h.inode.size / k.sb.blockSize →
        bmap h.inode k l ≠ 0 := fun l hl hl' hzero => hex ⟨l, hl, hl', hzero⟩
    refine iff_of_false ?_ fun hall =>
      hmapped _ (Nat.div_le_div_right hlt.le) le_rfl hall.2.2.2
    rintro ⟨buf', hall, -⟩
    obtain ⟨k₁, hexec', -⟩ := hall true
    obtain ⟨s', k', hreads, hexec, -⟩ :=
      exec_fsRead_withBatch hs buf hlt hheap hhead true
    rw [hexec, Option.some.injEq, Prod.mk.injEq, Prod.mk.injEq] at hexec'
    rw [hcut] at hreads
    have hmore := hreads.lt_of_overflows hs hlt ho hmapped
    have hle := hreads.le_count ((Nat.zero_add _).trans_le (ReadSetting.headBytes_le h count))
    have hcount := hs.count_lt
    have hret := ((toI32_eq_iff (by omega)).mp hexec'.1.1).1
    omega

/-- An inode with a size and one block, its first; without blocks when the block is 0. -/
def oneBlock (size b : ℕ) : Inode := (Inode.zero.setSize size).setBlock 0 b

theorem bmap_oneBlock (k : PlainKernel) (size b l : ℕ) (hb : b < 2 ^ 32) :
    bmap (oneBlock size b) k l = if l = 0 then b else 0 := by
  have hroot : ∀ s, 0 < s → s < 15 → (mapOf (oneBlock size b) k).root s = 0 := by
    intro s hs hlt
    have hne : (oneBlock size b).block s = (Inode.zero.setSize size).block s :=
      Inode.block_setBlock_of_ne hlt (by omega)
    exact (hne.trans (Inode.block_setSize hlt)).trans (ptr_zero k (s, []) hlt)
  have hnull : ∀ {a : Addr}, 0 < a.1 → a.1 < 15 →
      ptr blockOps (mapOf (oneBlock size b) k) a = 0 := fun {a} hs hlt =>
    (congrArg (walk blockOps k.blk · a.2) (hroot a.1 hs hlt)).trans (walk_zero _ _)
  unfold bmap leafAddr
  split_ifs with h0 h1 h2 h3 h4
  · subst h1
    exact (Inode.block_setBlock_self (by decide)).trans (Nat.mod_eq_of_lt hb)
  · exact hnull (by simp only; omega) (by simp only; omega)
  · omega
  · exact hnull (by simp only; omega) (by simp only; omega)
  · omega
  · exact hnull (by simp only; omega) (by simp only; omega)
  · omega
  · exact hnull (by simp only; omega) (by simp only; omega)

/-- A kernel with the sample image mounted and a handle at the start of a file of `size` bytes, with
block `b` or without blocks. -/
def fileOpen (size b : ℕ) : PlainKernel :=
  (Kernel.oneDrive (sampleDrive (str "A")) (blocksOf (bytesAt 6 0 [65]))).setHandle 3
    (some ⟨11, oneBlock size b, 0⟩)

theorem fileOpen_setting {size b count : ℕ} (hb : b < 16) (hcount : count < 2 ^ 32) :
    ReadSetting (fileOpen size b) 3 ⟨11, oneBlock size b, 0⟩ count := by
  have hblock : sampleSb.blockSize ≤ tableBytes := by decide
  have hblocks : sampleSb.totalBlocks < 2 ^ 32 := by decide
  refine ⟨by decide, by decide, by simp [fileOpen, setHandle], ⟨hblock, hblocks, fun l _ => ?_⟩,
    Nat.zero_le _, hcount⟩
  have htotal : (fileOpen size b).sb.totalBlocks = 16 := rfl
  rw [bmap_oneBlock _ _ _ _ (by omega), htotal]
  split_ifs <;> omega

end Sandflea
