import Sandflea.Ext2.BmapLaw
import Sandflea.Fs.File

/-!
# Reading a file

`fileByte` is the contents of a file: the byte at an offset, zero where no block is mapped. The two loops
of `fs_read`, over single blocks and over runs of contiguous blocks, take turns of one shape (`Reads`):
copy the contents of some mapped blocks, or stop at a hole and fill the rest of the buffer with zeros.
What a read returns follows from that shape alone, so it is the same for both.

`readsContents_iff` says exactly when `fs_read` returns the contents of the file.
-/

namespace Sandflea

open Bytes Kern Kernel

/-- The byte of a file at an offset. -/
def fileByte (x : Inode) (k : PlainKernel) (off : ℕ) : UInt8 :=
  if bmap x k (off / k.sb.blockSize) = 0 then 0
  else k.blk (bmap x k (off / k.sb.blockSize)) (off % k.sb.blockSize)

/-- An inode whose blocks are blocks of the drive, with a block size that `ext2_get_bmap` supports. -/
structure Readable (x : Inode) (k : PlainKernel) : Prop where
  blockSize : k.sb.blockSize ≤ tableBytes
  total : k.sb.totalBlocks < 2 ^ 32
  mapped : ∀ l < mapLimit k.sb.ptrs, bmap x k l < k.sb.totalBlocks

variable {x : Inode} {k : PlainKernel}

@[simp] theorem bmap_popHeap (x : Inode) (k : PlainKernel) (n l : ℕ) :
    bmap x (k.popHeap n) l = bmap x k l := rfl

theorem Readable.popHeap (h : Readable x k) (n : ℕ) : Readable x (k.popHeap n) :=
  ⟨h.blockSize, h.total, h.mapped⟩

/-- The block sizes that `ext2_get_bmap` supports divide the 32-bit range. -/
theorem blockSize_dvd {sb : Superblock} (h : sb.blockSize ≤ tableBytes) :
    sb.blockSize ∣ 2 ^ 32 := by
  have hshift : sb.blockSizeShift ≤ 2 := by
    by_contra hgt
    have hpow : 2 ^ 3 ≤ 2 ^ sb.blockSizeShift := Nat.pow_le_pow_right (by norm_num) (by omega)
    unfold Superblock.blockSize tableBytes at h
    omega
  have hsize : sb.blockSize = 2 ^ (10 + sb.blockSizeShift) := by
    rw [Superblock.blockSize, Nat.pow_add]
  rw [hsize]
  exact Nat.pow_dvd_pow 2 (by omega)

/-- A block within 64 blocks of the 32-bit range is a block of the map. -/
theorem index_lt_mapLimit {sb : Superblock} {l : ℕ} (h : (l - 64) * sb.blockSize < 2 ^ 32) :
    l < mapLimit sb.ptrs := by
  have hl : (l - 64) * 1024 ≤ (l - 64) * sb.blockSize := Nat.mul_le_mul_left _ sb.le_blockSize
  have hn : 256 * 256 * 256 ≤ sb.ptrs * sb.ptrs * sb.ptrs :=
    Nat.mul_le_mul (Nat.mul_le_mul sb.le_ptrs sb.le_ptrs) sb.le_ptrs
  unfold mapLimit
  omega

theorem exec_getBmap_near (h : Readable x k) {l : ℕ} (hl : (l - 64) * k.sb.blockSize < 2 ^ 32) :
    (ext2GetBmap x l).exec k = some (bmap x k l, k) :=
  exec_ext2GetBmap h.blockSize x (index_lt_mapLimit hl)

/-! ## The shape of the loops -/

/-- The state after the contents of `n` bytes are copied. -/
def ReadState.advance (x : Inode) (k : PlainKernel) (s : ReadState) (n : ℕ) : ReadState where
  buf i := if s.bytesRead ≤ i ∧ i < s.bytesRead + n then fileByte x k (s.pos + (i - s.bytesRead))
    else s.buf i
  bytesRead := s.bytesRead + n
  pos := (s.pos + n) % 2 ^ 32

/-- The turns of a read loop from the start of a block, to the end of the loop. -/
inductive Reads (x : Inode) (k : PlainKernel) (count : ℕ) : ReadState → ReadState → Prop
  /-- The loop is at its end. -/
  | full {s : ReadState} (h : count ≤ s.bytesRead) : Reads x k count s s
  /-- The next block is a hole. -/
  | hole {s : ReadState} (h : s.bytesRead < count)
      (hole : bmap x k (s.pos / k.sb.blockSize) = 0) :
      Reads x k count s { s with buf := zeroFill s.buf s.bytesRead (count - s.bytesRead) }
  /-- The next `r` blocks are mapped; more than one is read only where all of them are wanted. -/
  | turn {s s' : ReadState} (r : ℕ) (h : s.bytesRead < count) (hr : 1 ≤ r)
      (mapped : ∀ i < r, bmap x k (s.pos / k.sb.blockSize + i) ≠ 0)
      (whole : r = 1 ∨ r * k.sb.blockSize ≤ count - s.bytesRead)
      (rest : Reads x k count
        (s.advance x k (min (r * k.sb.blockSize) (count - s.bytesRead))) s') :
      Reads x k count s s'

/-- The heap does not show in the contents of files. -/
theorem Reads.of_popHeap {n count : ℕ} {s s' : ReadState}
    (h : Reads x (k.popHeap n) count s s') : Reads x k count s s' := by
  induction h with
  | full h => exact .full h
  | hole h hole => exact .hole h hole
  | turn r h hr mapped whole _ ih => exact .turn r h hr mapped whole ih

/-- At the start of a block, or at the end of the loop. -/
def ReadState.Aligned (k : PlainKernel) (count : ℕ) (s : ReadState) : Prop :=
  s.pos < 2 ^ 32 ∧ (s.pos % k.sb.blockSize = 0 ∨ count ≤ s.bytesRead)

/-- Copying whole blocks, or all that is wanted, keeps the state aligned. -/
theorem ReadState.Aligned.advance {count r : ℕ} {s : ReadState} (hbs : k.sb.blockSize ≤ tableBytes)
    (h : s.Aligned k count) (hlt : s.bytesRead < count) :
    (s.advance x k (min (r * k.sb.blockSize) (count - s.bytesRead))).Aligned k count := by
  refine ⟨Nat.mod_lt _ (by norm_num), ?_⟩
  have hpos : s.pos % k.sb.blockSize = 0 := h.2.resolve_right (by omega)
  by_cases hfull : count - s.bytesRead ≤ r * k.sb.blockSize
  · right
    simp only [ReadState.advance]
    omega
  · left
    simp only [ReadState.advance]
    rw [min_eq_left (by omega), Nat.mod_mod_of_dvd _ (blockSize_dvd hbs), Nat.add_mul_mod_self_right]
    exact hpos

/-- Copying a run of physically contiguous blocks copies the contents of the file. -/
theorem advance_eq (count : ℕ) {r phys : ℕ} {s : ReadState} {src : Bytes}
    (hpos : s.pos % k.sb.blockSize = 0) (hphys : phys ≠ 0)
    (hrun : ∀ i < r, bmap x k (s.pos / k.sb.blockSize + i) = phys + i)
    (hsrc : ∀ j < r * k.sb.blockSize,
      src j = k.blk (phys + j / k.sb.blockSize) (j % k.sb.blockSize)) :
    ({ buf := copyInto s.buf s.bytesRead src 0 (min (r * k.sb.blockSize) (count - s.bytesRead))
       bytesRead := s.bytesRead + min (r * k.sb.blockSize) (count - s.bytesRead)
       pos := (s.pos + min (r * k.sb.blockSize) (count - s.bytesRead)) % 2 ^ 32 } : ReadState) =
      s.advance x k (min (r * k.sb.blockSize) (count - s.bytesRead)) := by
  simp only [ReadState.advance, ReadState.mk.injEq, and_true]
  funext i
  by_cases hi : s.bytesRead ≤ i ∧ i < s.bytesRead + min (r * k.sb.blockSize) (count - s.bytesRead)
  swap
  · rw [copyInto_of_not_mem hi, if_neg hi]
  have hj : i - s.bytesRead < r * k.sb.blockSize := by omega
  have hq : (i - s.bytesRead) / k.sb.blockSize < r := Nat.div_lt_of_lt_mul (by rwa [Nat.mul_comm])
  have hdvd := Nat.dvd_of_mod_eq_zero hpos
  have hdiv : (s.pos + (i - s.bytesRead)) / k.sb.blockSize =
      s.pos / k.sb.blockSize + (i - s.bytesRead) / k.sb.blockSize :=
    Nat.add_div_of_dvd_right hdvd
  have hmod : (s.pos + (i - s.bytesRead)) % k.sb.blockSize = (i - s.bytesRead) % k.sb.blockSize := by
    rw [Nat.add_mod, hpos, Nat.zero_add, Nat.mod_mod]
  have hne : phys + (i - s.bytesRead) / k.sb.blockSize ≠ 0 := Nat.ne_of_gt (by positivity)
  rw [copyInto_of_mem hi.1 hi.2, if_pos hi, Nat.zero_add, hsrc _ hj, fileByte, hdiv, hmod, hrun _ hq,
    if_neg hne]

/-- The loop over single blocks. -/
theorem exec_readSingle (h : Readable x k) {count fuel : ℕ} {s : ReadState}
    (hs : s.Aligned k count) (hfuel : count - s.bytesRead ≤ fuel) :
    ∃ s', (readSingle x k.sb.blockSize count fuel s).exec k = some (s', k) ∧
      Reads x k count s s' := by
  induction fuel generalizing s with
  | zero => exact ⟨s, rfl, .full (by omega)⟩
  | succ fuel ih =>
    rw [readSingle, exec_ite]
    by_cases hlt : s.bytesRead < count
    swap
    · exact ⟨s, by rw [if_neg hlt, exec_pure], .full (by omega)⟩
    have hpos : s.pos % k.sb.blockSize = 0 := hs.2.resolve_right (by omega)
    have hindex : (s.pos / k.sb.blockSize - 64) * k.sb.blockSize < 2 ^ 32 :=
      lt_of_le_of_lt (le_trans (Nat.mul_le_mul_right _ (Nat.sub_le _ _)) (Nat.div_mul_le_self _ _))
        hs.1
    rw [if_pos hlt, exec_bind, exec_getBmap_near h hindex, Option.bind_some, exec_ite]
    by_cases hhole : bmap x k (s.pos / k.sb.blockSize) = 0
    · exact ⟨_, by rw [if_pos hhole, exec_pure], .hole hlt hhole⟩
    have hbs := k.sb.blockSize_pos
    have hsrc : ∀ j < 1 * k.sb.blockSize, k.blk (bmap x k (s.pos / k.sb.blockSize)) j =
        k.blk (bmap x k (s.pos / k.sb.blockSize) + j / k.sb.blockSize) (j % k.sb.blockSize) := by
      intro j hj
      rw [Nat.one_mul] at hj
      rw [Nat.div_eq_of_lt hj, Nat.mod_eq_of_lt hj, Nat.add_zero]
    have hadv := advance_eq (x := x) (s := s) count hpos hhole
      (fun i hi => by
        obtain rfl : i = 0 := by omega
        rfl) hsrc
    have hs' := hs.advance (x := x) (r := 1) h.blockSize hlt
    rw [Nat.one_mul] at hadv
    obtain ⟨s', hrun, hreads⟩ := ih hs' (by simp only [ReadState.advance]; omega)
    rw [Nat.one_mul] at hrun hreads
    refine ⟨s', ?_, .turn 1 hlt le_rfl ?_ (Or.inl rfl) (by rwa [Nat.one_mul])⟩
    · simp only [if_neg hhole, exec_bind, exec_ext2ReadBlock, Option.bind_some, hadv, hrun]
    · intro i hi
      obtain rfl : i = 0 := by omega
      exact hhole

/-- The scan for contiguous blocks: how far the blocks behind the first follow it. -/
theorem exec_runBlocks (h : Readable x k) {l phys n run : ℕ}
    (hl : (l + (run + n) - 65) * k.sb.blockSize < 2 ^ 32) (hrun : 1 ≤ run)
    (hphys : phys + run < 2 ^ 32) (hlast : run + n ≤ 64) :
    ∃ r, (runBlocks x l phys (List.range' run n) run).exec k = some (r, k) ∧ run ≤ r ∧ r ≤ run + n ∧
      ∀ i, run ≤ i → i < r → bmap x k (l + i) = phys + i := by
  induction n generalizing run with
  | zero => exact ⟨run, rfl, le_rfl, le_rfl, fun i h1 h2 => by omega⟩
  | succ n ih =>
    have hindex : (l + run - 64) * k.sb.blockSize < 2 ^ 32 :=
      lt_of_le_of_lt (Nat.mul_le_mul_right _ (by omega)) hl
    have hsmall : l + run < 2 ^ 32 := by
      have hlt := Nat.mul_le_mul_left (l + run - 64) k.sb.le_blockSize
      omega
    have hmapped := h.mapped _ (index_lt_mapLimit hindex)
    have htotal := h.total
    rw [List.range'_succ, runBlocks, Nat.mod_eq_of_lt hsmall, exec_bind, exec_getBmap_near h hindex,
      Option.bind_some, Nat.mod_eq_of_lt hphys, exec_ite]
    by_cases hnext : bmap x k (l + run) = phys + run
    · rw [if_neg (not_not.mpr hnext)]
      obtain ⟨r, hexec, hle, hge, hall⟩ := ih
        (by rwa [Nat.add_assoc run 1 n, Nat.add_comm 1 n]) (by omega : 1 ≤ run + 1) (by omega)
        (by omega)
      refine ⟨r, hexec, by omega, by omega, fun i h1 h2 => ?_⟩
      rcases Nat.eq_or_lt_of_le h1 with rfl | hlt
      · exact hnext
      · exact hall i hlt h2
    · rw [if_pos hnext, exec_pure]
      exact ⟨run, rfl, le_rfl, by omega, fun i h1 h2 => by omega⟩

/-- The loop over runs of contiguous blocks. -/
theorem exec_readBatch (h : Readable x k) {count fuel : ℕ} {s : ReadState}
    (hs : s.Aligned k count) (hfuel : count - s.bytesRead ≤ fuel) :
    ∃ s', (readBatch x k.sb.blockSize count fuel s).exec k = some (s', k) ∧
      Reads x k count s s' := by
  induction fuel generalizing s with
  | zero => exact ⟨s, rfl, .full (by omega)⟩
  | succ fuel ih =>
    rw [readBatch, exec_ite]
    by_cases hlt : s.bytesRead < count
    swap
    · exact ⟨s, by rw [if_neg hlt, exec_pure], .full (by omega)⟩
    have hpos : s.pos % k.sb.blockSize = 0 := hs.2.resolve_right (by omega)
    have hbs := k.sb.blockSize_pos
    have hindex : s.pos / k.sb.blockSize * k.sb.blockSize < 2 ^ 32 :=
      lt_of_le_of_lt (Nat.div_mul_le_self _ _) hs.1
    have hnear : ∀ {l}, l ≤ s.pos / k.sb.blockSize → l * k.sb.blockSize < 2 ^ 32 := fun hl =>
      lt_of_le_of_lt (Nat.mul_le_mul_right _ hl) hindex
    rw [if_pos hlt, exec_bind, exec_getBmap_near h (hnear (Nat.sub_le _ _)), Option.bind_some,
      exec_ite]
    by_cases hhole : bmap x k (s.pos / k.sb.blockSize) = 0
    · exact ⟨_, by rw [if_pos hhole, exec_pure], .hole hlt hhole⟩
    have hfirst := h.mapped _ (index_lt_mapLimit (hnear (Nat.sub_le _ 64)))
    have htotal := h.total
    have hbatch : 1 + (min ((count - s.bytesRead) / k.sb.blockSize) fsBatchBlocks - 1) ≤ 64 := by
      have := min_le_right ((count - s.bytesRead) / k.sb.blockSize) fsBatchBlocks
      unfold fsBatchBlocks at this ⊢
      omega
    obtain ⟨r, hexec, hle, hge, hall⟩ := exec_runBlocks h (l := s.pos / k.sb.blockSize)
      (hnear (Nat.sub_le_of_le_add (Nat.add_le_add_left (le_trans hbatch (by norm_num)) _))) le_rfl
      (by omega : bmap x k (s.pos / k.sb.blockSize) + 1 < 2 ^ 32) hbatch
    have hrun : ∀ i < r, bmap x k (s.pos / k.sb.blockSize + i) =
        bmap x k (s.pos / k.sb.blockSize) + i := by
      intro i hi
      rcases Nat.eq_zero_or_pos i with rfl | hpos'
      · rfl
      · exact hall i hpos' hi
    have hwhole : r = 1 ∨ r * k.sb.blockSize ≤ count - s.bytesRead := by
      by_cases hr : r = 1
      · exact Or.inl hr
      · right
        refine le_trans (Nat.mul_le_mul_right _ ?_) (Nat.div_mul_le_self _ k.sb.blockSize)
        omega
    have hs' := hs.advance (x := x) (r := r) h.blockSize hlt
    have hprogress : 1 ≤ min (r * k.sb.blockSize) (count - s.bytesRead) := by
      have := Nat.mul_le_mul_right k.sb.blockSize hle
      omega
    obtain ⟨s', hrest, hreads⟩ := ih hs' (by simp only [ReadState.advance]; omega)
    refine ⟨s', ?_, .turn r hlt hle (fun i hi => ?_) hwhole hreads⟩
    · rw [if_neg hhole, exec_bind, hexec, Option.bind_some]
      simp only [exec_bind, exec_ite]
      split
      · next hr =>
        rw [exec_ext2ReadBlock, Option.bind_some, advance_eq _ hpos hhole hrun, hrest]
        subst hr
        intro j hj
        rw [Nat.one_mul] at hj
        rw [Nat.div_eq_of_lt hj, Nat.mod_eq_of_lt hj, Nat.add_zero]
      · rw [exec_ext2ReadBlocks, Option.bind_some, advance_eq _ hpos hhole hrun, hrest]
        intro j hj
        simp only [trunc, if_pos hj]
    · rw [hrun i hi]
      omega

/-! ## What the loops return -/

namespace ReadState

variable {s : ReadState}

theorem advance_zero (hpos : s.pos < 2 ^ 32) : s.advance x k 0 = s := by
  have hbuf : (fun i => if s.bytesRead ≤ i ∧ i < s.bytesRead + 0 then
      fileByte x k (s.pos + (i - s.bytesRead)) else s.buf i) = s.buf :=
    funext fun i => if_neg (by omega)
  rw [advance, hbuf, Nat.add_zero, Nat.add_zero, Nat.mod_eq_of_lt hpos]

/-- Copying twice is copying once. -/
theorem advance_advance {m n : ℕ} (hpos : s.pos + m < 2 ^ 32) :
    (s.advance x k m).advance x k n = s.advance x k (m + n) := by
  simp only [advance, Nat.mod_eq_of_lt hpos, Nat.add_assoc, ReadState.mk.injEq, and_true]
  funext i
  by_cases hm : s.bytesRead ≤ i ∧ i < s.bytesRead + m
  · rw [if_neg (by omega), if_pos hm, if_pos (by omega)]
  by_cases hn : s.bytesRead + m ≤ i ∧ i < s.bytesRead + (m + n)
  · rw [if_pos hn, if_pos (by omega)]
    congr 1
    omega
  · rw [if_neg hn, if_neg hm, if_neg (by omega)]

end ReadState

namespace Reads

variable {count : ℕ} {s s' : ReadState}

/-- A loop does not unread. -/
theorem le (h : Reads x k count s s') : s.bytesRead ≤ s'.bytesRead := by
  induction h with
  | full => exact le_rfl
  | hole => exact le_rfl
  | turn r hlt hr mapped whole rest ih => exact le_trans (Nat.le_add_right _ _) ih

/-- Over mapped blocks a loop copies all that is wanted. -/
theorem eq_of_mapped (h : Reads x k count s s') (hbs : k.sb.blockSize ≤ tableBytes)
    (hs : s.Aligned k count) (hle : s.bytesRead ≤ count)
    (hfit : s.pos + (count - s.bytesRead) < 2 ^ 32)
    (hmapped : ∀ off < count - s.bytesRead, bmap x k ((s.pos + off) / k.sb.blockSize) ≠ 0) :
    s' = s.advance x k (count - s.bytesRead) := by
  induction h with
  | full hfull =>
    rw [show count - _ = 0 from Nat.sub_eq_zero_of_le hfull, ReadState.advance_zero hs.1]
  | hole hlt hhole => exact absurd hhole (hmapped 0 (by omega))
  | turn r hlt hr mapped whole rest ih =>
    rename_i s s'
    have hn := min_le_right (r * k.sb.blockSize) (count - s.bytesRead)
    have hpos : (s.advance x k (min (r * k.sb.blockSize) (count - s.bytesRead))).pos =
        s.pos + min (r * k.sb.blockSize) (count - s.bytesRead) := Nat.mod_eq_of_lt (by omega)
    have hread : (s.advance x k (min (r * k.sb.blockSize) (count - s.bytesRead))).bytesRead =
        s.bytesRead + min (r * k.sb.blockSize) (count - s.bytesRead) := rfl
    rw [ih (hs.advance hbs hlt) (by omega) (by omega) fun off hoff => ?_,
      ReadState.advance_advance (by omega), hread]
    · congr 1
      omega
    · rw [hpos, Nat.add_assoc]
      exact hmapped _ (by omega)

/-- A loop stops at the first hole. -/
theorem eq_of_hole (h : Reads x k count s s') (hbs : k.sb.blockSize ≤ tableBytes)
    (hs : s.Aligned k count) {l : ℕ} (hl : l * k.sb.blockSize < 2 ^ 32)
    (hpos : s.pos ≤ l * k.sb.blockSize) (hwant : l * k.sb.blockSize - s.pos < count - s.bytesRead)
    (hmapped : ∀ l', s.pos / k.sb.blockSize ≤ l' → l' < l → bmap x k l' ≠ 0)
    (hhole : bmap x k l = 0) :
    s' = { s.advance x k (l * k.sb.blockSize - s.pos) with
      buf := zeroFill (s.advance x k (l * k.sb.blockSize - s.pos)).buf
        (s.bytesRead + (l * k.sb.blockSize - s.pos))
        (count - (s.bytesRead + (l * k.sb.blockSize - s.pos))) } := by
  have hbpos := k.sb.blockSize_pos
  induction h with
  | full hfull => omega
  | hole hlt hhole' =>
    rename_i s
    have haligned : s.pos % k.sb.blockSize = 0 := hs.2.resolve_right (by omega)
    have hle : s.pos / k.sb.blockSize ≤ l :=
      Nat.div_le_of_le_mul (by rwa [Nat.mul_comm])
    have heq : s.pos / k.sb.blockSize = l := by
      by_contra hne
      exact hmapped _ le_rfl (by omega) hhole'
    have hzero : l * k.sb.blockSize - s.pos = 0 := by
      have := Nat.div_mul_cancel (Nat.dvd_of_mod_eq_zero haligned)
      rw [heq] at this
      omega
    rw [hzero, ReadState.advance_zero hs.1, Nat.add_zero]
  | turn r hlt hr mapped whole rest ih =>
    rename_i s s'
    have haligned : s.pos % k.sb.blockSize = 0 := hs.2.resolve_right (by omega)
    have hcancel := Nat.div_mul_cancel (Nat.dvd_of_mod_eq_zero haligned)
    have hfar : s.pos / k.sb.blockSize + r ≤ l := by
      by_contra hlt'
      refine mapped (l - s.pos / k.sb.blockSize) (by omega) ?_
      have hle : s.pos / k.sb.blockSize ≤ l := Nat.div_le_of_le_mul (by rwa [Nat.mul_comm])
      rwa [Nat.add_sub_cancel' hle]
    have hfar' := Nat.mul_le_mul_right k.sb.blockSize hfar
    rw [Nat.add_mul, hcancel] at hfar'
    have hmin : min (r * k.sb.blockSize) (count - s.bytesRead) = r * k.sb.blockSize :=
      min_eq_left (by omega)
    have hs' := hs.advance (x := x) (r := r) hbs hlt
    rw [hmin] at ih hs'
    have hnext : (s.advance x k (r * k.sb.blockSize)).pos = s.pos + r * k.sb.blockSize :=
      Nat.mod_eq_of_lt (by omega)
    have hread : (s.advance x k (r * k.sb.blockSize)).bytesRead =
        s.bytesRead + r * k.sb.blockSize := rfl
    have hsum : r * k.sb.blockSize + (l * k.sb.blockSize - (s.pos + r * k.sb.blockSize)) =
        l * k.sb.blockSize - s.pos := by
      omega
    rw [ih hs' (by omega) (by omega) fun l' hl' hlt' => ?_, hnext, hread,
      ReadState.advance_advance (by omega), Nat.add_assoc, hsum]
    · refine hmapped l' (le_trans ?_ hl') hlt'
      rw [hnext]
      exact Nat.div_le_div_right (Nat.le_add_right _ _)

/-- A loop that wants more than a 32-bit position allows reads on through mapped blocks. -/
theorem lt_of_mapped (h : Reads x k count s s') (hbs : k.sb.blockSize ≤ tableBytes)
    (hs : s.Aligned k count) {z : ℕ} (hz : z < 2 ^ 32) (hpos : s.pos ≤ z)
    (hwant : 2 ^ 32 ≤ s.pos + (count - s.bytesRead))
    (hmapped : ∀ l, s.pos / k.sb.blockSize ≤ l → l ≤ z / k.sb.blockSize → bmap x k l ≠ 0) :
    s.bytesRead + (z - s.pos) < s'.bytesRead := by
  induction h with
  | full hfull => omega
  | hole hlt hhole =>
    exact absurd hhole (hmapped _ le_rfl (Nat.div_le_div_right hpos))
  | turn r hlt hr mapped whole rest ih =>
    rename_i s s'
    have hle := rest.le
    have hread : (s.advance x k (min (r * k.sb.blockSize) (count - s.bytesRead))).bytesRead =
        s.bytesRead + min (r * k.sb.blockSize) (count - s.bytesRead) := rfl
    by_cases hpast : z < s.pos + min (r * k.sb.blockSize) (count - s.bytesRead)
    · omega
    have hnext : (s.advance x k (min (r * k.sb.blockSize) (count - s.bytesRead))).pos =
        s.pos + min (r * k.sb.blockSize) (count - s.bytesRead) := Nat.mod_eq_of_lt (by omega)
    have := ih (hs.advance hbs hlt) (by omega) (by omega) fun l hl hlz => by
      refine hmapped l (le_trans ?_ hl) hlz
      rw [hnext]
      exact Nat.div_le_div_right (Nat.le_add_right _ _)
    omega

end Reads

end Sandflea
