import Sandflea.Heap.Resize
import Sandflea.Heap.SizeSafety

/-!
# `calloc`

`calloc` multiplies in 64 bits and passes the product to `kmallocz`. Where the product wraps, or is one of the sizes
that `align_size` rounds to none, a block that is too small may be given. It never is exactly if the product is at most
`2^64 - 16`, or what is left of it is zero or more than the heap can ever hold in one block (`callocContract_iff`).
-/

namespace Sandflea

open BlockList

/-- `mem_set` with 0, over words: whole words, and the low bytes of the last -/
def zeroBytes (mem : ℕ → ℕ) (ptr size : ℕ) : ℕ → ℕ := fun a =>
  if ptr ≤ a ∧ a + 8 ≤ ptr + size then 0
  else if ptr ≤ a ∧ a < ptr + size then mem a / 256 ^ (ptr + size - a) * 256 ^ (ptr + size - a)
  else mem a

namespace Heap

/-- `kmallocz` -/
def kmallocz (h : Heap) (size : ℕ) (pages : List PageOutcome) : Option (Heap × ℕ) :=
  (h.kmalloc size pages).map fun (h, ptr) =>
    if ptr = 0 then (h, ptr) else ({ h with mem := zeroBytes h.mem ptr size }, ptr)

/-- `calloc` -/
def calloc (h : Heap) (nmemb size : UInt64) (pages : List PageOutcome) : Option (Heap × ℕ) :=
  h.kmallocz (nmemb * size).toNat pages

/-- What `calloc` may return: the null pointer, or a block in use for all of the product that is zero -/
def Callocated (h : Heap) (nmemb size : UInt64) (ptr : ℕ) : Prop :=
  ptr = 0 ∨ ∃ bs c, Shaped h bs ∧ c ∈ bs ∧ c.isFree = false ∧ c.addr + headerSize = ptr ∧
    nmemb.toNat * size.toNat ≤ c.size ∧ ∀ i < nmemb.toNat * size.toNat, byteAt h.mem (ptr + i) = 0

end Heap

/-- `calloc` meets its contract in every heap. -/
def CallocContract (nmemb size : UInt64) : Prop :=
  ∀ h bs, Shaped h bs → ∀ pages h' ptr, h.calloc nmemb size pages = some (h', ptr) → h'.Callocated nmemb size ptr

/-- The heap can never hold more in one block. -/
def largestBlock : ℕ := 2 ^ 64 - pageSize - kheapStartAddr - headerSize

section

variable {h : Heap} {bs : List HeapBlock} {c : HeapBlock}

theorem Shaped.size_le (hs : Shaped h bs) (hc : c ∈ bs) : c.size ≤ largestBlock := by
  obtain ⟨hlo, hhi⟩ := hs.bounds hc
  have hend := hs.endLt
  have hpage := hs.endPage
  have hps : pageSize = 4096 := rfl
  have hlargest : largestBlock + headerSize + kheapStartAddr + 4096 = 2 ^ 64 := rfl
  rw [hps] at hpage
  omega

theorem zeroBytes_of_lt {mem : ℕ → ℕ} {ptr size x : ℕ} (hx : x < ptr ∨ ptr + size ≤ x) :
    zeroBytes mem ptr size x = mem x := by
  unfold zeroBytes
  rw [if_neg (by omega), if_neg (by omega)]

theorem byteAt_zeroBytes {mem : ℕ → ℕ} {ptr size i : ℕ} (hptr : ptr % 8 = 0) (hi : i < size) :
    byteAt (zeroBytes mem ptr size) (ptr + i) = 0 := by
  unfold byteAt zeroBytes
  by_cases hwhole : ptr + i - (ptr + i) % 8 + 8 ≤ ptr + size
  · rw [if_pos ⟨by omega, hwhole⟩, Nat.zero_div]
  · rw [if_neg (fun h => hwhole h.2), if_pos ⟨by omega, by omega⟩]
    obtain ⟨k, hk⟩ : ∃ k, ptr + size - (ptr + i - (ptr + i) % 8) = (ptr + i) % 8 + (k + 1) :=
      ⟨ptr + size - (ptr + i - (ptr + i) % 8) - (ptr + i) % 8 - 1, by omega⟩
    rw [hk, pow_add, ← mul_assoc, mul_right_comm, Nat.mul_div_cancel _ (by positivity), pow_succ, ← mul_assoc,
      Nat.mul_mod_left]

/-- For a request that `align_size` does not round to none: the null pointer, or a block for it that is zero -/
theorem kmallocz_spec (hs : Shaped h bs) {size : ℕ} (hle : size ≤ 2 ^ 64 - 16) {pages : List PageOutcome} {h' : Heap}
    {ptr : ℕ} (hk : h.kmallocz size pages = some (h', ptr)) :
    ptr = 0 ∨ 0 < size ∧ ∃ bs' c, Shaped h' bs' ∧ c ∈ bs' ∧ c.isFree = false ∧ c.addr + headerSize = ptr ∧
      size ≤ c.size ∧ ∀ i < size, byteAt h'.mem (ptr + i) = 0 := by
  unfold Heap.kmallocz at hk
  obtain ⟨⟨h₁, ptr₁⟩, hk₁, heq⟩ := Option.map_eq_some_iff.mp hk
  dsimp only at heq
  split at heq
  · cases heq
    exact .inl ‹_›
  · cases heq
    right
    have hpos : 0 < size := by
      refine Nat.pos_of_ne_zero fun hz => ?_
      have hnull : h.kmalloc size pages = some (h, 0) := if_pos hz
      rw [hnull] at hk₁
      cases hk₁
      exact absurd rfl ‹_›
    obtain ⟨bs', hserved⟩ := kmalloc_spec hs hle hk₁
    obtain ⟨c, hc⟩ := hserved.given.resolve_left ‹_›
    have haligned := hserved.shaped.aligned hc.mem
    have hpayload := hc.payload
    have hfits := hc.fits
    have hhead : headerSize = 32 := rfl
    refine ⟨hpos, bs', c, hserved.shaped.write hc.mem fun x hx => zeroBytes_of_lt (by omega), hc.mem, hc.used,
      hpayload, hfits, fun i hi => byteAt_zeroBytes (by omega) hi⟩

/-! ## A heap of one block -/

/-- The heap at its largest, as one free block -/
def wholeHeap : Heap where
  mem := setHeader (fun _ => 0) kheapStartAddr largestBlock 1 0
  heapPtr := kheapStartAddr
  heapEnd := 2 ^ 64 - pageSize

theorem shaped_wholeHeap : Shaped wholeHeap [⟨kheapStartAddr, largestBlock, true⟩] := by
  refine ⟨rfl, ⟨⟨rfl, 0, holds_setHeader _ _ _ true (by decide), rfl⟩, ⟨rfl, ?_, rfl⟩⟩, by simp, ?_, by decide,
    by decide⟩
  · exact Nat.le_add_right _ _
  · intro b hb
    obtain rfl := List.mem_singleton.mp hb
    decide

/-- There is a block for every request that fits, and for those that are rounded to none. -/
theorem kmallocz_wholeHeap {size : ℕ} (hpos : 0 < size) (hle : alignSize size ≤ largestBlock) :
    ∃ h', wholeHeap.kmallocz size [] = some (h', kheapStartAddr + headerSize) := by
  have hk : wholeHeap.kmalloc size [] = Heap.kmallocLoop (alignSize size) 1 [] wholeHeap := if_neg (by omega)
  have hptr : u64 (kheapStartAddr + headerSize) = kheapStartAddr + headerSize := by decide
  rcases findFit_spec (alignSize size) 0 shaped_wholeHeap.laid.seg shaped_wholeHeap.length_le with
    ⟨pre, c, post, he, -, -, hfound⟩ | ⟨hall, -⟩
  · have hc : c = ⟨kheapStartAddr, largestBlock, true⟩ := by
      rw [← List.mem_singleton, he]
      simp
    subst hc
    have htaken : wholeHeap.kmalloc size [] =
        some ((wholeHeap.takeBlock kheapStartAddr (alignSize size)).1, u64 (kheapStartAddr + headerSize)) := by
      rw [hk]
      unfold Heap.kmallocLoop
      rw [show wholeHeap.heapPtr = kheapStartAddr from rfl, hfound]
      rfl
    unfold Heap.kmallocz
    rw [htaken, hptr, Option.map_some]
    exact ⟨_, congrArg some (if_neg (by decide))⟩
  · exact absurd ⟨rfl, hle⟩ (hall _ (List.mem_singleton_self _))

/-- `calloc` meets its contract exactly if the product is at most `2^64 - 16`, or what is left of it is none or more
than any block has. -/
theorem callocContract_iff (nmemb size : UInt64) :
    CallocContract nmemb size ↔ nmemb.toNat * size.toNat ≤ 2 ^ 64 - 16 ∨ nmemb * size = 0 ∨
      (largestBlock < (nmemb * size).toNat ∧ (nmemb * size).toNat ≤ 2 ^ 64 - 16) := by
  have hproduct : (nmemb * size).toNat = nmemb.toNat * size.toNat % 2 ^ 64 := UInt64.toNat_mul nmemb size
  have hzero : nmemb * size = 0 ↔ (nmemb * size).toNat = 0 := UInt64.toNat_inj.symm
  constructor
  · intro hcontract
    by_contra hnot
    rw [not_or, not_or, hzero] at hnot
    obtain ⟨hlarge, hpos, hsmall⟩ := hnot
    have haligned : alignSize (nmemb * size).toNat ≤ largestBlock := by
      have hlargest : largestBlock = 2013261792 := rfl
      have hlt := (nmemb * size).toNat_lt
      by_cases hround : (nmemb * size).toNat ≤ 2 ^ 64 - 16
      · unfold alignSize u64
        split <;> omega
      · rw [alignSize_of_large (Nat.not_le.mp hround) hlt]
        exact Nat.zero_le _
    obtain ⟨h', hk⟩ := kmallocz_wholeHeap (Nat.pos_of_ne_zero hpos) haligned
    rcases hcontract wholeHeap _ shaped_wholeHeap [] h' _ hk with hnull | ⟨bs, c, hs, hc, -, -, hfits, -⟩
    · exact absurd hnull (by decide)
    · have hle := hs.size_le hc
      have hlargest : largestBlock = 2013261792 := rfl
      omega
  · intro hfits h bs hs pages h' ptr hk
    rw [hzero] at hfits
    have hle : (nmemb * size).toNat ≤ 2 ^ 64 - 16 := by omega
    rcases kmallocz_spec hs hle hk with hnull | ⟨hpos, bs', c, hs', hc, hused, hptr, hsize, hbytes⟩
    · exact .inl hnull
    · rcases hfits with hfits | hfits | hfits
      · have hsame : (nmemb * size).toNat = nmemb.toNat * size.toNat := by omega
        rw [hsame] at hsize hbytes
        exact .inr ⟨bs', c, hs', hc, hused, hptr, hsize, hbytes⟩
      · omega
      · have hle := hs'.size_le hc
        omega

end

end Sandflea
