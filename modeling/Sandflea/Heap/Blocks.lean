import Sandflea.Heap.Kmalloc
import Sandflea.Lib.BlockList

/-!
# The block list

What the functions of the heap do to its blocks. `Shaped` says that the headers form the list of blocks
that lie end to end from the start of the heap to its end; every function keeps it, and keeps the blocks
that are in use (`Keeps`).
-/

namespace Sandflea

open BlockList

/-- A block, with its header. -/
structure HeapBlock where
  addr : ℕ
  size : ℕ
  isFree : Bool
deriving DecidableEq, Repr

/-- The header of a block says its size, whether it is free, and where the next block is. -/
def heapLayout : Layout HeapBlock ℕ where
  addr := HeapBlock.addr
  extent b := headerSize + b.size
  head := headerSize
  head_pos := by decide
  Holds mem b q := b.addr ≠ 0 ∧ sizeAt mem b.addr = b.size ∧
    isFreeAt mem b.addr = (if b.isFree then 1 else 0) ∧ nextAt mem b.addr = q
  holds_congr := by
    rintro mem mem' b q hm ⟨ha, hsize, hfree, hnext⟩
    have hhead : headerSize = 32 := rfl
    refine ⟨ha, ?_, ?_, ?_⟩
    · rw [← hsize]
      exact hm _ le_rfl (by omega)
    · rw [← hfree]
      exact hm _ (by omega) (by omega)
    · rw [← hnext]
      exact hm _ (by omega) (by omega)

/-- The headers form the list of the blocks. -/
structure Shaped (h : Heap) (bs : List HeapBlock) : Prop where
  start : h.heapPtr = kheapStartAddr
  laid : Laid heapLayout h.mem kheapStartAddr bs h.heapEnd 0
  nonempty : bs ≠ []
  sizes : ∀ b ∈ bs, b.size % 16 = 0 ∧ 0 < b.size
  endLt : h.heapEnd < 2 ^ 64
  endPage : h.heapEnd % pageSize = 0

/-- Of two blocks in a row one is in use. -/
def Coalesced (bs : List HeapBlock) : Prop :=
  bs.IsChain fun b c => ¬ (b.isFree = true ∧ c.isFree = true)

/-- Blocks in use stay. -/
def Keeps (bs bs' : List HeapBlock) : Prop := ∀ b ∈ bs, b.isFree = false → b ∈ bs'

theorem Keeps.refl (bs : List HeapBlock) : Keeps bs bs := fun _ hb _ => hb

theorem Keeps.trans {bs bs' bs'' : List HeapBlock} (h : Keeps bs bs') (h' : Keeps bs' bs'') :
    Keeps bs bs'' := fun b hb hf => h' b (h b hb hf) hf

/-- The contents of the blocks in use stay. -/
def Unwritten (bs : List HeapBlock) (mem mem' : ℕ → ℕ) : Prop :=
  ∀ b ∈ bs, b.isFree = false → ∀ x, b.addr + headerSize ≤ x →
    x < b.addr + headerSize + b.size → mem' x = mem x

theorem Unwritten.trans {bs bs' : List HeapBlock} {mem mem' mem'' : ℕ → ℕ}
    (h : Unwritten bs mem mem') (hkeep : Keeps bs bs') (h' : Unwritten bs' mem' mem'') :
    Unwritten bs mem mem'' := fun b hb hf x hx hxe =>
  (h' b (hkeep b hb hf) hf x hx hxe).trans (h b hb hf x hx hxe)

/-- Free blocks can be replaced. -/
theorem Keeps.replace {pre new post : List HeapBlock} {b : HeapBlock} (hb : b.isFree = true) :
    Keeps (pre ++ ([b] ++ post)) (pre ++ (new ++ post)) := by
  intro c hc hf
  have hne : c ≠ b := by
    rintro rfl
    rw [hb] at hf
    cases hf
  simp only [List.mem_append, List.mem_singleton] at hc ⊢
  tauto

section

variable {h h' : Heap} {mem mem' : ℕ → ℕ} {bs : List HeapBlock} {b : HeapBlock}

/-! ## Headers -/

/-- A header that was written is there. -/
theorem holds_setHeader (mem : ℕ → ℕ) (size q : ℕ) (isFree : Bool) {p : ℕ} (hp : p ≠ 0) :
    heapLayout.Holds (setHeader mem p size (if isFree then 1 else 0) q) ⟨p, size, isFree⟩ q := by
  refine ⟨hp, ?_, ?_, ?_⟩ <;> simp [setHeader, setNext, setIsFree, sizeAt, isFreeAt, nextAt]

/-- Nothing else is written. -/
theorem setHeader_of_lt (mem : ℕ → ℕ) (p size isFree q : ℕ) {x : ℕ} (hx : x < p ∨ p + 24 ≤ x) :
    setHeader mem p size isFree q x = mem x := by
  unfold setHeader setNext setIsFree
  rw [Function.update_of_ne (by omega), Function.update_of_ne (by omega),
    Function.update_of_ne (by omega)]

/-- Every block lies in the heap. -/
theorem Shaped.bounds (hs : Shaped h bs) (hb : b ∈ bs) :
    kheapStartAddr ≤ b.addr ∧ b.addr + headerSize + b.size ≤ h.heapEnd := by
  obtain ⟨hle, -, hend⟩ := hs.laid.tiles.bounds hb
  refine ⟨hle, ?_⟩
  rw [Nat.add_assoc]
  exact hend

/-- Every address of a header is a multiple of 16. -/
theorem addr_aligned {a e : ℕ} (ht : Tiles heapLayout a bs e) (hsize : ∀ b ∈ bs, b.size % 16 = 0)
    (ha : a % 16 = 0) (hb : b ∈ bs) : b.addr % 16 = 0 := by
  induction bs generalizing a with
  | nil => exact absurd hb List.not_mem_nil
  | cons c cs ih =>
    obtain ⟨hc, -, ht⟩ := ht
    rcases List.mem_cons.mp hb with rfl | hb
    · have hca : b.addr = a := hc
      rw [hca]
      exact ha
    · refine ih ht (fun d hd => hsize d (List.mem_cons_of_mem c hd)) ?_ hb
      have hextent : heapLayout.extent c = 32 + c.size := rfl
      have hc16 := hsize c List.mem_cons_self
      omega

theorem Shaped.aligned (hs : Shaped h bs) (hb : b ∈ bs) : b.addr % 16 = 0 :=
  addr_aligned hs.laid.tiles (fun c hc => (hs.sizes c hc).1) (by decide) hb

/-- The limit of the loops is enough for all blocks. -/
theorem Shaped.length_le (hs : Shaped h bs) : bs.length ≤ h.limit := by
  have hlen := hs.laid.tiles.length_le (k := headerSize) fun b hb => (hs.laid.tiles.bounds hb).2.1
  unfold Heap.limit
  rw [Nat.le_div_iff_mul_le (by decide)]
  omega

/-- One block is replaced. -/
theorem Shaped.replace {pre post new : List HeapBlock} (hs : Shaped h (pre ++ ([b] ++ post)))
    (hnew : new ≠ []) (hsizes : ∀ c ∈ new, c.size % 16 = 0 ∧ 0 < c.size)
    (hmem : ∀ x, x < b.addr ∨ b.addr + headerSize + b.size ≤ x → mem' x = h.mem x)
    (hlaid : Laid heapLayout mem' b.addr new (b.addr + headerSize + b.size) (nextAt h.mem b.addr)) :
    Shaped { h with mem := mem' } (pre ++ (new ++ post)) := by
  obtain ⟨r, s, t, -, -, hold, hback⟩ := hs.laid.replace (List.cons_ne_nil b [])
  obtain ⟨⟨hr, q, ⟨-, -, -, hq⟩, hqt⟩, -, -, hrs⟩ := hold
  have hr' : b.addr = r := hr
  have hs' : b.addr + headerSize + b.size = s := by
    rw [Nat.add_assoc, hr']
    exact hrs
  have ht : nextAt h.mem b.addr = t := hq.trans hqt
  refine ⟨hs.start, ?_, ?_, ?_, hs.endLt, hs.endPage⟩
  · refine hback mem' new hnew (fun x hx => hmem x (by omega)) ?_
    rw [← hr', ← hs', ← ht]
    exact hlaid
  · exact List.append_ne_nil_of_right_ne_nil _ (List.append_ne_nil_of_left_ne_nil hnew _)
  · intro c hc
    have hold := hs.sizes c
    have hnewc := hsizes c
    simp only [List.mem_append, List.mem_singleton] at hc hold
    tauto

/-! ## Allocation -/

/-- The search finds a free block that is large enough, or there is none, and it ends at the last block. -/
theorem findFit_spec (need last : ℕ) {p n : ℕ} (hseg : Seg heapLayout mem p bs 0) (hn : bs.length ≤ n) :
    (∃ pre b post, bs = pre ++ ([b] ++ post) ∧ b.isFree = true ∧ need ≤ b.size ∧
      Heap.findFit mem need n p last = .inl b.addr) ∨
    (∀ b ∈ bs, ¬ (b.isFree = true ∧ need ≤ b.size)) ∧
      Heap.findFit mem need n p last = .inr ((bs.getLast?.map HeapBlock.addr).getD last) := by
  induction bs generalizing p n last with
  | nil =>
    right
    have hp : p = 0 := hseg
    refine ⟨fun b hb => absurd hb List.not_mem_nil, ?_⟩
    cases n with
    | zero => rfl
    | succ n =>
      rw [Heap.findFit, if_pos hp]
      rfl
  | cons b bs ih =>
    obtain ⟨hp, r, ⟨hb0, hsize, hfree, hnext⟩, hrest⟩ := hseg
    have hbp : b.addr = p := hp
    subst hbp
    cases n with
    | zero => exact absurd hn (by simp)
    | succ n =>
      rw [Heap.findFit, if_neg hb0, hfree, hsize, hnext]
      by_cases hfit : b.isFree = true ∧ need ≤ b.size
      · left
        refine ⟨[], b, bs, rfl, hfit.1, hfit.2, ?_⟩
        rw [if_pos ⟨by simp [hfit.1], hfit.2⟩]
      · rw [if_neg (by simpa using hfit)]
        have hlen : bs.length ≤ n := Nat.le_of_succ_le_succ hn
        rcases ih b.addr hrest hlen with ⟨pre, c, post, he, hc, hle, hfound⟩ | ⟨hall, hnone⟩
        · exact .inl ⟨b :: pre, c, post, by rw [he]; rfl, hc, hle, hfound⟩
        · right
          refine ⟨List.forall_mem_cons.mpr ⟨hfit, hall⟩, ?_⟩
          rw [hnone]
          cases bs with
          | nil => rfl
          | cons c cs => simp [List.getLast?_cons]

/-- The block that `kmalloc` uses is a block in use that was free, and large enough. -/
structure Given (bs bs' : List HeapBlock) (need ptr : ℕ) (c : HeapBlock) : Prop where
  mem : c ∈ bs'
  used : c.isFree = false
  payload : c.addr + headerSize = ptr
  fits : need ≤ c.size
  fresh : ∀ b ∈ bs, b.isFree = false → b.addr ≠ c.addr

/-- Nothing is written outside the block that `kmalloc` uses. -/
theorem takeBlock_frame {need x : ℕ} (hs : Shaped h bs) (hb : b ∈ bs) (hle : need ≤ b.size)
    (hx : x < b.addr ∨ b.addr + headerSize + b.size ≤ x) :
    (h.takeBlock b.addr need).1.mem x = h.mem x := by
  have hhead : headerSize = 32 := rfl
  have hstart : kheapStartAddr = 18446744071696285696 := rfl
  obtain ⟨hlo, hhi⟩ := hs.bounds hb
  have hend := hs.endLt
  obtain ⟨-, -, hbsize, -, -⟩ := hs.laid.seg.holds hb
  have htotal : u64 (need + headerSize + 16) = need + headerSize + 16 := u64_of_lt (by omega)
  unfold Heap.takeBlock
  rw [hbsize, htotal]
  dsimp only
  by_cases hroom : need + headerSize + 16 ≤ b.size
  · have hnew : u64 (b.addr + headerSize + need) = b.addr + headerSize + need := u64_of_lt (by omega)
    rw [if_pos hroom, hnew]
    unfold setIsFree setNext
    rw [Function.update_of_ne (by omega), Function.update_of_ne (by omega),
      Function.update_of_ne (by omega), setHeader_of_lt _ _ _ _ _ (by omega)]
  · rw [if_neg hroom]
    unfold setIsFree
    exact Function.update_of_ne (by omega) _ _

/-- The contents of the other blocks stay. -/
theorem takeBlock_untouched {need : ℕ} (hs : Shaped h bs) (hb : b ∈ bs) (hfree : b.isFree = true)
    (hle : need ≤ b.size) : Unwritten bs h.mem (h.takeBlock b.addr need).1.mem := by
  intro d hd hf x hx hxe
  refine takeBlock_frame hs hb hle ?_
  rcases hs.laid.tiles.apart hd hb with rfl | hle | hle
  · rw [hfree] at hf
    cases hf
  · have hle' : d.addr + (headerSize + d.size) ≤ b.addr := hle
    omega
  · have hle' : b.addr + (headerSize + b.size) ≤ d.addr := hle
    omega

theorem takeBlock_spec {pre post : List HeapBlock} {need : ℕ}
    (hs : Shaped h (pre ++ ([b] ++ post))) (hfree : b.isFree = true) (hle : need ≤ b.size)
    (hneed : need % 16 = 0) (hpos : 0 < need) :
    ∃ bs', Shaped (h.takeBlock b.addr need).1 bs' ∧ Keeps (pre ++ ([b] ++ post)) bs' ∧
      ∃ c, Given (pre ++ ([b] ++ post)) bs' need (h.takeBlock b.addr need).2 c := by
  have hhead : headerSize = 32 := rfl
  have hstart : kheapStartAddr = 18446744071696285696 := rfl
  have hmem : b ∈ pre ++ ([b] ++ post) := by simp
  obtain ⟨hlo, hhi⟩ := hs.bounds hmem
  have hend := hs.endLt
  obtain ⟨h16, -⟩ := hs.sizes b hmem
  obtain ⟨r, s, t, -, -, ⟨⟨-, q, ⟨hb0, hbsize, -, hbq⟩, hqt⟩, -⟩, -⟩ :=
    hs.laid.replace (List.cons_ne_nil b [])
  have hnext : nextAt h.mem b.addr = t := hbq.trans hqt
  have hfresh : ∀ d ∈ pre ++ ([b] ++ post), d.isFree = false → d.addr ≠ b.addr := by
    intro d hd hf he
    rw [hs.laid.tiles.addr_inj hd hmem he, hfree] at hf
    cases hf
  have hret : u64 (b.addr + headerSize) = b.addr + headerSize := u64_of_lt (by omega)
  have htotal : u64 (need + headerSize + 16) = need + headerSize + 16 := u64_of_lt (by omega)
  have hframe : ∀ x, x < b.addr ∨ b.addr + headerSize + b.size ≤ x →
      (h.takeBlock b.addr need).1.mem x = h.mem x := fun x => takeBlock_frame hs hmem hle
  unfold Heap.takeBlock at hframe ⊢
  rw [hbsize, hnext, htotal] at hframe
  rw [hret, hbsize, hnext, htotal]
  dsimp only at hframe ⊢
  by_cases hroom : need + headerSize + 16 ≤ b.size
  · -- the block is split: the first part is used, and the rest is a block of its own
    rw [if_pos hroom] at hframe ⊢
    have hnew : u64 (b.addr + headerSize + need) = b.addr + headerSize + need := u64_of_lt (by omega)
    have hrest : u64 (b.size + 2 ^ 64 - need - headerSize) = b.size - need - headerSize := by
      unfold u64
      omega
    rw [hnew, hrest] at hframe
    rw [hnew, hrest]
    refine ⟨pre ++ ([⟨b.addr, need, false⟩,
      ⟨b.addr + headerSize + need, b.size - need - headerSize, true⟩] ++ post),
      hs.replace (List.cons_ne_nil _ _) ?_ hframe ?_,
      Keeps.replace hfree, ⟨b.addr, need, false⟩, ?_, rfl, rfl, le_rfl, hfresh⟩
    · intro c hc
      simp only [List.mem_cons, List.not_mem_nil, or_false] at hc
      rcases hc with rfl | rfl <;> dsimp only <;> omega
    · rw [hnext]
      refine ⟨⟨rfl, b.addr + headerSize + need, ⟨hb0, ?_, ?_, ?_⟩, rfl, t, ?_, rfl⟩, rfl, ?_,
        Nat.add_assoc _ _ _, ?_, ?_⟩
      · simp [setIsFree, setNext, sizeAt]
      · simp [setIsFree, isFreeAt]
      · simp [setIsFree, setNext, nextAt]
      · have hkeep := holds_setHeader h.mem (b.size - need - headerSize) t true
          (p := b.addr + headerSize + need) (by omega)
        refine heapLayout.holds_congr (fun x hx _ => ?_) hkeep
        have hx' : b.addr + headerSize + need ≤ x := hx
        unfold setIsFree setNext
        rw [Function.update_of_ne (by omega), Function.update_of_ne (by omega),
          Function.update_of_ne (by omega)]
        rfl
      · exact Nat.le_add_right _ _
      · exact Nat.le_add_right _ _
      · have hextent : ∀ c, heapLayout.extent c = headerSize + c.size := fun _ => rfl
        unfold Tiles
        rw [hextent, hextent]
        dsimp only
        omega
    · simp
  · rw [if_neg hroom] at hframe ⊢
    refine ⟨pre ++ ([⟨b.addr, b.size, false⟩] ++ post), hs.replace (List.cons_ne_nil _ _) ?_ hframe ?_,
      Keeps.replace hfree, ⟨b.addr, b.size, false⟩, ?_, rfl, rfl, hle, hfresh⟩
    · intro c hc
      rw [List.mem_singleton] at hc
      subst hc
      exact hs.sizes b hmem
    · rw [hnext]
      refine ⟨⟨rfl, t, ⟨hb0, ?_, ?_, ?_⟩, rfl⟩, rfl, Nat.le_add_right _ _, ?_⟩
      · rw [← hbsize]
        simp [setIsFree, sizeAt]
      · simp [setIsFree, isFreeAt]
      · rw [← hnext]
        simp [setIsFree, nextAt]
      · exact (Nat.add_assoc _ _ _).symm
    · simp

/-- Expansion adds whole pages behind the heap, and every page takes an outcome. -/
structure Expanded (h h' : Heap) (pages pages' : List PageOutcome) : Prop where
  start : h'.heapPtr = h.heapPtr
  le : h.heapEnd ≤ h'.heapEnd
  endLt : h'.heapEnd < 2 ^ 64
  endPage : h'.heapEnd % pageSize = 0
  mem : ∀ x < h.heapEnd, h'.mem x = h.mem x
  uses : h'.heapEnd ≠ h.heapEnd → pages'.length < pages.length
  pages : pages'.length ≤ pages.length

theorem expandTo_spec {targetEnd : ℕ} {pages pages' : List PageOutcome} (hend : h.heapEnd < 2 ^ 64)
    (hpage : h.heapEnd % pageSize = 0) (htarget : targetEnd < 2 ^ 64)
    (htpage : targetEnd % pageSize = 0)
    (he : Heap.expandTo targetEnd pages h = some (h', pages')) : Expanded h h' pages pages' := by
  have hps : pageSize = 4096 := rfl
  have hsame : ∀ os : List PageOutcome, os.length ≤ pages.length → Expanded h h pages os :=
    fun os hos => ⟨rfl, le_rfl, hend, hpage, fun _ _ => rfl, fun hne => absurd rfl hne, hos⟩
  induction pages generalizing h with
  | nil =>
    rw [Heap.expandTo, Option.some.injEq, Prod.mk.injEq] at he
    obtain ⟨rfl, rfl⟩ := he
    exact hsame [] le_rfl
  | cons o pages ih =>
    unfold Heap.expandTo at he
    by_cases hlt : h.heapEnd < targetEnd
    · rw [if_pos hlt] at he
      cases o with
      | page =>
        have hfits : h.heapEnd + pageSize ≤ targetEnd := by
          rw [hps] at hpage htpage ⊢
          omega
        have hmapped : h.mapPage.heapEnd = h.heapEnd + pageSize := u64_of_lt (by omega)
        have hmappedPage : h.mapPage.heapEnd % pageSize = 0 := by
          rw [hmapped, Nat.add_mod_right, hpage]
        have hrest : Expanded h.mapPage h' pages pages' := by
          refine ih (by omega) hmappedPage he fun os hos => ?_
          exact ⟨rfl, le_rfl, by omega, hmappedPage, fun _ _ => rfl, fun hne => absurd rfl hne, hos⟩
        refine ⟨hrest.start, ?_, hrest.endLt, hrest.endPage, fun x hx => ?_, fun _ => ?_, ?_⟩
        · have hle := hrest.le
          omega
        · rw [hrest.mem x (by omega)]
          exact if_neg fun hx' => by omega
        · exact Nat.lt_succ_of_le hrest.pages
        · exact hrest.pages.trans (Nat.le_succ _)
      | noPage =>
        rw [Option.some.injEq, Prod.mk.injEq] at he
        obtain ⟨rfl, rfl⟩ := he
        exact hsame pages (Nat.le_succ _)
      | noTable => cases he
    · rw [if_neg hlt, Option.some.injEq, Prod.mk.injEq] at he
      obtain ⟨rfl, rfl⟩ := he
      exact hsame (o :: pages) le_rfl

theorem heapExpand_spec {needed : ℕ} {pages pages' : List PageOutcome} (hend : h.heapEnd < 2 ^ 64)
    (hpage : h.heapEnd % pageSize = 0) (he : h.heapExpand needed pages = some (h', pages')) :
    Expanded h h' pages pages' := by
  have hps : pageSize = 4096 := rfl
  unfold Heap.heapExpand at he
  dsimp only at he
  refine expandTo_spec hend hpage ?_ ?_ he
  · split
    · exact u64_lt _
    · exact u64_lt _
  · unfold u64
    rw [hps]
    split <;> omega

/-- The new part of the heap becomes a free block behind the last one. -/
theorem addBlock_spec {pages pages' : List PageOutcome} (hs : Shaped h bs)
    (he : Expanded h h' pages pages') (hne : h'.heapEnd ≠ h.heapEnd) :
    Shaped (h'.addBlock h.heapEnd ((bs.getLast?.map HeapBlock.addr).getD 0))
      (bs ++ [⟨h.heapEnd, h'.heapEnd - h.heapEnd - headerSize, true⟩]) := by
  have hhead : headerSize = 32 := rfl
  have hps : pageSize = 4096 := rfl
  have hgrown : h.heapEnd + pageSize ≤ h'.heapEnd := by
    have hle := he.le
    have hp := hs.endPage
    have hp' := he.endPage
    rw [hps] at hp hp' ⊢
    omega
  obtain ⟨pre, b, rfl⟩ : ∃ pre b, bs = pre ++ [b] :=
    ⟨bs.dropLast, bs.getLast hs.nonempty, (List.dropLast_append_getLast hs.nonempty).symm⟩
  have hb : b ∈ pre ++ [b] := List.mem_append_right pre List.mem_cons_self
  have hbounds := hs.bounds hb
  obtain ⟨r, -, ⟨⟨hr, q, hholds, -⟩, -, -, hrend⟩, hback⟩ :=
    hs.laid.replaceLast (List.cons_ne_nil b [])
  have hr' : b.addr = r := hr
  have hend : b.addr + headerSize + b.size = h.heapEnd := by
    rw [Nat.add_assoc, hr']
    exact hrend
  have hb0 : b.addr ≠ 0 := hholds.1
  have hlast : (((pre ++ [b]).getLast?).map HeapBlock.addr).getD 0 = b.addr := by simp
  rw [hlast]
  unfold Heap.addBlock
  rw [if_neg hb0, List.append_assoc]
  generalize hsz : h'.heapEnd - h.heapEnd - headerSize = sz
  have hnew := holds_setHeader h'.mem sz 0 true (p := h.heapEnd) (by omega)
  rw [if_pos rfl] at hnew
  refine ⟨he.start.trans hs.start, ?_, ?_, ?_, he.endLt, he.endPage⟩
  · refine hback _ [b, ⟨h.heapEnd, sz, true⟩] _ 0 (List.cons_ne_nil _ _) (fun x hx => ?_) ⟨?_, ?_⟩
    · unfold setNext
      dsimp only
      rw [Function.update_of_ne (by omega), setHeader_of_lt _ _ _ _ _ (by omega),
        he.mem x (by omega)]
    · have hold : ∀ x, b.addr ≤ x → x < b.addr + headerSize → x ≠ b.addr + 16 →
          setNext (setHeader h'.mem h.heapEnd sz 1 0) b.addr h.heapEnd x = h.mem x := by
        intro x hx hxe hne
        unfold setNext
        rw [Function.update_of_ne hne, setHeader_of_lt _ _ _ _ _ (by omega), he.mem x (by omega)]
      refine ⟨hr, h.heapEnd, ⟨hb0, ?_, ?_, ?_⟩, rfl, 0, ?_, rfl⟩
      · exact (hold _ le_rfl (by omega) (by omega)).trans hholds.2.1
      · exact (hold _ (by omega) (by omega) (by omega)).trans hholds.2.2.1
      · exact Function.update_self _ _ _
      · refine heapLayout.holds_congr (fun x hx _ => ?_) hnew
        have hx' : h.heapEnd ≤ x := hx
        exact Function.update_of_ne (by omega) _ _
    · refine ⟨hr, Nat.le_add_right _ _, ?_, Nat.le_add_right _ _, ?_⟩
      · exact hrend.symm
      · have hextent : ∀ c, heapLayout.extent c = headerSize + c.size := fun _ => rfl
        unfold Tiles
        rw [hextent, hextent]
        dsimp only
        omega
  · exact List.append_ne_nil_of_right_ne_nil _ (List.cons_ne_nil _ _)
  · intro c hc
    rw [← List.append_assoc, List.mem_append, List.mem_singleton] at hc
    rcases hc with hc | rfl
    · exact hs.sizes c hc
    · have hp := hs.endPage
      have hp' := he.endPage
      rw [hps] at hp hp'
      dsimp only
      omega

/-- The contents of the blocks in use stay when the heap grows. -/
theorem addBlock_untouched {pages pages' : List PageOutcome} (hs : Shaped h bs)
    (he : Expanded h h' pages pages') :
    Unwritten bs h.mem (h'.addBlock h.heapEnd ((bs.getLast?.map HeapBlock.addr).getD 0)).mem := by
  have hhead : headerSize = 32 := rfl
  intro d hd _ x hx hxe
  obtain ⟨hlo, hhi⟩ := hs.bounds hd
  have hend := hs.endLt
  obtain ⟨b, hb⟩ := List.getLast?_isSome.mpr hs.nonempty |> Option.isSome_iff_exists.mp
  have hmem : b ∈ bs := List.mem_of_getLast? hb
  obtain ⟨-, hb0, -⟩ := hs.laid.seg.holds hmem
  rw [hb, Option.map_some, Option.getD_some]
  unfold Heap.addBlock
  rw [if_neg hb0]
  dsimp only
  -- the header of the last block is not in a payload
  have hne : x ≠ b.addr + 16 := by
    have hbb := hs.bounds hmem
    rcases hs.laid.tiles.apart hd hmem with rfl | hle | hle
    · omega
    · have hle' : d.addr + (headerSize + d.size) ≤ b.addr := hle
      omega
    · have hle' : b.addr + (headerSize + b.size) ≤ d.addr := hle
      omega
  unfold setNext
  rw [Function.update_of_ne hne, setHeader_of_lt _ _ _ _ _ (by omega), he.mem x (by omega)]

/-- What `kmalloc` gives: the null pointer, or a block in use that was free. The blocks in use stay, with their
contents. -/
structure Served (h : Heap) (bs : List HeapBlock) (need : ℕ) (h' : Heap) (ptr : ℕ) (bs' : List HeapBlock) :
    Prop where
  shaped : Shaped h' bs'
  keeps : Keeps bs bs'
  untouched : Unwritten bs h.mem h'.mem
  given : ptr = 0 ∨ ∃ c, Given bs bs' need ptr c

theorem kmallocLoop_spec {need n ptr : ℕ} {pages : List PageOutcome} (hs : Shaped h bs)
    (hneed : need % 16 = 0) (hpos : 0 < need) (hn : pages.length < n)
    (hk : Heap.kmallocLoop need n pages h = some (h', ptr)) : ∃ bs', Served h bs need h' ptr bs' := by
  induction n generalizing pages h bs with
  | zero => exact absurd hn (Nat.not_lt_zero _)
  | succ n ih =>
    unfold Heap.kmallocLoop at hk
    have hseg := hs.laid.seg
    rw [← hs.start] at hseg
    rcases findFit_spec need 0 hseg hs.length_le with
      ⟨pre, b, post, rfl, hfree, hle, hfound⟩ | ⟨-, hnone⟩
    · rw [hfound] at hk
      dsimp only at hk
      obtain ⟨bs', hshaped, hkeeps, c, hgiven⟩ := takeBlock_spec hs hfree hle hneed hpos
      have huntouched := takeBlock_untouched hs (by simp) hfree hle
      rw [Option.some.injEq] at hk
      rw [hk] at hshaped hgiven huntouched
      exact ⟨bs', hshaped, hkeeps, huntouched, .inr ⟨c, hgiven⟩⟩
    · rw [hnone] at hk
      dsimp only at hk
      cases hexp : h.heapExpand (u64 (need + headerSize)) pages with
      | none =>
        rw [hexp] at hk
        cases hk
      | some result =>
        obtain ⟨h₁, pages'⟩ := result
        rw [hexp] at hk
        dsimp only at hk
        have he := heapExpand_spec hs.endLt hs.endPage hexp
        by_cases hsame : h₁.heapEnd = h.heapEnd
        · rw [if_pos hsame, Option.some.injEq, Prod.mk.injEq] at hk
          obtain ⟨rfl, rfl⟩ := hk
          refine ⟨bs, ⟨he.start.trans hs.start, ?_, hs.nonempty, hs.sizes, he.endLt, he.endPage⟩,
            Keeps.refl bs, fun b hb _ x _ hx => he.mem x (hx.trans_le (hs.bounds hb).2), .inl rfl⟩
          rw [hsame]
          exact hs.laid.congr fun x _ hx => he.mem x hx
        · rw [if_neg hsame] at hk
          have huses := he.uses hsame
          obtain ⟨bs', hserved⟩ := ih (addBlock_spec hs he hsame) (by omega) hk
          have hkeep : Keeps bs (bs ++ [⟨h.heapEnd, h₁.heapEnd - h.heapEnd - headerSize, true⟩]) :=
            fun c hc _ => List.mem_append_left _ hc
          refine ⟨bs', hserved.shaped, hkeep.trans hserved.keeps,
            (addBlock_untouched hs he).trans hkeep hserved.untouched, ?_⟩
          rcases hserved.given with hz | ⟨c, hc⟩
          · exact .inl hz
          · exact .inr ⟨c, hc.mem, hc.used, hc.payload, hc.fits,
              fun d hd hf => hc.fresh d (hkeep d hd hf) hf⟩

theorem alignSize_spec {size : ℕ} (hle : size ≤ 2 ^ 64 - 16) :
    size ≤ alignSize size ∧ alignSize size % 16 = 0 := by
  unfold alignSize
  split
  · omega
  · rw [u64_of_lt (by omega)]
    omega

theorem kmalloc_spec {size ptr : ℕ} {pages : List PageOutcome} (hs : Shaped h bs)
    (hle : size ≤ 2 ^ 64 - 16) (hk : h.kmalloc size pages = some (h', ptr)) :
    ∃ bs', Served h bs size h' ptr bs' := by
  unfold Heap.kmalloc at hk
  split at hk
  · rw [Option.some.injEq, Prod.mk.injEq] at hk
    obtain ⟨rfl, rfl⟩ := hk
    exact ⟨bs, hs, Keeps.refl bs, fun _ _ _ _ _ _ => rfl, .inl rfl⟩
  next hpos =>
    obtain ⟨hsize, h16⟩ := alignSize_spec hle
    obtain ⟨bs', hserved⟩ := kmallocLoop_spec hs h16 (by omega) (Nat.lt_succ_self _) hk
    refine ⟨bs', hserved.shaped, hserved.keeps, hserved.untouched, ?_⟩
    rcases hserved.given with hz | ⟨c, hc⟩
    · exact .inl hz
    · exact .inr ⟨c, hc.mem, hc.used, hc.payload, hsize.trans hc.fits, hc.fresh⟩

/-! ## Release -/

/-- What the loop of `kfree` makes of a row of blocks: the blocks in use stay, no two free ones are left
in a row, and nothing outside the row is written. -/
structure Swept (mem mem' : ℕ → ℕ) (a e : ℕ) (bs bs' : List HeapBlock) : Prop where
  laid : Laid heapLayout mem' a bs' e 0
  nonempty : bs ≠ [] → bs' ≠ []
  sizes : ∀ b ∈ bs', b.size % 16 = 0 ∧ 0 < b.size
  keeps : Keeps bs bs'
  coalesced : Coalesced bs'
  first : ∀ b ∈ bs.head?, ∀ b' ∈ bs'.head?, b'.isFree = b.isFree
  frame : ∀ x, x < a ∨ e ≤ x → mem' x = mem x

/-- A row without two free blocks side by side is swept. -/
theorem Swept.refl {a e : ℕ} (hlaid : Laid heapLayout mem a bs e 0) (hco : Coalesced bs)
    (hsizes : ∀ b ∈ bs, b.size % 16 = 0 ∧ 0 < b.size) : Swept mem mem a e bs bs := by
  refine ⟨hlaid, id, hsizes, Keeps.refl bs, hco, fun b hb b' hb' => ?_, fun _ _ => rfl⟩
  rw [Option.mem_unique hb hb']

/-- Two free blocks in a row become one. -/
theorem joined_laid {c : HeapBlock} {rest : List HeapBlock} {e : ℕ}
    (hlaid : Laid heapLayout mem b.addr (b :: c :: rest) e 0) (hfree : b.isFree = true) :
    Laid heapLayout (setNext (Function.update mem b.addr (b.size + (headerSize + c.size))) b.addr
      (nextAt mem c.addr)) b.addr (⟨b.addr, b.size + (headerSize + c.size), true⟩ :: rest) e 0 := by
  have hhead : headerSize = 32 := rfl
  obtain ⟨-, q, hbh, hc, q', hch, hrest⟩ := hlaid.seg
  obtain ⟨-, hbe, hct, hce, htrest⟩ := hlaid.tiles
  have hextent : ∀ d, heapLayout.extent d = headerSize + d.size := fun _ => rfl
  rw [hch.2.2.2]
  refine ⟨⟨rfl, q', ⟨hbh.1, ?_, ?_, ?_⟩, hrest.congr fun d hd x hx _ => ?_⟩, rfl,
    Nat.le_add_right _ _, ?_⟩
  · simp [setNext, sizeAt]
  · have hf := hbh.2.2.1
    rw [if_pos hfree] at hf
    rw [if_pos rfl, ← hf]
    simp [setNext, isFreeAt]
  · exact Function.update_self _ _ _
  · have hd := (htrest.bounds hd).1
    have hx' : heapLayout.addr d ≤ x := hx
    rw [hextent, hextent] at hd
    unfold setNext
    rw [Function.update_of_ne (by omega), Function.update_of_ne (by omega)]
  · have he : heapLayout.extent ⟨b.addr, b.size + (headerSize + c.size), true⟩ =
        heapLayout.extent b + heapLayout.extent c := Nat.add_assoc _ _ _ |>.symm
    rw [he, ← Nat.add_assoc]
    exact htrest

/-- The loop goes on with the block that two free ones became. -/
theorem Swept.join {c d : HeapBlock} {rest bs' : List HeapBlock} {mem₁ : ℕ → ℕ} {a e : ℕ}
    (h : Swept mem₁ mem' a e (d :: rest) bs') (hb : b.isFree = true) (hc : c.isFree = true)
    (hd : d.isFree = true) (hmem : ∀ x, x < a ∨ e ≤ x → mem₁ x = mem x) :
    Swept mem mem' a e (b :: c :: rest) bs' := by
  refine ⟨h.laid, fun _ => h.nonempty (List.cons_ne_nil _ _), h.sizes, fun f hf hused => ?_,
    h.coalesced, fun f hf f' hf' => ?_, fun x hx => (h.frame x hx).trans (hmem x hx)⟩
  · refine h.keeps f ?_ hused
    rcases List.mem_cons.mp hf with rfl | hf
    · rw [hb] at hused
      cases hused
    rcases List.mem_cons.mp hf with rfl | hf
    · rw [hc] at hused
      cases hused
    exact List.mem_cons_of_mem _ hf
  · rw [h.first d rfl f' hf', hd, ← Option.mem_some.mp hf, hb]

/-- The loop leaves a block behind, if the next one is not to be joined. -/
theorem Swept.skip {c : HeapBlock} {rest bs' : List HeapBlock} {e : ℕ}
    (h : Swept mem mem' c.addr e (c :: rest) bs')
    (hlaid : Laid heapLayout mem b.addr (b :: c :: rest) e 0)
    (hb : b.size % 16 = 0 ∧ 0 < b.size) (hfree : ¬ (b.isFree = true ∧ c.isFree = true)) :
    Swept mem mem' b.addr e (b :: c :: rest) (b :: bs') := by
  obtain ⟨-, q, hbh, hc, -⟩ := hlaid.seg
  obtain ⟨-, hbe, hct, -⟩ := hlaid.tiles
  obtain rfl : c.addr = q := hc
  have hcaddr : c.addr = b.addr + (headerSize + b.size) := hct
  refine ⟨⟨⟨rfl, c.addr, ?_, h.laid.seg⟩, rfl, hbe, ?_⟩, fun _ => List.cons_ne_nil _ _,
    List.forall_mem_cons.mpr ⟨hb, h.sizes⟩, fun d hd hf => ?_, ?_, ?_, fun x hx => h.frame x (by omega)⟩
  · refine heapLayout.holds_congr (fun x _ hx => h.frame x (.inl ?_)) hbh
    have hx' : x < b.addr + headerSize := hx
    omega
  · rw [← hct]
    exact h.laid.tiles
  · rcases List.mem_cons.mp hd with rfl | hd
    · exact List.mem_cons_self
    · exact List.mem_cons_of_mem _ (h.keeps d hd hf)
  · refine List.isChain_cons.mpr ⟨fun d hd => ?_, h.coalesced⟩
    rw [h.first c rfl d hd]
    exact hfree
  · intro d hd d' hd'
    rw [Option.mem_unique hd hd']

/-- The loop of `kfree` joins the free blocks of a row, and writes nothing outside it. -/
theorem coalesce_spec {n a e : ℕ} (hlaid : Laid heapLayout mem a bs e 0) (hn : bs.length ≤ n)
    (ha : kheapStartAddr ≤ a) (he : e < 2 ^ 64) (hsizes : ∀ b ∈ bs, b.size % 16 = 0 ∧ 0 < b.size) :
    ∃ bs', Swept mem (Heap.coalesce e n a mem) a e bs bs' := by
  have hhead : headerSize = 32 := rfl
  have hstart : kheapStartAddr = 18446744071696285696 := rfl
  induction n generalizing a bs mem with
  | zero =>
    obtain rfl := List.eq_nil_of_length_eq_zero (Nat.le_zero.mp hn)
    exact ⟨[], Swept.refl hlaid List.isChain_nil hsizes⟩
  | succ n ih =>
    unfold Heap.coalesce
    match bs, hlaid, hn, hsizes with
    | [], hlaid, _, _ =>
      have ha0 : a = 0 := hlaid.seg
      omega
    | [b], hlaid, _, hsizes =>
      obtain ⟨hb, q, ⟨-, -, -, hnext⟩, hq⟩ := hlaid.seg
      have hba : b.addr = a := hb
      have hlast : nextAt mem a = 0 := by
        rw [← hba, hnext]
        exact hq
      rw [if_pos (.inr hlast)]
      exact ⟨[b], Swept.refl hlaid (List.isChain_singleton b) hsizes⟩
    | b :: c :: rest, hlaid, hn, hsizes =>
      obtain ⟨hb, q, hbh, hc, q', hch, hrest⟩ := hlaid.seg
      obtain ⟨-, hbe, hct, hce, htrest⟩ := hlaid.tiles
      obtain rfl : b.addr = a := hb
      obtain rfl : c.addr = q := hc
      have hcaddr : c.addr = b.addr + (headerSize + b.size) := hct
      have hcend : c.addr + (headerSize + c.size) ≤ e := by
        rw [hcaddr]
        exact htrest.le
      have hbs := hsizes b List.mem_cons_self
      have hcs := hsizes c (List.mem_cons_of_mem b List.mem_cons_self)
      have hnext : nextAt mem b.addr = c.addr := hbh.2.2.2
      have hlen : (c :: rest).length ≤ n := Nat.le_of_succ_le_succ hn
      dsimp only
      rw [hnext, if_neg (by have := hbh.1; have := hch.1; omega), if_neg (by omega), hbh.2.1, hbh.2.2.1,
        hch.2.1, hch.2.2.1]
      by_cases hfree : b.isFree = true ∧ c.isFree = true
      · -- the two blocks become one, and the loop goes on with it
        have hcond : (if b.isFree then 1 else 0) ≠ 0 ∧ (if c.isFree then 1 else 0) ≠ 0 ∧
            u64 (b.addr + headerSize + b.size) = c.addr := by
          refine ⟨by simp [hfree.1], by simp [hfree.2], ?_⟩
          rw [u64_of_lt (by omega)]
          omega
        have hnext₁ : nextAt (Function.update mem b.addr (b.size + (headerSize + c.size))) c.addr =
            nextAt mem c.addr := Function.update_of_ne (by omega) _ _
        rw [if_pos hcond, u64_of_lt (by omega), hnext₁]
        have hjoined := joined_laid hlaid hfree.1
        have hsizes' : ∀ d ∈ (⟨b.addr, b.size + (headerSize + c.size), true⟩ :: rest : List HeapBlock),
            d.size % 16 = 0 ∧ 0 < d.size := by
          refine List.forall_mem_cons.mpr ⟨?_, fun d hd =>
            hsizes d (List.mem_cons_of_mem b (List.mem_cons_of_mem c hd))⟩
          dsimp only
          omega
        obtain ⟨bs', hswept⟩ := ih hjoined hlen ha hsizes'
        refine ⟨bs', hswept.join hfree.1 hfree.2 rfl fun x hx => ?_⟩
        unfold setNext
        rw [Function.update_of_ne (by omega), Function.update_of_ne (by omega)]
      · have hcond : ¬ ((if b.isFree then 1 else 0) ≠ 0 ∧ (if c.isFree then 1 else 0) ≠ 0 ∧
            u64 (b.addr + headerSize + b.size) = c.addr) := by
          rintro ⟨hf, hf', -⟩
          exact hfree ⟨by simpa using hf, by simpa using hf'⟩
        rw [if_neg hcond]
        have htail : Laid heapLayout mem c.addr (c :: rest) e 0 := by
          refine ⟨⟨rfl, q', hch, hrest⟩, rfl, hce, ?_⟩
          rw [hcaddr]
          exact htrest
        obtain ⟨bs', hswept⟩ := ih htail hlen (by omega)
          fun d hd => hsizes d (List.mem_cons_of_mem b hd)
        exact ⟨b :: bs', hswept.skip hlaid hbs hfree⟩

/-- A block is marked as free. -/
theorem Shaped.mark (pre post : List HeapBlock) (hs : Shaped h (pre ++ ([b] ++ post))) :
    Shaped { h with mem := setIsFree h.mem b.addr 1 } (pre ++ ([⟨b.addr, b.size, true⟩] ++ post)) := by
  have hhead : headerSize = 32 := rfl
  have hb : b ∈ pre ++ ([b] ++ post) := by simp
  obtain ⟨q, hb0, hbsize, hbfree, hbnext⟩ := hs.laid.seg.holds hb
  refine Shaped.replace (b := b) hs (List.cons_ne_nil _ _) (fun c hc => ?_) (fun x hx => ?_) ?_
  · rw [List.mem_singleton] at hc
    subst hc
    exact hs.sizes b hb
  · exact Function.update_of_ne (by omega) _ _
  · refine ⟨⟨rfl, _, ⟨hb0, ?_, ?_, rfl⟩, ?_⟩, rfl, Nat.le_add_right _ _, ?_⟩
    · rw [← hbsize]
      simp [setIsFree, sizeAt]
    · simp [setIsFree, isFreeAt]
    · simp [setIsFree, nextAt, Seg]
    · exact (Nat.add_assoc _ _ _).symm

/-- `kfree` of a block in use marks it as free and walks the list. -/
theorem kfree_of_used (hs : Shaped h bs) (hb : b ∈ bs) (hused : b.isFree = false) :
    h.kfree (b.addr + headerSize) =
      { h with mem := Heap.coalesce h.heapEnd h.limit h.heapPtr (setIsFree h.mem b.addr 1) } := by
  have hhead : headerSize = 32 := rfl
  obtain ⟨hlo, hhi⟩ := hs.bounds hb
  obtain ⟨-, hpos⟩ := hs.sizes b hb
  obtain ⟨-, -, -, hbfree, -⟩ := hs.laid.seg.holds hb
  have hnotfree : isFreeAt h.mem b.addr = 0 := by
    rw [hbfree, hused]
    rfl
  unfold Heap.kfree
  rw [if_neg (by omega), if_neg (by omega), Nat.add_sub_cancel]
  dsimp only
  rw [if_neg (by omega)]

/-- The release of a block in use keeps all others, and leaves no two free blocks in a row. -/
theorem kfree_spec (hs : Shaped h bs) (hb : b ∈ bs) (hused : b.isFree = false) :
    ∃ bs', Shaped (h.kfree (b.addr + headerSize)) bs' ∧ Coalesced bs' ∧
      (h.kfree (b.addr + headerSize)).heapEnd = h.heapEnd ∧
      ∀ c ∈ bs, c.isFree = false → c ≠ b → c ∈ bs' := by
  rw [kfree_of_used hs hb hused]
  obtain ⟨pre, post, rfl⟩ := List.append_of_mem hb
  have hmarked := Shaped.mark pre post hs
  obtain ⟨bs', hswept⟩ :=
    coalesce_spec hmarked.laid hmarked.length_le le_rfl hs.endLt hmarked.sizes
  refine ⟨bs', ⟨hs.start, ?_, hswept.nonempty hmarked.nonempty, hswept.sizes, hs.endLt, hs.endPage⟩,
    hswept.coalesced, rfl, ?_⟩
  · rw [hs.start]
    exact hswept.laid
  · intro c hc hf hcb
    refine hswept.keeps c ?_ hf
    rw [List.mem_append, List.mem_cons] at hc
    rw [List.singleton_append, List.mem_append, List.mem_cons]
    tauto

theorem memCopy_of_lt (mem : ℕ → ℕ) (dest src n : ℕ) {x : ℕ} (hx : x < dest ∨ dest + 8 * n ≤ x) :
    Heap.memCopy dest src n mem x = mem x := by
  induction n with
  | zero => rfl
  | succ n ih =>
    rw [Heap.memCopy, Function.update_of_ne (by omega)]
    exact ih (by omega)

/-- What is written into the payload of a block leaves the list as it is. -/
theorem Shaped.write (hs : Shaped h bs) (hb : b ∈ bs)
    (hmem : ∀ x, x < b.addr + headerSize ∨ b.addr + headerSize + b.size ≤ x → mem' x = h.mem x) :
    Shaped { h with mem := mem' } bs := by
  refine ⟨hs.start, hs.laid.write hb fun x hx => hmem x ?_, hs.nonempty, hs.sizes, hs.endLt,
    hs.endPage⟩
  rcases hx with hx | hx
  · exact .inl hx
  · right
    rw [Nat.add_assoc]
    exact hx

/-- `kern_realloc` of a block in use: nothing else is released, and the new block is one in use that
was the same block or free. -/
theorem kernRealloc_spec {size ptr : ℕ} {pages : List PageOutcome} (hs : Shaped h bs) (hb : b ∈ bs)
    (hused : b.isFree = false) (hsize : size ≠ 0) (hle : size ≤ 2 ^ 64 - 16)
    (hk : h.kernRealloc (b.addr + headerSize) size pages = some (h', ptr)) :
    ∃ bs', Shaped h' bs' ∧ (∀ c ∈ bs, c.isFree = false → c ≠ b → c ∈ bs') ∧
      (ptr = 0 ∧ b ∈ bs' ∨ ∃ c ∈ bs', c.isFree = false ∧ c.addr + headerSize = ptr ∧ size ≤ c.size ∧
        ∀ d ∈ bs, d.isFree = false → d ≠ b → d.addr ≠ c.addr) := by
  have hhead : headerSize = 32 := rfl
  obtain ⟨hlo, hhi⟩ := hs.bounds hb
  obtain ⟨hb16, hpos⟩ := hs.sizes b hb
  have hstart : kheapStartAddr = 18446744071696285696 := rfl
  obtain ⟨-, -, hbsize, -, -⟩ := hs.laid.seg.holds hb
  unfold Heap.kernRealloc at hk
  rw [if_neg (by omega), if_neg hsize, if_neg (by omega), Nat.add_sub_cancel, hbsize] at hk
  dsimp only at hk
  by_cases hfits : size ≤ b.size
  · rw [if_pos hfits, Option.some.injEq, Prod.mk.injEq] at hk
    obtain ⟨rfl, rfl⟩ := hk
    refine ⟨bs, hs, fun c hc _ _ => hc, .inr ⟨b, hb, hused, rfl, hfits, fun d hd _ hdb he => hdb ?_⟩⟩
    exact hs.laid.tiles.addr_inj hd hb he
  · rw [if_neg hfits] at hk
    cases hm : h.kmalloc size pages with
    | none =>
      rw [hm] at hk
      cases hk
    | some result =>
      obtain ⟨h₁, newPtr⟩ := result
      rw [hm] at hk
      dsimp only at hk
      obtain ⟨bs₁, hserved⟩ := kmalloc_spec hs hle hm
      by_cases hz : newPtr = 0
      · rw [if_pos hz, Option.some.injEq, Prod.mk.injEq] at hk
        obtain ⟨rfl, rfl⟩ := hk
        exact ⟨bs₁, hserved.shaped, fun c hc hf _ => hserved.keeps c hc hf,
          .inl ⟨rfl, hserved.keeps b hb hused⟩⟩
      · rw [if_neg hz, Option.some.injEq, Prod.mk.injEq] at hk
        obtain ⟨rfl, rfl⟩ := hk
        obtain ⟨c, hc⟩ := hserved.given.resolve_left hz
        have hcb : c ≠ b := fun he => hc.fresh b hb hused (he ▸ rfl)
        generalize hcopy : Heap.memCopy newPtr (b.addr + headerSize) (b.size / 8) h₁.mem = mem'
        have hcopied : Shaped { h₁ with mem := mem' } bs₁ := by
          refine hserved.shaped.write hc.mem fun x hx => ?_
          rw [← hcopy]
          refine memCopy_of_lt _ _ _ _ ?_
          have hpay := hc.payload
          have hcf := hc.fits
          omega
        obtain ⟨bs', hs', -, -, hkeep⟩ := kfree_spec hcopied (hserved.keeps b hb hused) hused
        refine ⟨bs', hs', fun d hd hf hdb => hkeep d (hserved.keeps d hd hf) hf hdb, .inr ⟨c, ?_, hc.used,
          hc.payload, hc.fits, fun d hd hf _ => hc.fresh d hd hf⟩⟩
        exact hkeep c hc.mem hc.used hcb

end

end Sandflea
