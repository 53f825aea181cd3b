import Sandflea.Heap.Tiling

/-!
# What a resize keeps

`kern_realloc` gives back the same block, or a new one that the contents are copied to, or null. The functions of
the heap write headers, and the copy the payload of the new block, so that the payloads of all other blocks in use
stay as they are. `resizes_clean` says so of every state of a run, under the condition of `heap_sound`.

The memory is read by bytes, of which a word has eight.
-/

namespace Sandflea

open BlockList Runs

/-- The byte at an address -/
def byteAt (mem : ℕ → ℕ) (a : ℕ) : ℕ := mem (a - a % 8) / 256 ^ (a % 8) % 256

/-- A block in use is where it was, with its size and its bytes. -/
def KeepsBlock (h h' : Heap) (bs' : List HeapBlock) (ptr : ℕ) : Prop :=
  ∃ b ∈ bs', b.isFree = false ∧ b.addr + headerSize = ptr ∧ b.size = sizeAt h.mem (ptr - headerSize) ∧
    ∀ k < b.size, byteAt h'.mem (ptr + k) = byteAt h.mem (ptr + k)

/-- The result of a resize to `n` bytes of a block in use -/
structure Client.Resizes (c : Client) (ptr n : ℕ) (h' : Heap) (newPtr : ℕ) : Prop where
  blocks : ∃ bs' : List HeapBlock, Seg heapLayout h'.mem h'.heapPtr bs' 0 ∧
    -- without memory everything stays
    (newPtr = 0 → ∀ x ∈ c.live, KeepsBlock c.heap h' bs' x.ptr) ∧
    (newPtr ≠ 0 →
      (∃ b ∈ bs', b.isFree = false ∧ b.addr + headerSize = newPtr ∧ n ≤ b.size) ∧
      (∀ k < min n (c.blockSize ptr), byteAt h'.mem (newPtr + k) = byteAt c.heap.mem (ptr + k)) ∧
      (newPtr ≠ ptr → ∀ b ∈ bs', b.addr + headerSize = ptr → b.isFree = true) ∧
      ∀ x ∈ c.live, x.ptr ≠ ptr → KeepsBlock c.heap h' bs' x.ptr)

/-! ## Bytes and words -/

/-- Blocks with the same words have the same bytes. -/
theorem byteAt_congr {mem mem' : ℕ → ℕ} {p q : ℕ} (size : ℕ) (hp : p % 8 = 0) (hq : q % 8 = 0) (hsize : size % 8 = 0)
    (hwords : ∀ i, 8 * i < size → mem' (q + 8 * i) = mem (p + 8 * i)) {k : ℕ} (hk : k < size) :
    byteAt mem' (q + k) = byteAt mem (p + k) := by
  have haddr : ∀ r, r % 8 = 0 → r + k - (r + k) % 8 = r + 8 * (k / 8) ∧ (r + k) % 8 = k % 8 := by
    intro r hr
    omega
  obtain ⟨hqk, hqm⟩ := haddr q hq
  obtain ⟨hpk, hpm⟩ := haddr p hp
  unfold byteAt
  rw [hqk, hqm, hpk, hpm, hwords (k / 8) (by omega)]

section

variable {h h' : Heap} {mem : ℕ → ℕ} {bs : List HeapBlock} {b : HeapBlock}

/-! ## What is written -/

/-- `mem_copy` copies, if the regions are apart. -/
theorem memCopy_words {dest src n : ℕ} (hapart : src + 8 * n ≤ dest ∨ dest + 8 * n ≤ src) {i : ℕ} (hi : i < n) :
    Heap.memCopy dest src n mem (dest + 8 * i) = mem (src + 8 * i) := by
  induction n with
  | zero => omega
  | succ n ih =>
    rw [Heap.memCopy]
    by_cases hin : i = n
    · subst hin
      rw [Function.update_self]
      exact memCopy_of_lt mem dest src i (by omega)
    · rw [Function.update_of_ne (by omega)]
      exact ih (by omega) (by omega)

/-- The loop of `kfree` writes sizes and links only. -/
theorem coalesce_frame {n a e x : ℕ} (hlaid : Laid heapLayout mem a bs e 0)
    (ha : kheapStartAddr ≤ a) (he : e < 2 ^ 64) (hx : ∀ b ∈ bs, x ≠ b.addr ∧ x ≠ b.addr + 16) :
    Heap.coalesce e n a mem x = mem x := by
  have hhead : headerSize = 32 := rfl
  have hstart : kheapStartAddr = 18446744071696285696 := rfl
  induction n generalizing a bs mem with
  | zero => rfl
  | succ n ih =>
    unfold Heap.coalesce
    rcases bs with _ | ⟨b, _ | ⟨c, rest⟩⟩
    · have ha0 : a = 0 := hlaid.seg
      omega
    · obtain ⟨hb, q, ⟨-, -, -, hnext⟩, hq⟩ := hlaid.seg
      have hba : b.addr = a := hb
      have hlast : nextAt mem a = 0 := by
        rw [← hba, hnext]
        exact hq
      rw [if_pos (.inr hlast)]
    · obtain ⟨hb, q, hbh, hc, q', hch, hrest⟩ := hlaid.seg
      obtain ⟨-, hbe, hct, hce, htrest⟩ := hlaid.tiles
      obtain rfl : b.addr = a := hb
      obtain rfl : c.addr = q := hc
      have hcaddr : c.addr = b.addr + (headerSize + b.size) := hct
      have hcend : c.addr + (headerSize + c.size) ≤ e := by
        rw [hcaddr]
        exact htrest.le
      have hnext : nextAt mem b.addr = c.addr := hbh.2.2.2
      obtain ⟨hxb, hxb'⟩ := hx b List.mem_cons_self
      dsimp only
      rw [hnext, if_neg (by have := hbh.1; have := hch.1; omega), if_neg (by omega), hbh.2.1, hbh.2.2.1,
        hch.2.1, hch.2.2.1]
      by_cases hcond : (if b.isFree then 1 else 0) ≠ 0 ∧ (if c.isFree then 1 else 0) ≠ 0 ∧
          u64 (b.addr + headerSize + b.size) = c.addr
      · -- the loop goes on with the two blocks as one
        have hfree : b.isFree = true := by simpa using hcond.1
        have hnext₁ : nextAt (Function.update mem b.addr (b.size + (headerSize + c.size))) c.addr =
            nextAt mem c.addr := Function.update_of_ne (by omega) _ _
        rw [if_pos hcond, u64_of_lt (by omega), hnext₁]
        have hjoined := joined_laid hlaid hfree
        rw [ih hjoined ha (List.forall_mem_cons.mpr ⟨⟨hxb, hxb'⟩, fun d hd =>
          hx d (List.mem_cons_of_mem b (List.mem_cons_of_mem c hd))⟩)]
        unfold setNext
        rw [Function.update_of_ne hxb', Function.update_of_ne hxb]
      · rw [if_neg hcond]
        have htail : Laid heapLayout mem c.addr (c :: rest) e 0 := by
          refine ⟨⟨rfl, q', hch, hrest⟩, rfl, hce, ?_⟩
          rw [hcaddr]
          exact htrest
        exact ih htail (by omega) fun d hd => hx d (List.mem_cons_of_mem b hd)

/-- The release of a block writes its mark, and sizes and links of blocks. -/
theorem kfree_frame {x : ℕ} (hs : Shaped h bs) (hb : b ∈ bs) (hused : b.isFree = false)
    (hx : ∀ d ∈ bs, x ≠ d.addr ∧ x ≠ d.addr + 16) :
    (h.kfree (b.addr + headerSize)).mem x = setIsFree h.mem b.addr 1 x := by
  rw [kfree_of_used hs hb hused]
  obtain ⟨pre, post, rfl⟩ := List.append_of_mem hb
  have hmarked := Shaped.mark pre post hs
  have hlaid := hmarked.laid
  have hx' : ∀ d ∈ pre ++ ([⟨b.addr, b.size, true⟩] ++ post), x ≠ d.addr ∧ x ≠ d.addr + 16 := by
    intro d hd
    rw [List.singleton_append, List.mem_append, List.mem_cons] at hd
    rcases hd with hd | rfl | hd
    · exact hx d (List.mem_append_left _ hd)
    · exact hx b hb
    · exact hx d (List.mem_append_right _ (List.mem_cons_of_mem b hd))
  rw [hs.start]
  exact coalesce_frame hlaid le_rfl hs.endLt hx'

/-- The contents of blocks in use stay when another block is released. -/
theorem kfree_untouched (hs : Shaped h bs) (hb : b ∈ bs) (hused : b.isFree = false) :
    Unwritten bs h.mem (h.kfree (b.addr + headerSize)).mem := by
  have hhead : headerSize = 32 := rfl
  intro d hd _ x hx hxe
  -- a payload has no word of a header
  have hout : ∀ f ∈ bs, x < f.addr ∨ f.addr + headerSize ≤ x := by
    intro f hf
    rcases hs.laid.tiles.apart hd hf with rfl | hle | hle
    · exact .inr hx
    · have hle' : d.addr + (headerSize + d.size) ≤ f.addr := hle
      omega
    · have hle' : f.addr + (headerSize + f.size) ≤ d.addr := hle
      omega
  have hframe := kfree_frame hs hb hused (x := x) fun f hf => by
    have hf' := hout f hf
    omega
  have hxb := hout b hb
  rw [hframe]
  exact Function.update_of_ne (by omega) _ _

/-- A block that is released is not in use. -/
theorem kfree_free {bs' : List HeapBlock} (hs : Shaped h bs) (hb : b ∈ bs) (hused : b.isFree = false)
    (hseg : Seg heapLayout (h.kfree (b.addr + headerSize)).mem (h.kfree (b.addr + headerSize)).heapPtr bs' 0)
    {d : HeapBlock} (hd : d ∈ bs') (he : d.addr = b.addr) : d.isFree = true := by
  have hhead : headerSize = 32 := rfl
  have hmark : isFreeAt (h.kfree (b.addr + headerSize)).mem b.addr = 1 := by
    have hframe := kfree_frame hs hb hused (x := b.addr + 8) fun f hf => by
      rcases hs.laid.tiles.apart hb hf with rfl | hle | hle
      · omega
      · have hle' : b.addr + (headerSize + b.size) ≤ f.addr := hle
        omega
      · have hle' : f.addr + (headerSize + f.size) ≤ b.addr := hle
        omega
    exact hframe.trans (Function.update_self _ _ _)
  obtain ⟨-, -, -, hfree, -⟩ := hseg.holds hd
  rw [he, hmark] at hfree
  by_contra hnot
  rw [if_neg hnot] at hfree
  cases hfree

/-! ## Resizes -/

/-- The words of a block in use stay. -/
theorem keepsBlock_of_words {bs' : List HeapBlock} (hs : Shaped h bs) (hb : b ∈ bs) (hused : b.isFree = false)
    (hmem : b ∈ bs')
    (hwords : ∀ x, b.addr + headerSize ≤ x → x < b.addr + headerSize + b.size → h'.mem x = h.mem x) :
    KeepsBlock h h' bs' (b.addr + headerSize) := by
  have hhead : headerSize = 32 := rfl
  have h16 := hs.aligned hb
  obtain ⟨hsize, -⟩ := hs.sizes b hb
  refine ⟨b, hmem, hused, rfl, ?_, fun k hk => ?_⟩
  · rw [Nat.add_sub_cancel]
    exact (Client.sizeAt_of_mem hs hb).symm
  · exact byteAt_congr b.size (by omega) (by omega) (by omega) (fun i hi => hwords _ (by omega) (by omega)) hk

/-- A new block for the contents of a block in use: the contents are copied, the old block is released, and the
others stay. -/
theorem copyAndFree_spec {bs₁ : List HeapBlock} {c : HeapBlock} (hs : Shaped h bs₁) (hb : b ∈ bs₁)
    (hused : b.isFree = false) (hc : c ∈ bs₁) (hcused : c.isFree = false) (hcb : c ≠ b) (hle : b.size ≤ c.size)
    (hh' : h' = ({ h with
      mem := Heap.memCopy (c.addr + headerSize) (b.addr + headerSize) (b.size / 8) h.mem } : Heap).kfree
        (b.addr + headerSize)) :
    ∃ bs', Shaped h' bs' ∧ (∀ d ∈ bs₁, d.isFree = false → d ≠ b → d ∈ bs') ∧
      (∀ d ∈ bs', d.addr = b.addr → d.isFree = true) ∧
      (∀ i, 8 * i < b.size → h'.mem (c.addr + headerSize + 8 * i) = h.mem (b.addr + headerSize + 8 * i)) ∧
      ∀ d ∈ bs₁, d.isFree = false → d ≠ c → ∀ x, d.addr + headerSize ≤ x →
        x < d.addr + headerSize + d.size → h'.mem x = h.mem x := by
  have hhead : headerSize = 32 := rfl
  obtain ⟨hb16, -⟩ := hs.sizes b hb
  have hapart : ∀ d ∈ bs₁, d ≠ c → d.addr + headerSize + d.size ≤ c.addr ∨
      c.addr + headerSize + c.size ≤ d.addr := by
    intro d hd hdc
    rcases hs.laid.tiles.apart hd hc with rfl | hle | hle
    · exact absurd rfl hdc
    · have hle' : d.addr + (headerSize + d.size) ≤ c.addr := hle
      omega
    · have hle' : c.addr + (headerSize + c.size) ≤ d.addr := hle
      omega
  have hbc := hapart b hb (Ne.symm hcb)
  generalize hcopy : Heap.memCopy (c.addr + headerSize) (b.addr + headerSize) (b.size / 8) h.mem = mem' at hh'
  have hout : ∀ x, x < c.addr + headerSize ∨ c.addr + headerSize + c.size ≤ x → mem' x = h.mem x := by
    intro x hx
    rw [← hcopy]
    exact memCopy_of_lt _ _ _ _ (by omega)
  have hcopied : Shaped { h with mem := mem' } bs₁ := hs.write hc hout
  obtain ⟨bs', hs', -, -, hkeep⟩ := kfree_spec hcopied hb hused
  have huntouched := kfree_untouched hcopied hb hused
  have hseg' := hs'.laid.seg
  rw [← hs'.start] at hseg'
  have hfree := fun d hd he => kfree_free hcopied hb hused hseg' (d := d) hd he
  rw [← hh'] at hs' huntouched
  refine ⟨bs', hs', hkeep, hfree, fun i hi => ?_, fun d hd hf hdc x hx hxe => ?_⟩
  · rw [huntouched c hc hcused _ (by omega) (by omega)]
    dsimp only
    rw [← hcopy]
    exact memCopy_words (by omega) (by omega)
  · rw [huntouched d hd hf x hx hxe]
    have hdapart := hapart d hd hdc
    exact hout x (by omega)

end

namespace Client

variable {c : Client} {bs : List HeapBlock}

/-- What is allocated can be resized. -/
theorem Placed.resizes (h : c.Placed bs) {ptr n newPtr : ℕ} {pages : List PageOutcome} {h' : Heap}
    (hl : c.IsLive ptr) (hpos : 0 < n) (hle : n ≤ 2 ^ 64 - 16)
    (hk : c.heap.kernRealloc ptr n pages = some (h', newPtr)) : c.Resizes ptr n h' newPtr := by
  have hhead : headerSize = 32 := rfl
  have hstart : kheapStartAddr = 18446744071696285696 := rfl
  have hs := h.shaped
  obtain ⟨b, hb, hused, rfl⟩ := h.block hl
  obtain ⟨hlo, hhi⟩ := hs.bounds hb
  obtain ⟨hb16, hbpos⟩ := hs.sizes b hb
  have hbsize : sizeAt c.heap.mem b.addr = b.size := sizeAt_of_mem hs hb
  -- the block of another allocation, which stays if its words do
  have hkeeps : ∀ {bs' : List HeapBlock} {h₁ : Heap}, ∀ x ∈ c.live,
      (∀ d ∈ bs, d.isFree = false → d.addr + headerSize = x.ptr → d ∈ bs' ∧
        ∀ y, d.addr + headerSize ≤ y → y < d.addr + headerSize + d.size → h₁.mem y = c.heap.mem y) →
      KeepsBlock c.heap h₁ bs' x.ptr := by
    intro bs' h₁ x hx hwords
    obtain ⟨d, hd, hdf, hdx, -⟩ := h.inBlock x hx
    obtain ⟨hmem, hsame⟩ := hwords d hd hdf hdx
    rw [← hdx]
    exact keepsBlock_of_words hs hd hdf hmem hsame
  have hseg : ∀ {h₁ : Heap} {bs₁ : List HeapBlock}, Shaped h₁ bs₁ → Seg heapLayout h₁.mem h₁.heapPtr bs₁ 0 := by
    intro h₁ bs₁ hs₁
    rw [hs₁.start]
    exact hs₁.laid.seg
  unfold Heap.kernRealloc at hk
  rw [if_neg (by omega), if_neg (by omega), if_neg (by omega), Nat.add_sub_cancel, hbsize] at hk
  dsimp only at hk
  by_cases hfits : n ≤ b.size
  · -- the block is large enough
    rw [if_pos hfits, Option.some.injEq, Prod.mk.injEq] at hk
    obtain ⟨rfl, rfl⟩ := hk
    refine ⟨bs, hseg hs, fun hz => by omega, fun _ => ⟨⟨b, hb, hused, rfl, hfits⟩, fun _ _ => rfl,
      fun hne => absurd rfl hne, fun x hx _ => ?_⟩⟩
    exact hkeeps x hx fun d hd _ _ => ⟨hd, fun _ _ _ => rfl⟩
  rw [if_neg hfits] at hk
  cases hm : c.heap.kmalloc n pages with
  | none =>
    rw [hm] at hk
    cases hk
  | some result =>
    obtain ⟨h₁, given⟩ := result
    rw [hm] at hk
    dsimp only at hk
    obtain ⟨bs₁, hserved⟩ := kmalloc_spec hs hle hm
    by_cases hz : given = 0
    · -- there is no memory
      rw [if_pos hz, Option.some.injEq, Prod.mk.injEq] at hk
      obtain ⟨rfl, rfl⟩ := hk
      refine ⟨bs₁, hseg hserved.shaped, fun _ x hx => ?_, fun hne => absurd rfl hne⟩
      exact hkeeps x hx fun d hd hdf _ => ⟨hserved.keeps d hd hdf, hserved.untouched d hd hdf⟩
    · -- the contents are copied to a block that was free
      rw [if_neg hz, Option.some.injEq, Prod.mk.injEq] at hk
      obtain ⟨hh', rfl⟩ := hk
      obtain ⟨f, hf⟩ := hserved.given.resolve_left hz
      have hfresh := hf.fresh
      have hbb := hserved.keeps b hb hused
      have hfb : f ≠ b := fun he => hfresh b hb hused (he ▸ rfl)
      have hbf : b.size ≤ f.size := by
        have hfits' := hf.fits
        omega
      rw [← hf.payload] at hh'
      obtain ⟨bs', hs', hkeep, hfree, hcopied, hothers⟩ :=
        copyAndFree_spec hserved.shaped hbb hused hf.mem hf.used hfb hbf hh'.symm
      have hbsame := hserved.untouched b hb hused
      refine ⟨bs', hseg hs', fun hnull => absurd hnull hz, fun _ => ⟨⟨f, hkeep f hf.mem hf.used hfb, hf.used,
        hf.payload, hf.fits⟩, fun k hk => ?_, fun _ d hd he => hfree d hd (by omega), fun x hx hne => ?_⟩⟩
      · have hblock : c.blockSize (b.addr + headerSize) = b.size := by
          unfold blockSize
          rw [Nat.add_sub_cancel, hbsize]
        rw [hblock] at hk
        have hb8 := hs.aligned hb
        have hf8 := hserved.shaped.aligned hf.mem
        rw [← hf.payload]
        refine byteAt_congr b.size (by omega) (by omega) (by omega) (fun i hi => ?_) (by omega)
        rw [hcopied i hi, hbsame _ (by omega) (by omega)]
      · refine hkeeps x hx fun d hd hdf hdx => ?_
        have hdb : d ≠ b := fun he => hne (by rw [← hdx, he])
        have hdf' : d ≠ f := fun he => hfresh d hd hdf (he ▸ rfl)
        have hd₁ := hserved.keeps d hd hdf
        refine ⟨hkeep d hd₁ hdf hdb, fun y hy hye => ?_⟩
        rw [hothers d hd₁ hdf hdf' y hy hye, hserved.untouched d hd hdf y hy hye]

end Client

/-- A resize preserves the contents and fails cleanly. From a `kmalloc_init` whose expansion succeeds, in every
state of every run of allocations, releases, resizes and writes into payloads, whatever the page allocator gives,
it is so for every live pointer and every size below `2^32`, as long as no request was for more than `2^64 - 16`
bytes. -/
theorem resizes_clean {pages : List PageOutcome} {h : Heap} (hi : Heap.kmallocInit pages = some h)
    (hend : h.heapEnd = kheapStartAddr + heapMinSize) (steps : List HeapStep)
    (hfits : ∀ st ∈ steps, st.Fits) :
    Always (fun c st => HeapStep.run c st) (fun c => ∀ ptr, c.IsLive ptr → ∀ n, 0 < n → n < 2 ^ 32 →
      ∀ pages h' newPtr, c.heap.kernRealloc ptr n pages = some (h', newPtr) → c.Resizes ptr n h' newPtr)
      ⟨h, []⟩ steps :=
  (placed_along hi hend hfits).mono fun _ ⟨_, hp⟩ _ hl _ hpos hlt _ _ _ hk =>
    hp.resizes hl hpos (by omega) hk

theorem resizes_clean_partialExpansion : ∃ h, Heap.kmallocInit bootPages = some h ∧
    Always (fun c st => HeapStep.run c st) (fun c => ∀ ptr, c.IsLive ptr → ∀ n, 0 < n → n < 2 ^ 32 →
      ∀ pages h' newPtr, c.heap.kernRealloc ptr n pages = some (h', newPtr) → c.Resizes ptr n h' newPtr)
      ⟨h, []⟩ partialExpansion := by
  have hinit : (Heap.kmallocInit bootPages).map Heap.heapEnd = some (kheapStartAddr + heapMinSize) := by
    decide +kernel
  obtain ⟨h, hi, hend⟩ := Option.map_eq_some_iff.mp hinit
  exact ⟨h, hi, resizes_clean hi hend partialExpansion (by decide)⟩

/-- Three blocks, of which the second is released. The first one gets a size and a mark as its contents, and is
resized to `2^64 - 1` bytes: the contents go over the header of a free block before the third one. -/
def overlappingBlock : List HeapStep :=
  [.kmalloc 16 [], .kmalloc 64 [], .kmalloc 32 [], .kfree (kheapStartAddr + 80),
    .write (kheapStartAddr + 32) 0 4096, .write (kheapStartAddr + 32) 1 1,
    .kernRealloc (kheapStartAddr + 32) (2 ^ 64 - 1) []]

/-- After that, a resize to 64 bytes takes the free block, which is over the third one, and writes a header into
its payload. -/
theorem overlappingBlock_not_clean : ∃ h, Heap.kmallocInit bootPages = some h ∧
    h.heapEnd = kheapStartAddr + heapMinSize ∧
    ¬ Always (fun c st => HeapStep.run c st) (fun c => ∀ ptr, c.IsLive ptr → ∀ n, 0 < n → n < 2 ^ 32 →
      ∀ pages h' newPtr, c.heap.kernRealloc ptr n pages = some (h', newPtr) → c.Resizes ptr n h' newPtr)
      ⟨h, []⟩ overlappingBlock := by
  have hinit : (Heap.kmallocInit bootPages).map (fun h =>
      let c := runAll (fun c st => HeapStep.run c st) ⟨h, []⟩ overlappingBlock
      let resize := c.heap.kernRealloc (kheapStartAddr + 80) 64 []
      (c.live, [h.heapEnd, sizeAt c.heap.mem (kheapStartAddr + 144), byteAt c.heap.mem (kheapStartAddr + 176)],
        resize.map fun r => [r.2, byteAt r.1.mem (kheapStartAddr + 176)])) =
      some ([⟨kheapStartAddr + 80, 2 ^ 64 - 1⟩, ⟨kheapStartAddr + 176, 32⟩],
        [kheapStartAddr + heapMinSize, 32, 0], some [kheapStartAddr + 112, 160]) := by
    decide +kernel
  obtain ⟨h, hi, hres⟩ := Option.map_eq_some_iff.mp hinit
  simp only [Prod.mk.injEq, List.cons.injEq, and_true] at hres
  obtain ⟨hlive, ⟨hend, hsize, hbyte⟩, hresize⟩ := hres
  refine ⟨h, hi, hend, fun hall => ?_⟩
  obtain ⟨⟨h', newPtr⟩, hk, hresult⟩ := Option.map_eq_some_iff.mp hresize
  simp only [List.cons.injEq, and_true] at hresult
  obtain ⟨rfl, hbyte'⟩ := hresult
  obtain ⟨bs', -, -, hreturned⟩ := (hall.last (kheapStartAddr + 80)
    ⟨_, by rw [hlive]; exact List.mem_cons_self, rfl⟩ 64 (by decide) (by decide) [] h' _ hk).blocks
  obtain ⟨-, -, -, hothers⟩ := hreturned (by decide)
  obtain ⟨b, -, -, -, hbsize, hbytes⟩ := hothers ⟨kheapStartAddr + 176, 32⟩
    (by rw [hlive]; exact List.mem_cons_of_mem _ List.mem_cons_self) (by decide)
  have hb32 : b.size = 32 := hbsize.trans hsize
  have hsame := hbytes 0 (by omega)
  rw [Nat.add_zero, hbyte, hbyte'] at hsame
  exact absurd hsame (by decide)

end Sandflea
