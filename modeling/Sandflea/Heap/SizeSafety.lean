import Sandflea.Heap.Tiling

/-!
# The sizes of allocations

`kmalloc` rounds a request up to a multiple of 16, adds the header, and adds that to the end of the heap,
all in words of 64 bits. A request for more than `2^64 - 16` bytes is rounded to none, and any free block
is taken for it. For every other request the sums that wrap only make `heap_expand` do less: a block that
is given is large enough.
-/

namespace Sandflea

open BlockList

/-- Where `heap_expand` goes to: the first end of a page at which there is room, in words of 64 bits -/
def expandEnd (heapEnd needed : ℕ) : ℕ :=
  let targetEnd := u64 (heapEnd + needed)
  if targetEnd % pageSize ≠ 0 then u64 (targetEnd - targetEnd % pageSize + pageSize) else targetEnd

/-- Every page that is allocated for a request can be mapped. The turn of `kmalloc` began with the heap
ending at `start`, and it ends at `heapEnd` now. Without a page the turn is over, and another one follows
if the heap has grown. -/
def Mappable (need : ℕ) : List PageOutcome → ℕ → ℕ → Prop
  | [], _, _ => True
  | o :: pages, start, heapEnd =>
    let targetEnd := expandEnd start (u64 (need + headerSize))
    heapEnd < targetEnd →
      match o with
      | .page =>
        if heapEnd + pageSize < targetEnd then Mappable need pages start (heapEnd + pageSize)
        else need + headerSize ≤ heapEnd + pageSize - start ∨
          Mappable need pages (heapEnd + pageSize) (heapEnd + pageSize)
      | .noPage => heapEnd = start ∨ Mappable need pages heapEnd heapEnd
      | .noTable => False

/-- A request gives the null pointer and the blocks in use stay as they are, or it gives a block in use of
at least the size that was asked for. -/
def Heap.SizeSafe (h : Heap) (bs : List HeapBlock) (size : ℕ) (pages : List PageOutcome) : Prop :=
  ∃ h' ptr bs', h.kmalloc size pages = some (h', ptr) ∧
    Seg heapLayout h'.mem h'.heapPtr bs' 0 ∧
    (ptr = 0 ∧ Keeps bs bs' ∧ Unwritten bs h.mem h'.mem ∨
      ∃ c ∈ bs', c.isFree = false ∧ c.addr + headerSize = ptr ∧ size ≤ c.size)

section

variable {h : Heap} {bs : List HeapBlock} {pages : List PageOutcome}

/-! ## Expansion -/

theorem expandEnd_spec {start needed : ℕ} :
    expandEnd start needed < 2 ^ 64 ∧ expandEnd start needed % pageSize = 0 ∧
      expandEnd start needed < start + needed + pageSize := by
  have hps : pageSize = 4096 := rfl
  unfold expandEnd u64
  rw [hps]
  dsimp only
  split <;> omega

section

variable {need start e target : ℕ}

theorem mappable_page (hlt : e < expandEnd start (u64 (need + headerSize))) :
    Mappable need (.page :: pages) start e ↔
      if e + pageSize < expandEnd start (u64 (need + headerSize)) then
        Mappable need pages start (e + pageSize)
      else need + headerSize ≤ e + pageSize - start ∨
        Mappable need pages (e + pageSize) (e + pageSize) := by
  simp only [Mappable, hlt, true_imp_iff]

theorem mappable_noPage (hlt : e < expandEnd start (u64 (need + headerSize))) :
    Mappable need (.noPage :: pages) start e ↔ e = start ∨ Mappable need pages e e := by
  simp only [Mappable, hlt, true_imp_iff]

theorem mappable_noTable (hlt : e < expandEnd start (u64 (need + headerSize))) :
    ¬ Mappable need (.noTable :: pages) start e := by
  simp only [Mappable, hlt, true_imp_iff, not_false_eq_true]

/-- At the target nothing is asked for. -/
theorem mappable_of_le (hle : expandEnd start (u64 (need + headerSize)) ≤ e) :
    Mappable need pages start e := by
  cases pages with
  | nil => trivial
  | cons o pages => exact fun hlt => absurd hlt (Nat.not_lt.mpr hle)

theorem expandTo_of_le (hle : target ≤ h.heapEnd) :
    Heap.expandTo target pages h = some (h, pages) := by
  cases pages with
  | nil => rfl
  | cons o pages => exact if_neg (Nat.not_lt.mpr hle)

theorem expandTo_of_lt {o : PageOutcome} (hlt : h.heapEnd < target) :
    Heap.expandTo target (o :: pages) h =
      match o with
      | .page => Heap.expandTo target pages h.mapPage
      | .noPage => some (h, pages)
      | .noTable => none := if_pos hlt

end

/-- The loop of `heap_expand` from a place below its target: it can map what it gets exactly if it comes to
an end, from where the request can go on. -/
theorem expandTo_mappable {need start : ℕ} (hpage : h.heapEnd % pageSize = 0) (hle : start ≤ h.heapEnd)
    (hlt : h.heapEnd < expandEnd start (u64 (need + headerSize))) :
    Mappable need pages start h.heapEnd ↔
      ∃ h' pages', Heap.expandTo (expandEnd start (u64 (need + headerSize))) pages h =
        some (h', pages') ∧ (h'.heapEnd = start ∨ need + headerSize ≤ h'.heapEnd - start ∨
          Mappable need pages' h'.heapEnd h'.heapEnd) := by
  have hps : pageSize = 4096 := rfl
  have hneeded : u64 (need + headerSize) ≤ need + headerSize := Nat.mod_le _ _
  obtain ⟨htop, htpage, hnear⟩ := @expandEnd_spec start (u64 (need + headerSize))
  induction pages generalizing h with
  | nil => exact ⟨fun _ => ⟨h, [], rfl, .inr (.inr trivial)⟩, fun _ => trivial⟩
  | cons o pages ih =>
    rw [expandTo_of_lt hlt]
    -- before the target there is not enough
    have hroom : ¬ need + headerSize ≤ h.heapEnd - start := by
      rw [hps] at *
      omega
    cases o with
    | page =>
      have hend : h.mapPage.heapEnd = h.heapEnd + pageSize := by
        refine u64_of_lt ?_
        rw [hps] at *
        omega
      rw [mappable_page hlt, ← hend]
      dsimp only
      by_cases hmore : h.mapPage.heapEnd < expandEnd start (u64 (need + headerSize))
      · rw [if_pos hmore]
        refine ih ?_ ?_ hmore
        · rw [hend, Nat.add_mod_right, hpage]
        · omega
      · rw [if_neg hmore, expandTo_of_le (Nat.not_lt.mp hmore)]
        constructor
        · exact fun hm => ⟨h.mapPage, pages, rfl, .inr hm⟩
        · rintro ⟨h', pages', he, hm⟩
          obtain ⟨rfl, rfl⟩ := Prod.mk.inj (Option.some.inj he)
          refine hm.resolve_left ?_
          rw [hps] at *
          omega
    | noPage =>
      rw [mappable_noPage hlt]
      constructor
      · rintro (he | hm)
        · exact ⟨h, pages, rfl, .inl he⟩
        · exact ⟨h, pages, rfl, .inr (.inr hm)⟩
      · rintro ⟨h', pages', he, hm⟩
        obtain ⟨rfl, rfl⟩ := Prod.mk.inj (Option.some.inj he)
        rcases hm with he | hm | hm
        · exact .inl he
        · exact absurd hm hroom
        · exact .inr hm
    | noTable =>
      refine ⟨fun hm => absurd hm (mappable_noTable hlt), ?_⟩
      rintro ⟨h', pages', he, -⟩
      cases he

theorem addBlock_heapEnd (oldEnd last : ℕ) : (h.addBlock oldEnd last).heapEnd = h.heapEnd := by
  unfold Heap.addBlock
  split <;> rfl

/-- The loop of `kmalloc` comes to an end exactly if there is a block or every page can be mapped. -/
theorem kmallocLoop_isSome_iff {need n : ℕ} (hs : Shaped h bs) (hn : pages.length < n) :
    (Heap.kmallocLoop need n pages h).isSome ↔
      (∃ b ∈ bs, b.isFree = true ∧ need ≤ b.size) ∨ Mappable need pages h.heapEnd h.heapEnd := by
  have hhead : headerSize = 32 := rfl
  have hps : pageSize = 4096 := rfl
  induction n generalizing pages h bs with
  | zero => exact absurd hn (Nat.not_lt_zero _)
  | succ n ih =>
    unfold Heap.kmallocLoop
    have hseg := hs.laid.seg
    rw [← hs.start] at hseg
    rcases findFit_spec need 0 hseg hs.length_le with
      ⟨pre, b, post, rfl, hfree, hle, hfound⟩ | ⟨hall, hnone⟩
    · rw [hfound]
      exact ⟨fun _ => .inl ⟨b, by simp, hfree, hle⟩, fun _ => rfl⟩
    · have hnot : ¬ ∃ b ∈ bs, b.isFree = true ∧ need ≤ b.size := by
        rintro ⟨b, hb, hfit⟩
        exact hall b hb hfit
      rw [hnone, or_iff_right hnot]
      dsimp only
      by_cases hlt : h.heapEnd < expandEnd h.heapEnd (u64 (need + headerSize))
      · rw [expandTo_mappable hs.endPage le_rfl hlt]
        cases hexp : h.heapExpand (u64 (need + headerSize)) pages with
        | none =>
          refine ⟨fun hc => absurd hc Bool.false_ne_true, ?_⟩
          rintro ⟨h', pages', he, -⟩
          cases hexp.symm.trans he
        | some result =>
          obtain ⟨h₁, pages'⟩ := result
          have he := heapExpand_spec hs.endLt hs.endPage hexp
          have hle := he.le
          dsimp only
          have hiff : (∃ h' pages'', Heap.expandTo (expandEnd h.heapEnd (u64 (need + headerSize))) pages h =
              some (h', pages'') ∧ (h'.heapEnd = h.heapEnd ∨ need + headerSize ≤ h'.heapEnd - h.heapEnd ∨
                Mappable need pages'' h'.heapEnd h'.heapEnd)) ↔
              (h₁.heapEnd = h.heapEnd ∨ need + headerSize ≤ h₁.heapEnd - h.heapEnd ∨
                Mappable need pages' h₁.heapEnd h₁.heapEnd) := by
            constructor
            · rintro ⟨h', pages'', he', hm⟩
              obtain ⟨rfl, rfl⟩ := Prod.mk.inj (Option.some.inj (hexp.symm.trans he'))
              exact hm
            · exact fun hm => ⟨h₁, pages', hexp, hm⟩
          rw [hiff]
          by_cases hsame : h₁.heapEnd = h.heapEnd
          · rw [if_pos hsame]
            exact ⟨fun _ => .inl hsame, fun _ => rfl⟩
          · rw [if_neg hsame, or_iff_right hsame]
            have huses := he.uses hsame
            have hgrown : h.heapEnd + pageSize ≤ h₁.heapEnd := by
              have hp := hs.endPage
              have hp' := he.endPage
              rw [hps] at hp hp' ⊢
              omega
            have hlen : pages'.length < n := by omega
            refine (ih (addBlock_spec hs he hsame) hlen).trans ?_
            rw [addBlock_heapEnd]
            -- the new block is the only one that can be large enough
            refine or_congr ?_ Iff.rfl
            constructor
            · rintro ⟨b, hb, hfree, hle⟩
              rcases List.mem_append.mp hb with hb | hb
              · exact absurd ⟨hfree, hle⟩ (hall b hb)
              · rw [List.mem_singleton.mp hb] at hle
                dsimp only at hle
                omega
            · intro hle
              refine ⟨_, List.mem_append_right _ List.mem_cons_self, rfl, ?_⟩
              dsimp only
              omega
      · have hstay : h.heapExpand (u64 (need + headerSize)) pages = some (h, pages) :=
          expandTo_of_le (Nat.not_lt.mp hlt)
        rw [hstay]
        dsimp only
        rw [if_pos rfl]
        exact ⟨fun _ => mappable_of_le (Nat.not_lt.mp hlt), fun _ => rfl⟩

/-! ## Requests that are rounded to none -/

/-- A block that is used for a request of no bytes is no larger than before. -/
theorem takeBlock_zero_size {b : HeapBlock} (hsize : sizeAt h.mem b.addr = b.size) :
    sizeAt (h.takeBlock b.addr 0).1.mem b.addr ≤ b.size := by
  unfold Heap.takeBlock
  rw [hsize]
  dsimp only
  split
  · simp [setIsFree, setNext, sizeAt]
  · rw [← hsize]
    simp [setIsFree, sizeAt]

/-- With a free block, a request that is rounded to none is given too little. -/
theorem kmallocLoop_zero_of_free (n : ℕ) (pages : List PageOutcome) (hs : Shaped h bs) {b : HeapBlock}
    (hb : b ∈ bs) (hfree : b.isFree = true) :
    ∃ h' c, Heap.kmallocLoop 0 (n + 1) pages h = some (h', c + headerSize) ∧
      c + headerSize + sizeAt h'.mem c < 2 ^ 64 ∧ kheapStartAddr ≤ c := by
  have hseg := hs.laid.seg
  rw [← hs.start] at hseg
  rcases findFit_spec 0 0 hseg hs.length_le with ⟨pre, c, post, he, -, -, hfound⟩ | ⟨hall, -⟩
  · have hc : c ∈ bs := by
      rw [he]
      simp
    obtain ⟨hlo, hhi⟩ := hs.bounds hc
    have hend := hs.endLt
    obtain ⟨-, -, hsize, -⟩ := hs.laid.seg.holds hc
    have hle := takeBlock_zero_size hsize
    refine ⟨(h.takeBlock c.addr 0).1, c.addr, ?_, by omega, hlo⟩
    unfold Heap.kmallocLoop
    rw [hfound]
    dsimp only
    rw [← u64_of_lt (n := c.addr + headerSize) (by omega)]
    rfl
  · exact absurd ⟨hfree, Nat.zero_le _⟩ (hall b hb)

/-- What is given for a request of more than `2^64 - 16` bytes is too small. -/
theorem not_sizeSafe_of_small {h' : Heap} {c size : ℕ} (hlarge : 2 ^ 64 - 16 < size)
    (hk : h.kmalloc size pages = some (h', c + headerSize))
    (hend : c + headerSize + sizeAt h'.mem c < 2 ^ 64) (hlo : kheapStartAddr ≤ c) :
    ¬ h.SizeSafe bs size pages := by
  have hhead : headerSize = 32 := rfl
  have hstart : kheapStartAddr = 18446744071696285696 := rfl
  rintro ⟨h'', ptr, bs', hk', hseg, hsafe⟩
  obtain ⟨rfl, rfl⟩ := Prod.mk.inj (Option.some.inj (hk.symm.trans hk'))
  rcases hsafe with ⟨hz, -⟩ | ⟨d, hd, -, hptr, hle⟩
  · omega
  · obtain ⟨-, -, hsize, -⟩ := hseg.holds hd
    have haddr : d.addr = c := by omega
    rw [haddr] at hsize
    omega

theorem alignSize_of_large {size : ℕ} (hlarge : 2 ^ 64 - 16 < size) (hsize : size < 2 ^ 64) :
    alignSize size = 0 := by
  unfold alignSize u64
  rw [if_neg (by omega)]
  omega

/-- The end of the heap stays where it is, if one more page is asked for. -/
def NoPage (pages : List PageOutcome) (heapEnd : ℕ) : Prop :=
  pages = [] ∨ pages.head? = some .noPage ∨ heapEnd + pageSize = 2 ^ 64

theorem expandEnd_header (hpage : h.heapEnd % pageSize = 0) (hend : h.heapEnd < 2 ^ 64) :
    expandEnd h.heapEnd (u64 (0 + headerSize)) =
      if h.heapEnd + pageSize = 2 ^ 64 then 0 else h.heapEnd + pageSize := by
  have hps : pageSize = 4096 := rfl
  have hneeded : u64 (0 + headerSize) = 32 := by decide
  rw [hps] at hpage ⊢
  have hsum : u64 (h.heapEnd + 32) = h.heapEnd + 32 := u64_of_lt (by omega)
  unfold expandEnd
  rw [hneeded, hsum, hps]
  dsimp only
  rw [if_pos (by omega)]
  unfold u64
  split <;> omega

/-- The null pointer and nothing else -/
theorem sizeSafe_of_null {size : ℕ} (hs : Shaped h bs) (hk : h.kmalloc size pages = some (h, 0)) :
    h.SizeSafe bs size pages := by
  have hseg := hs.laid.seg
  rw [← hs.start] at hseg
  exact ⟨h, 0, bs, hk, hseg, .inl ⟨rfl, Keeps.refl bs, fun _ _ _ _ _ _ => rfl⟩⟩

theorem sizeSafe_iff_of_large {size : ℕ} (hs : Shaped h bs) (hlarge : 2 ^ 64 - 16 < size)
    (hsize : size < 2 ^ 64) :
    h.SizeSafe bs size pages ↔ (∀ b ∈ bs, b.isFree = false) ∧ NoPage pages h.heapEnd := by
  have hhead : headerSize = 32 := rfl
  have hps : pageSize = 4096 := rfl
  have hk : h.kmalloc size pages = Heap.kmallocLoop 0 (pages.length + 1) pages h := by
    unfold Heap.kmalloc
    rw [if_neg (by omega), alignSize_of_large hlarge hsize]
  by_cases hfree : ∃ b ∈ bs, b.isFree = true
  · obtain ⟨b, hb, hf⟩ := hfree
    obtain ⟨h', c, hloop, hend, hlo⟩ := kmallocLoop_zero_of_free pages.length pages hs hb hf
    refine ⟨fun hsafe => absurd hsafe (not_sizeSafe_of_small hlarge (hk.trans hloop) hend hlo), ?_⟩
    rintro ⟨hall, -⟩
    rw [hall b hb] at hf
    cases hf
  have hall : ∀ b ∈ bs, b.isFree = false := by
    intro b hb
    by_contra hf
    exact hfree ⟨b, hb, by simpa using hf⟩
  rw [and_iff_right hall]
  have hseg := hs.laid.seg
  rw [← hs.start] at hseg
  have hnone : Heap.findFit h.mem 0 h.limit h.heapPtr 0 =
      .inr ((bs.getLast?.map HeapBlock.addr).getD 0) := by
    rcases findFit_spec 0 0 hseg hs.length_le with ⟨pre, c, post, he, hf, -⟩ | ⟨-, hnone⟩
    · exact absurd ⟨c, by rw [he]; simp, hf⟩ hfree
    · exact hnone
  have hloop : Heap.kmallocLoop 0 (pages.length + 1) pages h = _ := Heap.kmallocLoop_of_full hnone
  have hexp : h.heapExpand (u64 (0 + headerSize)) pages =
      Heap.expandTo (if h.heapEnd + pageSize = 2 ^ 64 then 0 else h.heapEnd + pageSize) pages h := by
    rw [← expandEnd_header hs.endPage hs.endLt]
    rfl
  have hstays : ∀ pages', h.heapExpand (u64 (0 + headerSize)) pages = some (h, pages') →
      h.SizeSafe bs size pages := by
    intro pages' he
    refine sizeSafe_of_null hs (hk.trans ?_)
    rw [hloop, he]
    exact if_pos rfl
  by_cases htop : h.heapEnd + pageSize = 2 ^ 64
  · rw [if_pos htop, expandTo_of_le (Nat.zero_le _)] at hexp
    exact ⟨fun _ => .inr (.inr htop), fun _ => hstays pages hexp⟩
  rw [if_neg htop] at hexp
  have hlt : h.heapEnd < h.heapEnd + pageSize := by omega
  cases pages with
  | nil => exact ⟨fun _ => .inl rfl, fun _ => hstays [] hexp⟩
  | cons o pages =>
    rw [expandTo_of_lt hlt] at hexp
    cases o with
    | noPage => exact ⟨fun _ => .inr (.inl rfl), fun _ => hstays pages hexp⟩
    | noTable =>
      dsimp only at hexp
      rw [hexp] at hloop
      constructor
      · rintro ⟨h', ptr, bs', hk', -⟩
        cases (hk.trans hloop).symm.trans hk'
      · rintro (he | he | he)
        · cases he
        · cases he
        · exact absurd he htop
    | page =>
      -- the page becomes a free block, which is used
      have hmapped : h.mapPage.heapEnd = h.heapEnd + pageSize := by
        refine u64_of_lt ?_
        have hpage := hs.endPage
        have hend := hs.endLt
        rw [hps] at *
        omega
      dsimp only at hexp
      rw [expandTo_of_le hmapped.ge] at hexp
      have hne : h.mapPage.heapEnd ≠ h.heapEnd := by omega
      have hgrown := addBlock_spec hs (heapExpand_spec hs.endLt hs.endPage hexp) hne
      obtain ⟨h', c, hk', hend, hlo⟩ := kmallocLoop_zero_of_free pages.length pages hgrown
        (List.mem_append_right bs List.mem_cons_self) rfl
      rw [hexp] at hloop
      dsimp only at hloop
      rw [if_neg hne] at hloop
      refine ⟨fun hsafe => absurd hsafe
        (not_sizeSafe_of_small hlarge ((hk.trans hloop).trans hk') hend hlo), ?_⟩
      rintro (he | he | he)
      · cases he
      · cases he
      · exact absurd he htop

end

/-- Allocation is size safe, up to a slip. In every heap, whatever the page allocator gives, a request for
at most `2^64 - 16` bytes that finds a block or can map its pages gives the null pointer or a block of at
least that size, and a request for more does so exactly if no block is free and there is no page. -/
theorem kmalloc_sizeSafe_iff {h : Heap} {bs : List HeapBlock} (hs : Shaped h bs) {size : ℕ}
    (hpos : 0 < size) (hsize : size < 2 ^ 64) (pages : List PageOutcome) :
    h.SizeSafe bs size pages ↔
      (size ≤ 2 ^ 64 - 16 ∧ ((∃ b ∈ bs, b.isFree = true ∧ alignSize size ≤ b.size) ∨
        Mappable (alignSize size) pages h.heapEnd h.heapEnd)) ∨
      (2 ^ 64 - 16 < size ∧ (∀ b ∈ bs, b.isFree = false) ∧ NoPage pages h.heapEnd) := by
  by_cases hlarge : 2 ^ 64 - 16 < size
  · rw [sizeSafe_iff_of_large hs hlarge hsize]
    have hnot : ¬ size ≤ 2 ^ 64 - 16 := Nat.not_le.mpr hlarge
    simp only [hnot, hlarge, false_and, true_and, false_or]
  have hle : size ≤ 2 ^ 64 - 16 := Nat.not_lt.mp hlarge
  simp only [hle, hlarge, false_and, true_and, or_false]
  rw [← kmallocLoop_isSome_iff hs (Nat.lt_succ_self pages.length)]
  have hk : h.kmalloc size pages = Heap.kmallocLoop (alignSize size) (pages.length + 1) pages h :=
    if_neg (by omega)
  rw [← hk, Option.isSome_iff_exists]
  constructor
  · rintro ⟨h', ptr, bs', hk', -⟩
    exact ⟨(h', ptr), hk'⟩
  · rintro ⟨⟨h', ptr⟩, hk'⟩
    obtain ⟨bs', hserved⟩ := kmalloc_spec hs hle hk'
    have hseg := hserved.shaped.laid.seg
    rw [← hserved.shaped.start] at hseg
    refine ⟨h', ptr, bs', hk', hseg, ?_⟩
    rcases hserved.given with hz | ⟨c, hc⟩
    · exact .inl ⟨hz, hserved.keeps, hserved.untouched⟩
    · exact .inr ⟨c, hc.mem, hc.used, hc.payload, hc.fits⟩

/-- The heap after `kmalloc_init` is one free block. -/
theorem shaped_bootPages : ∃ h bs, Heap.kmallocInit bootPages = some h ∧ Shaped h bs ∧
    ∃ b ∈ bs, b.isFree = true := by
  have hinit : (Heap.kmallocInit bootPages).map (fun h => (h.heapEnd, h.heapPtr,
      isFreeAt h.mem kheapStartAddr)) = some (kheapStartAddr + heapMinSize, kheapStartAddr, 1) := by
    decide +kernel
  obtain ⟨h, hi, hres⟩ := Option.map_eq_some_iff.mp hinit
  simp only [Prod.mk.injEq] at hres
  obtain ⟨hend, -, hfree⟩ := hres
  obtain ⟨bs, hplaced⟩ := Client.placed_init hi hend
  have hs : Shaped h bs := hplaced.shaped
  refine ⟨h, bs, hi, hs, ?_⟩
  cases bs with
  | nil => exact absurd rfl hs.nonempty
  | cons b bs =>
    obtain ⟨hb, r, hholds, -⟩ := hs.laid.seg
    have haddr : b.addr = kheapStartAddr := hb
    have hone := hholds.2.2.1
    rw [haddr, hfree] at hone
    refine ⟨b, List.mem_cons_self, ?_⟩
    by_contra hused
    rw [if_neg hused] at hone
    cases hone

theorem kmalloc_sizeSafe_bootPages : ∃ h bs, Heap.kmallocInit bootPages = some h ∧
    (h.SizeSafe bs 100 [] ↔
      (100 ≤ 2 ^ 64 - 16 ∧ ((∃ b ∈ bs, b.isFree = true ∧ alignSize 100 ≤ b.size) ∨
        Mappable (alignSize 100) [] h.heapEnd h.heapEnd)) ∨
      (2 ^ 64 - 16 < 100 ∧ (∀ b ∈ bs, b.isFree = false) ∧ NoPage [] h.heapEnd)) := by
  obtain ⟨h, bs, hi, hs, -⟩ := shaped_bootPages
  exact ⟨h, bs, hi, kmalloc_sizeSafe_iff hs (by decide) (by decide) []⟩

/-- A request for `2^64 - 1` bytes is given a block of none. -/
theorem kmalloc_huge_not_sizeSafe : ∃ h bs, Heap.kmallocInit bootPages = some h ∧ Shaped h bs ∧
    ¬ h.SizeSafe bs (2 ^ 64 - 1) [] := by
  obtain ⟨h, bs, hi, hs, b, hb, hfree⟩ := shaped_bootPages
  refine ⟨h, bs, hi, hs, fun hsafe => ?_⟩
  have hused := ((sizeSafe_iff_of_large hs (by decide) (by decide)).mp hsafe).1 b hb
  rw [hused] at hfree
  cases hfree

end Sandflea
