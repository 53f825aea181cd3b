import Mathlib

/-!
# Linked blocks laid end to end

Blocks of memory, each with a header at its start that says where the next block is. `Seg` is a segment
of the list that such headers form, and `Tiles` says that blocks lie end to end. The two together
(`Laid`) are what an allocator keeps of its blocks; `Laid.replace` is the one rule for its changes: some
blocks in a row are replaced by others that fill the same space, and nothing else is written.
-/

namespace BlockList

/-- How a block `b : N` lies in a memory of words `W`. -/
structure Layout (N W : Type) where
  /-- The address of the header. -/
  addr : N → ℕ
  /-- The bytes that the block takes, with the header. -/
  extent : N → ℕ
  /-- The bytes that a header takes. -/
  head : ℕ
  head_pos : 0 < head
  /-- The memory holds the header of a block, which points to an address. -/
  Holds : (ℕ → W) → N → ℕ → Prop
  /-- A header is read from its bytes alone. -/
  holds_congr : ∀ {m m' : ℕ → W} {b : N} {q : ℕ},
    (∀ x, addr b ≤ x → x < addr b + head → m' x = m x) → Holds m b q → Holds m' b q

variable {N W : Type} (L : Layout N W)

/-- The headers lead from an address through the blocks to another address. -/
def Seg (m : ℕ → W) : ℕ → List N → ℕ → Prop
  | p, [], q => p = q
  | p, b :: bs, q => L.addr b = p ∧ ∃ r, L.Holds m b r ∧ Seg m r bs q

/-- The blocks lie end to end from an address to another. -/
def Tiles : ℕ → List N → ℕ → Prop
  | a, [], e => a = e
  | a, b :: bs, e => L.addr b = a ∧ L.head ≤ L.extent b ∧ Tiles (a + L.extent b) bs e

variable {L} {m m' : ℕ → W} {p q a e : ℕ} {b : N} {bs cs : List N}

theorem seg_append :
    Seg L m p (bs ++ cs) q ↔ ∃ r, Seg L m p bs r ∧ Seg L m r cs q := by
  induction bs generalizing p with
  | nil => exact ⟨fun h => ⟨p, rfl, h⟩, fun ⟨r, hr, h⟩ => hr ▸ h⟩
  | cons b bs ih =>
    constructor
    · rintro ⟨ha, r, hb, h⟩
      obtain ⟨s, hs, h⟩ := ih.mp h
      exact ⟨s, ⟨ha, r, hb, hs⟩, h⟩
    · rintro ⟨s, ⟨ha, r, hb, hs⟩, h⟩
      exact ⟨ha, r, hb, ih.mpr ⟨s, hs, h⟩⟩

theorem tiles_append :
    Tiles L a (bs ++ cs) e ↔ ∃ r, Tiles L a bs r ∧ Tiles L r cs e := by
  induction bs generalizing a with
  | nil => exact ⟨fun h => ⟨a, rfl, h⟩, fun ⟨r, hr, h⟩ => hr ▸ h⟩
  | cons b bs ih =>
    constructor
    · rintro ⟨ha, hb, h⟩
      obtain ⟨s, hs, h⟩ := ih.mp h
      exact ⟨s, ⟨ha, hb, hs⟩, h⟩
    · rintro ⟨s, ⟨ha, hb, hs⟩, h⟩
      exact ⟨ha, hb, ih.mpr ⟨s, hs, h⟩⟩

/-- The memory holds the header of every block of a segment. -/
theorem Seg.holds (h : Seg L m p bs q) (hb : b ∈ bs) : ∃ r, L.Holds m b r := by
  induction bs generalizing p with
  | nil => exact absurd hb List.not_mem_nil
  | cons c cs ih =>
    obtain ⟨-, r, hc, h⟩ := h
    rcases List.mem_cons.mp hb with rfl | hb
    · exact ⟨r, hc⟩
    · exact ih h hb

/-- A segment is read from its headers alone. -/
theorem Seg.congr (h : Seg L m p bs q)
    (hm : ∀ b ∈ bs, ∀ x, L.addr b ≤ x → x < L.addr b + L.head → m' x = m x) :
    Seg L m' p bs q := by
  induction bs generalizing p with
  | nil => exact h
  | cons b bs ih =>
    obtain ⟨ha, r, hb, h⟩ := h
    exact ⟨ha, r, L.holds_congr (hm b List.mem_cons_self) hb,
      ih h fun c hc => hm c (List.mem_cons_of_mem b hc)⟩

theorem Tiles.le (h : Tiles L a bs e) : a ≤ e := by
  induction bs generalizing a with
  | nil => exact h.le
  | cons b bs ih => exact (Nat.le_add_right _ _).trans (ih h.2.2)

/-- Every block lies between the ends. -/
theorem Tiles.bounds (h : Tiles L a bs e) (hb : b ∈ bs) :
    a ≤ L.addr b ∧ L.head ≤ L.extent b ∧ L.addr b + L.extent b ≤ e := by
  induction bs generalizing a with
  | nil => exact absurd hb List.not_mem_nil
  | cons c cs ih =>
    obtain ⟨hc, hpos, h⟩ := h
    rcases List.mem_cons.mp hb with rfl | hb
    · exact ⟨hc.ge, hpos, hc ▸ h.le⟩
    · obtain ⟨hle, hpos', hend⟩ := ih h hb
      exact ⟨(Nat.le_add_right _ _).trans hle, hpos', hend⟩

/-- There are no more blocks than bytes. -/
theorem Tiles.length_le {k : ℕ} (h : Tiles L a bs e) (hk : ∀ b ∈ bs, k ≤ L.extent b) :
    a + bs.length * k ≤ e := by
  induction bs generalizing a with
  | nil =>
    rw [List.length_nil, zero_mul]
    exact h.le
  | cons b bs ih =>
    have hrest := ih h.2.2 fun c hc => hk c (List.mem_cons_of_mem b hc)
    have hb := hk b List.mem_cons_self
    rw [List.length_cons, Nat.succ_mul]
    omega

/-- Blocks do not overlap, and come in the order of their addresses. -/
theorem Tiles.pairwise (h : Tiles L a bs e) :
    bs.Pairwise fun b c => L.addr b + L.extent b ≤ L.addr c := by
  induction bs generalizing a with
  | nil => exact List.Pairwise.nil
  | cons b bs ih =>
    refine List.Pairwise.cons (fun c hc => ?_) (ih h.2.2)
    rw [h.1]
    exact (h.2.2.bounds hc).1

theorem Tiles.sorted (h : Tiles L a bs e) : bs.Pairwise fun b c => L.addr b < L.addr c := by
  refine List.Pairwise.imp_of_mem (fun {b c} hb _ hle => ?_) h.pairwise
  have hpos := L.head_pos
  have hhead := (h.bounds hb).2.1
  omega

/-- Two blocks are the same or apart. -/
theorem Tiles.apart {c : N} (h : Tiles L a bs e) (hb : b ∈ bs) (hc : c ∈ bs) :
    b = c ∨ L.addr b + L.extent b ≤ L.addr c ∨ L.addr c + L.extent c ≤ L.addr b := by
  induction bs generalizing a with
  | nil => exact absurd hb List.not_mem_nil
  | cons d ds ih =>
    obtain ⟨hd, -, h⟩ := h
    rcases List.mem_cons.mp hb with rfl | hb' <;> rcases List.mem_cons.mp hc with rfl | hc'
    · exact .inl rfl
    · exact .inr (.inl (hd ▸ (h.bounds hc').1))
    · exact .inr (.inr (hd ▸ (h.bounds hb').1))
    · exact ih h hb' hc'

/-- Blocks at one address are the same. -/
theorem Tiles.addr_inj {c : N} (h : Tiles L a bs e) (hb : b ∈ bs) (hc : c ∈ bs)
    (hbc : L.addr b = L.addr c) : b = c := by
  have hpos := L.head_pos
  have hheadb := (h.bounds hb).2.1
  have hheadc := (h.bounds hc).2.1
  rcases h.apart hb hc with he | hle | hle
  · exact he
  · omega
  · omega

/-- The blocks fill the space between the ends. -/
theorem Tiles.sum (h : Tiles L a bs e) : a + (bs.map L.extent).sum = e := by
  induction bs generalizing a with
  | nil => exact h
  | cons b bs ih =>
    calc a + ((b :: bs).map L.extent).sum
        = (a + L.extent b) + (bs.map L.extent).sum := by
          rw [List.map_cons, List.sum_cons, Nat.add_assoc]
      _ = e := ih h.2.2

/-- A block that begins where another ends is the next one of the list. -/
theorem Tiles.adjacent {R : N → N → Prop} {c : N} (h : Tiles L a bs e) (hR : bs.IsChain R)
    (hb : b ∈ bs) (hc : c ∈ bs) (hbc : L.addr b + L.extent b = L.addr c) : R b c := by
  have hpos := L.head_pos
  induction bs generalizing a with
  | nil => exact absurd hb List.not_mem_nil
  | cons d ds ih =>
    have hbhead := (h.bounds hb).2.1
    obtain ⟨hd, -, htail⟩ := h
    have hcds : c ∈ ds := by
      rcases List.mem_cons.mp hc with rfl | hc
      · -- the first block begins where no other ends
        rcases List.mem_cons.mp hb with rfl | hb
        · omega
        · have hle := (htail.bounds hb).1
          omega
      · exact hc
    rcases List.mem_cons.mp hb with rfl | hb
    · cases ds with
      | nil => exact absurd hcds List.not_mem_nil
      | cons f fs =>
        have hf : L.addr f = L.addr c := by rw [htail.1, ← hbc, hd]
        have hfc : f = c := htail.addr_inj List.mem_cons_self hcds hf
        rw [← hfc]
        exact (List.isChain_cons_cons.mp hR).1
    · exact ih htail hR.tail hb hcds

/-! ## Changes -/

/-- The headers lead through blocks that lie end to end. -/
structure Laid (L : Layout N W) (m : ℕ → W) (a : ℕ) (bs : List N) (e q : ℕ) : Prop where
  seg : Seg L m a bs q
  tiles : Tiles L a bs e

theorem Laid.congr (h : Laid L m a bs e q) (hm : ∀ x, a ≤ x → x < e → m' x = m x) :
    Laid L m' a bs e q := by
  refine ⟨h.seg.congr fun b hb x hx hxe => ?_, h.tiles⟩
  obtain ⟨hle, hhead, hend⟩ := h.tiles.bounds hb
  exact hm x (hle.trans hx) (by omega)

/-- What is written behind the header of a block leaves the list as it is. -/
theorem Laid.write (h : Laid L m a bs e q) (hb : b ∈ bs)
    (hm : ∀ x, x < L.addr b + L.head ∨ L.addr b + L.extent b ≤ x → m' x = m x) :
    Laid L m' a bs e q := by
  refine ⟨h.seg.congr fun c hc x hx hxe => hm x ?_, h.tiles⟩
  have hhead := (h.tiles.bounds hc).2.1
  rcases h.tiles.apart hb hc with rfl | hle | hle
  · exact .inl hxe
  · exact .inr (hle.trans hx)
  · left
    omega

/-- The first of two rows of blocks leads to the second. -/
theorem laid_append (hc : cs ≠ []) :
    Laid L m a (bs ++ cs) e q ↔ ∃ r, Laid L m a bs r r ∧ Laid L m r cs e q := by
  constructor
  · rintro ⟨hseg, htiles⟩
    obtain ⟨r, hs₁, hs₂⟩ := seg_append.mp hseg
    obtain ⟨s, ht₁, ht₂⟩ := tiles_append.mp htiles
    have hrs : r = s := by
      cases cs with
      | nil => exact absurd rfl hc
      | cons c cs => exact hs₂.1.symm.trans ht₂.1
    subst hrs
    exact ⟨r, ⟨hs₁, ht₁⟩, hs₂, ht₂⟩
  · rintro ⟨r, h₁, h₂⟩
    exact ⟨seg_append.mpr ⟨r, h₁.seg, h₂.seg⟩, tiles_append.mpr ⟨r, h₁.tiles, h₂.tiles⟩⟩

/-- The last blocks can be replaced by any others, from the same address on. -/
theorem Laid.replaceLast {pre old : List N} (h : Laid L m a (pre ++ old) e q) (hold : old ≠ []) :
    ∃ r, a ≤ r ∧ Laid L m r old e q ∧ ∀ m' new e' q', new ≠ [] → (∀ x < r, m' x = m x) →
      Laid L m' r new e' q' → Laid L m' a (pre ++ new) e' q' := by
  obtain ⟨r, hpre, hrest⟩ := (laid_append hold).mp h
  refine ⟨r, hpre.tiles.le, hrest, fun m' new e' q' hnew hm hlaid => ?_⟩
  exact (laid_append hnew).mpr ⟨r, hpre.congr fun x _ hx => hm x hx, hlaid⟩

/-- Blocks in a row can be replaced by others that fill the same space and lead to the same address, if
nothing else is written. -/
theorem Laid.replace {pre old post : List N} (h : Laid L m a (pre ++ (old ++ post)) e q)
    (hold : old ≠ []) :
    ∃ r s t, a ≤ r ∧ s ≤ e ∧ Laid L m r old s t ∧ ∀ m' new, new ≠ [] →
      (∀ x, x < r ∨ s ≤ x → m' x = m x) → Laid L m' r new s t →
        Laid L m' a (pre ++ (new ++ post)) e q := by
  obtain ⟨r, hle, hrest, hback⟩ := h.replaceLast (List.append_ne_nil_of_left_ne_nil hold post)
  by_cases hpost : post = []
  · subst hpost
    rw [List.append_nil] at hrest
    refine ⟨r, e, q, hle, le_rfl, hrest, fun m' new hnew hm hlaid => ?_⟩
    rw [List.append_nil]
    exact hback m' new e q hnew (fun x hx => hm x (.inl hx)) hlaid
  · obtain ⟨s, h₁, h₂⟩ := (laid_append hpost).mp hrest
    refine ⟨r, s, s, hle, h₂.tiles.le, h₁, fun m' new hnew hm hlaid => ?_⟩
    refine hback m' (new ++ post) e q (List.append_ne_nil_of_left_ne_nil hnew post)
      (fun x hx => hm x (.inl hx)) ?_
    exact (laid_append hpost).mpr ⟨s, hlaid, h₂.congr fun x hx _ => hm x (.inr hx)⟩

end BlockList
