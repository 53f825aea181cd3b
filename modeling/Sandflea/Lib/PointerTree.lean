import Mathlib

/-!
# Forests of pointer nodes

A forest is a set of roots over a store of nodes. A node holds an array of pointers, 0 is the null
pointer, and a tree has a fixed depth: the pointers at that depth (its leaves) point to whatever the
user keeps there. The radix tree of a page table and the block map of an inode are such forests.

An address is a root and a list of indices, and `ptr` follows it. A forest is tree-shaped when no two
addresses hold the same pointer (`TreeShaped`). The one operation is `set`, an assignment to the
pointer at an address, with `ptr_set`: in a tree-shaped forest it changes the pointer at that address
and no other. `insert` is the descent that links the missing nodes of a path and sets its leaf, writing
every node back on the way up; `insert_eq` takes it apart into links of blank nodes (`Links`) and one
assignment to the leaf.
-/

namespace PointerTree

/-- How a node holds its pointers. Pointers below `bound` can be stored. -/
structure NodeOps (N : Type) where
  /-- The pointer at an index. -/
  get : N → ℕ → ℕ
  /-- The node with another pointer at an index. -/
  put : N → ℕ → ℕ → N
  /-- The node of null pointers. -/
  blank : N
  /-- Pointers below it can be stored. -/
  bound : ℕ
  get_put : ∀ x i {v}, v < bound → get (put x i v) i = v
  get_put_of_ne : ∀ x {i j} v, i ≠ j → get (put x i v) j = get x j
  get_blank : ∀ i, get blank i = 0

/-- The shape of a forest: how many roots, how many pointers in a node, how deep each tree is. -/
structure Shape where
  /-- The number of roots. -/
  slots : ℕ
  /-- The number of pointers in a node. -/
  fanout : ℕ
  /-- The depth of the tree at a root. -/
  depth : ℕ → ℕ

/-- The addresses of a forest: a root, and the indices on the way down from it. -/
abbrev Addr := ℕ × List ℕ

/-- An address of a shape. -/
structure Shape.Valid (S : Shape) (a : Addr) : Prop where
  slot : a.1 < S.slots
  depth : a.2.length ≤ S.depth a.1
  index : ∀ i ∈ a.2, i < S.fanout

/-- An address whose pointer is at the depth of its tree. -/
def Shape.Leaf (S : Shape) (a : Addr) : Prop := S.Valid a ∧ a.2.length = S.depth a.1

/-- Roots over a store of nodes. -/
structure Forest (N : Type) where
  /-- The pointer at a root. -/
  root : ℕ → ℕ
  /-- The node that a pointer points to. -/
  store : ℕ → N

variable {N : Type} (O : NodeOps N)

/-- Follow indices down from a pointer. -/
def walk (st : ℕ → N) : ℕ → List ℕ → ℕ
  | t, [] => t
  | t, i :: is => if t = 0 then 0 else walk st (O.get (st t) i) is

/-- The pointer at an address. -/
def ptr (F : Forest N) (a : Addr) : ℕ := walk O F.store (F.root a.1) a.2

/-- No pointer stands at two addresses. -/
def TreeShaped (S : Shape) (F : Forest N) : Prop :=
  ∀ a b, S.Valid a → S.Valid b → ptr O F a ≠ 0 → ptr O F a = ptr O F b → a = b

/-- A pointer that stands at no address. -/
def Unreferenced (S : Shape) (F : Forest N) (v : ℕ) : Prop := ∀ a, S.Valid a → ptr O F a ≠ v

/-- Assign to the pointer at an address. -/
def set (F : Forest N) (a : Addr) (v : ℕ) : Forest N :=
  match a.2.getLast? with
  | none => { F with root := Function.update F.root a.1 v }
  | some i =>
    let parent := ptr O F (a.1, a.2.dropLast)
    { F with store := Function.update F.store parent (O.put (F.store parent) i v) }

/-- Places are filled in two rounds: the empty ones among all are those of the first round, and those of the second
that are still empty after the first. -/
theorem card_empty_union {α : Type*} [DecidableEq α] {p q : α → Prop} [DecidablePred p] [DecidablePred q]
    {as bs : Finset α} (h : ∀ a ∈ bs, q a ↔ p a ∧ a ∉ as) :
    ((as ∪ bs).filter p).card = (as.filter p).card + (bs.filter q).card := by
  have hdisjoint : Disjoint (as.filter p) (bs.filter q) := by
    refine Finset.disjoint_left.mpr fun a ha hb => ?_
    obtain ⟨hmem, hq⟩ := Finset.mem_filter.mp hb
    exact ((h a hmem).mp hq).2 (Finset.mem_filter.mp ha).1
  rw [← Finset.card_union_of_disjoint hdisjoint]
  congr 1
  ext a
  simp only [Finset.mem_union, Finset.mem_filter]
  constructor
  · rintro ⟨ha | ha, hp⟩
    · exact .inl ⟨ha, hp⟩
    · by_cases has : a ∈ as
      · exact .inl ⟨has, hp⟩
      · exact .inr ⟨ha, (h a ha).mpr ⟨hp, has⟩⟩
  · rintro (⟨ha, hp⟩ | ⟨ha, hq⟩)
    · exact ⟨.inl ha, hp⟩
    · exact ⟨.inr ha, ((h a ha).mp hq).1⟩

/-! ## Walks -/

variable {O}

@[simp] theorem walk_nil (st : ℕ → N) (t : ℕ) : walk O st t [] = t := rfl

@[simp] theorem walk_zero (st : ℕ → N) (is : List ℕ) : walk O st 0 is = 0 := by
  cases is <;> simp [walk]

theorem walk_append (st : ℕ → N) (t : ℕ) (is js : List ℕ) :
    walk O st t (is ++ js) = walk O st (walk O st t is) js := by
  induction is generalizing t with
  | nil => rfl
  | cons i is ih =>
    rw [List.cons_append, walk, walk]
    split
    · rw [walk_zero]
    · exact ih _

theorem walk_concat (st : ℕ → N) (t : ℕ) (is : List ℕ) (i : ℕ) :
    walk O st t (is ++ [i]) =
      if walk O st t is = 0 then 0 else O.get (st (walk O st t is)) i := by
  rw [walk_append, walk, walk_nil]

theorem ptr_concat (F : Forest N) (s : ℕ) (is : List ℕ) (i : ℕ) :
    ptr O F (s, is ++ [i]) =
      if ptr O F (s, is) = 0 then 0 else O.get (F.store (ptr O F (s, is))) i :=
  walk_concat _ _ _ _

theorem Shape.Valid.init {S : Shape} {s : ℕ} {is js : List ℕ} (h : S.Valid (s, is ++ js)) :
    S.Valid (s, is) where
  slot := h.slot
  depth := le_trans (by simp) h.depth
  index i hi := h.index i (List.mem_append_left _ hi)

/-- Walks see only the nodes that they pass. -/
theorem walk_congr {st st' : ℕ → N} {t : ℕ} {is : List ℕ}
    (h : ∀ js, js <+: is → js ≠ is → walk O st t js ≠ 0 →
      ∀ i, O.get (st' (walk O st t js)) i = O.get (st (walk O st t js)) i) :
    walk O st' t is = walk O st t is := by
  induction is using List.reverseRecOn with
  | nil => rfl
  | append_singleton is i ih =>
    have hwalk : walk O st' t is = walk O st t is := by
      refine ih fun js hjs hne => h js (hjs.trans (List.prefix_append _ _)) ?_
      rintro rfl
      have := hjs.length_le
      simp at this
    rw [walk_concat, walk_concat, hwalk]
    split
    · rfl
    · next hne => rw [h is (List.prefix_append _ _) (by simp) hne]

/-- A forest is the same over two stores that agree on the nodes above its leaves. -/
theorem ptr_congr {S : Shape} {F F' : Forest N} (hroot : ∀ s < S.slots, F'.root s = F.root s)
    (h : ∀ a, S.Valid a → a.2.length < S.depth a.1 → ptr O F a ≠ 0 →
      ∀ i, O.get (F'.store (ptr O F a)) i = O.get (F.store (ptr O F a)) i) {a : Addr}
    (ha : S.Valid a) : ptr O F' a = ptr O F a := by
  obtain ⟨s, is⟩ := a
  rw [ptr, ptr, hroot s ha.slot]
  refine walk_congr fun js hjs hne hwalk => ?_
  obtain ⟨ks, rfl⟩ := hjs
  have hks : 0 < ks.length := by
    apply List.length_pos_of_ne_nil
    rintro rfl
    exact hne (by simp)
  have hdepth := ha.depth
  simp only [List.length_append] at hdepth
  exact h (s, js) ha.init (by simp only; omega) hwalk

/-! ## Assignment -/

theorem set_nil (F : Forest N) (s v : ℕ) :
    set O F (s, []) v = { F with root := Function.update F.root s v } := rfl

theorem set_concat (F : Forest N) (s : ℕ) (is : List ℕ) (i v : ℕ) :
    set O F (s, is ++ [i]) v = { F with
      store := Function.update F.store (ptr O F (s, is))
        (O.put (F.store (ptr O F (s, is))) i v) } := by
  simp [set]

theorem store_set_concat (F : Forest N) (s : ℕ) (is : List ℕ) (i v : ℕ) :
    (set O F (s, is ++ [i]) v).store = Function.update F.store (ptr O F (s, is))
      (O.put (F.store (ptr O F (s, is))) i v) := by
  rw [set_concat]

/-- The pointer at an address hangs below a node, or is a root. -/
def Hangs (O : NodeOps N) (F : Forest N) (a : Addr) : Prop :=
  a.2 ≠ [] → ptr O F (a.1, a.2.dropLast) ≠ 0

/-- An assignment to a pointer changes no other, in a tree-shaped forest: the new pointer is null, or
a leaf, or points to a blank node from nowhere else. -/
theorem ptr_set {S : Shape} {F : Forest N} (hF : TreeShaped O S F) {a : Addr} (ha : S.Valid a)
    (hangs : Hangs O F a) {v : ℕ} (hbound : v < O.bound)
    (hv : S.Leaf a ∨ ptr O F a = 0 ∧ Unreferenced O S F v ∧ ∀ i < S.fanout, O.get (F.store v) i = 0)
    {b : Addr} (hb : S.Valid b) :
    ptr O (set O F a v) b = if b = a then v else ptr O F b := by
  obtain ⟨s, path⟩ := a
  obtain ⟨s', js⟩ := b
  -- the induction follows the address that is read, from its root
  induction js using List.reverseRecOn with
  | nil =>
    rcases List.eq_nil_or_concat path with rfl | ⟨is, i, rfl⟩
    · by_cases hs : s' = s
      · subst hs
        simp [set_nil, ptr]
      · simp [set_nil, ptr, hs]
    · rw [if_neg (by simp), List.concat_eq_append, set_concat]
      rfl
  | append_singleton js j ih =>
    have hjs := hb.init
    have ih := ih hjs
    rw [ptr_concat, ih]
    by_cases hparent : (s', js) = (s, path)
    · -- below the assigned pointer
      rw [if_pos hparent, Prod.mk.injEq] at *
      obtain ⟨rfl, rfl⟩ := hparent
      have hlen : js.length < S.depth s' := by
        have := hb.depth
        simp only [List.length_append, List.length_singleton] at this
        omega
      have hself : (s', js ++ [j]) ≠ (s', js) := by simp
      rw [if_neg hself]
      rcases hv with hleaf | ⟨hnull, hunref, hblank⟩
      · have hfull : js.length = S.depth s' := hleaf.2
        omega
      rw [ptr_concat, if_pos hnull]
      split
      · rfl
      have hj : j < S.fanout := hb.index j (by simp)
      rcases List.eq_nil_or_concat js with rfl | ⟨is, i, rfl⟩
      · exact hblank j hj
      · rw [List.concat_eq_append] at *
        rw [store_set_concat, Function.update_of_ne (fun h => hunref (s', is) ha.init h.symm)]
        exact hblank j hj
    · rw [if_neg hparent]
      by_cases hzero : ptr O F (s', js) = 0
      · rw [if_pos hzero, ptr_concat, if_pos hzero, if_neg]
        rintro h
        rw [Prod.mk.injEq] at h
        obtain ⟨rfl, rfl⟩ := h
        exact hangs (by simp) (by simpa using hzero)
      rw [if_neg hzero, ptr_concat, if_neg hzero]
      rcases List.eq_nil_or_concat path with rfl | ⟨is, i, rfl⟩
      · rw [if_neg (by simp)]
        rfl
      rw [List.concat_eq_append] at *
      rw [store_set_concat]
      by_cases hnode : (s', js) = (s, is)
      · rw [Prod.mk.injEq] at hnode
        obtain ⟨rfl, rfl⟩ := hnode
        rw [Function.update_self]
        by_cases hij : i = j
        · subst hij
          rw [if_pos rfl, O.get_put _ _ hbound]
        · rw [if_neg (by simpa using Ne.symm hij), O.get_put_of_ne _ _ hij]
      · have hne : ptr O F (s', js) ≠ ptr O F (s, is) := fun h =>
          hnode (hF _ _ hjs ha.init hzero h)
        rw [Function.update_of_ne hne, if_neg]
        intro h
        rw [Prod.mk.injEq] at h
        exact hnode (by rw [h.1, (List.append_inj' h.2 rfl).1])

/-- Assigning a pointer that stands nowhere keeps a forest tree-shaped. -/
theorem TreeShaped.of_ptr_set {S : Shape} {F F' : Forest N} (hF : TreeShaped O S F) {a : Addr} {v : ℕ}
    (hv : Unreferenced O S F v)
    (h : ∀ b, S.Valid b → ptr O F' b = if b = a then v else ptr O F b) : TreeShaped O S F' := by
  intro b c hb hc hne heq
  rw [h b hb] at hne heq
  rw [h c hc] at heq
  by_cases hba : b = a <;> by_cases hca : c = a
  · rw [hba, hca]
  · rw [if_pos hba, if_neg hca] at heq
    exact absurd heq.symm (hv c hc)
  · rw [if_neg hba, if_pos hca] at heq
    exact absurd heq (hv b hb)
  · rw [if_neg hba] at hne
    rw [if_neg hba, if_neg hca] at heq
    exact hF b c hb hc hne heq

/-! ## Links of blank nodes -/

/-- Pointers that an insertion may link: distinct, not null, and standing nowhere. -/
structure Fresh (O : NodeOps N) (S : Shape) (F : Forest N) (fs : List ℕ) : Prop where
  nodup : fs.Nodup
  ne_zero : ∀ f ∈ fs, f ≠ 0
  lt_bound : ∀ f ∈ fs, f < O.bound
  unreferenced : ∀ f ∈ fs, Unreferenced O S F f

/-- What linking the blank nodes `fs` does to a forest: no leaf and no pointer that was not null
changes, and the new pointers are those of `fs`. -/
structure Links (O : NodeOps N) (S : Shape) (F F' : Forest N) (fs : List ℕ) : Prop where
  tree : TreeShaped O S F'
  keeps : ∀ a, S.Valid a → ptr O F a ≠ 0 → ptr O F' a = ptr O F a
  leaves : ∀ a, S.Leaf a → ptr O F' a = ptr O F a
  new : ∀ a, S.Valid a → ptr O F' a ≠ 0 → ptr O F' a = ptr O F a ∨ ptr O F' a ∈ fs
  linked : ∀ f ∈ fs, ∃ a, S.Valid a ∧ ¬ S.Leaf a ∧ ptr O F' a = f

theorem Links.refl {S : Shape} {F : Forest N} (hF : TreeShaped O S F) : Links O S F F [] :=
  ⟨hF, fun _ _ _ => rfl, fun _ _ => rfl, fun _ _ _ => Or.inl rfl, fun _ h => by cases h⟩

theorem Links.trans {S : Shape} {F F' F'' : Forest N} {fs gs : List ℕ} (h : Links O S F F' fs)
    (h' : Links O S F' F'' gs) (hfs : ∀ f ∈ fs, f ≠ 0) : Links O S F F'' (fs ++ gs) where
  tree := h'.tree
  keeps a ha hne := by
    have hkeep := h.keeps a ha hne
    rw [h'.keeps a ha (by rwa [hkeep]), hkeep]
  leaves a ha := by rw [h'.leaves a ha, h.leaves a ha]
  new a ha hne := by
    rcases h'.new a ha hne with heq | hmem
    · rcases h.new a ha (by rwa [← heq]) with heq' | hmem
      · exact Or.inl (heq.trans heq')
      · exact Or.inr (List.mem_append_left _ (heq ▸ hmem))
    · exact Or.inr (List.mem_append_right _ hmem)
  linked f hf := by
    rcases List.mem_append.mp hf with hf | hf
    · obtain ⟨a, ha, hleaf, hptr⟩ := h.linked f hf
      refine ⟨a, ha, hleaf, ?_⟩
      rw [h'.keeps a ha (by rw [hptr]; exact hfs f hf), hptr]
    · exact h'.linked f hf

/-- Another forest with the pointers of the second. -/
theorem Links.congr {S : Shape} {F F' F'' : Forest N} {fs : List ℕ} (h : Links O S F F' fs)
    (hptr : ∀ a, S.Valid a → ptr O F'' a = ptr O F' a) : Links O S F F'' fs where
  tree a b ha hb := by
    rw [hptr a ha, hptr b hb]
    exact h.tree a b ha hb
  keeps a ha hne := (hptr a ha).trans (h.keeps a ha hne)
  leaves a ha := (hptr a ha.1).trans (h.leaves a ha)
  new a ha := by
    rw [hptr a ha]
    exact h.new a ha
  linked f hf := by
    obtain ⟨a, ha, hleaf, heq⟩ := h.linked f hf
    exact ⟨a, ha, hleaf, (hptr a ha).trans heq⟩

/-- The pointers that are not yet linked stay fresh. -/
theorem Links.fresh {S : Shape} {F F' : Forest N} {fs gs : List ℕ} (h : Links O S F F' fs)
    (hfresh : Fresh O S F (fs ++ gs)) : Fresh O S F' gs where
  nodup := (List.nodup_append.mp hfresh.nodup).2.1
  ne_zero f hf := hfresh.ne_zero f (List.mem_append_right _ hf)
  lt_bound f hf := hfresh.lt_bound f (List.mem_append_right _ hf)
  unreferenced f hf a ha heq := by
    have hmem := List.mem_append_right fs hf
    rcases h.new a ha (by rw [heq]; exact hfresh.ne_zero f hmem) with hold | hnew
    · exact hfresh.unreferenced f hmem a ha (hold ▸ heq)
    · rw [heq] at hnew
      exact (List.nodup_append.mp hfresh.nodup).2.2 f hnew f hf rfl

/-- A new node at a pointer that stands nowhere changes no pointer of the forest. -/
theorem ptr_update_store {S : Shape} {F : Forest N} {f : ℕ} (hf : Unreferenced O S F f) (x : N)
    {a : Addr} (ha : S.Valid a) : ptr O ⟨F.root, Function.update F.store f x⟩ a = ptr O F a := by
  refine ptr_congr (S := S) ?_ ?_ ha
  · intro s _
    rfl
  · intro b hb _ _ i
    simp only
    rw [Function.update_of_ne (hf b hb)]

/-- A forest with the same pointers is as tree-shaped. -/
theorem TreeShaped.congr {S : Shape} {F F' : Forest N} (hF : TreeShaped O S F)
    (h : ∀ a, S.Valid a → ptr O F' a = ptr O F a) : TreeShaped O S F' := by
  intro a b ha hb
  rw [h a ha, h b hb]
  exact hF a b ha hb

theorem Unreferenced.congr {S : Shape} {F F' : Forest N} {v : ℕ} (hv : Unreferenced O S F v)
    (h : ∀ a, S.Valid a → ptr O F' a = ptr O F a) : Unreferenced O S F' v := fun a ha => by
  rw [h a ha]
  exact hv a ha

/-- The forest with a blank node linked at an address. -/
def link (O : NodeOps N) (F : Forest N) (a : Addr) (f : ℕ) : Forest N :=
  set O ⟨F.root, Function.update F.store f O.blank⟩ a f

/-- One link: a null pointer above the leaves is set to a blank node. -/
theorem links_link {S : Shape} {F : Forest N} (hF : TreeShaped O S F) {f : ℕ} (hf0 : f ≠ 0)
    (hbound : f < O.bound) (hunref : Unreferenced O S F f) {a : Addr} (ha : S.Valid a)
    (hleaf : ¬ S.Leaf a) (hangs : Hangs O F a) (hnull : ptr O F a = 0) :
    Links O S F (link O F a f) [f] ∧ ptr O (link O F a f) a = f := by
  let F₀ : Forest N := ⟨F.root, Function.update F.store f O.blank⟩
  have hptr₀ : ∀ b, S.Valid b → ptr O F₀ b = ptr O F b := fun b hb => ptr_update_store hunref _ hb
  have hangs₀ : Hangs O F₀ a := by
    intro hne
    obtain ⟨s, is⟩ := a
    have hinit : S.Valid (s, is.dropLast) := by
      rw [← List.dropLast_append_getLast (l := is) hne] at ha
      exact ha.init
    rw [hptr₀ _ hinit]
    exact hangs hne
  have hblank : ∀ i < S.fanout, O.get (F₀.store f) i = 0 := by
    intro i _
    simp [F₀, O.get_blank]
  have hnull₀ : ptr O F₀ a = 0 := (hptr₀ a ha).trans hnull
  have hptr : ∀ b, S.Valid b → ptr O (link O F a f) b = if b = a then f else ptr O F b := by
    intro b hb
    rw [← hptr₀ b hb]
    exact ptr_set (hF.congr hptr₀) ha hangs₀ hbound (Or.inr ⟨hnull₀, hunref.congr hptr₀, hblank⟩) hb
  have hself : ptr O (link O F a f) a = f := by rw [hptr a ha, if_pos rfl]
  refine ⟨⟨hF.of_ptr_set hunref hptr, ?_, ?_, ?_, ?_⟩, hself⟩
  · intro b hb hne
    rw [hptr b hb, if_neg]
    rintro rfl
    exact hne hnull
  · intro b hb
    rw [hptr b hb.1, if_neg]
    rintro rfl
    exact hleaf hb
  · intro b hb _
    rw [hptr b hb]
    split
    · exact Or.inr (List.mem_singleton_self f)
    · exact Or.inl rfl
  · intro g hg
    obtain rfl := List.mem_singleton.mp hg
    exact ⟨a, ha, hleaf, hself⟩

/-! ## Insertion along a path -/

variable (O)

/-- The number of nodes that are missing below node `t` on a path. -/
def missing (st : ℕ → N) : ℕ → List ℕ → ℕ
  | _, [] => 0
  | _, [_] => 0
  | t, i :: j :: is =>
    if O.get (st t) i = 0 then is.length + 1 else missing st (O.get (st t) i) (j :: is)

/-- The descent from node `t` along a path: link the nodes that are missing, set the leaf to `p`, and
write every node of the path on the way up. -/
def insert (p : ℕ) : (ℕ → N) → ℕ → List ℕ → List ℕ → ℕ → N
  | st, _, [], _ => st
  | st, t, [i], _ => Function.update st t (O.put (st t) i p)
  | st, t, i :: j :: is, fs =>
    if O.get (st t) i = 0 then
      match fs with
      | [] => st
      | f :: fs =>
        Function.update (insert p (Function.update st f O.blank) f (j :: is) fs) t
          (O.put (st t) i f)
    else Function.update (insert p st (O.get (st t) i) (j :: is) fs) t (st t)

variable {O}

theorem insert_link {p : ℕ} {st : ℕ → N} {t i j f : ℕ} {is fs : List ℕ}
    (h : O.get (st t) i = 0) : insert O p st t (i :: j :: is) (f :: fs) =
      Function.update (insert O p (Function.update st f O.blank) f (j :: is) fs) t
        (O.put (st t) i f) :=
  if_pos h

theorem insert_link_nil {p : ℕ} {st : ℕ → N} {t i j : ℕ} {is : List ℕ}
    (h : O.get (st t) i = 0) : insert O p st t (i :: j :: is) [] = st :=
  if_pos h

theorem insert_pass {p : ℕ} {st : ℕ → N} {t i j : ℕ} {is fs : List ℕ}
    (h : O.get (st t) i ≠ 0) : insert O p st t (i :: j :: is) fs =
      Function.update (insert O p st (O.get (st t) i) (j :: is) fs) t (st t) := by
  cases fs <;> exact if_neg h

/-- The nodes that the descent from `t` passes. -/
def Passes (O : NodeOps N) (st : ℕ → N) (t : ℕ) (is : List ℕ) (b : ℕ) : Prop :=
  ∃ js, js <+: is ∧ js ≠ is ∧ walk O st t js = b

theorem passes_head (st : ℕ → N) (t i : ℕ) (is : List ℕ) : Passes O st t (i :: is) t :=
  ⟨[], List.nil_prefix, by simp, rfl⟩

theorem Passes.tail {st : ℕ → N} {t i b : ℕ} {is : List ℕ} (ht : t ≠ 0)
    (h : Passes O st (O.get (st t) i) is b) : Passes O st t (i :: is) b := by
  obtain ⟨js, hjs, hne, rfl⟩ := h
  refine ⟨i :: js, List.cons_prefix_cons.mpr ⟨rfl, hjs⟩, by simpa using hne, ?_⟩
  rw [walk, if_neg ht]

/-- Below a blank node a descent passes nothing. -/
theorem not_passes_blank {st : ℕ → N} {f i b : ℕ} {is : List ℕ} (hf : f ≠ b) (hb : b ≠ 0) :
    ¬ Passes O (Function.update st f O.blank) f (i :: is) b := by
  rintro ⟨js, -, -, hwalk⟩
  cases js with
  | nil => exact hf hwalk
  | cons j js =>
    rw [walk, Function.update_self, O.get_blank, walk_zero, ite_self] at hwalk
    exact hb hwalk.symm

/-- A descent leaves the nodes alone that it neither passes nor links. -/
theorem insert_of_not_passes {p : ℕ} {st : ℕ → N} {t b : ℕ} {is fs : List ℕ} (ht : t ≠ 0)
    (hb : b ≠ 0) (hfs : b ∉ fs) (hzero : 0 ∉ fs) (h : ¬ Passes O st t is b) :
    insert O p st t is fs b = st b := by
  induction is generalizing st t fs with
  | nil => rfl
  | cons i is ih =>
    have htb : b ≠ t := by
      rintro rfl
      exact h (passes_head _ _ _ _)
    cases is with
    | nil => rw [insert, Function.update_of_ne htb]
    | cons j is =>
      by_cases hnull : O.get (st t) i = 0
      · cases fs with
        | nil => rw [insert_link_nil hnull]
        | cons f fs =>
          simp only [List.mem_cons, not_or] at hfs hzero
          rw [insert_link hnull, Function.update_of_ne htb,
            ih (Ne.symm hzero.1) hfs.2 hzero.2 (not_passes_blank (Ne.symm hfs.1) hb),
            Function.update_of_ne hfs.1]
      · rw [insert_pass hnull, Function.update_of_ne htb,
          ih hnull hfs hzero fun hp => h (hp.tail ht)]

/-- A descent commutes with a change of a node that it neither passes nor links. -/
theorem insert_update {p : ℕ} {st : ℕ → N} {t b : ℕ} {is fs : List ℕ} (x : N) (ht : t ≠ 0)
    (hb : b ≠ 0) (hfs : b ∉ fs) (hzero : 0 ∉ fs) (h : ¬ Passes O st t is b) :
    insert O p (Function.update st b x) t is fs = Function.update (insert O p st t is fs) b x := by
  induction is generalizing st t fs with
  | nil => rfl
  | cons i is ih =>
    have htb : t ≠ b := by
      rintro rfl
      exact h (passes_head _ _ _ _)
    cases is with
    | nil => rw [insert, insert, Function.update_of_ne htb, Function.update_comm htb]
    | cons j is =>
      by_cases hnull : O.get (st t) i = 0
      · have hnull' : O.get (Function.update st b x t) i = 0 := by rwa [Function.update_of_ne htb]
        cases fs with
        | nil => rw [insert_link_nil hnull, insert_link_nil hnull']
        | cons f fs =>
          simp only [List.mem_cons, not_or] at hfs hzero
          rw [insert_link hnull, insert_link hnull', Function.update_comm hfs.1,
            ih (Ne.symm hzero.1) hfs.2 hzero.2 (not_passes_blank (Ne.symm hfs.1) hb),
            Function.update_comm htb, Function.update_of_ne htb]
      · have hnull' : O.get (Function.update st b x t) i ≠ 0 := by rwa [Function.update_of_ne htb]
        rw [insert_pass hnull, insert_pass hnull', Function.update_of_ne htb,
          ih hnull hfs hzero fun hp => h (hp.tail ht), Function.update_comm htb]

/-- The missing nodes are those of the nodes that the descent passes. -/
theorem missing_congr {st st' : ℕ → N} {t : ℕ} {is : List ℕ} (ht : t ≠ 0)
    (h : ∀ b, b ≠ 0 → Passes O st t is b → ∀ i, O.get (st' b) i = O.get (st b) i) :
    missing O st' t is = missing O st t is := by
  induction is generalizing t with
  | nil => rfl
  | cons i is ih =>
    cases is with
    | nil => rfl
    | cons j is =>
      rw [missing, missing, h t ht (passes_head _ _ _ _)]
      split
      · rfl
      · next hne => exact ih hne fun b hb hp => h b hb (hp.tail ht)

/-- In a tree-shaped forest a descent does not come back to a node above it. -/
theorem TreeShaped.not_passes {S : Shape} {F : Forest N} (hF : TreeShaped O S F) {s : ℕ}
    {pre is : List ℕ} {i : ℕ} (hv : S.Valid (s, pre ++ i :: is)) (hne : ptr O F (s, pre) ≠ 0) :
    ¬ Passes O F.store (ptr O F (s, pre ++ [i])) is (ptr O F (s, pre)) := by
  rintro ⟨js, hjs, -, hwalk⟩
  obtain ⟨ks, rfl⟩ := hjs
  have hptr : ptr O F (s, pre ++ [i] ++ js) = ptr O F (s, pre) := by
    rw [ptr, walk_append]
    exact hwalk
  have hvalid : S.Valid (s, pre ++ [i] ++ js) := by
    have hassoc : pre ++ i :: (js ++ ks) = pre ++ [i] ++ js ++ ks := by simp
    rw [hassoc] at hv
    exact hv.init
  have heq := hF _ _ hv.init hvalid hne hptr.symm
  simp at heq

/-- A descent links the missing nodes of its path and then sets the leaf. -/
theorem insert_eq {S : Shape} {F : Forest N} (hF : TreeShaped O S F) {s p : ℕ}
    {pre is fs : List ℕ} (hleaf : S.Leaf (s, pre ++ is)) (his : is ≠ [])
    (hne : ptr O F (s, pre) ≠ 0) (hfresh : Fresh O S F fs)
    (hlen : fs.length = missing O F.store (ptr O F (s, pre)) is) :
    ∃ F', Links O S F F' fs ∧ Hangs O F' (s, pre ++ is) ∧
      ({ F with store := insert O p F.store (ptr O F (s, pre)) is fs } : Forest N) =
        set O F' (s, pre ++ is) p := by
  -- the induction follows the path; `F` is the forest with the nodes above linked
  induction is generalizing F pre fs with
  | nil => exact absurd rfl his
  | cons i is ih =>
    cases is with
    | nil =>
      obtain rfl := List.eq_nil_of_length_eq_zero hlen
      exact ⟨F, Links.refl hF, fun _ => by simpa using hne, (set_concat F s pre i p).symm⟩
    | cons j is =>
      have hassoc : pre ++ i :: j :: is = (pre ++ [i]) ++ j :: is := by simp
      have hpass := hF.not_passes hleaf.1 hne
      have hchild : ptr O F (s, pre ++ [i]) = O.get (F.store (ptr O F (s, pre))) i := by
        rw [ptr_concat, if_neg hne]
      have hzero : 0 ∉ fs := fun h => hfresh.ne_zero 0 h rfl
      have hnode : ptr O F (s, pre) ∉ fs := fun h =>
        hfresh.unreferenced _ h (s, pre) hleaf.1.init rfl
      rw [hassoc] at hleaf ⊢
      rw [missing, ← hchild] at hlen
      by_cases hnull : ptr O F (s, pre ++ [i]) = 0
      · rw [if_pos hnull] at hlen
        obtain ⟨f, fs, rfl⟩ := List.exists_cons_of_length_eq_add_one hlen
        have hf0 := hfresh.ne_zero f List.mem_cons_self
        have hunref := hfresh.unreferenced f List.mem_cons_self
        simp only [List.mem_cons, not_or] at hzero hnode
        have hnotleaf : ¬ S.Leaf (s, pre ++ [i]) := by
          rintro ⟨-, hfull⟩
          have hlong := hleaf.2
          simp only [List.length_append, List.length_cons] at hlong hfull
          omega
        obtain ⟨hlinks, hptr⟩ := links_link hF hf0 (hfresh.lt_bound f List.mem_cons_self) hunref
          hleaf.1.init hnotleaf (fun _ => by simpa using hne) hnull
        have hstore : (link O F (s, pre ++ [i]) f).store =
            Function.update (Function.update F.store f O.blank) (ptr O F (s, pre))
              (O.put (F.store (ptr O F (s, pre))) i f) := by
          rw [link, store_set_concat, ptr_update_store hunref _ hleaf.1.init.init]
          simp only
          rw [Function.update_of_ne hnode.1]
        have hblank : O.get ((link O F (s, pre ++ [i]) f).store f) j = 0 := by
          rw [hstore, Function.update_of_ne (Ne.symm hnode.1), Function.update_self, O.get_blank]
        obtain ⟨F', hlinks', hangs', heq⟩ := ih hlinks.tree hleaf (by simp) (hptr.trans_ne hf0)
          (hlinks.fresh hfresh) (by
            rw [hptr]
            cases is with
            | nil => simpa [missing] using hlen
            | cons j' is =>
              rw [missing, if_pos hblank]
              simpa using hlen)
        refine ⟨F', hlinks.trans hlinks' (by simpa using hf0), hangs', ?_⟩
        rw [← heq, hptr, hstore, insert_update _ hf0 hne hnode.2 hzero.2
          (not_passes_blank (Ne.symm hnode.1) hne), insert_link (hchild ▸ hnull)]
        rw [link, set_concat]
      · rw [if_neg hnull] at hlen
        obtain ⟨F', hlinks, hangs, heq⟩ := ih hF hleaf (by simp) hnull hfresh hlen
        refine ⟨F', hlinks, hangs, ?_⟩
        rw [← heq, insert_pass (hchild ▸ hnull), ← hchild,
          ← insert_update _ hnull hne hnode hzero hpass, Function.update_eq_self]

/-! ## Insertion into a forest -/

variable (O)

/-- The number of nodes that are missing above a leaf. -/
def missingAt (F : Forest N) (a : Addr) : ℕ :=
  if a.2 = [] then 0
  else if F.root a.1 = 0 then a.2.length else missing O F.store (F.root a.1) a.2

variable {O} in
/-- The missing nodes of a leaf are those of the nodes above it. -/
theorem missingAt_congr {S : Shape} {F F' : Forest N} {a : Addr} (ha : S.Leaf a)
    (hroot : F'.root a.1 = F.root a.1)
    (h : ∀ b, S.Valid b → ¬ S.Leaf b → ptr O F b ≠ 0 →
      ∀ i, O.get (F'.store (ptr O F b)) i = O.get (F.store (ptr O F b)) i) :
    missingAt O F' a = missingAt O F a := by
  rw [missingAt, missingAt, hroot]
  split
  · rfl
  split
  · rfl
  next hne =>
  refine missing_congr hne ?_
  rintro b hb ⟨js, ⟨ks, hjs⟩, hne', rfl⟩
  obtain ⟨s, is⟩ := a
  simp only at hjs hne'
  subst hjs
  have hks : 0 < ks.length := List.length_pos_of_ne_nil fun h => hne' (by simp [h])
  refine h (s, js) ha.1.init ?_ hb
  rintro ⟨-, hfull⟩
  have hlong := ha.2
  simp only [List.length_append] at hlong hfull
  omega

/-- The forest with the leaf at an address set to `p`, and the nodes above it linked. -/
def graft (p : ℕ) (F : Forest N) (a : Addr) (fs : List ℕ) : Forest N :=
  if a.2 = [] then { F with root := Function.update F.root a.1 p }
  else if F.root a.1 = 0 then
    match fs with
    | [] => F
    | f :: fs =>
      ⟨Function.update F.root a.1 f, insert O p (Function.update F.store f O.blank) f a.2 fs⟩
  else { F with store := insert O p F.store (F.root a.1) a.2 fs }

variable {O}

/-- What a graft does to a forest: the leaf is `p`, no other leaf and no pointer that was not null
changes, and the new pointers are `p` and those of `fs`. -/
structure Grafted (O : NodeOps N) (S : Shape) (F F' : Forest N) (a : Addr) (p : ℕ) (fs : List ℕ) :
    Prop where
  tree : TreeShaped O S F'
  leaf : ptr O F' a = p
  keeps : ∀ b, S.Valid b → b ≠ a → ptr O F b ≠ 0 → ptr O F' b = ptr O F b
  leaves : ∀ b, S.Leaf b → b ≠ a → ptr O F' b = ptr O F b
  new : ∀ b, S.Valid b → ptr O F' b ≠ 0 → ptr O F' b = ptr O F b ∨ ptr O F' b ∈ p :: fs
  linked : ∀ f ∈ fs, ∃ b, S.Valid b ∧ ¬ S.Leaf b ∧ ptr O F' b = f

/-- Another forest with the pointers of the second. -/
theorem Grafted.congr {S : Shape} {F F' F'' : Forest N} {a : Addr} {p : ℕ} {fs : List ℕ}
    (h : Grafted O S F F' a p fs) (ha : S.Valid a)
    (hptr : ∀ b, S.Valid b → ptr O F'' b = ptr O F' b) : Grafted O S F F'' a p fs where
  tree := h.tree.congr hptr
  leaf := (hptr a ha).trans h.leaf
  keeps b hb hba hne := (hptr b hb).trans (h.keeps b hb hba hne)
  leaves b hb hba := (hptr b hb.1).trans (h.leaves b hb hba)
  new b hb := by
    rw [hptr b hb]
    exact h.new b hb
  linked f hf := by
    obtain ⟨b, hb, hleaf, heq⟩ := h.linked f hf
    exact ⟨b, hb, hleaf, (hptr b hb).trans heq⟩

/-- Links and an assignment to a leaf make a graft. -/
theorem Links.grafted {S : Shape} {F F' : Forest N} {fs : List ℕ} {a : Addr} {p : ℕ}
    (h : Links O S F F' fs) (ha : S.Leaf a) (hangs : Hangs O F' a) (hp : p < O.bound)
    (hunref : Unreferenced O S F' p) : Grafted O S F (set O F' a p) a p fs := by
  have hptr : ∀ b, S.Valid b → ptr O (set O F' a p) b = if b = a then p else ptr O F' b :=
    fun b hb => ptr_set h.tree ha.1 hangs hp (Or.inl ha) hb
  refine ⟨h.tree.of_ptr_set hunref hptr, by rw [hptr a ha.1, if_pos rfl], ?_, ?_, ?_, ?_⟩
  · intro b hb hba hne
    rw [hptr b hb, if_neg hba, h.keeps b hb hne]
  · intro b hb hba
    rw [hptr b hb.1, if_neg hba, h.leaves b hb]
  · intro b hb hne
    rw [hptr b hb] at hne ⊢
    split at hne
    · next hba => exact Or.inr (by simp [hba])
    · next hba =>
      rw [if_neg hba]
      exact (h.new b hb hne).imp id (List.mem_cons_of_mem _)
  · intro f hf
    obtain ⟨b, hb, hleaf, hptrb⟩ := h.linked f hf
    refine ⟨b, hb, hleaf, ?_⟩
    rw [hptr b hb, if_neg, hptrb]
    rintro rfl
    exact hleaf ha

/-- A pointer apart from the links stands nowhere after them either. -/
theorem Links.unreferenced {S : Shape} {F F' : Forest N} {fs : List ℕ} (h : Links O S F F' fs)
    {p : ℕ} (hp : p ≠ 0) (hfs : p ∉ fs) (hunref : Unreferenced O S F p) :
    Unreferenced O S F' p := by
  intro a ha heq
  rcases h.new a ha (heq.trans_ne hp) with hold | hnew
  · exact hunref a ha (hold ▸ heq)
  · exact hfs (heq ▸ hnew)

/-- A graft into a tree-shaped forest, with as many fresh nodes as are missing. -/
theorem grafted_graft {S : Shape} {F : Forest N} (hF : TreeShaped O S F) {a : Addr} (ha : S.Leaf a)
    {p : ℕ} {fs : List ℕ} (hp0 : p ≠ 0) (hp : p < O.bound) (hunref : Unreferenced O S F p)
    (hpfs : p ∉ fs) (hfresh : Fresh O S F fs) (hlen : fs.length = missingAt O F a) :
    Grafted O S F (graft O p F a fs) a p fs := by
  obtain ⟨s, is⟩ := a
  by_cases his : is = []
  · subst his
    obtain rfl := List.eq_nil_of_length_eq_zero (hlen.trans (if_pos rfl))
    rw [graft, if_pos rfl, ← set_nil]
    exact (Links.refl hF).grafted ha (fun h => absurd rfl h) hp hunref
  simp only [missingAt, graft, if_neg his] at hlen ⊢
  by_cases hroot : F.root s = 0
  · rw [if_pos hroot] at hlen ⊢
    obtain ⟨i, is, rfl⟩ := List.exists_cons_of_ne_nil his
    obtain ⟨f, fs, rfl⟩ := List.exists_cons_of_length_eq_add_one hlen
    have hf0 := hfresh.ne_zero f List.mem_cons_self
    have hnotleaf : ¬ S.Leaf (s, []) := by
      rintro ⟨-, hfull⟩
      have hlong := ha.2
      simp only [List.length_nil, List.length_cons] at hlong hfull
      omega
    have hpath : S.Leaf (s, [] ++ i :: is) := ha
    obtain ⟨hlinks, hptr⟩ := links_link hF hf0 (hfresh.lt_bound f List.mem_cons_self)
      (hfresh.unreferenced f List.mem_cons_self) hpath.1.init hnotleaf (fun h => absurd rfl h) hroot
    have hblank : ∀ i, O.get ((link O F (s, []) f).store f) i = 0 := by
      intro i
      simp [link, set_nil, O.get_blank]
    obtain ⟨F', hlinks', hangs, heq⟩ := insert_eq (p := p) hlinks.tree hpath his
      (hptr.trans_ne hf0) (hlinks.fresh hfresh) (by
        rw [hptr]
        cases is with
        | nil => simpa [missing] using hlen
        | cons j is =>
          rw [missing, if_pos (hblank _)]
          simpa using hlen)
    rw [hptr] at heq
    have hall := hlinks.trans hlinks' (by simpa using hf0)
    have hgraft := hall.grafted ha hangs hp (hall.unreferenced hp0 hpfs hunref)
    rw [List.nil_append] at heq
    rw [← heq] at hgraft
    exact hgraft
  · rw [if_neg hroot] at hlen ⊢
    have hpath : S.Leaf (s, [] ++ is) := ha
    obtain ⟨F', hlinks, hangs, heq⟩ := insert_eq (p := p) hF hpath his hroot hfresh hlen
    have hgraft := hlinks.grafted ha hangs hp (hlinks.unreferenced hp0 hpfs hunref)
    rw [List.nil_append] at heq
    rw [← heq] at hgraft
    exact hgraft

/-- A graft leaves every node alone that is neither above a leaf nor linked. -/
theorem graft_store {S : Shape} {F : Forest N} {a : Addr} (ha : S.Leaf a) {p b : ℕ} {fs : List ℕ}
    (hb : b ≠ 0) (hfs : b ∉ fs) (hzero : 0 ∉ fs)
    (h : ∀ c, S.Valid c → ¬ S.Leaf c → ptr O F c ≠ b) : (graft O p F a fs).store b = F.store b := by
  obtain ⟨s, is⟩ := a
  unfold graft
  split
  · rfl
  next his =>
  split
  · obtain ⟨i, is, rfl⟩ := List.exists_cons_of_ne_nil his
    cases fs with
    | nil => rfl
    | cons f fs =>
      simp only [List.mem_cons, not_or] at hfs hzero
      simp only
      rw [insert_of_not_passes (Ne.symm hzero.1) hb hfs.2 hzero.2
        (not_passes_blank (Ne.symm hfs.1) hb), Function.update_of_ne hfs.1]
  · next hroot =>
    refine insert_of_not_passes hroot hb hfs hzero ?_
    rintro ⟨js, ⟨ks, rfl⟩, hne, hwalk⟩
    have hks : 0 < ks.length := List.length_pos_of_ne_nil fun h => hne (by simp [h])
    refine h (s, js) ha.1.init ?_ hwalk
    rintro ⟨-, hfull⟩
    have hlong := ha.2
    simp only [List.length_append] at hlong hfull
    omega

/-! ## Null pointers -/

/-- The addresses on the way to an address, with the address. -/
def pathTo (a : Addr) : Finset Addr :=
  (Finset.range (a.2.length + 1)).image fun j => (a.1, a.2.take j)

theorem mem_pathTo {a c : Addr} : c ∈ pathTo a ↔ c.1 = a.1 ∧ c.2 <+: a.2 := by
  obtain ⟨t, js⟩ := c
  simp only [pathTo, Finset.mem_image, Finset.mem_range, Prod.mk.injEq]
  constructor
  · rintro ⟨j, -, rfl, rfl⟩
    exact ⟨rfl, List.take_prefix j a.2⟩
  · rintro ⟨rfl, hjs⟩
    exact ⟨js.length, Nat.lt_succ_of_le hjs.length_le, rfl, (List.prefix_iff_eq_take.mp hjs).symm⟩

variable (O) in
/-- The null pointers on the way to an address, with the address. -/
def nulls (F : Forest N) (a : Addr) : Finset Addr := (pathTo a).filter fun c => ptr O F c = 0

theorem mem_nulls {F : Forest N} {a c : Addr} :
    c ∈ nulls O F a ↔ c ∈ pathTo a ∧ ptr O F c = 0 :=
  Finset.mem_filter

theorem Shape.Valid.of_mem_pathTo {S : Shape} {a c : Addr} (ha : S.Valid a) (hc : c ∈ pathTo a) :
    S.Valid c := by
  obtain ⟨s, is⟩ := a
  obtain ⟨t, js⟩ := c
  obtain ⟨rfl, ⟨ks, rfl⟩⟩ := mem_pathTo.mp hc
  exact ha.init

/-- Above a pointer that is not null there is no null pointer. -/
theorem ptr_ne_zero_of_mem_pathTo {F : Forest N} {a c : Addr} (h : ptr O F a ≠ 0)
    (hc : c ∈ pathTo a) : ptr O F c ≠ 0 := by
  obtain ⟨s, is⟩ := a
  obtain ⟨t, js⟩ := c
  obtain ⟨rfl, ⟨ks, rfl⟩⟩ := mem_pathTo.mp hc
  intro hnull
  refine h ?_
  rw [ptr, walk_append]
  exact (congrArg (walk O F.store · ks) hnull).trans (walk_zero _ _)

theorem nulls_eq_empty {F : Forest N} {a : Addr} (h : ptr O F a ≠ 0) : nulls O F a = ∅ :=
  Finset.filter_eq_empty_iff.mpr fun _ hc => ptr_ne_zero_of_mem_pathTo h hc

/-- The null pointers on a walk from a node. -/
theorem card_walk_null {st : ℕ → N} {t : ℕ} {is : List ℕ} (ht : t ≠ 0) (h : walk O st t is = 0) :
    ((Finset.range (is.length + 1)).filter fun j => walk O st t (is.take j) = 0).card =
      missing O st t is + 1 := by
  induction is generalizing t with
  | nil => exact absurd h ht
  | cons i is ih =>
    -- the pointer `t` is not null; the others are those of the walk from its child
    have hshift : ((Finset.range (is.length + 1 + 1)).filter fun j =>
        walk O st t ((i :: is).take j) = 0) = ((Finset.range (is.length + 1)).filter fun j =>
        walk O st (O.get (st t) i) (is.take j) = 0).map (addRightEmbedding 1) := by
      ext j
      simp only [Finset.mem_filter, Finset.mem_range, Finset.mem_map, addRightEmbedding_apply]
      cases j with
      | zero => simp [ht]
      | succ j => simp [walk, ht]
    rw [List.length_cons, hshift, Finset.card_map]
    rw [walk, if_neg ht] at h
    cases is with
    | nil =>
      rw [walk_nil] at h
      simp [missing, h]
    | cons j is =>
      rw [missing]
      split
      · next hnull => simp [hnull]
      · next hne => exact ih hne h

/-- The null pointers on the way to a leaf that is null: the missing nodes, and the leaf. -/
theorem card_nulls {F : Forest N} {a : Addr} (h : ptr O F a = 0) :
    (nulls O F a).card = missingAt O F a + 1 := by
  obtain ⟨s, is⟩ := a
  have hinj : Set.InjOn (fun j => (s, is.take j)) (Finset.range (is.length + 1)) := by
    intro i hi j hj heq
    simp only [Finset.coe_range, Set.mem_Iio, Prod.mk.injEq, true_and] at hi hj heq
    have hlen := congrArg List.length heq
    simp only [List.length_take] at hlen
    omega
  have hcard : (nulls O F (s, is)).card = ((Finset.range (is.length + 1)).filter fun j =>
      walk O F.store (F.root s) (is.take j) = 0).card := by
    rw [nulls, pathTo, Finset.filter_image]
    exact Finset.card_image_of_injOn (hinj.mono (Finset.coe_subset.mpr (Finset.filter_subset _ _)))
  rw [hcard, missingAt]
  by_cases his : is = []
  · subst his
    have hroot : F.root s = 0 := h
    simp [hroot]
  by_cases hroot : F.root s = 0
  · simp [his, hroot]
  · rw [if_neg his, if_neg hroot, card_walk_null hroot h]

/-- A graft to a null leaf changes the pointers on the way to the leaf and no others. -/
theorem Grafted.eq_of_not_mem_pathTo {S : Shape} {F F' : Forest N} {a b : Addr} {p : ℕ}
    {fs : List ℕ} (h : Grafted O S F F' a p fs) (ha : S.Leaf a) (hp : p ≠ 0)
    (hnull : ptr O F a = 0) (hlen : fs.length = missingAt O F a) (hb : S.Valid b)
    (hpath : b ∉ pathTo a) : ptr O F' b = ptr O F b := by
  by_contra hne
  have hba : b ≠ a := by
    rintro rfl
    exact hpath (mem_pathTo.mpr ⟨rfl, List.prefix_refl _⟩)
  have hold : ptr O F b = 0 := not_not.mp fun hold => hne (h.keeps b hb hba hold)
  have hb' : ptr O F' b ≠ 0 := fun hb' => hne (hb'.trans hold.symm)
  -- the null pointers of the path now hold all the new pointers
  have hnew : ∀ c ∈ nulls O F a, ptr O F' c ≠ 0 ∧ ptr O F' c ∈ (p :: fs).toFinset := by
    intro c hc
    obtain ⟨hc, hzero⟩ := mem_nulls.mp hc
    have hc' : ptr O F' c ≠ 0 := ptr_ne_zero_of_mem_pathTo (h.leaf.trans_ne hp) hc
    rcases h.new c (ha.1.of_mem_pathTo hc) hc' with heq | hmem
    · exact absurd (heq.trans hzero) hc'
    · exact ⟨hc', List.mem_toFinset.mpr hmem⟩
  have hinj : Set.InjOn (ptr O F') (nulls O F a) := fun c hc d hd heq =>
    h.tree c d (ha.1.of_mem_pathTo (mem_nulls.mp hc).1) (ha.1.of_mem_pathTo (mem_nulls.mp hd).1)
      (hnew c hc).1 heq
  have himage : (nulls O F a).image (ptr O F') = (p :: fs).toFinset := by
    refine Finset.eq_of_subset_of_card_le ?_ ?_
    · intro v hv
      obtain ⟨c, hc, rfl⟩ := Finset.mem_image.mp hv
      exact (hnew c hc).2
    · rw [Finset.card_image_of_injOn hinj, card_nulls hnull, ← hlen]
      exact List.toFinset_card_le _
  have hmem : ptr O F' b ∈ (p :: fs).toFinset := by
    rcases h.new b hb hb' with heq | hmem
    · exact absurd heq hne
    · exact List.mem_toFinset.mpr hmem
  rw [← himage] at hmem
  obtain ⟨c, hc, heq⟩ := Finset.mem_image.mp hmem
  have hcpath := (mem_nulls.mp hc).1
  obtain rfl := h.tree c b (ha.1.of_mem_pathTo hcpath) hb (hnew c hc).1 heq
  exact hpath hcpath

variable (O) in
/-- The number of null pointers on the ways to some addresses. -/
def demand (F : Forest N) (A : Finset Addr) : ℕ := (A.biUnion (nulls O F)).card

theorem demand_mono {F : Forest N} {A B : Finset Addr} (h : A ⊆ B) :
    demand O F A ≤ demand O F B :=
  Finset.card_le_card (Finset.biUnion_subset_biUnion_of_subset_left _ h)

/-- The demand depends only on the pointers. -/
theorem demand_congr {S : Shape} {F F' : Forest N} {A : Finset Addr} (hA : ∀ a ∈ A, S.Valid a)
    (h : ∀ c, S.Valid c → ptr O F' c = ptr O F c) : demand O F' A = demand O F A := by
  refine congrArg Finset.card (Finset.biUnion_congr rfl fun a ha => ?_)
  refine Finset.filter_congr fun c hc => ?_
  rw [h c ((hA a ha).of_mem_pathTo hc)]

theorem card_nulls_le_demand {F : Forest N} {A : Finset Addr} {a : Addr} (h : a ∈ A) :
    (nulls O F a).card ≤ demand O F A :=
  Finset.card_le_card (Finset.subset_biUnion_of_mem _ h)

/-- A leaf that is not null demands nothing. -/
theorem demand_insert_of_ne {F : Forest N} {A : Finset Addr} {a : Addr} (h : ptr O F a ≠ 0) :
    demand O F (Insert.insert a A) = demand O F A := by
  rw [demand, Finset.biUnion_insert, nulls_eq_empty h, Finset.empty_union, demand]

/-- A graft meets the demand of its leaf, and that of no other address otherwise. -/
theorem demand_insert_of_grafted {S : Shape} {F F' : Forest N} {A : Finset Addr} {a : Addr} {p : ℕ}
    {fs : List ℕ} (h : Grafted O S F F' a p fs) (ha : S.Leaf a) (hp : p ≠ 0)
    (hnull : ptr O F a = 0) (hlen : fs.length = missingAt O F a) (hA : ∀ b ∈ A, S.Valid b) :
    demand O F (Insert.insert a A) = fs.length + 1 + demand O F' A := by
  have hnulls : ∀ b ∈ A, nulls O F' b = nulls O F b \ nulls O F a := by
    intro b hb
    ext c
    simp only [Finset.mem_sdiff, mem_nulls]
    constructor
    · rintro ⟨hc, hzero⟩
      have hnot : c ∉ pathTo a := fun hca =>
        ptr_ne_zero_of_mem_pathTo (h.leaf.trans_ne hp) hca hzero
      have heq := h.eq_of_not_mem_pathTo ha hp hnull hlen ((hA b hb).of_mem_pathTo hc) hnot
      exact ⟨⟨hc, heq.symm.trans hzero⟩, fun hca => hnot hca.1⟩
    · rintro ⟨⟨hc, hzero⟩, hnot⟩
      have hnot' : c ∉ pathTo a := fun hca => hnot ⟨hca, hzero⟩
      exact ⟨hc, (h.eq_of_not_mem_pathTo ha hp hnull hlen ((hA b hb).of_mem_pathTo hc)
        hnot').trans hzero⟩
  have hunion : A.biUnion (nulls O F') = A.biUnion (nulls O F) \ nulls O F a := by
    ext c
    simp only [Finset.mem_biUnion, Finset.mem_sdiff]
    constructor
    · rintro ⟨b, hb, hc⟩
      rw [hnulls b hb, Finset.mem_sdiff] at hc
      exact ⟨⟨b, hb, hc.1⟩, hc.2⟩
    · rintro ⟨⟨b, hb, hc⟩, hnot⟩
      exact ⟨b, hb, by rw [hnulls b hb, Finset.mem_sdiff]; exact ⟨hc, hnot⟩⟩
  rw [demand, demand, Finset.biUnion_insert, hunion, hlen, ← card_nulls hnull,
    ← Finset.card_union_add_card_inter, Finset.union_sdiff_self_eq_union,
    Finset.inter_sdiff_self, Finset.card_empty, Nat.add_zero]

end PointerTree
