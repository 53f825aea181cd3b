import Mathlib

/-!
# Tables with open addressing

A table of slots in which each key has its route, the order in which the slots are searched for it. A key may sit in
several slots: a search finds the first on the route, the `view` of the table. Entries have stamps, the times of their
last accesses. In an `Aligned` table the copies of a key get older along its route, so that the oldest entry of a table
can be taken out without uncovering an old copy (`view_erase`).

`Recency` compares a table with the list of its keys from the newest to the oldest, which is how a cache with eviction
of the least recently used key is specified (`touch`).
-/

namespace Probing

/-! ## Loops around a table -/

/-- The slots of a table of `cap` slots from `start` on, around the end -/
def order (cap start : ℕ) : List ℕ := (List.range cap).map fun i => (start + i) % cap

section Loops

variable {σ ρ : Type*}

/-- `do { … } while ((slot = next(slot)) != start)` over at most so many slots. The body goes on with a state or leaves
the loop with a result. -/
def walk (next : ℕ → ℕ) (start : ℕ) (body : ℕ → σ → σ ⊕ ρ) : ℕ → ℕ → σ → σ ⊕ ρ
  | 0, _, a => .inl a
  | n + 1, slot, a =>
    match body slot a with
    | .inr r => .inr r
    | .inl a => if next slot = start then .inl a else walk next start body n (next slot) a

/-- The same loop over the slots of a list -/
def scan (body : ℕ → σ → σ ⊕ ρ) : List ℕ → σ → σ ⊕ ρ
  | [], a => .inl a
  | slot :: slots, a =>
    match body slot a with
    | .inr r => .inr r
    | .inl a => scan body slots a

theorem mem_order {cap start slot : ℕ} (hcap : 0 < cap) : slot ∈ order cap start ↔ slot < cap := by
  rw [order, List.mem_map]
  constructor
  · rintro ⟨i, -, rfl⟩
    exact Nat.mod_lt _ hcap
  · intro hslot
    refine ⟨(slot + (cap - start % cap)) % cap, List.mem_range.mpr (Nat.mod_lt _ hcap), ?_⟩
    have hstart : start % cap < cap := Nat.mod_lt _ hcap
    calc (start + (slot + (cap - start % cap)) % cap) % cap
        = (start % cap + (slot + (cap - start % cap))) % cap := by
          rw [Nat.add_mod_mod, ← Nat.mod_add_mod start cap]
      _ = (slot + cap) % cap := by congr 1; omega
      _ = slot := by rw [Nat.add_mod_right, Nat.mod_eq_of_lt hslot]

theorem nodup_order (cap start : ℕ) : (order cap start).Nodup := by
  refine (List.nodup_range (n := cap)).map_on ?_
  intro i hi j hj hij
  have h : i % cap = j % cap := Nat.ModEq.add_left_cancel' start hij
  rwa [Nat.mod_eq_of_lt (List.mem_range.mp hi), Nat.mod_eq_of_lt (List.mem_range.mp hj)] at h

/-- The slots of a route are those of the table. -/
theorem order_perm {cap : ℕ} (hcap : 0 < cap) (start : ℕ) : (order cap start).Perm (List.range cap) :=
  (List.perm_ext_iff_of_nodup (nodup_order cap start) List.nodup_range).mpr fun slot => by
    rw [mem_order hcap, List.mem_range]

/-- The loop from the `i`-th slot of the route on -/
theorem walk_eq_scan_from {next : ℕ → ℕ} {cap start : ℕ} (hnext : ∀ s < cap, next s = (s + 1) % cap)
    (hstart : start < cap) (body : ℕ → σ → σ ⊕ ρ) (n i fuel : ℕ) (hi : i + (n + 1) = cap) (hfuel : n < fuel) (a : σ) :
    walk next start body fuel ((start + i) % cap) a =
      scan body ((List.range' i (n + 1)).map fun i => (start + i) % cap) a := by
  have hcap : 0 < cap := by omega
  induction n generalizing i fuel a with
  | zero =>
    obtain ⟨fuel, rfl⟩ : ∃ m, fuel = m + 1 := ⟨fuel - 1, by omega⟩
    have hback : next ((start + i) % cap) = start := by
      rw [hnext _ (Nat.mod_lt _ hcap), Nat.mod_add_mod, show start + i + 1 = start + cap by omega,
        Nat.add_mod_right, Nat.mod_eq_of_lt hstart]
    simp only [walk, hback, if_true, Nat.zero_add, List.range'_one, List.map_cons, List.map_nil, scan]
  | succ n ih =>
    obtain ⟨fuel, rfl⟩ : ∃ m, fuel = m + 1 := ⟨fuel - 1, by omega⟩
    have hslot : next ((start + i) % cap) = (start + (i + 1)) % cap := by
      rw [hnext _ (Nat.mod_lt _ hcap), Nat.mod_add_mod, Nat.add_assoc]
    -- The loop is back where it began only after `cap` turns.
    have hgo : (start + (i + 1)) % cap ≠ start := by
      intro h
      have hmod : (start + (i + 1)) % cap = (start + 0) % cap := by
        rw [h, Nat.add_zero, Nat.mod_eq_of_lt hstart]
      have hzero : (i + 1) % cap = 0 % cap := Nat.ModEq.add_left_cancel' start hmod
      rw [Nat.mod_eq_of_lt (by omega), Nat.zero_mod] at hzero
      omega
    rw [List.range'_succ, List.map_cons]
    simp only [walk, scan, hslot, if_neg hgo]
    cases body ((start + i) % cap) a with
    | inr r => rfl
    | inl a => exact ih (i + 1) fuel (by omega) (by omega) a

/-- The loop visits the slots of the route, whatever the bound that is large enough. -/
theorem walk_eq_scan {next : ℕ → ℕ} {cap start : ℕ} (hnext : ∀ s < cap, next s = (s + 1) % cap)
    (hstart : start < cap) (body : ℕ → σ → σ ⊕ ρ) {fuel : ℕ} (hfuel : cap ≤ fuel) (a : σ) :
    walk next start body fuel start a = scan body (order cap start) a := by
  obtain ⟨n, rfl⟩ : ∃ n, cap = n + 1 := ⟨cap - 1, by omega⟩
  have h := walk_eq_scan_from hnext hstart body n 0 fuel (by omega) (by omega) a
  rwa [Nat.add_zero, Nat.mod_eq_of_lt hstart, ← List.range_eq_range'] at h

/-- A loop that leaves at the first slot with a property and accumulates until then -/
theorem scan_ite (stop : ℕ → Bool) (out : ℕ → ρ) (acc : σ → ℕ → σ) {body : ℕ → σ → σ ⊕ ρ}
    (hbody : ∀ s a, body s a = if stop s then .inr (out s) else .inl (acc a s)) (slots : List ℕ) (a : σ) :
    scan body slots a = match slots.find? stop with
      | some s => .inr (out s)
      | none => .inl (slots.foldl acc a) := by
  induction slots generalizing a with
  | nil => rfl
  | cons s slots ih =>
    rw [scan, hbody]
    cases hs : stop s with
    | true => simp [hs]
    | false => simp [hs, ih]

/-- The search for the first least value below a bound: what strict comparisons keep -/
theorem foldl_least (f : ℕ → ℕ) (slots : List ℕ) (best top : ℕ) :
    let res := slots.foldl (fun a s => if f s < a.2 then (s, f s) else a) (best, top)
    (res = (best, top) ∧ ∀ s ∈ slots, top ≤ f s) ∨
      (res.1 ∈ slots ∧ f res.1 < top ∧ res.2 = f res.1 ∧ ∀ s ∈ slots, f res.1 ≤ f s) := by
  induction slots generalizing best top with
  | nil => exact .inl ⟨rfl, fun s hs => absurd hs List.not_mem_nil⟩
  | cons x slots ih =>
    rw [List.foldl_cons]
    by_cases hx : f x < top
    · rw [if_pos hx]
      obtain ⟨hres, hall⟩ | ⟨hmem, hlt, hval, hall⟩ := ih x (f x)
      · right
        rw [hres]
        exact ⟨List.mem_cons_self, hx, rfl, List.forall_mem_cons.mpr ⟨le_rfl, hall⟩⟩
      · exact .inr ⟨List.mem_cons_of_mem x hmem, hlt.trans hx, hval, List.forall_mem_cons.mpr ⟨hlt.le, hall⟩⟩
    · rw [if_neg hx]
      obtain ⟨hres, hall⟩ | ⟨hmem, hlt, hval, hall⟩ := ih best top
      · exact .inl ⟨hres, List.forall_mem_cons.mpr ⟨not_lt.mp hx, hall⟩⟩
      · exact .inr ⟨List.mem_cons_of_mem x hmem, hlt, hval,
          List.forall_mem_cons.mpr ⟨hlt.le.trans (not_lt.mp hx), hall⟩⟩

/-- A count over the slots, where one slot changes -/
theorem countP_range_update {p q : ℕ → Bool} {s cap : ℕ} (hs : s < cap) (h : ∀ x, x ≠ s → q x = p x) :
    (List.range cap).countP q + (p s).toNat = (List.range cap).countP p + (q s).toNat := by
  induction cap with
  | zero => exact absurd hs (Nat.not_lt_zero s)
  | succ n ih =>
    rw [List.range_succ, List.countP_append, List.countP_append, List.countP_singleton, List.countP_singleton]
    by_cases hn : s = n
    · subst hn
      have hsame : (List.range s).countP q = (List.range s).countP p :=
        List.countP_congr fun x hx => by rw [h x (List.mem_range.mp hx).ne]
      rw [hsame]
      cases p s <;> cases q s <;> simp
    · have := ih (by omega)
      rw [h n (Ne.symm hn)]
      omega

end Loops

/-! ## Tables -/

/-- An entry of a table: its key, its value, and the time of the last access -/
structure Entry (K V : Type*) where
  key : K
  val : V
  stamp : ℕ

/-- A table: what each slot holds -/
abbrev Table (K V : Type*) := ℕ → Option (Entry K V)

namespace Table

variable {K V : Type*} [DecidableEq K]

/-- Whether a slot holds a key -/
def holds (t : Table K V) (k : K) (s : ℕ) : Bool := (t s).any fun e => e.key = k

theorem holds_iff {t : Table K V} {k : K} {s : ℕ} : t.holds k s = true ↔ ∃ e, t s = some e ∧ e.key = k := by
  cases hs : t s with
  | none => simp [holds, hs]
  | some e => simp [holds, hs]

theorem holds_update_self (t : Table K V) (k : K) (s : ℕ) (e : Entry K V) :
    holds (Function.update t s (some e)) k s = decide (e.key = k) := by
  simp [holds]

theorem holds_update_of_ne {t : Table K V} {s s' : ℕ} (h : s' ≠ s) (k : K) (o : Option (Entry K V)) :
    holds (Function.update t s o) k s' = holds t k s' := by
  simp [holds, h]

section Routes

variable (route : K → List ℕ)

/-- The first slot that holds a key -/
def find (t : Table K V) (k : K) : Option ℕ := (route k).find? (t.holds k)

/-- The value of a key: that of the first slot that holds it -/
def view (t : Table K V) (k : K) : Option V := (t.find route k).bind fun s => (t s).map Entry.val

/-- Along the route of a key, the entries that hold it get older. -/
def Aligned (t : Table K V) : Prop :=
  ∀ k, (route k).Pairwise fun s s' => ∀ e ∈ t s, ∀ e' ∈ t s', e.key = k → e'.key = k → e'.stamp < e.stamp

/-- No entry is behind an empty slot of its route. -/
def Packed (t : Table K V) : Prop :=
  ∀ k, (route k).Pairwise fun s s' => t.holds k s' → t s ≠ none

variable {route} {t : Table K V} {k : K} {s n : ℕ} {v : V}

/-- A slot where a key can be put: it is empty or holds the key, and the slots before it do not hold the key. -/
structure Place (route : K → List ℕ) (t : Table K V) (k : K) (s : ℕ) (before after : List ℕ) : Prop where
  split : route k = before ++ s :: after
  first : ∀ x ∈ before, t.holds k x = false
  free : t s = none ∨ t.holds k s

theorem find_eq_some {s : ℕ} (h : t.find route k = some s) :
    ∃ before after, Place route t k s before after := by
  obtain ⟨hs, before, after, hsplit, hfirst⟩ := List.find?_eq_some_iff_append.mp h
  exact ⟨before, after, hsplit, fun x hx => by simpa using hfirst x hx, .inr hs⟩

/-- An entry stays where it is found. -/
theorem view_of_find (h : t.find route k = some s) : ∃ e, t s = some e ∧ e.key = k ∧ t.view route k = some e.val := by
  obtain ⟨e, he, hk⟩ := holds_iff.mp (List.find?_some h)
  exact ⟨e, he, hk, by rw [view, h, Option.bind_some, he, Option.map_some]⟩

theorem view_eq_none (h : t.find route k = none) : t.view route k = none := by
  rw [view, h, Option.bind_none]

/-- Where two tables hold a key in the same slots, with the same values, they have the same view of it. -/
theorem view_congr {t' : Table K V} (hholds : ∀ x ∈ route k, t'.holds k x = t.holds k x)
    (hval : ∀ x ∈ route k, t.holds k x → t' x = t x) : t'.view route k = t.view route k := by
  have hfind : t'.find route k = t.find route k := List.find?_congr hholds
  rw [view, view, hfind]
  cases h : t.find route k with
  | none => rfl
  | some x => rw [Option.bind_some, Option.bind_some, hval x (List.mem_of_find?_eq_some h) (List.find?_some h)]

section Put

variable {before after : List ℕ} (hplace : Place route t k s before after)

include hplace

theorem Place.not_holds {k' : K} (hk : k' ≠ k) : t.holds k' s = false := by
  rw [Bool.eq_false_iff]
  intro h
  obtain ⟨e, he, hek⟩ := holds_iff.mp h
  obtain hnone | hholds := hplace.free
  · simp [hnone] at he
  · obtain ⟨e', he', hek'⟩ := holds_iff.mp hholds
    rw [he, Option.some.injEq] at he'
    exact hk (by rw [← hek, he', hek'])

/-- The view after a key was put. -/
theorem view_put_of_ne {k' : K} (hk : k' ≠ k) :
    view route (Function.update t s (some ⟨k, v, n⟩)) k' = t.view route k' := by
  have hs := hplace.not_holds hk
  refine view_congr (fun x _ => ?_) (fun x _ hx => ?_)
  · by_cases hxs : x = s
    · rw [hxs, holds_update_self, hs]
      exact decide_eq_false (Ne.symm hk)
    · rw [holds_update_of_ne hxs]
  · exact Function.update_of_ne (fun hxs => by simp [hxs, hs] at hx) _ _

variable (hroute : (route k).Nodup)

include hroute

theorem Place.ne_of_mem_before {x : ℕ} (hx : x ∈ before) : x ≠ s := by
  rw [hplace.split, List.nodup_append] at hroute
  exact hroute.2.2 x hx s List.mem_cons_self

theorem Place.ne_of_mem_after {x : ℕ} (hx : x ∈ after) : x ≠ s := by
  rw [hplace.split, List.nodup_append] at hroute
  exact fun h => (List.nodup_cons.mp hroute.2.1).1 (h ▸ hx)

theorem find_put : find route (Function.update t s (some ⟨k, v, n⟩)) k = some s := by
  refine List.find?_eq_some_iff_append.mpr ⟨by rw [holds_update_self]; simp, before, after, hplace.split, ?_⟩
  intro x hx
  rw [holds_update_of_ne (hplace.ne_of_mem_before hroute hx), hplace.first x hx]
  rfl

theorem view_put : view route (Function.update t s (some ⟨k, v, n⟩)) k = some v := by
  rw [view, find_put hplace hroute, Option.bind_some, Function.update_self, Option.map_some]

/-- A key that is put with a new stamp keeps the copies aligned. -/
theorem Aligned.put (ht : t.Aligned route) (hn : ∀ x, ∀ e ∈ t x, e.stamp < n) :
    Aligned route (Function.update t s (some ⟨k, v, n⟩)) := by
  intro k'
  by_cases hk : k' = k
  · subst hk
    have hold := ht k'
    rw [hplace.split, List.pairwise_append, List.pairwise_cons] at hold
    rw [hplace.split, List.pairwise_append, List.pairwise_cons]
    -- Before the new entry, no slot holds the key.
    have hfirst : ∀ x ∈ before, ∀ y, ∀ e ∈ Function.update t s (some ⟨k', v, n⟩) x,
        ∀ e' ∈ Function.update t s (some ⟨k', v, n⟩) y, e.key = k' → e'.key = k' → e'.stamp < e.stamp := by
      intro x hx y e he _ _ hek _
      rw [Function.update_of_ne (hplace.ne_of_mem_before hroute hx)] at he
      have hno := hplace.first x hx
      rw [holds_iff.mpr ⟨e, he, hek⟩] at hno
      exact Bool.noConfusion hno
    refine ⟨?_, ⟨?_, ?_⟩, fun x hx y _ => hfirst x hx y⟩
    · exact hold.1.imp_of_mem fun {x y} hx _ _ => hfirst x hx y
    · intro x hx e he e' he' _ _
      rw [Function.update_self, Option.mem_some_iff] at he
      rw [Function.update_of_ne (hplace.ne_of_mem_after hroute hx)] at he'
      rw [← he]
      exact hn x e' he'
    · refine hold.2.1.2.imp_of_mem fun {x y} hx hy h e he e' he' => ?_
      rw [Function.update_of_ne (hplace.ne_of_mem_after hroute hx)] at he
      rw [Function.update_of_ne (hplace.ne_of_mem_after hroute hy)] at he'
      exact h e he e' he'
  · refine (ht k').imp fun {x y} h e he e' he' hek hek' => ?_
    -- The entries of another key were there before.
    have hother : ∀ z, ∀ d ∈ Function.update t s (some ⟨k, v, n⟩) z, d.key = k' → d ∈ t z := by
      intro z d hd hdk
      by_cases hz : z = s
      · rw [hz, Function.update_self, Option.mem_some_iff] at hd
        exact absurd (by rw [← hdk, ← hd]) hk
      · rwa [Function.update_of_ne hz] at hd
    exact h e (hother x e he hek) e' (hother y e' he' hek') hek hek'

end Put

section Erase

/-- Without its oldest entry, a table has lost a key or nothing. -/
theorem view_erase (ht : t.Aligned route) {e : Entry K V} (hs : t s = some e)
    (hleast : ∀ x, ∀ e' ∈ t x, e.stamp ≤ e'.stamp) (k' : K) :
    view route (Function.update t s none) k' = t.view route k' ∨
      view route (Function.update t s none) k' = none := by
  have hgone : holds (Function.update t s none) k' s = false := by simp [holds]
  cases hfind : t.find route k' with
  | none =>
    right
    refine view_eq_none (List.find?_eq_none.mpr fun x hx => ?_)
    by_cases hxs : x = s
    · rw [hxs, hgone]
      exact Bool.false_ne_true
    · rw [holds_update_of_ne hxs]
      exact List.find?_eq_none.mp hfind x hx
  | some y =>
    obtain ⟨hy, before, after, hsplit, hfirst⟩ := List.find?_eq_some_iff_append.mp hfind
    by_cases hys : y = s
    · right
      subst hys
      refine view_eq_none (List.find?_eq_none.mpr fun x hx => ?_)
      by_cases hxs : x = y
      · rw [hxs, hgone]
        exact Bool.false_ne_true
      · rw [holds_update_of_ne hxs]
        rw [hsplit, List.mem_append, List.mem_cons] at hx
        obtain hx | rfl | hx := hx
        · simpa using hfirst x hx
        · exact absurd rfl hxs
        · intro hholds
          -- A copy behind the oldest entry would be older.
          obtain ⟨e', he', hek'⟩ := holds_iff.mp hholds
          obtain ⟨d, hd, hdk⟩ := holds_iff.mp hy
          rw [hs, Option.some.injEq] at hd
          have hp := ht k'
          rw [hsplit, List.pairwise_append, List.pairwise_cons] at hp
          have hlt := hp.2.1.1 x hx e hs e' he' (hd ▸ hdk) hek'
          exact absurd (hleast x e' he') (by omega)
    · left
      -- The key is found where it was: the erased slot is not the first that holds it.
      have hfind' : find route (Function.update t s none) k' = some y := by
        refine List.find?_eq_some_iff_append.mpr ⟨by rwa [holds_update_of_ne hys], before, after, hsplit, ?_⟩
        intro x hx
        by_cases hxs : x = s
        · rw [hxs, hgone]
          rfl
        · rw [holds_update_of_ne hxs]
          exact hfirst x hx
      rw [view, view, hfind', hfind, Option.bind_some, Option.bind_some, Function.update_of_ne hys]

omit [DecidableEq K] in
theorem mem_of_mem_erase {x : ℕ} {e : Entry K V} (h : e ∈ Function.update t s none x) : x ≠ s ∧ e ∈ t x := by
  by_cases hx : x = s
  · rw [hx, Function.update_self] at h
    exact absurd h (Option.not_mem_none e)
  · exact ⟨hx, by rwa [Function.update_of_ne hx] at h⟩

omit [DecidableEq K] in
theorem Aligned.erase (ht : t.Aligned route) (s : ℕ) : Aligned route (Function.update t s none) := fun k' =>
  (ht k').imp fun h e he e' he' => h e (mem_of_mem_erase he).2 e' (mem_of_mem_erase he').2

end Erase

section Packing

variable {before after : List ℕ}

/-- A key at the first empty slot of its route, or where it is, leaves no gap. -/
theorem Packed.put (ht : t.Packed route) (hplace : Place route t k s before after)
    (hfull : ∀ x ∈ before, t x ≠ none) (hroute : (route k).Nodup) :
    Packed route (Function.update t s (some ⟨k, v, n⟩)) := by
  -- No slot becomes empty.
  have hkeep : ∀ x, t x ≠ none → Function.update t s (some ⟨k, v, n⟩) x ≠ none := by
    intro x hx
    by_cases hxs : x = s
    · rw [hxs, Function.update_self]
      exact Option.some_ne_none _
    · rwa [Function.update_of_ne hxs]
  intro k'
  by_cases hk : k' = k
  · subst hk
    have hold := ht k'
    have hne : ∀ x ∈ after, x ≠ s := fun x hx => hplace.ne_of_mem_after hroute hx
    rw [hplace.split, List.pairwise_append, List.pairwise_cons] at hold ⊢
    refine ⟨?_, ⟨?_, ?_⟩, fun x hx _ _ _ => hkeep x (hfull x hx)⟩
    · exact hold.1.imp_of_mem fun {x _} hx _ _ _ => hkeep x (hfull x hx)
    · intro x _ _
      rw [Function.update_self]
      exact Option.some_ne_none _
    · refine hold.2.1.2.imp_of_mem fun {x y} _ hy h hholds => hkeep x (h ?_)
      rwa [holds_update_of_ne (hne y hy)] at hholds
  · refine (ht k').imp ?_
    intro x y h hholds
    refine hkeep x (h ?_)
    by_cases hys : y = s
    · rw [hys, holds_update_self, decide_eq_true_eq] at hholds
      exact absurd hholds.symm hk
    · rwa [holds_update_of_ne hys] at hholds

/-- In a packed table, a key that is not before the first empty slot of its route is nowhere. -/
theorem Packed.not_holds (ht : t.Packed route) (hplace : Place route t k s before after) (hs : t s = none) {x : ℕ}
    (hx : x ∈ route k) : t.holds k x = false := by
  have hp := ht k
  rw [hplace.split, List.pairwise_append, List.pairwise_cons] at hp
  rw [hplace.split, List.mem_append, List.mem_cons] at hx
  obtain hx | rfl | hx := hx
  · exact hplace.first x hx
  · simp [holds, hs]
  · rw [Bool.eq_false_iff]
    exact fun hholds => hp.2.1.1 x hx hholds hs

/-- A full table is packed. -/
theorem packed_of_full (h : ∀ k, ∀ x ∈ route k, t x ≠ none) : t.Packed route := by
  intro k
  have hall : (route k).Pairwise fun _ _ => True := List.pairwise_of_forall fun _ _ => trivial
  exact hall.imp_of_mem fun {x _} hx _ _ _ => h k x hx

end Packing

end Routes

/-! ## Recency -/

/-- The occupied slots from the newest to the oldest. No key is in two of them. -/
structure Recency (t : Table K V) (slots : List ℕ) : Prop where
  mem : ∀ s, s ∈ slots ↔ t s ≠ none
  sorted : slots.Pairwise fun s s' => ∀ e ∈ t s, ∀ e' ∈ t s', e'.stamp < e.stamp
  unique : ∀ k s s', t.holds k s → t.holds k s' → s = s'

/-- The keys that some slots hold -/
def keys (t : Table K V) (slots : List ℕ) : List K := slots.filterMap fun s => (t s).map Entry.key

/-- The list of the keys that were used last, at most so many: a key that is used moves to the front. -/
def touch (cap : ℕ) (k : K) (l : List K) : List K := (k :: l.erase k).take cap

section

variable {t : Table K V} {slots : List ℕ} {k : K} {s n cap : ℕ} {v : V}

theorem Recency.nodup (h : Recency t slots) : slots.Nodup := by
  refine h.sorted.imp_of_mem ?_
  rintro x _ hx - hlt rfl
  obtain ⟨e, he⟩ := Option.ne_none_iff_exists'.mp ((h.mem x).mp hx)
  exact lt_irrefl _ (hlt e he e he)

/-- A table of so many slots holds at most so many keys. -/
theorem Recency.length_le (h : Recency t slots) (hcap : ∀ x, t x ≠ none → x < cap) : slots.length ≤ cap := by
  have hsub : slots ⊆ List.range cap := fun x hx => List.mem_range.mpr (hcap x ((h.mem x).mp hx))
  have hle := (h.nodup.subperm hsub).length_le
  rwa [List.length_range] at hle

omit [DecidableEq K] in
theorem keys_append (t : Table K V) (l l' : List ℕ) : t.keys (l ++ l') = t.keys l ++ t.keys l' :=
  List.filterMap_append

omit [DecidableEq K] in
theorem keys_cons {e : Entry K V} (hs : t s = some e) (l : List ℕ) : t.keys (s :: l) = e.key :: t.keys l := by
  rw [keys, List.filterMap_cons, hs]
  rfl

omit [DecidableEq K] in
theorem keys_congr {t' : Table K V} {l : List ℕ} (h : ∀ x ∈ l, t' x = t x) : t'.keys l = t.keys l :=
  List.filterMap_congr fun x hx => by rw [h x hx]

theorem mem_keys {l : List ℕ} : k ∈ t.keys l ↔ ∃ s ∈ l, t.holds k s := by
  simp only [keys, List.mem_filterMap, Option.map_eq_some_iff, holds_iff]

theorem not_mem_keys (h : ∀ x, t.holds k x = false) (l : List ℕ) : k ∉ t.keys l := by
  intro hk
  obtain ⟨x, -, hx⟩ := mem_keys.mp hk
  exact Bool.false_ne_true ((h x).symm.trans hx)

omit [DecidableEq K] in
theorem length_keys (h : ∀ x ∈ slots, t x ≠ none) : (t.keys slots).length = slots.length := by
  induction slots with
  | nil => rfl
  | cons x slots ih =>
    obtain ⟨e, he⟩ := Option.ne_none_iff_exists'.mp (h x List.mem_cons_self)
    rw [keys_cons he, List.length_cons, List.length_cons, ih fun y hy => h y (List.mem_cons_of_mem x hy)]

/-- Without a slot, the keys are those of the other slots. -/
theorem Recency.keys_erase (h : Recency t slots) {e : Entry K V} (hs : t s = some e) :
    t.keys (slots.erase s) = (t.keys slots).erase e.key := by
  have hmem : s ∈ slots := (h.mem s).mpr (by simp [hs])
  obtain ⟨before, after, rfl⟩ := List.append_of_mem hmem
  have hnot : s ∉ before := fun hb =>
    (List.nodup_append.mp h.nodup).2.2 s hb s List.mem_cons_self rfl
  have hkey : e.key ∉ t.keys before := by
    intro hk
    obtain ⟨x, hx, hholds⟩ := mem_keys.mp hk
    exact hnot (h.unique e.key x s hholds (holds_iff.mpr ⟨e, hs, rfl⟩) ▸ hx)
  rw [List.erase_append_right _ hnot, List.erase_cons_head, keys_append, keys_append, keys_cons hs,
    List.erase_append_right _ hkey, List.erase_cons_head]

/-- A key that is put with a new stamp comes in front of the others. -/
theorem recency_put {rest : List ℕ} (hmem : ∀ x, x ∈ rest ↔ x ≠ s ∧ t x ≠ none)
    (hsorted : rest.Pairwise fun s s' => ∀ e ∈ t s, ∀ e' ∈ t s', e'.stamp < e.stamp)
    (hunique : ∀ k s s', t.holds k s → t.holds k s' → s = s') (honly : ∀ x, t.holds k x → x = s)
    (hn : ∀ x, ∀ e ∈ t x, e.stamp < n) :
    Recency (Function.update t s (some ⟨k, v, n⟩)) (s :: rest) ∧
      keys (Function.update t s (some ⟨k, v, n⟩)) (s :: rest) = k :: t.keys rest := by
  have hsame : ∀ x ∈ rest, Function.update t s (some ⟨k, v, n⟩) x = t x := fun x hx =>
    Function.update_of_ne ((hmem x).mp hx).1 _ _
  have hother : ∀ k' x, x ≠ s → holds (Function.update t s (some ⟨k, v, n⟩)) k' x → k' ≠ k := by
    rintro k' x hx hholds rfl
    rw [holds_update_of_ne hx] at hholds
    exact hx (honly x hholds)
  refine ⟨⟨?_, ?_, ?_⟩, ?_⟩
  · intro x
    rw [List.mem_cons, hmem]
    by_cases hx : x = s
    · simp [hx]
    · simp [hx]
  · rw [List.pairwise_cons]
    refine ⟨?_, hsorted.imp_of_mem ?_⟩
    · intro x hx e he e' he'
      rw [Function.update_self, Option.mem_some_iff] at he
      rw [hsame x hx] at he'
      rw [← he]
      exact hn x e' he'
    · intro x y hx hy h
      rwa [hsame x hx, hsame y hy]
  · intro k' x y hx hy
    by_cases hxs : x = s
    · by_cases hys : y = s
      · rw [hxs, hys]
      · rw [hxs, holds_update_self, decide_eq_true_eq] at hx
        exact absurd hx.symm (hother k' y hys hy)
    · by_cases hys : y = s
      · rw [hys, holds_update_self, decide_eq_true_eq] at hy
        exact absurd hy.symm (hother k' x hxs hx)
      · rw [holds_update_of_ne hxs] at hx
        rw [holds_update_of_ne hys] at hy
        exact hunique k' x y hx hy
  · rw [keys_cons (e := ⟨k, v, n⟩) (Function.update_self _ _ _), keys_congr hsame]

variable (h : Recency t slots) (hcap : ∀ x, t x ≠ none → x < cap) (hn : ∀ x, ∀ e ∈ t x, e.stamp < n)

include h

theorem Recency.mem_erase {x : ℕ} : x ∈ slots.erase s ↔ x ≠ s ∧ t x ≠ none := by
  rw [h.nodup.mem_erase_iff, h.mem]

theorem Recency.sorted_erase (s : ℕ) :
    (slots.erase s).Pairwise fun s s' => ∀ e ∈ t s, ∀ e' ∈ t s', e'.stamp < e.stamp :=
  h.sorted.sublist List.erase_sublist

include hcap hn

/-- The use of a key that the table holds -/
theorem Recency.hit (hs : t.holds k s) :
    Recency (Function.update t s (some ⟨k, v, n⟩)) (s :: slots.erase s) ∧
      keys (Function.update t s (some ⟨k, v, n⟩)) (s :: slots.erase s) = touch cap k (t.keys slots) := by
  obtain ⟨e, he, rfl⟩ := holds_iff.mp hs
  obtain ⟨hrec, hkeys⟩ := recency_put (v := v) (fun _ => h.mem_erase) (h.sorted_erase s) h.unique
    (fun x hx => h.unique e.key x s hx hs) hn
  refine ⟨hrec, ?_⟩
  have hkey : e.key ∈ t.keys slots := mem_keys.mpr ⟨s, (h.mem s).mpr (by simp [he]), hs⟩
  have hlen : (t.keys slots).length ≤ cap := by
    rw [length_keys fun x hx => (h.mem x).mp hx]
    exact h.length_le hcap
  have hpos := List.length_pos_of_mem hkey
  rw [hkeys, h.keys_erase he, touch, List.take_of_length_le]
  rw [List.length_cons, List.length_erase_of_mem hkey]
  omega

/-- A new key in an empty slot -/
theorem Recency.place (hs : t s = none) (hlt : s < cap) (hnew : ∀ x, t.holds k x = false) :
    Recency (Function.update t s (some ⟨k, v, n⟩)) (s :: slots) ∧
      keys (Function.update t s (some ⟨k, v, n⟩)) (s :: slots) = touch cap k (t.keys slots) := by
  have hmem : ∀ x, x ∈ slots ↔ x ≠ s ∧ t x ≠ none := by
    intro x
    rw [h.mem]
    refine ⟨fun hx => ⟨?_, hx⟩, fun hx => hx.2⟩
    rintro rfl
    exact hx hs
  obtain ⟨hrec, hkeys⟩ := recency_put (k := k) (v := v) hmem h.sorted h.unique
    (fun x hx => absurd hx (by simp [hnew x])) hn
  refine ⟨hrec, ?_⟩
  have hkey := not_mem_keys hnew slots
  have hcap' : ∀ x, Function.update t s (some ⟨k, v, n⟩) x ≠ none → x < cap := by
    intro x hx
    by_cases hxs : x = s
    · exact hxs ▸ hlt
    · exact hcap x (by rwa [Function.update_of_ne hxs] at hx)
  have hlen := hrec.length_le hcap'
  rw [hkeys, touch, List.erase_of_not_mem hkey, List.take_of_length_le]
  rw [List.length_cons, length_keys fun x hx => (h.mem x).mp hx]
  exact hlen

/-- A new key in the slot of the oldest, where every slot was occupied -/
theorem Recency.evict (hcap0 : ∀ x < cap, t x ≠ none) {e : Entry K V} (hs : t s = some e)
    (hleast : ∀ x, ∀ e' ∈ t x, e.stamp ≤ e'.stamp) (hnew : ∀ x, t.holds k x = false) :
    Recency (Function.update t s (some ⟨k, v, n⟩)) (s :: slots.erase s) ∧
      keys (Function.update t s (some ⟨k, v, n⟩)) (s :: slots.erase s) = touch cap k (t.keys slots) := by
  obtain ⟨hrec, hkeys⟩ := recency_put (k := k) (v := v) (fun _ => h.mem_erase) (h.sorted_erase s) h.unique
    (fun x hx => absurd hx (by simp [hnew x])) hn
  refine ⟨hrec, ?_⟩
  have hkey := not_mem_keys hnew slots
  -- The oldest entry is the last of the list, and the list is full: `touch` cuts off its key.
  obtain ⟨before, after, hsplit⟩ := List.append_of_mem ((h.mem s).mpr (by simp [hs]))
  have hafter : after = [] := by
    refine List.eq_nil_iff_forall_not_mem.mpr fun y hy => ?_
    have hsorted := h.sorted
    rw [hsplit, List.pairwise_append, List.pairwise_cons] at hsorted
    obtain ⟨e', he'⟩ := Option.ne_none_iff_exists'.mp
      ((h.mem y).mp (by rw [hsplit]; exact List.mem_append_right _ (List.mem_cons_of_mem s hy)))
    exact absurd (hleast y e' he') (not_le.mpr (hsorted.2.1.1 y hy e hs e' he'))
  have hnot : s ∉ before := fun hb => by
    have hnd := h.nodup
    rw [hsplit] at hnd
    exact (List.nodup_append.mp hnd).2.2 s hb s List.mem_cons_self rfl
  have hlen : slots.length = cap := by
    refine le_antisymm (h.length_le hcap) ?_
    have hsub : List.range cap ⊆ slots := fun x hx => (h.mem x).mpr (hcap0 x (List.mem_range.mp hx))
    have hle := (List.nodup_range.subperm hsub).length_le
    rwa [List.length_range] at hle
  have hbefore : before.length + 1 = cap := by
    rw [← hlen, hsplit, hafter, List.length_append, List.length_singleton]
  have hlenb : (t.keys before).length = before.length :=
    length_keys fun x hx => (h.mem x).mp (by rw [hsplit]; exact List.mem_append_left _ hx)
  rw [hkeys, touch, List.erase_of_not_mem hkey, hsplit, hafter, List.erase_append_right _ hnot,
    List.erase_cons_head, List.append_nil, keys_append, keys_cons hs, ← hbefore, List.take_succ_cons,
    List.take_append_of_le_length hlenb.ge, List.take_of_length_le hlenb.le]

end

section

variable {K : Type*} [DecidableEq K]

/-- Distinct keys that are used one after the other are in front of the list, if they fit. -/
theorem foldl_touch_prefix {cap : ℕ} {ks : List K} (hnodup : ks.Nodup) (hlen : ks.length ≤ cap) (l : List K) :
    ks.reverse <+: ks.foldl (fun l k => touch cap k l) l := by
  induction ks using List.reverseRecOn with
  | nil => exact List.nil_prefix
  | append_singleton ks k ih =>
    rw [List.length_append, List.length_singleton] at hlen
    rw [List.nodup_append] at hnodup
    obtain ⟨rest, hrest⟩ := ih hnodup.1 (by omega)
    have hk : k ∉ ks.reverse := fun hmem =>
      hnodup.2.2 k (List.mem_reverse.mp hmem) k List.mem_cons_self rfl
    rw [List.foldl_append, List.foldl_cons, List.foldl_nil, List.reverse_append, List.reverse_singleton, touch,
      ← hrest, List.erase_append_right _ hk, List.singleton_append, List.prefix_take_iff]
    refine ⟨⟨rest.erase k, by rw [List.cons_append]⟩, ?_⟩
    rw [List.length_cons, List.length_reverse]
    exact hlen

/-- The use of a key that is in the list only reorders it. -/
theorem mem_touch {cap : ℕ} {k k' : K} {l : List K} (hk : k ∈ l) (hlen : l.length ≤ cap) :
    k' ∈ touch cap k l ↔ k' ∈ l := by
  have hpos := List.length_pos_of_mem hk
  have hperm : (k :: l.erase k).Perm l := (List.perm_cons_erase hk).symm
  rw [touch, List.take_of_length_le (by rw [hperm.length_eq]; exact hlen), hperm.mem_iff]

end

end Table

end Probing
