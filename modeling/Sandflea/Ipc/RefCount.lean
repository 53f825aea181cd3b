import Sandflea.Ipc.Shmem

/-!
# Reference counts of shared memory

Attachments are counted in three places: the count of a region, the entries of the handle tables and
the counter of each process. `Counted` says that they agree, that each region that was created is
either in the list or was freed once, and what keeps `shmem_find_global` unambiguous. Every step keeps
it as long as the ids do not run out; `shmem_counts` has the whole law, with what a step may change: a
region leaves the list exactly when its last attachment goes, and a handle that a step does not drop
denotes the region it denoted before.
-/

namespace Sandflea

open Ipc

/-! ## Counting entries -/

/-- An entry denotes a region. -/
def ShmemEntry.denotes (shmId : ℕ) (e : ShmemEntry) : Bool := e.active && e.shmId == shmId

/-- The number of entries of a table for a region. -/
def refsIn (shmId : ℕ) (table : List ShmemEntry) : ℕ := table.countP (ShmemEntry.denotes shmId)

/-- The number of active entries of a table. -/
def activeIn (table : List ShmemEntry) : ℕ := table.countP ShmemEntry.active

/-- The number of entries for a region over all tables. -/
def Ipc.refs (s : Ipc) (shmId : ℕ) : ℕ := ∑ p, refsIn shmId (s.procs p).shmemTable

theorem denotes_iff {shmId : ℕ} {e : ShmemEntry} :
    e.denotes shmId = true ↔ e.active = true ∧ e.shmId = shmId := by
  unfold ShmemEntry.denotes
  rw [Bool.and_eq_true, beq_iff_eq]

/-- Replacing an entry moves the count from the old to the new one. -/
theorem countP_set_add {P : ShmemEntry → Bool} {table : List ShmemEntry} {i : ℕ} {e : ShmemEntry}
    (h : table[i]? = some e) (e' : ShmemEntry) :
    (table.set i e').countP P + (if P e then 1 else 0) =
      table.countP P + (if P e' then 1 else 0) := by
  obtain ⟨hi, rfl⟩ := List.getElem?_eq_some_iff.mp h
  have hpos : P table[i] = true → 0 < table.countP P := fun hp =>
    List.countP_pos_iff.mpr ⟨_, List.getElem_mem hi, hp⟩
  rw [List.countP_set hi]
  split
  next hp =>
    have := hpos hp
    omega
  · omega

theorem countP_append_zeroed {P : ShmemEntry → Bool} (hP : P .zeroed = false)
    (table : List ShmemEntry) (n : ℕ) :
    (table ++ List.replicate n ShmemEntry.zeroed).countP P = table.countP P := by
  rw [List.countP_append, List.countP_replicate, hP, if_neg Bool.false_ne_true, Nat.add_zero]

/-- A change of one process moves the count from its old table to the new one. -/
theorem refs_of_procs_eq {s s' : Ipc} {p : Pid} {proc : ShmemProc}
    (h : s'.procs = Function.update s.procs p proc) (shmId : ℕ) :
    s'.refs shmId + refsIn shmId (s.procs p).shmemTable =
      s.refs shmId + refsIn shmId proc.shmemTable := by
  unfold Ipc.refs
  rw [← Finset.add_sum_erase _ _ (Finset.mem_univ p),
    ← Finset.add_sum_erase (a := p) _ (fun q => refsIn shmId (s.procs q).shmemTable)
      (Finset.mem_univ p)]
  have hrest : ∑ q ∈ Finset.univ.erase p, refsIn shmId (s'.procs q).shmemTable =
      ∑ q ∈ Finset.univ.erase p, refsIn shmId (s.procs q).shmemTable := by
    refine Finset.sum_congr rfl fun q hq => ?_
    rw [h, Function.update_of_ne (Finset.ne_of_mem_erase hq)]
  rw [hrest, h, Function.update_self]
  omega

theorem refs_le (s : Ipc) {shmId : ℕ}
    (h : ∀ p, refsIn shmId (s.procs p).shmemTable ≤ 1) : s.refs shmId ≤ 2 ^ 31 := by
  calc s.refs shmId ≤ ∑ _p : Pid, 1 := Finset.sum_le_sum fun p _ => h p
    _ = Fintype.card Pid := (Finset.card_eq_sum_ones _).symm
    _ = 2 ^ 31 := Fintype.card_fin _

/-! ## The list of regions -/

/-- The ids of the regions in the list. -/
def Ipc.ids (s : Ipc) : List ℕ := s.regions.map Region.shmId

theorem map_modifyRegion (shmId : ℕ) {f : Region → Region} (hf : ∀ r, (f r).shmId = r.shmId)
    (rs : List Region) : (modifyRegion shmId f rs).map Region.shmId = rs.map Region.shmId := by
  induction rs with
  | nil => rfl
  | cons r rs ih =>
    unfold modifyRegion
    split
    · rw [List.map_cons, List.map_cons, hf]
    · rw [List.map_cons, List.map_cons, ih]

/-- With unique ids, changing the first region with an id changes those with that id. -/
theorem modifyRegion_eq_map {shmId : ℕ} {f : Region → Region} {rs : List Region}
    (h : (rs.map Region.shmId).Nodup) :
    modifyRegion shmId f rs = rs.map fun r => if r.shmId = shmId then f r else r := by
  induction rs with
  | nil => rfl
  | cons r rs ih =>
    rw [List.map_cons, List.nodup_cons] at h
    unfold modifyRegion
    split
    next hr =>
      have hrest : rs.map (fun r' => if r'.shmId = shmId then f r' else r') = rs.map id := by
        refine List.map_congr_left fun r' hr' => if_neg fun he => h.1 ?_
        rw [hr, ← he]
        exact List.mem_map_of_mem hr'
      rw [List.map_cons, if_pos hr, hrest, List.map_id]
    next hr => rw [List.map_cons, if_neg hr, ih h.2]

/-- With unique ids, unlinking the first region with an id leaves those with other ids. -/
theorem unlinkRegion_eq_filter {shmId : ℕ} {rs : List Region}
    (h : (rs.map Region.shmId).Nodup) :
    unlinkRegion shmId rs = rs.filter fun r => r.shmId != shmId := by
  induction rs with
  | nil => rfl
  | cons r rs ih =>
    rw [List.map_cons, List.nodup_cons] at h
    unfold unlinkRegion
    split
    next hr =>
      rw [List.filter_cons_of_neg (by simp [hr])]
      refine (List.filter_eq_self.mpr fun r' hr' => ?_).symm
      refine bne_iff_ne.mpr fun he => h.1 ?_
      rw [hr, ← he]
      exact List.mem_map_of_mem hr'
    next hr => rw [List.filter_cons_of_pos (by simp [hr]), ih h.2]

theorem shmemFindGlobal_eq_some {s : Ipc} {shmId : ℕ} {r : Region}
    (h : s.shmemFindGlobal shmId = some r) : r ∈ s.regions ∧ r.shmId = shmId := by
  unfold shmemFindGlobal at h
  have hid := List.find?_some h
  exact ⟨List.mem_of_find?_eq_some h, beq_iff_eq.mp hid⟩

/-- A region in the list is found by its id. -/
theorem exists_shmemFindGlobal {s : Ipc} {r : Region} (hr : r ∈ s.regions) :
    ∃ r', s.shmemFindGlobal r.shmId = some r' := by
  have h : (s.regions.find? fun r' => r'.shmId == r.shmId).isSome = true :=
    List.find?_isSome.mpr ⟨r, hr, beq_self_eq_true _⟩
  exact Option.isSome_iff_exists.mp h

/-! ## Steps that leave regions and tables alone -/

section Pages

variable (s : Ipc)

/-- Two states have the same regions and the same tables. -/
structure Ipc.SameTables (s s' : Ipc) : Prop where
  regions : s'.regions = s.regions
  nextShmId : s'.nextShmId = s.nextShmId
  procs : s'.procs = s.procs
  freedIds : s'.freedIds = s.freedIds

theorem sameTables_refl : s.SameTables s := ⟨rfl, rfl, rfl, rfl⟩

variable {s}

theorem Ipc.SameTables.trans {s' s'' : Ipc} (h : s.SameTables s') (h' : s'.SameTables s'') :
    s.SameTables s'' :=
  ⟨h'.regions.trans h.regions, h'.nextShmId.trans h.nextShmId, h'.procs.trans h.procs,
    h'.freedIds.trans h.freedIds⟩

variable (s)

theorem sameTables_pmmAllocPage (owner : ℕ → PageOwner) :
    s.SameTables (s.pmmAllocPage owner).2 := by
  unfold pmmAllocPage
  split
  · exact sameTables_refl s
  · exact ⟨rfl, rfl, rfl, rfl⟩

theorem sameTables_pmmFree (page : ℕ) : s.SameTables (s.pmmFree page) := by
  unfold pmmFree
  split
  · exact sameTables_refl s
  · exact ⟨rfl, rfl, rfl, rfl⟩

theorem sameTables_takePages (n : ℕ) : s.SameTables (s.takePages n) := by
  induction n generalizing s with
  | zero => exact sameTables_refl s
  | succ n ih => exact (sameTables_pmmAllocPage s _).trans (ih _)

theorem sameTables_freePages (pages : List ℕ) : s.SameTables (s.freePages pages) := by
  induction pages generalizing s with
  | nil => exact sameTables_refl s
  | cons page pages ih => exact (sameTables_pmmFree s page).trans (ih _)

end Pages

/-! ## The invariant -/

/-- The capacities that a table can have. -/
def Capacity (n : ℕ) : Prop := n = 0 ∨ ∃ k ≤ 31, n = 2 ^ k

/-- The counts agree, and each id below the next one was given to one region, which is in the list or
was freed. -/
structure Ipc.Counted (s : Ipc) : Prop where
  capacity : ∀ p, Capacity (s.procs p).shmemTable.length
  created : (s.ids ++ s.freedIds).Perm (List.range' 1 (s.nextShmId - 1))
  next_pos : 0 < s.nextShmId
  next_le : s.nextShmId ≤ 2 ^ 31
  whole : ∀ r ∈ s.regions, r.pageCount ≠ 0 ∧ r.physBase ≠ 0
  refCount : ∀ r ∈ s.regions, r.refCount = s.refs r.shmId
  shmemCount : ∀ p, (s.procs p).shmemCount = activeIn (s.procs p).shmemTable
  single : ∀ p shmId, refsIn shmId (s.procs p).shmemTable ≤ 1
  listed : ∀ p, ∀ e ∈ (s.procs p).shmemTable, e.active = true →
    ∃ r ∈ s.regions, r.shmId = e.shmId ∧ r.pageCount = e.pageCount

namespace Ipc.Counted

variable {s : Ipc}

theorem nodup (h : s.Counted) : s.ids.Nodup :=
  (List.nodup_append.mp (h.created.nodup_iff.mpr List.nodup_range')).1

/-- An id in the list was given. -/
theorem id_lt (h : s.Counted) {r : Region} (hr : r ∈ s.regions) :
    0 < r.shmId ∧ r.shmId < s.nextShmId := by
  have hm : r.shmId ∈ List.range' 1 (s.nextShmId - 1) :=
    h.created.subset (List.mem_append_left _ (List.mem_map_of_mem hr))
  have hn := h.next_pos
  rw [List.mem_range'_1] at hm
  omega

/-- Two regions of the list with one id are the same. -/
theorem eq_of_id_eq (h : s.Counted) {r r' : Region} (hr : r ∈ s.regions) (hr' : r' ∈ s.regions)
    (he : r.shmId = r'.shmId) : r = r' :=
  List.inj_on_of_nodup_map h.nodup hr hr' he

theorem find (h : s.Counted) {r : Region} (hr : r ∈ s.regions) :
    s.shmemFindGlobal r.shmId = some r := by
  obtain ⟨r', hr'⟩ := exists_shmemFindGlobal hr
  obtain ⟨hm, he⟩ := shmemFindGlobal_eq_some hr'
  rw [hr', h.eq_of_id_eq hm hr he]

/-- A process has fewer active entries than there can be regions. -/
theorem activeIn_lt (h : s.Counted) (p : Pid) : activeIn (s.procs p).shmemTable < 2 ^ 31 := by
  let table := (s.procs p).shmemTable
  let held := (table.filter ShmemEntry.active).map ShmemEntry.shmId
  have hnodup : held.Nodup := by
    rw [List.nodup_iff_count_le_one]
    intro shmId
    have hc : held.count shmId = refsIn shmId table := by
      rw [List.count, List.countP_map, List.countP_filter]
      refine List.countP_congr fun e _ => ?_
      rw [denotes_iff, Function.comp_apply, Bool.and_eq_true, beq_iff_eq]
      exact and_comm
    rw [hc]
    exact h.single p shmId
  have hsub : held ⊆ List.range' 1 (s.nextShmId - 1) := by
    intro shmId hid
    obtain ⟨e, he, rfl⟩ := List.mem_map.mp hid
    obtain ⟨hmem, hact⟩ := List.mem_filter.mp he
    obtain ⟨r, hr, heq, -⟩ := h.listed p e hmem hact
    have hlt := h.id_lt hr
    rw [List.mem_range'_1, ← heq]
    omega
  have hlen := (hnodup.subperm hsub).length_le
  rw [List.length_map, List.length_range', ← List.countP_eq_length_filter] at hlen
  have hpos := h.next_pos
  have hle := h.next_le
  have hact : activeIn table = table.countP ShmemEntry.active := rfl
  change activeIn table < 2 ^ 31
  omega

/-- The boot state. -/
theorem boot (cr3 heapVptr : Pid → ℕ) (freeList : List ℕ) (phys : Bytes) :
    (Ipc.boot cr3 heapVptr freeList phys).Counted where
  capacity _ := .inl rfl
  created := List.Perm.refl []
  next_pos := Nat.one_pos
  next_le := Nat.one_le_two_pow
  whole _ hr := absurd hr List.not_mem_nil
  refCount _ hr := absurd hr List.not_mem_nil
  shmemCount _ := rfl
  single _ _ := Nat.zero_le 1
  listed _ _ he := absurd he List.not_mem_nil

/-- Steps that leave regions and tables alone keep the counts. -/
theorem of_sameTables (h : s.Counted) {s' : Ipc} (hs : s.SameTables s') : s'.Counted := by
  obtain ⟨regions, nextShmId, procs, freeList, owner, phys, freedIds⟩ := s'
  obtain ⟨hr, hn, hp, hf⟩ := hs
  dsimp only at hr hn hp hf
  subst hr hn hp hf
  exact ⟨h.capacity, h.created, h.next_pos, h.next_le, h.whole, h.refCount, h.shmemCount,
    h.single, h.listed⟩

end Ipc.Counted

/-! ## What the calls do -/

/-- A creation fails, or adds a region with the next id. -/
theorem shmemCreateRegion_cases (s : Ipc) (pageCount flags : ℕ) (heap : KmallocOutcome) :
    ((s.shmemCreateRegion pageCount flags heap).1 = -1 ∧
      s.SameTables (s.shmemCreateRegion pageCount flags heap).2) ∨
      ∃ s₁ phys, s.SameTables s₁ ∧ phys ≠ 0 ∧
        (s.shmemCreateRegion pageCount flags heap).1 = i32 s.nextShmId ∧
        (s.shmemCreateRegion pageCount flags heap).2 = { s₁ with
          nextShmId := if u32 (s.nextShmId + 1) = 0 then 1 else u32 (s.nextShmId + 1)
          regions := ⟨s.nextShmId, phys, if pageCount = 0 then 1 else pageCount, flags, 0⟩ ::
            s.regions } := by
  unfold shmemCreateRegion
  dsimp only
  have h₁ := sameTables_pmmAllocPage s .region
  have h₂ := h₁.trans (sameTables_takePages (s.pmmAllocPage .region).2 heap.pages)
  by_cases hphys : (s.pmmAllocPage .region).1 = 0
  · rw [if_pos hphys]
    exact .inl ⟨rfl, h₁⟩
  · rw [if_neg hphys]
    by_cases hok : heap.ok = true
    · rw [if_pos hok]
      refine .inr ⟨_, _, h₂, hphys, ?_, ?_⟩
      · dsimp only
        rw [h₂.nextShmId]
      · dsimp only
        rw [h₂.nextShmId, h₂.regions]
    · rw [if_neg hok]
      exact .inl ⟨rfl, h₂.trans (sameTables_pmmFree _ _)⟩

/-- The first slot that is free comes after active entries only. -/
theorem findIdx?_free {table : List ShmemEntry} {i : ℕ}
    (h : table.findIdx? (fun e => !e.active) = some i) :
    ∃ e, table[i]? = some e ∧ e.active = false ∧ i ≤ activeIn table := by
  obtain ⟨hi, hfree, hbefore⟩ := List.findIdx?_eq_some_iff_getElem.mp h
  refine ⟨table[i], List.getElem?_eq_getElem hi, by simpa using hfree, ?_⟩
  have htake : (table.take i).countP ShmemEntry.active = (table.take i).length := by
    rw [List.countP_eq_length]
    intro e he
    obtain ⟨j, hj, rfl⟩ := List.mem_take_iff_getElem.mp he
    have hact := hbefore j (by omega)
    simpa using hact
  rw [List.length_take, min_eq_left hi.le] at htake
  calc i = (table.take i).countP ShmemEntry.active := htake.symm
    _ ≤ activeIn table := (List.take_sublist i table).countP_le

/-- The table of a process after a slot was found in it: `n` slots are new. -/
def ShmemProc.grow (proc : ShmemProc) (n : ℕ) : ShmemProc :=
  { proc with shmemTable := proc.shmemTable ++ List.replicate n .zeroed }

/-- There is a slot for one more entry: one is free, or there is memory for a larger table. -/
def Ipc.HasSlot (s : Ipc) (p : Pid) (heap : KmallocOutcome) : Prop :=
  (∃ e ∈ (s.procs p).shmemTable, e.active = false) ∨ heap.ok = true

/-- A slot for a process is found, possibly after its table grew, or there is none. -/
theorem procAllocShmemSlot_cases {s : Ipc} (h : s.Counted) (p : Pid) (heap : KmallocOutcome) :
    ((s.procAllocShmemSlot p heap).1 = -1 ∧ ¬s.HasSlot p heap ∧
        s.SameTables (s.procAllocShmemSlot p heap).2) ∨
      ∃ (i n : ℕ) (e : ShmemEntry) (s₁ : Ipc), (s.procAllocShmemSlot p heap).1 = i ∧ s.HasSlot p heap ∧
        ((s.procs p).grow n).shmemTable[i]? = some e ∧ e.active = false ∧
        Capacity ((s.procs p).grow n).shmemTable.length ∧ s.SameTables s₁ ∧
        (s.procAllocShmemSlot p heap).2 = s₁.setProc p ((s.procs p).grow n) := by
  have hlt := h.activeIn_lt p
  unfold procAllocShmemSlot
  dsimp only
  split
  next i hi =>
    obtain ⟨e, he, hact, hle⟩ := findIdx?_free hi
    have hslot : i32 (i : ℤ) = i := i32_of_lt (by omega)
    refine .inr ⟨i, 0, e, s, ?_, .inl ⟨e, List.mem_of_getElem? he, hact⟩, ?_, hact, ?_,
      sameTables_refl s, ?_⟩
    · dsimp only
      exact hslot
    · rw [ShmemProc.grow, List.replicate_zero, List.append_nil]
      exact he
    · rw [ShmemProc.grow, List.replicate_zero, List.append_nil]
      exact h.capacity p
    · unfold setProc ShmemProc.grow
      rw [List.replicate_zero, List.append_nil, Function.update_eq_self]
  next hnone =>
    -- Every slot is taken, so the capacity is the number of active entries.
    have hactive : ∀ e ∈ (s.procs p).shmemTable, e.active = true := by
      intro e he
      have hact := List.findIdx?_eq_none_iff.mp hnone e he
      simpa using hact
    have hfull : activeIn (s.procs p).shmemTable = (s.procs p).shmemTable.length :=
      List.countP_eq_length.mpr hactive
    rw [hfull] at hlt
    have hs := sameTables_takePages s heap.pages
    have hnew : (if (s.procs p).shmemTable.length = 0 then 4
        else u32 ((s.procs p).shmemTable.length * 2)) ≠ 0 := by
      split
      · decide
      next hne =>
        rw [u32_of_lt (by omega)]
        omega
    by_cases hok : heap.ok = true ∧
        (if (s.procs p).shmemTable.length = 0 then 4
          else u32 ((s.procs p).shmemTable.length * 2)) ≠ 0
    · rw [if_pos hok]
      have hslot : i32 ((s.procs p).shmemTable.length : ℤ) = (s.procs p).shmemTable.length :=
        i32_of_lt hlt
      refine .inr ⟨(s.procs p).shmemTable.length, _, .zeroed, _, ?_, .inr hok.1, ?_, rfl, ?_, hs, rfl⟩
      rotate_right
      · rw [ShmemProc.grow, List.length_append, List.length_replicate]
        rcases h.capacity p with h0 | ⟨k, hk, hpow⟩
        · rw [h0, if_pos rfl]
          exact .inr ⟨2, by decide, rfl⟩
        · have hk' : k < 31 := by
            rw [hpow] at hlt
            exact (Nat.pow_lt_pow_iff_right (by decide)).mp hlt
          have hne : (s.procs p).shmemTable.length ≠ 0 := by
            rw [hpow]
            exact Nat.two_pow_pos k |>.ne'
          rw [if_neg hne, u32_of_lt (by omega)]
          exact .inr ⟨k + 1, hk', by rw [Nat.pow_succ]; omega⟩
      · dsimp only
        exact hslot
      · rw [ShmemProc.grow, List.getElem?_append_right le_rfl, Nat.sub_self,
          List.getElem?_replicate, if_pos]
        split
        · omega
        · rw [u32_of_lt (by omega)]
          omega
    · rw [if_neg hok]
      refine .inl ⟨rfl, ?_, hs⟩
      rintro (⟨e, he, hfree⟩ | hheap)
      · rw [hactive e he] at hfree
        cases hfree
      · exact hok ⟨hheap, hnew⟩

/-- An attachment that adds an entry for the region `sh` to the table of process `p`. -/
structure Ipc.Attached (s s' : Ipc) (p : Pid) (sh : Region) : Prop where
  mem : sh ∈ s.regions
  absent : ∀ e ∈ (s.procs p).shmemTable, e.denotes sh.shmId = false
  regions : s'.regions =
    modifyRegion sh.shmId (fun r => { r with refCount := u32 (r.refCount + 1) }) s.regions
  nextShmId : s'.nextShmId = s.nextShmId
  freedIds : s'.freedIds = s.freedIds
  procs : ∃ (n i : ℕ) (e : ShmemEntry) (va heapVptr : ℕ),
    ((s.procs p).grow n).shmemTable[i]? = some e ∧ e.active = false ∧
      Capacity ((s.procs p).grow n).shmemTable.length ∧
      s'.procs = Function.update s.procs p { s.procs p with
        heapVptr := heapVptr
        shmemTable := ((s.procs p).grow n).shmemTable.set i ⟨true, sh.shmId, va, sh.pageCount⟩
        shmemCount := u32 ((s.procs p).shmemCount + 1) }

/-- An attachment of process `p` to a region can be made. -/
def Ipc.CanAttach (s : Ipc) (p : Pid) (heap : KmallocOutcome) : Prop :=
  (s.procs p).cr3 ≠ 0 ∧ s.HasSlot p heap

/-- An attachment fails, which it does only if it cannot be made or the region is not there; or finds an entry for
the region; or adds one. -/
theorem shmemAttachProc_outcome {s : Ipc} (h : s.Counted) (p : Pid) (shmId : ℕ)
    (heap : KmallocOutcome) (tables : ℕ) :
    ((s.shmemAttachProc p shmId heap tables).1 = -1 ∧ (s.CanAttach p heap → shmId ∉ s.ids) ∧
        s.SameTables (s.shmemAttachProc p shmId heap tables).2) ∨
      ((∃ e ∈ (s.procs p).shmemTable, e.denotes shmId = true) ∧
        s.SameTables (s.shmemAttachProc p shmId heap tables).2) ∨
      ∃ sh, sh.shmId = shmId ∧ 0 ≤ (s.shmemAttachProc p shmId heap tables).1 ∧ s.CanAttach p heap ∧
        s.Attached (s.shmemAttachProc p shmId heap tables).2 p sh := by
  unfold shmemAttachProc
  split
  next hzero =>
    refine .inl ⟨rfl, fun hcan hmem => ?_, sameTables_refl s⟩
    obtain ⟨r, hr, rfl⟩ := List.mem_map.mp hmem
    exact hzero.elim (h.id_lt hr).1.ne' hcan.1
  next hnonzero =>
    split
    next hfind =>
      refine .inl ⟨rfl, fun _ hmem => ?_, sameTables_refl s⟩
      obtain ⟨r, hr, rfl⟩ := List.mem_map.mp hmem
      rw [h.find hr] at hfind
      cases hfind
    next sh hfind =>
      obtain ⟨hmem, rfl⟩ := shmemFindGlobal_eq_some hfind
      split
      next hbad => exact (not_or.mpr (h.whole sh hmem) hbad).elim
      · split
        next i hsome =>
          obtain ⟨hi, hden, -⟩ := List.findIdx?_eq_some_iff_getElem.mp hsome
          exact .inr (.inl ⟨⟨_, List.getElem_mem hi, hden⟩, sameTables_refl s⟩)
        next hnone =>
          rcases procAllocShmemSlot_cases h p heap with
            ⟨hslot, hnot, hs⟩ | ⟨i, n, e, s₁, hslot, hhas, he, hact, hcap, hs, hs₁⟩
          · dsimp only
            rw [hslot, if_pos (by decide)]
            exact .inl ⟨rfl, fun hcan => absurd hcan.2 hnot, hs⟩
          · have hi : ¬ ((i : ℤ) < 0) := by omega
            have ht := sameTables_takePages (s₁.setProc p ((s.procs p).grow n)) tables
            have hp : (s₁.setProc p ((s.procs p).grow n)).procs p = (s.procs p).grow n :=
              Function.update_self p _ _
            refine .inr (.inr ⟨sh, rfl, ?_, ⟨fun h0 => hnonzero (.inr h0), hhas⟩, hmem,
              fun e' he' => ?_, ?_, ?_, ?_, n, i, e, (s.procs p).heapVptr,
              u64 ((s.procs p).heapVptr + sh.pageCount * pageSize), he, hact, hcap, ?_⟩)
            rotate_left
            · exact List.findIdx?_eq_none_iff.mp hnone e' he'
            all_goals
              dsimp only
              rw [hslot, if_neg hi]
              try rw [hs₁, hp]
            · exact congrArg _ (ht.regions.trans hs.regions)
            · exact ht.nextShmId.trans hs.nextShmId
            · exact ht.freedIds.trans hs.freedIds
            · have hprocs : (takePages tables (s₁.setProc p ((s.procs p).grow n))).procs =
                  Function.update s.procs p ((s.procs p).grow n) := by
                rw [ht.procs, setProc, hs.procs]
              rw [setProc, hprocs, Function.update_idem]
              rfl
            · exact Int.natCast_nonneg i

/-- An attachment adds an entry, or changes nothing, except that the table may have grown. -/
theorem shmemAttachProc_cases {s : Ipc} (h : s.Counted) (p : Pid) (shmId : ℕ)
    (heap : KmallocOutcome) (tables : ℕ) :
    s.SameTables (s.shmemAttachProc p shmId heap tables).2 ∨
      ∃ sh, s.Attached (s.shmemAttachProc p shmId heap tables).2 p sh := by
  rcases shmemAttachProc_outcome h p shmId heap tables with
    ⟨-, -, hs⟩ | ⟨-, hs⟩ | ⟨sh, -, -, -, ha⟩
  · exact .inl hs
  · exact .inl hs
  · exact .inr ⟨sh, ha⟩

/-- A detachment that drops the entry `e` in slot `i` of the table of process `p`, for the region
`r`. -/
structure Ipc.Detached (s s' : Ipc) (p : Pid) (i : ℕ) (e : ShmemEntry) (r : Region) : Prop where
  entry : (s.procs p).shmemTable[i]? = some e
  active : e.active = true
  mem : r ∈ s.regions
  shmId : r.shmId = e.shmId
  nextShmId : s'.nextShmId = s.nextShmId
  procs : s'.procs = Function.update s.procs p (clearSlot (s.procs p) i)
  last : r.refCount = 1 → s'.regions = s.regions.filter (fun r' => r'.shmId != r.shmId) ∧
    s'.freedIds = r.shmId :: s.freedIds ∧ s'.freeList = (s.freePages (regionPages r)).freeList
  notLast : r.refCount ≠ 1 →
    s'.regions = modifyRegion r.shmId (fun r => { r with refCount := r.refCount - 1 }) s.regions ∧
    s'.freedIds = s.freedIds ∧ s'.freeList = s.freeList

/-- The entry that a handle denotes is an active one of the table. -/
theorem entryAt_eq_some {s : Ipc} {p : Pid} {handle : ℤ} {e : ShmemEntry} :
    s.entryAt p handle = some e ↔
      0 ≤ handle ∧ (s.procs p).shmemTable[handle.toNat]? = some e ∧ e.active = true := by
  unfold entryAt
  split
  next hneg => exact ⟨fun h => absurd h (by simp), fun h => absurd h.1 (by omega)⟩
  next hpos =>
    rw [Option.filter_eq_some_iff]
    exact ⟨fun h => ⟨by omega, h⟩, fun h => h.2⟩

/-- The pages that a return adds to the free list do not depend on the rest of the state. -/
theorem freeList_freePages {s s' : Ipc} (h : s'.freeList = s.freeList) (pages : List ℕ) :
    (s'.freePages pages).freeList = (s.freePages pages).freeList := by
  induction pages generalizing s s' with
  | nil => exact h
  | cons page pages ih =>
    have hpage : (s'.pmmFree page).freeList = (s.pmmFree page).freeList := by
      unfold pmmFree
      split
      · exact h
      · exact congrArg (page :: ·) h
    exact ih hpage

/-- An active entry counts for its region. -/
theorem refs_pos {s : Ipc} {p : Pid} {i : ℕ} {e : ShmemEntry}
    (he : (s.procs p).shmemTable[i]? = some e) (hact : e.active = true) : 0 < s.refs e.shmId := by
  have hpos : 0 < refsIn e.shmId (s.procs p).shmemTable :=
    List.countP_pos_iff.mpr ⟨e, List.mem_of_getElem? he, denotes_iff.mpr ⟨hact, rfl⟩⟩
  exact hpos.trans_le (Finset.single_le_sum
    (f := fun q => refsIn e.shmId (s.procs q).shmemTable) (fun _ _ => Nat.zero_le _)
    (Finset.mem_univ p))

/-- A detachment fails and changes nothing, or drops the entry of its handle. -/
theorem shmemDetachProc_cases {s : Ipc} (h : s.Counted) (p : Pid) (handle : ℤ) :
    (s.entryAt p handle = none ∧ s.shmemDetachProc p handle = (false, s)) ∨
      ∃ e r, s.entryAt p handle = some e ∧ (s.shmemDetachProc p handle).1 = true ∧
        s.Detached (s.shmemDetachProc p handle).2 p handle.toNat e r := by
  unfold shmemDetachProc
  cases hentry : s.entryAt p handle with
  | none => exact .inl ⟨rfl, rfl⟩
  | some e =>
    obtain ⟨-, he, hact⟩ := entryAt_eq_some.mp hentry
    obtain ⟨r, hr, hid, -⟩ := h.listed p e (List.mem_of_getElem? he) hact
    have hrefs : 0 < r.refCount := by
      rw [h.refCount r hr, hid]
      exact refs_pos he hact
    have hfind := h.find hr
    refine .inr ⟨e, r, rfl, rfl, ?_⟩
    generalize hproc : clearSlot (s.procs p) handle.toNat = proc
    dsimp only
    have hfind₁ : (s.setProc p proc).shmemFindGlobal e.shmId = some r := hid ▸ hfind
    rw [dropRef, hfind₁]
    dsimp only
    have hs := sameTables_freePages (s.setProc p proc) (regionPages r)
    have hfree : (s.setProc p proc).freeList = s.freeList := rfl
    have hl := freeList_freePages hfree (regionPages r)
    subst hproc
    by_cases h1 : r.refCount - 1 = 0
    · rw [if_pos h1]
      refine ⟨he, hact, hr, hid, hs.nextShmId, hs.procs, fun _ => ⟨?_, ?_, hl⟩,
        fun hne => absurd (by omega) hne⟩
      · rw [← hid]
        exact unlinkRegion_eq_filter h.nodup
      · rw [← hid]
        rfl
    · rw [if_neg h1]
      refine ⟨he, hact, hr, hid, rfl, rfl, fun h1' => absurd (by omega) h1, fun _ => ⟨?_, rfl, rfl⟩⟩
      rw [← hid]
      rfl

/-! ## The invariant is kept -/

section Kept

variable {s s' : Ipc}

/-- The next id is not the one that stands for a failure. -/
theorem Ipc.Counted.i32_nextShmId (h : s.Counted) : i32 s.nextShmId ≠ -1 := by
  have hpos := h.next_pos
  have hle := h.next_le
  unfold i32
  rcases hle.lt_or_eq with hlt | heq
  · rw [Int.bmod_eq_of_le] <;> omega
  · rw [heq]
    decide

theorem Ipc.Counted.create (h : s.Counted) (pageCount flags : ℕ) (heap : KmallocOutcome)
    (hn : (s.shmemCreateRegion pageCount flags heap).1 ≠ -1 → s.nextShmId < 2 ^ 31) :
    (s.shmemCreateRegion pageCount flags heap).2.Counted := by
  rcases shmemCreateRegion_cases s pageCount flags heap with
    ⟨-, hs⟩ | ⟨s₁, phys, hs, hphys, hid, he⟩
  · exact h.of_sameTables hs
  · rw [hid] at hn
    replace hn := hn h.i32_nextShmId
    have hnext : (if u32 (s.nextShmId + 1) = 0 then 1 else u32 (s.nextShmId + 1)) =
        s.nextShmId + 1 := by
      rw [u32_of_lt (by omega), if_neg (by omega)]
    rw [he, hnext]
    have h₁ := h.of_sameTables hs
    have hpos := h.next_pos
    have hrefs : ∀ shmId, Ipc.refs { s₁ with
        nextShmId := s.nextShmId + 1
        regions := ⟨s.nextShmId, phys, if pageCount = 0 then 1 else pageCount, flags, 0⟩ ::
          s.regions } shmId = s.refs shmId := by
      intro shmId
      unfold Ipc.refs
      rw [hs.procs]
    refine ⟨h₁.capacity, ?_, Nat.succ_pos _, Nat.succ_le_of_lt hn, ?_, ?_, h₁.shmemCount,
      h₁.single, ?_⟩
    · have hrange : List.range' 1 (s.nextShmId + 1 - 1) =
          List.range' 1 (s.nextShmId - 1) ++ [s.nextShmId] := by
        have hsucc : s.nextShmId + 1 - 1 = s.nextShmId - 1 + 1 := by omega
        rw [hsucc, List.range'_concat]
        congr 2
        omega
      rw [hrange]
      have hc := h.created
      rw [← hs.freedIds] at hc
      exact (hc.cons s.nextShmId).trans (List.perm_append_singleton _ _).symm
    · intro r hr
      rcases List.mem_cons.mp hr with rfl | hr
      · refine ⟨?_, hphys⟩
        dsimp only
        split <;> omega
      · exact h.whole r hr
    · intro r hr
      rw [hrefs]
      rcases List.mem_cons.mp hr with rfl | hr
      · -- No entry can be for an id that was not given.
        refine (Finset.sum_eq_zero fun p _ => List.countP_eq_zero.mpr fun e he => ?_).symm
        rw [denotes_iff]
        rintro ⟨hact, hid⟩
        obtain ⟨r, hr, hre, -⟩ := h.listed p e he hact
        have hlt := h.id_lt hr
        rw [hre, hid] at hlt
        exact lt_irrefl _ hlt.2
      · exact h.refCount r hr
    · intro p e he hact
      rw [show s₁.procs = s.procs from hs.procs] at he
      obtain ⟨r, hr, hre⟩ := h.listed p e he hact
      exact ⟨r, List.mem_cons_of_mem _ hr, hre⟩

/-- The count of entries of a grown table in which a free slot was filled. -/
theorem countP_fill {P : ShmemEntry → Bool} (hP : ∀ e : ShmemEntry, e.active = false → P e = false)
    {proc : ShmemProc} {n i : ℕ} {e : ShmemEntry} (he : (proc.grow n).shmemTable[i]? = some e)
    (hact : e.active = false) (e' : ShmemEntry) :
    ((proc.grow n).shmemTable.set i e').countP P =
      proc.shmemTable.countP P + (if P e' then 1 else 0) := by
  have hset := countP_set_add (P := P) he e'
  have hgrow : (proc.grow n).shmemTable.countP P = proc.shmemTable.countP P :=
    countP_append_zeroed (hP _ rfl) _ n
  rw [hP e hact, if_neg Bool.false_ne_true, hgrow] at hset
  exact hset

theorem not_denotes_of_free (shmId : ℕ) (e : ShmemEntry) (h : e.active = false) :
    e.denotes shmId = false := by
  unfold ShmemEntry.denotes
  rw [h, Bool.false_and]

/-- An attachment adds one to the count of its region and nothing to the others. -/
theorem Ipc.Attached.refs {p : Pid} {sh : Region} (ha : s.Attached s' p sh) (shmId : ℕ) :
    s'.refs shmId = s.refs shmId + if shmId = sh.shmId then 1 else 0 := by
  obtain ⟨n, i, e, va, heapVptr, he, hact, -, hprocs⟩ := ha.procs
  have hsum := refs_of_procs_eq hprocs shmId
  have hfill := countP_fill (not_denotes_of_free shmId) he hact ⟨true, sh.shmId, va, sh.pageCount⟩
  have hden : (ShmemEntry.denotes shmId ⟨true, sh.shmId, va, sh.pageCount⟩ = true) ↔
      shmId = sh.shmId := by
    rw [denotes_iff]
    exact ⟨fun hd => hd.2.symm, fun hd => ⟨rfl, hd.symm⟩⟩
  rw [if_congr hden rfl rfl] at hfill
  have hfill' : refsIn shmId
      (((s.procs p).grow n).shmemTable.set i ⟨true, sh.shmId, va, sh.pageCount⟩) =
      refsIn shmId (s.procs p).shmemTable + if shmId = sh.shmId then 1 else 0 := hfill
  rw [hfill'] at hsum
  omega

theorem Ipc.Counted.attached (h : s.Counted) {p : Pid} {sh : Region} (ha : s.Attached s' p sh) :
    s'.Counted := by
  have hids : s'.ids = s.ids := by
    unfold Ipc.ids
    rw [ha.regions]
    refine map_modifyRegion sh.shmId ?_ s.regions
    intro r
    rfl
  have hregions := ha.regions.trans (modifyRegion_eq_map h.nodup)
  obtain ⟨n, i, e, va, heapVptr, he, hact, hcap, hprocs⟩ := ha.procs
  have hself : s'.procs p = ⟨(s.procs p).cr3, heapVptr,
      ((s.procs p).grow n).shmemTable.set i ⟨true, sh.shmId, va, sh.pageCount⟩,
      u32 ((s.procs p).shmemCount + 1)⟩ := by
    rw [hprocs, Function.update_self]
  have hother : ∀ q, q ≠ p → s'.procs q = s.procs q := fun q hq => by
    rw [hprocs, Function.update_of_ne hq]
  -- A region of the new list comes from one of the old list.
  have hback : ∀ r' ∈ s'.regions, ∃ r ∈ s.regions, r'.shmId = r.shmId ∧
      r'.pageCount = r.pageCount ∧ r'.physBase = r.physBase ∧
      r'.refCount = if r.shmId = sh.shmId then u32 (r.refCount + 1) else r.refCount := by
    intro r' hr'
    rw [hregions] at hr'
    obtain ⟨r, hr, rfl⟩ := List.mem_map.mp hr'
    refine ⟨r, hr, ?_⟩
    split <;> exact ⟨rfl, rfl, rfl, rfl⟩
  have hforth : ∀ r ∈ s.regions, ∃ r' ∈ s'.regions, r'.shmId = r.shmId ∧
      r'.pageCount = r.pageCount := by
    intro r hr
    refine ⟨_, hregions ▸ List.mem_map_of_mem hr, ?_⟩
    split <;> exact ⟨rfl, rfl⟩
  constructor
  · intro q
    by_cases hq : q = p
    · subst hq
      rw [hself, List.length_set]
      exact hcap
    · rw [hother q hq]
      exact h.capacity q
  · rw [hids, ha.freedIds, ha.nextShmId]
    exact h.created
  · rw [ha.nextShmId]
    exact h.next_pos
  · rw [ha.nextShmId]
    exact h.next_le
  · intro r' hr'
    obtain ⟨r, hr, -, hpc, hpb, -⟩ := hback r' hr'
    rw [hpc, hpb]
    exact h.whole r hr
  · intro r' hr'
    obtain ⟨r, hr, hid, -, -, hrc⟩ := hback r' hr'
    have hle := refs_le s fun q => h.single q r.shmId
    rw [hrc, hid, ha.refs, h.refCount r hr]
    split
    · exact u32_of_lt (by omega)
    · exact (Nat.add_zero _).symm
  · intro q
    by_cases hq : q = p
    · subst hq
      have hlt := h.activeIn_lt q
      have hfill := countP_fill (P := ShmemEntry.active) (fun _ h => h) he hact
        ⟨true, sh.shmId, va, sh.pageCount⟩
      rw [if_pos rfl] at hfill
      rw [hself]
      dsimp only
      rw [h.shmemCount q, u32_of_lt (by omega)]
      exact hfill.symm
    · rw [hother q hq]
      exact h.shmemCount q
  · intro q shmId
    by_cases hq : q = p
    · subst hq
      have hfill := countP_fill (not_denotes_of_free shmId) he hact
        ⟨true, sh.shmId, va, sh.pageCount⟩
      rw [hself]
      refine hfill.trans_le ?_
      split
      next hd =>
        have hzero : (s.procs q).shmemTable.countP (ShmemEntry.denotes shmId) = 0 := by
          refine List.countP_eq_zero.mpr fun e' he' => ?_
          rw [← (denotes_iff.mp hd).2, ha.absent e' he']
          exact Bool.false_ne_true
        rw [hzero]
      · exact h.single q shmId
    · rw [hother q hq]
      exact h.single q shmId
  · intro q e' he' hact'
    by_cases hq : q = p
    · subst hq
      rw [hself] at he'
      rcases List.mem_or_eq_of_mem_set he' with hmem | rfl
      · rcases List.mem_append.mp hmem with hmem | hmem
        · obtain ⟨r, hr, hre, hrp⟩ := h.listed q e' hmem hact'
          obtain ⟨r', hr', hid, hpc⟩ := hforth r hr
          exact ⟨r', hr', hid.trans hre, hpc.trans hrp⟩
        · rw [List.eq_of_mem_replicate hmem] at hact'
          exact absurd hact' Bool.false_ne_true
      · exact hforth sh ha.mem
    · rw [hother q hq] at he'
      obtain ⟨r, hr, hre, hrp⟩ := h.listed q e' he' hact'
      obtain ⟨r', hr', hid, hpc⟩ := hforth r hr
      exact ⟨r', hr', hid.trans hre, hpc.trans hrp⟩

/-- A detachment takes one from the count of its region and nothing from the others. -/
theorem Ipc.Detached.refs {p : Pid} {i : ℕ} {e : ShmemEntry} {r : Region}
    (hd : s.Detached s' p i e r) (shmId : ℕ) :
    s'.refs shmId + (if shmId = r.shmId then 1 else 0) = s.refs shmId := by
  have hsum := refs_of_procs_eq hd.procs shmId
  have hset := countP_set_add (P := ShmemEntry.denotes shmId) hd.entry .zeroed
  have hden : (ShmemEntry.denotes shmId e = true) ↔ shmId = r.shmId := by
    rw [denotes_iff, hd.shmId]
    exact ⟨fun h => h.2.symm, fun h => ⟨hd.active, h.symm⟩⟩
  have hfree : ¬ (ShmemEntry.zeroed.denotes shmId = true) := Bool.false_ne_true
  rw [if_congr hden rfl rfl, if_neg hfree] at hset
  have hset' : refsIn shmId (clearSlot (s.procs p) i).shmemTable +
      (if shmId = r.shmId then 1 else 0) = refsIn shmId (s.procs p).shmemTable := hset
  omega

theorem Ipc.Counted.detached (h : s.Counted) {p : Pid} {i : ℕ} {e : ShmemEntry} {r : Region}
    (hd : s.Detached s' p i e r) : s'.Counted := by
  have hself : s'.procs p = clearSlot (s.procs p) i := by
    rw [hd.procs, Function.update_self]
  have hother : ∀ q, q ≠ p → s'.procs q = s.procs q := fun q hq => by
    rw [hd.procs, Function.update_of_ne hq]
  have hrefs := hd.refs
  have hrc := h.refCount r hd.mem
  have hpos : 0 < s.refs r.shmId := hd.shmId ▸ refs_pos hd.entry hd.active
  have hcleared : ∀ P : ShmemEntry → Bool, P .zeroed = false →
      (s'.procs p).shmemTable.countP P + (if P e then 1 else 0) =
        (s.procs p).shmemTable.countP P := by
    intro P hP
    have hset := countP_set_add (P := P) hd.entry .zeroed
    rw [hP, if_neg Bool.false_ne_true] at hset
    rw [hself]
    exact hset
  have hcap : ∀ q, Capacity (s'.procs q).shmemTable.length := by
    intro q
    by_cases hq : q = p
    · subst hq
      rw [hself, clearSlot, List.length_set]
      exact h.capacity q
    · rw [hother q hq]
      exact h.capacity q
  have hcount : ∀ q, (s'.procs q).shmemCount = activeIn (s'.procs q).shmemTable := by
    intro q
    by_cases hq : q = p
    · subst hq
      have hc := hcleared ShmemEntry.active rfl
      rw [if_pos hd.active] at hc
      have hn := h.shmemCount q
      unfold activeIn at hn ⊢
      have hs : (s'.procs q).shmemCount = (s.procs q).shmemCount - 1 := by rw [hself]; rfl
      omega
    · rw [hother q hq]
      exact h.shmemCount q
  have hsingle : ∀ q shmId, refsIn shmId (s'.procs q).shmemTable ≤ 1 := by
    intro q shmId
    by_cases hq : q = p
    · subst hq
      have hc := hcleared (ShmemEntry.denotes shmId) rfl
      have hs := h.single q shmId
      unfold refsIn at hs ⊢
      omega
    · rw [hother q hq]
      exact h.single q shmId
  -- An active entry that is left is an old one.
  have hold : ∀ q, ∀ e' ∈ (s'.procs q).shmemTable, e'.active = true →
      e' ∈ (s.procs q).shmemTable := by
    intro q e' he' hact'
    by_cases hq : q = p
    · subst hq
      rw [hself] at he'
      rcases List.mem_or_eq_of_mem_set he' with hmem | rfl
      · exact hmem
      · exact absurd hact' Bool.false_ne_true
    · rwa [hother q hq] at he'
  by_cases hlast : r.refCount = 1
  · obtain ⟨hregions, hfreed, -⟩ := hd.last hlast
    -- The count was 1, so no entry for the region is left.
    have hgone : s'.refs r.shmId = 0 := by
      have := hrefs r.shmId
      rw [if_pos rfl] at this
      omega
    have hmem : ∀ r' ∈ s'.regions, r' ∈ s.regions ∧ r'.shmId ≠ r.shmId := by
      intro r' hr'
      rw [hregions] at hr'
      obtain ⟨hm, hne⟩ := List.mem_filter.mp hr'
      exact ⟨hm, bne_iff_ne.mp hne⟩
    refine ⟨hcap, ?_, hd.nextShmId ▸ h.next_pos, hd.nextShmId ▸ h.next_le,
      fun r' hr' => h.whole r' (hmem r' hr').1, ?_, hcount, hsingle, ?_⟩
    · have hids : (r.shmId :: s'.ids).Perm s.ids := by
        have hf : s'.ids = s.ids.erase r.shmId := by
          rw [h.nodup.erase_eq_filter, Ipc.ids, Ipc.ids, hregions, List.filter_map]
          rfl
        rw [hf]
        exact (List.perm_cons_erase (List.mem_map_of_mem hd.mem)).symm
      rw [hd.nextShmId, hfreed]
      exact List.perm_middle.trans ((hids.append_right s.freedIds).trans h.created)
    · intro r' hr'
      obtain ⟨hm, hne⟩ := hmem r' hr'
      have hr := hrefs r'.shmId
      rw [if_neg hne, Nat.add_zero] at hr
      rw [h.refCount r' hm, hr]
    · intro q e' he' hact'
      obtain ⟨r', hr', hre, hrp⟩ := h.listed q e' (hold q e' he' hact') hact'
      refine ⟨r', ?_, hre, hrp⟩
      rw [hregions]
      refine List.mem_filter.mpr ⟨hr', bne_iff_ne.mpr fun heq => ?_⟩
      obtain ⟨j, hj, rfl⟩ := List.getElem_of_mem he'
      have hp := refs_pos (List.getElem?_eq_getElem hj) hact'
      rw [← hre, heq, hgone] at hp
      exact lt_irrefl 0 hp
  · obtain ⟨hregions, hfreed, -⟩ := hd.notLast hlast
    have hids : s'.ids = s.ids := by
      unfold Ipc.ids
      rw [hregions]
      refine map_modifyRegion r.shmId ?_ s.regions
      intro r'
      rfl
    rw [modifyRegion_eq_map h.nodup] at hregions
    refine ⟨hcap, ?_, hd.nextShmId ▸ h.next_pos, hd.nextShmId ▸ h.next_le, ?_, ?_, hcount,
      hsingle, ?_⟩
    · rw [hids, hfreed, hd.nextShmId]
      exact h.created
    · intro r' hr'
      rw [hregions] at hr'
      obtain ⟨r₀, hr₀, rfl⟩ := List.mem_map.mp hr'
      have hw := h.whole r₀ hr₀
      split <;> exact hw
    · intro r' hr'
      rw [hregions] at hr'
      obtain ⟨r₀, hr₀, rfl⟩ := List.mem_map.mp hr'
      have hr := hrefs r₀.shmId
      have hc := h.refCount r₀ hr₀
      split
      next heq =>
        rw [if_pos heq] at hr
        dsimp only
        omega
      next hne =>
        rw [if_neg hne, Nat.add_zero] at hr
        rw [hc, hr]
    · intro q e' he' hact'
      obtain ⟨r', hr', hre, hrp⟩ := h.listed q e' (hold q e' he' hact') hact'
      refine ⟨_, hregions ▸ List.mem_map_of_mem hr', ?_⟩
      split <;> exact ⟨hre, hrp⟩

theorem Ipc.Counted.detach (h : s.Counted) (p : Pid) (handle : ℤ) :
    (s.shmemDetachProc p handle).2.Counted := by
  rcases shmemDetachProc_cases h p handle with ⟨-, he⟩ | ⟨e, r, -, -, hd⟩
  · rw [he]
    exact h
  · exact h.detached hd

theorem Ipc.Counted.detachAll (h : s.Counted) (p : Pid) (handles : List ℕ) :
    (s.detachAll p handles).Counted := by
  induction handles generalizing s with
  | nil => exact h
  | cons i handles ih =>
    unfold Ipc.detachAll
    rw [List.foldl_cons]
    exact ih (h.detach p (i32 i))

/-- What a detachment does to the tables. -/
theorem table_shmemDetachProc (h : s.Counted) (p : Pid) (handle : ℤ) :
    (∀ q, q ≠ p → ((s.shmemDetachProc p handle).2.procs q) = s.procs q) ∧
      ((s.shmemDetachProc p handle).2.procs p).shmemTable.length =
        (s.procs p).shmemTable.length ∧
      ∀ (j : ℕ) (e : ShmemEntry), e.active = true →
        (((s.shmemDetachProc p handle).2.procs p).shmemTable[j]? = some e ↔
          (s.procs p).shmemTable[j]? = some e ∧ (j : ℤ) ≠ handle) := by
  rcases shmemDetachProc_cases h p handle with ⟨hnone, he⟩ | ⟨e₀, r, hsome, -, hd⟩
  · rw [he]
    refine ⟨fun _ _ => rfl, rfl, fun j e hact => ⟨fun hj => ⟨hj, ?_⟩, fun hj => hj.1⟩⟩
    rintro rfl
    have hentry : s.entryAt p (j : ℤ) = some e :=
      entryAt_eq_some.mpr ⟨by omega, hj, hact⟩
    rw [hnone] at hentry
    exact absurd hentry (by simp)
  · obtain ⟨hpos, hget, -⟩ := entryAt_eq_some.mp hsome
    have hself : (s.shmemDetachProc p handle).2.procs p = clearSlot (s.procs p) handle.toNat := by
      rw [hd.procs, Function.update_self]
    refine ⟨fun q hq => by rw [hd.procs, Function.update_of_ne hq], ?_, fun j e hact => ?_⟩
    · rw [hself, clearSlot, List.length_set]
    · rw [hself, clearSlot]
      dsimp only
      by_cases hj : handle.toNat = j
      · have hlt : handle.toNat < (s.procs p).shmemTable.length :=
          (List.getElem?_eq_some_iff.mp hget).1
        subst hj
        rw [List.getElem?_set_self hlt]
        refine ⟨fun hz => ?_, fun hz => absurd (by omega) hz.2⟩
        rw [← Option.some.inj hz] at hact
        exact absurd hact Bool.false_ne_true
      · rw [List.getElem?_set_ne hj]
        exact ⟨fun hg => ⟨hg, by omega⟩, fun hg => hg.1⟩

/-- What the loop of a cleanup does to the tables. -/
theorem table_detachAll (h : s.Counted) (p : Pid) {handles : List ℕ}
    (hlt : ∀ i ∈ handles, i < 2 ^ 31) :
    (∀ q, q ≠ p → (s.detachAll p handles).procs q = s.procs q) ∧
      ∀ (j : ℕ) (e : ShmemEntry), e.active = true →
        (((s.detachAll p handles).procs p).shmemTable[j]? = some e ↔
          (s.procs p).shmemTable[j]? = some e ∧ j ∉ handles) := by
  induction handles generalizing s with
  | nil =>
    exact ⟨fun _ _ => rfl, fun j e _ => ⟨fun hj => ⟨hj, List.not_mem_nil⟩, fun hj => hj.1⟩⟩
  | cons i handles ih =>
    obtain ⟨hother, -, htable⟩ := table_shmemDetachProc h p (i32 i)
    obtain ⟨hother', htable'⟩ := ih (h.detach p (i32 i))
      fun j hj => hlt j (List.mem_cons_of_mem i hj)
    have hi : i32 (i : ℤ) = i := i32_of_lt (hlt i List.mem_cons_self)
    unfold Ipc.detachAll at hother' htable' ⊢
    rw [List.foldl_cons]
    refine ⟨fun q hq => (hother' q hq).trans (hother q hq), fun j e hact => ?_⟩
    rw [htable' j e hact, htable j e hact, hi, List.mem_cons, not_or, and_assoc]
    have hcast : (j : ℤ) ≠ (i : ℤ) ↔ j ≠ i := by omega
    rw [hcast]

/-- The handles of a table fit an `i32`. -/
theorem Ipc.Counted.length_le (h : s.Counted) (p : Pid) :
    (s.procs p).shmemTable.length ≤ 2 ^ 31 := by
  rcases h.capacity p with h0 | ⟨k, hk, hpow⟩
  · omega
  · rw [hpow]
    exact Nat.pow_le_pow_right (by decide) hk

/-- The loop of a cleanup leaves no active entry. -/
theorem refsIn_detachAll (h : s.Counted) (p : Pid) {P : ShmemEntry → Bool}
    (hP : ∀ e : ShmemEntry, P e = true → e.active = true) :
    ((s.detachAll p (List.range (s.procs p).shmemTable.length)).procs p).shmemTable.countP P = 0 := by
  have hle := h.length_le p
  have hlt : ∀ i ∈ List.range (s.procs p).shmemTable.length, i < 2 ^ 31 := fun i hi => by
    have := List.mem_range.mp hi
    omega
  obtain ⟨-, htable⟩ := table_detachAll h p hlt
  refine List.countP_eq_zero.mpr fun e he hp => ?_
  obtain ⟨j, hj, rfl⟩ := List.getElem_of_mem he
  obtain ⟨hold, hnot⟩ := (htable j _ (hP _ hp)).mp (List.getElem?_eq_getElem hj)
  exact hnot (List.mem_range.mpr (List.getElem?_eq_some_iff.mp hold).1)

/-- A process without active entries may lose its table. -/
theorem Ipc.Counted.dropTable (h : s.Counted) {p : Pid}
    (hp : ∀ P : ShmemEntry → Bool, (∀ e : ShmemEntry, P e = true → e.active = true) →
      (s.procs p).shmemTable.countP P = 0) :
    (∀ shmId, (s.setProc p { s.procs p with shmemTable := [], shmemCount := 0 }).refs shmId =
      s.refs shmId) ∧
    (s.setProc p { s.procs p with shmemTable := [], shmemCount := 0 }).Counted := by
  have hrefs : ∀ shmId, (s.setProc p
      { s.procs p with shmemTable := [], shmemCount := 0 }).refs shmId = s.refs shmId := by
    intro shmId
    have hprocs : (s.setProc p { s.procs p with shmemTable := [], shmemCount := 0 }).procs =
        Function.update s.procs p { s.procs p with shmemTable := [], shmemCount := 0 } := rfl
    have hsum := refs_of_procs_eq hprocs shmId
    have hzero : refsIn shmId (s.procs p).shmemTable = 0 :=
      hp _ fun e he => (denotes_iff.mp he).1
    have hnil : refsIn shmId [] = 0 := rfl
    dsimp only at hsum
    rw [hzero, hnil, Nat.add_zero, Nat.add_zero] at hsum
    exact hsum
  have hself : (s.setProc p { s.procs p with shmemTable := [], shmemCount := 0 }).procs p =
      { s.procs p with shmemTable := [], shmemCount := 0 } := Function.update_self _ _ _
  have hother : ∀ q, q ≠ p →
      (s.setProc p { s.procs p with shmemTable := [], shmemCount := 0 }).procs q = s.procs q :=
    fun q hq => Function.update_of_ne hq _ _
  refine ⟨hrefs, ?_, h.created, h.next_pos, h.next_le, h.whole, ?_, ?_, ?_, ?_⟩
  · intro q
    by_cases hq : q = p
    · rw [hq, hself]
      exact .inl rfl
    · rw [hother q hq]
      exact h.capacity q
  · intro r hr
    rw [hrefs]
    exact h.refCount r hr
  · intro q
    by_cases hq : q = p
    · rw [hq, hself]
      rfl
    · rw [hother q hq]
      exact h.shmemCount q
  · intro q shmId
    by_cases hq : q = p
    · rw [hq, hself]
      exact Nat.zero_le 1
    · rw [hother q hq]
      exact h.single q shmId
  · intro q e he
    by_cases hq : q = p
    · rw [hq, hself] at he
      exact absurd he List.not_mem_nil
    · rw [hother q hq] at he
      exact h.listed q e he

theorem Ipc.Counted.cleanup (h : s.Counted) (p : Pid) : (s.ipcProcessCleanup p).Counted := by
  unfold ipcProcessCleanup
  split
  · exact h
  · exact ((h.detachAll p _).dropTable fun P hP => refsIn_detachAll h p hP).2

/-! ## What a step changes -/

/-- The counts of the regions go down, and a region leaves the list exactly if its count goes to
zero. -/
structure Ipc.Fades (s s' : Ipc) : Prop where
  refs : ∀ shmId, s'.refs shmId ≤ s.refs shmId
  ids : s'.ids ⊆ s.ids
  leaves : ∀ shmId ∈ s.ids, shmId ∉ s'.ids ↔ 0 < s.refs shmId ∧ s'.refs shmId = 0

theorem Ipc.Fades.refl (s : Ipc) : s.Fades s :=
  ⟨fun _ => le_rfl, List.Subset.refl _,
    fun _ hid => ⟨fun hn => absurd hid hn, fun ⟨hpos, hz⟩ => absurd hz hpos.ne'⟩⟩

theorem Ipc.Fades.trans {s'' : Ipc} (h : s.Fades s') (h' : s'.Fades s'') : s.Fades s'' := by
  refine ⟨fun shmId => (h'.refs shmId).trans (h.refs shmId),
    fun _ hid => h.ids (h'.ids hid), ?_⟩
  intro shmId hid
  have h₁ := h.refs shmId
  have h₂ := h'.refs shmId
  have hl := h.leaves shmId hid
  by_cases hid' : shmId ∈ s'.ids
  · have hkept : ¬ (0 < s.refs shmId ∧ s'.refs shmId = 0) := fun hz => hl.mpr hz hid'
    rw [h'.leaves shmId hid']
    omega
  · have hgone := hl.mp hid'
    exact ⟨fun _ => ⟨hgone.1, by omega⟩, fun _ hid'' => hid' (h'.ids hid'')⟩

theorem Ipc.Detached.fades (h : s.Counted) {p : Pid} {i : ℕ} {e : ShmemEntry} {r : Region}
    (hd : s.Detached s' p i e r) : s.Fades s' := by
  have hrefs := hd.refs
  have hrc := h.refCount r hd.mem
  have hpos : 0 < s.refs r.shmId := hd.shmId ▸ refs_pos hd.entry hd.active
  have hself := hrefs r.shmId
  rw [if_pos rfl] at hself
  by_cases hlast : r.refCount = 1
  · obtain ⟨hregions, -, -⟩ := hd.last hlast
    have hmem : ∀ shmId, shmId ∈ s'.ids ↔ shmId ∈ s.ids ∧ shmId ≠ r.shmId := by
      intro shmId
      unfold Ipc.ids
      rw [hregions]
      simp only [List.mem_map, List.mem_filter, bne_iff_ne]
      exact ⟨fun ⟨r', ⟨hm, hne⟩, he⟩ => ⟨⟨r', hm, he⟩, he ▸ hne⟩,
        fun ⟨⟨r', hm, he⟩, hne⟩ => ⟨r', ⟨hm, he.symm ▸ hne⟩, he⟩⟩
    refine ⟨fun shmId => by have := hrefs shmId; omega,
      fun shmId hid => ((hmem shmId).mp hid).1, fun shmId hid => ?_⟩
    by_cases heq : shmId = r.shmId
    · subst heq
      exact ⟨fun _ => ⟨hpos, by omega⟩, fun _ hid' => ((hmem _).mp hid').2 rfl⟩
    · have hsame := hrefs shmId
      rw [if_neg heq] at hsame
      exact ⟨fun hn => absurd ((hmem shmId).mpr ⟨hid, heq⟩) hn, fun hz => by omega⟩
  · obtain ⟨hregions, -, -⟩ := hd.notLast hlast
    have hids : s'.ids = s.ids := by
      unfold Ipc.ids
      rw [hregions]
      refine map_modifyRegion r.shmId ?_ s.regions
      intro r'
      rfl
    refine ⟨fun shmId => by have := hrefs shmId; omega, fun shmId hid => hids ▸ hid,
      fun shmId hid => ?_⟩
    rw [hids]
    refine ⟨fun hn => absurd hid hn, fun hz => ?_⟩
    have hs := hrefs shmId
    split at hs
    next heq =>
      subst heq
      omega
    · omega

theorem fades_detach (h : s.Counted) (p : Pid) (handle : ℤ) :
    s.Fades (s.shmemDetachProc p handle).2 := by
  rcases shmemDetachProc_cases h p handle with ⟨-, he⟩ | ⟨e, r, -, -, hd⟩
  · rw [he]
    exact .refl s
  · exact hd.fades h

theorem fades_detachAll (h : s.Counted) (p : Pid) (handles : List ℕ) :
    s.Fades (s.detachAll p handles) := by
  induction handles generalizing s with
  | nil => exact .refl s
  | cons i handles ih =>
    unfold Ipc.detachAll
    rw [List.foldl_cons]
    exact (fades_detach h p (i32 i)).trans (ih (h.detach p (i32 i)))

theorem fades_cleanup (h : s.Counted) (p : Pid) : s.Fades (s.ipcProcessCleanup p) := by
  unfold ipcProcessCleanup
  split
  · exact .refl s
  · have hf := fades_detachAll h p (List.range (s.procs p).shmemTable.length)
    have hr := ((h.detachAll p (List.range (s.procs p).shmemTable.length)).dropTable
      fun P hP => refsIn_detachAll h p hP).1
    refine ⟨fun shmId => (hr shmId).trans_le (hf.refs shmId), hf.ids, fun shmId hid => ?_⟩
    rw [hr]
    exact hf.leaves shmId hid

/-- A step that changes the table of one process only takes at most one attachment from a region. -/
theorem refs_le_succ (h : s.Counted) {p : Pid} (hother : ∀ q, q ≠ p → s'.procs q = s.procs q)
    (shmId : ℕ) : s.refs shmId ≤ s'.refs shmId + 1 := by
  have hprocs : s'.procs = Function.update s.procs p (s'.procs p) := by
    funext q
    by_cases hq : q = p
    · rw [hq, Function.update_self]
    · rw [hother q hq, Function.update_of_ne hq]
  have hsum := refs_of_procs_eq hprocs shmId
  have hsingle := h.single p shmId
  omega

end Kept

/-! ## Runs -/

/-- A step drops a handle of a process. -/
def ShmemOp.Drops (op : ShmemOp) (p : Pid) (handle : ℤ) : Prop :=
  op = .detach p handle ∨ op = .cleanup p

/-- What a step does to the list and to the handles. -/
structure Ipc.StepLaw (s : Ipc) (op : ShmemOp) : Prop where
  /-- A region leaves the list exactly when its count goes from one to zero. -/
  leaves : ∀ r ∈ s.regions, r.shmId ∉ (op.run s).ids ↔
    r.refCount = 1 ∧ (op.run s).refs r.shmId = 0
  /-- A handle that the step does not drop denotes the same entry. -/
  handles : ∀ p handle e, ¬ op.Drops p handle → s.entryAt p handle = some e →
    (op.run s).entryAt p handle = some e

theorem entryAt_of_table_eq {s s' : Ipc} {p : Pid} (h : (s'.procs p) = s.procs p) (handle : ℤ) :
    s'.entryAt p handle = s.entryAt p handle := by
  unfold entryAt
  rw [h]

/-- Steps that take no attachment away keep every region in the list. -/
theorem leaves_of_ids {s s' : Ipc} (h : s.Counted) (hids : s.ids ⊆ s'.ids)
    (hrefs : ∀ shmId, s.refs shmId ≤ s'.refs shmId) :
    ∀ r ∈ s.regions, r.shmId ∉ s'.ids ↔ r.refCount = 1 ∧ s'.refs r.shmId = 0 := by
  intro r hr
  have hmem : r.shmId ∈ s'.ids := hids (List.mem_map_of_mem hr)
  refine ⟨fun hn => absurd hmem hn, fun ⟨h1, h0⟩ => ?_⟩
  have hle := hrefs r.shmId
  rw [← h.refCount r hr, h1, h0] at hle
  omega

/-- Steps that take attachments of one process away. -/
theorem leaves_of_fades {s s' : Ipc} (h : s.Counted) (hf : s.Fades s') {p : Pid}
    (hother : ∀ q, q ≠ p → s'.procs q = s.procs q) :
    ∀ r ∈ s.regions, r.shmId ∉ s'.ids ↔ r.refCount = 1 ∧ s'.refs r.shmId = 0 := by
  intro r hr
  have hle := refs_le_succ h hother r.shmId
  rw [hf.leaves r.shmId (List.mem_map_of_mem hr), h.refCount r hr]
  omega

theorem stepLaw_of_sameTables {s : Ipc} (h : s.Counted) {op : ShmemOp}
    (hs : s.SameTables (op.run s)) : s.StepLaw op where
  leaves := by
    refine leaves_of_ids h ?_ fun shmId => ?_
    · unfold Ipc.ids
      rw [hs.regions]
      exact List.Subset.refl _
    · unfold Ipc.refs
      rw [hs.procs]
  handles p handle e _ he := (entryAt_of_table_eq (congrFun hs.procs p) handle).trans he

/-- A grown table in which a free slot was filled still has the old active entries. -/
theorem getElem?_fill {proc : ShmemProc} {n i : ℕ} {e : ShmemEntry}
    (he : (proc.grow n).shmemTable[i]? = some e) (hact : e.active = false) (e' : ShmemEntry)
    {j : ℕ} {e₀ : ShmemEntry} (h₀ : proc.shmemTable[j]? = some e₀) (hact₀ : e₀.active = true) :
    ((proc.grow n).shmemTable.set i e')[j]? = some e₀ := by
  have hj : j < proc.shmemTable.length := (List.getElem?_eq_some_iff.mp h₀).1
  have hgrow : (proc.grow n).shmemTable[j]? = some e₀ := by
    rw [ShmemProc.grow, List.getElem?_append_left hj, h₀]
  have hij : i ≠ j := by
    rintro rfl
    rw [he] at hgrow
    rw [Option.some.inj hgrow, hact₀] at hact
    exact absurd hact.symm Bool.false_ne_true
  rw [List.getElem?_set_ne hij, hgrow]

theorem stepLaw_create {s : Ipc} (h : s.Counted) (pageCount flags : ℕ) (heap : KmallocOutcome) :
    s.StepLaw (.create pageCount flags heap) := by
  rcases shmemCreateRegion_cases s pageCount flags heap with ⟨-, hs⟩ | ⟨s₁, phys, hs, -, -, he⟩
  · exact stepLaw_of_sameTables h hs
  · have hprocs : (ShmemOp.run s (.create pageCount flags heap)).procs = s.procs := by
      rw [ShmemOp.run, he]
      exact hs.procs
    refine ⟨leaves_of_ids h (fun shmId hid => ?_) fun shmId => ?_, fun p handle e _ hen => ?_⟩
    · rw [ShmemOp.run, he]
      exact List.mem_cons_of_mem _ hid
    · unfold Ipc.refs
      rw [hprocs]
    · exact (entryAt_of_table_eq (congrFun hprocs p) handle).trans hen

theorem stepLaw_attach {s : Ipc} (h : s.Counted) (p : Pid) (shmId : ℕ) (heap : KmallocOutcome)
    (tables : ℕ) : s.StepLaw (.attach p shmId heap tables) := by
  rcases shmemAttachProc_cases h p shmId heap tables with hs | ⟨sh, ha⟩
  · exact stepLaw_of_sameTables h hs
  · refine ⟨leaves_of_ids h (fun shmId hid => ?_) fun shmId => ?_, fun q handle e _ hen => ?_⟩
    · unfold Ipc.ids
      rw [ShmemOp.run, ha.regions, map_modifyRegion sh.shmId fun _ => by rfl]
      exact hid
    · rw [ShmemOp.run, ha.refs]
      exact Nat.le_add_right _ _
    · obtain ⟨n, i, e₁, va, heapVptr, he₁, hact₁, -, hprocs⟩ := ha.procs
      by_cases hq : q = p
      · subst hq
        obtain ⟨hpos, hget, hact⟩ := entryAt_eq_some.mp hen
        refine entryAt_eq_some.mpr ⟨hpos, ?_, hact⟩
        rw [ShmemOp.run, hprocs, Function.update_self]
        exact getElem?_fill he₁ hact₁ _ hget hact
      · refine (entryAt_of_table_eq ?_ handle).trans hen
        rw [ShmemOp.run, hprocs, Function.update_of_ne hq]

theorem stepLaw_detach {s : Ipc} (h : s.Counted) (p : Pid) (handle : ℤ) :
    s.StepLaw (.detach p handle) := by
  obtain ⟨hother, -, htable⟩ := table_shmemDetachProc h p handle
  refine ⟨leaves_of_fades h (fades_detach h p handle) hother, fun q handle' e hdrop hen => ?_⟩
  by_cases hq : q = p
  · subst hq
    obtain ⟨hpos, hget, hact⟩ := entryAt_eq_some.mp hen
    refine entryAt_eq_some.mpr ⟨hpos, (htable _ e hact).mpr ⟨hget, fun heq => hdrop ?_⟩, hact⟩
    rw [Int.toNat_of_nonneg hpos] at heq
    rw [heq]
    exact .inl rfl
  · exact (entryAt_of_table_eq (hother q hq) handle').trans hen

theorem procs_cleanup {s : Ipc} (h : s.Counted) (p : Pid) {q : Pid} (hq : q ≠ p) :
    (s.ipcProcessCleanup p).procs q = s.procs q := by
  have hle := h.length_le p
  unfold ipcProcessCleanup
  split
  · rfl
  · have hlt : ∀ i ∈ List.range (s.procs p).shmemTable.length, i < 2 ^ 31 := fun i hi => by
      have := List.mem_range.mp hi
      omega
    exact (Function.update_of_ne hq _ _).trans ((table_detachAll h p hlt).1 q hq)

theorem stepLaw_cleanup {s : Ipc} (h : s.Counted) (p : Pid) : s.StepLaw (.cleanup p) := by
  refine ⟨leaves_of_fades h (fades_cleanup h p) fun q hq => procs_cleanup h p hq,
    fun q handle e hdrop hen => ?_⟩
  have hq : q ≠ p := by
    rintro rfl
    exact hdrop (.inr rfl)
  exact (entryAt_of_table_eq (procs_cleanup h p hq) handle).trans hen

theorem sameTables_takePage (s : Ipc) : s.SameTables (ShmemOp.run s .takePage) :=
  sameTables_takePages s 1

theorem sameTables_givePage (s : Ipc) (page : ℕ) :
    s.SameTables (ShmemOp.run s (.givePage page)) := by
  rw [ShmemOp.run]
  split
  · exact sameTables_pmmFree s page
  · exact sameTables_refl s

/-- Every step keeps the counts, and does to the regions and handles what it may, as long as an id is
left for it. -/
theorem counted_run {s : Ipc} (h : s.Counted) (op : ShmemOp)
    (hop : op.creates s = true → s.nextShmId < 2 ^ 31) :
    (op.run s).Counted ∧ s.StepLaw op := by
  cases op with
  | create pageCount flags heap =>
    exact ⟨h.create pageCount flags heap fun hne => hop (bne_iff_ne.mpr hne),
      stepLaw_create h pageCount flags heap⟩
  | attach p shmId heap tables =>
    refine ⟨?_, stepLaw_attach h p shmId heap tables⟩
    rcases shmemAttachProc_cases h p shmId heap tables with hs | ⟨sh, ha⟩
    · exact h.of_sameTables hs
    · exact h.attached ha
  | detach p handle => exact ⟨h.detach p handle, stepLaw_detach h p handle⟩
  | cleanup p => exact ⟨h.cleanup p, stepLaw_cleanup h p⟩
  | takePage =>
    have hs := sameTables_takePage s
    exact ⟨h.of_sameTables hs, stepLaw_of_sameTables h hs⟩
  | givePage page =>
    have hs := sameTables_givePage s page
    exact ⟨h.of_sameTables hs, stepLaw_of_sameTables h hs⟩

theorem nextShmId_detachAll (p : Pid) (handles : List ℕ) {s : Ipc} (h : s.Counted) :
    (s.detachAll p handles).nextShmId = s.nextShmId := by
  induction handles generalizing s with
  | nil => rfl
  | cons i handles ih =>
    unfold Ipc.detachAll
    rw [List.foldl_cons]
    refine (ih (h.detach p (i32 i))).trans ?_
    rcases shmemDetachProc_cases h p (i32 i) with ⟨-, he⟩ | ⟨e, r, -, -, hd⟩
    · rw [he]
    · exact hd.nextShmId

/-- A step uses up one id if it creates a region, and none otherwise. -/
theorem nextShmId_run {s : Ipc} (h : s.Counted) (op : ShmemOp)
    (hop : op.creates s = true → s.nextShmId < 2 ^ 31) :
    (op.run s).nextShmId = s.nextShmId + if op.creates s then 1 else 0 := by
  cases op with
  | create pageCount flags heap =>
    rcases shmemCreateRegion_cases s pageCount flags heap with
      ⟨hfail, hs⟩ | ⟨s₁, phys, hs, -, hid, he⟩
    · have hcr : (ShmemOp.create pageCount flags heap).creates s = false := by
        rw [ShmemOp.creates, hfail]
        rfl
      rw [hcr, ShmemOp.run, hs.nextShmId]
      rfl
    · have hcr : (ShmemOp.create pageCount flags heap).creates s = true := by
        rw [ShmemOp.creates, hid]
        exact bne_iff_ne.mpr h.i32_nextShmId
      have hlt := hop hcr
      rw [if_pos hcr, ShmemOp.run, he]
      dsimp only
      rw [u32_of_lt (by omega), if_neg (by omega)]
  | attach p shmId heap tables =>
    rcases shmemAttachProc_cases h p shmId heap tables with hs | ⟨sh, ha⟩
    · exact hs.nextShmId
    · exact ha.nextShmId
  | detach p handle =>
    rcases shmemDetachProc_cases h p handle with ⟨-, he⟩ | ⟨e, r, -, -, hd⟩
    · rw [ShmemOp.run, he]
      rfl
    · exact hd.nextShmId
  | cleanup p =>
    rw [ShmemOp.run]
    unfold ipcProcessCleanup
    split
    · rfl
    · exact nextShmId_detachAll p _ h
  | takePage => exact (sameTables_takePage s).nextShmId
  | givePage page => exact (sameTables_givePage s page).nextShmId

/-- A run that creates `n` regions keeps the counts and uses up at most `n` ids. -/
theorem counted_runAll (ops : List ShmemOp) {s : Ipc} (h : s.Counted)
    (hle : s.nextShmId + s.creations ops ≤ 2 ^ 31) :
    (s.runAll ops).Counted ∧ (s.runAll ops).nextShmId ≤ s.nextShmId + s.creations ops := by
  induction ops generalizing s with
  | nil => exact ⟨h, le_rfl⟩
  | cons op ops ih =>
    rw [creations] at hle ⊢
    have hop : op.creates s = true → s.nextShmId < 2 ^ 31 := by
      intro hc
      rw [if_pos hc] at hle
      omega
    have hn := nextShmId_run h op hop
    obtain ⟨h₁, h₂⟩ := ih (counted_run h op hop).1 (by omega)
    unfold runAll at h₁ h₂ ⊢
    rw [List.foldl_cons]
    exact ⟨h₁, by omega⟩

theorem creations_append (ops ops' : List ShmemOp) (s : Ipc) :
    s.creations (ops ++ ops') = s.creations ops + (s.runAll ops).creations ops' := by
  induction ops generalizing s with
  | nil => exact (Nat.zero_add _).symm
  | cons op ops ih =>
    rw [List.cons_append, creations, creations, ih, Nat.add_assoc]
    rfl

/-- Reference counting of shared memory. In every run with fewer than 2^31 creations the counts agree
in the state reached, and the next step does to the regions and handles only what it may. -/
theorem shmem_counts (cr3 heapVptr : Pid → ℕ) (freeList : List ℕ) (phys : Bytes)
    (ops : List ShmemOp) (op : ShmemOp)
    (hops : (boot cr3 heapVptr freeList phys).creations (ops ++ [op]) < 2 ^ 31) :
    ((boot cr3 heapVptr freeList phys).runAll ops).Counted ∧
      ((boot cr3 heapVptr freeList phys).runAll ops).StepLaw op := by
  rw [creations_append] at hops
  have hone : (boot cr3 heapVptr freeList phys).nextShmId = 1 := rfl
  obtain ⟨hc, hn⟩ := counted_runAll ops (Counted.boot cr3 heapVptr freeList phys)
    (by rw [hone]; omega)
  refine ⟨hc, (counted_run hc op fun hcr => ?_).2⟩
  rw [creations, if_pos hcr] at hops
  omega

/-- Two processes attach to a region, and one of them detaches and ends. -/
def twoProcesses : List ShmemOp :=
  [.create 1 7 ⟨true, 0⟩, .attach 0 1 ⟨true, 0⟩ 3, .attach 1 1 ⟨true, 0⟩ 3, .detach 0 0, .cleanup 0]

/-- The law in the run of `twoProcesses`, for the cleanup that drops the last attachment. -/
theorem shmem_counts_twoProcesses :
    ((boot (fun _ => 4096) (fun _ => 0) [8192, 12288] Bytes.zeros).runAll twoProcesses).Counted ∧
      ((boot (fun _ => 4096) (fun _ => 0) [8192, 12288] Bytes.zeros).runAll twoProcesses).StepLaw
        (.cleanup 1) :=
  shmem_counts (fun _ => 4096) (fun _ => 0) [8192, 12288] Bytes.zeros twoProcesses (.cleanup 1)
    (by decide +kernel)

end Sandflea
