import Sandflea.Ipc.RefCount
import Sandflea.Lib.Runs

/-!
# Regions that nobody is attached to

The call of a guest that creates a region, `wasm_ipc_shm_create`, first puts the region into the global list and
then attaches the caller. The pages of a region are only returned by a detachment, so a region that was
registered and not attached stays for ever. `no_orphans` says exactly when a run has none, and when each call that
fails leaves the list of regions and the free pages as they were.
-/

namespace Sandflea

open Ipc

/-- `PAGE_RW | PAGE_USER` -/
def guestFlags : ℕ := 2 ||| 4

namespace Ipc

/-- `wasm_ipc_shm_create` for the current process, if there is one; `heap` is the outcome of the `kmalloc` for the
region, `tableHeap` that of the one for the handle table. -/
def wasmIpcShmCreate (proc : Option Pid) (pageCount : ℕ) (heap tableHeap : KmallocOutcome) (tables : ℕ)
    (s : Ipc) : ℤ × Ipc :=
  let pageCount := if pageCount = 0 then 1 else pageCount
  match proc with
  | none => (-1, s)
  | some p =>
    let (shmId, s) := s.shmemCreateRegion pageCount guestFlags heap
    if shmId < 0 then (-1, s)
    else
      -- The handle is made an unsigned id again.
      let (handle, s) := s.shmemAttachProc p shmId.toNat tableHeap tables
      if handle < 0 then (-1, s) else (shmId, s)

end Ipc

/-- A call of a guest that concerns regions, the end of a process, or a page that goes from or to another user -/
inductive GuestCall
  /-- `wasm_ipc_shm_create` -/
  | shmCreate (proc : Option Pid) (pageCount : ℕ) (heap tableHeap : Ipc.KmallocOutcome) (tables : ℕ)
  /-- `wasm_ipc_shm_attach` -/
  | shmAttach (proc : Option Pid) (shmId : ℕ) (heap : Ipc.KmallocOutcome) (tables : ℕ)
  /-- `wasm_ipc_shm_detach` -/
  | shmDetach (proc : Option Pid) (handle : ℤ)
  /-- `ipc_process_cleanup` -/
  | exit (p : Pid)
  | takePage
  | givePage (page : ℕ)
deriving DecidableEq

/-- The state after a call -/
def GuestCall.run (s : Ipc) : GuestCall → Ipc
  | .shmCreate proc pageCount heap tableHeap tables =>
    (s.wasmIpcShmCreate proc pageCount heap tableHeap tables).2
  | .shmAttach none _ _ _ => s
  | .shmAttach (some p) shmId heap tables => (s.shmemAttachProc p shmId heap tables).2
  | .shmDetach none _ => s
  | .shmDetach (some p) handle => (s.shmemDetachProc p handle).2
  | .exit p => s.ipcProcessCleanup p
  | .takePage => ShmemOp.run s .takePage
  | .givePage page => ShmemOp.run s (.givePage page)

namespace Ipc

/-- Every region in the list has a process that is attached to it. -/
def NoOrphans (s : Ipc) : Prop :=
  ∀ r ∈ s.regions, ∃ p, ∃ e ∈ (s.procs p).shmemTable, e.active = true ∧ e.shmId = r.shmId

/-- If a creation fails, the regions and the free pages are as before. -/
def FailsClean (s : Ipc) : GuestCall → Prop
  | .shmCreate proc pageCount heap tableHeap tables =>
    (s.wasmIpcShmCreate proc pageCount heap tableHeap tables).1 = -1 →
      (s.wasmIpcShmCreate proc pageCount heap tableHeap tables).2.regions = s.regions ∧
        (s.wasmIpcShmCreate proc pageCount heap tableHeap tables).2.freeList = s.freeList
  | _ => True

/-- A creation fails before it has changed anything, for want of a process, of a page or of memory for the region
(in an attempt to get it the heap has taken no page), or it has an id that is not negative for the guest, and the
caller can be attached. -/
def CreatesOrChangesNothing (s : Ipc) : GuestCall → Prop
  | .shmCreate none _ _ _ _ => True
  | .shmCreate (some p) _ heap tableHeap _ =>
    s.freeList = [] ∨
    (heap.ok = false ∧ (heap.pages = 0 ∨ s.freeList.length = 1)) ∨
    (heap.ok = true ∧ s.nextShmId < 2 ^ 31 ∧ s.CanAttach p tableHeap)
  | _ => True

end Ipc

/-! ## References -/

theorem refs_pos_iff {s : Ipc} {shmId : ℕ} :
    0 < s.refs shmId ↔ ∃ p, ∃ e ∈ (s.procs p).shmemTable, e.active = true ∧ e.shmId = shmId := by
  unfold Ipc.refs
  rw [Finset.sum_pos_iff]
  constructor
  · rintro ⟨p, -, hp⟩
    obtain ⟨e, he, hden⟩ := List.countP_pos_iff.mp hp
    exact ⟨p, e, he, denotes_iff.mp hden⟩
  · rintro ⟨p, e, he, hden⟩
    exact ⟨p, Finset.mem_univ p, List.countP_pos_iff.mpr ⟨e, he, denotes_iff.mpr hden⟩⟩

theorem noOrphans_iff {s : Ipc} : s.NoOrphans ↔ ∀ shmId ∈ s.ids, 0 < s.refs shmId := by
  constructor
  · intro h shmId hid
    obtain ⟨r, hr, rfl⟩ := List.mem_map.mp hid
    exact refs_pos_iff.mpr (h r hr)
  · intro h r hr
    exact refs_pos_iff.mp (h r.shmId (List.mem_map_of_mem hr))

variable {s s' : Ipc}

theorem Ipc.SameTables.noOrphans (hs : s.SameTables s') (h : s.NoOrphans) : s'.NoOrphans := by
  unfold NoOrphans
  rw [hs.regions, hs.procs]
  exact h

/-- Where attachments only go, a region whose last one is gone is gone too. -/
theorem Ipc.Fades.noOrphans (hf : s.Fades s') (h : s.NoOrphans) : s'.NoOrphans := by
  rw [noOrphans_iff] at h ⊢
  intro shmId hid
  have hid₀ := hf.ids hid
  have hpos := h shmId hid₀
  by_contra hz
  exact (hf.leaves shmId hid₀).mpr ⟨hpos, by omega⟩ hid

theorem Ipc.Attached.ids {p : Pid} {sh : Region} (ha : s.Attached s' p sh) : s'.ids = s.ids := by
  unfold Ipc.ids
  rw [ha.regions]
  refine map_modifyRegion sh.shmId ?_ s.regions
  intro r
  rfl

/-- An attachment makes the region it is for one that has an attachment. -/
theorem Ipc.Attached.noOrphans {p : Pid} {sh : Region} (ha : s.Attached s' p sh)
    (h : ∀ shmId ∈ s.ids, shmId ≠ sh.shmId → 0 < s.refs shmId) : s'.NoOrphans := by
  rw [noOrphans_iff, ha.ids]
  intro shmId hid
  rw [ha.refs]
  by_cases heq : shmId = sh.shmId
  · rw [if_pos heq]
    omega
  · have := h shmId hid heq
    omega

/-! ## A creation -/

/-- A page is taken and returned, and pages that the heap has taken in between are gone. -/
theorem freeList_takePages (n : ℕ) (s : Ipc) : (s.takePages n).freeList = s.freeList.drop n := by
  induction n generalizing s with
  | zero => rfl
  | succ n ih =>
    unfold takePages
    rw [ih]
    unfold Ipc.pmmAllocPage
    cases hf : s.freeList with
    | nil => rw [hf, List.drop_nil, List.drop_nil]
    | cons page rest => rfl

/-- A creation of a region finds no page, or no memory, or adds a region that has the first page. -/
theorem shmemCreateRegion_outcome (hzero : 0 ∉ s.freeList) (pageCount flags : ℕ) (heap : KmallocOutcome) :
    (s.freeList = [] ∧ s.shmemCreateRegion pageCount flags heap = (-1, s)) ∨
      ∃ page rest, s.freeList = page :: rest ∧
        ((heap.ok = false ∧ (s.shmemCreateRegion pageCount flags heap).1 = -1 ∧
            s.SameTables (s.shmemCreateRegion pageCount flags heap).2 ∧
            (s.shmemCreateRegion pageCount flags heap).2.freeList = page :: rest.drop heap.pages) ∨
          (heap.ok = true ∧ (s.shmemCreateRegion pageCount flags heap).1 = i32 s.nextShmId ∧
            (s.shmemCreateRegion pageCount flags heap).2.regions =
              ⟨s.nextShmId, page, if pageCount = 0 then 1 else pageCount, flags, 0⟩ :: s.regions ∧
            (s.shmemCreateRegion pageCount flags heap).2.procs = s.procs)) := by
  unfold shmemCreateRegion
  cases hf : s.freeList with
  | nil =>
    refine .inl ⟨rfl, ?_⟩
    unfold Ipc.pmmAllocPage
    rw [hf]
    rfl
  | cons page rest =>
    have hne : page ≠ 0 := by
      rintro rfl
      exact hzero (hf ▸ List.mem_cons_self)
    have h₁ := sameTables_pmmAllocPage s .region
    have h₂ := h₁.trans (sameTables_takePages (s.pmmAllocPage .region).2 heap.pages)
    have hfree : (s.pmmAllocPage .region).2.freeList = rest := by
      unfold Ipc.pmmAllocPage
      rw [hf]
    have hpage : (s.pmmAllocPage .region).1 = page := by
      unfold Ipc.pmmAllocPage
      rw [hf]
    refine .inr ⟨page, rest, rfl, ?_⟩
    dsimp only
    rw [hpage, if_neg hne]
    cases hok : heap.ok with
    | false =>
      rw [if_neg Bool.false_ne_true]
      refine .inl ⟨rfl, rfl, h₂.trans (sameTables_pmmFree _ page), ?_⟩
      unfold Ipc.pmmFree
      rw [if_neg hne]
      dsimp only
      rw [freeList_takePages, hfree]
    | true =>
      rw [if_pos rfl]
      dsimp only
      refine .inr ⟨rfl, ?_, ?_, h₂.procs⟩
      · rw [h₂.nextShmId]
      · rw [h₂.nextShmId, h₂.regions]

/-- The call of a process, with the number of pages that is asked for: a registration, and then an attachment. -/
theorem wasmIpcShmCreate_eq (s : Ipc) (p : Pid) (pageCount : ℕ) (heap tableHeap : KmallocOutcome)
    (tables : ℕ) : ∃ count, s.wasmIpcShmCreate (some p) pageCount heap tableHeap tables =
      if (s.shmemCreateRegion count guestFlags heap).1 < 0 then
        (-1, (s.shmemCreateRegion count guestFlags heap).2)
      else if ((s.shmemCreateRegion count guestFlags heap).2.shmemAttachProc p
          (s.shmemCreateRegion count guestFlags heap).1.toNat tableHeap tables).1 < 0 then
        (-1, ((s.shmemCreateRegion count guestFlags heap).2.shmemAttachProc p
          (s.shmemCreateRegion count guestFlags heap).1.toNat tableHeap tables).2)
      else ((s.shmemCreateRegion count guestFlags heap).1,
        ((s.shmemCreateRegion count guestFlags heap).2.shmemAttachProc p
          (s.shmemCreateRegion count guestFlags heap).1.toNat tableHeap tables).2) :=
  ⟨if pageCount = 0 then 1 else pageCount, rfl⟩

/-- What a creation does for a process: either it keeps to what it may do, or it fails and leaves something
behind. -/
theorem wasmIpcShmCreate_outcome (h : s.Counted) (hzero : 0 ∉ s.freeList) (p : Pid) (pageCount : ℕ)
    (heap tableHeap : KmallocOutcome) (tables : ℕ) :
    (s.CreatesOrChangesNothing (.shmCreate (some p) pageCount heap tableHeap tables) ∧
        s.FailsClean (.shmCreate (some p) pageCount heap tableHeap tables) ∧
        (GuestCall.run s (.shmCreate (some p) pageCount heap tableHeap tables)).Counted ∧
        (s.NoOrphans →
          (GuestCall.run s (.shmCreate (some p) pageCount heap tableHeap tables)).NoOrphans)) ∨
      (¬s.CreatesOrChangesNothing (.shmCreate (some p) pageCount heap tableHeap tables) ∧
        ¬s.FailsClean (.shmCreate (some p) pageCount heap tableHeap tables)) := by
  obtain ⟨count, hcreate⟩ := wasmIpcShmCreate_eq s p pageCount heap tableHeap tables
  unfold FailsClean GuestCall.run CreatesOrChangesNothing
  dsimp only
  rw [hcreate]
  rcases shmemCreateRegion_outcome hzero count guestFlags heap with
    ⟨hnil, heq⟩ | ⟨page, rest, hfree, ⟨hfail, hres, hsame, hfree'⟩ | ⟨hok, hres, hregions, hprocs⟩⟩
  · -- There is no page.
    rw [heq, if_pos (show (-1 : ℤ) < 0 by decide)]
    exact .inl ⟨.inl hnil, fun _ => ⟨rfl, rfl⟩, h, id⟩
  · -- There is no memory for the region.
    have hneg : (s.shmemCreateRegion count guestFlags heap).1 < 0 := by
      rw [hres]
      decide
    rw [if_pos hneg]
    have hnotOk : ¬(heap.ok = true ∧ s.nextShmId < 2 ^ 31 ∧ s.CanAttach p tableHeap) := by
      rintro ⟨hok, -⟩
      rw [hfail] at hok
      cases hok
    have hlen : s.freeList.length = rest.length + 1 := by rw [hfree, List.length_cons]
    by_cases hclean : heap.pages = 0 ∨ rest = []
    · refine .inl ⟨.inr (.inl ⟨hfail, hclean.imp_right fun hr => ?_⟩), fun _ => ⟨hsame.regions, ?_⟩,
        h.of_sameTables hsame, hsame.noOrphans⟩
      · rw [hlen, hr]
        rfl
      · rw [hfree', hfree]
        rcases hclean with hp | hr
        · rw [hp, List.drop_zero]
        · rw [hr, List.drop_nil]
    · obtain ⟨hp, hr⟩ := not_or.mp hclean
      have hpos := List.length_pos_of_ne_nil hr
      refine .inr ⟨?_, fun hf => ?_⟩
      · rintro (hnil | ⟨-, hp' | hone⟩ | hgood)
        · rw [hnil] at hfree
          cases hfree
        · exact hp hp'
        · omega
        · exact hnotOk hgood
      · have hdrop := congrArg List.length (hf rfl).2
        rw [hfree', hfree, List.length_cons, List.length_cons, List.length_drop] at hdrop
        omega
  · have hnotNil : s.freeList ≠ [] := by
      rw [hfree]
      exact List.cons_ne_nil page rest
    have hgrown : ∀ s'' : Ipc, s''.regions = (s.shmemCreateRegion count guestFlags heap).2.regions →
        s''.regions ≠ s.regions := by
      intro s'' hs'' hreg
      have hlen := congrArg List.length hreg
      rw [hs'', hregions, List.length_cons] at hlen
      omega
    by_cases hid : s.nextShmId < 2 ^ 31
    · -- The region is registered, with an id that is not negative.
      have hnonneg : (s.shmemCreateRegion count guestFlags heap).1 = s.nextShmId := by
        rw [hres, i32_of_lt hid]
      have hc₁ := h.create count guestFlags heap fun _ => hid
      have hids : (s.shmemCreateRegion count guestFlags heap).2.ids = s.nextShmId :: s.ids := by
        unfold Ipc.ids
        rw [hregions, List.map_cons]
      have hout := shmemAttachProc_outcome hc₁ p s.nextShmId tableHeap tables
      have hcan : (s.shmemCreateRegion count guestFlags heap).2.CanAttach p tableHeap ↔
          s.CanAttach p tableHeap := by
        unfold Ipc.CanAttach Ipc.HasSlot
        rw [hprocs]
      rw [hnonneg, if_neg (by omega), Int.toNat_natCast]
      rcases hout with ⟨hneg, hnot, hsame⟩ | ⟨⟨e, he, hden⟩, -⟩ | ⟨sh, hsh, hpos, hyes, hatt⟩
      · -- The caller cannot be attached.
        have hno : ¬s.CanAttach p tableHeap := fun hyes => by
          have := hnot (hcan.mpr hyes)
          rw [hids] at this
          exact this List.mem_cons_self
        rw [hneg, if_pos (by decide)]
        refine .inr ⟨?_, fun hf => hgrown _ hsame.regions (hf rfl).1⟩
        rintro (hnil | ⟨hbad, -⟩ | ⟨-, -, hyes⟩)
        · exact hnotNil hnil
        · rw [hok] at hbad
          cases hbad
        · exact hno hyes
      · -- No entry can be for an id that was not given.
        rw [hprocs] at he
        obtain ⟨hact, heid⟩ := denotes_iff.mp hden
        obtain ⟨r, hr, hre, -⟩ := h.listed p e he hact
        have hlt := h.id_lt hr
        omega
      · rw [if_neg (by omega)]
        refine .inl ⟨.inr (.inr ⟨hok, hid, hcan.mp hyes⟩), fun hf => ?_, hc₁.attached hatt, fun hno => ?_⟩
        · have hf : (s.nextShmId : ℤ) = -1 := hf
          omega
        · refine hatt.noOrphans fun shmId hmem hne => ?_
          have hrefs : (s.shmemCreateRegion count guestFlags heap).2.refs shmId = s.refs shmId := by
            unfold Ipc.refs
            rw [hprocs]
          rw [hids] at hmem
          rw [hrefs]
          refine noOrphans_iff.mp hno shmId ((List.mem_cons.mp hmem).resolve_left ?_)
          rwa [← hsh]
    · -- The id is negative for the guest.
      have hmax : s.nextShmId = 2 ^ 31 := Nat.le_antisymm h.next_le (Nat.le_of_not_lt hid)
      have hneg : (s.shmemCreateRegion count guestFlags heap).1 < 0 := by
        rw [hres, hmax]
        decide
      rw [if_pos hneg]
      refine .inr ⟨?_, fun hf => hgrown _ rfl (hf rfl).1⟩
      rintro (hnil | ⟨hbad, -⟩ | ⟨-, hlt, -⟩)
      · exact hnotNil hnil
      · rw [hok] at hbad
        cases hbad
      · exact hid hlt

/-! ## Runs -/

/-- What the calls of guests keep, as long as creations keep to what they may do -/
structure Ipc.Custody (s : Ipc) : Prop where
  counted : s.Counted
  noOrphans : s.NoOrphans
  zero_notMem : 0 ∉ s.freeList

section ZeroNotMem

theorem zero_notMem_pmmAllocPage (h : 0 ∉ s.freeList) (owner : ℕ → PageOwner) :
    0 ∉ (s.pmmAllocPage owner).2.freeList := by
  unfold Ipc.pmmAllocPage
  split
  · exact h
  next page rest hf => exact fun hm => h (hf ▸ List.mem_cons_of_mem page hm)

theorem zero_notMem_takePages (h : 0 ∉ s.freeList) (n : ℕ) : 0 ∉ (s.takePages n).freeList := by
  rw [freeList_takePages]
  exact fun hm => h (List.mem_of_mem_drop hm)

theorem zero_notMem_pmmFree (h : 0 ∉ s.freeList) (page : ℕ) : 0 ∉ (s.pmmFree page).freeList := by
  unfold Ipc.pmmFree
  split
  · exact h
  next hpage => exact fun hm => (List.mem_cons.mp hm).elim (fun h0 => hpage h0.symm) h

theorem zero_notMem_freePages (h : 0 ∉ s.freeList) (pages : List ℕ) :
    0 ∉ (s.freePages pages).freeList := by
  induction pages generalizing s with
  | nil => exact h
  | cons page pages ih => exact ih (zero_notMem_pmmFree h page)

theorem zero_notMem_create (h : 0 ∉ s.freeList) (pageCount flags : ℕ) (heap : KmallocOutcome) :
    0 ∉ (s.shmemCreateRegion pageCount flags heap).2.freeList := by
  have h₁ := zero_notMem_pmmAllocPage h .region
  have h₂ := zero_notMem_takePages h₁ heap.pages
  unfold shmemCreateRegion
  dsimp only
  split
  · exact h₁
  · split
    · exact h₂
    · exact zero_notMem_pmmFree h₂ _

theorem zero_notMem_attach (h : 0 ∉ s.freeList) (p : Pid) (shmId : ℕ) (heap : KmallocOutcome)
    (tables : ℕ) : 0 ∉ (s.shmemAttachProc p shmId heap tables).2.freeList := by
  have hslot : 0 ∉ (s.procAllocShmemSlot p heap).2.freeList := by
    have h₁ := zero_notMem_takePages h heap.pages
    unfold procAllocShmemSlot
    dsimp only
    split
    · exact h
    · split <;> split <;> exact h₁
  unfold shmemAttachProc
  split
  · exact h
  · split
    · exact h
    · split
      · exact h
      · split
        · exact h
        · dsimp only
          split
          · exact hslot
          · exact zero_notMem_takePages hslot tables

theorem zero_notMem_detach (h : 0 ∉ s.freeList) (p : Pid) (handle : ℤ) :
    0 ∉ (s.shmemDetachProc p handle).2.freeList := by
  unfold shmemDetachProc
  split
  · exact h
  next entry _ =>
    have hset : 0 ∉ (s.setProc p (clearSlot (s.procs p) handle.toNat)).freeList := h
    unfold dropRef
    split
    · exact h
    next r _ =>
      split
      · exact zero_notMem_freePages hset (regionPages r)
      · exact h

theorem zero_notMem_detachAll (h : 0 ∉ s.freeList) (p : Pid) (handles : List ℕ) :
    0 ∉ (s.detachAll p handles).freeList := by
  induction handles generalizing s with
  | nil => exact h
  | cons i handles ih =>
    unfold Ipc.detachAll
    rw [List.foldl_cons]
    exact ih (zero_notMem_detach h p (i32 i))

theorem zero_notMem_cleanup (h : 0 ∉ s.freeList) (p : Pid) : 0 ∉ (s.ipcProcessCleanup p).freeList := by
  unfold ipcProcessCleanup
  split
  · exact h
  · exact zero_notMem_detachAll h p _

end ZeroNotMem

/-- A call that creates or changes nothing, if it is a creation, keeps every region attached. -/
theorem Ipc.Custody.run (h : s.Custody) {call : GuestCall} (hcall : s.CreatesOrChangesNothing call) :
    (call.run s).Custody ∧ s.FailsClean call := by
  obtain ⟨hc, hno, hz⟩ := h
  have hsame : ∀ {s' : Ipc}, s.SameTables s' → 0 ∉ s'.freeList → s'.Custody := fun hs hz' =>
    ⟨hc.of_sameTables hs, hs.noOrphans hno, hz'⟩
  cases call with
  | shmCreate proc pageCount heap tableHeap tables =>
    cases proc with
    | none => exact ⟨⟨hc, hno, hz⟩, fun _ => ⟨rfl, rfl⟩⟩
    | some p =>
      rcases wasmIpcShmCreate_outcome hc hz p pageCount heap tableHeap tables with
        ⟨-, hclean, hc', hno'⟩ | ⟨hnot, -⟩
      · refine ⟨⟨hc', hno' hno, ?_⟩, hclean⟩
        obtain ⟨count, hcreate⟩ := wasmIpcShmCreate_eq s p pageCount heap tableHeap tables
        have h₁ := zero_notMem_create hz count guestFlags heap
        have h₂ := zero_notMem_attach h₁ p (s.shmemCreateRegion count guestFlags heap).1.toNat tableHeap
          tables
        unfold GuestCall.run
        dsimp only
        rw [hcreate]
        split
        · exact h₁
        · split
          · exact h₂
          · exact h₂
      · exact absurd hcall hnot
  | shmAttach proc shmId heap tables =>
    cases proc with
    | none => exact ⟨⟨hc, hno, hz⟩, trivial⟩
    | some p =>
      have hz' := zero_notMem_attach hz p shmId heap tables
      rcases shmemAttachProc_cases hc p shmId heap tables with hs | ⟨sh, ha⟩
      · exact ⟨hsame hs hz', trivial⟩
      · exact ⟨⟨hc.attached ha, ha.noOrphans fun id hid _ => noOrphans_iff.mp hno id hid, hz'⟩, trivial⟩
  | shmDetach proc handle =>
    cases proc with
    | none => exact ⟨⟨hc, hno, hz⟩, trivial⟩
    | some p =>
      exact ⟨⟨hc.detach p handle, (fades_detach hc p handle).noOrphans hno,
        zero_notMem_detach hz p handle⟩, trivial⟩
  | exit p =>
    exact ⟨⟨hc.cleanup p, (fades_cleanup hc p).noOrphans hno, zero_notMem_cleanup hz p⟩, trivial⟩
  | takePage => exact ⟨hsame (sameTables_takePage s) (zero_notMem_takePages hz 1), trivial⟩
  | givePage page =>
    refine ⟨hsame (sameTables_givePage s page) ?_, trivial⟩
    unfold GuestCall.run ShmemOp.run
    dsimp only
    split
    · exact zero_notMem_pmmFree hz page
    · exact hz

theorem Ipc.Custody.failsClean_iff (h : s.Custody) (call : GuestCall) :
    s.FailsClean call ↔ s.CreatesOrChangesNothing call := by
  refine ⟨fun hclean => ?_, fun hcall => (h.run hcall).2⟩
  cases call with
  | shmCreate proc pageCount heap tableHeap tables =>
    cases proc with
    | none => trivial
    | some p =>
      rcases wasmIpcShmCreate_outcome h.counted h.zero_notMem p pageCount heap tableHeap tables with
        ⟨hyes, -⟩ | ⟨-, hnot⟩
      · exact hyes
      · exact absurd hclean hnot
  | shmAttach => trivial
  | shmDetach => trivial
  | exit => trivial
  | takePage => trivial
  | givePage => trivial

theorem custody_boot (cr3 heapVptr : Pid → ℕ) {freeList : List ℕ} (hzero : 0 ∉ freeList) (phys : Bytes) :
    (boot cr3 heapVptr freeList phys).Custody :=
  ⟨Counted.boot cr3 heapVptr freeList phys, fun _ hr => absurd hr List.not_mem_nil, hzero⟩

/-- No orphaned region. In a run of calls from the boot state, each call of `ipc_shm_create` that fails leaves the
regions and the free pages as they were and every region has a process attached to it in every state, if and only
if each call of `ipc_shm_create` either has what it needs or fails before it has changed anything. -/
theorem no_orphans (cr3 heapVptr : Pid → ℕ) {freeList : List ℕ} (hzero : 0 ∉ freeList) (phys : Bytes)
    (calls : List GuestCall) :
    (Runs.Along GuestCall.run FailsClean (boot cr3 heapVptr freeList phys) calls ∧
      Runs.Always GuestCall.run NoOrphans (boot cr3 heapVptr freeList phys) calls) ↔
      Runs.Along GuestCall.run CreatesOrChangesNothing (boot cr3 heapVptr freeList phys) calls := by
  have hboot := custody_boot cr3 heapVptr hzero phys
  generalize boot cr3 heapVptr freeList phys = s at hboot ⊢
  have halways : ∀ {calls}, Runs.Along GuestCall.run CreatesOrChangesNothing s calls →
      Runs.Always GuestCall.run Custody s calls :=
    Runs.always_of_along (fun s call hs hcall => (hs.run hcall).1) hboot
  constructor
  · rintro ⟨hclean, -⟩
    induction calls generalizing s with
    | nil => trivial
    | cons call calls ih =>
      have hcall := (hboot.failsClean_iff call).mp hclean.1
      have hnext := (hboot.run hcall).1
      exact ⟨hcall, ih _ hnext (Runs.always_of_along (fun s call hs hcall => (hs.run hcall).1) hnext)
        hclean.2⟩
  · intro hcalls
    refine ⟨?_, (halways hcalls).mono fun _ hs => hs.noOrphans⟩
    exact hcalls.imp (P := Custody) (fun s call hs hcall => (hs.run hcall).2) (halways hcalls)

/-- A process creates a region, another attaches to it, and the first one ends. -/
theorem no_orphans_shared :
    Runs.Along GuestCall.run FailsClean (boot (fun _ => 4096) (fun _ => 0) [8192, 12288] Bytes.zeros)
        [.shmCreate (some 0) 1 ⟨true, 0⟩ ⟨true, 0⟩ 3, .shmAttach (some 1) 1 ⟨true, 0⟩ 3, .exit 0] ∧
      Runs.Always GuestCall.run NoOrphans (boot (fun _ => 4096) (fun _ => 0) [8192, 12288] Bytes.zeros)
        [.shmCreate (some 0) 1 ⟨true, 0⟩ ⟨true, 0⟩ 3, .shmAttach (some 1) 1 ⟨true, 0⟩ 3, .exit 0] :=
  (no_orphans (fun _ => 4096) (fun _ => 0) (by decide) Bytes.zeros _).mpr
    ⟨.inr (.inr ⟨rfl, by decide, by decide, .inr rfl⟩), trivial, trivial, trivial⟩

/-- There is a page and memory for the region, but none for the handle table of the caller: the call fails, and
the region stays. -/
theorem orphaned_region :
    ¬∀ (cr3 heapVptr : Pid → ℕ) (freeList : List ℕ) (phys : Bytes) (calls : List GuestCall),
      0 ∉ freeList →
      Runs.Along GuestCall.run FailsClean (boot cr3 heapVptr freeList phys) calls ∧
        Runs.Always GuestCall.run NoOrphans (boot cr3 heapVptr freeList phys) calls := by
  intro h
  obtain ⟨⟨hclean, -⟩, -⟩ := h (fun _ => 4096) (fun _ => 0) [8192] Bytes.zeros
    [.shmCreate (some 0) 1 ⟨true, 0⟩ ⟨false, 0⟩ 0] (by decide)
  have hregions := (hclean (by decide +kernel)).1
  exact absurd hregions (by decide +kernel)

end Sandflea
