import Sandflea.Ipc.PageOwnership
import Sandflea.Wasm.Memory

/-!
# Access to shared memory

`shmem_read_bytes` and `shmem_write_bytes` of `kern_ipc.c`, and the calls `wasm_ipc_shm_read` and
`wasm_ipc_shm_write` through which a guest program uses them. Offsets and lengths are the guest's; both
bound checks add two of them as `u32`.

`shm_access_iff` says exactly which of the accesses that are made stay inside the region and inside the
linear memory: those whose sums do not wrap, or, for the region, that are inside it all the same. A
machine whose regions own their pages and whose accesses do not wrap is a store: `stored` is what the
writes have put in each region, and a read gives that (`shm_read_stored`).
-/

namespace Sandflea

open Ipc Bytes

/-- The arguments of `wasm_ipc_shm_read` and `wasm_ipc_shm_write`. -/
structure ShmCall where
  handle : ℤ
  shmOffset : UInt32
  wasmBufOff : UInt32
  len : UInt32
deriving DecidableEq

/-! ## The calls -/

/-- The checks of `shmem_read_bytes` and `shmem_write_bytes`: the region that the call goes to. -/
def Ipc.shmemAccess (s : Ipc) (p : Pid) (handle : ℤ) (offset len : UInt32) : Option Region :=
  if len = 0 then none
  else
    match s.entryAt p handle with
    | none => none
    | some entry =>
      if entry.pageCount * pageSize < (offset + len).toNat then none
      else s.shmemFindGlobal entry.shmId

/-- `shmem_read_bytes` into `dst` from `d` on -/
def Ipc.shmemReadBytes (s : Ipc) (p : Pid) (handle : ℤ) (offset : UInt32) (dst : Bytes) (d : ℕ)
    (len : UInt32) : ℤ × Bytes :=
  match s.shmemAccess p handle offset len with
  | none => (-1, dst)
  | some sh => (i32 len.toNat, copyInto dst d s.phys (sh.physBase + offset.toNat) len.toNat)

/-- `shmem_write_bytes` from `src` from `d` on -/
def Ipc.shmemWriteBytes (s : Ipc) (p : Pid) (handle : ℤ) (offset : UInt32) (src : Bytes) (d : ℕ)
    (len : UInt32) : ℤ × Ipc :=
  match s.shmemAccess p handle offset len with
  | none => (-1, s)
  | some sh =>
    (i32 len.toNat,
      { s with phys := copyInto s.phys (sh.physBase + offset.toNat) src d len.toNat })

/-- The state of shared memory and of the guests. `stored` is what the writes have put in the region
with each id; the kernel has no such record. -/
structure ShmMachine where
  ipc : Ipc
  guest : Pid → Option Guest
  stored : ℕ → Bytes

namespace ShmMachine

/-- The checks of a call: the region and the linear memory that it goes to. -/
def access (m : ShmMachine) (p : Pid) (c : ShmCall) : Option (Region × Guest) :=
  match m.guest p with
  | none => none
  | some g =>
    if g.memSize < c.wasmBufOff + c.len then none
    else (m.ipc.shmemAccess p c.handle c.shmOffset c.len).map fun sh => (sh, g)

/-- `wasm_ipc_shm_read` -/
def wasmIpcShmRead (m : ShmMachine) (p : Pid) (c : ShmCall) : ℤ × ShmMachine :=
  match m.guest p with
  | none => (-1, m)
  | some g =>
    if g.memSize < c.wasmBufOff + c.len then (-1, m)
    else
      let (res, bytes) :=
        m.ipc.shmemReadBytes p c.handle c.shmOffset g.bytes c.wasmBufOff.toNat c.len
      (res, { m with guest := Function.update m.guest p (some { g with bytes := bytes }) })

/-- `wasm_ipc_shm_write` -/
def wasmIpcShmWrite (m : ShmMachine) (p : Pid) (c : ShmCall) : ℤ × ShmMachine :=
  match m.guest p with
  | none => (-1, m)
  | some g =>
    if g.memSize < c.wasmBufOff + c.len then (-1, m)
    else
      let (res, ipc) :=
        m.ipc.shmemWriteBytes p c.handle c.shmOffset g.bytes c.wasmBufOff.toNat c.len
      (res, { m with ipc := ipc })

/-- The record of what was stored, after a write. -/
def recordWrite (m : ShmMachine) (p : Pid) (c : ShmCall) : ℕ → Bytes :=
  match m.access p c with
  | none => m.stored
  | some (sh, g) =>
    Function.update m.stored sh.shmId
      (copyInto (m.stored sh.shmId) c.shmOffset.toNat g.bytes c.wasmBufOff.toNat c.len.toNat)

end ShmMachine

/-! ## Runs -/

/-- A step of a machine with shared memory. -/
inductive ShmStep
  /-- A call on regions, or a page of another user. -/
  | op (o : ShmemOp)
  /-- `wasm_ipc_shm_read` -/
  | read (p : Pid) (c : ShmCall)
  /-- `wasm_ipc_shm_write` -/
  | write (p : Pid) (c : ShmCall)
  /-- A guest program starts, runs or ends. -/
  | guest (p : Pid) (g : Option Guest)
  /-- Another user writes to a page that it has. -/
  | scribble (page off : ℕ) (b : UInt8)

open ShmMachine in
/-- The state after a step. -/
def ShmStep.run (m : ShmMachine) : ShmStep → ShmMachine
  | .op o => { m with ipc := o.run m.ipc }
  | .read p c => (m.wasmIpcShmRead p c).2
  | .write p c => { (m.wasmIpcShmWrite p c).2 with stored := m.recordWrite p c }
  | .guest p g => { m with guest := Function.update m.guest p g }
  | .scribble page off b =>
    if m.ipc.owner page = .other ∧ off < pageSize then
      { m with ipc := { m.ipc with phys := Function.update m.ipc.phys (page + off) b } }
    else m

/-- The state after a sequence of steps. -/
def ShmMachine.runAll (m : ShmMachine) (steps : List ShmStep) : ShmMachine :=
  steps.foldl ShmStep.run m

/-- The state before the first region, with nothing stored. -/
def ShmMachine.boot (cr3 heapVptr : Pid → ℕ) (usable : UsablePages) (phys : Bytes)
    (guest : Pid → Option Guest) : ShmMachine :=
  ⟨Ipc.boot cr3 heapVptr usable.pages phys, guest, fun _ => zeros⟩

/-- The step creates a region. -/
def ShmStep.creates (m : ShmMachine) : ShmStep → Bool
  | .op o => o.creates m.ipc
  | _ => false

/-- The number of regions that a sequence of steps creates. -/
def ShmMachine.creations (m : ShmMachine) : List ShmStep → ℕ
  | [] => 0
  | st :: steps => (if st.creates m then 1 else 0) + creations (st.run m) steps

/-! ## Bounds -/

/-- An access touches only the region and the linear memory. -/
def ShmCall.InBounds (c : ShmCall) (sh : Region) (g : Guest) : Prop :=
  c.shmOffset.toNat + c.len.toNat ≤ sh.pageCount * pageSize ∧
    c.wasmBufOff.toNat + c.len.toNat ≤ g.memSize.toNat

/-- The sums of the bound checks do not wrap, or the one for the region does and the region, of 4 GiB
or more, has the bytes all the same. -/
def ShmCall.Fits (c : ShmCall) (sh : Region) : Prop :=
  c.wasmBufOff.toNat + c.len.toNat < 2 ^ 32 ∧
    (c.shmOffset.toNat + c.len.toNat < 2 ^ 32 ∨
      c.shmOffset.toNat + c.len.toNat ≤ sh.pageCount * pageSize)

/-- The accesses of a step fit. -/
def ShmStep.Fits (m : ShmMachine) : ShmStep → Prop
  | .read p c | .write p c => ∀ sh g, m.access p c = some (sh, g) → c.Fits sh
  | _ => True

/-- A step creates no region of more than one page, and its accesses fit. -/
def ShmStep.Careful (m : ShmMachine) (st : ShmStep) : Prop :=
  st.Fits m ∧ match st with
    | .op o => o.SinglePage m.ipc
    | _ => True

/-- Every step of a run is careful. -/
def ShmMachine.CarefulAlong (m : ShmMachine) : List ShmStep → Prop
  | [] => True
  | st :: steps => st.Careful m ∧ CarefulAlong (st.run m) steps

/-- What an access that passed the checks says of its arguments. -/
theorem access_eq_some {m : ShmMachine} {p : Pid} {c : ShmCall} {sh : Region} {g : Guest}
    (h : m.access p c = some (sh, g)) :
    m.guest p = some g ∧ ¬ g.memSize < c.wasmBufOff + c.len ∧
      m.ipc.shmemAccess p c.handle c.shmOffset c.len = some sh := by
  unfold ShmMachine.access at h
  cases hg : m.guest p with
  | none =>
    rw [hg] at h
    exact absurd h (by simp)
  | some g' =>
    rw [hg] at h
    dsimp only at h
    split at h
    · exact absurd h (by simp)
    next hlt =>
      obtain ⟨sh', hsh, he⟩ := Option.map_eq_some_iff.mp h
      obtain ⟨rfl, rfl⟩ := Prod.mk.inj he
      exact ⟨rfl, hlt, hsh⟩

theorem shmemAccess_eq_some {s : Ipc} {p : Pid} {handle : ℤ} {offset len : UInt32} {sh : Region}
    (h : s.shmemAccess p handle offset len = some sh) :
    ∃ e, s.entryAt p handle = some e ∧ (offset + len).toNat ≤ e.pageCount * pageSize ∧
      s.shmemFindGlobal e.shmId = some sh := by
  unfold shmemAccess at h
  split at h
  · exact absurd h (by simp)
  · cases he : s.entryAt p handle with
    | none =>
      rw [he] at h
      exact absurd h (by simp)
    | some e =>
      rw [he] at h
      dsimp only at h
      split at h
      · exact absurd h (by simp)
      next hle => exact ⟨e, rfl, not_lt.mp hle, h⟩

/-- A write that is refused changes nothing. -/
theorem wasmIpcShmWrite_none {m : ShmMachine} {p : Pid} {c : ShmCall} (h : m.access p c = none) :
    (m.wasmIpcShmWrite p c).2 = m := by
  unfold ShmMachine.access at h
  unfold ShmMachine.wasmIpcShmWrite Ipc.shmemWriteBytes
  cases hg : m.guest p with
  | none => rfl
  | some g =>
    rw [hg] at h
    dsimp only at h ⊢
    split at h
    next hlt => rw [if_pos hlt]
    next hlt => rw [if_neg hlt, Option.map_eq_none_iff.mp h]

/-- A write that is made copies the bytes of the guest to the region. -/
theorem wasmIpcShmWrite_some {m : ShmMachine} {p : Pid} {c : ShmCall} {sh : Region} {g : Guest}
    (h : m.access p c = some (sh, g)) :
    (m.wasmIpcShmWrite p c).2 = { m with ipc := { m.ipc with
      phys := copyInto m.ipc.phys (sh.physBase + c.shmOffset.toNat) g.bytes c.wasmBufOff.toNat
        c.len.toNat } } := by
  obtain ⟨hg, hmem, hacc⟩ := access_eq_some h
  unfold ShmMachine.wasmIpcShmWrite Ipc.shmemWriteBytes
  rw [hg]
  dsimp only
  rw [if_neg hmem, hacc]

/-- An access that is made is in bounds if and only if it fits. -/
theorem inBounds_iff {m : ShmMachine} (h : m.ipc.Counted) {p : Pid} {c : ShmCall} {sh : Region}
    {g : Guest} (ha : m.access p c = some (sh, g)) : c.InBounds sh g ↔ c.Fits sh := by
  obtain ⟨-, hmem, hacc⟩ := access_eq_some ha
  obtain ⟨e, he, hle, hfind⟩ := shmemAccess_eq_some hacc
  obtain ⟨-, hget, hact⟩ := entryAt_eq_some.mp he
  obtain ⟨r, hr, hid, hpc⟩ := h.listed p e (List.mem_of_getElem? hget) hact
  have hsh : r = sh := by
    have := h.find hr
    rw [hid, hfind] at this
    exact (Option.some.inj this).symm
  subst hsh
  rw [← hpc, UInt32.toNat_add] at hle
  rw [UInt32.not_lt, UInt32.le_iff_toNat_le, UInt32.toNat_add] at hmem
  have hsize := g.memSize.toNat_lt
  have hoff := c.shmOffset.toNat_lt
  have hbuf := c.wasmBufOff.toNat_lt
  have hlen := c.len.toNat_lt
  unfold ShmCall.InBounds ShmCall.Fits
  generalize r.pageCount * pageSize = size at hle ⊢
  omega

/-! ## The store -/

/-- The regions of a state are regions of an earlier one, in the same pages. -/
def Ipc.Inherits (s s' : Ipc) : Prop :=
  ∀ r' ∈ s'.regions, ∃ r ∈ s.regions, r.shmId = r'.shmId ∧ r.physBase = r'.physBase

theorem inherits_of_regions_eq {s s' : Ipc} (h : s'.regions = s.regions) : s.Inherits s' :=
  fun r' hr' => ⟨r', h ▸ hr', rfl, rfl⟩

theorem Ipc.Inherits.trans {s s' s'' : Ipc} (h : s.Inherits s') (h' : s'.Inherits s'') :
    s.Inherits s'' := by
  intro r'' hr''
  obtain ⟨r', hr', hid', hb'⟩ := h' r'' hr''
  obtain ⟨r, hr, hid, hb⟩ := h r' hr'
  exact ⟨r, hr, hid.trans hid', hb.trans hb'⟩

theorem mem_modifyRegion {shmId : ℕ} {f : Region → Region} {rs : List Region} {r' : Region}
    (h : r' ∈ modifyRegion shmId f rs) : ∃ r ∈ rs, r' = r ∨ r' = f r := by
  induction rs with
  | nil => exact absurd h List.not_mem_nil
  | cons r rs ih =>
    unfold modifyRegion at h
    split at h
    · rcases List.mem_cons.mp h with rfl | h
      · exact ⟨r, List.mem_cons_self, .inr rfl⟩
      · exact ⟨r', List.mem_cons_of_mem _ h, .inl rfl⟩
    · rcases List.mem_cons.mp h with rfl | h
      · exact ⟨r', List.mem_cons_self, .inl rfl⟩
      · obtain ⟨r₀, hr₀, he⟩ := ih h
        exact ⟨r₀, List.mem_cons_of_mem _ hr₀, he⟩

theorem inherits_of_modifyRegion {s s' : Ipc} {shmId : ℕ} {f : Region → Region}
    (hf : ∀ r, (f r).shmId = r.shmId ∧ (f r).physBase = r.physBase)
    (h : s'.regions = modifyRegion shmId f s.regions) : s.Inherits s' := by
  intro r' hr'
  rw [h] at hr'
  obtain ⟨r, hr, rfl | rfl⟩ := mem_modifyRegion hr'
  · exact ⟨r', hr, rfl, rfl⟩
  · exact ⟨r, hr, (hf r).1.symm, (hf r).2.symm⟩

theorem inherits_detach {s : Ipc} (h : s.Counted) (p : Pid) (handle : ℤ) :
    s.Inherits (s.shmemDetachProc p handle).2 := by
  rcases shmemDetachProc_cases h p handle with ⟨-, he⟩ | ⟨e, r, -, -, hd⟩
  · rw [he]
    exact inherits_of_regions_eq rfl
  · by_cases hlast : r.refCount = 1
    · intro r' hr'
      rw [(hd.last hlast).1] at hr'
      exact ⟨r', (List.mem_filter.mp hr').1, rfl, rfl⟩
    · refine inherits_of_modifyRegion ?_ (hd.notLast hlast).1
      exact fun _ => ⟨rfl, rfl⟩

theorem inherits_detachAll (p : Pid) (handles : List ℕ) {s : Ipc} (h : s.Counted) :
    s.Inherits (s.detachAll p handles) := by
  induction handles generalizing s with
  | nil => exact inherits_of_regions_eq rfl
  | cons i handles ih =>
    unfold Ipc.detachAll
    rw [List.foldl_cons]
    exact (inherits_detach h p (i32 i)).trans (ih (h.detach p (i32 i)))

theorem inherits_cleanup {s : Ipc} (h : s.Counted) (p : Pid) :
    s.Inherits (s.ipcProcessCleanup p) := by
  unfold ipcProcessCleanup
  split
  · exact inherits_of_regions_eq rfl
  · exact inherits_detachAll p _ h

/-- Each region has what was stored in it, and an id that was not given has nothing. -/
structure ShmMachine.Stores (m : ShmMachine) : Prop where
  counted : m.ipc.Counted
  sole : m.ipc.Sole
  holds : ∀ r ∈ m.ipc.regions, ∀ off < pageSize,
    m.ipc.phys (r.physBase + off) = m.stored r.shmId off
  fresh : ∀ shmId, m.ipc.nextShmId ≤ shmId → m.stored shmId = zeros

/-- The bytes of memory do not matter to who owns it. -/
theorem Ipc.Sole.withPhys {s : Ipc} (h : s.Sole) (phys : Bytes) :
    Ipc.Sole { s with phys := phys } :=
  ⟨⟨h.allocator.nodup, h.allocator.zero_notMem, h.allocator.free, h.allocator.tags,
    h.allocator.aligned⟩, h.bases, h.owned, h.single⟩

theorem Ipc.Counted.withPhys {s : Ipc} (h : s.Counted) (phys : Bytes) :
    Ipc.Counted { s with phys := phys } :=
  h.of_sameTables ⟨rfl, rfl, rfl, rfl⟩

/-- Two regions with the same page are the same. -/
theorem Ipc.Sole.eq_of_base_eq {s : Ipc} (h : s.Sole) {r r' : Region} (hr : r ∈ s.regions)
    (hr' : r' ∈ s.regions) (he : r.physBase = r'.physBase) : r = r' :=
  List.inj_on_of_nodup_map h.bases hr hr' he

namespace ShmMachine.Stores

variable {m : ShmMachine}

/-- A step on the regions that keeps their bytes and makes no new region. -/
theorem of_inherits (h : m.Stores) {s : Ipc} (hc : s.Counted) (hs : s.Sole)
    (hi : m.ipc.Inherits s)
    (hp : ∀ r ∈ s.regions, ∀ off < pageSize, s.phys (r.physBase + off) = m.ipc.phys (r.physBase + off))
    (hn : m.ipc.nextShmId ≤ s.nextShmId) : Stores { m with ipc := s } where
  counted := hc
  sole := hs
  holds r' hr' off ho := by
    obtain ⟨r, hr, hid, hb⟩ := hi r' hr'
    rw [hp r' hr' off ho, ← hid, ← hb]
    exact h.holds r hr off ho
  fresh shmId hid := h.fresh shmId (hn.trans hid)

theorem of_takes (h : m.Stores) {s : Ipc} (hc : s.Counted) (ht : m.ipc.Takes s)
    (hi : m.ipc.Inherits s) (hn : m.ipc.nextShmId ≤ s.nextShmId) :
    Stores { m with ipc := s } := by
  refine h.of_inherits hc (ht.sole h.sole) hi (fun r' hr' off ho => ?_) hn
  obtain ⟨r, hr, -, hb⟩ := hi r' hr'
  rw [← hb]
  exact ht.phys _ (h.sole.base_notMem hr) (h.sole.aligned hr) off ho

theorem op (h : m.Stores) {o : ShmemOp} (ho : o.SinglePage m.ipc)
    (hlt : o.creates m.ipc = true → m.ipc.nextShmId < 2 ^ 31) :
    Stores { m with ipc := o.run m.ipc } := by
  have hc := (counted_run h.counted o hlt).1
  have hn : m.ipc.nextShmId ≤ (o.run m.ipc).nextShmId := by
    rw [nextShmId_run h.counted o hlt]
    exact Nat.le_add_right _ _
  have hs := sole_run h.sole ho
  cases o with
  | create pageCount flags heap =>
    rcases shmemCreateRegion_pages h.sole.allocator pageCount flags heap with
      ⟨-, he⟩ | ⟨page, s₂, hp, ht, -, -, hsame, hzero, he⟩
    · rw [ShmemOp.run, he]
      exact h
    · have hkept : ∀ r ∈ m.ipc.regions, ∀ off < pageSize,
          s₂.phys (r.physBase + off) = m.ipc.phys (r.physBase + off) := fun r hr off ho =>
        ht.phys _ (h.sole.base_notMem hr) (h.sole.aligned hr) off ho
      by_cases hok : heap.ok = true
      · -- The new region is a zeroed page, and nothing was stored under its id.
        rw [if_pos hok] at he
        refine ⟨hc, hs, fun r hr off ho => ?_, fun shmId hid => h.fresh shmId (hn.trans hid)⟩
        dsimp only at hr ⊢
        rw [ShmemOp.run, he] at hr ⊢
        rcases List.mem_cons.mp hr with rfl | hr
        · rw [h.fresh s₂.nextShmId hsame.nextShmId.ge]
          exact hzero off ho
        · rw [hsame.regions] at hr
          exact (hkept r hr off ho).trans (h.holds r hr off ho)
      · rw [if_neg hok] at he
        have hregions : (ShmemOp.run m.ipc (.create pageCount flags heap)).regions =
            m.ipc.regions := by
          rw [ShmemOp.run, he, (sameTables_pmmFree s₂ page).regions, hsame.regions]
        refine h.of_inherits hc hs (inherits_of_regions_eq hregions) (fun r hr off ho => ?_) hn
        rw [hregions] at hr
        have hne : r.physBase ≠ page := by
          rintro rfl
          exact h.sole.base_notMem hr hp
        rw [ShmemOp.run, he, phys_pmmFree s₂ hne (h.sole.aligned hr)
          (h.sole.allocator.aligned page (.inl hp)) ho]
        exact hkept r hr off ho
  | attach p shmId heap tables =>
    refine h.of_takes hc (takes_shmemAttachProc h.sole.allocator p shmId heap tables) ?_ hn
    rcases shmemAttachProc_cases h.counted p shmId heap tables with hs | ⟨sh, ha⟩
    · exact inherits_of_regions_eq hs.regions
    · refine inherits_of_modifyRegion ?_ ha.regions
      exact fun _ => ⟨rfl, rfl⟩
  | detach p handle =>
    exact h.of_inherits hc hs (inherits_detach h.counted p handle)
      (returns_detach h.sole p handle).phys hn
  | cleanup p =>
    exact h.of_inherits hc hs (inherits_cleanup h.counted p) (returns_cleanup h.sole p).phys hn
  | takePage =>
    exact h.of_takes hc (Takes.takePages h.sole.allocator 1)
      (inherits_of_regions_eq (sameTables_takePage m.ipc).regions) hn
  | givePage page =>
    have hregions := (sameTables_givePage m.ipc page).regions
    refine h.of_inherits hc hs (inherits_of_regions_eq hregions) (fun r hr off ho => ?_) hn
    rw [hregions] at hr
    rw [ShmemOp.run]
    split
    next hother =>
      have hne : r.physBase ≠ page := by
        rintro rfl
        rw [(h.sole.owned r hr).1] at hother
        exact absurd hother (by simp)
      have hd := h.sole.allocator.aligned page (.inr fun hn => by
        rw [hn] at hother
        exact absurd hother (by simp))
      exact phys_pmmFree m.ipc hne (h.sole.aligned hr) hd ho
    · rfl

/-- A write that fits stores its bytes. -/
theorem write (h : m.Stores) {p : Pid} {c : ShmCall}
    (hf : (ShmStep.write p c).Fits m) : (ShmStep.run m (.write p c)).Stores := by
  cases hacc : m.access p c with
  | none =>
    rw [ShmStep.run, wasmIpcShmWrite_none hacc, ShmMachine.recordWrite, hacc]
    exact h
  | some a =>
    obtain ⟨sh, g⟩ := a
    rw [ShmStep.run, wasmIpcShmWrite_some hacc, ShmMachine.recordWrite, hacc]
    dsimp only
    obtain ⟨-, -, ha⟩ := access_eq_some hacc
    obtain ⟨e, -, -, hfind⟩ := shmemAccess_eq_some ha
    obtain ⟨hsh, -⟩ := shmemFindGlobal_eq_some hfind
    obtain ⟨hin, -⟩ := (inBounds_iff h.counted hacc).mpr (hf sh g hacc)
    rw [h.sole.single sh hsh, Nat.one_mul] at hin
    refine ⟨h.counted.withPhys _, h.sole.withPhys _, fun r hr off ho => ?_, fun shmId hid => ?_⟩
    · have hr' : r ∈ m.ipc.regions := hr
      dsimp only
      by_cases he : r = sh
      · subst he
        have hold := h.holds r hr' off ho
        rw [Function.update_self]
        unfold copyInto
        by_cases hoff : c.shmOffset.toNat ≤ off ∧ off < c.shmOffset.toNat + c.len.toNat
        · rw [if_pos (by omega), if_pos hoff]
          congr 1
          omega
        · rw [if_neg (by omega), if_neg hoff]
          exact hold
      · have hbase : r.physBase ≠ sh.physBase := fun hb => he (h.sole.eq_of_base_eq hr' hsh hb)
        have hid : r.shmId ≠ sh.shmId := fun hi => he (h.counted.eq_of_id_eq hr' hsh hi)
        have hnot := not_mem_page hbase (h.sole.aligned hr') (h.sole.aligned hsh) ho le_rfl
        rw [Function.update_of_ne hid, copyInto_of_not_mem (by omega)]
        exact h.holds r hr' off ho
    · have hlt := (h.counted.id_lt hsh).2
      have hne : shmId ≠ sh.shmId := fun he => absurd hid (by rw [he]; exact not_le.mpr hlt)
      dsimp only
      rw [Function.update_of_ne hne]
      exact h.fresh shmId hid

/-- A careful step keeps the store. -/
theorem step (h : m.Stores) {st : ShmStep} (hst : st.Careful m)
    (hlt : st.creates m = true → m.ipc.nextShmId < 2 ^ 31) : (st.run m).Stores := by
  obtain ⟨hf, ho⟩ := hst
  cases st with
  | op o => exact h.op ho hlt
  | read p c =>
    have hrun : (ShmStep.run m (.read p c)).ipc = m.ipc ∧
        (ShmStep.run m (.read p c)).stored = m.stored := by
      unfold ShmStep.run ShmMachine.wasmIpcShmRead
      dsimp only
      cases m.guest p with
      | none => exact ⟨rfl, rfl⟩
      | some g =>
        dsimp only
        split <;> exact ⟨rfl, rfl⟩
    exact ⟨hrun.1 ▸ h.counted, hrun.1 ▸ h.sole, by rw [hrun.1, hrun.2]; exact h.holds,
      by rw [hrun.1, hrun.2]; exact h.fresh⟩
  | write p c => exact h.write hf
  | guest p g => exact ⟨h.counted, h.sole, h.holds, h.fresh⟩
  | scribble page off b =>
    rw [ShmStep.run]
    split
    next hother =>
      obtain ⟨hother, hoff⟩ := hother
      refine ⟨h.counted.withPhys _, h.sole.withPhys _, fun r hr off' ho' => ?_, h.fresh⟩
      have hr' : r ∈ m.ipc.regions := hr
      have hne : r.physBase ≠ page := by
        rintro rfl
        rw [(h.sole.owned r hr').1] at hother
        exact absurd hother (by simp)
      have hd := h.sole.allocator.aligned page (.inr fun hn => by
        rw [hn] at hother
        exact absurd hother (by simp))
      have hnot := not_mem_page hne (h.sole.aligned hr') hd ho' le_rfl
      dsimp only
      rw [Function.update_of_ne (by unfold pageSize at hnot hoff; omega)]
      exact h.holds r hr' off' ho'
    · exact h

end ShmMachine.Stores

/-- Steps keep the counts, as those of `ShmemOp` do, and use up the ids of the regions they create. -/
theorem counted_shmStep {m : ShmMachine} (h : m.ipc.Counted) (st : ShmStep)
    (hlt : st.creates m = true → m.ipc.nextShmId < 2 ^ 31) :
    (st.run m).ipc.Counted ∧
      (st.run m).ipc.nextShmId = m.ipc.nextShmId + if st.creates m then 1 else 0 := by
  have hsame : ∀ s : Ipc, m.ipc.SameTables s →
      s.Counted ∧ s.nextShmId = m.ipc.nextShmId + 0 := fun s hs =>
    ⟨h.of_sameTables hs, hs.nextShmId⟩
  cases st with
  | op o => exact ⟨(counted_run h o hlt).1, nextShmId_run h o hlt⟩
  | read p c =>
    refine hsame _ ?_
    unfold ShmStep.run ShmMachine.wasmIpcShmRead
    dsimp only
    cases m.guest p with
    | none => exact sameTables_refl _
    | some g =>
      dsimp only
      split <;> exact sameTables_refl _
  | write p c =>
    refine hsame _ ?_
    unfold ShmStep.run ShmMachine.wasmIpcShmWrite Ipc.shmemWriteBytes
    dsimp only
    cases m.guest p with
    | none => exact sameTables_refl _
    | some g =>
      dsimp only
      split
      · exact sameTables_refl _
      · dsimp only
        cases m.ipc.shmemAccess p c.handle c.shmOffset c.len <;> exact ⟨rfl, rfl, rfl, rfl⟩
  | guest p g => exact hsame _ (sameTables_refl _)
  | scribble page off b =>
    refine hsame _ ?_
    rw [ShmStep.run]
    split
    · exact ⟨rfl, rfl, rfl, rfl⟩
    · exact sameTables_refl _

theorem counted_shmRun (steps : List ShmStep) {m : ShmMachine} (h : m.ipc.Counted)
    (hle : m.ipc.nextShmId + m.creations steps ≤ 2 ^ 31) : (m.runAll steps).ipc.Counted := by
  induction steps generalizing m with
  | nil => exact h
  | cons st steps ih =>
    rw [ShmMachine.creations] at hle
    have hlt : st.creates m = true → m.ipc.nextShmId < 2 ^ 31 := by
      intro hc
      rw [if_pos hc] at hle
      omega
    obtain ⟨hc, hn⟩ := counted_shmStep h st hlt
    exact ih hc (by rw [hn]; omega)

theorem stores_shmRun (steps : List ShmStep) {m : ShmMachine} (h : m.Stores)
    (hle : m.ipc.nextShmId + m.creations steps ≤ 2 ^ 31) (hca : m.CarefulAlong steps) :
    (m.runAll steps).Stores := by
  induction steps generalizing m with
  | nil => exact h
  | cons st steps ih =>
    rw [ShmMachine.creations] at hle
    obtain ⟨hst, hrest⟩ := hca
    have hlt : st.creates m = true → m.ipc.nextShmId < 2 ^ 31 := by
      intro hc
      rw [if_pos hc] at hle
      omega
    have hn := (counted_shmStep h.counted st hlt).2
    exact ih (h.step hst hlt) (by rw [hn]; omega) hrest

/-- A read of a machine that is a store gives what was stored. -/
theorem shm_read_stored {m : ShmMachine} (h : m.Stores) {p : Pid} {c : ShmCall} {sh : Region}
    {g : Guest} (ha : m.access p c = some (sh, g)) (hf : c.Fits sh) :
    ∃ g', (m.wasmIpcShmRead p c).2.guest p = some g' ∧ ∀ i < c.len.toNat,
      g'.bytes (c.wasmBufOff.toNat + i) = m.stored sh.shmId (c.shmOffset.toNat + i) := by
  obtain ⟨hg, hmem, hacc⟩ := access_eq_some ha
  obtain ⟨e, -, -, hfind⟩ := shmemAccess_eq_some hacc
  obtain ⟨hsh, -⟩ := shmemFindGlobal_eq_some hfind
  obtain ⟨hin, -⟩ := (inBounds_iff h.counted ha).mpr hf
  rw [h.sole.single sh hsh, Nat.one_mul] at hin
  unfold ShmMachine.wasmIpcShmRead Ipc.shmemReadBytes
  rw [hg]
  dsimp only
  rw [if_neg hmem, hacc]
  refine ⟨_, Function.update_self p _ _, fun i hi => ?_⟩
  dsimp only
  rw [copyInto_of_mem (Nat.le_add_right _ _) (Nat.add_lt_add_left hi _), Nat.add_sub_cancel_left,
    Nat.add_assoc]
  exact h.holds sh hsh _ (by omega)

/-- Access to shared memory. In every run with fewer than 2^31 creations, an access that is made stays in
the region and in the linear memory if and only if its sums do not wrap (or the region has the bytes all
the same); and if no region of more than one page was created and all accesses fitted, a read that fits
gives the last bytes written at each offset. -/
theorem shm_access_iff (cr3 heapVptr : Pid → ℕ) (usable : UsablePages) (phys : Bytes)
    (guest : Pid → Option Guest) (steps : List ShmStep)
    (hc : (ShmMachine.boot cr3 heapVptr usable phys guest).creations steps < 2 ^ 31)
    (p : Pid) (c : ShmCall) (sh : Region) (g : Guest)
    (ha : ((ShmMachine.boot cr3 heapVptr usable phys guest).runAll steps).access p c =
      some (sh, g)) :
    (c.InBounds sh g ↔ c.Fits sh) ∧
      ((ShmMachine.boot cr3 heapVptr usable phys guest).CarefulAlong steps → c.Fits sh →
        ∃ g', (((ShmMachine.boot cr3 heapVptr usable phys guest).runAll steps).wasmIpcShmRead
            p c).2.guest p = some g' ∧
          ∀ i < c.len.toNat, g'.bytes (c.wasmBufOff.toNat + i) =
            ((ShmMachine.boot cr3 heapVptr usable phys guest).runAll steps).stored sh.shmId
              (c.shmOffset.toNat + i)) := by
  have hone : (ShmMachine.boot cr3 heapVptr usable phys guest).ipc.nextShmId = 1 := rfl
  have hcount : (ShmMachine.boot cr3 heapVptr usable phys guest).ipc.Counted :=
    Counted.boot cr3 heapVptr usable.pages phys
  have hle : (ShmMachine.boot cr3 heapVptr usable phys guest).ipc.nextShmId +
      (ShmMachine.boot cr3 heapVptr usable phys guest).creations steps ≤ 2 ^ 31 := by
    rw [hone]
    omega
  refine ⟨inBounds_iff (counted_shmRun steps hcount hle) ha, fun hca hf => ?_⟩
  have hstores : (ShmMachine.boot cr3 heapVptr usable phys guest).Stores :=
    ⟨hcount, Sole.boot cr3 heapVptr usable phys, fun r hr => absurd hr List.not_mem_nil,
      fun _ _ => rfl⟩
  exact shm_read_stored (stores_shmRun steps hstores hle hca) ha hf

/-- A machine with three free pages, where every process is a guest with one page of linear memory. -/
def threePageMachine : ShmMachine :=
  ShmMachine.boot (fun _ => 4096) (fun _ => 0) threePages zeros fun _ => some ⟨65536, zeros⟩

/-- Process 0 makes a region of one page and attaches it, and process 1 attaches it and writes to it. -/
def sharedRegion : List ShmStep :=
  [.op (.create 1 6 ⟨true, 0⟩), .op (.attach 0 1 ⟨true, 0⟩ 0), .op (.attach 1 1 ⟨true, 0⟩ 0),
    .write 1 ⟨0, 4, 8, 2⟩]

/-- What process 0 then reads of the region. -/
theorem shm_access_sharedRegion :
    (ShmCall.InBounds ⟨0, 0, 0, 8⟩ ⟨1, 8192, 1, 6, 2⟩ ⟨65536, zeros⟩ ↔
      ShmCall.Fits ⟨0, 0, 0, 8⟩ ⟨1, 8192, 1, 6, 2⟩) ∧
    (threePageMachine.CarefulAlong sharedRegion → ShmCall.Fits ⟨0, 0, 0, 8⟩ ⟨1, 8192, 1, 6, 2⟩ →
      ∃ g', ((threePageMachine.runAll sharedRegion).wasmIpcShmRead 0 ⟨0, 0, 0, 8⟩).2.guest 0 =
          some g' ∧
        ∀ i < (8 : UInt32).toNat, g'.bytes ((0 : UInt32).toNat + i) =
          (threePageMachine.runAll sharedRegion).stored 1 ((0 : UInt32).toNat + i)) :=
  shm_access_iff (fun _ => 4096) (fun _ => 0) threePages zeros (fun _ => some ⟨65536, zeros⟩)
    sharedRegion (by decide +kernel) 0 ⟨0, 0, 0, 8⟩ ⟨1, 8192, 1, 6, 2⟩ ⟨65536, zeros⟩ rfl

/-- The sum of an offset near 2^32 and a length wraps: the read is made outside the region, and reports
success. -/
theorem shm_access_wraps :
    ((threePageMachine.runAll sharedRegion).wasmIpcShmRead 0 ⟨0, 0xFFFFFFFF, 0, 2⟩).1 = 2 ∧
      (threePageMachine.runAll sharedRegion).access 0 ⟨0, 0xFFFFFFFF, 0, 2⟩ =
        some (⟨1, 8192, 1, 6, 2⟩, ⟨65536, zeros⟩) ∧
      ¬ ShmCall.InBounds ⟨0, 0xFFFFFFFF, 0, 2⟩ ⟨1, 8192, 1, 6, 2⟩ ⟨65536, zeros⟩ := by
  refine ⟨by decide +kernel, rfl, fun h => ?_⟩
  exact absurd h.1 (by decide)

end Sandflea
