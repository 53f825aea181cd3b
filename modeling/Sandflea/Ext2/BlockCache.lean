import Sandflea.Lib.Bytes
import Sandflea.Lib.Probing

/-!
# The block cache

`ext2_read_block` and its siblings keep the blocks of the IDE drives in a hash table with linear probing and eviction
of the least recently used entry (`bc_init`, `bc_lookup`, `bc_insert`, `bc_update`). The hash function is a parameter,
as is whether each call of `kmalloc` finds memory: an entry that is evicted and cannot be filled again leaves a gap,
behind which `bc_insert` does not look, so that a block can come to be in the table twice.

`Intact` is what holds in every state, whatever the calls: the capacity, the counters, and the buffers. `Fresh` is what
a lookup relies on, as long as the clock of the cache does not wrap around: a copy that is found is newer than the
others.
-/

namespace Sandflea

open Probing

/-- A buffer of `kmalloc`: its size and its bytes -/
structure Buf where
  size : ℕ
  bytes : Bytes

/-- `bc_entry_t` -/
structure BcEntry where
  /-- `drive_sel` -/
  driveSel : ℕ
  /-- `block_id` -/
  blockId : ℕ
  /-- `data`, or null -/
  data : Option Buf
  /-- `last_access` -/
  lastAccess : ℕ
  /-- `valid` -/
  valid : Bool

namespace BcEntry

/-- An entry of a table that is all zero -/
def zero : BcEntry := ⟨0, 0, none, 0, false⟩

/-- `e->valid && e->drive_sel == ds && e->block_id == bid` -/
def hasKey (e : BcEntry) (ds bid : ℕ) : Bool := e.valid && e.driveSel == ds && e.blockId == bid

/-- The bytes at `e->data` -/
def bytes (e : BcEntry) : Bytes := e.data.elim Bytes.zeros Buf.bytes

/-- Whether `e->data` is a buffer of at least so many bytes -/
def fits (e : BcEntry) (n : ℕ) : Bool := e.data.any fun b => n ≤ b.size

end BcEntry

/-- The globals of the block cache, and of the kernel heap what the cache makes of it -/
structure BlockCache where
  /-- `g_bc`, or null -/
  table : Option (ℕ → BcEntry)
  /-- `g_bc_cap` -/
  cap : ℕ
  /-- `g_bc_used` -/
  used : ℕ
  /-- `g_bc_tick` -/
  tick : ℕ
  /-- `g_bc_hits` -/
  hits : ℕ
  /-- `g_bc_misses` -/
  misses : ℕ
  /-- `g_bc_target` -/
  target : ℕ
  /-- Whether each coming call of `kmalloc` finds memory -/
  heap : ℕ → Bool
  /-- The buffers that `kmalloc` has returned so far -/
  allocs : ℕ
  /-- The buffers that `kfree` has taken so far -/
  frees : ℕ
  /-- Whether there was an access through a null pointer or behind the end of a buffer -/
  fault : Bool

namespace BlockCache

/-- `BLOCK_CACHE_MIN_ENTRIES` -/
def minEntries : ℕ := 16

/-- `BLOCK_CACHE_MAX_ENTRIES` -/
def maxEntries : ℕ := 16384

/-- The cache before the first read. `BLOCK_CACHE_DEFAULT` is 64. -/
def boot (heap : ℕ → Bool) : BlockCache := ⟨none, 0, 0, 0, 0, 0, 64, heap, 0, 0, false⟩

/-! ## The code -/

/-- `kmalloc` -/
def kmalloc (c : BlockCache) : Bool × BlockCache :=
  (c.heap 0, { c with heap := fun i => c.heap (i + 1), allocs := c.allocs + (c.heap 0).toNat })

/-- `while (cap < target) cap <<= 1`, so many times at most -/
def roundUp (target : ℕ) : ℕ → ℕ → ℕ
  | 0, cap => cap
  | n + 1, cap => if cap < target then roundUp target n (cap <<< 1) else cap

/-- The target, between the least and the largest number of entries -/
def clamp (entries : ℕ) : ℕ :=
  if entries < minEntries then minEntries else if maxEntries < entries then maxEntries else entries

/-- The buffers of a table that `bc_init` frees, with the table itself -/
def buffers (t : ℕ → BcEntry) (cap : ℕ) : ℕ :=
  (List.range cap).countP fun i => (t i).valid && (t i).data.isSome

/-- `bc_init` -/
def bcInit (c : BlockCache) : BlockCache :=
  let target := clamp c.target
  let cap := roundUp target 32 1
  if c.table.isSome ∧ c.cap = cap then c
  else
    let c := { c with frees := c.frees + c.table.elim 0 fun t => buffers t c.cap + 1 }
    let (found, c) := c.kmalloc
    if found then { c with table := some fun _ => .zero, cap := cap, used := 0, target := target }
    else { c with table := none, cap := 0, used := 0 }

/-- `if (!g_bc) bc_init()` -/
def start (c : BlockCache) : BlockCache := if c.table.isNone then c.bcInit else c

/-- `block_cache_set_capacity` -/
def setCapacity (entries : ℕ) (c : BlockCache) : BlockCache :=
  let entries := clamp entries
  if entries = c.target ∧ c.table.isSome then c else bcInit { c with target := entries }

section

variable (xxh64 : ℕ → ℕ)

/-- `bc_slot`: the key is one word of 64 bits. -/
def bcSlot (cap ds bid : ℕ) : ℕ := xxh64 (ds <<< 32 ||| bid) &&& (cap - 1)

/-- `(slot + 1) & (g_bc_cap - 1)` -/
def nextSlot (cap slot : ℕ) : ℕ := (slot + 1) &&& (cap - 1)

/-- The loop of `bc_lookup` and `bc_update`: the first slot that holds the key -/
def bcProbe (t : ℕ → BcEntry) (cap ds bid : ℕ) : Option ℕ :=
  let start := bcSlot xxh64 cap ds bid
  let body (slot : ℕ) (u : Unit) : Unit ⊕ ℕ := if (t slot).hasKey ds bid then .inr slot else .inl u
  (walk (nextSlot cap) start body cap start ()).getRight?

/-- `++g_bc_tick` -/
def nextTick (c : BlockCache) : ℕ := (c.tick + 1) % 2 ^ 64

/-- `bc_lookup`, with the offset of `out_buf` in the caller's buffer -/
def bcLookup (c : BlockCache) (ds bid bs : ℕ) (out : Bytes) (off : ℕ) : Bool × Bytes × BlockCache :=
  match c.table with
  | none => (false, out, c)
  | some t =>
    if c.cap = 0 ∨ bs = 0 then (false, out, c)
    else
      match bcProbe xxh64 t c.cap ds bid with
      | some slot =>
        let e := t slot
        let c := { c with
          table := some (Function.update t slot { e with lastAccess := c.nextTick })
          tick := c.nextTick
          hits := (c.hits + 1) % 2 ^ 32
          fault := c.fault || !e.fits bs }
        (true, Bytes.copyInto out off e.bytes 0 bs, c)
      | none => (false, out, { c with misses := (c.misses + 1) % 2 ^ 32 })

/-- Copy a block over that of an entry. -/
def refresh (c : BlockCache) (t : ℕ → BcEntry) (slot bs : ℕ) (src : Bytes) (off : ℕ) : BlockCache :=
  let e := t slot
  let data := e.data.map fun b => { b with bytes := Bytes.copyInto b.bytes 0 src off bs }
  { c with
    table := some (Function.update t slot { e with data := data, lastAccess := c.nextTick })
    tick := c.nextTick
    fault := c.fault || !e.fits bs }

/-- How the loop of `bc_insert` can end early -/
inductive Stop
  /-- At an entry that is not valid -/
  | empty (slot : ℕ)
  /-- At the key -/
  | present (slot : ℕ)

/-- The loop of `bc_insert`. If it does not end early, it leaves `lru_slot` and `lru_tick`. -/
def insertProbe (t : ℕ → BcEntry) (cap ds bid : ℕ) : (ℕ × ℕ) ⊕ Stop :=
  let start := bcSlot xxh64 cap ds bid
  let body (slot : ℕ) (lru : ℕ × ℕ) : (ℕ × ℕ) ⊕ Stop :=
    let e := t slot
    if !e.valid then .inr (.empty slot)
    else if e.driveSel = ds ∧ e.blockId = bid then .inr (.present slot)
    else .inl (if e.lastAccess < lru.2 then (slot, e.lastAccess) else lru)
  walk (nextSlot cap) start body cap start (0, 0xFFFFFFFFFFFFFFFF)

/-- Free the buffer of an entry. -/
def evict (c : BlockCache) (t : ℕ → BcEntry) (slot : ℕ) : BlockCache :=
  let e := t slot
  { c with
    table := some (Function.update t slot { e with data := none, valid := false })
    used := if 0 < c.used then c.used - 1 else c.used
    frees := c.frees + e.data.isSome.toNat }

/-- Put a block into an entry that is not valid. It gets a buffer, if it has none and there is memory. -/
def fill (c : BlockCache) (t : ℕ → BcEntry) (slot ds bid bs : ℕ) (src : Bytes) (off : ℕ) : BlockCache :=
  let (found, c) := if (t slot).data.isSome then (true, c) else c.kmalloc
  if found then
    let buf := (t slot).data.getD ⟨bs, Bytes.zeros⟩
    let e : BcEntry := ⟨ds, bid, some { buf with bytes := Bytes.copyInto buf.bytes 0 src off bs }, c.nextTick, true⟩
    { c with
      table := some (Function.update t slot e)
      tick := c.nextTick
      used := c.used + 1
      fault := c.fault || decide (buf.size < bs) }
  else c

/-- `bc_insert`, with the offset of `data` in the caller's buffer -/
def bcInsert (c : BlockCache) (ds bid bs : ℕ) (src : Bytes) (off : ℕ) : BlockCache :=
  match c.table with
  | none => c
  | some t =>
    if c.cap = 0 ∨ bs = 0 then c
    else
      match insertProbe xxh64 t c.cap ds bid with
      | .inr (.present slot) => c.refresh t slot bs src off
      | .inr (.empty slot) => c.fill t slot ds bid bs src off
      | .inl (slot, _) =>
        let c := c.evict t slot
        c.fill (c.table.getD t) slot ds bid bs src off

/-- `bc_update` -/
def bcUpdate (c : BlockCache) (ds bid bs : ℕ) (src : Bytes) : BlockCache :=
  match c.table with
  | none => c
  | some t =>
    if c.cap = 0 ∨ bs = 0 then c
    else
      match bcProbe xxh64 t c.cap ds bid with
      | some slot => c.refresh t slot bs src 0
      | none => c.bcInsert xxh64 ds bid bs src 0

end

/-! ## Capacities -/

theorem clamp_bounds (n : ℕ) : minEntries ≤ clamp n ∧ clamp n ≤ maxEntries := by
  unfold clamp minEntries maxEntries
  split_ifs <;> omega

theorem roundUp_spec {target m : ℕ} (htarget : target ≤ 2 ^ m) (n k : ℕ) (hk : k ≤ m) (hn : m ≤ k + n) :
    ∃ j ≤ m, roundUp target n (2 ^ k) = 2 ^ j ∧ target ≤ 2 ^ j := by
  induction n generalizing k with
  | zero => exact ⟨k, hk, rfl, htarget.trans (Nat.pow_le_pow_right (by decide) hn)⟩
  | succ n ih =>
    rw [roundUp]
    by_cases h : 2 ^ k < target
    · have hkm : k < m := (Nat.pow_lt_pow_iff_right (by decide)).mp (h.trans_le htarget)
      rw [if_pos h, Nat.shiftLeft_eq, pow_one, ← pow_succ]
      exact ih (k + 1) hkm (by omega)
    · rw [if_neg h]
      exact ⟨k, hk, rfl, not_lt.mp h⟩

/-- The capacity is a power of two within the bounds. -/
theorem roundUp_clamp (n : ℕ) :
    (∃ k, roundUp (clamp n) 32 1 = 2 ^ k) ∧ minEntries ≤ roundUp (clamp n) 32 1 ∧
      roundUp (clamp n) 32 1 ≤ maxEntries := by
  obtain ⟨hmin, hmax⟩ := clamp_bounds n
  obtain ⟨j, hj, heq, hle⟩ := roundUp_spec (m := 14) (show clamp n ≤ 2 ^ 14 from hmax) 32 0 (by decide) (by decide)
  rw [show (2 : ℕ) ^ 0 = 1 from rfl] at heq
  rw [heq]
  exact ⟨⟨j, rfl⟩, hmin.trans hle, Nat.pow_le_pow_right (by decide) hj⟩

/-! ## The table of the library -/

/-- The entries that are valid, as a table of keys, bytes, and times -/
def entries (t : ℕ → BcEntry) : Table (ℕ × ℕ) Bytes := fun slot =>
  if (t slot).valid then some ⟨((t slot).driveSel, (t slot).blockId), (t slot).bytes, (t slot).lastAccess⟩ else none

theorem entries_of_valid {t : ℕ → BcEntry} {slot : ℕ} (h : (t slot).valid = true) :
    entries t slot = some ⟨((t slot).driveSel, (t slot).blockId), (t slot).bytes, (t slot).lastAccess⟩ := by
  rw [entries, if_pos h]

theorem entries_of_not_valid {t : ℕ → BcEntry} {slot : ℕ} (h : (t slot).valid = false) : entries t slot = none := by
  rw [entries, h, if_neg Bool.false_ne_true]

theorem entries_ne_none {t : ℕ → BcEntry} {slot : ℕ} : entries t slot ≠ none ↔ (t slot).valid = true := by
  cases h : (t slot).valid with
  | true => simp [entries_of_valid h]
  | false => simp [entries_of_not_valid h]

theorem hasKey_eq (t : ℕ → BcEntry) (ds bid slot : ℕ) :
    (t slot).hasKey ds bid = (entries t).holds (ds, bid) slot := by
  cases h : (t slot).valid with
  | true => simp [BcEntry.hasKey, Table.holds, entries_of_valid h, h, Prod.mk.injEq, beq_eq_decide]
  | false => simp [BcEntry.hasKey, Table.holds, entries_of_not_valid h, h]

theorem entries_update (t : ℕ → BcEntry) (slot : ℕ) (e : BcEntry) :
    entries (Function.update t slot e) = Function.update (entries t) slot
      (if e.valid then some ⟨(e.driveSel, e.blockId), e.bytes, e.lastAccess⟩ else none) := by
  funext x
  by_cases hx : x = slot
  · subst hx
    simp [entries]
  · simp [entries, hx]

section

variable (xxh64 : ℕ → ℕ)

/-- The slots in which `bc_lookup` looks for a block, in order -/
def route (cap : ℕ) (key : ℕ × ℕ) : List ℕ := order cap (bcSlot xxh64 cap key.1 key.2)

variable {cap : ℕ} (hcap : ∃ k, cap = 2 ^ k)

include hcap

theorem and_cap (n : ℕ) : n &&& (cap - 1) = n % cap := by
  obtain ⟨k, rfl⟩ := hcap
  exact Nat.and_two_pow_sub_one_eq_mod n k

theorem cap_pos : 0 < cap := by
  obtain ⟨k, rfl⟩ := hcap
  exact Nat.two_pow_pos k

theorem bcSlot_lt (ds bid : ℕ) : bcSlot xxh64 cap ds bid < cap := by
  rw [bcSlot, and_cap hcap]
  exact Nat.mod_lt _ (cap_pos hcap)

theorem nextSlot_eq (slot : ℕ) : nextSlot cap slot = (slot + 1) % cap := and_cap hcap _

theorem mem_route {key : ℕ × ℕ} {slot : ℕ} : slot ∈ route xxh64 cap key ↔ slot < cap := mem_order (cap_pos hcap)

theorem bcProbe_eq (t : ℕ → BcEntry) (ds bid : ℕ) :
    bcProbe xxh64 t cap ds bid = (entries t).find (route xxh64 cap) (ds, bid) := by
  have hbody : ∀ slot (u : Unit), (if (t slot).hasKey ds bid then (Sum.inr slot : Unit ⊕ ℕ) else .inl u) =
      if (entries t).holds (ds, bid) slot then .inr slot else .inl u := by
    intro slot u
    rw [hasKey_eq]
  unfold bcProbe
  dsimp only
  rw [walk_eq_scan (fun s _ => nextSlot_eq hcap s) (bcSlot_lt xxh64 hcap ds bid) _ le_rfl,
    scan_ite ((entries t).holds (ds, bid)) id (fun u _ => u) hbody]
  unfold Table.find route
  cases (order cap (bcSlot xxh64 cap ds bid)).find? ((entries t).holds (ds, bid)) with
  | none => rfl
  | some slot => rfl

/-- The loop of `bc_insert` ends at the first slot of the route that is empty or holds the key. If there is none, it
leaves the slot of the oldest entry. -/
theorem insertProbe_eq (t : ℕ → BcEntry) (ds bid : ℕ) :
    insertProbe xxh64 t cap ds bid =
      match (route xxh64 cap (ds, bid)).find? (fun slot => !(t slot).valid || (entries t).holds (ds, bid) slot) with
      | some slot => .inr (if !(t slot).valid then .empty slot else .present slot)
      | none => .inl ((route xxh64 cap (ds, bid)).foldl
          (fun lru slot => if (t slot).lastAccess < lru.2 then (slot, (t slot).lastAccess) else lru)
          (0, 0xFFFFFFFFFFFFFFFF)) := by
  unfold insertProbe
  dsimp only
  rw [walk_eq_scan (fun s _ => nextSlot_eq hcap s) (bcSlot_lt xxh64 hcap ds bid) _ le_rfl]
  refine scan_ite _ _ _ (fun slot lru => ?_) _ _
  rw [← hasKey_eq]
  cases h : (t slot).valid with
  | false => simp
  | true =>
    by_cases hkey : (t slot).driveSel = ds ∧ (t slot).blockId = bid
    · simp [BcEntry.hasKey, h, hkey]
    · have hno : (t slot).hasKey ds bid = false := by
        simpa [BcEntry.hasKey, h] using hkey
      simp [hno, hkey]

end

/-! ## What always holds -/

/-- A table is well formed: an entry has a buffer exactly if it is valid, and the buffer has the size of a block of its
drive. -/
structure TableOk (sizeOf : ℕ → ℕ) (t : ℕ → BcEntry) (cap : ℕ) : Prop where
  pow : ∃ k, cap = 2 ^ k
  bounds : minEntries ≤ cap ∧ cap ≤ maxEntries
  inside : ∀ slot, cap ≤ slot → (t slot).valid = false
  owned : ∀ slot, (t slot).valid = (t slot).data.isSome
  size : ∀ slot, ∀ b ∈ (t slot).data, b.size = sizeOf (t slot).driveSel

/-- What holds of the cache in every state: the counter is the number of entries, each of which has its buffer, there is
no other buffer but the table, and no access went wrong. -/
structure Intact (sizeOf : ℕ → ℕ) (c : BlockCache) : Prop where
  full : ∀ t ∈ c.table, TableOk sizeOf t c.cap ∧ c.used = buffers t c.cap ∧ c.allocs = c.frees + c.used + 1
  empty : c.table = none → c.cap = 0 ∧ c.used = 0 ∧ c.allocs = c.frees
  fault : c.fault = false

section

variable {sizeOf : ℕ → ℕ} {t : ℕ → BcEntry} {cap slot : ℕ} {c : BlockCache}

theorem TableOk.update (ht : TableOk sizeOf t cap) (hslot : slot < cap) {e : BcEntry} (howned : e.valid = e.data.isSome)
    (hsize : ∀ b ∈ e.data, b.size = sizeOf e.driveSel) : TableOk sizeOf (Function.update t slot e) cap := by
  refine ⟨ht.pow, ht.bounds, fun x hx => ?_, fun x => ?_, fun x => ?_⟩
  · rw [Function.update_of_ne (by omega)]
    exact ht.inside x hx
  · by_cases hx : x = slot
    · rw [hx, Function.update_self]
      exact howned
    · rw [Function.update_of_ne hx]
      exact ht.owned x
  · by_cases hx : x = slot
    · rw [hx, Function.update_self]
      exact hsize
    · rw [Function.update_of_ne hx]
      exact ht.size x

theorem TableOk.slot_lt (ht : TableOk sizeOf t cap) (h : (t slot).valid = true) : slot < cap := by
  by_contra hle
  rw [ht.inside slot (not_lt.mp hle)] at h
  exact Bool.false_ne_true h

theorem TableOk.fits (ht : TableOk sizeOf t cap) (h : (t slot).valid = true) :
    (t slot).fits (sizeOf (t slot).driveSel) = true := by
  rw [ht.owned, Option.isSome_iff_exists] at h
  obtain ⟨b, hb⟩ := h
  rw [BcEntry.fits, hb, Option.any_some, ht.size slot b hb]
  exact decide_eq_true le_rfl

theorem TableOk.usable (ht : TableOk sizeOf t cap) {bs : ℕ} (hbs : 0 < bs) : ¬ (cap = 0 ∨ bs = 0) := by
  have hcap := cap_pos ht.pow
  omega

theorem buffers_update (hslot : slot < cap) (t : ℕ → BcEntry) (e : BcEntry) :
    buffers (Function.update t slot e) cap + ((t slot).valid && (t slot).data.isSome).toNat =
      buffers t cap + (e.valid && e.data.isSome).toNat := by
  have h := countP_range_update (p := fun i => (t i).valid && (t i).data.isSome)
    (q := fun i => (Function.update t slot e i).valid && (Function.update t slot e i).data.isSome) hslot
    fun x hx => by rw [Function.update_of_ne hx]
  rwa [Function.update_self] at h

theorem Intact.used_le (h : Intact sizeOf c) : c.used ≤ c.cap := by
  cases ht : c.table with
  | none =>
    rw [(h.empty ht).1, (h.empty ht).2.1]
  | some t =>
    rw [(h.full t ht).2.1]
    exact List.countP_le_length.trans_eq List.length_range

theorem Intact.boot (heap : ℕ → Bool) : Intact sizeOf (boot heap) :=
  ⟨fun t ht => absurd ht (Option.not_mem_none t), fun _ => ⟨rfl, rfl, rfl⟩, rfl⟩

/-- An entry is replaced by one with the same buffer. -/
theorem Intact.replace (h : Intact sizeOf c) (ht : c.table = some t) (hslot : (t slot).valid = true) {e : BcEntry}
    (hvalid : e.valid = true) (hdata : e.data.map Buf.size = (t slot).data.map Buf.size)
    (hdrive : e.driveSel = (t slot).driveSel) {c' : BlockCache}
    (hc' : c' = { c with table := some (Function.update t slot e), tick := c'.tick, hits := c'.hits }) :
    Intact sizeOf c' := by
  obtain ⟨hok, hused, hallocs⟩ := h.full t ht
  have hlt := hok.slot_lt hslot
  have hsome : e.data.isSome = true := by
    have hmap := congrArg Option.isSome hdata
    rw [Option.isSome_map, Option.isSome_map, ← hok.owned, hslot] at hmap
    exact hmap
  have hsize : ∀ b ∈ e.data, b.size = sizeOf e.driveSel := by
    intro b hb
    rw [hb, Option.map_some, eq_comm, Option.map_eq_some_iff] at hdata
    obtain ⟨b', hb', hsize⟩ := hdata
    rw [← hsize, hok.size slot b' hb', hdrive]
  have hcount := buffers_update hlt t e
  rw [← hok.owned, hslot, hvalid, hsome] at hcount
  rw [hc']
  refine ⟨fun t' ht' => ?_, fun hnone => absurd hnone (Option.some_ne_none _), h.fault⟩
  obtain rfl := Option.some.inj ht'
  refine ⟨hok.update hlt (hvalid.trans hsome.symm) hsize, ?_, hallocs⟩
  show c.used = buffers (Function.update t slot e) c.cap
  omega

theorem Intact.kmalloc (h : Intact sizeOf c) (hno : c.heap 0 = false) : Intact sizeOf c.kmalloc.2 :=
  ⟨fun t ht => by simpa [BlockCache.kmalloc, hno] using h.full t ht,
    fun hnone => by simpa [BlockCache.kmalloc, hno] using h.empty hnone, h.fault⟩

theorem Intact.refresh (h : Intact sizeOf c) (ht : c.table = some t) (hslot : (t slot).valid = true) {bs : ℕ}
    (hbs : bs = sizeOf (t slot).driveSel) (src : Bytes) (off : ℕ) : Intact sizeOf (c.refresh t slot bs src off) := by
  have hfits := (h.full t ht).1.fits hslot
  refine h.replace ht hslot (e := { t slot with
    data := (t slot).data.map fun b => { b with bytes := Bytes.copyInto b.bytes 0 src off bs }
    lastAccess := c.nextTick }) hslot ?_ rfl ?_
  · rw [Option.map_map]
    rfl
  · simp [BlockCache.refresh, hbs, hfits]

theorem Intact.evict (h : Intact sizeOf c) (ht : c.table = some t) (hslot : (t slot).valid = true) :
    Intact sizeOf (c.evict t slot) := by
  obtain ⟨hok, hused, hallocs⟩ := h.full t ht
  have hlt := hok.slot_lt hslot
  have hsome : (t slot).data.isSome = true := by rw [← hok.owned, hslot]
  have hcount := buffers_update hlt t { t slot with data := none, valid := false }
  rw [hslot, hsome] at hcount
  simp only [Bool.and_true, Bool.toNat_true, Option.isSome_none, Bool.and_false, Bool.toNat_false] at hcount
  refine ⟨fun t' ht' => ?_, fun hnone => absurd hnone (Option.some_ne_none _), h.fault⟩
  obtain rfl := Option.some.inj ht'
  refine ⟨hok.update hlt rfl fun b hb => absurd hb (Option.not_mem_none b), ?_, ?_⟩
  · simp only [BlockCache.evict]
    rw [if_pos (by omega)]
    omega
  · simp only [BlockCache.evict, hsome, Bool.toNat_true]
    rw [if_pos (by omega)]
    omega

/-- An entry without a buffer is filled if there is memory. -/
theorem fill_of_heap (hnone : (t slot).data = none) (hheap : c.heap 0 = true) (ds bid bs : ℕ) (src : Bytes) (off : ℕ) :
    c.fill t slot ds bid bs src off =
      { c with
        table := some (Function.update t slot
          ⟨ds, bid, some ⟨bs, Bytes.copyInto Bytes.zeros 0 src off bs⟩, c.nextTick, true⟩)
        used := c.used + 1
        tick := c.nextTick
        heap := fun i => c.heap (i + 1)
        allocs := c.allocs + 1 } := by
  simp [BlockCache.fill, hnone, BlockCache.kmalloc, hheap, nextTick]

theorem fill_of_no_heap (hnone : (t slot).data = none) (hheap : c.heap 0 = false) (ds bid bs : ℕ) (src : Bytes)
    (off : ℕ) : c.fill t slot ds bid bs src off = c.kmalloc.2 := by
  simp [BlockCache.fill, hnone, BlockCache.kmalloc, hheap]

theorem TableOk.data_eq_none (ht : TableOk sizeOf t cap) (h : (t slot).valid = false) : (t slot).data = none := by
  have howned := ht.owned slot
  rwa [h, eq_comm, Option.isSome_eq_false_iff, Option.isNone_iff_eq_none] at howned

theorem Intact.fill (h : Intact sizeOf c) (ht : c.table = some t) (hslot : (t slot).valid = false) (hlt : slot < c.cap)
    {ds bs : ℕ} (hbs : bs = sizeOf ds) (bid : ℕ) (src : Bytes) (off : ℕ) :
    Intact sizeOf (c.fill t slot ds bid bs src off) := by
  obtain ⟨hok, hused, hallocs⟩ := h.full t ht
  have hnone := hok.data_eq_none hslot
  cases hheap : c.heap 0 with
  | false =>
    rw [fill_of_no_heap hnone hheap]
    exact h.kmalloc hheap
  | true =>
    rw [fill_of_heap hnone hheap]
    refine ⟨fun t' ht' => ?_, fun hno => absurd hno (Option.some_ne_none _), h.fault⟩
    obtain rfl := Option.some.inj ht'
    have hcount := buffers_update hlt t ⟨ds, bid, some ⟨bs, Bytes.copyInto Bytes.zeros 0 src off bs⟩, c.nextTick, true⟩
    rw [hslot] at hcount
    simp only [Bool.false_and, Bool.toNat_false, Option.isSome_some, Bool.and_true, Bool.toNat_true] at hcount
    refine ⟨hok.update hlt rfl fun b hb => ?_, ?_, ?_⟩
    · obtain rfl := Option.some.inj hb
      exact hbs
    · dsimp only
      omega
    · dsimp only
      omega

end

/-! ## The searches -/

section

variable {xxh64 : ℕ → ℕ} {sizeOf : ℕ → ℕ} {t : ℕ → BcEntry} {cap slot ds bid : ℕ}

theorem holds_entries {ds bid : ℕ} :
    (entries t).holds (ds, bid) slot = true ↔
      (t slot).valid = true ∧ (t slot).driveSel = ds ∧ (t slot).blockId = bid := by
  rw [← hasKey_eq, BcEntry.hasKey, Bool.and_eq_true, Bool.and_eq_true, beq_iff_eq, beq_iff_eq, and_assoc]

/-- What `bc_lookup` finds is an entry of the block. -/
theorem bcProbe_some (hok : TableOk sizeOf t cap) (h : bcProbe xxh64 t cap ds bid = some slot) :
    (t slot).valid = true ∧ (t slot).driveSel = ds ∧ (t slot).blockId = bid := by
  rw [bcProbe_eq xxh64 hok.pow] at h
  exact holds_entries.mp (List.find?_some h)

/-- How the loop of `bc_insert` ends: at the block, at the first gap, or with the oldest entry of a full table. The
times are below the first value of `lru_tick` until the clock wraps around. -/
theorem insertProbe_cases (hok : TableOk sizeOf t cap) (xxh64 : ℕ → ℕ) (ds bid : ℕ) :
    (∃ slot before after, insertProbe xxh64 t cap ds bid = .inr (.present slot) ∧
      Table.Place (route xxh64 cap) (entries t) (ds, bid) slot before after ∧
      (∀ x ∈ before, (t x).valid = true) ∧ (entries t).holds (ds, bid) slot = true) ∨
    (∃ slot before after, insertProbe xxh64 t cap ds bid = .inr (.empty slot) ∧
      Table.Place (route xxh64 cap) (entries t) (ds, bid) slot before after ∧
      (∀ x ∈ before, (t x).valid = true) ∧ slot < cap ∧ (t slot).valid = false) ∨
    (∃ slot tick, insertProbe xxh64 t cap ds bid = .inl (slot, tick) ∧ slot < cap ∧
      (∀ x < cap, (t x).valid = true ∧ (entries t).holds (ds, bid) x = false) ∧
      ((∀ x < cap, (t x).lastAccess < 2 ^ 64 - 1) → ∀ x < cap, (t slot).lastAccess ≤ (t x).lastAccess)) := by
  rw [insertProbe_eq xxh64 hok.pow]
  cases hfind : (route xxh64 cap (ds, bid)).find?
      (fun slot => !(t slot).valid || (entries t).holds (ds, bid) slot) with
  | some slot =>
    obtain ⟨hstop, before, after, hsplit, hfirst⟩ := List.find?_eq_some_iff_append.mp hfind
    have hbefore : ∀ x ∈ before, (t x).valid = true ∧ (entries t).holds (ds, bid) x = false := by
      intro x hx
      have hno := hfirst x hx
      rw [Bool.not_eq_true', Bool.or_eq_false_iff, Bool.not_eq_false'] at hno
      exact hno
    have hplace (hfree : entries t slot = none ∨ (entries t).holds (ds, bid) slot) :
        Table.Place (route xxh64 cap) (entries t) (ds, bid) slot before after :=
      ⟨hsplit, fun x hx => (hbefore x hx).2, hfree⟩
    cases hvalid : (t slot).valid with
    | false =>
      right; left
      exact ⟨slot, before, after, by simp [hvalid], hplace (.inl (entries_of_not_valid hvalid)),
        fun x hx => (hbefore x hx).1, (mem_route xxh64 hok.pow).mp (List.mem_of_find?_eq_some hfind), hvalid⟩
    | true =>
      left
      rw [hvalid, Bool.not_true, Bool.false_or] at hstop
      exact ⟨slot, before, after, by simp [hvalid], hplace (.inr hstop), fun x hx => (hbefore x hx).1, hstop⟩
  | none =>
    right; right
    have hall : ∀ x < cap, (t x).valid = true ∧ (entries t).holds (ds, bid) x = false := by
      intro x hx
      have hno := List.find?_eq_none.mp hfind x ((mem_route xxh64 hok.pow).mpr hx)
      rw [Bool.or_eq_true, not_or, Bool.not_eq_true', Bool.not_eq_false, Bool.not_eq_true] at hno
      exact hno
    refine ⟨_, _, rfl, ?_, hall, ?_⟩
    · obtain ⟨hres, -⟩ | ⟨hmem, -⟩ := foldl_least (fun slot => (t slot).lastAccess) (route xxh64 cap (ds, bid)) 0
        0xFFFFFFFFFFFFFFFF
      · rw [hres]
        exact cap_pos hok.pow
      · exact (mem_route xxh64 hok.pow).mp hmem
    · -- As long as no time is as large as the first `lru_tick`, the search has found a slot.
      intro hold x hx
      obtain ⟨-, hge⟩ | ⟨-, -, -, hle⟩ := foldl_least (fun slot => (t slot).lastAccess) (route xxh64 cap (ds, bid)) 0
        0xFFFFFFFFFFFFFFFF
      · have hbig := hge x ((mem_route xxh64 hok.pow).mpr hx)
        have hsmall := hold x hx
        omega
      · exact hle x ((mem_route xxh64 hok.pow).mpr hx)

end

/-! ## The operations keep it -/

section

variable (xxh64 : ℕ → ℕ) {sizeOf : ℕ → ℕ} {c : BlockCache} {ds bs : ℕ}

theorem Intact.bcLookup (h : Intact sizeOf c) (hbs : bs = sizeOf ds) (bid : ℕ) (out : Bytes) (off : ℕ) :
    Intact sizeOf (c.bcLookup xxh64 ds bid bs out off).2.2 := by
  unfold BlockCache.bcLookup
  cases ht : c.table with
  | none => exact h
  | some t =>
    have hok := (h.full t ht).1
    by_cases hzero : c.cap = 0 ∨ bs = 0
    · simpa only [if_pos hzero] using h
    · simp only [if_neg hzero]
      cases hprobe : bcProbe xxh64 t c.cap ds bid with
      | none => exact ⟨fun t' ht' => h.full t' (ht.trans ht'), fun hno => h.empty (ht.trans hno), h.fault⟩
      | some slot =>
        obtain ⟨hvalid, hdrive, -⟩ := bcProbe_some hok hprobe
        have hfits := hok.fits hvalid
        rw [hdrive, ← hbs] at hfits
        exact h.replace ht hvalid (e := { t slot with lastAccess := c.nextTick }) hvalid rfl rfl
          (by simp [hfits])

theorem Intact.bcInsert (h : Intact sizeOf c) (hbs : bs = sizeOf ds) (bid : ℕ) (src : Bytes) (off : ℕ) :
    Intact sizeOf (c.bcInsert xxh64 ds bid bs src off) := by
  unfold BlockCache.bcInsert
  cases ht : c.table with
  | none => exact h
  | some t =>
    have hok := (h.full t ht).1
    by_cases hzero : c.cap = 0 ∨ bs = 0
    · simpa only [if_pos hzero] using h
    · simp only [if_neg hzero]
      obtain ⟨slot, before, after, heq, -, -, hholds⟩ | ⟨slot, before, after, heq, -, -, hlt, hvalid⟩ |
        ⟨slot, tick, heq, hlt, hall, -⟩ := insertProbe_cases hok xxh64 ds bid
      · rw [heq]
        obtain ⟨hvalid, hdrive, -⟩ := holds_entries.mp hholds
        exact h.refresh ht hvalid (by rw [hdrive, hbs]) src off
      · rw [heq]
        exact h.fill ht hvalid hlt hbs bid src off
      · rw [heq]
        have hevict := h.evict ht (hall slot hlt).1
        refine hevict.fill rfl ?_ hlt hbs bid src off
        simp

theorem Intact.bcUpdate (h : Intact sizeOf c) (hbs : bs = sizeOf ds) (bid : ℕ) (src : Bytes) :
    Intact sizeOf (c.bcUpdate xxh64 ds bid bs src) := by
  unfold BlockCache.bcUpdate
  cases ht : c.table with
  | none => exact h
  | some t =>
    by_cases hzero : c.cap = 0 ∨ bs = 0
    · simpa only [if_pos hzero] using h
    · simp only [if_neg hzero]
      cases hprobe : bcProbe xxh64 t c.cap ds bid with
      | none => exact h.bcInsert xxh64 hbs bid src 0
      | some slot =>
        obtain ⟨hvalid, hdrive, -⟩ := bcProbe_some (h.full t ht).1 hprobe
        exact h.refresh ht hvalid (by rw [hdrive, hbs]) src 0

theorem buffers_zero (cap : ℕ) : buffers (fun _ => BcEntry.zero) cap = 0 :=
  List.countP_eq_zero.mpr fun _ _ => by simp [BcEntry.zero]

theorem Intact.bcInit (h : Intact sizeOf c) : Intact sizeOf c.bcInit := by
  unfold BlockCache.bcInit
  dsimp only
  split_ifs with hsame hfound
  · exact h
  · refine ⟨fun t ht => ?_, fun hno => absurd hno (Option.some_ne_none _), h.fault⟩
    obtain rfl := Option.some.inj ht
    obtain ⟨hpow, hmin, hmax⟩ := roundUp_clamp c.target
    refine ⟨⟨hpow, ⟨hmin, hmax⟩, fun _ _ => rfl, fun _ => rfl, fun _ b hb => absurd hb (Option.not_mem_none b)⟩,
      (buffers_zero _).symm, ?_⟩
    have hheap : c.heap 0 = true := hfound
    simp only [BlockCache.kmalloc, hheap, Bool.toNat_true]
    cases ht : c.table with
    | none =>
      rw [(h.empty ht).2.2]
      rfl
    | some t =>
      obtain ⟨-, hused, hallocs⟩ := h.full t ht
      rw [hallocs, hused]
      rfl
  · refine ⟨fun t ht => absurd ht (Option.not_mem_none t), fun _ => ⟨rfl, rfl, ?_⟩, h.fault⟩
    have hheap : c.heap 0 = false := Bool.eq_false_iff.mpr hfound
    simp only [BlockCache.kmalloc, hheap, Bool.toNat_false]
    cases ht : c.table with
    | none =>
      rw [(h.empty ht).2.2]
      rfl
    | some t =>
      obtain ⟨-, hused, hallocs⟩ := h.full t ht
      rw [hallocs, hused]
      rfl

theorem Intact.start (h : Intact sizeOf c) : Intact sizeOf c.start := by
  unfold BlockCache.start
  split
  · exact h.bcInit
  · exact h

theorem Intact.setCapacity (h : Intact sizeOf c) (entries : ℕ) : Intact sizeOf (c.setCapacity entries) := by
  unfold BlockCache.setCapacity
  dsimp only
  split_ifs
  · exact h
  · exact Intact.bcInit ⟨h.full, h.empty, h.fault⟩

end

/-! ## What a lookup finds -/

section

variable (xxh64 : ℕ → ℕ)

/-- What a lookup of a block finds -/
def content (c : BlockCache) (key : ℕ × ℕ) : Option Bytes :=
  c.table.bind fun t => (entries t).view (route xxh64 c.cap) key

/-- What a lookup finds is newer than the other entries of the block, and the clock has not been set back. -/
def Fresh (c : BlockCache) : Prop :=
  ∀ t ∈ c.table, (entries t).Aligned (route xxh64 c.cap) ∧ ∀ slot, ∀ e ∈ entries t slot, e.stamp ≤ c.tick

/-- What a step of the cache may do to what lookups find: it may lose blocks. -/
def MayLose (c c' : BlockCache) (key : ℕ × ℕ) : Prop :=
  content xxh64 c' key = content xxh64 c key ∨ content xxh64 c' key = none

/-- A block is found with the bytes of a buffer. -/
def Shows (c : BlockCache) (key : ℕ × ℕ) (n : ℕ) (src : Bytes) (off : ℕ) : Prop :=
  ∃ v, content xxh64 c key = some v ∧ ∀ j < n, v j = src (off + j)

end

section

variable {xxh64 : ℕ → ℕ} {sizeOf : ℕ → ℕ} {c : BlockCache} {t : ℕ → BcEntry} {slot ds bid bs : ℕ}

theorem nextTick_eq (htick : c.tick + 1 < 2 ^ 64) : c.nextTick = c.tick + 1 := Nat.mod_eq_of_lt htick

theorem content_of_table (ht : c.table = some t) (key : ℕ × ℕ) :
    content xxh64 c key = (entries t).view (route xxh64 c.cap) key := by
  rw [content, ht, Option.bind_some]

/-- A slot gets an entry with the time of now. -/
theorem entries_put (htick : c.tick + 1 < 2 ^ 64) (t : ℕ → BcEntry) (slot : ℕ) {e : BcEntry} (hvalid : e.valid = true)
    (hkey : (e.driveSel, e.blockId) = (ds, bid)) (hlast : e.lastAccess = c.nextTick) :
    entries (Function.update t slot e) =
      Function.update (entries t) slot (some ⟨(ds, bid), e.bytes, c.tick + 1⟩) := by
  rw [entries_update, if_pos hvalid, hkey, hlast, nextTick_eq htick]

theorem Fresh.stamp_lt (hf : Fresh xxh64 c) (ht : c.table = some t) (x : ℕ) :
    ∀ e ∈ entries t x, e.stamp < c.tick + 1 :=
  fun e he => Nat.lt_succ_of_le ((hf t ht).2 x e he)

/-- Until the clock wraps around, the times are below the first value of `lru_tick`. -/
theorem Fresh.lastAccess_lt (hf : Fresh xxh64 c) (ht : c.table = some t) (htick : c.tick + 1 < 2 ^ 64)
    (hvalid : (t slot).valid = true) : (t slot).lastAccess < 2 ^ 64 - 1 := by
  have hle := (hf t ht).2 slot _ (entries_of_valid hvalid)
  dsimp only at hle
  omega

/-- The oldest slot is older than every entry. -/
theorem TableOk.oldest (hok : TableOk sizeOf t c.cap) (hleast : ∀ x < c.cap, (t slot).lastAccess ≤ (t x).lastAccess)
    (x : ℕ) : ∀ e ∈ entries t x, (t slot).lastAccess ≤ e.stamp := by
  intro e he
  have hx : (t x).valid = true := entries_ne_none.mp (by simp [Option.mem_def.mp he])
  rw [Option.mem_def, entries_of_valid hx, Option.some.injEq] at he
  rw [← he]
  exact hleast x (hok.slot_lt hx)

/-- A block is put into a slot of its route. -/
theorem put_spec (hf : Fresh xxh64 c) (ht : c.table = some t) (htick : c.tick + 1 < 2 ^ 64)
    {before after : List ℕ}
    (hplace : Table.Place (route xxh64 c.cap) (entries t) (ds, bid) slot before after) {e : BcEntry}
    (hvalid : e.valid = true) (hkey : (e.driveSel, e.blockId) = (ds, bid)) (hlast : e.lastAccess = c.nextTick)
    (c' : BlockCache) (hc' : c'.table = some (Function.update t slot e)) (hcap : c'.cap = c.cap)
    (htick' : c'.tick = c.nextTick) :
    Fresh xxh64 c' ∧ content xxh64 c' (ds, bid) = some e.bytes ∧
      ∀ key ≠ (ds, bid), content xxh64 c' key = content xxh64 c key := by
  obtain ⟨halign, hold⟩ := hf t ht
  have hentries := entries_put htick t slot hvalid hkey hlast
  have hnodup : (route xxh64 c.cap (ds, bid)).Nodup := nodup_order _ _
  refine ⟨fun t' ht' => ?_, ?_, fun key hne => ?_⟩
  · -- The new entry is newer than all others.
    obtain rfl := Option.some.inj (hc'.symm.trans ht')
    rw [hcap, htick', nextTick_eq htick, hentries]
    refine ⟨halign.put hplace hnodup fun x d hd => Nat.lt_succ_of_le (hold x d hd), fun x d hd => ?_⟩
    by_cases hx : x = slot
    · rw [hx, Function.update_self, Option.mem_some_iff] at hd
      rw [← hd]
    · rw [Function.update_of_ne hx] at hd
      exact (hold x d hd).trans (Nat.le_succ _)
  · rw [content_of_table hc', hcap, hentries, Table.view_put hplace hnodup]
  · rw [content_of_table hc', content_of_table ht, hcap, hentries, Table.view_put_of_ne hplace hne]

theorem copy_get {dst src : Bytes} {off n j : ℕ} (hj : j < n) : Bytes.copyInto dst 0 src off n j = src (off + j) := by
  rw [Bytes.copyInto_of_mem (Nat.zero_le j) (by omega), Nat.sub_zero]

/-- `bc_lookup` copies what is found, and changes nothing of it. -/
theorem bcLookup_spec (hs : Intact sizeOf c) (hf : Fresh xxh64 c) (htick : c.tick + 1 < 2 ^ 64) (hpos : 0 < bs)
    (ds bid : ℕ) (out : Bytes) (off : ℕ) :
    let r := c.bcLookup xxh64 ds bid bs out off
    Fresh xxh64 r.2.2 ∧ r.2.2.tick ≤ c.tick + 1 ∧ (∀ key, content xxh64 r.2.2 key = content xxh64 c key) ∧
      (r.1, r.2.1) = (content xxh64 c (ds, bid)).elim (false, out) fun v => (true, Bytes.copyInto out off v 0 bs) := by
  unfold BlockCache.bcLookup
  cases ht : c.table with
  | none => exact ⟨hf, Nat.le_succ _, fun _ => rfl, by simp [content, ht]⟩
  | some t =>
    have hok := (hs.full t ht).1
    simp only [if_neg (hok.usable hpos)]
    have hview : content xxh64 c (ds, bid) = (entries t).view (route xxh64 c.cap) (ds, bid) :=
      content_of_table ht (ds, bid)
    cases hprobe : bcProbe xxh64 t c.cap ds bid with
    | none =>
      rw [bcProbe_eq xxh64 hok.pow] at hprobe
      have hnone := hview.trans (Table.view_eq_none hprobe)
      have hsame : ∀ key, content xxh64 { c with misses := (c.misses + 1) % 2 ^ 32 } key = content xxh64 c key :=
        fun _ => rfl
      rw [ht] at hsame
      exact ⟨fun t' ht' => hf t' (ht.trans ht'), Nat.le_succ _, hsame, by rw [hnone]; rfl⟩
    | some slot =>
      obtain ⟨hvalid, hdrive, hblock⟩ := bcProbe_some hok hprobe
      rw [bcProbe_eq xxh64 hok.pow] at hprobe
      obtain ⟨before, after, hplace⟩ := Table.find_eq_some hprobe
      obtain ⟨e, he, -, hval⟩ := Table.view_of_find hprobe
      rw [entries_of_valid hvalid, Option.some.injEq] at he
      -- The entry is put again where it is, with the same bytes and the time of now.
      have hfound : content xxh64 c (ds, bid) = some (t slot).bytes := by
        rw [hview, hval, ← he]
      obtain ⟨hfresh, hself, hother⟩ := put_spec hf ht htick hplace (e := { t slot with lastAccess := c.nextTick })
        hvalid (by rw [hdrive, hblock]) rfl
        { c with
          table := some (Function.update t slot { t slot with lastAccess := c.nextTick })
          tick := c.nextTick
          hits := (c.hits + 1) % 2 ^ 32
          fault := c.fault || !(t slot).fits bs } rfl rfl rfl
      refine ⟨hfresh, (nextTick_eq htick).le, fun key => ?_, by rw [hfound]; rfl⟩
      by_cases hkey : key = (ds, bid)
      · rw [hkey, hfound]
        exact hself
      · exact hother key hkey

/-- A block that is copied over its entry is found with the new bytes. -/
theorem refresh_spec (hs : Intact sizeOf c) (hf : Fresh xxh64 c) (htick : c.tick + 1 < 2 ^ 64) (ht : c.table = some t)
    {before after : List ℕ} (hplace : Table.Place (route xxh64 c.cap) (entries t) (ds, bid) slot before after)
    (hholds : (entries t).holds (ds, bid) slot = true) (bs : ℕ) (src : Bytes) (off : ℕ) :
    let c' := c.refresh t slot bs src off
    Fresh xxh64 c' ∧ c'.tick = c.tick + 1 ∧ Shows xxh64 c' (ds, bid) bs src off ∧
      ∀ key ≠ (ds, bid), content xxh64 c' key = content xxh64 c key := by
  obtain ⟨hvalid, hdrive, hblock⟩ := holds_entries.mp hholds
  obtain ⟨b, hb⟩ := Option.isSome_iff_exists.mp (((hs.full t ht).1.owned slot).symm.trans hvalid)
  obtain ⟨hfresh, hself, hother⟩ := put_spec hf ht htick hplace (e := { t slot with
    data := (t slot).data.map fun b => { b with bytes := Bytes.copyInto b.bytes 0 src off bs }
    lastAccess := c.nextTick }) hvalid (by rw [hdrive, hblock]) rfl (c.refresh t slot bs src off) rfl rfl rfl
  refine ⟨hfresh, nextTick_eq htick, ⟨_, hself, fun j hj => ?_⟩, hother⟩
  simp only [BcEntry.bytes, hb, Option.map_some, Option.elim_some]
  exact copy_get hj

/-- A block in a gap of its route is found, if there was memory for it. -/
theorem fill_spec (hs : Intact sizeOf c) (hf : Fresh xxh64 c) (htick : c.tick + 1 < 2 ^ 64) (ht : c.table = some t)
    {before after : List ℕ} (hplace : Table.Place (route xxh64 c.cap) (entries t) (ds, bid) slot before after)
    (hvalid : (t slot).valid = false) (bs : ℕ) (src : Bytes) (off : ℕ) :
    let c' := c.fill t slot ds bid bs src off
    Fresh xxh64 c' ∧ c'.tick ≤ c.tick + 1 ∧
      (Shows xxh64 c' (ds, bid) bs src off ∨
        c.heap 0 = false ∧ content xxh64 c' (ds, bid) = content xxh64 c (ds, bid)) ∧
      ∀ key ≠ (ds, bid), content xxh64 c' key = content xxh64 c key := by
  have hnone := (hs.full t ht).1.data_eq_none hvalid
  cases hheap : c.heap 0 with
  | false =>
    rw [fill_of_no_heap hnone hheap]
    exact ⟨hf, Nat.le_succ _, .inr ⟨rfl, rfl⟩, fun _ _ => rfl⟩
  | true =>
    obtain ⟨hfresh, hself, hother⟩ := put_spec hf ht htick hplace
      (e := ⟨ds, bid, some ⟨bs, Bytes.copyInto Bytes.zeros 0 src off bs⟩, c.nextTick, true⟩) rfl rfl rfl
      (c.fill t slot ds bid bs src off) (by rw [fill_of_heap hnone hheap]) (by rw [fill_of_heap hnone hheap])
      (by rw [fill_of_heap hnone hheap])
    refine ⟨hfresh, ?_, .inl ⟨_, hself, fun j hj => copy_get hj⟩, hother⟩
    rw [fill_of_heap hnone hheap]
    exact (nextTick_eq htick).le

end

section

variable {xxh64 : ℕ → ℕ} {sizeOf : ℕ → ℕ} {c : BlockCache} {t : ℕ → BcEntry} {slot ds bid bs : ℕ}

theorem entries_evict (t : ℕ → BcEntry) (slot : ℕ) :
    entries (Function.update t slot { t slot with data := none, valid := false }) =
      Function.update (entries t) slot none := by
  rw [entries_update, if_neg Bool.false_ne_true]

/-- The eviction of the oldest entry at most loses its block. -/
theorem evict_spec (hf : Fresh xxh64 c) (ht : c.table = some t) (hok : TableOk sizeOf t c.cap)
    (hvalid : (t slot).valid = true) (hleast : ∀ x < c.cap, (t slot).lastAccess ≤ (t x).lastAccess) :
    Fresh xxh64 (c.evict t slot) ∧ ∀ key, MayLose xxh64 c (c.evict t slot) key := by
  obtain ⟨halign, hold⟩ := hf t ht
  have htable : (c.evict t slot).table =
      some (Function.update t slot { t slot with data := none, valid := false }) := rfl
  refine ⟨fun t' ht' => ?_, fun key => ?_⟩
  · obtain rfl := Option.some.inj (htable.symm.trans ht')
    rw [entries_evict]
    exact ⟨halign.erase slot, fun x e he => hold x e (Table.mem_of_mem_erase he).2⟩
  · rw [MayLose, content_of_table htable, content_of_table ht, entries_evict]
    exact Table.view_erase halign (entries_of_valid hvalid) (hok.oldest hleast) key

/-- `bc_insert` at most loses other blocks. The block is found with the new bytes, or not at all, or as before. -/
theorem bcInsert_spec (hs : Intact sizeOf c) (hf : Fresh xxh64 c) (htick : c.tick + 1 < 2 ^ 64) (hpos : 0 < bs)
    (ds bid : ℕ) (src : Bytes) (off : ℕ) :
    let c' := c.bcInsert xxh64 ds bid bs src off
    Fresh xxh64 c' ∧ c'.tick ≤ c.tick + 1 ∧
      (Shows xxh64 c' (ds, bid) bs src off ∨ MayLose xxh64 c c' (ds, bid)) ∧
      ∀ key ≠ (ds, bid), MayLose xxh64 c c' key := by
  unfold BlockCache.bcInsert
  cases ht : c.table with
  | none => exact ⟨hf, Nat.le_succ _, .inr (.inl rfl), fun _ _ => .inl rfl⟩
  | some t =>
    have hok := (hs.full t ht).1
    simp only [if_neg (hok.usable hpos)]
    obtain ⟨slot, before, after, heq, hplace, -, hholds⟩ | ⟨slot, before, after, heq, hplace, -, hlt, hvalid⟩ |
      ⟨slot, tick, heq, hlt, hall, hleast⟩ := insertProbe_cases hok xxh64 ds bid
    · rw [heq]
      obtain ⟨hfresh, htick', hself, hother⟩ := refresh_spec hs hf htick ht hplace hholds bs src off
      exact ⟨hfresh, htick'.le, .inl hself, fun key hkey => .inl (hother key hkey)⟩
    · -- Without memory for the block, the gap stays.
      rw [heq]
      obtain ⟨hfresh, htick', hself, hother⟩ := fill_spec hs hf htick ht hplace hvalid bs src off
      exact ⟨hfresh, htick', hself.imp id fun h => .inl h.2, fun key hkey => .inl (hother key hkey)⟩
    · -- The table is full: the oldest entry makes room.
      rw [heq]
      have hvalid := (hall slot hlt).1
      obtain ⟨hfresh₁, hkeep₁⟩ := evict_spec hf ht hok hvalid
        (hleast fun x hx => hf.lastAccess_lt ht htick (hall x hx).1)
      have hs₁ := hs.evict ht hvalid
      -- The key is nowhere, and the slot of the oldest entry is now empty.
      have hmem : slot ∈ route xxh64 c.cap (ds, bid) := (mem_route xxh64 hok.pow).mpr hlt
      obtain ⟨before, after, hsplit⟩ := List.append_of_mem hmem
      have hplace : Table.Place (route xxh64 c.cap)
          (entries (Function.update t slot { t slot with data := none, valid := false })) (ds, bid) slot before
          after := by
        refine ⟨hsplit, fun x hx => ?_, .inl (by rw [entries_evict, Function.update_self])⟩
        have hxmem : x ∈ route xxh64 c.cap (ds, bid) := by
          rw [hsplit]
          exact List.mem_append_left _ hx
        have hno := (hall x ((mem_route xxh64 hok.pow).mp hxmem)).2
        rw [entries_evict]
        by_cases hxs : x = slot
        · simp [Table.holds, hxs]
        · rw [Table.holds_update_of_ne hxs, hno]
      obtain ⟨hfresh, htick', hself, hother⟩ := fill_spec (c := c.evict t slot) hs₁ hfresh₁ htick rfl hplace
        (by simp) bs src off
      refine ⟨hfresh, htick', ?_, fun key hkey => ?_⟩
      · obtain hshow | ⟨-, hsame⟩ := hself
        · exact .inl hshow
        · exact .inr ((hkeep₁ _).imp hsame.trans hsame.trans)
      · exact (hkeep₁ key).imp (hother key hkey).trans (hother key hkey).trans

/-- `bc_update` at most loses other blocks. The block is found with the new bytes, or not at all. -/
theorem bcUpdate_spec (hs : Intact sizeOf c) (hf : Fresh xxh64 c) (htick : c.tick + 1 < 2 ^ 64) (hpos : 0 < bs)
    (ds bid : ℕ) (src : Bytes) :
    let c' := c.bcUpdate xxh64 ds bid bs src
    Fresh xxh64 c' ∧ c'.tick ≤ c.tick + 1 ∧
      (Shows xxh64 c' (ds, bid) bs src 0 ∨ content xxh64 c' (ds, bid) = none) ∧
      ∀ key ≠ (ds, bid), MayLose xxh64 c c' key := by
  unfold BlockCache.bcUpdate
  cases ht : c.table with
  | none => exact ⟨hf, Nat.le_succ _, .inr (by rw [content, ht]; rfl), fun _ _ => .inl rfl⟩
  | some t =>
    have hok := (hs.full t ht).1
    simp only [if_neg (hok.usable hpos)]
    cases hprobe : bcProbe xxh64 t c.cap ds bid with
    | none =>
      rw [bcProbe_eq xxh64 hok.pow] at hprobe
      have hnone : content xxh64 c (ds, bid) = none := (content_of_table ht (ds, bid)).trans (Table.view_eq_none hprobe)
      obtain ⟨hfresh, htick', hself, hother⟩ := bcInsert_spec hs hf htick hpos ds bid src 0
      refine ⟨hfresh, htick', ?_, hother⟩
      -- What the insertion may have kept was not there.
      obtain hshow | hkeep := hself
      · exact .inl hshow
      · exact .inr (hkeep.elim (fun h => h.trans hnone) id)
    | some slot =>
      rw [bcProbe_eq xxh64 hok.pow] at hprobe
      obtain ⟨before, after, hplace⟩ := Table.find_eq_some hprobe
      obtain ⟨hfresh, htick', hself, hother⟩ := refresh_spec hs hf htick ht hplace
        (List.find?_some hprobe) bs src 0
      exact ⟨hfresh, htick'.le, .inl hself, fun key hkey => .inl (hother key hkey)⟩

/-- A new table shows nothing. -/
theorem bcInit_spec (hf : Fresh xxh64 c) :
    Fresh xxh64 c.bcInit ∧ c.bcInit.tick = c.tick ∧ ∀ key, MayLose xxh64 c c.bcInit key := by
  unfold BlockCache.bcInit
  dsimp only
  split_ifs with hsame hfound
  · exact ⟨hf, rfl, fun _ => .inl rfl⟩
  · have hentries : entries (fun _ => BcEntry.zero) = fun _ => none := funext fun _ => rfl
    refine ⟨fun t ht => ?_, rfl, fun key => .inr ?_⟩
    · obtain rfl := Option.some.inj ht
      rw [hentries]
      exact ⟨fun key => List.pairwise_of_forall fun _ _ e he => absurd he (Option.not_mem_none e),
        fun _ e he => absurd he (Option.not_mem_none e)⟩
    · rw [content, Option.bind_some, hentries]
      exact Table.view_eq_none (List.find?_eq_none.mpr fun _ _ => by simp [Table.holds])
  · exact ⟨fun t ht => absurd ht (Option.not_mem_none t), rfl, fun key => .inr rfl⟩

theorem setCapacity_spec (hf : Fresh xxh64 c) (n : ℕ) :
    Fresh xxh64 (c.setCapacity n) ∧ (c.setCapacity n).tick = c.tick ∧ ∀ key, MayLose xxh64 c (c.setCapacity n) key := by
  unfold BlockCache.setCapacity
  dsimp only
  split_ifs with hsame
  · exact ⟨hf, rfl, fun _ => .inl rfl⟩
  · exact bcInit_spec (c := { c with target := clamp n }) hf

end

/-! ## Least recently used -/

section

variable (xxh64 : ℕ → ℕ)

/-- The table holds the blocks of a list, from the one that was used last to the one that was not used for the longest
time. -/
def Lists (c : BlockCache) (l : List (ℕ × ℕ)) : Prop :=
  ∃ t slots, c.table = some t ∧ (entries t).Packed (route xxh64 c.cap) ∧ Table.Recency (entries t) slots ∧
    l = (entries t).keys slots

end

section

variable {xxh64 : ℕ → ℕ} {sizeOf : ℕ → ℕ} {c : BlockCache} {t : ℕ → BcEntry} {slot ds bid bs : ℕ} {l : List (ℕ × ℕ)}

theorem occupied_lt (hok : TableOk sizeOf t c.cap) (x : ℕ) (hx : entries t x ≠ none) : x < c.cap :=
  hok.slot_lt (entries_ne_none.mp hx)

/-- A block is in the list exactly if the search finds it. -/
theorem mem_keys_iff_find (xxh64 : ℕ → ℕ) (hok : TableOk sizeOf t c.cap) {slots : List ℕ}
    (hrec : Table.Recency (entries t) slots) (key : ℕ × ℕ) :
    key ∈ (entries t).keys slots ↔ ((entries t).find (route xxh64 c.cap) key).isSome := by
  rw [Table.mem_keys, Table.find, List.find?_isSome]
  constructor
  · rintro ⟨s, -, hs⟩
    obtain ⟨e, he, -⟩ := Table.holds_iff.mp hs
    exact ⟨s, (mem_route xxh64 hok.pow).mpr (occupied_lt hok s (by simp [he])), hs⟩
  · rintro ⟨s, -, hs⟩
    obtain ⟨e, he, -⟩ := Table.holds_iff.mp hs
    exact ⟨s, (hrec.mem s).mpr (by simp [he]), hs⟩

/-- The slots before an entry are occupied. -/
theorem occupied_before {key : ℕ × ℕ} {before after : List ℕ} (hpacked : (entries t).Packed (route xxh64 c.cap))
    (hplace : Table.Place (route xxh64 c.cap) (entries t) key slot before after)
    (hholds : (entries t).holds key slot = true) : ∀ x ∈ before, entries t x ≠ none := by
  intro x hx
  have hp := hpacked key
  rw [hplace.split, List.pairwise_append] at hp
  exact hp.2.2 x hx slot List.mem_cons_self hholds

/-- The entry of a block is written again, with the time of now. -/
theorem Lists.hit (hs : Intact sizeOf c) (hf : Fresh xxh64 c) (htick : c.tick + 1 < 2 ^ 64) (ht : c.table = some t)
    (h : Lists xxh64 c l) {before after : List ℕ}
    (hplace : Table.Place (route xxh64 c.cap) (entries t) (ds, bid) slot before after)
    (hholds : (entries t).holds (ds, bid) slot = true) {e : BcEntry} (hvalid : e.valid = true)
    (hkey : (e.driveSel, e.blockId) = (ds, bid)) (hlast : e.lastAccess = c.nextTick) {c' : BlockCache}
    (hc' : c'.table = some (Function.update t slot e)) (hcap : c'.cap = c.cap) :
    Lists xxh64 c' (Table.touch c.cap (ds, bid) l) := by
  obtain ⟨t', slots, ht', hpacked, hrec, rfl⟩ := h
  obtain rfl := Option.some.inj (ht.symm.trans ht')
  have hentries := entries_put htick t slot hvalid hkey hlast
  obtain ⟨hrec', hkeys⟩ := hrec.hit (v := e.bytes) (occupied_lt (hs.full t ht).1) (hf.stamp_lt ht) hholds
  refine ⟨_, slot :: slots.erase slot, hc', ?_, ?_, ?_⟩
  · rw [hentries, hcap]
    exact hpacked.put hplace (occupied_before hpacked hplace hholds) (nodup_order _ _)
  · rw [hentries]
    exact hrec'
  · rw [hentries]
    exact hkeys.symm

/-- A lookup hits exactly the blocks of the list, and moves them to its front. -/
theorem bcLookup_lists (hs : Intact sizeOf c) (hf : Fresh xxh64 c) (htick : c.tick + 1 < 2 ^ 64) (hpos : 0 < bs)
    (h : Lists xxh64 c l) (ds bid : ℕ) (out : Bytes) (off : ℕ) :
    let r := c.bcLookup xxh64 ds bid bs out off
    (r.1 = true ↔ (ds, bid) ∈ l) ∧
      Lists xxh64 r.2.2 (if (ds, bid) ∈ l then Table.touch c.cap (ds, bid) l else l) ∧ r.2.2.cap = c.cap ∧
        r.2.2.heap = c.heap := by
  have h' := h
  obtain ⟨t, slots, ht, hpacked, hrec, rfl⟩ := h'
  have hok := (hs.full t ht).1
  have hmem := mem_keys_iff_find xxh64 hok hrec (ds, bid)
  rw [← bcProbe_eq xxh64 hok.pow] at hmem
  unfold BlockCache.bcLookup
  simp only [ht, if_neg (hok.usable hpos)]
  cases hprobe : bcProbe xxh64 t c.cap ds bid with
  | none =>
    rw [hprobe] at hmem
    have hnot : (ds, bid) ∉ (entries t).keys slots := fun hin => Bool.false_ne_true (hmem.mp hin)
    rw [if_neg hnot]
    exact ⟨iff_of_false Bool.false_ne_true hnot, ⟨t, slots, rfl, hpacked, hrec, rfl⟩, rfl, rfl⟩
  | some slot =>
    rw [hprobe] at hmem
    obtain ⟨hvalid, hdrive, hblock⟩ := bcProbe_some hok hprobe
    rw [bcProbe_eq xxh64 hok.pow] at hprobe
    obtain ⟨before, after, hplace⟩ := Table.find_eq_some hprobe
    rw [if_pos (hmem.mpr rfl)]
    exact ⟨iff_of_true rfl (hmem.mpr rfl), h.hit hs hf htick ht hplace (List.find?_some hprobe)
      (e := { t slot with lastAccess := c.nextTick }) hvalid (by rw [hdrive, hblock]) rfl rfl rfl, rfl, rfl⟩

/-- An insertion puts the block in front of the list; if the table was full, the last block of the list goes. -/
theorem bcInsert_lists (hs : Intact sizeOf c) (hf : Fresh xxh64 c) (htick : c.tick + 1 < 2 ^ 64) (hpos : 0 < bs)
    (hheap : c.heap 0 = true) (h : Lists xxh64 c l) (ds bid : ℕ) (src : Bytes) (off : ℕ) :
    let c' := c.bcInsert xxh64 ds bid bs src off
    Lists xxh64 c' (Table.touch c.cap (ds, bid) l) ∧ c'.cap = c.cap ∧
      (c'.heap = c.heap ∨ c'.heap = fun i => c.heap (i + 1)) := by
  have h' := h
  obtain ⟨t, slots, ht, hpacked, hrec, rfl⟩ := h'
  have hok := (hs.full t ht).1
  have hentries (slot : ℕ) : entries (Function.update t slot
        ⟨ds, bid, some ⟨bs, Bytes.copyInto Bytes.zeros 0 src off bs⟩, c.nextTick, true⟩) =
      Function.update (entries t) slot
        (some ⟨(ds, bid), Bytes.copyInto Bytes.zeros 0 src off bs, c.tick + 1⟩) :=
    entries_put htick t slot rfl rfl rfl
  -- Slots behind the capacity are empty.
  have hall_new (hno : ∀ x < c.cap, (entries t).holds (ds, bid) x = false) (x : ℕ) :
      (entries t).holds (ds, bid) x = false := by
    by_cases hx : x < c.cap
    · exact hno x hx
    · rw [Table.holds, entries_of_not_valid (hok.inside x (not_lt.mp hx))]
      rfl
  unfold BlockCache.bcInsert
  simp only [ht, if_neg (hok.usable hpos)]
  obtain ⟨slot, before, after, heq, hplace, -, hholds⟩ | ⟨slot, before, after, heq, hplace, hfull, hlt, hvalid⟩ |
    ⟨slot, tick, heq, hlt, hall, hleast⟩ := insertProbe_cases hok xxh64 ds bid
  · rw [heq]
    obtain ⟨hvalid, hdrive, hblock⟩ := holds_entries.mp hholds
    exact ⟨h.hit hs hf htick ht hplace hholds (e := { t slot with
      data := (t slot).data.map fun b => { b with bytes := Bytes.copyInto b.bytes 0 src off bs }
      lastAccess := c.nextTick }) hvalid (by rw [hdrive, hblock]) rfl rfl rfl, rfl, .inl rfl⟩
  · rw [heq]
    have hempty := entries_of_not_valid hvalid
    have hno : ∀ x, (entries t).holds (ds, bid) x = false := hall_new fun x hx =>
      hpacked.not_holds hplace hempty ((mem_route xxh64 hok.pow).mpr hx)
    obtain ⟨hrec', hkeys⟩ := hrec.place (v := Bytes.copyInto Bytes.zeros 0 src off bs)
      (occupied_lt hok) (hf.stamp_lt ht) hempty hlt hno
    dsimp only
    rw [fill_of_heap (hok.data_eq_none hvalid) hheap]
    refine ⟨⟨_, slot :: slots, rfl, ?_, ?_, ?_⟩, rfl, .inr rfl⟩
    · rw [hentries]
      exact hpacked.put hplace (fun x hx => entries_ne_none.mpr (hfull x hx)) (nodup_order _ _)
    · rw [hentries]
      exact hrec'
    · rw [hentries]
      exact hkeys.symm
  · rw [heq]
    have hocc : ∀ x < c.cap, entries t x ≠ none := fun x hx => entries_ne_none.mpr (hall x hx).1
    obtain ⟨hrec', hkeys⟩ := hrec.evict (v := Bytes.copyInto Bytes.zeros 0 src off bs)
      (occupied_lt hok) (hf.stamp_lt ht) hocc (entries_of_valid (hall slot hlt).1)
      (hok.oldest (hleast fun x hx => hf.lastAccess_lt ht htick (hall x hx).1)) (hall_new fun x hx => (hall x hx).2)
    dsimp only
    rw [fill_of_heap (c := c.evict t slot) (by simp [BlockCache.evict]) hheap]
    -- The slot is cleared and written again.
    have htable : Function.update (Function.update t slot { t slot with data := none, valid := false }) slot
        ⟨ds, bid, some ⟨bs, Bytes.copyInto Bytes.zeros 0 src off bs⟩, c.nextTick, true⟩ =
      Function.update t slot ⟨ds, bid, some ⟨bs, Bytes.copyInto Bytes.zeros 0 src off bs⟩, c.nextTick, true⟩ :=
      Function.update_idem _ _ _
    refine ⟨⟨_, slot :: slots.erase slot, congrArg some htable, ?_, ?_, ?_⟩, rfl, .inr rfl⟩
    · rw [hentries]
      refine Table.packed_of_full fun key x hx => ?_
      by_cases hxs : x = slot
      · rw [hxs, Function.update_self]
        exact Option.some_ne_none _
      · rw [Function.update_of_ne hxs]
        exact hocc x ((mem_route xxh64 hok.pow).mp hx)
    · rw [hentries]
      exact hrec'
    · rw [hentries]
      exact hkeys.symm

end

end BlockCache

end Sandflea
