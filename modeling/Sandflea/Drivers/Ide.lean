import Sandflea.Lib.Bytes

/-!
# Disk timeouts

`ide_read_sectors` and `ide_write_sectors` poll the status port before each sector. `while (timeout--)` leaves 0 in the
counter if the last poll ends the loop and wraps around if none does, so that the test behind the loop takes the one for
the other; and a status of `0xFF` ends the loop like a ready sector. `timeouts_iff` says on which streams of status
bytes all is well nevertheless.
-/

namespace Sandflea

namespace Ide

/-- `!(status & IDE_STATUS_BSY) && (status & IDE_STATUS_DRQ)` -/
def Ready (status : UInt8) : Prop := status &&& 0x80 = 0 ∧ status &&& 0x08 ≠ 0

instance decidableReady : DecidablePred Ready := fun _ => inferInstanceAs (Decidable (_ ∧ _))

/-- The number of polls for a sector -/
def polls : ℕ := 100000

/-- A transfer of a sector: how often the status had been read, and where in the buffer the sector is -/
structure Transfer where
  reads : ℕ
  offset : ℕ
deriving DecidableEq

/-- What a command leaves: the bytes that were written to the ports, the buffer, and the transfers -/
structure Outcome where
  outs : List (ℕ × UInt8)
  buffer : Bytes
  transfers : List Transfer

section

variable (status : ℕ → UInt8)

/-! ## The code -/

/-- `while (timeout--)`, with the number of status bytes read before: the counter behind the loop, and the number of
status bytes -/
def poll : ℕ → ℕ → UInt32 × ℕ
  | 0, reads => (0xFFFFFFFF, reads)
  | timeout + 1, reads =>
    if status reads = 0xFF then (UInt32.ofNat timeout, reads + 1)
    else if Ready (status reads) then (UInt32.ofNat timeout, reads + 1)
    else poll timeout (reads + 1)

/-- The registers of a command -/
def command (driveSel : UInt8) (lba : UInt32) (count cmd : UInt8) : List (ℕ × UInt8) :=
  [(0x1F6, driveSel ||| ((lba >>> 24) &&& 0x0F).toUInt8), (0x1F2, count), (0x1F3, lba.toUInt8),
    (0x1F4, (lba >>> 8).toUInt8), (0x1F5, (lba >>> 16).toUInt8), (0x1F7, cmd)]

/-- `rep insw`: the device may give anything, at any time. -/
def insw (device : ℕ → ℕ → UInt8) (buffer : Bytes) (offset reads : ℕ) : Bytes := fun a =>
  if offset ≤ a ∧ a < offset + 512 then device reads (a - offset) else buffer a

/-- The loop of `ide_read_sectors`, from the `i`-th sector on -/
def readLoop (device : ℕ → ℕ → UInt8) (count : ℕ) : ℕ → ℕ → ℕ → Bytes → Bytes × List Transfer
  | 0, _, _, buffer => (buffer, [])
  | n + 1, i, reads, buffer =>
    let (timeout, reads) := poll status polls reads
    if timeout = 0 then (Bytes.zeroFill buffer 0 (count * 512), [])
    else
      let (buffer, transfers) := readLoop device count n (i + 1) reads (insw device buffer (512 * i) reads)
      (buffer, ⟨reads, 512 * i⟩ :: transfers)

/-- `ide_read_sectors` -/
def ideReadSectors (device : ℕ → ℕ → UInt8) (driveSel : UInt8) (lba : UInt32) (count : UInt8) (buffer : Bytes) :
    Outcome :=
  let (buffer, transfers) := readLoop status device count.toNat count.toNat 0 0 buffer
  ⟨command driveSel lba count 0x20, buffer, transfers⟩

/-- The loop of `ide_write_sectors`. Each sector is sent from the buffer. -/
def writeLoop : ℕ → ℕ → ℕ → List Transfer
  | 0, _, _ => []
  | n + 1, i, reads =>
    let (timeout, reads) := poll status polls reads
    if timeout = 0 then [] else ⟨reads, 512 * i⟩ :: writeLoop n (i + 1) reads

/-- `ide_write_sectors`. What it does at the end, to wait for the drive, has no effect. -/
def ideWriteSectors (driveSel : UInt8) (lba : UInt32) (count : UInt8) (buffer : Bytes) : Outcome :=
  ⟨command driveSel lba count 0x30, buffer, writeLoop status count.toNat 0 0⟩

/-! ## What it should do -/

/-- The first place, among so many, that has a property -/
def firstWhere (p : UInt8 → Prop) [DecidablePred p] : ℕ → ℕ → Option ℕ
  | 0, _ => none
  | n + 1, reads => if p (status reads) then some 0 else (firstWhere p n (reads + 1)).map (· + 1)

/-- Where each sector is ready, if all are within their polls -/
def readyAt : ℕ → ℕ → Option (List ℕ)
  | 0, _ => some []
  | n + 1, reads =>
    (firstWhere status Ready polls reads).bind fun k =>
      (readyAt n (reads + k + 1)).map fun ps => (reads + k + 1) :: ps

/-- The transfers of sectors that are ready at some places -/
def sectorTransfers : ℕ → List ℕ → List Transfer
  | _, [] => []
  | i, p :: ps => ⟨p, 512 * i⟩ :: sectorTransfers (i + 1) ps

/-- The status that was read last was that of a ready sector. -/
def WasReady (reads : ℕ) : Prop := ∃ k, reads = k + 1 ∧ Ready (status k)

/-- If every sector becomes ready, each is transferred when it is, and is in the buffer. If not, the buffer is zero, and
no sector was transferred that was not ready. -/
def ReadOk (device : ℕ → ℕ → UInt8) (count : ℕ) (res : Outcome) : Prop :=
  match readyAt status count 0 with
  | some ps => res.transfers = sectorTransfers 0 ps ∧
      ∀ t ∈ res.transfers, ∀ k < 512, res.buffer (t.offset + k) = device t.reads k
  | none => (∀ a < 512 * count, res.buffer a = 0) ∧ ∀ t ∈ res.transfers, WasReady status t.reads

/-- No sector is transferred that is not ready. -/
def WriteOk (res : Outcome) : Prop := ∀ t ∈ res.transfers, WasReady status t.reads

/-! ## When it does -/

/-- What ends the loop -/
def Stops (status : UInt8) : Prop := status = 0xFF ∨ Ready status

instance decidableStops : DecidablePred Stops := fun _ => inferInstanceAs (Decidable (_ ∨ _))

/-- The polls of each sector end with a ready sector before the last of them. But those of a sector may end with `0xFF`
at the last poll; or with a ready sector at the last poll, if a later sector does not become ready. -/
def ReadsWell : ℕ → ℕ → Prop
  | 0, _ => True
  | n + 1, reads =>
    match firstWhere status Stops polls reads with
    | none => False
    | some k =>
      if Ready (status (reads + k)) then
        if k + 1 = polls then readyAt status n (reads + k + 1) = none else ReadsWell n (reads + k + 1)
      else k + 1 = polls

/-- The polls of each sector end with a ready sector before the last of them, or with anything at the last. -/
def WritesWell : ℕ → ℕ → Prop
  | 0, _ => True
  | n + 1, reads =>
    match firstWhere status Stops polls reads with
    | none => False
    | some k => k + 1 = polls ∨ Ready (status (reads + k)) ∧ WritesWell n (reads + k + 1)

end

section

variable {status : ℕ → UInt8} {p q : UInt8 → Prop} [DecidablePred p] [DecidablePred q]

theorem firstWhere_eq_some {n reads k : ℕ} :
    firstWhere status p n reads = some k ↔ k < n ∧ p (status (reads + k)) ∧ ∀ j < k, ¬ p (status (reads + j)) := by
  induction n generalizing reads k with
  | zero => exact iff_of_false nofun fun h => absurd h.1 (Nat.not_lt_zero k)
  | succ n ih =>
    unfold firstWhere
    by_cases hp : p (status reads)
    · rw [if_pos hp]
      constructor
      · rintro ⟨⟩
        exact ⟨Nat.succ_pos n, hp, fun j hj => absurd hj (Nat.not_lt_zero j)⟩
      · rintro ⟨-, -, hbefore⟩
        cases k with
        | zero => rfl
        | succ k => exact absurd hp (hbefore 0 (Nat.succ_pos k))
    · rw [if_neg hp]
      cases k with
      | zero =>
        refine iff_of_false (fun h => ?_) fun h => hp h.2.1
        obtain ⟨j, -, hj⟩ := Option.map_eq_some_iff.mp h
        cases hj
      | succ k =>
        rw [Option.map_eq_some_iff]
        have hshift : ∀ j, reads + 1 + j = reads + (j + 1) := fun j => by omega
        constructor
        · rintro ⟨j, hj, heq⟩
          cases heq
          obtain ⟨hlt, hk, hbefore⟩ := ih.mp hj
          rw [hshift] at hk
          refine ⟨Nat.succ_lt_succ hlt, hk, fun j hj => ?_⟩
          cases j with
          | zero => exact hp
          | succ j =>
            rw [← hshift]
            exact hbefore j (Nat.lt_of_succ_lt_succ hj)
        · rintro ⟨hlt, hk, hbefore⟩
          refine ⟨k, ih.mpr ⟨Nat.lt_of_succ_lt_succ hlt, ?_, fun j hj => ?_⟩, rfl⟩
          · rw [hshift]
            exact hk
          · rw [hshift]
            exact hbefore (j + 1) (Nat.succ_lt_succ hj)

theorem firstWhere_eq_none {n reads : ℕ} :
    firstWhere status p n reads = none ↔ ∀ j < n, ¬ p (status (reads + j)) := by
  constructor
  · intro h j hj hp
    -- the first one up to that place would be found
    have hfind : ∃ k, k ≤ j ∧ p (status (reads + k)) ∧ ∀ i < k, ¬ p (status (reads + i)) := by
      have hex : ∃ i, p (status (reads + i)) := ⟨j, hp⟩
      exact ⟨Nat.find hex, Nat.find_min' hex hp, Nat.find_spec hex, fun i hi => Nat.find_min hex hi⟩
    obtain ⟨k, hk, hpk, hbefore⟩ := hfind
    have hsome := firstWhere_eq_some.mpr ⟨hk.trans_lt hj, hpk, hbefore⟩
    rw [h] at hsome
    cases hsome
  · intro h
    cases hfirst : firstWhere status p n reads with
    | none => rfl
    | some k =>
      obtain ⟨hlt, hpk, -⟩ := firstWhere_eq_some.mp hfirst
      exact absurd hpk (h k hlt)

theorem poll_eq (n reads : ℕ) :
    poll status n reads =
      match firstWhere status Stops n reads with
      | none => (0xFFFFFFFF, reads + n)
      | some k => (UInt32.ofNat (n - (k + 1)), reads + k + 1) := by
  induction n generalizing reads with
  | zero => rfl
  | succ n ih =>
    have hstop : (if status reads = 0xFF then (UInt32.ofNat n, reads + 1)
        else if Ready (status reads) then (UInt32.ofNat n, reads + 1) else poll status n (reads + 1)) =
        if Stops (status reads) then (UInt32.ofNat n, reads + 1) else poll status n (reads + 1) := by
      exact (ite_or _ _ _ _).symm
    rw [poll, hstop, firstWhere]
    by_cases hs : Stops (status reads)
    · rw [if_pos hs, if_pos hs]
      rfl
    · rw [if_neg hs, if_neg hs, ih]
      cases firstWhere status Stops n (reads + 1) with
      | none =>
        show (_, _) = (_, _)
        rw [Nat.add_right_comm, Nat.add_assoc]
      | some k =>
        show (_, _) = (_, _)
        rw [show n + 1 - (k + 1 + 1) = n - (k + 1) by omega, show reads + 1 + k + 1 = reads + (k + 1) + 1 by omega]

variable (status) in
/-- What the polls of a sector come to: nothing, the last poll, or an earlier one -/
theorem poll_polls (reads : ℕ) :
    (firstWhere status Stops polls reads = none ∧ poll status polls reads = (0xFFFFFFFF, reads + polls)) ∨
      ∃ k, firstWhere status Stops polls reads = some k ∧
        ((k + 1 = polls ∧ poll status polls reads = (0, reads + k + 1)) ∨
          (k + 1 ≠ polls ∧ ∃ timeout, timeout ≠ 0 ∧ poll status polls reads = (timeout, reads + k + 1))) := by
  rw [poll_eq]
  cases hfirst : firstWhere status Stops polls reads with
  | none => exact .inl ⟨rfl, rfl⟩
  | some k =>
    obtain ⟨hlt, -, -⟩ := firstWhere_eq_some.mp hfirst
    refine .inr ⟨k, rfl, ?_⟩
    by_cases hlast : k + 1 = polls
    · left
      refine ⟨hlast, ?_⟩
      show (UInt32.ofNat (polls - (k + 1)), _) = _
      rw [hlast, Nat.sub_self]
      rfl
    · right
      refine ⟨hlast, _, ?_, rfl⟩
      have hp : polls = 100000 := rfl
      intro hzero
      have hnat := congrArg UInt32.toNat hzero
      rw [UInt32.toNat_ofNat_of_lt' (by show _ < 2 ^ 32; omega)] at hnat
      have hzero' : (0 : UInt32).toNat = 0 := rfl
      omega

/-- A sector is ready where the polls end, unless they end with `0xFF`. -/
theorem firstWhere_ready {reads k : ℕ} (h : firstWhere status Stops polls reads = some k)
    (hready : Ready (status (reads + k))) : firstWhere status Ready polls reads = some k := by
  obtain ⟨hlt, -, hbefore⟩ := firstWhere_eq_some.mp h
  exact firstWhere_eq_some.mpr ⟨hlt, hready, fun j hj hr => hbefore j hj (.inr hr)⟩

theorem firstWhere_not_ready {reads k : ℕ} (h : firstWhere status Stops polls reads = some k)
    (hlast : k + 1 = polls) (hready : ¬ Ready (status (reads + k))) : firstWhere status Ready polls reads = none := by
  obtain ⟨-, -, hbefore⟩ := firstWhere_eq_some.mp h
  refine firstWhere_eq_none.mpr fun j hj hr => ?_
  rcases Nat.lt_or_ge j k with hlt | hge
  · exact hbefore j hlt (.inr hr)
  · obtain rfl : j = k := by omega
    exact hready hr

theorem wasReady_iff {reads k : ℕ} : WasReady status (reads + k + 1) ↔ Ready (status (reads + k)) := by
  constructor
  · rintro ⟨j, hj, hr⟩
    obtain rfl : reads + k = j := by omega
    exact hr
  · exact fun hr => ⟨_, rfl, hr⟩

theorem not_wasReady {reads : ℕ} (h : firstWhere status Stops polls reads = none) :
    ¬ WasReady status (reads + polls) := by
  have hlast := firstWhere_eq_none.mp h 99999 (by decide)
  exact fun hr => hlast (.inr (wasReady_iff.mp hr))

/-! ## Writing -/

theorem writeLoop_iff (n i reads : ℕ) :
    (∀ t ∈ writeLoop status n i reads, WasReady status t.reads) ↔ WritesWell status n reads := by
  induction n generalizing i reads with
  | zero => exact iff_of_true (fun t ht => absurd ht List.not_mem_nil) trivial
  | succ n ih =>
    unfold writeLoop WritesWell
    rcases poll_polls status reads with
      ⟨hfirst, hpoll⟩ | ⟨k, hfirst, ⟨hlast, hpoll⟩ | ⟨hearly, timeout, hne, hpoll⟩⟩
    · rw [hpoll, hfirst]
      dsimp only
      rw [if_neg (by decide), List.forall_mem_cons]
      exact iff_of_false (fun h => not_wasReady hfirst h.1) id
    · rw [hpoll, hfirst]
      exact iff_of_true (fun t ht => absurd ht List.not_mem_nil) (.inl hlast)
    · rw [hpoll, hfirst]
      dsimp only
      rw [if_neg hne, List.forall_mem_cons, ih, or_iff_right hearly, wasReady_iff]

/-! ## Reading -/

theorem wasReady_of_readyAt {n i reads : ℕ} {ps : List ℕ} (h : readyAt status n reads = some ps) :
    ∀ t ∈ sectorTransfers i ps, WasReady status t.reads := by
  induction n generalizing i reads ps with
  | zero =>
    cases h
    exact fun t ht => absurd ht List.not_mem_nil
  | succ n ih =>
    obtain ⟨k, hk, hrest⟩ := Option.bind_eq_some_iff.mp h
    obtain ⟨qs, hqs, rfl⟩ := Option.map_eq_some_iff.mp hrest
    obtain ⟨-, hready, -⟩ := firstWhere_eq_some.mp hk
    exact List.forall_mem_cons.mpr ⟨wasReady_iff.mpr hready, ih hqs⟩

theorem length_sectorTransfers (i : ℕ) (ps : List ℕ) : (sectorTransfers i ps).length = ps.length := by
  induction ps generalizing i with
  | nil => rfl
  | cons p ps ih => exact congrArg (· + 1) (ih (i + 1))

theorem length_of_readyAt {n reads : ℕ} {ps : List ℕ} (h : readyAt status n reads = some ps) : ps.length = n := by
  induction n generalizing reads ps with
  | zero =>
    cases h
    rfl
  | succ n ih =>
    obtain ⟨k, -, hrest⟩ := Option.bind_eq_some_iff.mp h
    obtain ⟨qs, hqs, rfl⟩ := Option.map_eq_some_iff.mp hrest
    exact congrArg (· + 1) (ih hqs)

variable (status) in
/-- If no poll fails, the sectors before are as they were. -/
theorem readLoop_frame (device : ℕ → ℕ → UInt8) (count n i reads : ℕ) (buffer : Bytes)
    (h : (readLoop status device count n i reads buffer).2.length = n) {a : ℕ} (ha : a < 512 * i) :
    (readLoop status device count n i reads buffer).1 a = buffer a := by
  induction n generalizing i reads buffer with
  | zero => rfl
  | succ n ih =>
    rw [readLoop] at h ⊢
    generalize hpoll : poll status polls reads = polled at h ⊢
    obtain ⟨timeout, next⟩ := polled
    dsimp only at h ⊢
    split at h
    · cases h
    · rw [if_neg ‹_›]
      dsimp only at h ⊢
      rw [ih _ _ _ (Nat.succ.inj h) (by omega)]
      exact if_neg (by omega)

/-- What is claimed of the loop, from a sector on -/
def LoopOk (status : ℕ → UInt8) (device : ℕ → ℕ → UInt8) (count n i reads : ℕ) (res : Bytes × List Transfer) : Prop :=
  match readyAt status n reads with
  | some ps => res.2 = sectorTransfers i ps ∧ ∀ t ∈ res.2, ∀ k < 512, res.1 (t.offset + k) = device t.reads k
  | none => (∀ a < 512 * count, res.1 a = 0) ∧ ∀ t ∈ res.2, WasReady status t.reads

theorem LoopOk.wasReady {device : ℕ → ℕ → UInt8} {count n i reads : ℕ} {res : Bytes × List Transfer}
    (h : LoopOk status device count n i reads res) : ∀ t ∈ res.2, WasReady status t.reads := by
  unfold LoopOk at h
  cases hready : readyAt status n reads with
  | none =>
    rw [hready] at h
    exact h.2
  | some ps =>
    rw [hready] at h
    rw [h.1]
    exact wasReady_of_readyAt hready

theorem readyAt_of_ready {n reads k : ℕ} (h : firstWhere status Stops polls reads = some k)
    (hready : Ready (status (reads + k))) :
    readyAt status (n + 1) reads = (readyAt status n (reads + k + 1)).map fun ps => (reads + k + 1) :: ps := by
  rw [readyAt, firstWhere_ready h hready, Option.bind_some]

/-- A sector that was ready is where it belongs, and the rest is up to the later ones. -/
theorem loopOk_cons {device : ℕ → ℕ → UInt8} {count n i reads k : ℕ} {buffer : Bytes}
    (h : firstWhere status Stops polls reads = some k) (hready : Ready (status (reads + k))) :
    LoopOk status device count (n + 1) i reads
        ((readLoop status device count n (i + 1) (reads + k + 1) (insw device buffer (512 * i) (reads + k + 1))).1,
          ⟨reads + k + 1, 512 * i⟩ ::
            (readLoop status device count n (i + 1) (reads + k + 1)
              (insw device buffer (512 * i) (reads + k + 1))).2) ↔
      LoopOk status device count n (i + 1) (reads + k + 1)
        (readLoop status device count n (i + 1) (reads + k + 1) (insw device buffer (512 * i) (reads + k + 1))) := by
  have hframe := readLoop_frame status device count n (i + 1) (reads + k + 1)
    (insw device buffer (512 * i) (reads + k + 1))
  generalize readLoop status device count n (i + 1) (reads + k + 1)
    (insw device buffer (512 * i) (reads + k + 1)) = res at hframe ⊢
  unfold LoopOk
  rw [readyAt_of_ready h hready]
  cases hrest : readyAt status n (reads + k + 1) with
  | none => exact and_congr_right fun _ => List.forall_mem_cons.trans (and_iff_right (wasReady_iff.mpr hready))
  | some ps =>
    dsimp only [Option.map_some]
    rw [sectorTransfers, List.cons_eq_cons, and_iff_right rfl, List.forall_mem_cons]
    refine and_congr_right fun hlist => and_iff_right fun j hj => ?_
    show res.1 (512 * i + j) = device (reads + k + 1) j
    rw [hframe (by rw [hlist, length_sectorTransfers, length_of_readyAt hrest]) (by omega)]
    exact (if_pos ⟨by omega, by omega⟩).trans (by rw [Nat.add_sub_cancel_left])

theorem readLoop_iff (device : ℕ → ℕ → UInt8) (count n i reads : ℕ) (buffer : Bytes) :
    LoopOk status device count n i reads (readLoop status device count n i reads buffer) ↔
      ReadsWell status n reads := by
  induction n generalizing i reads buffer with
  | zero => exact iff_of_true ⟨rfl, fun t ht => absurd ht List.not_mem_nil⟩ trivial
  | succ n ih =>
    rw [readLoop, ReadsWell]
    rcases poll_polls status reads with
      ⟨hfirst, hpoll⟩ | ⟨k, hfirst, ⟨hlast, hpoll⟩ | ⟨hearly, timeout, hne, hpoll⟩⟩
    · -- the counter has wrapped around
      rw [hpoll, hfirst]
      dsimp only
      rw [if_neg (by decide)]
      refine iff_of_false (fun h => ?_) id
      exact not_wasReady hfirst (List.forall_mem_cons.mp h.wasReady).1
    · -- the command fails
      rw [hpoll, hfirst]
      dsimp only
      rw [if_pos rfl]
      have hzero : ∀ a < 512 * count, Bytes.zeroFill buffer 0 (count * 512) a = 0 := fun a ha =>
        Bytes.zeroFill_of_mem (Nat.zero_le a) (by omega)
      unfold LoopOk
      by_cases hready : Ready (status (reads + k))
      · rw [if_pos hready, if_pos hlast, readyAt_of_ready hfirst hready]
        cases readyAt status n (reads + k + 1) with
        | none => exact iff_of_true ⟨hzero, fun t ht => absurd ht List.not_mem_nil⟩ rfl
        | some ps => exact iff_of_false (fun h => nomatch h.1) nofun
      · have hnone : readyAt status (n + 1) reads = none := by
          rw [readyAt, firstWhere_not_ready hfirst hlast hready, Option.bind_none]
        rw [if_neg hready, hnone]
        exact iff_of_true ⟨hzero, fun t ht => absurd ht List.not_mem_nil⟩ hlast
    · rw [hpoll, hfirst]
      dsimp only
      rw [if_neg hne]
      by_cases hready : Ready (status (reads + k))
      · rw [if_pos hready, if_neg hearly, ← ih (i + 1) (reads + k + 1) (insw device buffer (512 * i) (reads + k + 1))]
        exact loopOk_cons hfirst hready
      · rw [if_neg hready]
        refine iff_of_false (fun h => ?_) hearly
        exact hready (wasReady_iff.mp (List.forall_mem_cons.mp h.wasReady).1)

theorem not_readsWell {n reads : ℕ} (h : firstWhere status Stops polls reads = none) :
    ¬ ReadsWell status (n + 1) reads := by
  intro hwell
  rw [ReadsWell, h] at hwell
  exact hwell

theorem readOk_iff (device : ℕ → ℕ → UInt8) (driveSel : UInt8) (lba : UInt32) (count : UInt8) (buffer : Bytes) :
    ReadOk status device count.toNat (ideReadSectors status device driveSel lba count buffer) ↔
      ReadsWell status count.toNat 0 :=
  readLoop_iff device count.toNat count.toNat 0 0 buffer

end

/-- On which streams of status bytes the disk driver does what it should -/
theorem timeouts_iff (status : ℕ → UInt8) (device : ℕ → ℕ → UInt8) (driveSel : UInt8) (lba : UInt32) (count : UInt8)
    (buffer : Bytes) :
    (ReadOk status device count.toNat (ideReadSectors status device driveSel lba count buffer) ↔
        ReadsWell status count.toNat 0) ∧
      (WriteOk status (ideWriteSectors status driveSel lba count buffer) ↔ WritesWell status count.toNat 0) :=
  ⟨readOk_iff device driveSel lba count buffer, writeLoop_iff count.toNat 0 0⟩

/-- A drive that is never ready: what it gives is taken for the sector. -/
theorem not_timeouts :
    ¬ ∀ status device driveSel lba count buffer,
      ReadOk status device count.toNat (ideReadSectors status device driveSel lba count buffer) := by
  intro h
  -- the status is only known to be busy, so that nothing computes the polls
  have hstops : ¬ Stops 0x80 := by decide
  obtain ⟨status, hbusy⟩ : ∃ status : ℕ → UInt8, ∀ reads, ¬ Stops (status reads) := ⟨fun _ => 0x80, fun _ => hstops⟩
  have hnone : firstWhere status Stops polls 0 = none := firstWhere_eq_none.mpr fun j _ => hbusy (0 + j)
  have hread := h status (fun _ _ => 1) 0xE0 0 1 Bytes.zeros
  rw [readOk_iff] at hread
  exact not_readsWell hnone hread

end Ide

end Sandflea
