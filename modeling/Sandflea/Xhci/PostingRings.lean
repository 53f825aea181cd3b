import Sandflea.Xhci.Rings
import Sandflea.Lib.Runs

/-!
# The command ring and the transfer rings, lap after lap

The controller follows a ring that the driver posts to: it takes a block whose cycle bit is its consumer cycle
state, and at the link TRB in the last slot it goes back to the first one and toggles its state. The driver
never toggles its own (`cmd_ccs`, `transfer_ccs`) and never writes the link TRB again, so the two agree in the
first lap and in no later one. A command ring is left before the end of the lap: the slot that
`cmd_ring_enqueue` looks at then is the first one, which has the cycle bit of the lap, and no command is
accepted any more.
-/

namespace Sandflea.Xhci

/-! ## The controller -/

/-- Where the controller is in a ring, with its consumer cycle state -/
structure Consumer where
  index : ℕ
  ccs : Bool
deriving DecidableEq

namespace Consumer

/-- The controller behind the slot it is at: a link TRB leads to the start of the ring. -/
def pass (ring : ℕ → Trb) (c : Consumer) : Consumer :=
  if (ring c.index).type = trbTypeLink then
    ⟨0, if (ring c.index).toggles then !c.ccs else c.ccs⟩
  else ⟨c.index + 1, c.ccs⟩

/-- The controller passes the slot it is at if the cycle bit there is its state, and executes the TRB unless it
is a link. -/
def fetch (ring : ℕ → Trb) (c : Consumer) : Option Trb × Consumer :=
  if (ring c.index).cycle ≠ c.ccs then (none, c)
  else if (ring c.index).type = trbTypeLink then (none, c.pass ring)
  else (some (ring c.index), c.pass ring)

/-- The cycle state with which the controller gets to a slot: the link TRB is on the way to those behind it. -/
def cycleAt (c : Consumer) (i : ℕ) : Bool := if c.index ≤ i then c.ccs else !c.ccs

/-- In a ring whose link TRB is in the last slot and toggles, that is how the controller gets there. -/
theorem pass_iterate {ring : ℕ → Trb} {last : ℕ} (hlink : (ring last).type = trbTypeLink)
    (htoggles : (ring last).toggles = true) (hother : ∀ i < last, (ring i).type ≠ trbTypeLink)
    (c : Consumer) (hc : c.index ≤ last) {i : ℕ} (hi : i ≤ last) :
    ∃ j, (pass ring)^[j] c = ⟨i, c.cycleAt i⟩ := by
  -- from a slot to a later one of the same lap
  have hahead : ∀ (d a : ℕ) (ccs : Bool), a + d ≤ last → (pass ring)^[d] ⟨a, ccs⟩ = ⟨a + d, ccs⟩ := by
    intro d
    induction d with
    | zero => intros; rfl
    | succ d ih =>
      intro a ccs hle
      have hnot : pass ring ⟨a, ccs⟩ = ⟨a + 1, ccs⟩ := if_neg (hother a (by omega))
      rw [Function.iterate_succ_apply, hnot, ih (a + 1) ccs (by omega), Nat.add_right_comm, Nat.add_assoc]
  unfold cycleAt
  by_cases hle : c.index ≤ i
  · refine ⟨i - c.index, ?_⟩
    rw [if_pos hle]
    calc (pass ring)^[i - c.index] ⟨c.index, c.ccs⟩
        = ⟨c.index + (i - c.index), c.ccs⟩ := hahead _ _ _ (by omega)
      _ = ⟨i, c.ccs⟩ := by rw [Nat.add_sub_cancel' hle]
  · have hlast : (pass ring)^[last - c.index] ⟨c.index, c.ccs⟩ = ⟨last, c.ccs⟩ := by
      rw [hahead _ _ _ (by omega), Nat.add_sub_cancel' hc]
    refine ⟨i + (1 + (last - c.index)), ?_⟩
    rw [if_neg hle, Function.iterate_add_apply, Function.iterate_add_apply]
    calc (pass ring)^[i] ((pass ring)^[1] ((pass ring)^[last - c.index] ⟨c.index, c.ccs⟩))
        = (pass ring)^[i] (pass ring ⟨last, c.ccs⟩) := by rw [hlast]; rfl
      _ = (pass ring)^[i] ⟨0, !c.ccs⟩ := by
          unfold pass
          rw [if_pos hlink, if_pos htoggles]
      _ = ⟨i, !c.ccs⟩ := by rw [hahead i 0 _ (by omega), Nat.zero_add]

end Consumer

/-! ## Both sides -/

/-- A ring with its two sides: what was posted, each TRB with its slot, what was executed, and how many posts
were refused. -/
structure PostingSystem where
  driver : PostingRing
  consumer : Consumer
  posted : List (ℕ × Trb)
  executed : List Trb
  refused : ℕ

inductive PostingStep (W : Type) where
  | post (work : W)
  | fetch
deriving DecidableEq

/-- What the driver posts to a command ring -/
structure Command where
  param : BitVec 64
  status : BitVec 32
  trbType : CommandType
  slotId : BitVec 32
deriving DecidableEq

/-- A command is posted. -/
def postCommand (r : PostingRing) (c : Command) : Option PostingRing :=
  xhciPostCommand r c.param c.status c.trbType c.slotId

/-- A TRB of a transfer is posted; nothing is refused here. -/
def postStage (r : PostingRing) (stage : Stage) : Option PostingRing := some (r.write stage)

namespace PostingSystem

variable {W : Type}

def step (post : PostingRing → W → Option PostingRing) (s : PostingSystem) : PostingStep W → PostingSystem
  | .post work =>
    match post s.driver work with
    | none => { s with refused := s.refused + 1 }
    | some r => { s with
        driver := r
        posted := s.posted ++ [(s.driver.enqueue, r.ring s.driver.enqueue)] }
  | .fetch =>
    let (trb, consumer) := s.consumer.fetch s.driver.ring
    { s with consumer := consumer, executed := s.executed ++ trb.toList }

/-- The ring as it was set up; the controller starts with the first slot and cycle state 1. -/
def start (driver : PostingRing) : PostingSystem where
  driver := driver
  consumer := ⟨0, true⟩
  posted := []
  executed := []
  refused := 0

/-- What was posted and not executed yet -/
def pending (s : PostingSystem) : List (ℕ × Trb) := s.posted.drop s.executed.length

/-- A ring of `count` slots has no fault: no post was refused; a TRB that is pending is in its slot, with the
cycle state with which the controller gets there; a slot that has none has the opposite; and the link TRB has
the state of the controller when it is reached. -/
structure Sound (count : ℕ) (s : PostingSystem) : Prop where
  accepted : s.refused = 0
  pending : ∀ p ∈ s.pending, s.driver.ring p.1 = p.2 ∧ p.2.cycle = s.consumer.cycleAt p.1
  free : ∀ i < count - 1, (∀ p ∈ s.pending, p.1 ≠ i) →
    (s.driver.ring i).cycle ≠ s.consumer.cycleAt i
  link : s.consumer.index = count - 1 → (s.driver.ring (count - 1)).cycle = s.consumer.ccs

theorem step_post_some (post : PostingRing → W → Option PostingRing) {s : PostingSystem} {work : W}
    {r : PostingRing} (h : post s.driver work = some r) :
    s.step post (.post work) = { s with
      driver := r
      posted := s.posted ++ [(s.driver.enqueue, r.ring s.driver.enqueue)] } := by
  show (match post s.driver work with
    | none => { s with refused := s.refused + 1 }
    | some r => { s with
        driver := r
        posted := s.posted ++ [(s.driver.enqueue, r.ring s.driver.enqueue)] }) = _
  rw [h]

theorem step_post_none (post : PostingRing → W → Option PostingRing) {s : PostingSystem} {work : W}
    (h : post s.driver work = none) :
    s.step post (.post work) = { s with refused := s.refused + 1 } := by
  show (match post s.driver work with
    | none => { s with refused := s.refused + 1 }
    | some r => { s with
        driver := r
        posted := s.posted ++ [(s.driver.enqueue, r.ring s.driver.enqueue)] }) = _
  rw [h]

/-- A control transfer is a run of posts. -/
theorem runAll_post_stages (stages : List Stage) (s : PostingSystem) :
    (Runs.runAll (step postStage) s (stages.map .post)).driver =
      stages.foldl PostingRing.write s.driver := by
  induction stages generalizing s with
  | nil => rfl
  | cons stage stages ih => exact ih _

/-! ## The first lap -/

/-- All posts so far were of the first lap, and the controller has executed some of them. -/
structure FirstLap (count : ℕ) (s : PostingSystem) : Prop where
  slots : 2 ≤ count
  accepted : s.refused = 0
  ccs : s.driver.ccs = true
  within : s.posted.length ≤ count - 1
  enqueue : s.driver.enqueue = if s.posted.length = count - 1 then 0 else s.posted.length
  posted : s.posted = (List.range s.posted.length).map fun k => (k, s.driver.ring k)
  written : ∀ k < s.posted.length, (s.driver.ring k).cycle = true ∧ (s.driver.ring k).type ≠ trbTypeLink
  fresh : ∀ k, s.posted.length ≤ k → k < count - 1 → (s.driver.ring k).cycle = false
  last : (s.driver.ring (count - 1)).cycle = true ∧ (s.driver.ring (count - 1)).type = trbTypeLink ∧
    (s.driver.ring (count - 1)).toggles = true
  executed : s.executed.length ≤ s.posted.length
  consumer : s.consumer = ⟨s.executed.length, true⟩ ∨
    s.executed.length = count - 1 ∧ s.consumer = ⟨0, false⟩

variable {count : ℕ} {s : PostingSystem}

/-- The posts of the first lap are in the slots in order. -/
theorem FirstLap.getElem_posted (h : FirstLap count s) {k : ℕ} (hk : k < s.posted.length) :
    s.posted[k] = (k, s.driver.ring k) := by
  have := List.getElem_of_eq h.posted hk
  rw [this, List.getElem_map, List.getElem_range]

/-- What is pending in the first lap, and where -/
theorem FirstLap.mem_pending (h : FirstLap count s) {p : ℕ × Trb} :
    p ∈ s.pending ↔ s.executed.length ≤ p.1 ∧ p.1 < s.posted.length ∧ p.2 = s.driver.ring p.1 := by
  unfold PostingSystem.pending
  rw [List.mem_drop_iff_getElem]
  constructor
  · rintro ⟨k, hk, rfl⟩
    rw [h.getElem_posted]
    exact ⟨Nat.le_add_right _ _, by omega, rfl⟩
  · rintro ⟨hlo, hhi, hp⟩
    refine ⟨p.1 - s.executed.length, by omega, ?_⟩
    rw [h.getElem_posted, Nat.add_sub_cancel' hlo, ← hp]

/-- In the first lap, and at its end, there is no fault. -/
theorem FirstLap.sound (h : FirstLap count s) : s.Sound count := by
  have hexecuted := h.executed
  have hwithin := h.within
  have hbit : ∀ i < count - 1, (s.driver.ring i).cycle = decide (i < s.posted.length) := by
    intro i hi
    by_cases hlt : i < s.posted.length
    · rw [(h.written i hlt).1, decide_eq_true hlt]
    · rw [h.fresh i (by omega) hi, decide_eq_false hlt]
  refine ⟨h.accepted, ?_, ?_, ?_⟩
  · intro p hp
    obtain ⟨hlo, hhi, hp⟩ := h.mem_pending.mp hp
    refine ⟨hp.symm, ?_⟩
    rw [hp, (h.written p.1 hhi).1]
    rcases h.consumer with hc | ⟨hall, hc⟩
    · rw [hc]
      exact (if_pos hlo).symm
    · omega
  · intro i hi hfree
    rw [hbit i hi]
    rcases h.consumer with hc | ⟨hall, hc⟩
    · rw [hc]
      unfold Consumer.cycleAt
      -- a slot that was executed is reached in the next lap
      by_cases hlt : i < s.executed.length
      · rw [if_neg (by simp; omega), decide_eq_true (by omega)]
        exact Bool.false_ne_true.symm
      · have hnot : ¬i < s.posted.length := fun hposted =>
          hfree (i, s.driver.ring i) (h.mem_pending.mpr ⟨by simp; omega, hposted, rfl⟩) rfl
        rw [if_pos (by simp; omega), decide_eq_false hnot]
        exact Bool.false_ne_true
    · rw [hc, decide_eq_true (by omega)]
      exact Bool.false_ne_true.symm
  · intro hindex
    rcases h.consumer with hc | ⟨hall, hc⟩
    · rw [hc, h.last.1]
    · rw [hc] at hindex ⊢
      have hindex : 0 = count - 1 := hindex
      have hslots := h.slots
      omega

/-- The controller executes the next TRB that was posted. -/
theorem FirstLap.fetch_of_lt (h : FirstLap count s) (hlt : s.executed.length < s.posted.length) :
    s.consumer.fetch s.driver.ring =
      (some (s.driver.ring s.executed.length), ⟨s.executed.length + 1, true⟩) := by
  obtain ⟨hcycle, htype⟩ := h.written _ hlt
  have hwithin := h.within
  rcases h.consumer with hc | ⟨hall, -⟩
  · unfold Consumer.fetch Consumer.pass
    rw [hc, if_neg (not_not.mpr hcycle), if_neg htype, if_neg htype]
  · omega

/-- The controller goes on in the first lap: it executes the next TRB, follows the link, or waits. -/
theorem FirstLap.fetch (h : FirstLap count s) (post : PostingRing → W → Option PostingRing) :
    FirstLap count (s.step post .fetch) := by
  have hslots := h.slots
  have hwithin := h.within
  have hexecuted := h.executed
  have hstep : s.step post .fetch = { s with
      consumer := (s.consumer.fetch s.driver.ring).2
      executed := s.executed ++ (s.consumer.fetch s.driver.ring).1.toList } := rfl
  rw [hstep]
  rcases h.consumer with hc | ⟨hall, hc⟩
  · by_cases hlt : s.executed.length < s.posted.length
    · -- the TRB it is at was posted
      rw [h.fetch_of_lt hlt]
      have hlen : (s.executed ++ [s.driver.ring s.executed.length]).length = s.executed.length + 1 :=
        List.length_append
      refine ⟨hslots, h.accepted, h.ccs, hwithin, h.enqueue, h.posted, h.written, h.fresh, h.last, ?_,
        .inl ?_⟩
      · show (s.executed ++ [s.driver.ring s.executed.length]).length ≤ s.posted.length
        omega
      · show Consumer.mk _ _ = ⟨(s.executed ++ [s.driver.ring s.executed.length]).length, _⟩
        rw [hlen]
    · by_cases hlast : s.executed.length = count - 1
      · -- it is at the link
        obtain ⟨hcycle, htype, htoggles⟩ := h.last
        rw [← hlast] at hcycle htype htoggles
        have hfetch : s.consumer.fetch s.driver.ring = (none, ⟨0, false⟩) := by
          unfold Consumer.fetch Consumer.pass
          rw [hc, if_neg (not_not.mpr hcycle), if_pos htype, if_pos htype, if_pos htoggles]
          rfl
        rw [hfetch, Option.toList_none, List.append_nil]
        exact ⟨hslots, h.accepted, h.ccs, hwithin, h.enqueue, h.posted, h.written, h.fresh, h.last,
          hexecuted, .inr ⟨hlast, rfl⟩⟩
      · -- it waits for the next post
        have hcycle := h.fresh s.executed.length (by omega) (by omega)
        have hfetch : s.consumer.fetch s.driver.ring = (none, s.consumer) := by
          unfold Consumer.fetch
          rw [hc, if_pos (by rw [hcycle]; exact Bool.false_ne_true)]
        rw [hfetch, Option.toList_none, List.append_nil]
        exact h
  · -- it has followed the link and waits at the first slot, which has the bit of the first lap
    obtain ⟨hcycle, -⟩ := h.written 0 (by omega)
    have hfetch : s.consumer.fetch s.driver.ring = (none, s.consumer) := by
      unfold Consumer.fetch
      rw [hc, if_pos (by rw [hcycle]; exact Bool.false_ne_true.symm)]
    rw [hfetch, Option.toList_none, List.append_nil]
    exact h

/-- A TRB that is posted in the first lap -/
theorem FirstLap.post (h : FirstLap count s) (post : PostingRing → W → Option PostingRing) {work : W}
    {t : Trb} (hroom : s.posted.length < count - 1) (hcycle : t.cycle = true)
    (htype : t.type ≠ trbTypeLink)
    (hpost : post s.driver work = some { s.driver with
      ring := Function.update s.driver.ring s.driver.enqueue t
      enqueue := if s.posted.length + 1 = count - 1 then 0 else s.posted.length + 1 }) :
    FirstLap count (s.step post (.post work)) := by
  have henqueue : s.driver.enqueue = s.posted.length := by rw [h.enqueue, if_neg (by omega)]
  have hexecuted := h.executed
  have hstep : s.step post (.post work) = { s with
      driver := { s.driver with
        ring := Function.update s.driver.ring s.posted.length t
        enqueue := if s.posted.length + 1 = count - 1 then 0 else s.posted.length + 1 }
      posted := s.posted ++ [(s.posted.length, t)] } := by
    rw [step_post_some post hpost, henqueue]
    show PostingSystem.mk _ _ (s.posted ++ [(_, Function.update s.driver.ring s.posted.length t _)]) _ _ = _
    rw [Function.update_self]
  have hlen : (s.posted ++ [(s.posted.length, t)]).length = s.posted.length + 1 := List.length_append
  have hne : ∀ k, k ≠ s.posted.length →
      Function.update s.driver.ring s.posted.length t k = s.driver.ring k :=
    fun k hk => Function.update_of_ne hk _ _
  rw [hstep]
  refine ⟨h.slots, h.accepted, h.ccs, ?_, ?_, ?_, ?_, ?_, ?_, ?_, ?_⟩
  · show (s.posted ++ [(s.posted.length, t)]).length ≤ count - 1
    omega
  · show _ = if (s.posted ++ [(s.posted.length, t)]).length = count - 1 then 0 else
      (s.posted ++ [(s.posted.length, t)]).length
    rw [hlen]
  · show s.posted ++ [(s.posted.length, t)] =
      (List.range (s.posted ++ [(s.posted.length, t)]).length).map _
    rw [hlen, List.range_succ, List.map_append, List.map_singleton]
    show _ = _ ++ [(s.posted.length, Function.update s.driver.ring s.posted.length t s.posted.length)]
    rw [Function.update_self]
    refine congrArg (· ++ _) (h.posted.trans (List.map_congr_left fun k hk => ?_))
    have hk := List.mem_range.mp hk
    show (k, s.driver.ring k) = (k, Function.update s.driver.ring s.posted.length t k)
    rw [hne k (by omega)]
  · intro k hk
    have hk : k < (s.posted ++ [(s.posted.length, t)]).length := hk
    show (Function.update s.driver.ring s.posted.length t k).cycle = true ∧
      (Function.update s.driver.ring s.posted.length t k).type ≠ _
    by_cases hlast : k = s.posted.length
    · rw [hlast, Function.update_self]
      exact ⟨hcycle, htype⟩
    · rw [hne k hlast]
      exact h.written k (by omega)
  · intro k hk hlt
    have hk : (s.posted ++ [(s.posted.length, t)]).length ≤ k := hk
    show (Function.update s.driver.ring s.posted.length t k).cycle = false
    rw [hne k (by omega)]
    exact h.fresh k (by omega) hlt
  · show (Function.update s.driver.ring s.posted.length t (count - 1)).cycle = true ∧
      (Function.update s.driver.ring s.posted.length t (count - 1)).type = _ ∧
      (Function.update s.driver.ring s.posted.length t (count - 1)).toggles = true
    rw [hne _ (by omega)]
    exact h.last
  · show s.executed.length ≤ (s.posted ++ [(s.posted.length, t)]).length
    omega
  · exact h.consumer

/-- A ring before the first post -/
theorem firstLap_start (hslots : 2 ≤ count) {driver : PostingRing} (hccs : driver.ccs = true)
    (henqueue : driver.enqueue = 0) (hfresh : ∀ k < count - 1, (driver.ring k).cycle = false)
    {base : BitVec 64} (hlast : driver.ring (count - 1) = linkTrb base true) :
    FirstLap count (start driver) := by
  refine ⟨hslots, rfl, hccs, Nat.zero_le _, ?_, rfl, ?_, fun k _ hk => hfresh k hk, ?_, le_rfl, .inl rfl⟩
  · show driver.enqueue = if 0 = count - 1 then 0 else 0
    rw [henqueue, ite_self]
  · intro k hk
    exact absurd hk (Nat.not_lt_zero k)
  · show (driver.ring _).cycle = true ∧ (driver.ring _).type = trbTypeLink ∧
      (driver.ring _).toggles = true
    rw [hlast]
    exact ⟨cycle_linkTrb _ _, type_linkTrb _ _, toggles_linkTrb _ _⟩

/-! ## How far the lap goes -/

/-- The condition of a post: the controller has executed enough of what was posted. -/
def Roomy (capacity : ℕ) (s : PostingSystem) : PostingStep W → Prop
  | .post _ => s.pending.length < capacity
  | .fetch => True

/-- The condition of a post: it is one of the first `bound` ones. -/
def PostsBelow (bound : ℕ) (s : PostingSystem) : PostingStep W → Prop
  | .post _ => s.posted.length < bound
  | .fetch => True

instance (capacity : ℕ) (s : PostingSystem) : ∀ a : PostingStep W, Decidable (s.Roomy capacity a)
  | .post _ => inferInstanceAs (Decidable (_ < _))
  | .fetch => .isTrue trivial

instance (bound : ℕ) (s : PostingSystem) : ∀ a : PostingStep W, Decidable (s.PostsBelow bound a)
  | .post _ => inferInstanceAs (Decidable (_ < _))
  | .fetch => .isTrue trivial

/-- Of a ring whose posts go well as long as they are below a bound, and do harm at the bound: every state of a
run is sound if and only if all posts are below the bound. -/
theorem always_sound_iff {post : PostingRing → W → Option PostingRing} {bound capacity : ℕ}
    (hgood : ∀ s work, FirstLap count s → s.posted.length < bound → FirstLap count (s.step post (.post work)))
    (hlen : ∀ s work, FirstLap count s → s.posted.length < bound →
      (s.step post (.post work)).posted.length ≤ bound)
    (hbad : ∀ s work, FirstLap count s → s.posted.length = bound → s.pending.length < capacity →
      ¬(s.step post (.post work)).Sound count)
    (h : FirstLap count s) (hbound : s.posted.length ≤ bound) {as : List (PostingStep W)}
    (hroom : Runs.Along (step post) (Roomy capacity) s as) :
    Runs.Always (step post) (Sound count) s as ↔ Runs.Along (step post) (PostsBelow bound) s as := by
  have hkeep : ∀ (s : PostingSystem) (a : PostingStep W), FirstLap count s ∧ s.posted.length ≤ bound →
      s.PostsBelow bound a → FirstLap count (s.step post a) ∧ (s.step post a).posted.length ≤ bound := by
    rintro s a ⟨hs, hle⟩ ha
    cases a with
    | post work => exact ⟨hgood s work hs ha, hlen s work hs ha⟩
    | fetch => exact ⟨hs.fetch post, hle⟩
  constructor
  · intro hP
    refine Runs.along_of_always_inv (I := fun s : PostingSystem => FirstLap count s ∧ s.posted.length ≤ bound)
      ?_ ?_ ⟨h, hbound⟩ hroom hP
    · rintro s a ⟨hs, hle⟩ ha hnext
      cases a with
      | post work =>
        refine lt_of_le_of_ne hle fun heq => ?_
        exact hbad s work hs heq ha hnext
      | fetch => trivial
    · intro s a hs _ ha
      exact hkeep s a hs ha
  · intro hC
    exact (Runs.always_of_along (P := fun s : PostingSystem => FirstLap count s ∧ s.posted.length ≤ bound)
      hkeep ⟨h, hbound⟩ hC).mono fun s hs => hs.1.sound

/-! ## Transfer rings -/

theorem firstLap_transferRing {phys : ℕ} {page : ℕ → Trb} {driver : PostingRing}
    (h : xhciTransferRingInit phys page = some driver) :
    FirstLap xhciTransferRingTrbs (start driver) := by
  unfold xhciTransferRingInit at h
  by_cases hp : phys = 0
  · rw [if_pos hp] at h
    cases h
  rw [if_neg hp] at h
  cases h
  have hlast := Function.update_self (xhciTransferRingTrbs - 1) (linkTrb (BitVec.ofNat 64 phys) true)
    (fillSlots page xhciTransferRingTrbs 0)
  refine firstLap_start (by decide) rfl rfl ?_ hlast
  intro k hk
  have hne : k ≠ xhciTransferRingTrbs - 1 := by omega
  show Trb.cycle (Function.update (fillSlots page xhciTransferRingTrbs 0) _ _ k) = false
  rw [Function.update_of_ne hne, fillSlots_apply, if_pos hk]
  rfl

theorem cycle_trb (stage : Stage) (ccs : Bool) : (stage.trb ccs).cycle = ccs := by
  unfold Trb.cycle
  rw [control_trb]
  exact (control_stage stage ccs).1

theorem type_trb (stage : Stage) (ccs : Bool) : (stage.trb ccs).type ≠ trbTypeLink := by
  unfold Trb.type
  rw [control_trb]
  exact (control_stage stage ccs).2

theorem trEnqNext_eq {enq : ℕ} (h : enq < xhciTransferRingTrbs - 1) :
    trEnqNext enq = if enq + 1 = xhciTransferRingTrbs - 1 then 0 else enq + 1 := by
  unfold trEnqNext
  rw [Nat.mod_eq_of_lt (by omega)]

theorem FirstLap.post_stage (h : FirstLap xhciTransferRingTrbs s) (stage : Stage)
    (hroom : s.posted.length < xhciTransferRingTrbs - 1) :
    FirstLap xhciTransferRingTrbs (s.step postStage (.post stage)) := by
  have henqueue : s.driver.enqueue = s.posted.length := by rw [h.enqueue, if_neg (by omega)]
  refine h.post postStage hroom (cycle_trb stage true) (type_trb stage true) ?_
  unfold postStage PostingRing.write
  rw [trEnqNext_eq (by omega), henqueue, h.ccs]
  exact congrArg (fun ccs => some (PostingRing.mk _ _ ccs)) h.ccs.symm

/-- When the lap is over, a post goes into the first slot with the cycle bit of the first lap, but the controller
gets there with the other state. -/
theorem FirstLap.not_sound_of_post_stage (h : FirstLap xhciTransferRingTrbs s) (stage : Stage)
    (hfull : s.posted.length = xhciTransferRingTrbs - 1)
    (hroom : s.pending.length < xhciTransferRingTrbs - 1) :
    ¬(s.step postStage (.post stage)).Sound xhciTransferRingTrbs := by
  intro hsound
  have henqueue : s.driver.enqueue = 0 := by rw [h.enqueue, if_pos hfull]
  have hexecuted : 0 < s.executed.length := by
    have : s.pending.length = s.posted.length - s.executed.length := List.length_drop
    omega
  have hmem : (0, stage.trb true) ∈ (s.step postStage (.post stage)).pending := by
    rw [step_post_some postStage rfl]
    show _ ∈ (s.posted ++ [(s.driver.enqueue, (s.driver.write stage).ring s.driver.enqueue)]).drop _
    rw [List.drop_append_of_le_length h.executed]
    refine List.mem_append_right _ (List.mem_singleton.mpr ?_)
    show (0, stage.trb true) =
      (s.driver.enqueue, Function.update s.driver.ring s.driver.enqueue (stage.trb s.driver.ccs) _)
    rw [Function.update_self, henqueue, h.ccs]
  have hcycle := (hsound.pending _ hmem).2
  rw [cycle_trb, step_post_some postStage rfl] at hcycle
  have hcycle : true = s.consumer.cycleAt 0 := hcycle
  rcases h.consumer with hc | ⟨-, hc⟩
  · rw [hc] at hcycle
    have hnot : ¬s.executed.length ≤ 0 := Nat.not_le.mpr hexecuted
    have hcycle : true = if s.executed.length ≤ 0 then true else !true := hcycle
    rw [if_neg hnot] at hcycle
    cases hcycle
  · rw [hc] at hcycle
    cases hcycle

/-! ## The command ring -/

theorem firstLap_cmdRing {phys : ℕ} {page : ℕ → Trb} {driver : PostingRing}
    (h : xhciCmdRingInit phys page = some driver) : FirstLap xhciCmdRingTrbs (start driver) := by
  unfold xhciCmdRingInit at h
  by_cases hp : phys = 0
  · rw [if_pos hp] at h
    cases h
  rw [if_neg hp] at h
  cases h
  have hlast := ringInitFull_last page xhciCmdRingTrbs true (BitVec.ofNat 64 phys)
  refine firstLap_start (by decide) rfl rfl ?_ hlast
  intro k hk
  show Trb.cycle (ringInitFull page xhciCmdRingTrbs true _ k) = false
  rw [ringInitFull_of_lt hk]
  rfl

/-- A command is accepted as long as the slot behind it is no slot that was written in this lap. -/
theorem FirstLap.post_command (h : FirstLap xhciCmdRingTrbs s) (c : Command)
    (hroom : s.posted.length < xhciCmdRingTrbs - 2) :
    FirstLap xhciCmdRingTrbs (s.step postCommand (.post c)) := by
  have htrbs : xhciCmdRingTrbs = 256 := rfl
  have henqueue : s.driver.enqueue = s.posted.length := by rw [h.enqueue, if_neg (by omega)]
  obtain ⟨hcycle, htype⟩ := control_command c.trbType c.slotId true
  refine h.post postCommand (by omega) (t := ⟨c.param, c.status, _⟩) hcycle ?_ ?_
  · intro hlink
    have hcode : c.trbType.code = trbTypeLink := htype.symm.trans hlink
    revert hcode
    cases c.trbType <;> decide
  · unfold postCommand xhciPostCommand cmdRingEnqueue
    have hnext : (s.driver.enqueue + 1) % xhciCmdRingTrbs = s.posted.length + 1 := by
      rw [henqueue, Nat.mod_eq_of_lt (by omega)]
    have hfresh := h.fresh (s.posted.length + 1) (by omega) (by omega)
    have hne : ¬s.posted.length + 1 = xhciCmdRingTrbs - 1 := by omega
    simp only [hnext, if_neg hne]
    rw [if_neg (by rw [hfresh, h.ccs]; exact Bool.false_ne_true), h.ccs]

/-- Commands that are posted one after the other, as many as the lap has slots for, are all in the ring. -/
theorem FirstLap.post_commands (h : FirstLap xhciCmdRingTrbs s) (cs : List Command)
    (hroom : s.posted.length + cs.length ≤ xhciCmdRingTrbs - 2) :
    FirstLap xhciCmdRingTrbs (Runs.runAll (step postCommand) s (cs.map .post)) ∧
      (Runs.runAll (step postCommand) s (cs.map .post)).posted.length = s.posted.length + cs.length ∧
      (Runs.runAll (step postCommand) s (cs.map .post)).executed = s.executed ∧
      Runs.Along (step postCommand) (Roomy (xhciCmdRingTrbs - 2)) s (cs.map .post) := by
  induction cs generalizing s with
  | nil => exact ⟨h, rfl, rfl, trivial⟩
  | cons c cs ih =>
    have hlen : (c :: cs).length = cs.length + 1 := rfl
    have hlt : s.posted.length < xhciCmdRingTrbs - 2 := by omega
    have hnext := h.post_command c hlt
    have hpending : s.pending.length = s.posted.length - s.executed.length := List.length_drop
    cases hpost : postCommand s.driver c with
    | none =>
      have haccepted := hnext.accepted
      rw [step_post_none postCommand hpost] at haccepted
      exact absurd haccepted (Nat.succ_ne_zero _)
    | some r =>
      have hstep := step_post_some postCommand hpost
      have hposted : (s.step postCommand (.post c)).posted.length = s.posted.length + 1 := by
        rw [hstep]
        exact List.length_append
      obtain ⟨hfirst, hcount, hexecuted, halong⟩ := ih hnext (by omega)
      refine ⟨hfirst, ?_, ?_, ?_, halong⟩
      · rw [List.map_cons, Runs.runAll_cons, hcount]
        omega
      · rw [List.map_cons, Runs.runAll_cons, hexecuted, hstep]
      · show s.pending.length < xhciCmdRingTrbs - 2
        omega

/-- At the end of the lap the slot the driver looks at is the first one, and it has the bit of the lap. -/
theorem FirstLap.post_command_full (h : FirstLap xhciCmdRingTrbs s) (c : Command)
    (hfull : s.posted.length = xhciCmdRingTrbs - 2) : postCommand s.driver c = none := by
  have htrbs : xhciCmdRingTrbs = 256 := rfl
  have henqueue : s.driver.enqueue = s.posted.length := by rw [h.enqueue, if_neg (by omega)]
  unfold postCommand xhciPostCommand cmdRingEnqueue
  have hnext : (s.driver.enqueue + 1) % xhciCmdRingTrbs = xhciCmdRingTrbs - 1 := by
    rw [henqueue, Nat.mod_eq_of_lt (by omega)]
    omega
  have hwritten := (h.written 0 (by omega)).1
  simp only [hnext]
  rw [if_pos trivial, h.ccs, if_pos hwritten]

theorem FirstLap.not_sound_of_post_command (h : FirstLap xhciCmdRingTrbs s) (c : Command)
    (hfull : s.posted.length = xhciCmdRingTrbs - 2) :
    ¬(s.step postCommand (.post c)).Sound xhciCmdRingTrbs := by
  intro hsound
  have haccepted := hsound.accepted
  rw [step_post_none postCommand (h.post_command_full c hfull)] at haccepted
  exact Nat.succ_ne_zero _ haccepted

/-- Commands that fill the ring, and then the controller executes one of them: there is room again, but what is
posted next is refused. -/
theorem FirstLap.refused_after_lap (h : FirstLap xhciCmdRingTrbs s) (cs : List Command) (c : Command)
    (hcs : s.posted.length + cs.length = xhciCmdRingTrbs - 2)
    (hexecuted : s.executed.length < xhciCmdRingTrbs - 2) :
    Runs.Along (step postCommand) (Roomy (xhciCmdRingTrbs - 2)) s (cs.map .post ++ [.fetch, .post c]) ∧
      ¬Runs.Always (step postCommand) (Sound xhciCmdRingTrbs) s (cs.map .post ++ [.fetch, .post c]) := by
  obtain ⟨hfirst, hposted, hsame, hroomy⟩ := h.post_commands cs hcs.le
  have hlast := @Runs.runAll_append _ _ (step postCommand) s (cs.map .post) [.fetch, .post c]
  obtain ⟨full, hfull⟩ : ∃ full, Runs.runAll (step postCommand) s (cs.map .post) = full := ⟨_, rfl⟩
  rw [hfull] at hfirst hposted hsame hlast
  have hfetch := hfirst.fetch_of_lt (by rw [hsame]; omega)
  have hpending : (full.step postCommand .fetch).pending.length =
      full.posted.length - (full.executed.length + 1) := by
    show (List.drop (full.executed ++ (full.consumer.fetch full.driver.ring).1.toList).length
      full.posted).length = _
    rw [hfetch, List.length_drop]
    exact congrArg (full.posted.length - ·) List.length_append
  refine ⟨hroomy.append ?_, fun hsound => ?_⟩
  · rw [hfull]
    refine ⟨trivial, ?_, trivial⟩
    show (full.step postCommand .fetch).pending.length < xhciCmdRingTrbs - 2
    omega
  · have hend := hsound.last
    rw [hlast] at hend
    exact (hfirst.fetch postCommand).not_sound_of_post_command c (hposted.trans hcs) hend

/-! ## Any number of posts -/

theorem length_posted_le (post : PostingRing → W → Option PostingRing) (s : PostingSystem) (work : W) :
    (s.step post (.post work)).posted.length ≤ s.posted.length + 1 := by
  cases hpost : post s.driver work with
  | none =>
    rw [step_post_none post hpost]
    exact Nat.le_succ _
  | some r =>
    rw [step_post_some post hpost]
    exact List.length_append.le

/-- For a command ring and a transfer ring as they are set up, and any runs of posts and of the controller in
which nothing is posted to a full ring: there is never a fault if and only if no more commands are posted than
the command ring has slots in one lap, less one, and no more TRBs than the transfer ring has in one lap. -/
theorem sound_iff_first_lap {cmdPhys trPhys : ℕ} {cmdPage trPage : ℕ → Trb} {cmd tr : PostingRing}
    (hcmd : xhciCmdRingInit cmdPhys cmdPage = some cmd)
    (htr : xhciTransferRingInit trPhys trPage = some tr)
    (cs : List (PostingStep Command)) (ts : List (PostingStep Stage))
    (hcs : Runs.Along (step postCommand) (Roomy (xhciCmdRingTrbs - 2)) (start cmd) cs)
    (hts : Runs.Along (step postStage) (Roomy (xhciTransferRingTrbs - 1)) (start tr) ts) :
    (Runs.Always (step postCommand) (Sound xhciCmdRingTrbs) (start cmd) cs ↔
        Runs.Along (step postCommand) (PostsBelow (xhciCmdRingTrbs - 2)) (start cmd) cs) ∧
      (Runs.Always (step postStage) (Sound xhciTransferRingTrbs) (start tr) ts ↔
        Runs.Along (step postStage) (PostsBelow (xhciTransferRingTrbs - 1)) (start tr) ts) := by
  constructor
  · refine always_sound_iff (fun s c h hlt => h.post_command c hlt) ?_
      (fun s c h hfull _ => h.not_sound_of_post_command c hfull) (firstLap_cmdRing hcmd) (Nat.zero_le _) hcs
    intro s c _ hlt
    have := length_posted_le postCommand s c
    omega
  · refine always_sound_iff (fun s stage h hlt => h.post_stage stage hlt) ?_
      (fun s stage h hfull hroom => h.not_sound_of_post_stage stage hfull hroom)
      (firstLap_transferRing htr) (Nat.zero_le _) hts
    intro s stage _ hlt
    have := length_posted_le postStage s stage
    omega

/-- A command ring in the page at 4096, which was empty -/
def exampleCmdRing : PostingRing where
  ring := ringInitFull (fun _ => ⟨0, 0, 0⟩) xhciCmdRingTrbs true (BitVec.ofNat 64 4096)
  enqueue := 0
  ccs := true

/-- A transfer ring in the page at 8192 -/
def exampleTransferRing : PostingRing where
  ring := Function.update (fillSlots (fun _ => ⟨0, 0, 0⟩) xhciTransferRingTrbs 0)
    (xhciTransferRingTrbs - 1) (linkTrb (BitVec.ofNat 64 8192) true)
  enqueue := 0
  ccs := true

/-- One command, and a control transfer without data -/
theorem sound_iff_first_lap_example :
    Runs.Always (step postCommand) (Sound xhciCmdRingTrbs) (start exampleCmdRing)
        [.post ⟨0, 0, .enableSlot, 0⟩, .fetch] ∧
      Runs.Always (step postStage) (Sound xhciTransferRingTrbs) (start exampleTransferRing)
        [.post (.setup 0 .trtNone), .post (.status .trtIn), .fetch, .fetch] := by
  have h := @sound_iff_first_lap 4096 8192 (fun _ => ⟨0, 0, 0⟩) (fun _ => ⟨0, 0, 0⟩)
    exampleCmdRing exampleTransferRing rfl rfl
    [.post ⟨0, 0, .enableSlot, 0⟩, .fetch]
    [.post (.setup 0 .trtNone), .post (.status .trtIn), .fetch, .fetch] (by decide +kernel)
    (by decide +kernel)
  exact ⟨h.1.mpr (by decide +kernel), h.2.mpr (by decide +kernel)⟩

/-- 254 commands fill a ring; one of them is executed, but the next is refused. 31 TRBs of interrupt transfers
fill a ring; one of them is executed, and the next is posted with a cycle bit that it is not reached with. -/
theorem second_lap_lost :
    (¬∀ (phys : ℕ) (page : ℕ → Trb) (cmd : PostingRing) (cs : List (PostingStep Command)),
      xhciCmdRingInit phys page = some cmd →
      Runs.Along (step postCommand) (Roomy (xhciCmdRingTrbs - 2)) (start cmd) cs →
      Runs.Always (step postCommand) (Sound xhciCmdRingTrbs) (start cmd) cs) ∧
    ¬∀ (phys : ℕ) (page : ℕ → Trb) (tr : PostingRing) (ts : List (PostingStep Stage)),
      xhciTransferRingInit phys page = some tr →
      Runs.Along (step postStage) (Roomy (xhciTransferRingTrbs - 1)) (start tr) ts →
      Runs.Always (step postStage) (Sound xhciTransferRingTrbs) (start tr) ts := by
  constructor
  · intro h
    have hstart := @firstLap_cmdRing 4096 (fun _ => ⟨0, 0, 0⟩) exampleCmdRing rfl
    have hlen : (start exampleCmdRing).posted.length +
        (List.replicate 254 (Command.mk 0 0 .enableSlot 0)).length = xhciCmdRingTrbs - 2 := by
      rw [List.length_replicate]
      rfl
    obtain ⟨hroomy, hnot⟩ := hstart.refused_after_lap _ ⟨0, 0, .enableSlot, 0⟩ hlen (by decide)
    exact hnot (h 4096 (fun _ => ⟨0, 0, 0⟩) exampleCmdRing _ rfl hroomy)
  · intro h
    have hrun := (h 8192 (fun _ => ⟨0, 0, 0⟩) exampleTransferRing
      (List.replicate 31 (.post (.normal 0 8)) ++ [.fetch, .post (.normal 0 8)]) rfl
      (by decide +kernel)).last
    have hmem : (0, Stage.trb (.normal 0 8) true) ∈ (Runs.runAll (step postStage)
        (start exampleTransferRing) (List.replicate 31 (.post (.normal 0 8)) ++
          [.fetch, .post (.normal 0 8)])).pending := by
      decide +kernel
    have hcycle := (hrun.pending _ hmem).2
    exact absurd hcycle (by decide +kernel)

end PostingSystem

end Sandflea.Xhci
