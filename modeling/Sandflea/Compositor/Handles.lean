import Sandflea.Compositor.Windows
import Sandflea.Lib.Runs

/-!
# Window handles

The generation in a handle has 16 bits and starts at 1, so the `n`-th window gets the generation `n + 2`
until that reaches the sign bit of the handle. Up to there a handle is positive and is given out once, and
it resolves to its window until that is destroyed (`handles_sound`). The window after that gets a negative
handle, which resolves to nothing (`handle_after_32766_windows`).
-/

namespace Sandflea

namespace WindowTable

/-- Every handle given out is positive and resolves to its window until the window is destroyed, and it
never resolves to another. -/
def HandlesSound (s : WindowTable) : Prop :=
  ∀ n handle, s.created[n]? = some handle →
    0 < handle ∧ (n ∉ s.destroyed → s.resolve handle = some n) ∧
      ∀ m, s.resolve handle = some m → m = n

/-- An operation that creates a window finds the generation below the last that fits into a handle. -/
def HasGeneration (s : WindowTable) (op : WindowOp) : Prop :=
  (s.newWindow op).isSome → s.generation < 0x7FFF

/-! ## Arithmetic of handles -/

/-- A handle as a number: the generation above the index. -/
theorem packHandle_toNat (g : UInt16) {index : ℕ} (hi : index < 65536) :
    (packHandle g index).toUInt32.toNat = g.toNat * 65536 + index := by
  have hg : g.toNat < 2 ^ 16 := g.toNat_lt
  have hmask : (UInt32.ofNat index &&& 0xFFFF).toNat = index := by
    have hand : index &&& 65535 = index % 2 ^ 16 := Nat.and_two_pow_sub_one_eq_mod index 16
    have hindex : index % 2 ^ 32 = index := by omega
    simp only [UInt32.toNat_and, UInt32.toNat_ofNat', UInt32.reduceToNat, hindex]
    omega
  have hshift : (g.toUInt32 <<< 16).toNat = g.toNat <<< 16 := by
    simp only [UInt32.toNat_shiftLeft, UInt16.toNat_toUInt32, UInt32.reduceToNat, Nat.shiftLeft_eq,
      Nat.reduceMod]
    omega
  show (g.toUInt32 <<< 16 ||| (UInt32.ofNat index &&& 0xFFFF)).toInt32.toUInt32.toNat = _
  rw [UInt32.toUInt32_toInt32, UInt32.toNat_or, hshift, hmask,
    ← Nat.shiftLeft_add_eq_or_of_lt (by omega), Nat.shiftLeft_eq]

/-- A signed word, read from its bits. -/
theorem toInt_of_toUInt32 (x : Int32) : x.toInt = (x.toUInt32.toNat : ℤ).bmod (2 ^ 32) := by
  exact BitVec.toInt_eq_toNat_bmod x.toBitVec

theorem pos_iff_toNat (x : Int32) :
    0 < x ↔ 0 < x.toUInt32.toNat ∧ x.toUInt32.toNat < 2 ^ 31 := by
  have hx : x.toUInt32.toNat < 2 ^ 32 := x.toUInt32.toNat_lt
  have h0 : (0 : Int32).toInt = 0 := rfl
  rw [Int32.lt_iff_toInt_lt, h0, toInt_of_toUInt32, Int.bmod_def]
  split <;> omega

/-- The generation counts up and wraps past 0. -/
theorem nextGeneration_toNat (g : UInt16) :
    (nextGeneration g).toNat = if g.toNat + 1 = 65536 then 1 else g.toNat + 1 := by
  have hg : g.toNat < 2 ^ 16 := g.toNat_lt
  have hadd : (g + 1).toNat = (g.toNat + 1) % 2 ^ 16 := UInt16.toNat_add g 1
  unfold nextGeneration
  by_cases h : g.toNat + 1 = 65536
  · have h0 : g + 1 = 0 := UInt16.toNat_inj.mp (by rw [hadd]; simp [h])
    rw [if_pos h0, if_pos h]
    rfl
  · have h0 : g + 1 ≠ 0 := by
      intro h'
      rw [h'] at hadd
      have : (0 : UInt16).toNat = 0 := rfl
      omega
    rw [if_neg h0, if_neg h]
    omega
/-- The handle of the `n`-th window is positive, if its generation does not reach the sign bit. -/
theorem packHandle_pos {n : ℕ} (hn : n + 2 < 0x8000) (i : Fin maxCompositorWindows) :
    0 < packHandle (UInt16.ofNat (n + 2)) i := by
  have hi : (i : ℕ) < 128 := i.isLt
  have hg : (UInt16.ofNat (n + 2)).toNat = n + 2 := by
    rw [UInt16.toNat_ofNat']
    omega
  rw [pos_iff_toNat, packHandle_toNat _ (by omega), hg]
  omega

/-- A handle tells which window and which slot it is of. -/
theorem packHandle_inj {n m : ℕ} (hn : n + 2 < 0x8000) (hm : m + 2 < 0x8000)
    {i j : Fin maxCompositorWindows}
    (h : packHandle (UInt16.ofNat (n + 2)) i = packHandle (UInt16.ofNat (m + 2)) j) :
    n = m ∧ i = j := by
  have hi : (i : ℕ) < 128 := i.isLt
  have hj : (j : ℕ) < 128 := j.isLt
  have hnat := congrArg (fun x : Int32 => x.toUInt32.toNat) h
  beta_reduce at hnat
  rw [packHandle_toNat _ (by omega), packHandle_toNat _ (by omega), UInt16.toNat_ofNat',
    UInt16.toNat_ofNat'] at hnat
  exact ⟨by omega, Fin.ext (by omega)⟩

theorem handleIndex_packHandle (g : UInt16) (i : Fin maxCompositorWindows) :
    handleIndex (packHandle g i) = i := by
  have hi : (i : ℕ) < 128 := i.isLt
  unfold handleIndex
  rw [packHandle_toNat _ (by omega)]
  omega

/-- What a search by handle finds -/
theorem findByHandle_eq_some {s : WindowTable} {handle : Int32} {i : Fin maxCompositorWindows} :
    s.findByHandle handle = some i ↔
      0 < handle ∧ handleIndex handle = i ∧ (s.windows i).active ∧ (s.windows i).handle = handle := by
  unfold findByHandle
  by_cases hpos : handle ≤ 0
  · simp [hpos]
  · have hpos' : 0 < handle := Int32.not_le.mp hpos
    by_cases hidx : handleIndex handle < maxCompositorWindows
    · rw [if_neg hpos, dif_pos hidx]
      constructor
      · intro h
        obtain ⟨hw, hi⟩ := Option.ite_none_right_eq_some.mp h
        obtain rfl := Option.some.inj hi
        rw [Bool.and_eq_true, decide_eq_true_eq] at hw
        exact ⟨hpos', rfl, hw⟩
      · rintro ⟨-, hi, ha, hh⟩
        obtain rfl : i = ⟨handleIndex handle, hidx⟩ := Fin.ext hi.symm
        rw [if_pos (by simp [ha, hh])]
    · rw [if_neg hpos, dif_neg hidx]
      constructor
      · intro h
        cases h
      · rintro ⟨-, hi, -, -⟩
        exact absurd (hi ▸ i.isLt) hidx

/-! ## The invariant -/

/-- The generation numbers the windows, and the active slots hold the windows that were not destroyed. -/
structure Numbered (s : WindowTable) : Prop where
  generation : s.generation.toNat = s.created.length + 1
  room : s.generation.toNat < 0x8000
  created : ∀ n handle, s.created[n]? = some handle →
    ∃ i : Fin maxCompositorWindows, handle = packHandle (UInt16.ofNat (n + 2)) i
  active : ∀ i, (s.windows i).active →
    s.created[(s.windows i).serial]? = some (s.windows i).handle ∧
      (s.windows i).handle = packHandle (UInt16.ofNat ((s.windows i).serial + 2)) i ∧
      (s.windows i).serial ∉ s.destroyed
  kept : ∀ n < s.created.length, n ∉ s.destroyed → ∃ i, (s.windows i).active ∧ (s.windows i).serial = n
  destroyed : ∀ n ∈ s.destroyed, n < s.created.length

theorem numbered_init : init.Numbered where
  generation := rfl
  room := by decide
  created n handle h := by simp [init] at h
  active i h := by simp [init] at h
  kept n h := by simp [init] at h
  destroyed n h := by simp [init] at h

section

variable {s : WindowTable}

theorem Numbered.lt_room (h : s.Numbered) {n : ℕ} (hn : n < s.created.length) : n + 2 < 0x8000 := by
  have hgen := h.generation
  have hroom := h.room
  omega

theorem Numbered.serial_lt (h : s.Numbered) {i : Fin maxCompositorWindows}
    (hi : (s.windows i).active) : (s.windows i).serial < s.created.length :=
  (List.getElem?_eq_some_iff.mp (h.active i hi).1).1

/-- Two slots do not hold the same window. -/
theorem Numbered.serial_inj (h : s.Numbered) {i j : Fin maxCompositorWindows}
    (hi : (s.windows i).active) (hj : (s.windows j).active)
    (hij : (s.windows i).serial = (s.windows j).serial) : i = j := by
  obtain ⟨hci, hhi, -⟩ := h.active i hi
  obtain ⟨hcj, hhj, -⟩ := h.active j hj
  have heq : (s.windows i).handle = (s.windows j).handle := by
    rw [hij, hcj] at hci
    exact (Option.some.inj hci).symm
  rw [hhi, hhj] at heq
  exact (packHandle_inj (h.lt_room (h.serial_lt hi)) (h.lt_room (h.serial_lt hj)) heq).2

/-- The invariant is what the handles need. -/
theorem Numbered.sound (h : s.Numbered) : s.HandlesSound := by
  intro n handle hn
  obtain ⟨i, hi⟩ := h.created n handle hn
  have hlt : n < s.created.length := (List.getElem?_eq_some_iff.mp hn).1
  have hpos : 0 < handle := hi ▸ packHandle_pos (h.lt_room hlt) i
  refine ⟨hpos, fun hlive => ?_, fun m hm => ?_⟩
  · obtain ⟨j, hj, rfl⟩ := h.kept n hlt hlive
    obtain ⟨hc, hh, -⟩ := h.active j hj
    have heq : (s.windows j).handle = handle := Option.some.inj (hc.symm.trans hn)
    have hidx : handleIndex handle = j := by rw [← heq, hh, handleIndex_packHandle]
    have hfind : s.findByHandle handle = some j := findByHandle_eq_some.mpr ⟨hpos, hidx, hj, heq⟩
    rw [resolve, hfind]
    rfl
  · obtain ⟨k, hk, rfl⟩ := Option.map_eq_some_iff.mp hm
    obtain ⟨-, -, hact, heq⟩ := findByHandle_eq_some.mp hk
    obtain ⟨-, hh, -⟩ := h.active k hact
    rw [heq, hi] at hh
    exact (packHandle_inj (h.lt_room hlt) (h.lt_room (h.serial_lt hact)) hh).1.symm

/-- The generation of a new window, while there is room. -/
theorem Numbered.nextGeneration (h : s.Numbered) (hroom : s.generation < 0x7FFF) :
    nextGeneration s.generation = UInt16.ofNat (s.created.length + 2) ∧
      s.created.length + 2 < 0x8000 := by
  have hlt : s.generation.toNat < 0x7FFF := UInt16.lt_iff_toNat_lt.mp hroom
  have hgen := h.generation
  refine ⟨UInt16.toNat_inj.mp ?_, by omega⟩
  rw [nextGeneration_toNat, if_neg (by omega), UInt16.toNat_ofNat']
  omega

theorem register_self (s : WindowTable) (i : Fin maxCompositorWindows) (c : Caller) :
    (s.register i c).windows i =
      ⟨true, packHandle (WindowTable.nextGeneration s.generation) i, c.pid, some c.runtime,
        s.created.length⟩ :=
  Function.update_self i _ _

theorem register_of_ne {i j : Fin maxCompositorWindows} (h : j ≠ i) (c : Caller) :
    (s.register i c).windows j = s.windows j :=
  Function.update_of_ne h _ _

/-- A new window keeps the invariant, while there is room. -/
theorem Numbered.register (h : s.Numbered) (hroom : s.generation < 0x7FFF)
    {i : Fin maxCompositorWindows} (hi : ¬ (s.windows i).active) (c : Caller) :
    (s.register i c).Numbered := by
  obtain ⟨hnext, hlt⟩ := h.nextGeneration hroom
  have hold : ∀ (n : ℕ) (handle : Int32), s.created[n]? = some handle →
      (s.register i c).created[n]? = some handle := by
    intro n handle hn
    have hn' : n < s.created.length := (List.getElem?_eq_some_iff.mp hn).1
    exact (List.getElem?_append_left hn').trans hn
  have hself : (s.register i c).windows i =
      ⟨true, packHandle (UInt16.ofNat (s.created.length + 2)) i, c.pid, some c.runtime,
        s.created.length⟩ := by
    rw [← hnext]
    exact s.register_self i c
  have hlast : (s.register i c).created =
      s.created ++ [packHandle (UInt16.ofNat (s.created.length + 2)) i] := by
    rw [← hnext]
    rfl
  have hlen : (s.register i c).created.length = s.created.length + 1 := by rw [hlast]; simp
  constructor
  · show (WindowTable.nextGeneration s.generation).toNat = _
    rw [hnext, hlen, UInt16.toNat_ofNat']
    omega
  · show (WindowTable.nextGeneration s.generation).toNat < _
    rw [hnext, UInt16.toNat_ofNat']
    omega
  · intro n handle hn
    rw [hlast] at hn
    by_cases hn' : n < s.created.length
    · rw [List.getElem?_append_left hn'] at hn
      exact h.created n handle hn
    · have hn'' : n = s.created.length := by
        have := (List.getElem?_eq_some_iff.mp hn).1
        simp at this
        omega
      subst hn''
      rw [List.getElem?_concat_length] at hn
      exact ⟨i, (Option.some.inj hn).symm⟩
  · intro j hj
    by_cases hji : j = i
    · subst hji
      rw [hself]
      refine ⟨?_, rfl, fun hmem => absurd (h.destroyed _ hmem) (Nat.lt_irrefl _)⟩
      rw [hlast]
      exact List.getElem?_concat_length
    · rw [register_of_ne hji] at hj ⊢
      obtain ⟨hc, hh, hd⟩ := h.active j hj
      exact ⟨hold _ _ hc, hh, hd⟩
  · intro n hn hd
    by_cases hn' : n < s.created.length
    · obtain ⟨j, hj, hs⟩ := h.kept n hn' hd
      have hji : j ≠ i := fun he => hi (he ▸ hj)
      exact ⟨j, by rw [register_of_ne hji]; exact ⟨hj, hs⟩⟩
    · have hn'' : s.created.length = n := by
        rw [hlen] at hn
        omega
      exact ⟨i, by rw [hself]; exact ⟨rfl, hn''⟩⟩
  · intro n hn
    have := h.destroyed n hn
    omega

/-- Making windows inactive keeps the invariant. -/
theorem Numbered.close (h : s.Numbered) (p : Fin maxCompositorWindows → Bool) :
    (s.close p).Numbered := by
  have hactive : ∀ i, ((s.close p).windows i).active →
      (s.windows i).active ∧ ¬ p i ∧ (s.close p).windows i = s.windows i := by
    intro i hi
    by_cases hp : (s.windows i).active && p i
    · have heq : (s.close p).windows i = { s.windows i with active := false } := if_pos hp
      rw [heq] at hi
      cases hi
    · have heq : (s.close p).windows i = s.windows i := if_neg hp
      rw [heq] at hi
      exact ⟨hi, fun hpi => hp (by simp [hi, hpi]), heq⟩
  have hmem : ∀ n, n ∈ (s.close p).destroyed ↔
      n ∈ s.destroyed ∨ ∃ i, ((s.windows i).active ∧ p i) ∧ (s.windows i).serial = n := by
    intro n
    simp [WindowTable.close, List.mem_append]
  refine ⟨h.generation, h.room, h.created, fun i hi => ?_, fun n hn hd => ?_, fun n hn => ?_⟩
  · obtain ⟨ha, hp, heq⟩ := hactive i hi
    obtain ⟨hc, hh, hd⟩ := h.active i ha
    rw [heq]
    refine ⟨hc, hh, fun hnot => ?_⟩
    rcases (hmem _).mp hnot with hold | ⟨j, ⟨hja, hjp⟩, hjs⟩
    · exact hd hold
    · exact hp (h.serial_inj hja ha hjs ▸ hjp)
  · obtain ⟨i, ha, rfl⟩ := h.kept n hn fun hold => hd ((hmem n).mpr (.inl hold))
    have hp : ¬ p i := fun hp => hd ((hmem _).mpr (.inr ⟨i, ⟨ha, hp⟩, rfl⟩))
    have heq : (s.close p).windows i = s.windows i := if_neg (by simp [hp])
    exact ⟨i, by rw [heq]; exact ⟨ha, rfl⟩⟩
  · rcases (hmem n).mp hn with hold | ⟨i, ⟨ha, -⟩, rfl⟩
    · exact h.destroyed n hold
    · exact h.serial_lt ha

end

/-! ## Steps -/

/-- Two tables that agree on what the handles depend on. -/
structure SameHandles (s t : WindowTable) : Prop where
  generation : t.generation = s.generation
  created : t.created = s.created
  destroyed : t.destroyed = s.destroyed
  windows : ∀ i, (t.windows i).active = (s.windows i).active ∧
    (t.windows i).handle = (s.windows i).handle ∧ (t.windows i).serial = (s.windows i).serial

theorem SameHandles.numbered {s t : WindowTable} (h : SameHandles s t) (hs : s.Numbered) :
    t.Numbered := by
  constructor
  · rw [h.generation, h.created]
    exact hs.generation
  · rw [h.generation]
    exact hs.room
  · rw [h.created]
    exact hs.created
  · intro i hi
    obtain ⟨ha, hh, hser⟩ := h.windows i
    rw [ha] at hi
    rw [h.created, h.destroyed, hh, hser]
    exact hs.active i hi
  · rw [h.created, h.destroyed]
    intro n hn hd
    obtain ⟨i, hi, hs'⟩ := hs.kept n hn hd
    obtain ⟨ha, -, hser⟩ := h.windows i
    exact ⟨i, ha.trans hi, hser.trans hs'⟩
  · rw [h.created, h.destroyed]
    exact hs.destroyed

theorem SameHandles.refl (s : WindowTable) : SameHandles s s :=
  ⟨rfl, rfl, rfl, fun _ => ⟨rfl, rfl, rfl⟩⟩

theorem sameHandles_setRuntime (s : WindowTable) (i : Fin maxCompositorWindows) (c : Caller) :
    SameHandles s (s.setRuntime i c) := by
  refine ⟨rfl, rfl, rfl, fun j => ?_⟩
  by_cases hj : j = i
  · subst hj
    have heq : (s.setRuntime j c).windows j = { s.windows j with runtime := some c.runtime } :=
      Function.update_self j _ _
    rw [heq]
    exact ⟨rfl, rfl, rfl⟩
  · have heq : (s.setRuntime i c).windows j = s.windows j := Function.update_of_ne hj _ _
    rw [heq]
    exact ⟨rfl, rfl, rfl⟩

theorem findFreeSlot_inactive {s : WindowTable} {i : Fin maxCompositorWindows}
    (h : s.findFreeSlot = some i) : ¬ (s.windows i).active := by
  have := List.find?_some h
  simpa using this

theorem claimedSlot_free {s : WindowTable} {c : Caller} {i : Fin maxCompositorWindows}
    (h : s.claimedSlot c = some i) : s.findFreeSlot = some i := by
  unfold claimedSlot at h
  split at h
  · cases h
  · exact h

/-- What an operation does to the handles: it puts one new window into a free slot, or it only takes
windows away. -/
theorem step_cases (s : WindowTable) (op : WindowOp) :
    (∃ i c, s.newWindow op = some (i, c) ∧ ¬ (s.windows i).active ∧ s.step op = s.register i c) ∨
      (s.newWindow op = none ∧ ∃ t, SameHandles s t ∧ (s.step op = t ∨ ∃ p, s.step op = t.close p)) := by
  cases op with
  | claimCompositor c =>
    refine .inr ⟨rfl, _, ?_, .inl rfl⟩
    show SameHandles s (s.claimCompositor c).2
    unfold claimCompositor
    split
    · exact .refl s
    · exact ⟨rfl, rfl, rfl, fun _ => ⟨rfl, rfl, rfl⟩⟩
  | create c =>
    cases hfree : s.findFreeSlot with
    | none => exact .inr ⟨by simp [newWindow, hfree], s, .refl s, .inl (by simp [step, windowCreate, hfree])⟩
    | some i =>
      exact .inl ⟨i, c, by simp [newWindow, hfree], findFreeSlot_inactive hfree,
        by simp [step, windowCreate, hfree]⟩
  | claimBuffer c offset =>
    cases offset with
    | none => exact .inr ⟨rfl, s, .refl s, .inl rfl⟩
    | some offset =>
      cases hslot : s.claimedSlot c with
      | some i =>
        refine .inl ⟨i, c, by simp [newWindow, hslot], findFreeSlot_inactive (claimedSlot_free hslot), ?_⟩
        have hclaim := hslot
        unfold claimedSlot at hclaim
        obtain ⟨hcond, -⟩ := Option.ite_none_left_eq_some.mp hclaim
        rw [not_or, not_or, Bool.not_eq_true, Option.isSome_eq_false_iff, Option.isNone_iff_eq_none] at hcond
        obtain ⟨hpid, hown, hfind⟩ := hcond
        simp [step, claimBuffer, hpid, hown, hfind, hslot]
      | none =>
        refine .inr ⟨by simp [newWindow, hslot], _, ?_, .inl rfl⟩
        show SameHandles s (s.claimBuffer c (some offset)).2
        unfold claimBuffer
        dsimp only
        split
        · exact .refl s
        · split
          · exact ⟨rfl, rfl, rfl, fun _ => ⟨rfl, rfl, rfl⟩⟩
          · split
            · exact sameHandles_setRuntime s _ c
            · rw [hslot]
              exact .refl s
  | destroy c handle =>
    refine .inr ⟨rfl, s, .refl s, ?_⟩
    show (s.windowDestroy c handle).2 = s ∨ ∃ p, (s.windowDestroy c handle).2 = s.close p
    unfold windowDestroy
    split
    · exact .inl rfl
    · split
      · exact .inl rfl
      · exact .inr ⟨_, rfl⟩
  | attach c handle =>
    refine .inr ⟨rfl, _, ?_, .inl rfl⟩
    show SameHandles s (s.surfaceAttach c handle).2
    unfold surfaceAttach
    split
    · exact .refl s
    · split
      · exact .refl s
      · exact sameHandles_setRuntime s _ c
  | commit handle => exact .inr ⟨rfl, s, .refl s, .inl rfl⟩
  | exit pid =>
    refine .inr ⟨rfl, if pid = s.compositorPid then
      { s with compositorPid := -1, compositorRuntime := none, compositorBufferOffset := 0 } else s,
      ?_, .inr ⟨_, rfl⟩⟩
    split
    · exact ⟨rfl, rfl, rfl, fun _ => ⟨rfl, rfl, rfl⟩⟩
    · exact .refl s

/-- An operation keeps the invariant, while there is a generation for the window that it may create. -/
theorem Numbered.step {s : WindowTable} (h : s.Numbered) {op : WindowOp} (hop : s.HasGeneration op) :
    (s.step op).Numbered := by
  rcases s.step_cases op with ⟨i, c, hnew, hfree, hstep⟩ | ⟨-, t, hsame, hstep | ⟨p, hstep⟩⟩
  · rw [hstep]
    exact h.register (hop (by rw [hnew]; rfl)) hfree c
  · rw [hstep]
    exact hsame.numbered h
  · rw [hstep]
    exact (hsame.numbered h).close p

/-- A window that is created when there is no generation left gets a handle that is not positive. -/
theorem Numbered.hasGeneration {s : WindowTable} (h : s.Numbered) {op : WindowOp}
    (hsound : (s.step op).HandlesSound) : s.HasGeneration op := by
  intro hsome
  by_contra hlast
  rcases s.step_cases op with ⟨i, c, -, -, hstep⟩ | ⟨hnone, -⟩
  · have hgen : s.generation.toNat = 0x7FFF := by
      have hroom := h.room
      have hle : 0x7FFF ≤ s.generation.toNat := by
        simpa [UInt16.lt_iff_toNat_lt] using hlast
      omega
    rw [hstep] at hsound
    have hhandle : (s.register i c).created[s.created.length]? =
        some (packHandle (WindowTable.nextGeneration s.generation) i) :=
      List.getElem?_concat_length
    obtain ⟨hpos, -⟩ := hsound _ _ hhandle
    have hi : (i : ℕ) < 128 := i.isLt
    rw [pos_iff_toNat, packHandle_toNat _ (by omega), nextGeneration_toNat, if_neg (by omega)] at hpos
    omega
  · rw [hnone] at hsome
    cases hsome

/-- Handles are sound over a run exactly if no window is created after the generation has reached the last
that fits into a handle. -/
theorem handles_sound (ops : List WindowOp) :
    Runs.Always step HandlesSound init ops ↔ Runs.Along step HasGeneration init ops := by
  constructor
  · intro h
    exact Runs.along_of_always_inv (B := fun _ _ => True)
      (fun s op hs _ hsound => hs.hasGeneration hsound) (fun s op hs _ hop => hs.step hop)
      numbered_init (Runs.along_of_forall (fun _ _ _ => trivial) init) h
  · intro h
    have hinv := Runs.always_of_along (P := Numbered) (fun s op hs hop => hs.step hop) numbered_init h
    exact hinv.mono fun s hs => hs.sound

/-! ## Using up the generations -/

/-- A process creates a window and exits, over and over. -/
def createAndExit (c : Caller) : ℕ → List WindowOp
  | 0 => []
  | n + 1 => createAndExit c n ++ [.create c, .exit c.pid]

/-- A table without windows in which a generation was reached. -/
structure Unused (s : WindowTable) (generation : ℕ) : Prop where
  numbered : s.Numbered
  generation : s.generation.toNat = generation
  free : ∀ i, ¬ (s.windows i).active

theorem Unused.findFreeSlot {s : WindowTable} {g : ℕ} (h : s.Unused g) :
    ∃ i, s.findFreeSlot = some i := by
  have hfirst : (!(s.windows ⟨0, by decide⟩).active) = true := by simpa using h.free ⟨0, by decide⟩
  exact Option.isSome_iff_exists.mp
    (List.find?_isSome.mpr ⟨⟨0, by decide⟩, List.mem_finRange _, hfirst⟩)

/-- A round uses up a generation. -/
theorem Unused.round {s : WindowTable} {g : ℕ} (h : s.Unused g) (hg : g < 0x7FFF) (c : Caller) :
    ((s.step (.create c)).step (.exit c.pid)).Unused (g + 1) := by
  have hgen := h.generation
  have hroom : s.HasGeneration (.create c) := fun _ => UInt16.lt_iff_toNat_lt.mpr (by
    rw [hgen]
    exact hg)
  obtain ⟨i₀, hfree⟩ := h.findFreeSlot
  have hcreate : s.step (.create c) = s.register i₀ c := by simp [step, windowCreate, hfree]
  refine ⟨(h.numbered.step hroom).step fun hnew => absurd hnew (by simp [newWindow]),
    ?_, fun i hi => ?_⟩
  · have heq : ((s.step (.create c)).step (.exit c.pid)).generation =
        WindowTable.nextGeneration s.generation := by
      rw [hcreate]
      show ((s.register i₀ c).childCleanup c.pid).generation = _
      unfold childCleanup
      split <;> rfl
    rw [heq, nextGeneration_toNat, if_neg (by omega), hgen]
  · have hpid : ∀ j, ((s.register i₀ c).windows j).active → ((s.register i₀ c).windows j).pid = c.pid := by
      intro j hj
      by_cases hj0 : j = i₀
      · subst hj0
        rw [register_self]
      · rw [register_of_ne hj0] at hj
        exact absurd hj (h.free j)
    rw [hcreate] at hi
    have hclosed : (((s.register i₀ c).childCleanup c.pid).windows i).active =
        (((s.register i₀ c).windows i).active && !decide (((s.register i₀ c).windows i).pid = c.pid)) := by
      unfold childCleanup
      split <;> simp only [close] <;> split <;> simp_all
    have hi' : (((s.register i₀ c).childCleanup c.pid).windows i).active = true := hi
    rw [hclosed, Bool.and_eq_true] at hi'
    simp [hpid i hi'.1] at hi'

/-- The generations that rounds use up -/
theorem unused_createAndExit (c : Caller) {n : ℕ} (hn : n < 0x7FFF) :
    (Runs.runAll step init (createAndExit c n)).Unused (n + 1) := by
  induction n with
  | zero => exact ⟨numbered_init, rfl, fun i => by simp [createAndExit, init]⟩
  | succ n ih =>
    rw [createAndExit, Runs.runAll_append]
    exact (ih (by omega)).round (by omega) c

/-- With the generations used up, the next handle is not sound. -/
theorem createAndExit_create (c : Caller) {n : ℕ} (hn : n + 1 = 0x7FFF) :
    ¬ Runs.Always step HandlesSound init (createAndExit c n ++ [.create c]) := by
  intro h
  have hlast := h.last
  rw [Runs.runAll_append] at hlast
  have hunused := unused_createAndExit c (show n < 0x7FFF by omega)
  obtain ⟨i, hfree⟩ := hunused.findFreeSlot
  have hgen := @Numbered.hasGeneration _ hunused.numbered (.create c) hlast (by simp [newWindow, hfree])
  have hlt := UInt16.lt_iff_toNat_lt.mp hgen
  rw [hunused.generation, hn] at hlt
  exact absurd hlt (by decide)

/-- The window after 32766 others gets a negative handle, which resolves to nothing. -/
theorem handle_after_32766_windows :
    ¬ Runs.Always step HandlesSound init (createAndExit ⟨7, 0⟩ 32766 ++ [.create ⟨7, 0⟩]) :=
  createAndExit_create ⟨7, 0⟩ (by decide)

end WindowTable

end Sandflea
