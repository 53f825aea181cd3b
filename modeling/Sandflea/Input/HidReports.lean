import Mathlib.Data.List.Destutter
import Sandflea.Input.Modifiers

/-!
# Reports of a USB keyboard

A report lists the keys that are held, and `kbd_hid_process_report` injects what differs between two of them.
`key_map` gives different usages different scancodes, none of them the one of a modifier, so a cell of the table
of pressed scancodes belongs to one usage: it is set exactly while the last report lists the usage
(`shows_report`), and the events of the usage are the changes of being listed (`downs_allEvents`).
-/

namespace Sandflea

namespace Drivers

/-! ## The table of usages -/

/-- The keys that a report lists -/
def usages (report : ℕ → UInt8) : List UInt8 := (List.range' 2 6).map report

/-- A usage has a row in `key_map`. -/
def Mapped (u : UInt8) : Prop := (hidToScancode u).1 ≠ 0

instance decidableMapped : DecidablePred Mapped := fun _ => inferInstanceAs (Decidable (_ ≠ _))

/-- The key of a usage -/
def usageKey (u : UInt8) : KeyId := ⟨.hid, (hidToScancode u).1, (hidToScancode u).2⟩

/-- The scancodes of the modifiers -/
def modifierScancodes : List UInt8 := hidModifiers.map HidModifier.sc

/-- No usage stands twice in a report. -/
def NoRepeat (report : ℕ → UInt8) : Prop := ((usages report).filter (· ≠ 0)).Nodup

instance decidableNoRepeat : DecidablePred NoRepeat := fun _ => inferInstanceAs (Decidable (List.Nodup _))

theorem keyMap_scancodes_nodup : (hidKeyMap.map fun row => row.2.1).Nodup := by simp [hidKeyMap]

theorem keyMap_scancodes : ∀ row ∈ hidKeyMap, row.2.1 < 128 ∧ row.2.1 ∉ modifierScancodes := by
  simp [hidKeyMap, modifierScancodes, hidModifiers]

section

variable {u v : UInt8}

theorem Mapped.mem_keyMap (h : Mapped u) : (u, hidToScancode u) ∈ hidKeyMap := by
  unfold Mapped hidToScancode at h
  unfold hidToScancode
  cases hlookup : hidKeyMap.lookup u with
  | none => exact absurd (by rw [hlookup]; rfl) h
  | some row =>
    obtain ⟨l₁, l₂, hsplit, -⟩ := List.lookup_eq_some_iff.mp hlookup
    rw [hsplit]
    simp

theorem Mapped.ne_zero (h : Mapped u) : u ≠ 0 := by
  rintro rfl
  exact h (by decide)

theorem Mapped.lt (h : Mapped u) : (hidToScancode u).1 < 128 := (keyMap_scancodes _ h.mem_keyMap).1

theorem Mapped.not_modifier (h : Mapped u) : (hidToScancode u).1 ∉ modifierScancodes :=
  (keyMap_scancodes _ h.mem_keyMap).2

/-- Different usages have different scancodes. -/
theorem Mapped.inj (hu : Mapped u) (hv : Mapped v) (h : (hidToScancode u).1 = (hidToScancode v).1) : u = v :=
  congrArg Prod.fst (List.inj_on_of_nodup_map keyMap_scancodes_nodup hu.mem_keyMap hv.mem_keyMap h)

end

/-! ## The events of a report -/

/-- What a scancode goes through in a list of events -/
def downs (sc : UInt8) (es : List KeyEvent) : List Bool :=
  (es.filter (·.key.sc = sc)).map KeyEvent.isDown

@[simp] theorem downs_append (sc : UInt8) (es es' : List KeyEvent) :
    downs sc (es ++ es') = downs sc es ++ downs sc es' := by
  simp [downs]

/-- No event of a list is about the scancode. -/
theorem downs_eq_nil {sc : UInt8} {es : List KeyEvent} (h : ∀ e ∈ es, e.key.sc ≠ sc) : downs sc es = [] := by
  unfold downs
  rw [List.map_eq_nil_iff, List.filter_eq_nil_iff]
  intro e he
  rw [decide_eq_true_iff]
  exact h e he

/-- The event of a key that the other report does not list -/
def usageEvent (other : ℕ → UInt8) (isDown : Bool) (u : UInt8) : Option KeyEvent :=
  if Mapped u ∧ u ∉ usages other then some ⟨usageKey u, isDown⟩ else none

/-- A turn of the two loops looks at one usage. -/
theorem filterMap_changedEvent (one other : ℕ → UInt8) (isDown : Bool) :
    (List.range' 2 6).filterMap (changedEvent one other isDown) =
      (usages one).filterMap (usageEvent other isDown) := by
  unfold usages
  rw [List.filterMap_map]
  congr 1
  funext k
  have hany : ((List.range' 2 6).any fun j => decide (other j = one k)) = true ↔ one k ∈ usages other := by
    simp [usages]
  have hskip : (one k = 0 ∨ ((List.range' 2 6).any fun j => decide (other j = one k)) = true ∨
      (hidToScancode (one k)).1 = 0) ↔ ¬ (Mapped (one k) ∧ one k ∉ usages other) := by
    rw [hany]
    constructor
    · rintro (h | h | h) ⟨hmapped, hnot⟩
      · exact hmapped.ne_zero h
      · exact hnot h
      · exact hmapped h
    · intro h
      by_cases hmem : one k ∈ usages other
      · exact .inr (.inl hmem)
      · exact .inr (.inr (not_not.mp fun hmapped => h ⟨hmapped, hmem⟩))
  unfold changedEvent usageEvent usageKey
  rw [Function.comp_apply, ← ite_not]
  exact if_congr (not_congr hskip |>.trans not_not) rfl rfl

/-- An event of a report belongs to a modifier or to a mapped usage. -/
theorem key_of_mem_reportEvents {prev report : ℕ → UInt8} {e : KeyEvent} (he : e ∈ reportEvents prev report) :
    e.key.sc ∈ modifierScancodes ∨ ∃ u, Mapped u ∧ e.key = usageKey u := by
  unfold reportEvents at he
  rw [filterMap_changedEvent, filterMap_changedEvent, List.mem_append, List.mem_append] at he
  have husage : ∀ {one other isDown}, e ∈ (usages one).filterMap (usageEvent other isDown) →
      ∃ u, Mapped u ∧ e.key = usageKey u := by
    intro one other isDown h
    obtain ⟨u, -, hu⟩ := List.mem_filterMap.mp h
    unfold usageEvent at hu
    split_ifs at hu with hchanged
    cases hu
    exact ⟨u, hchanged.1, rfl⟩
  obtain h | h | h := he
  · left
    obtain ⟨m, hm, hevent⟩ := List.mem_filterMap.mp h
    have hsc : e.key.sc = m.sc := by
      unfold modifierEvent at hevent
      split_ifs at hevent <;> cases hevent <;> rfl
    exact hsc ▸ List.mem_map_of_mem hm
  · exact .inr (husage h)
  · exact .inr (husage h)

/-- The modifiers are about their own scancodes. -/
theorem downs_modifiers {sc : UInt8} (hsc : sc ∉ modifierScancodes) (prev report : ℕ → UInt8) :
    downs sc (hidModifiers.filterMap (modifierEvent prev report)) = [] := by
  refine downs_eq_nil fun e he heq => hsc ?_
  obtain ⟨m, hm, hevent⟩ := List.mem_filterMap.mp he
  have hkey : e.key.sc = m.sc := by
    unfold modifierEvent at hevent
    split_ifs at hevent <;> cases hevent <;> rfl
  exact heq ▸ hkey ▸ List.mem_map_of_mem hm

/-- A loop changes the scancode of a usage as often as the usage stands in the one report, if it does not stand in
the other. -/
theorem downs_usages {u : UInt8} (hu : Mapped u) (other : ℕ → UInt8) (isDown : Bool) (us : List UInt8) :
    downs (hidToScancode u).1 (us.filterMap (usageEvent other isDown)) =
      if u ∈ usages other then [] else List.replicate (us.count u) isDown := by
  induction us with
  | nil => simp [downs]
  | cons v us ih =>
    have hcons : (v :: us).filterMap (usageEvent other isDown) =
        (usageEvent other isDown v).toList ++ us.filterMap (usageEvent other isDown) := by
      cases h : usageEvent other isDown v <;> simp [h]
    rw [hcons, downs_append, ih]
    by_cases hv : v = u
    · subst hv
      by_cases hmem : v ∈ usages other
      · simp [usageEvent, hmem, downs]
      · simp [usageEvent, hmem, hu, downs, usageKey, List.replicate_succ]
    · -- the event of another usage has another scancode
      have hnil : downs (hidToScancode u).1 (usageEvent other isDown v).toList = [] := by
        refine downs_eq_nil fun e he heq => hv ?_
        unfold usageEvent at he
        split_ifs at he with hchanged
        · rw [Option.toList_some, List.mem_singleton] at he
          subst he
          exact hchanged.1.inj hu heq
        · cases he
      rw [hnil, List.nil_append, List.count_cons_of_ne hv]

/-- The events of a report about the scancode of a usage -/
theorem downs_reportEvents {u : UInt8} (hu : Mapped u) (prev report : ℕ → UInt8) :
    downs (hidToScancode u).1 (reportEvents prev report) =
      (if u ∈ usages report then [] else List.replicate ((usages prev).count u) false) ++
        if u ∈ usages prev then [] else List.replicate ((usages report).count u) true := by
  unfold reportEvents
  rw [downs_append, downs_append, downs_modifiers hu.not_modifier, filterMap_changedEvent,
    filterMap_changedEvent, downs_usages hu, downs_usages hu, List.nil_append]

/-! ## Runs -/

/-- The cell of a scancode after events about it holds what the last of them says. -/
theorem runAll_scancodePressed {es : List KeyEvent} (hlt : ∀ e ∈ es, e.key.sc < 128) (kb : Keyboard) (sc : UInt8) :
    (Runs.runAll Keyboard.handle kb es).scancodePressed sc = (downs sc es).getLastD (kb.scancodePressed sc) := by
  induction es generalizing kb with
  | nil => rfl
  | cons e es ih =>
    have hcell : (kb.handle e).scancodePressed sc = if sc = e.key.sc then e.isDown else kb.scancodePressed sc := by
      rw [Keyboard.handle, Keyboard.inject_scancodePressed _ _ _ (hlt e List.mem_cons_self), Function.update_apply]
    rw [Runs.runAll_cons, ih fun e' he' => hlt e' (List.mem_cons_of_mem _ he'), hcell]
    by_cases hsc : sc = e.key.sc
    · rw [if_pos hsc, show downs sc (e :: es) = e.isDown :: downs sc es by simp [downs, hsc], List.getLastD_cons]
    · rw [if_neg hsc, show downs sc (e :: es) = downs sc es by simp [downs, Ne.symm hsc]]

theorem lt_of_mem_reportEvents {prev report : ℕ → UInt8} {e : KeyEvent} (he : e ∈ reportEvents prev report) :
    e.key.sc < 128 := by
  have hmodifiers : ∀ sc ∈ modifierScancodes, sc < 128 := by simp [modifierScancodes, hidModifiers]
  obtain h | ⟨u, hu, hkey⟩ := key_of_mem_reportEvents he
  · exact hmodifiers _ h
  · rw [hkey]
    exact hu.lt

/-- The cells that no modifier sets are those of the usages that a report lists. -/
def Shows (kb : Keyboard) (report : ℕ → UInt8) : Prop :=
  ∀ sc, sc ∉ modifierScancodes →
    (kb.scancodePressed sc = true ↔ ∃ u ∈ usages report, Mapped u ∧ (hidToScancode u).1 = sc)

/-- A report lists a usage exactly if one of the scancode of the usage is listed. -/
theorem exists_usage_iff {u : UInt8} (hu : Mapped u) (report : ℕ → UInt8) :
    (∃ v ∈ usages report, Mapped v ∧ (hidToScancode v).1 = (hidToScancode u).1) ↔ u ∈ usages report := by
  constructor
  · rintro ⟨v, hv, hmapped, hsc⟩
    exact hmapped.inj hu hsc ▸ hv
  · intro h
    exact ⟨u, h, hu, rfl⟩

/-- A report keeps the cells of the usages right. -/
theorem shows_report {s : Drivers} (h : Shows s.kb s.prevReport) (report : ℕ → UInt8) :
    Shows (s.step (.report report)).kb report := by
  intro sc hsc
  have hlt : ∀ e ∈ s.events (.report report), e.key.sc < 128 := fun e he => lt_of_mem_reportEvents he
  rw [step_kb, runAll_scancodePressed hlt]
  -- a scancode belongs to at most one usage
  by_cases hrow : ∃ u, Mapped u ∧ (hidToScancode u).1 = sc
  · obtain ⟨u, hu, rfl⟩ := hrow
    have hbefore := h _ hu.not_modifier
    rw [exists_usage_iff hu] at hbefore ⊢
    rw [show s.events (.report report) = reportEvents s.prevReport report from rfl, downs_reportEvents hu]
    have hcount : ∀ r : ℕ → UInt8, u ∈ usages r → (usages r).count u ≠ 0 := by
      intro r hr
      exact (List.count_pos_iff.mpr hr).ne'
    by_cases hprev : u ∈ usages s.prevReport <;> by_cases hnow : u ∈ usages report
    · simpa [hprev, hnow] using hbefore
    · simp [hprev, hnow, List.getLastD_eq_getLast?, List.getLast?_replicate, hcount _ hprev]
    · simp [hprev, hnow, List.getLastD_eq_getLast?, List.getLast?_replicate, hcount _ hnow]
    · simpa [hprev, hnow, List.count_eq_zero.mpr] using hbefore
  · -- no usage has the scancode, so no event is about it
    have hnil : downs sc (s.events (.report report)) = [] := by
      refine downs_eq_nil fun e he heq => ?_
      obtain hmodifier | ⟨u, hu, hkey⟩ := key_of_mem_reportEvents he
      · exact hsc (heq ▸ hmodifier)
      · exact hrow ⟨u, hu, by rw [← heq, hkey]; rfl⟩
    have hnone : ∀ r : ℕ → UInt8, ¬ ∃ u ∈ usages r, Mapped u ∧ (hidToScancode u).1 = sc := by
      rintro r ⟨u, -, hu⟩
      exact hrow ⟨u, hu⟩
    have hbefore := h sc hsc
    rw [hnil, List.getLastD_nil, hbefore]
    exact iff_of_false (hnone _) (hnone _)

@[simp] theorem usages_step_report (s : Drivers) (report : ℕ → UInt8) :
    usages (s.step (.report report)).prevReport = usages report := by
  refine List.map_congr_left fun k hk => ?_
  rw [List.mem_range'_1] at hk
  exact if_pos (by omega)

/-- The empty report lists no mapped usage. -/
theorem not_mem_usages_empty {u : UInt8} (hu : Mapped u) : u ∉ usages fun _ => 0 := by
  intro h
  obtain ⟨k, -, hk⟩ := List.mem_map.mp h
  exact hu.ne_zero hk.symm

/-- After any reports the cells are right. -/
theorem shows_runAll (reports : List (ℕ → UInt8)) {s : Drivers} (h : Shows s.kb s.prevReport) :
    Shows (Runs.runAll step s (reports.map .report)).kb
      (Runs.runAll step s (reports.map .report)).prevReport := by
  induction reports generalizing s with
  | nil => exact h
  | cons report reports ih =>
    refine ih fun sc hsc => ?_
    rw [usages_step_report]
    exact shows_report h report sc hsc

theorem shows_zeroed : Shows zeroed.kb zeroed.prevReport := by
  intro sc _
  refine iff_of_false Bool.false_ne_true ?_
  rintro ⟨u, hu, hmapped, -⟩
  exact not_mem_usages_empty hmapped hu

/-- A usage that a report lists stands there once. -/
theorem NoRepeat.count_eq_one {report : ℕ → UInt8} (h : NoRepeat report) {u : UInt8} (hu : Mapped u)
    (hmem : u ∈ usages report) : (usages report).count u = 1 := by
  have hle := List.nodup_iff_count_le_one.mp h u
  rw [List.count_filter (by simpa using hu.ne_zero)] at hle
  exact Nat.le_antisymm hle (List.count_pos_iff.mpr hmem)

/-- If no report lists a usage twice, the events of a usage are the changes of being listed. -/
theorem downs_allEvents {u : UInt8} (hu : Mapped u) (reports : List (ℕ → UInt8)) {s : Drivers}
    (hprev : NoRepeat s.prevReport) (hreports : ∀ report ∈ reports, NoRepeat report) :
    decide (u ∈ usages s.prevReport) :: downs (hidToScancode u).1 (s.allEvents (reports.map .report)) =
      List.destutter' (· ≠ ·) (decide (u ∈ usages s.prevReport))
        (reports.map fun report => decide (u ∈ usages report)) := by
  induction reports generalizing s with
  | nil => rfl
  | cons report reports ih =>
    have hnow : NoRepeat report := hreports report List.mem_cons_self
    have hnext : NoRepeat (s.step (.report report)).prevReport := by
      unfold NoRepeat
      rwa [usages_step_report]
    have hrest := ih hnext fun r hr => hreports r (List.mem_cons_of_mem _ hr)
    rw [usages_step_report] at hrest
    rw [List.map_cons, List.map_cons, allEvents, downs_append, List.destutter'_cons,
      show s.events (.report report) = reportEvents s.prevReport report from rfl, downs_reportEvents hu]
    by_cases heq : decide (u ∈ usages s.prevReport) = decide (u ∈ usages report)
    · have hsame : u ∈ usages s.prevReport ↔ u ∈ usages report := decide_eq_decide.mp heq
      rw [if_neg (not_not.mpr heq), heq, ← hrest]
      by_cases hmem : u ∈ usages report
      · simp [hsame, hmem]
      · simp [hsame, hmem, List.count_eq_zero.mpr]
    · rw [if_pos heq, ← hrest]
      by_cases hmem : u ∈ usages report
      · have hnot : u ∉ usages s.prevReport := fun h => heq (by simp [h, hmem])
        simp [hnot, hmem, hnow.count_eq_one hu hmem]
      · have hwas : u ∈ usages s.prevReport := by_contra fun h => heq (by simp [h, hmem])
        simp [hwas, hmem, hprev.count_eq_one hu hwas]

/-- What a key goes through in a list of events -/
def keyDowns (key : KeyId) (es : List KeyEvent) : List Bool := (es.filter (·.key = key)).map KeyEvent.isDown

/-- The events of reports about a scancode are about one key. -/
theorem keyDowns_allEvents {u : UInt8} (hu : Mapped u) (reports : List (ℕ → UInt8)) (s : Drivers) :
    keyDowns (usageKey u) (s.allEvents (reports.map .report)) =
      downs (hidToScancode u).1 (s.allEvents (reports.map .report)) := by
  induction reports generalizing s with
  | nil => rfl
  | cons report reports ih =>
    have hone : keyDowns (usageKey u) (reportEvents s.prevReport report) =
        downs (hidToScancode u).1 (reportEvents s.prevReport report) := by
      refine congrArg (List.map KeyEvent.isDown) (List.filter_congr fun e he => decide_eq_decide.mpr ?_)
      constructor
      · intro h
        rw [h]
        rfl
      · intro h
        obtain hmodifier | ⟨v, hv, hkey⟩ := key_of_mem_reportEvents he
        · exact absurd (h ▸ hmodifier) hu.not_modifier
        · rw [hkey] at h ⊢
          rw [hv.inj hu h]
    rw [List.map_cons, allEvents, downs_append, ← ih, show s.events (.report report) =
      reportEvents s.prevReport report from rfl, ← hone]
    simp [keyDowns]

/-- The keyboard after reports, the first of which follows the empty report -/
def afterReports (reports : List (ℕ → UInt8)) : Drivers := Runs.runAll step zeroed (reports.map .report)

/-- After any reports and one more, the cells that no modifier sets are those of the mapped usages which this one
lists. If no report lists a usage twice, then the events of each mapped key are a press, a release, a press and so
on. -/
theorem reports_followed (reports : List (ℕ → UInt8)) :
    (∀ report, Shows (afterReports (reports ++ [report])).kb report) ∧
      ((∀ report ∈ reports, NoRepeat report) → ∀ u, Mapped u →
        List.IsChain (· ≠ ·) (false :: keyDowns (usageKey u) (zeroed.allEvents (reports.map .report)))) := by
  constructor
  · intro report
    unfold afterReports
    rw [List.map_append, Runs.runAll_append]
    exact shows_report (shows_runAll reports shows_zeroed) report
  · intro hreports u hu
    have hempty : decide (u ∈ usages zeroed.prevReport) = false := decide_eq_false (not_mem_usages_empty hu)
    have hchanges := downs_allEvents (s := zeroed) hu reports (by decide) hreports
    rw [hempty] at hchanges
    rw [keyDowns_allEvents hu, hchanges]
    exact List.isChain_destutter' _ _ _

/-- The report that lists two keys -/
def listing (u v : UInt8) : ℕ → UInt8 := fun k => if k = 2 then u else if k = 3 then v else 0

/-- The a key goes down, the b key too, the order turns around, and a goes up. -/
theorem reports_followed_pair :
    List.IsChain (· ≠ ·) (false :: keyDowns (usageKey 0x04) (zeroed.allEvents
      ([listing 0x04 0, listing 0x04 0x05, listing 0x05 0x04, listing 0x05 0].map .report))) :=
  (reports_followed [listing 0x04 0, listing 0x04 0x05, listing 0x05 0x04, listing 0x05 0]).2 (by decide) 0x04
    (by decide)

end Drivers

end Sandflea
