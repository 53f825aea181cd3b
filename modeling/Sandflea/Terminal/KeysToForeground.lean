import Sandflea.Terminal.StdinKeys
import Sandflea.Lib.Ring
import Sandflea.Lib.Runs

/-!
# Keys go to the foreground process

Keys reach the foreground process of the active session once and in order, and no other process, exactly in
the runs in which no other process reads from descriptor 0 while there are keys, the queue is not full when
a key is pushed, and nothing unread is flushed (`keys_to_foreground`). `fd_read` does not look at who calls it
(`key_read_in_background`).
-/

namespace Sandflea

namespace FgQueue

/-- The keys in the queue -/
def unread (q : FgQueue) : List UInt8 := Ring.contents fgQueueSize q.keys q.readPtr q.writePtr

/-- The pointers are in the queue. -/
def Valid (q : FgQueue) : Prop := q.readPtr < fgQueueSize ∧ q.writePtr < fgQueueSize

/-- There is no room for a key. -/
def Full (q : FgQueue) : Prop := (q.writePtr + 1) % fgQueueSize = q.readPtr

instance (q : FgQueue) : Decidable q.Full := inferInstanceAs (Decidable (_ = _))

section

variable {q : FgQueue}

theorem unread_eq_nil (h : q.Valid) : q.unread = [] ↔ q.readPtr = q.writePtr :=
  Ring.contents_eq_nil h.1 h.2

theorem valid_push (h : q.Valid) (k : UInt8) : (q.push k).Valid := by
  unfold push
  dsimp only
  split
  · exact ⟨h.1, Nat.mod_lt _ (by decide)⟩
  · exact h

theorem unread_push (h : q.Valid) (hroom : ¬ q.Full) (k : UInt8) :
    (q.push k).unread = q.unread ++ [k] := by
  have hroom : (q.writePtr + 1) % fgQueueSize ≠ q.readPtr := hroom
  unfold push
  dsimp only
  rw [if_pos hroom]
  exact Ring.contents_push h.1 h.2 hroom k

theorem push_of_full (hfull : q.Full) (k : UInt8) : q.push k = q := if_neg (not_not.mpr hfull)

theorem valid_eat (h : q.Valid) : q.eat.2.Valid := by
  unfold eat
  split
  · exact h
  · exact ⟨Nat.mod_lt _ (by decide), h.2⟩

theorem unread_eat (h : q.Valid) (hne : q.readPtr ≠ q.writePtr) :
    q.unread = q.eat.1 :: q.eat.2.unread := by
  unfold eat
  rw [if_neg hne]
  exact Ring.contents_pop h.1 h.2 hne

@[simp] theorem unread_flush (q : FgQueue) : q.flush.unread = [] := Ring.contents_self _ _ _

theorem valid_flush (h : q.Valid) : q.flush.Valid := ⟨h.2, h.2⟩

end

end FgQueue

namespace KeyRouting

/-! ## The property and the condition -/

/-- The keys that were typed for a process -/
def typedFor (s : KeyRouting) (p : ℕ) : List UInt8 :=
  s.typed.filterMap fun e => if e.1 = p then some e.2 else none

/-- The keys that a process took -/
def eatenBy (s : KeyRouting) (p : ℕ) : List UInt8 :=
  s.eaten.filterMap fun e => if e.reader = p then some e.key else none

/-- The foreground process of a session -/
def procOf (s : KeyRouting) (i : ℕ) : Option ℕ := (s.sessions i).foregroundProc

/-- The queue of a session -/
def queueOf (s : KeyRouting) (i : ℕ) : FgQueue :=
  if i = s.active then s.fgQueue else (s.sessions i).fgQueue

/-- Keys are taken by the foreground process of the active session, and each process takes the keys that
were typed for it, once and in order: those that it did not take yet are in the queue of its session. -/
structure Delivered (s : KeyRouting) : Prop where
  own : ∀ e ∈ s.eaten, e.foreground = some e.reader
  order : ∀ p, s.eatenBy p <+: s.typedFor p
  kept : ∀ i p, s.dead p = false → s.procOf i = some p →
    s.eatenBy p ++ (s.queueOf i).unread = s.typedFor p
  rest : ∀ p, s.dead p = false → (∀ i, s.procOf i ≠ some p) → s.eatenBy p = s.typedFor p

/-- The foreground process of the active session, if it is not dead -/
def liveProc (s : KeyRouting) : Option ℕ := s.activeProc.filter fun p => !s.dead p

/-- A key that is pushed for a foreground process fits into the queue. -/
def HasRoom (s : KeyRouting) : Prop := s.liveProc ≠ none → ¬ s.fgQueue.Full

instance (s : KeyRouting) : Decidable s.HasRoom := inferInstanceAs (Decidable (_ → _))

/-- The queue holds no keys for a foreground process other than some. -/
def Drained (s : KeyRouting) (others : Option ℕ) : Prop :=
  s.liveProc ≠ none → s.liveProc ≠ others → s.fgQueue.readPtr = s.fgQueue.writePtr

instance (s : KeyRouting) (others : Option ℕ) : Decidable (s.Drained others) :=
  inferInstanceAs (Decidable (_ → _ → _))

/-- The main loop acts on the key itself. -/
def IsControl (k : UInt8) : Prop := k = 0 ∨ keyF1 ≤ k ∧ k ≤ keyF4 ∨ k = keyCtrlC

instance (k : UInt8) : Decidable (IsControl k) := inferInstanceAs (Decidable (_ ∨ _ ∧ _ ∨ _))

/-- There is room in the first buffer. -/
def WantsKey : Option StdinRead → Prop
  | some ⟨_, len :: _, bytes⟩ => bytes.length < len
  | _ => False

instance : ∀ r, Decidable (WantsKey r)
  | some ⟨_, len :: _, bytes⟩ => inferInstanceAs (Decidable (bytes.length < len))
  | some ⟨_, [], _⟩ => .isFalse id
  | none => .isFalse id

/-- The turn takes a key. -/
def Eats (s : KeyRouting) (pid : ℕ) : Prop :=
  s.Running pid ∧ WantsKey (s.reads pid) ∧ s.fgQueue.readPtr ≠ s.fgQueue.writePtr

instance (s : KeyRouting) (pid : ℕ) : Decidable (s.Eats pid) := inferInstanceAs (Decidable (_ ∧ _ ∧ _))

/-- The steps that deliver keys as they should: a key that is pushed fits, nothing unread is flushed, and
only the foreground process of the active session takes keys. -/
def Orderly (s : KeyRouting) : KeyRoutingStep → Prop
  | .key k => ¬ IsControl k → s.compositorIsActive = false → s.HasRoom
  | .waiterKey pid k =>
    (s.waiters pid ≠ none → k ≠ 0 → k ≠ keyCtrlC → s.HasRoom) ∧
      (s.waiters pid = some false → k = keyCtrlC → s.Drained (some pid))
  | .spawn foreground _ _ => foreground = true → s.Drained none
  | .turn pid => s.Eats pid → s.activeProc = some pid
  | _ => True

instance (s : KeyRouting) : ∀ a, Decidable (s.Orderly a)
  | .key _ => inferInstanceAs (Decidable (_ → _ → _))
  | .waiterKey _ _ => inferInstanceAs (Decidable ((_ → _ → _ → _) ∧ (_ → _ → _)))
  | .spawn _ _ _ => inferInstanceAs (Decidable (_ → _))
  | .turn _ => inferInstanceAs (Decidable (_ → _))
  | .switch _ | .exit _ | .compositor _ | .read _ _ _ => .isTrue trivial

/-! ## The invariant -/

/-- What every step keeps that meets the condition -/
structure Routed (s : KeyRouting) : Prop extends Delivered s where
  valid : ∀ i, (s.queueOf i).Valid
  activeLt : s.active < maxSessions
  /-- The two foreground processes are the same, except after Ctrl+C. -/
  sync : s.foregroundProc = s.activeProc ∨
    s.activeProc = none ∧ ∀ p, s.foregroundProc = some p → s.dead p = true
  one : ∀ i j p, s.dead p = false → s.procOf i = some p → s.procOf j = some p → i = j
  fresh : ∀ p, s.nextPid ≤ p → s.typedFor p = [] ∧ s.eatenBy p = [] ∧ ∀ i, s.procOf i ≠ some p
  freshGlobal : ∀ p, s.nextPid ≤ p → s.foregroundProc ≠ some p

theorem routed_boot : boot.Routed where
  own e he := nomatch he
  order p := List.nil_prefix
  kept i p _ h := nomatch h
  rest p _ _ := rfl
  valid i := by
    have hzero : boot.queueOf i = .zeroed := ite_self _
    rw [hzero]
    exact ⟨by decide, by decide⟩
  activeLt := by decide
  sync := .inl rfl
  one i j p _ h := nomatch h
  fresh p _ := ⟨rfl, rfl, fun i h => nomatch h⟩
  freshGlobal p _ h := nomatch h

section

variable {s : KeyRouting}

theorem queueOf_active (s : KeyRouting) : s.queueOf s.active = s.fgQueue := if_pos rfl

theorem queueOf_of_ne {i : ℕ} (h : i ≠ s.active) : s.queueOf i = (s.sessions i).fgQueue := if_neg h

theorem Routed.validActive (h : s.Routed) : s.fgQueue.Valid := queueOf_active s ▸ h.valid s.active

theorem liveProc_eq_some {p : ℕ} : s.liveProc = some p ↔ s.activeProc = some p ∧ s.dead p = false := by
  rw [liveProc, Option.filter_eq_some_iff, Bool.not_eq_true']

theorem liveProc_ne_none {p : ℕ} (hp : s.activeProc = some p) (hlive : s.dead p = false) :
    s.liveProc = some p := liveProc_eq_some.mpr ⟨hp, hlive⟩

/-- The keys of the foreground process of the active session -/
theorem Routed.keptActive (h : s.Routed) {p : ℕ} (hp : s.activeProc = some p) (hlive : s.dead p = false) :
    s.eatenBy p ++ s.fgQueue.unread = s.typedFor p := by
  have := h.kept s.active p hlive hp
  rwa [queueOf_active] at this

/-! ## Parts of steps -/

/-- A process dies. -/
theorem Routed.kill (h : s.Routed) (pid : ℕ) : (s.kill pid).Routed := by
  have hlive : ∀ p, (s.kill pid).dead p = false → s.dead p = false := by
    intro p hp
    have hp : Function.update s.dead pid true p = false := hp
    by_cases hpid : p = pid
    · rw [hpid, Function.update_self] at hp
      cases hp
    · rwa [Function.update_of_ne hpid] at hp
  refine ⟨⟨h.own, h.order, fun i p hp => h.kept i p (hlive p hp), fun p hp => h.rest p (hlive p hp)⟩,
    h.valid, h.activeLt, ?_, fun i j p hp => h.one i j p (hlive p hp), h.fresh, h.freshGlobal⟩
  rcases h.sync with hsync | ⟨hnone, hdead⟩
  · exact .inl hsync
  · refine .inr ⟨hnone, fun p hp => ?_⟩
    show Function.update s.dead pid true p = true
    by_cases hpid : p = pid
    · rw [hpid, Function.update_self]
    · rw [Function.update_of_ne hpid]
      exact hdead p hp

/-- The queue is flushed, with no keys for a live process in it. -/
theorem Routed.flush (h : s.Routed) (hdrained : s.Drained none) : s.flush.Routed := by
  refine ⟨⟨h.own, h.order, fun i p hp hproc => ?_, h.rest⟩, fun i => ?_, h.activeLt, h.sync, h.one, h.fresh,
    h.freshGlobal⟩
  · by_cases hi : i = s.active
    · subst hi
      have hproc : s.activeProc = some p := hproc
      have hlive := liveProc_ne_none hproc hp
      have hempty := hdrained (by rw [hlive]; simp) (by rw [hlive]; simp)
      have hkept := h.keptActive hproc hp
      rw [(FgQueue.unread_eq_nil h.validActive).mpr hempty] at hkept
      have hqueue : s.flush.queueOf s.active = s.fgQueue.flush := if_pos rfl
      rw [hqueue, FgQueue.unread_flush]
      exact hkept
    · have hqueue : s.flush.queueOf i = s.queueOf i := by
        rw [queueOf_of_ne hi, queueOf_of_ne (s := s.flush) hi]
        rfl
      rw [hqueue]
      exact h.kept i p hp hproc
  · unfold queueOf
    split
    · exact FgQueue.valid_flush h.validActive
    · have := h.valid i
      rwa [queueOf_of_ne ‹_›] at this

/-- Another process, for which nothing was typed, or none is the foreground process of the active
session. -/
theorem Routed.setProc (h : s.Routed) (hempty : s.fgQueue.unread = []) {proc : Option ℕ}
    (hproc : ∀ p, proc = some p → p < s.nextPid ∧ s.typedFor p = [] ∧ s.eatenBy p = [] ∧
      ∀ i, s.procOf i ≠ some p) :
    ({ s with foregroundProc := proc }.setActiveProc proc).Routed := by
  have hactive : (({ s with foregroundProc := proc } : KeyRouting).setActiveProc proc).procOf s.active =
      proc := by simp [procOf, setActiveProc]
  have hother : ∀ i ≠ s.active,
      (({ s with foregroundProc := proc } : KeyRouting).setActiveProc proc).procOf i = s.procOf i :=
    fun i hi => by simp [procOf, setActiveProc, hi]
  have hqueue : ∀ i, (({ s with foregroundProc := proc } : KeyRouting).setActiveProc proc).queueOf i =
      s.queueOf i := by
    intro i
    by_cases hi : i = s.active <;> simp [queueOf, setActiveProc, hi]
  have hfresh : ∀ p, s.nextPid ≤ p → proc ≠ some p := by
    intro p hp heq
    have := (hproc p heq).1
    omega
  refine ⟨⟨h.own, h.order, fun i p hp hi => ?_, fun p hp hnone => ?_⟩, fun i => ?_, h.activeLt, .inl ?_,
    fun i j p hp hi hj => ?_, fun p hp => ⟨(h.fresh p hp).1, (h.fresh p hp).2.1, fun i => ?_⟩,
    fun p hp => hfresh p hp⟩
  · rw [hqueue]
    show s.eatenBy p ++ _ = s.typedFor p
    by_cases hia : i = s.active
    · subst hia
      rw [hactive] at hi
      obtain ⟨-, htyped, heaten, -⟩ := hproc p hi
      rw [queueOf_active, hempty, htyped, heaten]
      rfl
    · rw [hother i hia] at hi
      exact h.kept i p hp hi
  · show s.eatenBy p = s.typedFor p
    by_cases hold : s.activeProc = some p
    · have hkept := h.keptActive hold hp
      rwa [hempty, List.append_nil] at hkept
    · refine h.rest p hp fun i => ?_
      by_cases hia : i = s.active
      · rw [hia]
        exact hold
      · rw [← hother i hia]
        exact hnone i
  · rw [hqueue]
    exact h.valid i
  · exact hactive.symm
  · by_cases hia : i = s.active
    · by_cases hja : j = s.active
      · rw [hia, hja]
      · rw [hia, hactive] at hi
        rw [hother j hja] at hj
        exact absurd hj ((hproc p hi).2.2.2 j)
    · rw [hother i hia] at hi
      by_cases hja : j = s.active
      · rw [hja, hactive] at hj
        exact absurd hi ((hproc p hj).2.2.2 i)
      · rw [hother j hja] at hj
        exact h.one i j p hp hi hj
  · by_cases hia : i = s.active
    · rw [hia, hactive]
      exact hfresh p hp
    · rw [hother i hia]
      exact (h.fresh p hp).2.2 i

/-- A key that is pushed is typed for the foreground process of the active session. -/
theorem typedFor_pushKey (s : KeyRouting) (k : UInt8) (p : ℕ) :
    (s.pushKey k).typedFor p = s.typedFor p ++ if s.activeProc = some p then [k] else [] := by
  unfold typedFor KeyRouting.pushKey
  rw [List.filterMap_append]
  cases s.activeProc with
  | none => simp
  | some q => by_cases hq : q = p <;> simp [hq]

/-- A key is pushed, which fits if it is for a live process. -/
theorem Routed.pushKey (h : s.Routed) (hroom : s.HasRoom) (k : UInt8) : (s.pushKey k).Routed := by
  have htyped := typedFor_pushKey s k
  have hqueue : ∀ i ≠ s.active, (s.pushKey k).queueOf i = s.queueOf i := by
    intro i hi
    rw [queueOf_of_ne hi, queueOf_of_ne (s := s.pushKey k) hi]
    rfl
  refine ⟨⟨h.own, fun p => ?_, fun i p hp hi => ?_, fun p hp hnone => ?_⟩, fun i => ?_, h.activeLt, h.sync,
    h.one, fun p hp => ⟨?_, (h.fresh p hp).2⟩, h.freshGlobal⟩
  · rw [htyped]
    exact (h.order p).trans (List.prefix_append _ _)
  · rw [htyped]
    by_cases hia : i = s.active
    · subst hia
      have hi : s.activeProc = some p := hi
      have hfits : ¬ s.fgQueue.Full := hroom (by rw [liveProc_ne_none hi hp]; simp)
      have hpush : (s.pushKey k).queueOf s.active = s.fgQueue.push k := if_pos rfl
      rw [hpush, FgQueue.unread_push h.validActive hfits, if_pos hi, ← h.keptActive hi hp,
        List.append_assoc]
      rfl
    · have hne : s.activeProc ≠ some p := fun heq => hia (h.one i s.active p hp hi heq)
      rw [hqueue i hia, if_neg hne, List.append_nil]
      exact h.kept i p hp hi
  · have hactive : ¬ s.activeProc = some p := hnone s.active
    rw [htyped, if_neg hactive, List.append_nil]
    exact h.rest p hp hnone
  · by_cases hia : i = s.active
    · subst hia
      have hpush : (s.pushKey k).queueOf s.active = s.fgQueue.push k := if_pos rfl
      rw [hpush]
      exact FgQueue.valid_push h.validActive k
    · rw [hqueue i hia]
      exact h.valid i
  · obtain ⟨hnil, -, hproc⟩ := h.fresh p hp
    have hactive : ¬ s.activeProc = some p := hproc s.active
    rw [htyped, if_neg hactive, hnil]
    rfl

/-- The foreground process of the active session takes a key. -/
theorem Routed.eatKey (h : s.Routed) {pid : ℕ} (hrun : s.Running pid) (hpid : s.activeProc = some pid)
    (hne : s.fgQueue.readPtr ≠ s.fgQueue.writePtr) :
    Routed { s with
      fgQueue := s.fgQueue.eat.2
      eaten := s.eaten ++ [⟨pid, s.activeProc, s.fgQueue.eat.1⟩] } := by
  generalize ht : ({ s with
    fgQueue := s.fgQueue.eat.2
    eaten := s.eaten ++ [⟨pid, s.activeProc, s.fgQueue.eat.1⟩] } : KeyRouting) = t
  have heaten : ∀ p, t.eatenBy p = s.eatenBy p ++ if pid = p then [s.fgQueue.eat.1] else [] := by
    intro p
    rw [← ht]
    unfold eatenBy
    rw [List.filterMap_append]
    by_cases hp : pid = p <;> simp [hp]
  have hfields : t.active = s.active ∧ t.sessions = s.sessions ∧ t.dead = s.dead ∧ t.typed = s.typed ∧
      t.nextPid = s.nextPid ∧ t.foregroundProc = s.foregroundProc := by
    rw [← ht]
    exact ⟨rfl, rfl, rfl, rfl, rfl, rfl⟩
  obtain ⟨hactive, hsessions, hdead, htyped, hnext, hfg⟩ := hfields
  have hproc : ∀ i, t.procOf i = s.procOf i := fun i => by unfold procOf; rw [hsessions]
  have hact : t.activeProc = s.activeProc := by unfold activeProc; rw [hsessions, hactive]
  have htypedFor : ∀ p, t.typedFor p = s.typedFor p := fun p => by unfold typedFor; rw [htyped]
  have hkey := FgQueue.unread_eat h.validActive hne
  have hkept := h.keptActive hpid hrun.2
  have hqueueActive : t.queueOf s.active = s.fgQueue.eat.2 := by
    rw [← ht]
    exact if_pos rfl
  have hqueue : ∀ i ≠ s.active, t.queueOf i = s.queueOf i := by
    intro i hi
    rw [queueOf_of_ne hi, queueOf_of_ne (s := t) (hactive ▸ hi), hsessions]
  refine ⟨⟨fun e he => ?_, fun p => ?_, fun i p hp hi => ?_, fun p hp hnone => ?_⟩, fun i => ?_, ?_, ?_,
    fun i j p hp hi hj => ?_, fun p hp => ?_, fun p hp => ?_⟩
  · rw [← ht] at he
    rcases List.mem_append.mp he with he | he
    · exact h.own e he
    · rw [List.mem_singleton.mp he]
      exact hpid
  · rw [heaten, htypedFor]
    by_cases hp : pid = p
    · subst hp
      rw [if_pos rfl, ← hkept, hkey]
      exact ⟨s.fgQueue.eat.2.unread, by rw [List.append_assoc, List.singleton_append]⟩
    · rw [if_neg hp, List.append_nil]
      exact h.order p
  · rw [hproc] at hi
    rw [hdead] at hp
    rw [heaten, htypedFor]
    by_cases hia : i = s.active
    · subst hia
      obtain rfl : pid = p := Option.some.inj (hpid.symm.trans hi)
      rw [hqueueActive, if_pos rfl, ← hkept, hkey, List.append_assoc, List.singleton_append]
    · have hne : pid ≠ p := by
        rintro rfl
        exact hia (h.one i s.active pid hp hi hpid)
      rw [hqueue i hia, if_neg hne, List.append_nil]
      exact h.kept i p hp hi
  · have hnone : ∀ i, s.procOf i ≠ some p := fun i => hproc i ▸ hnone i
    rw [hdead] at hp
    have hne : pid ≠ p := by
      rintro rfl
      exact hnone s.active hpid
    rw [heaten, htypedFor, if_neg hne, List.append_nil]
    exact h.rest p hp hnone
  · by_cases hia : i = s.active
    · rw [hia, hqueueActive]
      exact FgQueue.valid_eat h.validActive
    · rw [hqueue i hia]
      exact h.valid i
  · rw [hactive]
    exact h.activeLt
  · rw [hfg, hact, hdead]
    exact h.sync
  · rw [hproc] at hi hj
    rw [hdead] at hp
    exact h.one i j p hp hi hj
  · rw [hnext] at hp
    obtain ⟨hnil, hnil', hnone⟩ := h.fresh p hp
    have hne : pid ≠ p := by
      have := hrun.1
      omega
    rw [htypedFor, heaten, if_neg hne, hnil']
    exact ⟨hnil, rfl, fun i => hproc i ▸ hnone i⟩
  · rw [hfg]
    exact h.freshGlobal p (hnext ▸ hp)

/-- The foreground process of a session that was switched away from is what it was, or dead. -/
theorem Routed.sessionSwitch (h : s.Routed) (id : ℕ) : (s.sessionSwitch id).Routed := by
  unfold KeyRouting.sessionSwitch
  by_cases hid : maxSessions ≤ id
  · rw [if_pos hid]
    exact h
  by_cases hsame : id = s.active
  · rw [if_neg hid, if_pos hsame]
    exact h
  rw [if_neg hid, if_neg hsame]
  dsimp only
  generalize ht : ({ s with
    sessions := Function.update s.sessions s.active ⟨s.fgQueue, s.foregroundProc⟩
    active := id
    fgQueue := (Function.update s.sessions s.active ⟨s.fgQueue, s.foregroundProc⟩ id).fgQueue
    foregroundProc := (Function.update s.sessions s.active ⟨s.fgQueue, s.foregroundProc⟩ id).foregroundProc
    } : KeyRouting) = t
  have hfields : t.dead = s.dead ∧ t.typed = s.typed ∧ t.eaten = s.eaten ∧ t.nextPid = s.nextPid ∧
      t.active = id := by
    rw [← ht]
    exact ⟨rfl, rfl, rfl, rfl, rfl⟩
  obtain ⟨hdead, htyped, heaten, hnext, hactive⟩ := hfields
  have htypedFor : ∀ p, t.typedFor p = s.typedFor p := fun p => by unfold typedFor; rw [htyped]
  have heatenBy : ∀ p, t.eatenBy p = s.eatenBy p := fun p => by unfold eatenBy; rw [heaten]
  have hqueue : ∀ i, t.queueOf i = s.queueOf i := by
    intro i
    rw [← ht]
    unfold queueOf
    dsimp only
    by_cases hi : i = id
    · have hia : i ≠ s.active := fun h => hsame (hi ▸ h)
      rw [if_pos hi, if_neg hia, Function.update_of_ne hsame, hi]
    · rw [if_neg hi]
      by_cases hia : i = s.active
      · rw [if_pos hia, hia, Function.update_self]
      · rw [if_neg hia, Function.update_of_ne hia]
  have hprocActive : t.procOf s.active = s.foregroundProc := by
    rw [← ht]
    simp [procOf]
  have hprocOther : ∀ i ≠ s.active, t.procOf i = s.procOf i := by
    intro i hi
    rw [← ht]
    simp [procOf, hi]
  have hproc : ∀ i p, s.dead p = false → (t.procOf i = some p ↔ s.procOf i = some p) := by
    intro i p hp
    by_cases hia : i = s.active
    · subst hia
      rw [hprocActive]
      rcases h.sync with hsync | ⟨hnone, hdead'⟩
      · rw [hsync]
        rfl
      · refine ⟨fun heq => ?_, fun heq => ?_⟩
        · rw [hdead' p heq] at hp
          cases hp
        · have heq : s.activeProc = some p := heq
          rw [hnone] at heq
          cases heq
    · rw [hprocOther i hia]
  refine ⟨⟨fun e he => h.own e (heaten ▸ he), fun p => ?_, fun i p hp hi => ?_, fun p hp hnone => ?_⟩,
    fun i => ?_, ?_, .inl ?_, fun i j p hp hi hj => ?_, fun p hp => ?_, fun p hp => ?_⟩
  · rw [htypedFor, heatenBy]
    exact h.order p
  · rw [hdead] at hp
    rw [htypedFor, heatenBy, hqueue]
    exact h.kept i p hp ((hproc i p hp).mp hi)
  · rw [hdead] at hp
    rw [htypedFor, heatenBy]
    exact h.rest p hp fun i hi => hnone i ((hproc i p hp).mpr hi)
  · rw [hqueue]
    exact h.valid i
  · rw [hactive]
    exact Nat.not_le.mp hid
  · rw [← ht]
    rfl
  · rw [hdead] at hp
    exact h.one i j p hp ((hproc i p hp).mp hi) ((hproc j p hp).mp hj)
  · rw [hnext] at hp
    obtain ⟨hnil, hnil', hnone⟩ := h.fresh p hp
    refine ⟨by rw [htypedFor, hnil], by rw [heatenBy, hnil'], fun i => ?_⟩
    by_cases hia : i = s.active
    · rw [hia, hprocActive]
      exact h.freshGlobal p hp
    · rw [hprocOther i hia]
      exact hnone i
  · have hglobal : t.foregroundProc = s.procOf id := by
      rw [← ht]
      simp [procOf, hsame]
    rw [hglobal]
    exact (h.fresh p (hnext ▸ hp)).2.2 id

/-- A process exits. -/
theorem Routed.processExit (h : s.Routed) (pid : ℕ) : (s.processExit pid).Routed := by
  have hkill := h.kill pid
  have hdead : (s.kill pid).dead pid = true := Function.update_self _ _ _
  have hproc : ∀ i, (s.processExit pid).procOf i =
      if i < maxSessions ∧ s.procOf i = some pid then none else s.procOf i := by
    intro i
    show (if i < maxSessions ∧ s.procOf i = some pid then _ else s.sessions i).foregroundProc = _
    split <;> rfl
  have hlive : ∀ i p, (s.kill pid).dead p = false →
      ((s.processExit pid).procOf i = some p ↔ s.procOf i = some p) := by
    intro i p hp
    have hne : pid ≠ p := by
      rintro rfl
      rw [hdead] at hp
      cases hp
    rw [hproc]
    by_cases hi : i < maxSessions ∧ s.procOf i = some pid
    · rw [if_pos hi, hi.2]
      simp [hne]
    · rw [if_neg hi]
  have hqueue : ∀ i, (s.processExit pid).queueOf i = s.queueOf i := by
    intro i
    show (if i = s.active then s.fgQueue else
      (if i < maxSessions ∧ s.procOf i = some pid then
        { s.sessions i with foregroundProc := none } else s.sessions i).fgQueue) = s.queueOf i
    unfold queueOf
    split
    · rfl
    · split <;> rfl
  have hact : (s.processExit pid).activeProc = if s.activeProc = some pid then none else s.activeProc := by
    have := hproc s.active
    rwa [if_congr (and_iff_right h.activeLt) rfl rfl] at this
  have hglobal : (s.processExit pid).foregroundProc =
      if s.foregroundProc = some pid then none else s.foregroundProc := rfl
  refine ⟨⟨hkill.own, hkill.order, fun i p hp hi => ?_, fun p hp hnone => ?_⟩, fun i => ?_, h.activeLt, ?_,
    fun i j p hp hi hj => ?_, fun p hp => ⟨(h.fresh p hp).1, (h.fresh p hp).2.1, fun i => ?_⟩, fun p hp => ?_⟩
  · rw [hqueue]
    exact hkill.kept i p hp ((hlive i p hp).mp hi)
  · exact hkill.rest p hp fun i hi => hnone i ((hlive i p hp).mpr hi)
  · rw [hqueue]
    exact h.valid i
  · rw [hact, hglobal]
    rcases hkill.sync with hsync | ⟨hnone, hdead'⟩
    · have hsync : s.foregroundProc = s.activeProc := hsync
      rw [hsync]
      exact .inl rfl
    · have hnone : s.activeProc = none := hnone
      refine .inr ⟨by rw [hnone]; rfl, fun p hp => ?_⟩
      split at hp
      · cases hp
      · exact hdead' p hp
  · exact hkill.one i j p hp ((hlive i p hp).mp hi) ((hlive j p hp).mp hj)
  · rw [hproc]
    split
    · exact fun heq => nomatch heq
    · exact (h.fresh p hp).2.2 i
  · rw [hglobal]
    split
    · exact fun heq => nomatch heq
    · exact h.freshGlobal p hp

/-- The session loses its foreground process, which is dead. -/
theorem Routed.clearActive (h : s.Routed) (hdead : ∀ p, s.activeProc = some p → s.dead p = true) :
    (s.setActiveProc none).Routed := by
  have hactive : (s.setActiveProc none).procOf s.active = none := by simp [procOf, setActiveProc]
  have hother : ∀ i ≠ s.active, (s.setActiveProc none).procOf i = s.procOf i :=
    fun i hi => by simp [procOf, setActiveProc, hi]
  have hqueue : ∀ i, (s.setActiveProc none).queueOf i = s.queueOf i := by
    intro i
    by_cases hi : i = s.active <;> simp [queueOf, setActiveProc, hi]
  have hproc : ∀ i p, (s.setActiveProc none).procOf i = some p → i ≠ s.active ∧ s.procOf i = some p := by
    intro i p hi
    by_cases hia : i = s.active
    · rw [hia, hactive] at hi
      cases hi
    · exact ⟨hia, hother i hia ▸ hi⟩
  refine ⟨⟨h.own, h.order, fun i p hp hi => ?_, fun p hp hnone => h.rest p hp fun i hi => ?_⟩, fun i => ?_,
    h.activeLt, .inr ⟨hactive, fun p hp => ?_⟩,
    fun i j p hp hi hj => h.one i j p hp (hproc i p hi).2 (hproc j p hj).2,
    fun p hp => ⟨(h.fresh p hp).1, (h.fresh p hp).2.1, fun i hi => (h.fresh p hp).2.2 i (hproc i p hi).2⟩,
    h.freshGlobal⟩
  · rw [hqueue]
    exact h.kept i p hp (hproc i p hi).2
  · by_cases hia : i = s.active
    · have hp : s.dead p = false := hp
      rw [hia] at hi
      rw [hdead p hi] at hp
      cases hp
    · exact hnone i (hother i hia ▸ hi)
  · rw [hqueue]
    exact h.valid i
  · rcases h.sync with hsync | hsync
    · have hp : s.foregroundProc = some p := hp
      exact hdead p (hsync ▸ hp)
    · exact hsync.2 p hp

/-- Compositors, waits and calls do not count. -/
theorem Routed.aside (h : s.Routed) (compositor : Option ℕ) (waiters : ℕ → Option Bool)
    (reads : ℕ → Option StdinRead) :
    Routed { s with compositor := compositor, waiters := waiters, reads := reads } :=
  ⟨⟨h.own, h.order, h.kept, h.rest⟩, h.valid, h.activeLt, h.sync, h.one, h.fresh, h.freshGlobal⟩

/-! ## Steps -/

/-- A key that the main loop does not act on itself -/
theorem mainLoopKey_of_not_control {k : UInt8} (hk : ¬ IsControl k) :
    s.mainLoopKey k =
      if s.compositorIsActive then s else if s.activeProc.isSome then s.pushKey k else s := by
  rw [IsControl, not_or, not_or] at hk
  unfold KeyRouting.mainLoopKey
  rw [if_neg hk.1, if_neg hk.2.1, if_neg hk.2.2]

/-- With the process dead, nothing in the queue is for a live one. -/
theorem drained_kill {pid : ℕ} (h : s.Drained (some pid)) : (s.kill pid).Drained none := by
  intro hne _
  obtain ⟨p, hp⟩ := Option.ne_none_iff_exists'.mp hne
  obtain ⟨hproc, hlive⟩ := liveProc_eq_some.mp hp
  have hlive : Function.update s.dead pid true p = false := hlive
  have hpid : p ≠ pid := by
    rintro rfl
    rw [Function.update_self] at hlive
    cases hlive
  rw [Function.update_of_ne hpid] at hlive
  have hp' : s.liveProc = some p := liveProc_eq_some.mpr ⟨hproc, hlive⟩
  refine h (by rw [hp']; simp) ?_
  rw [hp']
  simp [hpid]

/-- The main loop's turn -/
theorem Routed.mainLoopKey (h : s.Routed) {k : UInt8} (hk : s.Orderly (.key k)) :
    (s.mainLoopKey k).Routed := by
  by_cases hcontrol : IsControl k
  · unfold KeyRouting.mainLoopKey
    by_cases hzero : k = 0
    · rw [if_pos hzero]
      exact h
    rw [if_neg hzero]
    by_cases hf : keyF1 ≤ k ∧ k ≤ keyF4
    · rw [if_pos hf]
      exact h.sessionSwitch _
    rw [if_neg hf]
    by_cases hc : k = keyCtrlC
    · rw [if_pos hc]
      cases hproc : s.activeProc with
      | none => exact h
      | some pid =>
        have hdead : ∀ p, (s.kill pid).activeProc = some p → (s.kill pid).dead p = true := by
          intro p hp
          obtain rfl : pid = p := Option.some.inj (hproc.symm.trans hp)
          exact Function.update_self _ _ _
        refine ((h.kill pid).clearActive hdead).flush fun hne => absurd ?_ hne
        rw [liveProc]
        have : ((s.kill pid).setActiveProc none).activeProc = none := by
          simp [activeProc, setActiveProc]
        rw [this]
        rfl
    · exact absurd hcontrol (by simp [IsControl, hzero, hf, hc])
  · rw [mainLoopKey_of_not_control hcontrol]
    by_cases hcomp : s.compositorIsActive = true
    · rw [if_pos hcomp]
      exact h
    rw [if_neg hcomp]
    split
    · exact h.pushKey (hk hcontrol (Bool.not_eq_true _ ▸ hcomp)) k
    · exact h

/-- The turn of a loop that waits -/
theorem Routed.waitLoopKey (h : s.Routed) {pid : ℕ} {k : UInt8} (hk : s.Orderly (.waiterKey pid k)) :
    (s.waitLoopKey pid k).Routed := by
  obtain ⟨hroom, hdrained⟩ := hk
  unfold KeyRouting.waitLoopKey
  cases hw : s.waiters pid with
  | none => exact h
  | some killed =>
    dsimp only
    by_cases hzero : k = 0
    · rw [if_pos hzero]
      exact h
    rw [if_neg hzero]
    by_cases hc : k = keyCtrlC
    · rw [if_pos hc]
      cases killed with
      | true => exact h
      | false =>
        exact ((h.kill pid).flush (drained_kill (hdrained hw hc))).aside s.compositor _ s.reads
    · rw [if_neg hc]
      exact h.pushKey (hroom (by rw [hw]; simp) hzero hc) k

/-- `wasm_spawn` -/
theorem Routed.spawn (h : s.Routed) {foreground wait started : Bool}
    (hdrained : foreground = true → s.Drained none) : (s.spawn foreground wait started).Routed := by
  have hnext : Routed { s with nextPid := s.nextPid + 1 } :=
    ⟨⟨h.own, h.order, h.kept, h.rest⟩, h.valid, h.activeLt, h.sync, h.one,
      fun p hp => h.fresh p (Nat.le_of_succ_le hp), fun p hp => h.freshGlobal p (Nat.le_of_succ_le hp)⟩
  have hfresh := h.fresh s.nextPid le_rfl
  unfold KeyRouting.spawn
  dsimp only
  cases foreground with
  | false =>
    rw [if_neg Bool.false_ne_true]
    cases started with
    | true => exact hnext
    | false => exact hnext.kill _
  | true =>
    rw [if_pos rfl]
    have hset := @Routed.setProc _ (hnext.flush (hdrained rfl)) (FgQueue.unread_flush _) (some s.nextPid)
      fun p hp => by
        obtain rfl := Option.some.inj hp
        exact ⟨Nat.lt_succ_self _, hfresh.1, hfresh.2.1, hfresh.2.2⟩
    cases started with
    | true =>
      rw [if_pos rfl]
      split
      · exact hset.aside s.compositor _ s.reads
      · exact hset
    | false =>
      rw [if_neg Bool.false_ne_true]
      exact (hset.kill _).setProc (FgQueue.unread_flush _) fun p hp => nomatch hp

/-- A turn of the loop of `fd_read` -/
theorem Routed.readTurn (h : s.Routed) {pid : ℕ} (hrun : s.Running pid) {r : StdinRead}
    (hr : s.reads pid = some r) (hturn : s.Orderly (.turn pid)) : (s.readTurn pid r).Routed := by
  obtain ⟨wasi, lens, bytes⟩ := r
  unfold KeyRouting.readTurn
  dsimp only
  cases lens with
  | nil => exact h.aside s.compositor s.waiters _
  | cons len lens =>
    dsimp only
    by_cases hfull : len ≤ bytes.length
    · rw [if_pos hfull]
      exact h.aside s.compositor s.waiters _
    rw [if_neg hfull]
    by_cases hempty : s.fgQueue.readPtr = s.fgQueue.writePtr
    · have heat : s.fgQueue.eat = (0, s.fgQueue) := if_pos hempty
      rw [heat, if_pos rfl, if_pos hempty, List.append_nil]
      exact h
    · have hwants : WantsKey (s.reads pid) := by
        rw [hr]
        exact Nat.not_le.mp hfull
      have heaten := h.eatKey hrun (hturn ⟨hrun, hwants, hempty⟩) hempty
      rw [if_neg hempty]
      split
      · exact heaten
      · split
        · exact heaten.aside s.compositor s.waiters _
        · exact heaten.aside s.compositor s.waiters _

/-- A step that meets the condition keeps the invariant. -/
theorem Routed.step (h : s.Routed) {a : KeyRoutingStep} (ha : s.Orderly a) : (s.step a).Routed := by
  cases a with
  | key k => exact h.mainLoopKey ha
  | waiterKey pid k => exact h.waitLoopKey ha
  | switch id => exact h.sessionSwitch id
  | spawn foreground wait started => exact h.spawn ha
  | exit pid => exact h.processExit pid
  | compositor session => exact h.aside session s.waiters s.reads
  | read pid wasi lens =>
    unfold KeyRouting.step
    dsimp only
    split
    · exact h.aside s.compositor s.waiters _
    · exact h
  | turn pid =>
    unfold KeyRouting.step
    dsimp only
    split
    · rename_i hrun
      cases hr : s.reads pid with
      | none => exact h
      | some r => exact h.readTurn hrun hr ha
    · exact h

/-! ## The condition is necessary -/

/-- A key that does not fit is lost. -/
theorem Routed.hasRoom_of_delivered (h : s.Routed) {k : UInt8} (hd : (s.pushKey k).Delivered) :
    s.HasRoom := by
  intro hne hfull
  obtain ⟨p, hp⟩ := Option.ne_none_iff_exists'.mp hne
  obtain ⟨hproc, hlive⟩ := liveProc_eq_some.mp hp
  have hkept := hd.kept s.active p hlive hproc
  have hqueue : (s.pushKey k).queueOf s.active = s.fgQueue.push k := if_pos rfl
  rw [hqueue, FgQueue.push_of_full hfull, typedFor_pushKey, if_pos hproc, ← h.keptActive hproc hlive] at hkept
  have hlen := congrArg List.length hkept
  have heaten : (s.pushKey k).eatenBy p = s.eatenBy p := rfl
  rw [heaten] at hlen
  simp only [List.length_append, List.length_singleton] at hlen
  omega

/-- Keys that a live process should get are not in the queue, if it has all that were typed for it. -/
theorem Routed.empty_of_eaten (h : s.Routed) {p : ℕ} (hproc : s.activeProc = some p)
    (hlive : s.dead p = false) (hall : s.eatenBy p = s.typedFor p) :
    s.fgQueue.readPtr = s.fgQueue.writePtr := by
  have hkept := h.keptActive hproc hlive
  rw [hall] at hkept
  exact (FgQueue.unread_eq_nil h.validActive).mp (List.append_right_eq_self.mp hkept)

/-- A step after which keys are delivered meets the condition. -/
theorem Routed.orderly (h : s.Routed) {a : KeyRoutingStep} (hd : (s.step a).Delivered) : s.Orderly a := by
  cases a with
  | key k =>
    intro hcontrol hcomp hne
    have hstep : s.mainLoopKey k = s.pushKey k := by
      obtain ⟨p, hp⟩ := Option.ne_none_iff_exists'.mp hne
      rw [mainLoopKey_of_not_control hcontrol, hcomp, if_neg Bool.false_ne_true,
        (liveProc_eq_some.mp hp).1]
      rfl
    have hd : (s.mainLoopKey k).Delivered := hd
    exact h.hasRoom_of_delivered (hstep ▸ hd) hne
  | waiterKey pid k =>
    have hd : (s.waitLoopKey pid k).Delivered := hd
    unfold KeyRouting.waitLoopKey at hd
    refine ⟨fun hw hzero hc => ?_, fun hw hc hne hother => ?_⟩
    · obtain ⟨killed, hw⟩ := Option.ne_none_iff_exists'.mp hw
      rw [hw] at hd
      dsimp only at hd
      rw [if_neg hzero, if_neg hc] at hd
      exact h.hasRoom_of_delivered hd
    · obtain ⟨p, hp⟩ := Option.ne_none_iff_exists'.mp hne
      obtain ⟨hproc, hlive⟩ := liveProc_eq_some.mp hp
      have hpid : p ≠ pid := fun heq => hother (heq ▸ hp)
      have hnull : keyCtrlC ≠ 0 := by decide
      rw [hw, hc] at hd
      dsimp only at hd
      rw [if_neg hnull, if_pos rfl, if_neg Bool.false_ne_true] at hd
      have hdead : Function.update s.dead pid true p = false := by rwa [Function.update_of_ne hpid]
      have hkept : s.eatenBy p ++ (if s.active = s.active then s.fgQueue.flush else
          (s.sessions s.active).fgQueue).unread = s.typedFor p := hd.kept s.active p hdead hproc
      rw [if_pos rfl, FgQueue.unread_flush, List.append_nil] at hkept
      exact h.empty_of_eaten hproc hlive hkept
  | spawn foreground wait started =>
    intro hforeground hne _
    subst hforeground
    obtain ⟨p, hp⟩ := Option.ne_none_iff_exists'.mp hne
    obtain ⟨hproc, hlive⟩ := liveProc_eq_some.mp hp
    have hd : (s.spawn true wait started).Delivered := hd
    have hpid : p ≠ s.nextPid := fun heq => (h.fresh s.nextPid le_rfl).2.2 s.active (heq ▸ hproc)
    have hsame : (s.spawn true wait started).eatenBy p = s.eatenBy p ∧
        (s.spawn true wait started).typedFor p = s.typedFor p := by
      cases started <;> cases wait <;> exact ⟨rfl, rfl⟩
    refine h.empty_of_eaten hproc hlive ?_
    rw [← hsame.1, ← hsame.2]
    refine hd.rest p ?_ fun i hi => ?_
    · cases started with
      | true => cases wait <;> exact hlive
      | false => exact (Function.update_of_ne hpid _ _).trans hlive
    · by_cases hia : i = s.active
      · subst hia
        have hactive : (s.spawn true wait started).procOf s.active =
            if started then some s.nextPid else none := by
          cases started <;> cases wait <;>
            simp [procOf, KeyRouting.spawn, setActiveProc, KeyRouting.flush, KeyRouting.kill]
        rw [hactive] at hi
        split at hi
        · exact hpid (Option.some.inj hi).symm
        · cases hi
      · have hother : (s.spawn true wait started).procOf i = s.procOf i := by
          cases started <;> cases wait <;>
            simp [procOf, KeyRouting.spawn, setActiveProc, KeyRouting.flush, KeyRouting.kill, hia]
        rw [hother] at hi
        exact hia (h.one i s.active p hlive hi hproc)
  | turn pid =>
    rintro ⟨hrun, hwants, hempty⟩
    have hstep : s.step (.turn pid) = if s.Running pid then (s.reads pid).elim s (s.readTurn pid) else s := by
      refine ite_congr rfl (fun _ => ?_) fun _ => rfl
      cases s.reads pid <;> rfl
    rw [hstep, if_pos hrun] at hd
    cases hr : s.reads pid with
    | none =>
      rw [hr] at hwants
      cases hwants
    | some r =>
      obtain ⟨wasi, lens, bytes⟩ := r
      rw [hr] at hwants hd
      cases lens with
      | nil => cases hwants
      | cons len lens =>
        have hlt : bytes.length < len := hwants
        refine hd.own ⟨pid, s.activeProc, s.fgQueue.eat.1⟩ ?_
        have heaten : (s.readTurn pid ⟨wasi, len :: lens, bytes⟩).eaten =
            s.eaten ++ [⟨pid, s.activeProc, s.fgQueue.eat.1⟩] := by
          unfold KeyRouting.readTurn
          dsimp only
          rw [if_neg (Nat.not_le.mpr hlt), if_neg hempty]
          split
          · rfl
          · split <;> rfl
        show _ ∈ (s.readTurn pid ⟨wasi, len :: lens, bytes⟩).eaten
        rw [heaten]
        exact List.mem_append_right _ (List.mem_singleton_self _)
  | switch id => trivial
  | exit pid => trivial
  | compositor session => trivial
  | read pid wasi lens => trivial

end

end KeyRouting

end Sandflea
