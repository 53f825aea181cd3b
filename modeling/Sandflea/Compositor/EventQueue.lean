import Sandflea.Compositor.WindowServer

/-!
# The event queue of the compositor

Several tasks push events (`compositor_push_event`: the main loop, programs, the compositor itself) and the
compositor drains the queue with interrupts off (`poll_events_internal`). A push reads the write index, looks for
room, reads the index again, writes four words and then stores the index that it computed first, and another
task may run between any two of these; `window.create` and others push with interrupts off, in one step. Every
event that was pushed is delivered once, whole and in the order of its task, as long as no push stores the index
while another is under way (`pushed_delivered`); otherwise an event may be lost (`pushes_overlap`).
-/

namespace Sandflea

/-- How far a push has come. -/
inductive EventPushPoint
  /-- `next` was computed. -/
  | loaded (next : Fin compositorEventQueueSize)
  /-- `next` is not the cell to be read; `room` tells whether the queue had a free cell. -/
  | checked (next : Fin compositorEventQueueSize) (room : Bool)
  /-- `idx` was computed, and `k` words are written. -/
  | writing (next idx : Fin compositorEventQueueSize) (room : Bool) (k : ℕ)
deriving DecidableEq, Repr

/-- A cell of `g_event_buf`: type, data0, data1, data2 -/
abbrev EventWords : Type := Fin 4 → UInt32

/-- The words of an event -/
def CompositorEvent.words (ev : CompositorEvent) : EventWords := ![ev.type.toUInt32, ev.d0, ev.d1, ev.d2]

/-- The queue and the tasks that push. -/
structure EventQueue where
  /-- `g_event_buf` with `g_event_read` and `g_event_write` -/
  queue : Ring.Queue EventWords compositorEventQueueSize
  /-- The event that a task pushes, and how far the push has come. -/
  progress : ℕ → Option (CompositorEvent × EventPushPoint)
  /-- The events that were pushed while the queue had a free cell, each with its task. -/
  pushed : List (ℕ × CompositorEvent)
  /-- The events that the compositor was given. -/
  delivered : List EventWords

/-- A step of a task. -/
inductive QueueStep
  /-- A task calls `compositor_push_event`, which reads the write index. -/
  | begin (task : ℕ) (ev : CompositorEvent)
  /-- The push goes on by one access to the shared state. -/
  | advance (task : ℕ)
  /-- A push with interrupts off -/
  | push (task : ℕ) (ev : CompositorEvent)
  /-- The loop of `poll_events_internal`, with interrupts off -/
  | poll (memSize bufOffset : UInt32) (maxEvents : Int32)
deriving DecidableEq, Repr

namespace EventQueue

/-- `compositor_init` -/
def init : EventQueue where
  queue := ⟨fun _ _ => 0, 0, 0, compositorEventQueueSize_pos, compositorEventQueueSize_pos⟩
  progress _ := none
  pushed := []
  delivered := []

/-- The cell after the one to be written -/
def nextWrite (q : Ring.Queue EventWords compositorEventQueueSize) : Fin compositorEventQueueSize :=
  ⟨(q.write + 1) % compositorEventQueueSize, Nat.mod_lt _ compositorEventQueueSize_pos⟩

/-- Write one word of a cell. -/
def storeWord (q : Ring.Queue EventWords compositorEventQueueSize) (idx : ℕ) (k : Fin 4) (w : UInt32) :
    Ring.Queue EventWords compositorEventQueueSize :=
  { q with cell := Function.update q.cell idx (Function.update (q.cell idx) k w) }

/-- Store the write index. -/
def publish (q : Ring.Queue EventWords compositorEventQueueSize) (next : Fin compositorEventQueueSize) :
    Ring.Queue EventWords compositorEventQueueSize :=
  { q with write := next, write_lt := next.isLt }

/-- A task is somewhere else. -/
def setProgress (s : EventQueue) (task : ℕ) (p : Option (CompositorEvent × EventPushPoint)) : EventQueue :=
  { s with progress := Function.update s.progress task p }

/-- A push ends; it counts if the queue had a free cell. -/
def finish (s : EventQueue) (task : ℕ) (ev : CompositorEvent) (room : Bool) : EventQueue :=
  { s.setProgress task none with pushed := if room then s.pushed ++ [(task, ev)] else s.pushed }

/-- The next access of a push -/
def advance (s : EventQueue) (task : ℕ) : EventQueue :=
  match s.progress task with
  | none => s
  | some (ev, .loaded next) =>
    if next = s.queue.read then s.finish task ev (¬ s.queue.Full)
    else s.setProgress task (some (ev, .checked next (¬ s.queue.Full)))
  | some (ev, .checked next room) =>
    s.setProgress task (some (ev, .writing next ⟨s.queue.write, s.queue.write_lt⟩ room 0))
  | some (ev, .writing next idx room k) =>
    if h : k < 4 then
      { s with queue := storeWord s.queue idx ⟨k, h⟩ (ev.words ⟨k, h⟩) }.setProgress task
        (some (ev, .writing next idx room (k + 1)))
    else { s with queue := publish s.queue next }.finish task ev room

/-- The state after a step -/
def step (s : EventQueue) : QueueStep → EventQueue
  | .begin task ev =>
    if s.progress task = none then s.setProgress task (some (ev, .loaded (nextWrite s.queue))) else s
  | .advance task => s.advance task
  | .push task ev =>
    if s.progress task = none then
      { s with queue := s.queue.push ev.words }.finish task ev (¬ s.queue.Full)
    else s
  | .poll memSize bufOffset maxEvents =>
    let (evs, rest) := s.queue.drain
      (fun k => WindowServer.eventOffset bufOffset k ≤ memSize.toNat ∧
        16 ≤ memSize.toNat - WindowServer.eventOffset bufOffset k)
      maxEvents.toUInt32.toNat 0
    { s with queue := rest, delivered := s.delivered ++ evs }

/-! ## The property and the condition -/

/-- What was delivered, with what is still in the queue, are the events that were pushed, each once and with its
own words, those of one task in the order in which it pushed them. -/
def Sound (s : EventQueue) : Prop :=
  ∃ evs : List (ℕ × CompositorEvent),
    evs.map (fun ev => ev.2.words) = s.delivered ++ s.queue.toList ∧
      ∀ task, evs.filter (fun ev => ev.1 = task) = s.pushed.filter fun ev => ev.1 = task

/-- The task whose push stores the write index in a step -/
def publisher (s : EventQueue) : QueueStep → Option ℕ
  | .advance task =>
    match s.progress task with
    | some (_, .writing _ _ _ k) => if k < 4 then none else some task
    | _ => none
  | .push task _ => if s.progress task = none ∧ ¬ s.queue.Full then some task else none
  | _ => none

/-- No push stores the write index while another is under way. -/
def Apart (s : EventQueue) (a : QueueStep) : Prop :=
  ∀ task, s.publisher a = some task → ∀ other, other ≠ task → s.progress other = none

/-! ## The invariant -/

/-- A push that is under way has the right indices, and counts. -/
def PointAt (q : Ring.Queue EventWords compositorEventQueueSize) : EventPushPoint → Prop
  | .loaded next => next = nextWrite q
  | .checked next room => next = nextWrite q ∧ room = true ∧ ¬ q.Full
  | .writing next idx room _ => next = nextWrite q ∧ room = true ∧ ¬ q.Full ∧ (idx : ℕ) = q.write

/-- The push of a task has begun to write. -/
def Writes (s : EventQueue) (task : ℕ) : Prop :=
  ∃ ev next idx room k, s.progress task = some (ev, .writing next idx room k)

/-- The queue holds what was pushed, and the cell to be written next the words of the push that alone writes. -/
structure Carried (s : EventQueue) : Prop where
  contents : s.delivered ++ s.queue.toList = s.pushed.map fun ev => ev.2.words
  point : ∀ task ev p, s.progress task = some (ev, p) → PointAt s.queue p
  words : ∀ task ev next idx room k, s.progress task = some (ev, .writing next idx room k) →
    (∀ other, other ≠ task → ¬ s.Writes other) → ∀ j : Fin 4, (j : ℕ) < k →
      s.queue.cell s.queue.write j = ev.words j

theorem carried_init : init.Carried where
  contents := rfl
  point task ev p h := by cases h
  words task ev next idx room k h := by cases h

theorem Carried.sound {s : EventQueue} (h : s.Carried) : s.Sound := ⟨s.pushed, h.contents.symm, fun _ => rfl⟩

/-! ## The changes of the queue -/

section

variable {q : Ring.Queue EventWords compositorEventQueueSize}

/-- A word that goes into the cell to be written next is not seen yet. -/
theorem toList_storeWord {idx : ℕ} (hidx : idx = q.write) (k : Fin 4) (w : UInt32) :
    (storeWord q idx k w).toList = q.toList := by
  subst hidx
  exact Ring.contents_update_write q.read_lt q.write_lt _

/-- Storing the next index is a push of what the cell holds. -/
theorem publish_eq_push (hroom : ¬ q.Full) : publish q (nextWrite q) = q.push (q.cell q.write) := by
  unfold Ring.Queue.push
  rw [if_neg hroom, Function.update_eq_self]
  rfl

/-- The next index is that of the cell to be read exactly if the queue is full. -/
theorem nextWrite_eq_iff : (nextWrite q : ℕ) = q.read ↔ q.Full := Iff.rfl

end

/-! ## Steps -/

section

variable {s : EventQueue} {task : ℕ}

@[simp] theorem progress_setProgress_self (p : Option (CompositorEvent × EventPushPoint)) :
    (s.setProgress task p).progress task = p := Function.update_self _ _ _

theorem progress_setProgress_of_ne {other : ℕ} (h : other ≠ task)
    (p : Option (CompositorEvent × EventPushPoint)) :
    (s.setProgress task p).progress other = s.progress other := Function.update_of_ne h _ _

/-- A task that does not write goes somewhere that is right for it. -/
theorem Carried.setProgress (h : s.Carried) {p : Option (CompositorEvent × EventPushPoint)}
    (hidle : ¬ s.Writes task)
    (hpoint : ∀ ev pt, p = some (ev, pt) → PointAt s.queue pt)
    (hwords : ∀ ev next idx room k, p = some (ev, .writing next idx room k) → k = 0) :
    (s.setProgress task p).Carried := by
  constructor
  · exact h.contents
  · intro other ev pt hpt
    by_cases ho : other = task
    · subst ho
      rw [progress_setProgress_self] at hpt
      exact hpoint ev pt hpt
    · rw [progress_setProgress_of_ne ho] at hpt
      exact h.point other ev pt hpt
  · intro other ev next idx room k hpt halone j hj
    by_cases ho : other = task
    · subst ho
      rw [progress_setProgress_self] at hpt
      have hk := hwords ev next idx room k hpt
      omega
    · rw [progress_setProgress_of_ne ho] at hpt
      -- The task did not write before, so whoever writes alone now wrote alone before.
      apply h.words other ev next idx room k hpt _ j hj
      intro third hthird hwrites
      by_cases ht : third = task
      · exact hidle (ht ▸ hwrites)
      · apply halone third hthird
        obtain ⟨ev', next', idx', room', k', hpt'⟩ := hwrites
        exact ⟨ev', next', idx', room', k', (progress_setProgress_of_ne ht p).trans hpt'⟩

/-- A push ends that is not in the queue and does not count. -/
theorem Carried.finish_false (h : s.Carried) (hidle : ¬ s.Writes task) (ev : CompositorEvent) :
    (s.finish task ev false).Carried :=
  h.setProgress hidle (fun _ _ hp => by cases hp) (fun _ _ _ _ _ hp => by cases hp)

/-- A push ends that is in the queue, while nobody else pushes. -/
theorem Carried.finish_push (h : s.Carried) (halone : ∀ other, other ≠ task → s.progress other = none)
    (hroom : ¬ s.queue.Full) (ev : CompositorEvent) :
    ({ s with queue := s.queue.push ev.words }.finish task ev true).Carried := by
  have hnone : ∀ other,
      ({ s with queue := s.queue.push ev.words }.finish task ev true).progress other = none := by
    intro other
    by_cases ho : other = task
    · subst ho
      exact Function.update_self _ _ _
    · exact (Function.update_of_ne ho _ _).trans (halone other ho)
  constructor
  · show s.delivered ++ (s.queue.push ev.words).toList = (s.pushed ++ [(task, ev)]).map _
    rw [Ring.Queue.toList_push hroom, ← List.append_assoc, h.contents, List.map_append]
    rfl
  · intro other ev' p hp
    rw [hnone] at hp
    cases hp
  · intro other ev' next idx room k hp
    rw [hnone] at hp
    cases hp

/-- A word is written into the cell to be written next. -/
theorem Carried.write (h : s.Carried) {ev : CompositorEvent} {next idx : Fin compositorEventQueueSize}
    {room : Bool} {k : ℕ} (hp : s.progress task = some (ev, .writing next idx room k)) (hk : k < 4) :
    ({ s with queue := storeWord s.queue idx ⟨k, hk⟩ (ev.words ⟨k, hk⟩) }.setProgress task
      (some (ev, .writing next idx room (k + 1)))).Carried := by
  obtain ⟨hnext, hroom, hfull, hidx⟩ := h.point task ev _ hp
  constructor
  · show s.delivered ++ (storeWord s.queue idx ⟨k, hk⟩ _).toList = _
    rw [toList_storeWord hidx]
    exact h.contents
  · intro other ev' p hp'
    by_cases ho : other = task
    · subst ho
      rw [progress_setProgress_self] at hp'
      obtain ⟨rfl, rfl⟩ := Prod.mk.inj (Option.some.inj hp')
      exact ⟨hnext, hroom, hfull, hidx⟩
    · have hold : s.progress other = some (ev', p) := (Function.update_of_ne ho _ _).symm.trans hp'
      have hpoint := h.point other ev' p hold
      cases p with
      | loaded next' => exact hpoint
      | checked next' room' => exact hpoint
      | writing next' idx' room' k' => exact hpoint
  · intro other ev' next' idx' room' k' hp' halone j hj
    by_cases ho : other = task
    · subst ho
      rw [progress_setProgress_self] at hp'
      obtain ⟨rfl, hpt⟩ := Prod.mk.inj (Option.some.inj hp')
      obtain ⟨rfl, rfl, rfl, rfl⟩ := EventPushPoint.writing.inj hpt
      show Function.update s.queue.cell idx
        (Function.update (s.queue.cell idx) ⟨k, hk⟩ (ev.words ⟨k, hk⟩)) s.queue.write j = ev.words j
      rw [hidx, Function.update_self]
      by_cases hjk : j = ⟨k, hk⟩
      · rw [hjk, Function.update_self]
      · rw [Function.update_of_ne hjk]
        have hlt : (j : ℕ) < k := by
          have hne : (j : ℕ) ≠ k := fun heq => hjk (Fin.ext heq)
          omega
        apply h.words other ev next idx room k hp _ j hlt
        intro third hthird hwrites
        apply halone third hthird
        obtain ⟨ev₂, next₂, idx₂, room₂, k₂, hp₂⟩ := hwrites
        exact ⟨ev₂, next₂, idx₂, room₂, k₂, (Function.update_of_ne hthird _ _).trans hp₂⟩
    · -- The task writes too, so the other does not write alone.
      have hwrites : ({ s with queue := storeWord s.queue idx ⟨k, hk⟩ (ev.words ⟨k, hk⟩) }.setProgress task
          (some (ev, .writing next idx room (k + 1)))).Writes task :=
        ⟨ev, next, idx, room, k + 1, Function.update_self _ _ _⟩
      exact absurd hwrites (halone task (Ne.symm ho))

/-- A drain takes from the front, and what is being written is not there. -/
theorem Carried.drain (h : s.Carried) (fits : ℕ → Bool) (left : ℕ) :
    ({ s with
      queue := (s.queue.drain fits left 0).2
      delivered := s.delivered ++ (s.queue.drain fits left 0).1 } : EventQueue).Carried := by
  have hdrained := Ring.Queue.drained_drain fits left 0 s.queue
  have hnext : nextWrite (s.queue.drain fits left 0).2 = nextWrite s.queue := by
    unfold nextWrite
    simp only [hdrained.write]
  constructor
  · show (s.delivered ++ _) ++ Ring.Queue.toList _ = _
    rw [List.append_assoc, ← Ring.Queue.toList_drain]
    exact h.contents
  · intro task ev p hp
    have hpoint := h.point task ev p hp
    cases p with
    | loaded next => exact Eq.trans hpoint hnext.symm
    | checked next room =>
      obtain ⟨hn, hr, hfull⟩ := hpoint
      exact ⟨hn.trans hnext.symm, hr, fun hf => hfull (hdrained.full hf)⟩
    | writing next idx room k =>
      obtain ⟨hn, hr, hfull, hidx⟩ := hpoint
      exact ⟨hn.trans hnext.symm, hr, fun hf => hfull (hdrained.full hf), hidx.trans hdrained.write.symm⟩
  · intro task ev next idx room k hp halone j hj
    show (s.queue.drain fits left 0).2.cell (s.queue.drain fits left 0).2.write j = _
    rw [hdrained.cell, hdrained.write]
    exact h.words task ev next idx room k hp halone j hj

/-- A push that has not begun to write -/
theorem not_writes_of {p : Option (CompositorEvent × EventPushPoint)} (hp : s.progress task = p)
    (hno : ∀ ev next idx room k, p ≠ some (ev, .writing next idx room k)) : ¬ s.Writes task := by
  rintro ⟨ev, next, idx, room, k, hw⟩
  exact hno ev next idx room k (hp.symm.trans hw)

/-- The next access of a push keeps the queue, if it stores the index only while nobody else pushes. -/
theorem Carried.advance (h : s.Carried) (hapart : s.Apart (.advance task)) : (s.advance task).Carried := by
  unfold EventQueue.advance
  split
  · exact h
  · rename_i ev next hp
    have hidle : ¬ s.Writes task := not_writes_of hp (by simp)
    have hnext : next = nextWrite s.queue := h.point task ev _ hp
    split
    · rename_i hread
      have hfull : s.queue.Full := by
        rw [hnext] at hread
        exact hread
      rw [show decide (¬ s.queue.Full) = false by simp [hfull]]
      exact h.finish_false hidle ev
    · rename_i hread
      have hfull : ¬ s.queue.Full := by
        rw [hnext] at hread
        exact hread
      apply h.setProgress hidle
      · rintro ev' pt heq
        obtain ⟨rfl, rfl⟩ := Prod.mk.inj (Option.some.inj heq)
        exact ⟨hnext, by simp [hfull], hfull⟩
      · intro ev' next' idx' room' k' heq
        cases heq
  · rename_i ev next room hp
    obtain ⟨hnext, hroom, hfull⟩ := h.point task ev _ hp
    apply h.setProgress (not_writes_of hp (by simp))
    · rintro ev' pt heq
      obtain ⟨rfl, rfl⟩ := Prod.mk.inj (Option.some.inj heq)
      exact ⟨hnext, hroom, hfull, rfl⟩
    · rintro ev' next' idx' room' k' heq
      cases heq
      rfl
  · rename_i ev next idx room k hp
    split
    · exact h.write hp _
    · rename_i hk
      obtain ⟨rfl, rfl, hfull, hidx⟩ := h.point task ev _ hp
      -- All words are written and nobody else pushes, so the cell holds the event.
      have halone : ∀ other, other ≠ task → s.progress other = none := by
        apply hapart task
        dsimp only [publisher]
        rw [hp]
        exact if_neg hk
      have hcell : s.queue.cell s.queue.write = ev.words := by
        funext j
        apply h.words task ev _ idx true k hp _ j (by omega)
        rintro other ho ⟨ev', next', idx', room', k', hp'⟩
        rw [halone other ho] at hp'
        cases hp'
      rw [publish_eq_push hfull, hcell]
      exact h.finish_push halone hfull ev

/-- A step keeps the queue, if no push stores the index in it while another is under way. -/
theorem Carried.step (h : s.Carried) {a : QueueStep} (hapart : s.Apart a) : (s.step a).Carried := by
  cases a with
  | begin task ev =>
    dsimp only [EventQueue.step]
    split
    · rename_i hp
      apply h.setProgress (not_writes_of hp (by simp))
      · rintro ev' pt heq
        obtain ⟨rfl, rfl⟩ := Prod.mk.inj (Option.some.inj heq)
        rfl
      · intro ev' next' idx' room' k' heq
        cases heq
    · exact h
  | advance task => exact h.advance hapart
  | push task ev =>
    dsimp only [EventQueue.step]
    split
    · rename_i hp
      by_cases hfull : s.queue.Full
      · rw [Ring.Queue.push_of_full hfull, show decide (¬ s.queue.Full) = false by simp [hfull]]
        exact h.finish_false (not_writes_of hp (by simp)) ev
      · rw [show decide (¬ s.queue.Full) = true by simp [hfull]]
        apply h.finish_push _ hfull
        exact hapart task (if_pos ⟨hp, hfull⟩)
    · exact h
  | poll memSize bufOffset maxEvents => exact h.drain _ _

end

/-- In every run in which no push stores the write index while another is under way, every event is delivered once,
whole, and in the order of its task. -/
theorem pushed_delivered (steps : List QueueStep) (h : Runs.Along step Apart init steps) :
    Runs.Always step Sound init steps := by
  have hcarried : Runs.Always step Carried init steps :=
    Runs.always_of_along (P := Carried) (C := Apart) (fun s a hs hapart => hs.step hapart) carried_init h
  exact hcarried.mono fun s hs => hs.sound

/-! ## One task -/

/-- The task that pushes in a step -/
def stepTask : QueueStep → Option ℕ
  | .begin task _ | .advance task | .push task _ => some task
  | .poll .. => none

/-- A step leaves the pushes of the other tasks where they are. -/
theorem progress_step_of_ne (s : EventQueue) {a : QueueStep} {other : ℕ} (h : stepTask a ≠ some other) :
    (s.step a).progress other = s.progress other := by
  have hset : ∀ {task : ℕ}, stepTask a = some task → ∀ (t : EventQueue) p,
      t.progress = s.progress → (t.setProgress task p).progress other = s.progress other := by
    intro task htask t p ht
    have ho : other ≠ task := by
      rintro rfl
      exact h htask
    rw [progress_setProgress_of_ne ho, ht]
  cases a with
  | begin task ev =>
    dsimp only [EventQueue.step]
    split
    · exact hset rfl s _ rfl
    · rfl
  | advance task =>
    show (s.advance task).progress other = _
    unfold EventQueue.advance
    split
    · rfl
    · split
      · exact hset rfl s none rfl
      · exact hset rfl s _ rfl
    · exact hset rfl s _ rfl
    · split
      · exact hset rfl _ _ rfl
      · exact hset rfl _ none rfl
  | push task ev =>
    dsimp only [EventQueue.step]
    split
    · exact hset rfl _ none rfl
    · rfl
  | poll memSize bufOffset maxEvents => rfl

theorem stepTask_of_publisher {s : EventQueue} {a : QueueStep} {task : ℕ} (h : s.publisher a = some task) :
    stepTask a = some task := by
  cases a with
  | begin task' ev => cases h
  | advance task' =>
    dsimp only [publisher] at h
    split at h
    · exact (Option.ite_none_left_eq_some.mp h).2
    · cases h
  | push task' ev => exact (Option.ite_none_right_eq_some.mp h).2
  | poll memSize bufOffset maxEvents => cases h

/-- The pushes of one task are apart. -/
theorem apart_of_one_task (task : ℕ) (steps : List QueueStep)
    (hsteps : ∀ a ∈ steps, ∀ t, stepTask a = some t → t = task) (s : EventQueue)
    (hs : ∀ other, other ≠ task → s.progress other = none) : Runs.Along step Apart s steps := by
  induction steps generalizing s with
  | nil => trivial
  | cons a steps ih =>
    constructor
    · intro t ht other hother
      obtain rfl := hsteps a List.mem_cons_self t (stepTask_of_publisher ht)
      exact hs other hother
    · apply ih fun b hb => hsteps b (List.mem_cons_of_mem a hb)
      intro other hother
      have hne : stepTask a ≠ some other := fun ha => hother (hsteps a List.mem_cons_self other ha)
      rw [progress_step_of_ne s hne]
      exact hs other hother

/-- All four words of a cell are written. -/
theorem update_words (old new : EventWords) :
    Function.update (Function.update (Function.update (Function.update old 0 (new 0)) 1 (new 1)) 2 (new 2)) 3
      (new 3) = new := by
  funext j
  match j with
  | 0 | 1 | 2 | 3 => rfl

/-- The accesses of a push that is not interrupted do what a push with interrupts off does. -/
theorem uninterrupted_push (s : EventQueue) (task : ℕ) (ev : CompositorEvent) (h : s.progress task = none) :
    Runs.runAll step s (.begin task ev :: List.replicate 7 (.advance task)) = s.step (.push task ev) := by
  by_cases hfull : s.queue.Full
  · have hread : (nextWrite s.queue : ℕ) = s.queue.read := hfull
    simp [List.replicate, step, advance, h, setProgress, finish, hread, hfull, Ring.Queue.push_of_full hfull]
  · have hread : (nextWrite s.queue : ℕ) ≠ s.queue.read := hfull
    simp [List.replicate, step, advance, h, setProgress, finish, hread, hfull, storeWord, publish,
      update_words, Ring.Queue.push]
    rfl

/-- The run of a push that a poll comes into -/
def pushAndPoll : List QueueStep :=
  [.begin 1 ⟨12, 131072, 0, 0⟩, .advance 1, .poll 65536 0 8] ++ List.replicate 6 (.advance 1)

/-- A push into which a poll comes. -/
theorem pushed_delivered_pushAndPoll : Runs.Always step Sound init pushAndPoll := by
  apply pushed_delivered
  apply apart_of_one_task 1 _ (by decide) init
  exact fun _ _ => rfl

/-- Two pushes that begin at the same time -/
def overlapping : List QueueStep :=
  [.begin 1 ⟨12, 131072, 0, 0⟩, .begin 2 ⟨0, 65, 0, 0⟩] ++ List.replicate 7 (.advance 1) ++
    List.replicate 7 (.advance 2)

/-- Of two pushes that begin at the same time one event is lost. -/
theorem pushes_overlap : ¬ ∀ steps, Runs.Always step Sound init steps := by
  intro h
  obtain ⟨evs, hmap, hfilter⟩ := (h overlapping).last
  have hlen : evs.length = 1 := by
    have hlen := congrArg List.length hmap
    rw [List.length_map] at hlen
    exact hlen.trans (by decide)
  have hpushed : (Runs.runAll step init overlapping).pushed =
      [(1, ⟨12, 131072, 0, 0⟩), (2, ⟨0, 65, 0, 0⟩)] := by decide
  have hmem : ∀ ev ∈ (Runs.runAll step init overlapping).pushed, ev ∈ evs := by
    intro ev hev
    have hfiltered : ev ∈ evs.filter fun e => e.1 = ev.1 := by
      rw [hfilter ev.1]
      exact List.mem_filter.mpr ⟨hev, by simp⟩
    exact List.mem_of_mem_filter hfiltered
  obtain ⟨ev, rfl⟩ := List.length_eq_one_iff.mp hlen
  have h1 := List.mem_singleton.mp (hmem (1, ⟨12, 131072, 0, 0⟩) (by rw [hpushed]; simp))
  have h2 := List.mem_singleton.mp (hmem (2, ⟨0, 65, 0, 0⟩) (by rw [hpushed]; simp))
  exact absurd (h1.trans h2.symm) (by decide)

end EventQueue

end Sandflea
