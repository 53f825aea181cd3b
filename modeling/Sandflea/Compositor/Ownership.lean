import Sandflea.Compositor.WindowServer

/-!
# Whose windows a call changes

A call of a process that is neither the owner of a window nor the compositor leaves the window alone, with its
queue and the events that name it, and `winput.poll` takes events only from windows of the caller. The functions
that change a window check the owner (`ifOwner`); the two that commit a surface do not, so the law fails exactly
for a commit to the window of another that reaches the queue of the compositor (`ownership_enforced_iff`).
-/

namespace Sandflea

/-- The event is about a window: `WM_EV_WIN_CREATED` to `WM_EV_WIN_RESIZE`, with the handle of the window. -/
def CompositorEvent.Names (ev : CompositorEvent) (handle : Int32) : Prop :=
  10 ≤ ev.type ∧ ev.type ≤ 14 ∧ ev.d0 = handle.toUInt32

instance (ev : CompositorEvent) (handle : Int32) : Decidable (ev.Names handle) :=
  inferInstanceAs (Decidable (_ ∧ _ ∧ _))

namespace WindowTable

/-! ## Handles and slots -/

/-- The handle of a window has the index of its slot. -/
def Indexed (s : WindowTable) : Prop := ∀ i, (s.windows i).active → handleIndex (s.windows i).handle = i

theorem indexed_init : init.Indexed := fun i hi => by simp [init] at hi

theorem SameHandles.indexed {s t : WindowTable} (h : SameHandles s t) (hs : s.Indexed) : t.Indexed := by
  intro i hi
  obtain ⟨hactive, hhandle, -⟩ := h.windows i
  rw [hhandle]
  exact hs i (hactive ▸ hi)

theorem Indexed.register {s : WindowTable} (hs : s.Indexed) (i : Fin maxCompositorWindows) (c : Caller) :
    (s.register i c).Indexed := by
  intro j hj
  by_cases hji : j = i
  · subst hji
    rw [register_self]
    exact handleIndex_packHandle _ _
  · rw [register_of_ne hji] at hj ⊢
    exact hs j hj

theorem Indexed.close {s : WindowTable} (hs : s.Indexed) (p : Fin maxCompositorWindows → Bool) :
    (s.close p).Indexed := by
  intro i hi
  by_cases hp : (s.windows i).active && p i
  · have heq : (s.close p).windows i = { s.windows i with active := false } := if_pos hp
    rw [heq] at hi
    cases hi
  · have heq : (s.close p).windows i = s.windows i := if_neg hp
    rw [heq] at hi ⊢
    exact hs i hi

theorem Indexed.step {s : WindowTable} (hs : s.Indexed) (op : WindowOp) : (s.step op).Indexed := by
  rcases s.step_cases op with ⟨i, c, -, -, hstep⟩ | ⟨-, t, hsame, hstep | ⟨p, hstep⟩⟩
  · rw [hstep]
    exact hs.register i c
  · rw [hstep]
    exact hsame.indexed hs
  · rw [hstep]
    exact (hsame.indexed hs).close p

theorem Indexed.runAll {s : WindowTable} (hs : s.Indexed) (ops : List WindowOp) :
    (Runs.runAll WindowTable.step s ops).Indexed := by
  induction ops generalizing s with
  | nil => exact hs
  | cons op ops ih => exact ih (hs.step op)

/-- Another slot does not have the handle of a window. -/
theorem Indexed.handle_ne {s : WindowTable} (hs : s.Indexed) {i j : Fin maxCompositorWindows}
    (hi : (s.windows i).active) {handle : Int32} (hj : handleIndex handle = j) (hji : j ≠ i) :
    handle ≠ (s.windows i).handle := by
  rintro rfl
  exact hji (Fin.ext (hj.symm.trans (hs i hi)))

end WindowTable

namespace WindowServer

open WindowTable (handleIndex findByHandle_eq_some findFreeSlot_inactive register_of_ne
  handleIndex_packHandle packHandle)

/-! ## The server over the window table -/

@[simp] theorem table_pushEvent (s : WindowServer) (ev : CompositorEvent) :
    (s.pushEvent ev).table = s.table := rfl

@[simp] theorem table_notify (s : WindowServer) (ev : CompositorEvent) : (s.notify ev).table = s.table := by
  unfold notify
  split <;> rfl

@[simp] theorem table_setData (s : WindowServer) (i : Fin maxCompositorWindows) (d : WindowData) :
    (s.setData i d).table = s.table := rfl

@[simp] theorem data_pushEvent (s : WindowServer) (ev : CompositorEvent) :
    (s.pushEvent ev).data = s.data := rfl

@[simp] theorem data_notify (s : WindowServer) (ev : CompositorEvent) : (s.notify ev).data = s.data := by
  unfold notify
  split <;> rfl

@[simp] theorem events_setData (s : WindowServer) (i : Fin maxCompositorWindows) (d : WindowData) :
    (s.setData i d).events = s.events := rfl

/-- The check of the owner does not change the table. -/
theorem table_ifOwner (s : WindowServer) (c : Caller) (handle : Int32)
    {change : Fin maxCompositorWindows → WindowServer} (h : ∀ i, (change i).table = s.table) :
    (s.ifOwner c handle change).2.table = s.table := by
  unfold ifOwner
  split
  · rfl
  · split
    · rfl
    · exact h _

theorem table_commit (s : WindowServer) (handle : Int32) (d1 d2 : UInt32) :
    (s.commit handle d1 d2).2.table = s.table := by
  unfold commit
  split
  · rfl
  · exact s.table_notify _

/-- One state comes from another by polls of a process: only the windows of the process lose events, from the
front of their queues. -/
structure PollsOwn (c : Caller) (s t : WindowServer) : Prop where
  table : t.table = s.table
  events : t.events = s.events
  data : ∀ i, t.data i = s.data i ∨
    (s.table.windows i).active ∧ (s.table.windows i).pid = c.pid ∧
      ∃ evs rest, (s.data i).events.toList = evs ++ rest.toList ∧ t.data i = { s.data i with events := rest }

theorem PollsOwn.refl (c : Caller) (s : WindowServer) : PollsOwn c s s := ⟨rfl, rfl, fun _ => .inl rfl⟩

theorem PollsOwn.trans {c : Caller} {s t u : WindowServer} (h : PollsOwn c s t) (h' : PollsOwn c t u) :
    PollsOwn c s u := by
  constructor
  · rw [h'.table, h.table]
  · rw [h'.events, h.events]
  · intro i
    have hdata := h'.data i
    rw [h.table] at hdata
    rcases h.data i with heq | ⟨hi, hpid, evs, rest, hevs, heq⟩
    · rw [heq] at hdata
      exact hdata
    · apply Or.inr
      rcases hdata with heq' | ⟨-, -, evs', rest', hevs', heq'⟩
      · exact ⟨hi, hpid, evs, rest, hevs, heq'.trans heq⟩
      · rw [heq] at hevs' heq'
        refine ⟨hi, hpid, evs ++ evs', rest', ?_, heq'⟩
        calc (s.data i).events.toList = evs ++ rest.toList := hevs
          _ = evs ++ (evs' ++ rest'.toList) := congrArg (evs ++ ·) hevs'
          _ = (evs ++ evs') ++ rest'.toList := (List.append_assoc _ _ _).symm

/-- A turn of a poll takes events only from a window of the caller. -/
theorem pollWindow_pollsOwn (c : Caller) (memSize : UInt32) (winFilter : Int32) (bufOffset : UInt32)
    (maxEvents : ℕ) (r : List ClientEvent × WindowServer) (i : Fin maxCompositorWindows) :
    PollsOwn c r.2 (pollWindow c memSize winFilter bufOffset maxEvents r i).2 := by
  unfold pollWindow
  dsimp only
  split
  · exact .refl c r.2
  · rename_i hown
    push Not at hown
    split
    · exact .refl c r.2
    · constructor
      · rfl
      · rfl
      · intro j
        by_cases hj : j = i
        · subst hj
          exact .inr ⟨hown.1, hown.2, _, _, Ring.Queue.toList_drain _ _ _ _, Function.update_self j _ _⟩
        · exact .inl (Function.update_of_ne hj _ _)

theorem winputPoll_pollsOwn (s : WindowServer) (c : Caller) (mem : Option Guest) (winFilter : Int32)
    (bufOffset : UInt32) (maxEvents : Int32) :
    PollsOwn c s (s.winputPoll c mem winFilter bufOffset maxEvents).2 := by
  have hfold : ∀ (memSize : UInt32) (n : ℕ) (is : List (Fin maxCompositorWindows))
      (r : List ClientEvent × WindowServer),
      PollsOwn c r.2 (is.foldl (pollWindow c memSize winFilter bufOffset n) r).2 := by
    intro memSize n is
    induction is with
    | nil => exact fun r => .refl c r.2
    | cons i is ih => exact fun r => (pollWindow_pollsOwn c memSize winFilter bufOffset n r i).trans (ih _)
  show PollsOwn c s (s.polled c mem winFilter bufOffset maxEvents).2
  unfold polled
  split
  · exact .refl c s
  · split
    · exact .refl c s
    · exact hfold _ _ _ ([], s)

/-- Registering the process of a buffer changes the table as `WindowTable.claimBuffer` says. -/
theorem table_claimBuffer (s : WindowServer) (c : Caller) (d : Display) (offset : Option UInt32) :
    (s.claimBuffer c d offset).2.table = (s.table.claimBuffer c offset).2 := by
  unfold claimBuffer
  cases offset with
  | none => rfl
  | some offset =>
    dsimp only
    split
    · rfl
    · split
      · rfl
      · split <;> rfl

theorem table_childCleanup (s : WindowServer) (pid : Int32) :
    (s.childCleanup pid).table = s.table.childCleanup pid := by
  have hfold : ∀ (f : Fin maxCompositorWindows → CompositorEvent) (is : List (Fin maxCompositorWindows))
      (t : WindowServer), (is.foldl (fun t i => t.pushEvent (f i)) t).table = t.table := by
    intro f is
    induction is with
    | nil => exact fun t => rfl
    | cons i is ih => exact fun t => ih (t.pushEvent (f i))
  unfold childCleanup
  dsimp only
  split
  · rw [hfold]
  · rfl

/-- The window table of the server takes the steps of `WindowTable.step`. -/
theorem table_step (s : WindowServer) (op : ServerOp) :
    (s.step op).table = Runs.runAll WindowTable.step s.table (tableOps op) := by
  cases op with
  | call c mem call =>
    cases call with
    | create parentHandle winType titlePtr titleLen w h flags =>
      show (s.windowCreate c mem parentHandle winType titlePtr titleLen w h flags).2.table =
        (s.table.windowCreate c).2
      unfold windowCreate WindowTable.windowCreate
      cases s.table.findFreeSlot with
      | none => rfl
      | some i => exact table_notify _ _
    | destroy handle =>
      show (s.windowDestroy c handle).2.table = (s.table.windowDestroy c handle).2
      unfold windowDestroy ifOwner WindowTable.windowDestroy
      cases s.table.findByHandle handle with
      | none => rfl
      | some i =>
        dsimp only
        split
        · rfl
        · exact table_notify _ _
    | setTitle handle titlePtr titleLen => exact s.table_ifOwner c handle fun i => table_notify _ _
    | setSize handle w h => exact s.table_ifOwner c handle fun i => table_notify _ _
    | attach handle bufOffset w h stride =>
      show (s.surfaceAttach c handle bufOffset w h stride).2.table = (s.table.surfaceAttach c handle).2
      unfold surfaceAttach ifOwner WindowTable.surfaceAttach
      cases s.table.findByHandle handle with
      | none => rfl
      | some i =>
        dsimp only
        split <;> rfl
    | commit handle => exact s.table_commit handle _ _
    | commitRect handle x y w h => exact s.table_commit handle _ _
    | poll winFilter bufOffset maxEvents => exact (s.winputPoll_pollsOwn c mem winFilter bufOffset maxEvents).table
  | claimCompositor c => rfl
  | claimBuffer c d offset => exact s.table_claimBuffer c d offset
  | present c d1 d2 =>
    show (s.present c d1 d2).table = s.table
    unfold present
    split <;> rfl
  | routeInput c winHandle eventType flags data0 data1 =>
    show (s.routeInput c winHandle eventType flags data0 data1).2.table = s.table
    unfold routeInput
    split
    · rfl
    · split
      · rfl
      · split <;> rfl
  | pollEvents c mem bufOffset maxEvents =>
    show (s.pollEvents c mem bufOffset maxEvents).2.table = s.table
    unfold pollEvents
    split
    · rfl
    · split <;> rfl
  | input ev => rfl
  | exit pid => exact s.table_childCleanup pid

/-- The handles of windows have the indices of their slots in every state that is reached. -/
theorem indexed_runAll (ops : List ServerOp) : (Runs.runAll step init ops).table.Indexed := by
  have hrun : ∀ (s : WindowServer), s.table.Indexed → (Runs.runAll step s ops).table.Indexed := by
    induction ops with
    | nil => exact fun s hs => hs
    | cons op ops ih =>
      intro s hs
      apply ih
      rw [table_step]
      exact hs.runAll _
  exact hrun init WindowTable.indexed_init

/-! ## What a call keeps -/

/-- The events in the queue of the compositor that name a window -/
def naming (s : WindowServer) (handle : Int32) : List CompositorEvent :=
  s.events.toList.filter fun ev => ev.Names handle

/-- From one state to another, a window stays as it is, with its queue and the events that name it. -/
structure Kept (i : Fin maxCompositorWindows) (s t : WindowServer) : Prop where
  slot : t.table.windows i = s.table.windows i
  data : t.data i = s.data i
  naming : t.naming (s.table.windows i).handle = s.naming (s.table.windows i).handle

section

variable {s t : WindowServer} {c : Caller} {i : Fin maxCompositorWindows} {handle : Int32}

theorem Kept.refl (i : Fin maxCompositorWindows) (s : WindowServer) : Kept i s s := ⟨rfl, rfl, rfl⟩

/-- An event that is pushed is one more event that names a window, unless the queue is full. -/
theorem naming_pushEvent_iff (s : WindowServer) (ev : CompositorEvent) (handle : Int32) :
    (s.pushEvent ev).naming handle = s.naming handle ↔ s.events.Full ∨ ¬ ev.Names handle := by
  have h := Ring.Queue.filter_toList_push (q := s.events) (fun ev => decide (ev.Names handle)) ev
  rw [decide_eq_false_iff_not] at h
  exact h

/-- An event about another handle keeps a window. -/
theorem Kept.notify (h : Kept i s t) {ev : CompositorEvent} (hev : ev.d0 = handle.toUInt32)
    (hne : handle ≠ (s.table.windows i).handle) : Kept i s (t.notify ev) := by
  constructor
  · rw [table_notify]
    exact h.slot
  · rw [data_notify]
    exact h.data
  · unfold WindowServer.notify
    split
    · rw [(naming_pushEvent_iff t ev _).mpr, h.naming]
      apply Or.inr
      rintro ⟨-, -, hd0⟩
      apply hne
      calc handle = handle.toUInt32.toInt32 := (Int32.toInt32_toUInt32 handle).symm
        _ = (s.table.windows i).handle.toUInt32.toInt32 := congrArg UInt32.toInt32 (hev.symm.trans hd0)
        _ = (s.table.windows i).handle := Int32.toInt32_toUInt32 _
    · exact h.naming

/-- The change of another slot keeps a window. -/
theorem Kept.of_ne {j : Fin maxCompositorWindows} (hji : j ≠ i) {table : WindowTable}
    (htable : table.windows i = s.table.windows i) (d : WindowData) :
    Kept i s ({ s with table := table }.setData j d) := by
  constructor
  · exact htable
  · exact Function.update_of_ne hji.symm d s.data
  · rfl

/-- The slot of a new window is not that of another. -/
theorem windowCreate_kept (hs : s.table.Indexed) (hi : (s.table.windows i).active) (c : Caller)
    (mem : Option Guest) (parentHandle : Int32) (winType titlePtr titleLen w h flags : UInt32) :
    Kept i s (s.windowCreate c mem parentHandle winType titlePtr titleLen w h flags).2 := by
  unfold windowCreate
  cases hfree : s.table.findFreeSlot with
  | none => exact .refl i s
  | some j =>
    have hji : j ≠ i := by
      rintro rfl
      exact findFreeSlot_inactive hfree hi
    have hslot : (s.table.register j c).windows i = s.table.windows i := register_of_ne hji.symm c
    have hne : (s.table.makeWindowHandle j).2 ≠ (s.table.windows i).handle :=
      hs.handle_ne hi (handleIndex_packHandle _ j) hji
    exact (Kept.of_ne hji hslot _).notify rfl hne

/-- A change that is made behind the check of the owner keeps the window of another. -/
theorem ifOwner_kept (hs : s.table.Indexed) (hi : (s.table.windows i).active)
    (hpid : (s.table.windows i).pid ≠ c.pid) (hcomp : c.pid ≠ s.table.compositorPid)
    {change : Fin maxCompositorWindows → WindowServer}
    (hchange : ∀ j, j ≠ i → handle ≠ (s.table.windows i).handle → Kept i s (change j)) :
    Kept i s (s.ifOwner c handle change).2 := by
  unfold ifOwner
  cases hfind : s.table.findByHandle handle with
  | none => exact .refl i s
  | some j =>
    dsimp only
    split
    · exact .refl i s
    · rename_i howner
      -- The check was passed, so the window found is one of the caller.
      have hji : j ≠ i := by
        rintro rfl
        exact howner ⟨hpid, hcomp⟩
      exact hchange j hji (hs.handle_ne hi (findByHandle_eq_some.mp hfind).2.1 hji)

/-- A commit keeps a window exactly if it does not reach the queue with its handle. -/
theorem commit_kept_iff (hs : s.table.Indexed) (hi : (s.table.windows i).active) (d1 d2 : UInt32) :
    Kept i s (s.commit handle d1 d2).2 ↔
      ¬ (s.table.findByHandle handle = some i ∧ s.table.compositorPid ≠ -1 ∧ ¬ s.events.Full) := by
  unfold commit
  cases hfind : s.table.findByHandle handle with
  | none =>
    constructor
    · rintro - ⟨hsome, -⟩
      cases hsome
    · exact fun _ => .refl i s
  | some j =>
    obtain ⟨-, hindex, -, hhandle⟩ := findByHandle_eq_some.mp hfind
    constructor
    · rintro hkept ⟨hsome, hcomp, hroom⟩
      obtain rfl := Option.some.inj hsome
      have hnaming := hkept.naming
      rw [hhandle, WindowServer.notify, if_pos hcomp, naming_pushEvent_iff] at hnaming
      rcases hnaming with hfull | hnames
      · exact hroom hfull
      · exact hnames ⟨(by decide : 10 ≤ wmEvWinCommitted), (by decide : wmEvWinCommitted ≤ 14), rfl⟩
    · intro hno
      by_cases hji : j = i
      · subst hji
        by_cases hcomp : s.table.compositorPid = -1
        · rw [WindowServer.notify, if_neg (not_not_intro hcomp)]
          exact .refl j s
        · have hfull : s.events.Full := by
            by_contra hroom
            exact hno ⟨rfl, hcomp, hroom⟩
          have hsame : s.notify ⟨wmEvWinCommitted, handle.toUInt32, d1, d2⟩ = s := by
            rw [WindowServer.notify, if_pos hcomp, pushEvent, Ring.Queue.push_of_full hfull]
          rw [hsame]
          exact .refl j s
      · exact (Kept.refl i s).notify rfl (hs.handle_ne hi hindex hji)

/-- A poll keeps the window of another. -/
theorem PollsOwn.kept (h : PollsOwn c s t) (hpid : (s.table.windows i).pid ≠ c.pid) : Kept i s t := by
  constructor
  · rw [h.table]
  · rcases h.data i with heq | ⟨-, hown, -⟩
    · exact heq
    · exact absurd hown hpid
  · show t.events.toList.filter _ = s.events.toList.filter _
    rw [h.events]

end

end WindowServer

/-! ## The law -/

/-- The handle whose surface a call commits -/
def ClientCall.commits : ClientCall → Option Int32
  | .commit handle => some handle
  | .commitRect handle .. => some handle
  | _ => none

namespace WindowServer

/-- A call leaves the windows of others alone, and if it is a poll it takes events only from those of the caller;
the compositor may do what it likes. -/
def OwnershipEnforced (s : WindowServer) (c : Caller) (mem : Option Guest) (call : ClientCall) : Prop :=
  (∀ i, (s.table.windows i).active → (s.table.windows i).pid ≠ c.pid → c.pid ≠ s.table.compositorPid →
    Kept i s (s.call c mem call).2) ∧
  ∀ winFilter bufOffset maxEvents, call = .poll winFilter bufOffset maxEvents →
    PollsOwn c s (s.call c mem call).2

/-- A call commits the surface of another's window, and there is a compositor with room in its queue. -/
def CommitsOther (s : WindowServer) (c : Caller) (call : ClientCall) : Prop :=
  ∃ handle i, call.commits = some handle ∧ s.table.findByHandle handle = some i ∧
    (s.table.windows i).pid ≠ c.pid ∧ c.pid ≠ s.table.compositorPid ∧
    s.table.compositorPid ≠ -1 ∧ ¬ s.events.Full

/-- A call keeps the windows of others, unless it commits the surface of one. -/
theorem call_kept_iff {s : WindowServer} (hs : s.table.Indexed) {i : Fin maxCompositorWindows}
    (hi : (s.table.windows i).active) {c : Caller} (hpid : (s.table.windows i).pid ≠ c.pid)
    (hcomp : c.pid ≠ s.table.compositorPid) (mem : Option Guest) (call : ClientCall) :
    Kept i s (s.call c mem call).2 ↔
      ¬ ∃ handle, call.commits = some handle ∧ s.table.findByHandle handle = some i ∧
        s.table.compositorPid ≠ -1 ∧ ¬ s.events.Full := by
  cases call with
  | commit handle =>
    exact (commit_kept_iff hs hi 0 0).trans (not_congr (by simp [ClientCall.commits]))
  | commitRect handle x y w h =>
    exact (commit_kept_iff hs hi _ _).trans (not_congr (by simp [ClientCall.commits]))
  | create parentHandle winType titlePtr titleLen w h flags =>
    exact iff_of_true (windowCreate_kept hs hi c mem parentHandle winType titlePtr titleLen w h flags)
      (by simp [ClientCall.commits])
  | destroy handle =>
    refine iff_of_true (ifOwner_kept hs hi hpid hcomp fun j hji hne => ?_) (by simp [ClientCall.commits])
    apply Kept.notify _ rfl hne
    constructor
    · have hother : ¬ ((s.table.windows i).active && decide (i = j)) := by simp [hji.symm]
      exact if_neg hother
    · rfl
    · rfl
  | setTitle handle titlePtr titleLen =>
    refine iff_of_true (ifOwner_kept hs hi hpid hcomp fun j hji hne => ?_) (by simp [ClientCall.commits])
    exact (Kept.of_ne hji rfl _).notify rfl hne
  | setSize handle w h =>
    refine iff_of_true (ifOwner_kept hs hi hpid hcomp fun j hji hne => ?_) (by simp [ClientCall.commits])
    exact (Kept.of_ne hji rfl _).notify rfl hne
  | attach handle bufOffset w h stride =>
    refine iff_of_true (ifOwner_kept hs hi hpid hcomp fun j hji _ => ?_) (by simp [ClientCall.commits])
    exact Kept.of_ne hji (Function.update_of_ne hji.symm _ _) _
  | poll winFilter bufOffset maxEvents =>
    exact iff_of_true ((s.winputPoll_pollsOwn c mem winFilter bufOffset maxEvents).kept hpid)
      (by simp [ClientCall.commits])

/-- In every state that is reached, a call of any process respects the owners of the windows exactly if it does not
commit the surface of another's window to a compositor that has room for the event. -/
theorem ownership_enforced_iff (ops : List ServerOp) (c : Caller) (mem : Option Guest) (call : ClientCall) :
    (Runs.runAll step init ops).OwnershipEnforced c mem call ↔
      ¬ (Runs.runAll step init ops).CommitsOther c call := by
  have hs := indexed_runAll ops
  generalize Runs.runAll step init ops = s at hs ⊢
  constructor
  · rintro ⟨hkept, -⟩ ⟨handle, i, hcommits, hfind, hpid, hcomp, hthere, hroom⟩
    have hi : (s.table.windows i).active := (WindowTable.findByHandle_eq_some.mp hfind).2.2.1
    apply (call_kept_iff hs hi hpid hcomp mem call).mp (hkept i hi hpid hcomp)
    exact ⟨handle, hcommits, hfind, hthere, hroom⟩
  · intro hno
    constructor
    · intro i hi hpid hcomp
      rw [call_kept_iff hs hi hpid hcomp]
      rintro ⟨handle, hcommits, hfind, hthere, hroom⟩
      exact hno ⟨handle, i, hcommits, hfind, hpid, hcomp, hthere, hroom⟩
    · rintro winFilter bufOffset maxEvents rfl
      exact s.winputPoll_pollsOwn c mem winFilter bufOffset maxEvents

/-- A program opens a window, another claims the compositor. -/
def openAndClaim : List ServerOp :=
  [.call ⟨7, 0⟩ none (.create 0 0 0 0 64 64 0), .claimCompositor ⟨2, 1⟩]

/-- A third program commits the surface of the window. -/
theorem commit_of_another : ¬ ∀ ops c mem call,
    (Runs.runAll step init ops).OwnershipEnforced c mem call := by
  intro h
  have hkept := (h openAndClaim ⟨9, 2⟩ none (.commit 131072)).1 ⟨0, by decide⟩
    (by decide) (by decide) (by decide)
  rw [call_kept_iff (indexed_runAll openAndClaim) (by decide) (by decide) (by decide)] at hkept
  exact hkept ⟨131072, rfl, by decide, by decide, by decide⟩

end WindowServer

end Sandflea
