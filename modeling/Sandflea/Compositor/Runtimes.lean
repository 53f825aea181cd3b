import Sandflea.Compositor.Handles

/-!
# The runtimes of windows

A process frees its runtime at the end of `wasm_thread_entry`, but its windows are only taken away when it
is reaped, and a blit may be preempted between finding a window and using its runtime. A blit uses no freed
runtime if it does not find the window of a process that waits to be reaped, if no runtime is freed while
its window is being blitted, and if the compositor does not leave its own runtime in the window of another
process (`blits_live`). The first of these fails for a child that ends by itself (`blit_of_ended_child`).
-/

namespace Sandflea

/-- How far a process has come. -/
inductive ProcessPhase
  | running
  /-- Behind `Label_Done`, not reaped. -/
  | ended
  /-- `process_exit` has cleaned up its windows. -/
  | reaped
deriving DecidableEq, Repr

/-- A blit that is under way. -/
structure BlitProgress where
  /-- The slot of the window that was found. -/
  window : Fin maxCompositorWindows
  /-- The runtime whose memory is being copied from, once it was looked at. -/
  source : Option ℕ
deriving DecidableEq, Repr

/-- A process that runs a program; its runtime has the same number. -/
structure GuestProcess where
  pid : Int32
  phase : ProcessPhase
  /-- `m3_FreeRuntime` was called. -/
  freed : Bool
  blit : Option BlitProgress
deriving DecidableEq, Repr

/-- The windows and the processes. -/
structure RuntimeState where
  table : WindowTable
  procs : ℕ → GuestProcess
  /-- How many processes were created. -/
  count : ℕ

/-- What a process passes to a blit to say which window. -/
inductive BlitTarget
  /-- `wasm_display_blit_from_pid` -/
  | pid (pid : Int32)
  /-- `wasm_wm_blit_surface` -/
  | handle (handle : Int32)
deriving DecidableEq, Repr

/-- What may happen; `p` is the process that does it. -/
inductive RuntimeStep
  | spawn (pid : Int32)
  | claimCompositor (p : ℕ)
  | create (p : ℕ)
  | claimBuffer (p : ℕ) (offset : Option UInt32)
  | destroy (p : ℕ) (handle : Int32)
  | attach (p : ℕ) (handle : Int32)
  | commit (p : ℕ) (handle : Int32)
  /-- A blit up to the use of the runtime; `ready` if the memory of the compositor and the display are
  there. -/
  | blit (p : ℕ) (target : BlitTarget) (w h : Int32) (ready : Bool)
  /-- `m3_GetMemory(child->runtime, …)` -/
  | fetch (p : ℕ)
  /-- A row is copied. -/
  | row (p : ℕ)
  /-- The blit returns. -/
  | finishBlit (p : ℕ)
  /-- `wasm_thread_entry` comes to `Label_Done`. -/
  | done (p : ℕ)
  /-- `process_exit`, up to the end of `compositor_child_cleanup`: of an ended process or of one that was
  killed. -/
  | reap (p : ℕ)
  /-- `wasm_proc_cleanup` in `process_exit` -/
  | cleanup (p : ℕ)
deriving DecidableEq, Repr

namespace RuntimeState

/-- The state after boot -/
def init : RuntimeState := ⟨.init, fun _ => ⟨0, .reaped, true, none⟩, 0⟩

/-- Change a process. -/
def setProc (s : RuntimeState) (p : ℕ) (x : GuestProcess) : RuntimeState :=
  { s with procs := Function.update s.procs p x }

/-- A process as the caller of a host function -/
def caller (s : RuntimeState) (p : ℕ) : Caller := ⟨(s.procs p).pid, p⟩

/-- A process that may run the code of its program. -/
def Idle (s : RuntimeState) (p : ℕ) : Prop := (s.procs p).phase = .running ∧ (s.procs p).blit = none

instance (s : RuntimeState) (p : ℕ) : Decidable (s.Idle p) :=
  inferInstanceAs (Decidable (_ ∧ _))

/-- An operation of a running process on the table -/
def onTable (s : RuntimeState) (p : ℕ) (op : WindowOp) : RuntimeState :=
  if s.Idle p then { s with table := s.table.step op } else s

/-- The window that a blit finds, if it comes to use its runtime -/
def blitWindow (s : RuntimeState) (p : ℕ) (target : BlitTarget) (w h : Int32) (ready : Bool) :
    Option (Fin maxCompositorWindows) :=
  if ¬ s.Idle p ∨ (s.procs p).pid ≠ s.table.compositorPid ∨ w ≤ 0 ∨ h ≤ 0 ∨ !ready then none
  else
    match target with
    | .pid pid =>
      if s.table.compositorRuntime = none ∨ s.table.compositorBufferOffset = 0 then none
      else (s.table.findByPid pid).filter fun i => (s.table.windows i).runtime.isSome
    | .handle handle =>
      (s.table.findByHandle handle).filter fun i => (s.table.windows i).runtime.isSome

/-- The state after a step -/
def step (s : RuntimeState) : RuntimeStep → RuntimeState
  | .spawn pid => { s.setProc s.count ⟨pid, .running, false, none⟩ with count := s.count + 1 }
  | .claimCompositor p => s.onTable p (.claimCompositor (s.caller p))
  | .create p => s.onTable p (.create (s.caller p))
  | .claimBuffer p offset => s.onTable p (.claimBuffer (s.caller p) offset)
  | .destroy p handle => s.onTable p (.destroy (s.caller p) handle)
  | .attach p handle => s.onTable p (.attach (s.caller p) handle)
  | .commit p handle => s.onTable p (.commit handle)
  | .blit p target w h ready =>
    match s.blitWindow p target w h ready with
    | none => s
    | some i => s.setProc p { s.procs p with blit := some ⟨i, none⟩ }
  | .fetch p =>
    match (s.procs p).blit with
    | some ⟨i, none⟩ => s.setProc p { s.procs p with blit := some ⟨i, (s.table.windows i).runtime⟩ }
    | _ => s
  | .row _ => s
  | .finishBlit p => s.setProc p { s.procs p with blit := none }
  | .done p => if s.Idle p then s.setProc p { s.procs p with phase := .ended, freed := true } else s
  | .reap p =>
    if (s.procs p).phase = .reaped then s
    else
      { s.setProc p { s.procs p with phase := .reaped, blit := none } with
        table := s.table.step (.exit (s.procs p).pid) }
  | .cleanup p =>
    if (s.procs p).phase = .reaped then s.setProc p { s.procs p with freed := true } else s

/-! ## The property and the condition -/

/-- The runtime that a step uses: that of the window of the blit, or that of the memory which it copies
from. -/
def used (s : RuntimeState) : RuntimeStep → Option ℕ
  | .fetch p =>
    match (s.procs p).blit with
    | some ⟨i, none⟩ => (s.table.windows i).runtime
    | _ => none
  | .row p => (s.procs p).blit.bind BlitProgress.source
  | _ => none

/-- A step uses no runtime that was freed. -/
def UsesLive (s : RuntimeState) (a : RuntimeStep) : Prop :=
  ∀ r, s.used a = some r → ¬ (s.procs r).freed

instance (s : RuntimeState) (a : RuntimeStep) : Decidable (s.UsesLive a) :=
  match h : s.used a with
  | none => .isTrue fun r hr => by rw [h] at hr; cases hr
  | some r => decidable_of_iff (¬ (s.procs r).freed)
      ⟨fun hr r' hr' => Option.some.inj (h.symm.trans hr') ▸ hr, fun hr => hr r h⟩

/-- A blit is under way of a window with this runtime. -/
def IsBlitted (s : RuntimeState) (r : ℕ) : Prop :=
  ∃ q b, (s.procs q).blit = some b ∧
    (b.source = some r ∨ b.source = none ∧ (s.table.windows b.window).runtime = some r)

/-- A blit does not find a window whose process waits to be reaped, a runtime is not freed during a blit of
its window, and no other process's window has the runtime of a process that is reaped. -/
def Timely (s : RuntimeState) : RuntimeStep → Prop
  | .blit p target w h ready =>
    ∀ i, s.blitWindow p target w h ready = some i → ∀ r, (s.table.windows i).runtime = some r →
      (s.procs r).phase ≠ .ended
  | .done p => s.Idle p → ¬ s.IsBlitted p
  | .cleanup p => (s.procs p).phase = .reaped → ¬ (s.procs p).freed → ¬ s.IsBlitted p
  | .reap p =>
    (s.procs p).phase ≠ .reaped → ∀ i, (s.table.windows i).active →
      (s.table.windows i).runtime = some p → (s.table.windows i).pid = (s.procs p).pid
  | _ => True

/-! ## The table -/

end RuntimeState

namespace WindowTable

/-- A slot has the runtime that it had, and is not in use if it was not; or it has that of the caller. -/
def Recorded (s t : WindowTable) (c : Caller) : Prop :=
  ∀ i, (t.windows i).runtime = some c.runtime ∨
    (t.windows i).runtime = (s.windows i).runtime ∧ ((t.windows i).active → (s.windows i).active)

theorem Recorded.refl (s : WindowTable) (c : Caller) : Recorded s s c := fun _ => .inr ⟨rfl, id⟩

theorem recorded_register (s : WindowTable) (i : Fin maxCompositorWindows) (c : Caller) :
    Recorded s (s.register i c) c := by
  intro j
  by_cases hj : j = i
  · subst hj
    exact .inl (by rw [register_self])
  · exact .inr (by rw [register_of_ne hj]; exact ⟨rfl, id⟩)

theorem recorded_setRuntime (s : WindowTable) (i : Fin maxCompositorWindows) (c : Caller) :
    Recorded s (s.setRuntime i c) c := by
  intro j
  by_cases hj : j = i
  · subst hj
    refine .inl ?_
    have heq : (s.setRuntime j c).windows j = { s.windows j with runtime := some c.runtime } :=
      Function.update_self j _ _
    rw [heq]
  · refine .inr ?_
    have heq : (s.setRuntime i c).windows j = s.windows j := Function.update_of_ne hj _ _
    rw [heq]
    exact ⟨rfl, id⟩

/-- Closing windows leaves their runtimes in the table. -/
theorem close_windows (s : WindowTable) (p : Fin maxCompositorWindows → Bool)
    (i : Fin maxCompositorWindows) :
    ((s.close p).windows i).runtime = (s.windows i).runtime ∧
      (((s.close p).windows i).active → (s.windows i).active ∧ ¬ p i) := by
  simp only [close]
  split
  · exact ⟨rfl, fun h => by cases h⟩
  · rename_i hp
    rw [Bool.and_eq_true, not_and] at hp
    exact ⟨rfl, fun h => ⟨h, hp h⟩⟩

theorem recorded_close (s : WindowTable) (p : Fin maxCompositorWindows → Bool) (c : Caller) :
    Recorded s (s.close p) c := fun i =>
  .inr ⟨(s.close_windows p i).1, fun h => ((s.close_windows p i).2 h).1⟩

/-- The process that makes a host call -/
def IsCall (c : Caller) : WindowOp → Prop
  | .claimCompositor c' | .create c' | .claimBuffer c' _ | .destroy c' _ | .attach c' _ => c' = c
  | .commit _ => True
  | .exit _ => False

/-- A host call records no runtime but that of its caller. -/
theorem step_recorded (s : WindowTable) {c : Caller} {op : WindowOp} (h : IsCall c op) :
    Recorded s (s.step op) c := by
  cases op with
  | claimCompositor c' =>
    show Recorded s (s.claimCompositor c').2 c
    unfold claimCompositor
    split <;> exact .refl s c
  | create c' =>
    obtain rfl : c' = c := h
    show Recorded s (s.windowCreate c').2 c'
    unfold windowCreate
    split
    · exact .refl s c'
    · exact s.recorded_register _ c'
  | claimBuffer c' offset =>
    obtain rfl : c' = c := h
    show Recorded s (s.claimBuffer c' offset).2 c'
    unfold claimBuffer
    split
    · exact .refl s c'
    · dsimp only
      split
      · exact .refl s c'
      · split
        · exact .refl s c'
        · split
          · exact s.recorded_setRuntime _ c'
          · split
            · exact s.recorded_register _ c'
            · exact .refl s c'
  | destroy c' handle =>
    show Recorded s (s.windowDestroy c' handle).2 c
    unfold windowDestroy
    split
    · exact .refl s c
    · split
      · exact .refl s c
      · exact s.recorded_close _ c
  | attach c' handle =>
    obtain rfl : c' = c := h
    show Recorded s (s.surfaceAttach c' handle).2 c'
    unfold surfaceAttach
    split
    · exact .refl s c'
    · split
      · exact .refl s c'
      · exact s.recorded_setRuntime _ c'
  | commit handle => exact .refl s c
  | exit pid => exact h.elim

/-- The exit of a process takes its windows away, and changes no runtime in the table. -/
theorem childCleanup_windows (s : WindowTable) (pid : Int32) (i : Fin maxCompositorWindows) :
    ((s.childCleanup pid).windows i).runtime = (s.windows i).runtime ∧
      (((s.childCleanup pid).windows i).active → (s.windows i).active ∧ (s.windows i).pid ≠ pid) := by
  unfold childCleanup
  split
  all_goals
    refine ⟨(close_windows _ _ i).1, fun h => ?_⟩
    obtain ⟨ha, hp⟩ := (close_windows _ _ i).2 h
    exact ⟨ha, by simpa using hp⟩

end WindowTable

namespace RuntimeState

/-! ## The invariant -/

/-- The windows in the table are not of reaped processes, and no runtime is freed that a blit is about to
use. -/
structure Live (s : RuntimeState) : Prop where
  running : ∀ p, (s.procs p).phase = .running → ¬ (s.procs p).freed
  active : ∀ i, (s.table.windows i).active → ∀ r, (s.table.windows i).runtime = some r →
    (s.procs r).phase ≠ .reaped
  blitted : ∀ r, s.IsBlitted r → ¬ (s.procs r).freed

theorem live_init : init.Live where
  running p h := by cases h
  active i h := by cases h
  blitted r h := by
    obtain ⟨q, b, hb, -⟩ := h
    cases hb

section

variable {s : RuntimeState}

@[simp] theorem setProc_self (s : RuntimeState) (p : ℕ) (x : GuestProcess) :
    (s.setProc p x).procs p = x := by simp [RuntimeState.setProc]

theorem setProc_of_ne {p q : ℕ} (h : q ≠ p) (x : GuestProcess) :
    (s.setProc p x).procs q = s.procs q := by simp [RuntimeState.setProc, h]

/-- A host call of a running process keeps the invariant. -/
theorem Live.onTable (h : s.Live) {p : ℕ} {op : WindowOp}
    (hop : WindowTable.IsCall (s.caller p) op) : (s.onTable p op).Live := by
  unfold RuntimeState.onTable
  split
  · rename_i hidle
    have hrec := s.table.step_recorded hop
    have hself : ∀ {i r}, ((s.table.step op).windows i).runtime = some p →
        ((s.table.step op).windows i).runtime = some r → r = p := fun hp hr =>
      Option.some.inj (hr.symm.trans hp)
    refine ⟨h.running, fun i hi r hr => ?_, fun r hr => ?_⟩
    · rcases hrec i with hcaller | ⟨hsame, hact⟩
      · obtain rfl := hself hcaller hr
        rw [hidle.1]
        decide
      · exact h.active i (hact hi) r (hsame ▸ hr)
    · obtain ⟨q, b, hb, hsrc | ⟨hsrc, hwin⟩⟩ := hr
      · exact h.blitted r ⟨q, b, hb, .inl hsrc⟩
      · rcases hrec b.window with hcaller | ⟨hsame, -⟩
        · obtain rfl := hself hcaller hwin
          exact h.running _ hidle.1
        · exact h.blitted r ⟨q, b, hb, .inr ⟨hsrc, hsame ▸ hwin⟩⟩
  · exact h

/-- A change of a process that starts no blit and frees no runtime during one, and a table in which windows
may be taken away, keep the invariant. -/
theorem Live.setProc (h : s.Live) (p : ℕ) {x : GuestProcess} {t : WindowTable} (count : ℕ)
    (hrun : x.phase = .running → ¬ x.freed)
    (hblit : ∀ b, x.blit = some b → (s.procs p).blit = some b)
    (hfree : x.freed → s.IsBlitted p → (s.procs p).freed)
    (ht : ∀ i, (t.windows i).runtime = (s.table.windows i).runtime ∧
      ((t.windows i).active → (s.table.windows i).active))
    (hact : ∀ i, (t.windows i).active → (t.windows i).runtime = some p → x.phase ≠ .reaped) :
    ({ s.setProc p x with table := t, count := count } : RuntimeState).Live := by
  refine ⟨fun q hq => ?_, fun i hi r hr => ?_, fun r hr => ?_⟩
  · by_cases hp : q = p
    · subst hp
      simp only [setProc_self] at hq ⊢
      exact hrun hq
    · simp only [setProc_of_ne hp] at hq ⊢
      exact h.running q hq
  · by_cases hp : r = p
    · subst hp
      simp only [setProc_self]
      exact hact i hi hr
    · simp only [setProc_of_ne hp]
      exact h.active i ((ht i).2 hi) r ((ht i).1 ▸ hr)
  · have hr' : s.IsBlitted r := by
      obtain ⟨q, b, hb, hsrc⟩ := hr
      simp only [(ht _).1] at hsrc
      by_cases hq : q = p
      · subst hq
        simp only [setProc_self] at hb
        exact ⟨q, b, hblit b hb, hsrc⟩
      · simp only [setProc_of_ne hq] at hb
        exact ⟨q, b, hb, hsrc⟩
    have hlive := h.blitted r hr'
    by_cases hp : r = p
    · subst hp
      simp only [setProc_self]
      exact fun hx => hlive (hfree hx hr')
    · simp only [setProc_of_ne hp]
      exact hlive

/-- A blit that comes to use a live runtime, or that ends, keeps the invariant. -/
theorem Live.setBlit (h : s.Live) (p : ℕ) {x : Option BlitProgress}
    (hx : ∀ b r, x = some b →
      b.source = some r ∨ b.source = none ∧ (s.table.windows b.window).runtime = some r →
      ¬ (s.procs r).freed) :
    (s.setProc p { s.procs p with blit := x }).Live := by
  have hsame : ∀ q, ((s.setProc p { s.procs p with blit := x }).procs q).phase = (s.procs q).phase ∧
      ((s.setProc p { s.procs p with blit := x }).procs q).freed = (s.procs q).freed := by
    intro q
    by_cases hq : q = p
    · subst hq
      rw [setProc_self]
      exact ⟨rfl, rfl⟩
    · rw [setProc_of_ne hq]
      exact ⟨rfl, rfl⟩
  refine ⟨fun q hq => ?_, fun i hi r hr => ?_, fun r hr => ?_⟩
  · rw [(hsame q).1] at hq
    rw [(hsame q).2]
    exact h.running q hq
  · rw [(hsame r).1]
    exact h.active i hi r hr
  · rw [(hsame r).2]
    obtain ⟨q, b, hb, hsrc⟩ := hr
    by_cases hq : q = p
    · subst hq
      rw [setProc_self] at hb
      exact hx b r hb hsrc
    · rw [setProc_of_ne hq] at hb
      exact h.blitted r ⟨q, b, hb, hsrc⟩

/-- What a blit finds is a window. -/
theorem blitWindow_active {p : ℕ} {target : BlitTarget} {w h' : Int32} {ready : Bool}
    {i : Fin maxCompositorWindows} (hi : s.blitWindow p target w h' ready = some i) :
    (s.table.windows i).active := by
  unfold RuntimeState.blitWindow at hi
  split at hi
  · cases hi
  · split at hi
    · split at hi
      · cases hi
      · have hfind := (Option.filter_eq_some_iff.mp hi).1
        have := List.find?_some hfind
        rw [Bool.and_eq_true] at this
        exact this.1
    · have hfind := (Option.filter_eq_some_iff.mp hi).1
      exact (WindowTable.findByHandle_eq_some.mp hfind).2.2.1

/-- A step that meets the condition keeps the invariant. -/
theorem Live.step (h : s.Live) {a : RuntimeStep} (ha : s.Timely a) : (s.step a).Live := by
  cases a with
  | spawn pid =>
    exact h.setProc s.count (s.count + 1) (fun _ => Bool.false_ne_true) (fun b hb => nomatch hb)
      (fun hfreed => nomatch hfreed) (fun _ => ⟨rfl, id⟩) (fun _ _ _ => nofun)
  | claimCompositor p => exact h.onTable rfl
  | create p => exact h.onTable rfl
  | claimBuffer p offset => exact h.onTable rfl
  | destroy p handle => exact h.onTable rfl
  | attach p handle => exact h.onTable rfl
  | commit p handle => exact h.onTable trivial
  | blit p target w h' ready =>
    show (match s.blitWindow p target w h' ready with
      | none => s
      | some i => s.setProc p { s.procs p with blit := some ⟨i, none⟩ }).Live
    split
    · exact h
    · rename_i i hi
      refine h.setBlit p fun b r hb hsrc => ?_
      obtain rfl := Option.some.inj hb
      obtain ⟨-, hwin⟩ := hsrc.resolve_left fun hsrc => nomatch hsrc
      have hreaped := h.active i (blitWindow_active hi) r hwin
      have hended := ha i hi r hwin
      cases hphase : (s.procs r).phase with
      | running => exact h.running r hphase
      | ended => exact absurd hphase hended
      | reaped => exact absurd hphase hreaped
  | fetch p =>
    show (match (s.procs p).blit with
      | some ⟨i, none⟩ => s.setProc p { s.procs p with blit := some ⟨i, (s.table.windows i).runtime⟩ }
      | _ => s).Live
    split
    · rename_i i hi
      refine h.setBlit p fun b r hb hsrc => ?_
      obtain rfl := Option.some.inj hb
      refine h.blitted r ⟨p, _, hi, .inr ⟨rfl, ?_⟩⟩
      rcases hsrc with hsrc | ⟨-, hwin⟩
      · exact hsrc
      · exact hwin
    · exact h
  | row p => exact h
  | finishBlit p => exact h.setBlit p fun b r hb => nomatch hb
  | done p =>
    show (if s.Idle p then s.setProc p { s.procs p with phase := .ended, freed := true } else s).Live
    split
    · rename_i hidle
      exact h.setProc p s.count (fun hphase => nomatch hphase) (fun b hb => hb)
        (fun _ hblit => absurd hblit (ha hidle)) (fun _ => ⟨rfl, id⟩) (fun _ _ _ => nofun)
    · exact h
  | reap p =>
    show (if (s.procs p).phase = .reaped then s else
      { s.setProc p { s.procs p with phase := .reaped, blit := none } with
        table := s.table.childCleanup (s.procs p).pid }).Live
    split
    · exact h
    · rename_i hphase
      have hclean := s.table.childCleanup_windows (s.procs p).pid
      refine h.setProc p s.count (fun hrun => nomatch hrun) (fun b hb => nomatch hb) (fun hf _ => hf)
        (fun i => ⟨(hclean i).1, fun hi => ((hclean i).2 hi).1⟩) fun i hi hr => ?_
      -- A window with the runtime of the process is the process's own, and was taken away.
      obtain ⟨hold, hpid⟩ := (hclean i).2 hi
      exact absurd (ha hphase i hold ((hclean i).1 ▸ hr)) hpid
  | cleanup p =>
    show (if (s.procs p).phase = .reaped then s.setProc p { s.procs p with freed := true } else s).Live
    split
    · rename_i hphase
      refine h.setProc p s.count (fun hrun => ?_) (fun b hb => hb) (fun _ hblit => ?_)
        (fun _ => ⟨rfl, id⟩) fun i hi hr => h.active i hi p hr
      · have hrun' : (s.procs p).phase = .running := hrun
        rw [hphase] at hrun'
        cases hrun'
      · by_contra hfreed
        exact ha hphase hfreed hblit
    · exact h

/-- A step of a live state uses no freed runtime. -/
theorem Live.usesLive (h : s.Live) (a : RuntimeStep) : s.UsesLive a := by
  intro r hr
  cases a with
  | fetch p =>
    simp only [used] at hr
    split at hr
    · rename_i i hi
      exact h.blitted r ⟨p, _, hi, .inr ⟨rfl, hr⟩⟩
    · cases hr
  | row p =>
    obtain ⟨b, hb, hsrc⟩ := Option.bind_eq_some_iff.mp hr
    exact h.blitted r ⟨p, b, hb, .inl hsrc⟩
  | _ => cases hr

end

/-- In a run whose steps all meet the condition, no blit uses a freed runtime. -/
theorem blits_live {as : List RuntimeStep} (h : Runs.Along step Timely init as) :
    Runs.Along step UsesLive init as := by
  have hlive := Runs.always_of_along (P := Live) (fun s a hs ha => hs.step ha) live_init h
  exact Runs.Along.imp (fun s a hs _ => hs.usesLive a) hlive h

/-- A compositor and a child that has claimed a buffer -/
def compositorAndChild : List RuntimeStep :=
  [.spawn 1, .spawn 2, .claimCompositor 0, .claimBuffer 0 (some 65536), .claimBuffer 1 (some 65536)]

/-- The child is blitted and ends after that. -/
theorem blits_live_childEndsLater :
    Runs.Along step UsesLive init
      (compositorAndChild ++ [.blit 0 (.pid 2) 8 8 true, .fetch 0, .row 0, .finishBlit 0, .done 1]) := by
  refine blits_live ⟨trivial, trivial, trivial, trivial, trivial, ?_, trivial, trivial, trivial, ?_, trivial⟩
  · intro i _ r _ hended
    rcases r with _ | _ | r
    · cases hended
    · cases hended
    · cases hended
  · rintro - ⟨q, b, hb, -⟩
    rcases q with _ | _ | q
    · cases hb
    · cases hb
    · cases hb

/-- The child ends, and is blitted before it is reaped. -/
theorem blit_of_ended_child :
    ¬ Runs.Along step UsesLive init
      (compositorAndChild ++ [.done 1, .blit 0 (.pid 2) 8 8 true, .fetch 0]) := by
  decide +kernel

end RuntimeState

end Sandflea
