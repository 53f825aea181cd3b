import Sandflea.Lib.Runs

/-!
# Focus in the window manager

The window manager (`wm.c`) keeps its windows in an array with a count, and the index of the window that has
the focus. Spawns add windows at the end, and closing one moves the others up. In every run there is a window
in focus exactly if there is a window at all, its flag is the only one that is set, and the windows that stay
keep their order and what they are (`focus_kept`).
-/

namespace Sandflea

/-- `MAX_WINDOWS` of `wm.c` -/
def wmMaxWindows : ℕ := 32

/-- `window_t` of `wm.c` -/
structure WmWindow where
  pid : ℤ
  canvasX : ℤ
  canvasY : ℤ
  w : ℤ
  h : ℤ
  focused : Bool
  shmId : ℤ
  shmHandle : ℤ
  shmTail : ℤ
  title : List UInt8
deriving DecidableEq, Repr

/-- The signals to the programs in the windows -/
inductive WmSignal
  | focusGained
  | focusLost
  | close
  | key
deriving DecidableEq, Repr

/-- What the window manager asks of the kernel -/
inductive WmCall
  /-- `proc_signal` -/
  | signal (pid : ℤ) (event : WmSignal)
  /-- `ipc_shm_write_byte` -/
  | shmWriteByte (handle offset val : ℤ)
  /-- `proc_spawn` of a terminal, with its argument -/
  | spawn (argv0 : ℤ)
deriving DecidableEq, Repr

/-- The variables of `wm.c`, with the calls that it made -/
structure WindowManager where
  screenW : ℤ
  screenH : ℤ
  windows : ℕ → WmWindow
  windowCount : ℕ
  focusedIdx : ℤ
  pendingShmId : ℤ
  pendingShmHandle : ℤ
  calls : List WmCall

/-- What happens in the main loop to the windows -/
inductive WmOp
  /-- `enqueue_spawn`, with what `ipc_shm_create` and `ipc_shm_attach` return -/
  | enqueueSpawn (shmId shmHandle : ℤ)
  /-- `dequeue_pending_spawns`, with what `proc_dequeue_spawn` returns -/
  | dequeuePendingSpawns (pids : List ℤ)
  | focusWindow (idx : ℤ)
  | closeWindow (idx : ℤ)
  | tileAll
  | sendKeyToFocused (ch : ℤ)
deriving DecidableEq, Repr

namespace WmWindow

/-- The zeroed window -/
def zeroed : WmWindow := ⟨0, 0, 0, 0, 0, false, 0, 0, 0, List.replicate 64 0⟩

/-- A window without its flag -/
def unfocused (win : WmWindow) : WmWindow := { win with focused := false }

/-- A window without its flag and its place on the screen -/
def placeless (win : WmWindow) : WmWindow :=
  { win with focused := false, canvasX := 0, canvasY := 0, w := 0, h := 0 }

/-- A window without the tail of its ring -/
def tailless (win : WmWindow) : WmWindow := { win with shmTail := 0 }

end WmWindow

namespace WindowManager

/-- The variables in `_start` before the loop -/
def boot (screenW screenH : ℤ) : WindowManager where
  screenW := screenW
  screenH := screenH
  windows _ := .zeroed
  windowCount := 0
  focusedIdx := -1
  pendingShmId := -1
  pendingShmHandle := -1
  calls := []

/-- A call -/
def call (s : WindowManager) (c : WmCall) : WindowManager := { s with calls := s.calls ++ [c] }

/-- A write to the flag of a window -/
def setFocused (s : WindowManager) (i : ℕ) (focused : Bool) : WindowManager :=
  { s with windows := Function.update s.windows i { s.windows i with focused } }

/-- `focus_window` -/
def focusWindow (s : WindowManager) (idx : ℤ) : WindowManager :=
  if idx < 0 ∨ s.windowCount ≤ idx ∨ s.focusedIdx = idx then s
  else
    let s :=
      if 0 ≤ s.focusedIdx ∧ s.focusedIdx < s.windowCount then
        (s.setFocused s.focusedIdx.toNat false).call (.signal (s.windows s.focusedIdx.toNat).pid .focusLost)
      else s
    let s := { s with focusedIdx := idx }
    (s.setFocused idx.toNat true).call (.signal (s.windows idx.toNat).pid .focusGained)

/-- The loop in `close_window` from a position on -/
def shiftDown (windows : ℕ → WmWindow) (idx turns : ℕ) : ℕ → WmWindow :=
  (List.range' idx turns).foldl (fun ws i => Function.update ws i (ws (i + 1))) windows

/-- The adjustment of the focus in `close_window` -/
def refocus (s : WindowManager) (idx : ℤ) : WindowManager :=
  let s := if idx < s.focusedIdx then { s with focusedIdx := s.focusedIdx - 1 } else s
  let s := if s.windowCount ≤ s.focusedIdx then { s with focusedIdx := s.windowCount - 1 } else s
  if 0 ≤ s.focusedIdx ∧ s.focusedIdx < s.windowCount then
    (s.setFocused s.focusedIdx.toNat true).call (.signal (s.windows s.focusedIdx.toNat).pid .focusGained)
  else s

/-- `close_window` -/
def closeWindow (s : WindowManager) (idx : ℤ) : WindowManager :=
  if idx < 0 ∨ s.windowCount ≤ idx then s
  else
    let s := s.call (.signal (s.windows idx.toNat).pid .close)
    let s :=
      { s with
        windows := shiftDown s.windows idx.toNat (s.windowCount - 1 - idx.toNat)
        windowCount := s.windowCount - 1 }
    if s.windowCount = 0 then { s with focusedIdx := -1 } else s.refocus idx

/-- The loop in `tile_all` that finds the number of columns -/
def tileCols (windowCount cols : ℕ) : ℕ :=
  if cols * cols < windowCount then tileCols windowCount (cols + 1) else cols
termination_by windowCount - cols
decreasing_by
  have := Nat.le_mul_self cols
  omega

/-- A turn of the loop over the windows in `tile_all` -/
def tileWindow (cols : ℕ) (cellW cellH : ℤ) (s : WindowManager) (i : ℕ) : WindowManager :=
  let win := { s.windows i with canvasX := (i % cols : ℕ) * cellW, canvasY := (i / cols : ℕ) * cellH,
                                w := cellW, h := cellH }
  let s := { s with windows := Function.update s.windows i win }
  if 0 ≤ win.shmHandle then
    let cw := cellW - 2 * 2
    let ch := cellH - 20 - 2
    { s with
      calls := s.calls ++ [.shmWriteByte win.shmHandle 258 (cw % 256),
        .shmWriteByte win.shmHandle 259 (cw / 256 % 256), .shmWriteByte win.shmHandle 260 (ch % 256),
        .shmWriteByte win.shmHandle 261 (ch / 256 % 256), .signal win.pid .key] }
  else s

/-- `tile_all` -/
def tileAll (s : WindowManager) : WindowManager :=
  if s.windowCount = 0 then s
  else
    let cols := tileCols s.windowCount 1
    let rows := (s.windowCount + cols - 1) / cols
    (List.range s.windowCount).foldl (tileWindow cols (s.screenW.tdiv cols) (s.screenH.tdiv rows)) s

/-- The ring for the next window in `enqueue_spawn` -/
def pendingRing (s : WindowManager) (shmId shmHandle : ℤ) : WindowManager :=
  if 0 < shmId then
    if 0 ≤ shmHandle then
      { s with
        pendingShmId := shmId
        pendingShmHandle := shmHandle
        calls := s.calls ++ [.shmWriteByte shmHandle 0 0, .shmWriteByte shmHandle 1 0] }
    else { s with pendingShmId := -1, pendingShmHandle := shmHandle }
  else { s with pendingShmId := -1, pendingShmHandle := -1 }

/-- `enqueue_spawn` -/
def enqueueSpawn (s : WindowManager) (shmId shmHandle : ℤ) : WindowManager :=
  if wmMaxWindows ≤ s.windowCount then s
  else
    let s := s.pendingRing shmId shmHandle
    s.call (.spawn (if 0 < s.pendingShmId then s.pendingShmId else 0))

/-- The new window in `dequeue_pending_spawns` -/
def newWindow (s : WindowManager) (pid : ℤ) : WmWindow where
  pid := pid
  canvasX := 100 + s.windowCount * 30
  canvasY := 100 + s.windowCount * 30
  w := 400
  h := 300
  focused := false
  shmId := s.pendingShmId
  shmHandle := s.pendingShmHandle
  shmTail := 0
  title := "Terminal".toUTF8.toList ++ 0 :: (s.windows s.windowCount).title.drop 9

/-- The new window at the end of the array -/
def addWindow (s : WindowManager) (pid : ℤ) : WindowManager :=
  { s with
    windows := Function.update s.windows s.windowCount (s.newWindow pid)
    windowCount := s.windowCount + 1
    pendingShmId := -1
    pendingShmHandle := -1 }

/-- A turn of the loop in `dequeue_pending_spawns` -/
def spawnWindow (s : WindowManager) (pid : ℤ) : WindowManager :=
  ((s.addWindow pid).focusWindow s.windowCount).tileAll

/-- `dequeue_pending_spawns` -/
def dequeuePendingSpawns (s : WindowManager) : List ℤ → WindowManager
  | [] => s
  | pid :: pids =>
    if s.windowCount < wmMaxWindows ∧ 0 ≤ pid then dequeuePendingSpawns (s.spawnWindow pid) pids else s

/-- `send_key_to_focused` -/
def sendKeyToFocused (s : WindowManager) (ch : ℤ) : WindowManager :=
  if s.focusedIdx < 0 ∨ s.windowCount ≤ s.focusedIdx then s
  else
    let i := s.focusedIdx.toNat
    let win := s.windows i
    if win.shmHandle < 0 then s
    else
      let tail := (win.shmTail + 1) % 256
      { s with
        windows := Function.update s.windows i { win with shmTail := tail }
        calls := s.calls ++ [.shmWriteByte win.shmHandle (2 + win.shmTail.tmod 256) ch,
          .shmWriteByte win.shmHandle 1 tail, .signal win.pid .key] }

/-- The state after an operation -/
def step (s : WindowManager) : WmOp → WindowManager
  | .enqueueSpawn shmId shmHandle => s.enqueueSpawn shmId shmHandle
  | .dequeuePendingSpawns pids => s.dequeuePendingSpawns pids
  | .focusWindow idx => s.focusWindow idx
  | .closeWindow idx => s.closeWindow idx
  | .tileAll => s.tileAll
  | .sendKeyToFocused ch => s.sendKeyToFocused ch

/-- The windows that there are -/
def table (s : WindowManager) : List WmWindow := (List.range s.windowCount).map s.windows

/-! ## The property -/

/-- Exactly the window at the index has its flag set, and the index is no window's or -1. -/
structure Pointed (s : WindowManager) : Prop where
  ge : -1 ≤ s.focusedIdx
  lt : s.focusedIdx < s.windowCount
  flag : ∀ i < s.windowCount, (s.windows i).focused = true ↔ (i : ℤ) = s.focusedIdx

/-- The invariant: a window is in focus if there is one. -/
structure WellFocused (s : WindowManager) : Prop extends Pointed s where
  count_le : s.windowCount ≤ wmMaxWindows
  none_iff : s.focusedIdx = -1 ↔ s.windowCount = 0

/-- What an operation does to the windows that there are: closing one removes it, spawns add some at the
end, and the rest stays in order with all its data. Spawns and tiling place the windows anew. -/
def KeepsWindows (s : WindowManager) : WmOp → Prop
  | .enqueueSpawn shmId shmHandle => (s.step (.enqueueSpawn shmId shmHandle)).table = s.table
  | .dequeuePendingSpawns pids => ∃ new : List WmWindow, new.map WmWindow.pid <+: pids ∧
      (s.step (.dequeuePendingSpawns pids)).table.map WmWindow.placeless =
        s.table.map WmWindow.placeless ++ new.map WmWindow.placeless
  | .focusWindow idx =>
    (s.step (.focusWindow idx)).table.map WmWindow.unfocused = s.table.map WmWindow.unfocused
  | .closeWindow idx =>
    (s.step (.closeWindow idx)).table.map WmWindow.unfocused =
      if 0 ≤ idx ∧ idx < s.windowCount then (s.table.map WmWindow.unfocused).eraseIdx idx.toNat
      else s.table.map WmWindow.unfocused
  | .tileAll => (s.step .tileAll).table.map WmWindow.placeless = s.table.map WmWindow.placeless
  | .sendKeyToFocused ch =>
    (s.step (.sendKeyToFocused ch)).table.map WmWindow.tailless = s.table.map WmWindow.tailless

/-! ## What the operations change -/

section

variable {s t : WindowManager}

@[simp] theorem call_windows (c : WmCall) : (s.call c).windows = s.windows := rfl

@[simp] theorem call_windowCount (c : WmCall) : (s.call c).windowCount = s.windowCount := rfl

@[simp] theorem call_focusedIdx (c : WmCall) : (s.call c).focusedIdx = s.focusedIdx := rfl

@[simp] theorem setFocused_windowCount (i : ℕ) (b : Bool) : (s.setFocused i b).windowCount = s.windowCount := rfl

@[simp] theorem setFocused_focusedIdx (i : ℕ) (b : Bool) : (s.setFocused i b).focusedIdx = s.focusedIdx := rfl

theorem setFocused_focused (i : ℕ) (b : Bool) (j : ℕ) :
    ((s.setFocused i b).windows j).focused = if j = i then b else (s.windows j).focused := by
  unfold setFocused
  dsimp only
  rw [Function.update_apply]
  split <;> rfl

@[simp] theorem setFocused_unfocused (i : ℕ) (b : Bool) (j : ℕ) :
    ((s.setFocused i b).windows j).unfocused = (s.windows j).unfocused := by
  unfold setFocused
  dsimp only
  rw [Function.update_apply]
  split
  · subst j
    rfl
  · rfl

/-- Two tables of one length with the same data have the same data in order. -/
theorem table_map_congr {B : Type*} {f : WmWindow → B} (hcount : t.windowCount = s.windowCount)
    (hwin : ∀ i < s.windowCount, f (t.windows i) = f (s.windows i)) : t.table.map f = s.table.map f := by
  unfold table
  rw [hcount, List.map_map, List.map_map]
  exact List.map_congr_left fun i hi => hwin i (List.mem_range.mp hi)

/-- Only the indices and the flags count. -/
theorem WellFocused.congr (h : s.WellFocused) (hcount : t.windowCount = s.windowCount)
    (hidx : t.focusedIdx = s.focusedIdx) (hflag : ∀ i, (t.windows i).focused = (s.windows i).focused) :
    t.WellFocused where
  ge := by rw [hidx]; exact h.ge
  lt := by rw [hidx, hcount]; exact h.lt
  flag i hi := by rw [hflag, hidx]; exact h.flag i (hcount ▸ hi)
  count_le := by rw [hcount]; exact h.count_le
  none_iff := by rw [hidx, hcount]; exact h.none_iff

/-- Focusing a window of the array moves the flag to it. -/
theorem focusWindow_spec (h : s.Pointed) {idx : ℤ} (h0 : 0 ≤ idx) (hlt : idx < s.windowCount) :
    (s.focusWindow idx).windowCount = s.windowCount ∧ (s.focusWindow idx).focusedIdx = idx ∧
      (∀ i < s.windowCount, ((s.focusWindow idx).windows i).focused = true ↔ (i : ℤ) = idx) ∧
      ∀ i, ((s.focusWindow idx).windows i).unfocused = (s.windows i).unfocused := by
  have hge := h.ge
  have hfocused := h.lt
  unfold focusWindow
  by_cases hsame : s.focusedIdx = idx
  · rw [if_pos (.inr (.inr hsame))]
    exact ⟨rfl, hsame, fun i hi => hsame ▸ h.flag i hi, fun i => rfl⟩
  · rw [if_neg (by omega)]
    by_cases hsome : 0 ≤ s.focusedIdx ∧ s.focusedIdx < s.windowCount
    · rw [if_pos hsome]
      refine ⟨rfl, rfl, fun i hi => ?_, fun i => ?_⟩
      · have := h.flag i hi
        simp only [call_windows, setFocused_focused]
        split_ifs <;> simp_all
        omega
      · simp only [call_windows, setFocused_unfocused]
    · rw [if_neg hsome]
      refine ⟨rfl, rfl, fun i hi => ?_, fun i => ?_⟩
      · have := h.flag i hi
        simp only [call_windows, setFocused_focused]
        split_ifs <;> simp_all
        omega
      · simp only [call_windows, setFocused_unfocused]

/-- With a window of the array in focus, the focus is well. -/
theorem focusWindow_wellFocused (h : s.Pointed) (hle : s.windowCount ≤ wmMaxWindows) {idx : ℤ} (h0 : 0 ≤ idx)
    (hlt : idx < s.windowCount) : (s.focusWindow idx).WellFocused := by
  obtain ⟨hcount, hidx, hflag, -⟩ := focusWindow_spec h h0 hlt
  refine ⟨⟨by omega, by omega, fun i hi => ?_⟩, by omega, by omega⟩
  rw [hidx]
  exact hflag i (hcount ▸ hi)

/-- The same windows in other places, and everything else but the calls -/
structure Placed (s t : WindowManager) : Prop where
  windowCount : t.windowCount = s.windowCount
  focusedIdx : t.focusedIdx = s.focusedIdx
  focused : ∀ i, (t.windows i).focused = (s.windows i).focused
  placeless : ∀ i, (t.windows i).placeless = (s.windows i).placeless

theorem Placed.trans {u : WindowManager} (h : s.Placed t) (h' : t.Placed u) : s.Placed u where
  windowCount := h'.windowCount.trans h.windowCount
  focusedIdx := h'.focusedIdx.trans h.focusedIdx
  focused i := (h'.focused i).trans (h.focused i)
  placeless i := (h'.placeless i).trans (h.placeless i)

theorem tileWindow_placed (cols : ℕ) (cellW cellH : ℤ) (i : ℕ) :
    s.Placed (tileWindow cols cellW cellH s i) := by
  have hcall : ∀ calls, s.Placed
      { s with
        windows := Function.update s.windows i
          { s.windows i with canvasX := (i % cols : ℕ) * cellW, canvasY := (i / cols : ℕ) * cellH,
                             w := cellW, h := cellH }
        calls := calls } := by
    intro calls
    refine ⟨rfl, rfl, fun j => ?_, fun j => ?_⟩
    all_goals
      dsimp only
      rw [Function.update_apply]
      split
      · subst j
        rfl
      · rfl
  unfold tileWindow
  dsimp only
  split
  · exact hcall _
  · exact hcall s.calls

theorem tileAll_placed (s : WindowManager) : s.Placed s.tileAll := by
  unfold tileAll
  split
  · exact ⟨rfl, rfl, fun _ => rfl, fun _ => rfl⟩
  · dsimp only
    refine List.foldlRecOn (motive := fun t => s.Placed t) _ _ ⟨rfl, rfl, fun _ => rfl, fun _ => rfl⟩ ?_
    exact fun t ht i _ => ht.trans (tileWindow_placed _ _ _ i)

/-! ### Closing -/

/-- The loop moves the windows behind the first position up by one. -/
theorem shiftDown_apply (windows : ℕ → WmWindow) (idx turns j : ℕ) :
    shiftDown windows idx turns j =
      if idx ≤ j ∧ j < idx + turns then windows (j + 1) else windows j := by
  induction turns generalizing j with
  | zero => rw [if_neg (by omega)]; rfl
  | succ turns ih =>
    unfold shiftDown at ih ⊢
    rw [List.range'_1_concat, List.foldl_append, List.foldl_cons, List.foldl_nil, Function.update_apply]
    split
    · subst j
      rw [ih, if_neg (by omega), if_pos (by omega)]
    · rw [ih]
      split_ifs <;> first | rfl | omega

/-- The window that is at a position once the one at `idx` is closed -/
def fromIdx (idx j : ℕ) : ℕ := if j < idx then j else j + 1

/-- Where the focus is once the window at `idx` is closed -/
def nextFocus (s : WindowManager) (idx : ℤ) : ℤ :=
  if idx < s.focusedIdx then s.focusedIdx - 1
  else if s.windowCount ≤ s.focusedIdx then s.windowCount - 1
  else s.focusedIdx

/-- With a window left, the adjustment sets the flag at the next index. -/
theorem refocus_eq {idx : ℤ} (hpos : 0 < s.windowCount) (h0 : 0 ≤ idx) (hf0 : 0 ≤ s.focusedIdx)
    (hf : s.focusedIdx ≤ s.windowCount) :
    s.refocus idx =
      (({ s with focusedIdx := s.nextFocus idx }).setFocused (s.nextFocus idx).toNat true).call
        (.signal (s.windows (s.nextFocus idx).toNat).pid .focusGained) := by
  unfold refocus nextFocus
  by_cases hbefore : idx < s.focusedIdx
  · have hin : ¬ (s.windowCount : ℤ) ≤ s.focusedIdx - 1 := by omega
    simp only [if_pos hbefore, if_neg hin]
    rw [if_pos (by omega)]
  · simp only [if_neg hbefore]
    by_cases hlast : s.windowCount ≤ s.focusedIdx
    · simp only [if_pos hlast]
      rw [if_pos (by omega)]
    · simp only [if_neg hlast]
      rw [if_pos (by omega)]

/-- The state in which `close_window` adjusts the focus -/
def removed (s : WindowManager) (idx : ℕ) : WindowManager :=
  { s with
    windows := shiftDown s.windows idx (s.windowCount - 1 - idx)
    windowCount := s.windowCount - 1
    calls := s.calls ++ [.signal (s.windows idx).pid .close] }

theorem removed_windows {idx j : ℕ} (hj : j < s.windowCount - 1) :
    (s.removed idx).windows j = s.windows (fromIdx idx j) := by
  unfold removed fromIdx
  dsimp only
  rw [shiftDown_apply]
  split_ifs <;> first | rfl | omega

/-- Closing a window of the array removes it, and the focus goes to its successor if it had the focus. -/
theorem closeWindow_spec (h : s.WellFocused) {idx : ℤ} (h0 : 0 ≤ idx) (hlt : idx < s.windowCount) :
    (s.closeWindow idx).WellFocused ∧ (s.closeWindow idx).windowCount = s.windowCount - 1 ∧
      ∀ j < s.windowCount - 1, ((s.closeWindow idx).windows j).unfocused =
        (s.windows (fromIdx idx.toNat j)).unfocused := by
  have hge := h.ge
  have hfocused := h.lt
  have hcount := h.count_le
  have hnone := h.none_iff
  have hclose : s.closeWindow idx =
      if s.windowCount - 1 = 0 then { s.removed idx.toNat with focusedIdx := -1 }
      else (s.removed idx.toNat).refocus idx := if_neg (by omega)
  rw [hclose]
  by_cases hlast : s.windowCount - 1 = 0
  · rw [if_pos hlast]
    refine ⟨⟨⟨le_rfl, ?_, fun i hi => ?_⟩, ?_, ?_⟩, rfl, fun j hj => by omega⟩
    · show (-1 : ℤ) < (s.windowCount - 1 : ℕ)
      omega
    · exact absurd hi (by show ¬ i < s.windowCount - 1; omega)
    · show s.windowCount - 1 ≤ wmMaxWindows
      omega
    · exact iff_of_true rfl hlast
  · rw [if_neg hlast]
    have hcount' : (s.removed idx.toNat).windowCount = s.windowCount - 1 := rfl
    have hidx' : (s.removed idx.toNat).focusedIdx = s.focusedIdx := rfl
    rw [refocus_eq (by omega) h0 (by omega) (by omega)]
    have hnext : (s.removed idx.toNat).nextFocus idx =
        if idx < s.focusedIdx then s.focusedIdx - 1
        else if ((s.windowCount - 1 : ℕ) : ℤ) ≤ s.focusedIdx then ((s.windowCount - 1 : ℕ) : ℤ) - 1
        else s.focusedIdx := rfl
    generalize (s.removed idx.toNat).nextFocus idx = next at hnext
    have hrange : 0 ≤ next ∧ next < (s.windowCount - 1 : ℕ) := by
      rw [hnext]
      split_ifs <;> omega
    refine ⟨⟨⟨?_, ?_, fun i hi => ?_⟩, ?_, ?_⟩, rfl, fun j hj => ?_⟩
    · show -1 ≤ next
      omega
    · exact hrange.2
    · -- the flag of the closed window is gone, and the others moved with their windows
      have hi : i < s.windowCount - 1 := hi
      have hflag := h.flag (fromIdx idx.toNat i) (by unfold fromIdx; split <;> omega)
      simp only [call_windows, setFocused_focused, removed_windows hi]
      show _ ↔ (i : ℤ) = next
      split
      · simp only [true_iff]
        omega
      · rw [hflag, hnext]
        unfold fromIdx
        rw [hnext] at *
        split_ifs at * <;> omega
    · show s.windowCount - 1 ≤ wmMaxWindows
      omega
    · refine iff_of_false ?_ hlast
      show ¬ next = -1
      omega
    · simp only [call_windows, setFocused_unfocused, removed_windows hj]

/-! ### Spawns and keys -/

/-- The new window is pointed at by nothing yet. -/
theorem addWindow_pointed (h : s.WellFocused) (pid : ℤ) : (s.addWindow pid).Pointed := by
  have hlt := h.lt
  refine ⟨h.ge, ?_, fun i hi => ?_⟩
  · show s.focusedIdx < (s.windowCount + 1 : ℕ)
    omega
  · have hi : i < s.windowCount + 1 := hi
    show (Function.update s.windows s.windowCount (s.newWindow pid) i).focused = true ↔ (i : ℤ) = s.focusedIdx
    rw [Function.update_apply]
    split
    · simp only [newWindow, Bool.false_eq_true, false_iff]
      omega
    · exact h.flag i (by omega)

/-- A spawn adds a window at the end, and gives it the focus. -/
theorem spawnWindow_spec (h : s.WellFocused) (hroom : s.windowCount < wmMaxWindows) (pid : ℤ) :
    (s.spawnWindow pid).WellFocused ∧
      (s.spawnWindow pid).table.map WmWindow.placeless =
        s.table.map WmWindow.placeless ++ [(s.newWindow pid).placeless] := by
  have hpointed := addWindow_pointed h pid
  have hcount' : (s.addWindow pid).windowCount = s.windowCount + 1 := rfl
  have hnew : (s.windowCount : ℤ) < (s.addWindow pid).windowCount := by omega
  obtain ⟨hcount, -, -, hdata⟩ := focusWindow_spec hpointed (Int.natCast_nonneg s.windowCount) hnew
  have hplaced := tileAll_placed ((s.addWindow pid).focusWindow s.windowCount)
  constructor
  · have hfocused := focusWindow_wellFocused hpointed (by omega) (Int.natCast_nonneg s.windowCount) hnew
    exact hfocused.congr hplaced.windowCount hplaced.focusedIdx hplaced.focused
  · unfold table
    rw [spawnWindow, hplaced.windowCount, hcount, hcount', List.range_succ, List.map_append, List.map_append]
    have hwin : ∀ i, ((((s.addWindow pid).focusWindow s.windowCount).tileAll).windows i).placeless =
        ((s.addWindow pid).windows i).placeless := by
      intro i
      have := congrArg WmWindow.placeless (hdata i)
      exact (hplaced.placeless i).trans this
    congr 1
    · rw [List.map_map, List.map_map]
      refine List.map_congr_left fun i hi => (hwin i).trans ?_
      have hne : i ≠ s.windowCount := (List.mem_range.mp hi).ne
      exact congrArg WmWindow.placeless (Function.update_of_ne hne _ _)
    · show [_] = _
      rw [hwin]
      exact congrArg (fun win => [WmWindow.placeless win]) (Function.update_self ..)

/-- Spawns add windows at the end, for the first of the processes. -/
theorem dequeuePendingSpawns_spec (h : s.WellFocused) (pids : List ℤ) :
    (s.dequeuePendingSpawns pids).WellFocused ∧ ∃ new : List WmWindow, new.map WmWindow.pid <+: pids ∧
      (s.dequeuePendingSpawns pids).table.map WmWindow.placeless =
        s.table.map WmWindow.placeless ++ new.map WmWindow.placeless := by
  induction pids generalizing s with
  | nil => exact ⟨h, [], List.nil_prefix, by simp [dequeuePendingSpawns]⟩
  | cons pid pids ih =>
    unfold dequeuePendingSpawns
    split
    · rename_i hroom
      obtain ⟨hspawn, hadded⟩ := spawnWindow_spec h hroom.1 pid
      obtain ⟨hall, new, hnew, htable⟩ := ih hspawn
      refine ⟨hall, s.newWindow pid :: new, ?_, ?_⟩
      · exact List.cons_prefix_cons.mpr ⟨rfl, hnew⟩
      · rw [htable, hadded, List.append_assoc]
        rfl
    · exact ⟨h, [], List.nil_prefix, by simp⟩

theorem enqueueSpawn_windows (shmId shmHandle : ℤ) :
    (s.enqueueSpawn shmId shmHandle).windows = s.windows ∧
      (s.enqueueSpawn shmId shmHandle).windowCount = s.windowCount ∧
      (s.enqueueSpawn shmId shmHandle).focusedIdx = s.focusedIdx := by
  unfold enqueueSpawn pendingRing
  split_ifs <;> exact ⟨rfl, rfl, rfl⟩

/-- A key moves the tail of one window. -/
theorem sendKeyToFocused_windows (ch : ℤ) :
    (s.sendKeyToFocused ch).windowCount = s.windowCount ∧
      (s.sendKeyToFocused ch).focusedIdx = s.focusedIdx ∧
      ∀ i, ((s.sendKeyToFocused ch).windows i).focused = (s.windows i).focused ∧
        ((s.sendKeyToFocused ch).windows i).tailless = (s.windows i).tailless := by
  unfold sendKeyToFocused
  dsimp only
  split_ifs
  · exact ⟨rfl, rfl, fun i => ⟨rfl, rfl⟩⟩
  · exact ⟨rfl, rfl, fun i => ⟨rfl, rfl⟩⟩
  · refine ⟨rfl, rfl, fun i => ?_⟩
    dsimp only
    rw [Function.update_apply]
    split
    · subst i
      exact ⟨rfl, rfl⟩
    · exact ⟨rfl, rfl⟩

/-- A key goes to the window whose flag is set, or nowhere. -/
theorem sendKeyToFocused_calls (h : s.WellFocused) (ch : ℤ) :
    (s.sendKeyToFocused ch).calls = s.calls ∨
      ∃ win ∈ s.table, win.focused = true ∧ (s.sendKeyToFocused ch).calls = s.calls ++
        [.shmWriteByte win.shmHandle (2 + win.shmTail.tmod 256) ch,
          .shmWriteByte win.shmHandle 1 ((win.shmTail + 1) % 256), .signal win.pid .key] := by
  by_cases hin : s.focusedIdx < 0 ∨ s.windowCount ≤ s.focusedIdx
  · exact .inl (by rw [sendKeyToFocused, if_pos hin])
  · by_cases hring : (s.windows s.focusedIdx.toNat).shmHandle < 0
    · refine .inl ?_
      rw [sendKeyToFocused, if_neg hin]
      dsimp only
      rw [if_pos hring]
    · refine .inr ⟨s.windows s.focusedIdx.toNat, ?_, ?_, ?_⟩
      · exact List.mem_map_of_mem (List.mem_range.mpr (by omega))
      · exact (h.flag _ (by omega)).mpr (by omega)
      · rw [sendKeyToFocused, if_neg hin]
        dsimp only
        rw [if_neg hring]

/-! ## Runs -/

/-- Without the window at `idx`, the table holds the others in order. -/
theorem table_map_eraseIdx {B : Type*} {f : WmWindow → B} {idx : ℕ} (hidx : idx < s.windowCount)
    (hcount : t.windowCount = s.windowCount - 1)
    (hwin : ∀ j < s.windowCount - 1, f (t.windows j) = f (s.windows (fromIdx idx j))) :
    t.table.map f = (s.table.map f).eraseIdx idx := by
  unfold table
  refine List.ext_getElem ?_ fun j h₁ h₂ => ?_
  · rw [List.length_eraseIdx_of_lt (by simpa using hidx)]
    simp [hcount]
  · have hj : j < s.windowCount - 1 := by simpa [hcount] using h₁
    rw [List.getElem_eraseIdx]
    have := hwin j hj
    unfold fromIdx at this
    split_ifs at this ⊢ <;> simpa using this

/-- Every operation keeps the invariant and the windows. -/
theorem step_spec (h : s.WellFocused) (op : WmOp) : (s.step op).WellFocused ∧ s.KeepsWindows op := by
  cases op with
  | enqueueSpawn shmId shmHandle =>
    obtain ⟨hwindows, hcount, hidx⟩ := enqueueSpawn_windows (s := s) shmId shmHandle
    refine ⟨h.congr hcount hidx fun i => by rw [step, hwindows], ?_⟩
    show table (s.enqueueSpawn shmId shmHandle) = s.table
    rw [table, hcount, hwindows]
    rfl
  | dequeuePendingSpawns pids => exact dequeuePendingSpawns_spec h pids
  | focusWindow idx =>
    by_cases hin : 0 ≤ idx ∧ idx < s.windowCount
    · obtain ⟨hcount, -, -, hdata⟩ := focusWindow_spec h.toPointed hin.1 hin.2
      exact ⟨focusWindow_wellFocused h.toPointed h.count_le hin.1 hin.2,
        table_map_congr hcount fun i _ => hdata i⟩
    · have hsame : s.focusWindow idx = s := if_pos (by omega)
      unfold KeepsWindows step
      dsimp only
      rw [hsame]
      exact ⟨h, rfl⟩
  | closeWindow idx =>
    by_cases hin : 0 ≤ idx ∧ idx < s.windowCount
    · obtain ⟨hfocused, hcount, hdata⟩ := closeWindow_spec h hin.1 hin.2
      refine ⟨hfocused, ?_⟩
      unfold KeepsWindows step
      dsimp only
      rw [if_pos hin]
      exact table_map_eraseIdx (by omega) hcount hdata
    · have hsame : s.closeWindow idx = s := if_pos (by omega)
      unfold KeepsWindows step
      dsimp only
      rw [hsame, if_neg hin]
      exact ⟨h, rfl⟩
  | tileAll =>
    have hplaced := s.tileAll_placed
    exact ⟨h.congr hplaced.windowCount hplaced.focusedIdx hplaced.focused,
      table_map_congr hplaced.windowCount fun i _ => hplaced.placeless i⟩
  | sendKeyToFocused ch =>
    obtain ⟨hcount, hidx, hwin⟩ := sendKeyToFocused_windows (s := s) ch
    exact ⟨h.congr hcount hidx fun i => (hwin i).1, table_map_congr hcount fun i _ => (hwin i).2⟩

end

theorem wellFocused_boot (screenW screenH : ℤ) : (boot screenW screenH).WellFocused where
  ge := le_rfl
  lt := Int.negSucc_lt_zero 0
  flag i hi := absurd hi (Nat.not_lt_zero i)
  count_le := Nat.zero_le _
  none_iff := iff_of_true rfl rfl

/-- In every run of the window manager there are at most 32 windows, the focus is at none exactly if there is
no window and otherwise at the only one whose flag is set, and every operation keeps the windows that stay in
order and with their data. -/
theorem focus_kept (screenW screenH : ℤ) (ops : List WmOp) :
    Runs.Always step WellFocused (boot screenW screenH) ops ∧
      Runs.Along step KeepsWindows (boot screenW screenH) ops := by
  have hall : Runs.Always step WellFocused (boot screenW screenH) ops :=
    Runs.always_of_along (P := WellFocused) (C := fun _ _ => True) (fun s op h _ => (step_spec h op).1)
      (wellFocused_boot screenW screenH) (Runs.along_of_forall (fun _ _ _ => trivial) _)
  exact ⟨hall, Runs.along_of_always (fun s op h _ => (step_spec h op).2) hall⟩

end WindowManager

end Sandflea
