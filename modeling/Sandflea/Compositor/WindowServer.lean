import Sandflea.Compositor.Handles
import Sandflea.Lib.Ring

/-!
# The window server

What `kern_compositor.c` does for the programs that have windows: the functions `window.*`, `surface.*` and
`winput.*` that every program may call, those of the compositor, and what happens when a process exits. To
the slots of the window table come the other fields of a window with the queue of its events, and the queue
of the events that the compositor polls. A call runs to its end before the next begins.
-/

namespace Sandflea

open Bytes
open Compositor (packPair)

/-- `CLIENT_EVENT_QUEUE_SIZE` -/
abbrev clientEventQueueSize : ℕ := 64

/-- `COMPOSITOR_EVENT_QUEUE_SIZE` -/
abbrev compositorEventQueueSize : ℕ := 256

theorem compositorEventQueueSize_pos : 0 < compositorEventQueueSize := Nat.zero_lt_succ 255

/-- `client_event_t` -/
structure ClientEvent where
  type : UInt16
  flags : UInt16
  win : Int32
  data0 : UInt32
  data1 : UInt32
deriving DecidableEq, Repr

/-- `sizeof(client_event_t)` -/
def sizeofClientEvent : ℕ := 16

/-- The words of a `client_event_t` at an offset -/
def putClientEvent (b : Bytes) (o : ℕ) (ev : ClientEvent) : Bytes :=
  putU32 (putU32 (putU32 (putU16 (putU16 b o ev.type.toNat) (o + 2) ev.flags.toNat) (o + 4)
    ev.win.toUInt32.toNat) (o + 8) ev.data0.toNat) (o + 12) ev.data1.toNat

/-- The fields of a `kern_window_t` besides those of its slot. -/
structure WindowData where
  parentHandle : Int32
  winType : UInt32
  flags : UInt32
  /-- `char title[64]` -/
  title : Bytes
  bufferOffset : UInt32
  bufW : UInt32
  bufH : UInt32
  stride : UInt32
  /-- `event_buf` with `event_read` and `event_write` -/
  events : Ring.Queue ClientEvent clientEventQueueSize

/-- The state that the functions share. -/
structure WindowServer where
  table : WindowTable
  data : Fin maxCompositorWindows → WindowData
  /-- `g_event_buf` with `g_event_read` and `g_event_write` -/
  events : Ring.Queue CompositorEvent compositorEventQueueSize

namespace WindowServer

/-- `compositor_init` -/
def init : WindowServer where
  table := WindowTable.init
  data _ := ⟨0, 0, 0, zeros, 0, 0, 0, 0, ⟨fun _ => ⟨0, 0, 0, 0, 0⟩, 0, 0, by decide, by decide⟩⟩
  events := ⟨fun _ => ⟨0, 0, 0, 0⟩, 0, 0, compositorEventQueueSize_pos, compositorEventQueueSize_pos⟩

/-! ## Parts of the functions -/

/-- `compositor_push_event` -/
def pushEvent (s : WindowServer) (ev : CompositorEvent) : WindowServer :=
  { s with events := s.events.push ev }

/-- An event is pushed if there is a compositor. -/
def notify (s : WindowServer) (ev : CompositorEvent) : WindowServer :=
  if s.table.compositorPid ≠ -1 then s.pushEvent ev else s

/-- Change the fields of a window. -/
def setData (s : WindowServer) (i : Fin maxCompositorWindows) (d : WindowData) : WindowServer :=
  { s with data := Function.update s.data i d }

/-- The title that a program passes, at most 63 bytes of it and no more than there are in its memory -/
def readTitle (mem : Option Guest) (titlePtr titleLen : UInt32) (title : Bytes) : Option Bytes :=
  match mem with
  | none => none
  | some g =>
    if titlePtr < g.memSize ∧ 0 < titleLen then
      let copyLen := if titleLen < 63 then titleLen else 63
      let copyLen := if g.memSize < titlePtr + copyLen then g.memSize - titlePtr else copyLen
      some (Function.update (copyInto title 0 g.bytes titlePtr.toNat copyLen.toNat) copyLen.toNat 0)
    else none

/-- `comp_str_copy` into a title -/
def strCopy (title : Bytes) (src : String) : Bytes :=
  let text := src.toUTF8.toList.take 63
  Function.update (title.putList 0 text) text.length 0

/-- The check of the functions that change a window: it is made by its owner and by the compositor. -/
def ifOwner (s : WindowServer) (c : Caller) (handle : Int32)
    (change : Fin maxCompositorWindows → WindowServer) : Int32 × WindowServer :=
  match s.table.findByHandle handle with
  | none => (-2, s)
  | some i =>
    if (s.table.windows i).pid ≠ c.pid ∧ c.pid ≠ s.table.compositorPid then (-3, s) else (0, change i)

/-! ## The functions of every program -/

/-- `wasm_window_create` -/
def windowCreate (s : WindowServer) (c : Caller) (mem : Option Guest) (parentHandle : Int32)
    (winType titlePtr titleLen w h flags : UInt32) : Int32 × WindowServer :=
  match s.table.findFreeSlot with
  | none => (-2, s)
  | some i =>
    let handle := (s.table.makeWindowHandle i).2
    let win : WindowData :=
      { parentHandle, winType, flags
        bufW := w
        bufH := h
        stride := w * 4
        bufferOffset := 0
        events := (s.data i).events.clear
        title := (readTitle mem titlePtr titleLen (s.data i).title).getD (strCopy (s.data i).title "Window") }
    let d2 := packPair parentHandle winType.toInt32
    (handle, ({ s with table := s.table.register i c }.setData i win).notify
      ⟨10, handle.toUInt32, c.pid.toUInt32, d2⟩)

/-- `wasm_window_destroy` -/
def windowDestroy (s : WindowServer) (c : Caller) (handle : Int32) : Int32 × WindowServer :=
  s.ifOwner c handle fun i =>
    { s with table := s.table.close fun j => j = i }.notify
      ⟨11, handle.toUInt32, (s.table.windows i).pid.toUInt32, 0⟩

/-- `wasm_window_set_title` -/
def windowSetTitle (s : WindowServer) (c : Caller) (mem : Option Guest) (handle : Int32)
    (titlePtr titleLen : UInt32) : Int32 × WindowServer :=
  s.ifOwner c handle fun i =>
    (s.setData i { s.data i with
      title := (readTitle mem titlePtr titleLen (s.data i).title).getD (s.data i).title }).notify
      ⟨13, handle.toUInt32, c.pid.toUInt32, 0⟩

/-- `wasm_window_set_size` -/
def windowSetSize (s : WindowServer) (c : Caller) (handle : Int32) (w h : UInt32) :
    Int32 × WindowServer :=
  s.ifOwner c handle fun i =>
    (s.setData i { s.data i with bufW := w, bufH := h, stride := w * 4 }).notify
      ⟨14, handle.toUInt32, c.pid.toUInt32, packPair w.toInt32 h.toInt32⟩

/-- `wasm_surface_attach` -/
def surfaceAttach (s : WindowServer) (c : Caller) (handle : Int32) (bufOffset w h stride : UInt32) :
    Int32 × WindowServer :=
  s.ifOwner c handle fun i =>
    { s with table := s.table.setRuntime i c }.setData i
      { s.data i with
        bufferOffset := bufOffset
        bufW := w
        bufH := h
        stride := if 0 < stride then stride else w * 4 }

/-- What `wasm_surface_commit` and `wasm_surface_commit_rect` do: there is no check of the owner. -/
def commit (s : WindowServer) (handle : Int32) (d1 d2 : UInt32) : Int32 × WindowServer :=
  match s.table.findByHandle handle with
  | none => (-2, s)
  | some _ => (0, s.notify ⟨wmEvWinCommitted, handle.toUInt32, d1, d2⟩)

/-- `wasm_surface_commit` -/
def surfaceCommit (s : WindowServer) (handle : Int32) : Int32 × WindowServer := s.commit handle 0 0

/-- `wasm_surface_commit_rect` -/
def surfaceCommitRect (s : WindowServer) (handle x y w h : Int32) : Int32 × WindowServer :=
  s.commit handle (packPair x y) (packPair w h)

/-- Where the next event of a poll goes -/
def eventOffset (bufOffset : UInt32) (k : ℕ) : ℕ := (bufOffset.toNat + k * sizeofClientEvent) % 2 ^ 32

/-- The turn of `wasm_winput_poll` for a window; `r` has the events that were copied before. -/
def pollWindow (c : Caller) (memSize : UInt32) (winFilter : Int32) (bufOffset : UInt32) (maxEvents : ℕ)
    (r : List ClientEvent × WindowServer) (i : Fin maxCompositorWindows) :
    List ClientEvent × WindowServer :=
  let w := r.2.table.windows i
  if ¬ w.active ∨ w.pid ≠ c.pid then r
  else if 0 < winFilter ∧ w.handle ≠ winFilter then r
  else
    let (evs, rest) := (r.2.data i).events.drain
      (fun k => eventOffset bufOffset k + sizeofClientEvent ≤ memSize.toNat)
      (maxEvents - r.1.length) r.1.length
    (r.1 ++ evs, r.2.setData i { r.2.data i with events := rest })

/-- The events that `wasm_winput_poll` copies, with the state that it leaves -/
def polled (s : WindowServer) (c : Caller) (mem : Option Guest) (winFilter : Int32) (bufOffset : UInt32)
    (maxEvents : Int32) : List ClientEvent × WindowServer :=
  match mem with
  | none => ([], s)
  | some g =>
    if maxEvents ≤ 0 then ([], s)
    else
      (List.finRange maxCompositorWindows).foldl
        (pollWindow c g.memSize winFilter bufOffset maxEvents.toInt.toNat) ([], s)

/-- `wasm_winput_poll` -/
def winputPoll (s : WindowServer) (c : Caller) (mem : Option Guest) (winFilter : Int32)
    (bufOffset : UInt32) (maxEvents : Int32) : Int32 × WindowServer :=
  let r := s.polled c mem winFilter bufOffset maxEvents
  (Int32.ofNat r.1.length, r.2)

/-- The memory of the caller after `wasm_winput_poll` -/
def pollBytes (s : WindowServer) (c : Caller) (mem : Option Guest) (winFilter : Int32) (bufOffset : UInt32)
    (maxEvents : Int32) : Option Bytes :=
  mem.map fun g => (s.polled c mem winFilter bufOffset maxEvents).1.zipIdx.foldl
    (fun b ev => putClientEvent b (eventOffset bufOffset ev.2) ev.1) g.bytes

/-! ## The other functions -/

/-- The slot of a program's window in `wasm_display_claim_buffer` and what is done to it: a program without a
window gets one of the size of the display, and one with a window has its buffer there. -/
def claimBuffer (s : WindowServer) (c : Caller) (d : Display) (offset : Option UInt32) :
    Int32 × WindowServer :=
  let (result, table) := s.table.claimBuffer c offset
  let t := { s with table := table }
  match offset with
  | none => (result, s)
  | some offset =>
    if s.table.compositorPid = -1 ∨ c.pid = s.table.compositorPid then (result, t)
    else
      match s.table.findByPid c.pid with
      | some i =>
        (result, (t.setData i { s.data i with bufferOffset := offset }).pushEvent
          ⟨wmEvWinCommitted, (s.table.windows i).handle.toUInt32, 0, 0⟩)
      | none =>
        match s.table.findFreeSlot with
        | none => (result, t)
        | some i =>
          let w := d.width.toUInt32
          (result, (t.setData i
            { parentHandle := 0
              winType := 0
              flags := 0
              bufferOffset := offset
              bufW := w
              bufH := d.height.toUInt32
              stride := w * 4
              events := (s.data i).events.clear
              title := strCopy (s.data i).title "App Window" }).pushEvent
            ⟨10, (s.table.makeWindowHandle i).2.toUInt32, c.pid.toUInt32, 0⟩)

/-- The first half of `wasm_display_present` and `wasm_display_present_rect`: a program that is not the
compositor tells it of its window. -/
def present (s : WindowServer) (c : Caller) (d1 d2 : UInt32) : WindowServer :=
  if s.table.compositorPid ≠ -1 ∧ c.pid ≠ s.table.compositorPid then
    let handle := ((s.table.findByPid c.pid).map fun i => (s.table.windows i).handle).getD c.pid
    s.pushEvent ⟨wmEvWinCommitted, handle.toUInt32, d1, d2⟩
  else s

/-- `wasm_wm_route_input` -/
def routeInput (s : WindowServer) (c : Caller) (winHandle : Int32) (eventType flags data0 data1 : UInt32) :
    Int32 × WindowServer :=
  if c.pid ≠ s.table.compositorPid then (-1, s)
  else
    match s.table.findByHandle winHandle with
    | none => (-2, s)
    | some i =>
      if (s.data i).events.Full then (-3, s)
      else
        let ev : ClientEvent := ⟨eventType.toUInt16, flags.toUInt16, winHandle, data0, data1⟩
        (0, s.setData i { s.data i with events := (s.data i).events.push ev })

/-- The loop of `poll_events_internal`: an event is left in the queue if it does not fit into the memory. -/
def pollEvents (s : WindowServer) (c : Caller) (mem : Option Guest) (bufOffset : UInt32)
    (maxEvents : Int32) : List CompositorEvent × WindowServer :=
  if c.pid ≠ s.table.compositorPid then ([], s)
  else
    match mem with
    | none => ([], s)
    | some g =>
      let (evs, rest) := s.events.drain
        (fun k => eventOffset bufOffset k ≤ g.memSize.toNat ∧ 16 ≤ g.memSize.toNat - eventOffset bufOffset k)
        maxEvents.toUInt32.toNat 0
      (evs, { s with events := rest })

/-- `compositor_child_cleanup` -/
def childCleanup (s : WindowServer) (pid : Int32) : WindowServer :=
  let windows := (List.finRange maxCompositorWindows).filter fun i =>
    (s.table.windows i).active && (s.table.windows i).pid = pid
  let t : WindowServer :=
    { s with
      table := s.table.childCleanup pid
      events := if pid = s.table.compositorPid then s.events.skip else s.events }
  if t.table.compositorPid ≠ -1 ∧ pid ≠ t.table.compositorPid then
    windows.foldl
      (fun t i => t.pushEvent ⟨11, (s.table.windows i).handle.toUInt32, pid.toUInt32, 0⟩) t
  else t

end WindowServer

/-- A call of a function of every program. -/
inductive ClientCall
  | create (parentHandle : Int32) (winType titlePtr titleLen w h flags : UInt32)
  | destroy (handle : Int32)
  | setTitle (handle : Int32) (titlePtr titleLen : UInt32)
  | setSize (handle : Int32) (w h : UInt32)
  | attach (handle : Int32) (bufOffset w h stride : UInt32)
  | commit (handle : Int32)
  | commitRect (handle x y w h : Int32)
  | poll (winFilter : Int32) (bufOffset : UInt32) (maxEvents : Int32)
deriving DecidableEq, Repr

/-- What may be done to the server. -/
inductive ServerOp
  | call (c : Caller) (mem : Option Guest) (call : ClientCall)
  | claimCompositor (c : Caller)
  | claimBuffer (c : Caller) (d : Display) (offset : Option UInt32)
  | present (c : Caller) (d1 d2 : UInt32)
  | routeInput (c : Caller) (winHandle : Int32) (eventType flags data0 data1 : UInt32)
  | pollEvents (c : Caller) (mem : Option Guest) (bufOffset : UInt32) (maxEvents : Int32)
  /-- A key or a mouse event comes in. -/
  | input (ev : CompositorEvent)
  | exit (pid : Int32)

namespace WindowServer

/-- A call of a process, with its memory -/
def call (s : WindowServer) (c : Caller) (mem : Option Guest) : ClientCall → Int32 × WindowServer
  | .create parentHandle winType titlePtr titleLen w h flags =>
    s.windowCreate c mem parentHandle winType titlePtr titleLen w h flags
  | .destroy handle => s.windowDestroy c handle
  | .setTitle handle titlePtr titleLen => s.windowSetTitle c mem handle titlePtr titleLen
  | .setSize handle w h => s.windowSetSize c handle w h
  | .attach handle bufOffset w h stride => s.surfaceAttach c handle bufOffset w h stride
  | .commit handle => s.surfaceCommit handle
  | .commitRect handle x y w h => s.surfaceCommitRect handle x y w h
  | .poll winFilter bufOffset maxEvents => s.winputPoll c mem winFilter bufOffset maxEvents

/-- The server after something was done -/
def step (s : WindowServer) : ServerOp → WindowServer
  | .call c mem call => (s.call c mem call).2
  | .claimCompositor c => { s with table := (s.table.claimCompositor c).2 }
  | .claimBuffer c d offset => (s.claimBuffer c d offset).2
  | .present c d1 d2 => s.present c d1 d2
  | .routeInput c winHandle eventType flags data0 data1 =>
    (s.routeInput c winHandle eventType flags data0 data1).2
  | .pollEvents c mem bufOffset maxEvents => (s.pollEvents c mem bufOffset maxEvents).2
  | .input ev => s.pushEvent ev
  | .exit pid => s.childCleanup pid

/-- What an operation does to the window table -/
def tableOps : ServerOp → List WindowOp
  | .call c _ (.create ..) => [.create c]
  | .call c _ (.destroy handle) => [.destroy c handle]
  | .call c _ (.attach handle ..) => [.attach c handle]
  | .claimCompositor c => [.claimCompositor c]
  | .claimBuffer c _ offset => [.claimBuffer c offset]
  | .exit pid => [.exit pid]
  | _ => []

end WindowServer

end Sandflea
