import Sandflea.Wasm.Memory

/-!
# Presenting and blitting

The functions of `kern_compositor.c` that copy pixels: `present` and `presentRect` from the linear memory
of the caller to the framebuffer, `copyBuffer` within it, and `blitSurface` and `blitFromPid` from the
memory behind a window to that of the compositor. A call is described by its result, the event that it
pushes, and the copies that it makes, each with the places that it is from and to.
-/

namespace Sandflea

/-- The display: the sizes of its surface are `u64`. -/
structure Display where
  width : UInt64
  height : UInt64
  pitch : UInt64
  /-- `trueAddress` is not null. -/
  mapped : Bool
deriving DecidableEq, Repr

/-- A place that bytes are copied from or to. -/
inductive Place
  | memory (g : Guest)
  | framebuffer (d : Display)

/-- The size of a place: a framebuffer has `height` rows of `pitch` bytes. -/
def Place.size : Place → ℕ
  | .memory g => g.memSize.toNat
  | .framebuffer d => d.pitch.toNat * d.height.toNat

/-- A copy of `len` bytes. -/
structure Copy where
  source : Place
  dest : Place
  src : ℕ
  dst : ℕ
  len : ℕ

/-- A copy reads and writes only the places that it is from and to. -/
def Copy.InBounds (c : Copy) : Prop :=
  Span.Within c.source.size ⟨c.src, c.len⟩ ∧ Span.Within c.dest.size ⟨c.dst, c.len⟩

/-- An event in the queue of the compositor. -/
structure CompositorEvent where
  type : UInt8
  d0 : UInt32
  d1 : UInt32
  d2 : UInt32
deriving DecidableEq, Repr

/-- What a call did. -/
structure BlitRun where
  /-- `none` for a division by zero -/
  result : Option ℤ
  pushed : Option CompositorEvent
  copies : List Copy

/-- A call that copies nothing. -/
def BlitRun.returns (result : ℤ) : BlitRun := ⟨some result, none, []⟩

/-- A call that copied. -/
def BlitRun.copied (copies : List Copy) : BlitRun := ⟨some 0, none, copies⟩

/-- `MAX_COMPOSITOR_WINDOWS` -/
def maxCompositorWindows : ℕ := 128

/-- `WM_EV_WIN_COMMITTED` -/
def wmEvWinCommitted : UInt8 := 12

/-- A window, as the blits see it: `runtime` is null or has a memory, which may be null. -/
structure KernWindow where
  active : Bool
  handle : Int32
  pid : Int32
  bufferOffset : UInt32
  bufW : UInt32
  bufH : UInt32
  stride : UInt32
  runtime : Option (Option Guest)

/-- The state of the compositor. -/
structure Compositor where
  /-- `g_compositor_pid`, -1 where there is none -/
  pid : Int32
  sessionId : UInt32
  runtime : Option (Option Guest)
  bufferOffset : UInt32
  windows : Fin maxCompositorWindows → KernWindow
  /-- The id of `active_session`, if that is not null. -/
  activeSession : Option UInt32
  /-- `screen_current_display` -/
  display : Option Display

namespace Compositor

/-- `compositor_is_active` -/
def isActive (s : Compositor) : Bool :=
  if s.pid = -1 then false
  else
    match s.activeSession with
    | none => true
    | some id => id = s.sessionId

/-- `compositor_find_window_by_pid` -/
def findWindowByPid (s : Compositor) (pid : Int32) : Option KernWindow :=
  ((List.finRange maxCompositorWindows).map s.windows).find? fun w => w.active && w.pid = pid

/-- `compositor_find_window_by_handle` -/
def findWindowByHandle (s : Compositor) (handle : Int32) : Option KernWindow :=
  if handle ≤ 0 then none
  else
    let idx := handle.toUInt32.toNat % 65536
    if h : idx < maxCompositorWindows then
      let w := s.windows ⟨idx, h⟩
      if w.active && w.handle = handle then some w else none
    else none

/-! ## To the framebuffer -/

/-- The first half of `wasm_display_present` and `wasm_display_present_rect`: a process that is not the
compositor only tells it of its window, and a compositor in the background does nothing. -/
def toHardware (s : Compositor) (proc : Option Int32) (mem : Option Guest) (d1 d2 : UInt32) :
    Except BlitRun (Display × Guest) :=
  match proc with
  | none => .error (.returns (-1))
  | some pid =>
    if s.pid ≠ -1 ∧ pid ≠ s.pid then
      let handle := ((s.findWindowByPid pid).map KernWindow.handle).getD pid
      .error ⟨some 0, some ⟨wmEvWinCommitted, handle.toUInt32, d1, d2⟩, []⟩
    else if s.pid ≠ -1 ∧ pid = s.pid ∧ ¬ s.isActive then .error (.returns 0)
    else
      match s.display with
      | none => .error (.returns (-2))
      | some d =>
        if ¬ d.mapped then .error (.returns (-2))
        else
          match mem with
          | none => .error (.returns (-3))
          | some g => .ok (d, g)

/-- A row of a present: it is left out if it is seen to end outside the memory. -/
def presentRow (d : Display) (g : Guest) (offset srcOff dstOff rowBytes : UInt32) : Option Copy :=
  if offset + srcOff + rowBytes ≤ g.memSize then
    some ⟨.memory g, .framebuffer d, offset.toNat + srcOff.toNat, dstOff.toNat, rowBytes.toNat⟩
  else none

/-- `wasm_display_present` -/
def wasmDisplayPresent (s : Compositor) (proc : Option Int32) (mem : Option Guest)
    (offset : UInt32) : BlitRun :=
  match s.toHardware proc mem (proc.getD 0).toUInt32 0 with
  | .error r => r
  | .ok (d, g) =>
    let screenW := d.width.toUInt32
    let screenH := d.height.toUInt32
    let pitch := d.pitch.toUInt32
    let rowBytes := screenW * 4
    if pitch = rowBytes then
      let screenBytes := pitch * screenH
      if g.memSize < offset ∨ g.memSize - offset < screenBytes then .returns (-4)
      else .copied [⟨.memory g, .framebuffer d, offset.toNat, 0, screenBytes.toNat⟩]
    else
      .copied ((List.range screenH.toNat).filterMap fun r =>
        presentRow d g offset (UInt32.ofNat r * rowBytes) (UInt32.ofNat r * pitch) rowBytes)

/-- The dirty rectangle of `wasm_display_present_rect`, clipped to the screen: `int` arithmetic. -/
def clipRect (screenW screenH : UInt32) (x y w h : Int32) : Int32 × Int32 × Int32 × Int32 :=
  let (w, x) := if x < 0 then (w + x, 0) else (w, x)
  let (h, y) := if y < 0 then (h + y, 0) else (h, y)
  let w := if screenW.toInt32 < x + w then screenW.toInt32 - x else w
  let h := if screenH.toInt32 < y + h then screenH.toInt32 - y else h
  (x, y, w, h)

/-- The offsets in the memory and in the framebuffer of a row of a clipped rectangle -/
def rectRow (d : Display) (x y : Int32) (r : ℕ) : UInt32 × UInt32 :=
  let rowY := (y + Int32.ofNat r).toUInt32
  (rowY * (d.width.toUInt32 * 4) + x.toUInt32 * 4, rowY * d.pitch.toUInt32 + x.toUInt32 * 4)

/-- Two numbers of 16 bits in one word of an event -/
def packPair (a b : Int32) : UInt32 := (a &&& 0xFFFF).toUInt32 <<< 16 ||| (b &&& 0xFFFF).toUInt32

/-- `wasm_display_present_rect` -/
def wasmDisplayPresentRect (s : Compositor) (proc : Option Int32) (mem : Option Guest)
    (offset : UInt32) (x y w h : Int32) : BlitRun :=
  match s.toHardware proc mem (packPair x y) (packPair w h) with
  | .error r => r
  | .ok (d, g) =>
    let (x, y, w, h) := clipRect d.width.toUInt32 d.height.toUInt32 x y w h
    if w ≤ 0 ∨ h ≤ 0 then .returns 0
    else
      .copied ((List.range h.toInt.toNat).filterMap fun r =>
        presentRow d g offset (rectRow d x y r).1 (rectRow d x y r).2 (w.toUInt32 * 4))

/-! ## Within memories -/

/-- The bytes of the screen as `wasm_display_copy_buffer` counts them -/
def totalBytes (d : Display) : UInt32 := (d.width * d.height * 4).toUInt32

/-- `wasm_display_copy_buffer` -/
def wasmDisplayCopyBuffer (s : Compositor) (mem : Option Guest) (dstOffset srcOffset : UInt32) :
    BlitRun :=
  match s.display, mem with
  | none, _ | _, none => .returns (-1)
  | some d, some g =>
    if g.memSize < dstOffset + totalBytes d ∨ g.memSize < srcOffset + totalBytes d then .returns (-1)
    else .copied [⟨.memory g, .memory g, srcOffset.toNat, dstOffset.toNat, (totalBytes d).toNat⟩]

/-- What a blit is between: a window with its memory, the memory of the compositor, the display. -/
structure BlitEnds where
  child : KernWindow
  src : Guest
  dst : Guest
  disp : Display

/-- The checks that both blits make from the runtimes on -/
def blitEnds (s : Compositor) (child : KernWindow) (compositorRt : Option (Option Guest)) :
    Except ℤ BlitEnds :=
  match child.runtime with
  | none => .error (-3)
  | some srcMem =>
    match compositorRt with
    | none => .error (-4)
    | some none => .error (-5)
    | some (some dst) =>
      match s.display with
      | none => .error (-5)
      | some disp =>
        match srcMem with
        | none => .error (-6)
        | some src => .ok ⟨child, src, dst, disp⟩

/-- The arguments of a blit. -/
structure BlitArgs where
  srcX : Int32
  srcY : Int32
  dstX : Int32
  dstY : Int32
  w : Int32
  h : Int32
deriving DecidableEq, Repr

/-- Clip the arguments to the source: `int` arithmetic. -/
def clipSource (child : KernWindow) (a : BlitArgs) : BlitArgs :=
  let srcX := if a.srcX < 0 then 0 else a.srcX
  let srcY := if a.srcY < 0 then 0 else a.srcY
  { a with
    srcX := srcX
    srcY := srcY
    w := if child.bufW.toInt32 < srcX + a.w then child.bufW.toInt32 - srcX else a.w
    h := if child.bufH.toInt32 < srcY + a.h then child.bufH.toInt32 - srcY else a.h }

/-- Clip the arguments to the destination, `maxX` pixels in each of `maxY` rows. -/
def clipDest (maxX maxY : UInt32) (a : BlitArgs) : BlitArgs :=
  let dstX := if a.dstX < 0 then 0 else a.dstX
  let dstY := if a.dstY < 0 then 0 else a.dstY
  { a with
    dstX := dstX
    dstY := dstY
    w := if maxX < (dstX + a.w).toUInt32 then maxX.toInt32 - dstX else a.w
    h := if maxY < (dstY + a.h).toUInt32 then maxY.toInt32 - dstY else a.h }

/-- A row of a blit: it is left out if it ends outside either memory. -/
def blitRow (e : BlitEnds) (srcRowOff dstRowOff rowBytes : UInt32) : Option Copy :=
  if srcRowOff ≤ e.src.memSize ∧ rowBytes ≤ e.src.memSize - srcRowOff ∧
      dstRowOff ≤ e.dst.memSize ∧ rowBytes ≤ e.dst.memSize - dstRowOff then
    some ⟨.memory e.src, .memory e.dst, srcRowOff.toNat, dstRowOff.toNat, rowBytes.toNat⟩
  else none

/-- The second half of both blits -/
def blit (e : BlitEnds) (compositorOffset : UInt32) (a : BlitArgs) : BlitRun :=
  let dstStride := e.disp.pitch.toUInt32
  let srcStride := if e.child.stride = 0 then e.child.bufW * 4 else e.child.stride
  let a := clipSource e.child a
  if a.w ≤ 0 ∨ a.h ≤ 0 then .returns 0
  else if dstStride = 0 then ⟨none, none, []⟩
  else
    let a := clipDest (dstStride / 4) ((e.dst.memSize - compositorOffset) / dstStride) a
    if a.w ≤ 0 ∨ a.h ≤ 0 then .returns 0
    else
      .copied ((List.range a.h.toInt.toNat).filterMap fun y =>
        blitRow e
          (e.child.bufferOffset + (a.srcY + Int32.ofNat y).toUInt32 * srcStride + a.srcX.toUInt32 * 4)
          (compositorOffset + (a.dstY + Int32.ofNat y).toUInt32 * dstStride + a.dstX.toUInt32 * 4)
          (a.w.toUInt32 * 4))

/-- The ends of `wasm_wm_blit_surface`: the runtime of the caller stands in for the compositor's. -/
def surfaceEnds (s : Compositor) (proc : Option Int32) (mem : Option Guest) (winHandle : Int32)
    (a : BlitArgs) : Except ℤ BlitEnds :=
  if proc ≠ some s.pid then .error (-1)
  else if a.w ≤ 0 ∨ a.h ≤ 0 then .error 0
  else
    match s.findWindowByHandle winHandle with
    | none => .error (-2)
    | some child => s.blitEnds child (s.runtime <|> some mem)

/-- `wasm_wm_blit_surface` -/
def wasmWmBlitSurface (s : Compositor) (proc : Option Int32) (mem : Option Guest) (winHandle : Int32)
    (a : BlitArgs) : BlitRun :=
  match s.surfaceEnds proc mem winHandle a with
  | .error res => .returns res
  | .ok e => blit e s.bufferOffset a

/-- The ends of `wasm_display_blit_from_pid`: a compositor without a buffer counts as none. -/
def pidEnds (s : Compositor) (proc : Option Int32) (pid : Int32) (a : BlitArgs) :
    Except ℤ BlitEnds :=
  if proc ≠ some s.pid then .error (-1)
  else if a.w ≤ 0 ∨ a.h ≤ 0 then .error 0
  else
    match s.findWindowByPid pid with
    | none => .error (-2)
    | some child => s.blitEnds child (if s.bufferOffset = 0 then none else s.runtime)

/-- `wasm_display_blit_from_pid` -/
def wasmDisplayBlitFromPid (s : Compositor) (proc : Option Int32) (pid : Int32) (a : BlitArgs) :
    BlitRun :=
  match s.pidEnds proc pid a with
  | .error res => .returns res
  | .ok e => blit e s.bufferOffset a

end Compositor

end Sandflea
