import Sandflea.Compositor.Blit

/-!
# The window table

The table of windows of `kern_compositor.c`, with the fields of a window that say whose it is, and the host
calls that change it. Windows are numbered as they are created, so that a slot that is used again can be
told from what it held before; the table remembers the handle that each was given and which of them were
destroyed.
-/

namespace Sandflea

/-- The process that makes a host call, with its runtime. -/
structure Caller where
  pid : Int32
  runtime : ℕ
deriving DecidableEq, Repr

/-- A slot of the table. -/
structure WindowSlot where
  active : Bool
  handle : Int32
  pid : Int32
  runtime : Option ℕ
  /-- Which window was put into the slot last. -/
  serial : ℕ
deriving DecidableEq, Repr

/-- The state that the host calls share. -/
structure WindowTable where
  /-- `g_compositor_pid`, -1 where there is none -/
  compositorPid : Int32
  compositorRuntime : Option ℕ
  compositorBufferOffset : UInt32
  windows : Fin maxCompositorWindows → WindowSlot
  /-- `g_window_generation` -/
  generation : UInt16
  /-- The handles of the windows that were created. -/
  created : List Int32
  /-- The windows that were destroyed. -/
  destroyed : List ℕ

namespace WindowTable

/-- `compositor_init` -/
def init : WindowTable where
  compositorPid := -1
  compositorRuntime := none
  compositorBufferOffset := 0
  windows _ := ⟨false, 0, 0, none, 0⟩
  generation := 1
  created := []
  destroyed := []

/-! ## Handles -/

/-- The generation after one: it wraps past 0. -/
def nextGeneration (g : UInt16) : UInt16 := if g + 1 = 0 then 1 else g + 1

/-- A generation and an index, in one word that is read as signed. -/
def packHandle (g : UInt16) (index : ℕ) : Int32 :=
  (g.toUInt32 <<< 16 ||| (UInt32.ofNat index &&& 0xFFFF)).toInt32

/-- The index in a handle -/
def handleIndex (handle : Int32) : ℕ := handle.toUInt32.toNat % 65536

/-- `make_window_handle`: the generation that it leaves and the handle. -/
def makeWindowHandle (s : WindowTable) (index : ℕ) : UInt16 × Int32 :=
  (nextGeneration s.generation, packHandle (nextGeneration s.generation) index)

/-- `compositor_find_window_by_handle` -/
def findByHandle (s : WindowTable) (handle : Int32) : Option (Fin maxCompositorWindows) :=
  if handle ≤ 0 then none
  else if h : handleIndex handle < maxCompositorWindows then
    let w := s.windows ⟨handleIndex handle, h⟩
    if w.active && w.handle = handle then some ⟨handleIndex handle, h⟩ else none
  else none

/-- `compositor_find_free_window_slot` -/
def findFreeSlot (s : WindowTable) : Option (Fin maxCompositorWindows) :=
  (List.finRange maxCompositorWindows).find? fun i => !(s.windows i).active

/-- `compositor_find_window_by_pid` -/
def findByPid (s : WindowTable) (pid : Int32) : Option (Fin maxCompositorWindows) :=
  (List.finRange maxCompositorWindows).find? fun i =>
    (s.windows i).active && (s.windows i).pid = pid

/-- Which window a handle resolves to -/
def resolve (s : WindowTable) (handle : Int32) : Option ℕ :=
  (s.findByHandle handle).map fun i => (s.windows i).serial

/-! ## Changes -/

/-- Put a new window of a process into a slot. -/
def register (s : WindowTable) (i : Fin maxCompositorWindows) (c : Caller) : WindowTable :=
  let (generation, handle) := s.makeWindowHandle i
  { s with
    generation := generation
    windows := Function.update s.windows i ⟨true, handle, c.pid, some c.runtime, s.created.length⟩
    created := s.created ++ [handle] }

/-- Record the runtime of a caller for a window. -/
def setRuntime (s : WindowTable) (i : Fin maxCompositorWindows) (c : Caller) : WindowTable :=
  { s with
    windows := Function.update s.windows i { s.windows i with runtime := some c.runtime } }

/-- Make the windows inactive that are in some slots. -/
def close (s : WindowTable) (p : Fin maxCompositorWindows → Bool) : WindowTable :=
  { s with
    windows := fun i =>
      if (s.windows i).active && p i then { s.windows i with active := false } else s.windows i
    destroyed := s.destroyed ++
      ((List.finRange maxCompositorWindows).filter fun i => (s.windows i).active && p i).map
        fun i => (s.windows i).serial }

/-! ## Host calls -/

/-- `wasm_display_claim_compositor` -/
def claimCompositor (s : WindowTable) (c : Caller) : Int32 × WindowTable :=
  if s.compositorPid ≠ -1 ∧ s.compositorPid ≠ c.pid then (-1, s)
  else (0, { s with compositorPid := c.pid, compositorRuntime := some c.runtime })

/-- `wasm_window_create` -/
def windowCreate (s : WindowTable) (c : Caller) : Int32 × WindowTable :=
  match s.findFreeSlot with
  | none => (-2, s)
  | some i => ((s.makeWindowHandle i).2, s.register i c)

/-- The slot that `wasm_display_claim_buffer` puts a window into: a process without one gets one, if there
is a compositor. -/
def claimedSlot (s : WindowTable) (c : Caller) : Option (Fin maxCompositorWindows) :=
  if s.compositorPid = -1 ∨ c.pid = s.compositorPid ∨ (s.findByPid c.pid).isSome then none
  else s.findFreeSlot

/-- `wasm_display_claim_buffer`. There is no offset where the display is missing or the memory could not
be resized. -/
def claimBuffer (s : WindowTable) (c : Caller) (offset : Option UInt32) : Int32 × WindowTable :=
  match offset with
  | none => (-1, s)
  | some offset =>
    (offset.toInt32,
      if s.compositorPid = -1 then s
      else if c.pid = s.compositorPid then { s with compositorBufferOffset := offset }
      else
        match s.findByPid c.pid with
        | some i => s.setRuntime i c
        | none =>
          match s.claimedSlot c with
          | some i => s.register i c
          | none => s)

/-- `wasm_window_destroy` -/
def windowDestroy (s : WindowTable) (c : Caller) (handle : Int32) : Int32 × WindowTable :=
  match s.findByHandle handle with
  | none => (-2, s)
  | some i =>
    if (s.windows i).pid ≠ c.pid ∧ c.pid ≠ s.compositorPid then (-3, s)
    else (0, s.close fun j => j = i)

/-- `wasm_surface_attach` -/
def surfaceAttach (s : WindowTable) (c : Caller) (handle : Int32) : Int32 × WindowTable :=
  match s.findByHandle handle with
  | none => (-2, s)
  | some i =>
    if (s.windows i).pid ≠ c.pid ∧ c.pid ≠ s.compositorPid then (-3, s) else (0, s.setRuntime i c)

/-- `wasm_surface_commit`: the table stays as it is. -/
def surfaceCommit (s : WindowTable) (handle : Int32) : Int32 :=
  if (s.findByHandle handle).isSome then 0 else -2

/-- `compositor_child_cleanup` -/
def childCleanup (s : WindowTable) (pid : Int32) : WindowTable :=
  let s :=
    if pid = s.compositorPid then
      { s with compositorPid := -1, compositorRuntime := none, compositorBufferOffset := 0 }
    else s
  s.close fun i => (s.windows i).pid = pid

end WindowTable

/-- What may be done to the table. -/
inductive WindowOp
  | claimCompositor (c : Caller)
  | create (c : Caller)
  | claimBuffer (c : Caller) (offset : Option UInt32)
  | destroy (c : Caller) (handle : Int32)
  | attach (c : Caller) (handle : Int32)
  | commit (handle : Int32)
  /-- A process exits. -/
  | exit (pid : Int32)
deriving DecidableEq, Repr

namespace WindowTable

/-- The table after an operation -/
def step (s : WindowTable) : WindowOp → WindowTable
  | .claimCompositor c => (s.claimCompositor c).2
  | .create c => (s.windowCreate c).2
  | .claimBuffer c offset => (s.claimBuffer c offset).2
  | .destroy c handle => (s.windowDestroy c handle).2
  | .attach c handle => (s.surfaceAttach c handle).2
  | .commit _ => s
  | .exit pid => s.childCleanup pid

/-- The slot that an operation puts a new window into, and the process that it is for -/
def newWindow (s : WindowTable) : WindowOp → Option (Fin maxCompositorWindows × Caller)
  | .create c => s.findFreeSlot.map (·, c)
  | .claimBuffer c (some _) => (s.claimedSlot c).map (·, c)
  | _ => none

end WindowTable

end Sandflea
