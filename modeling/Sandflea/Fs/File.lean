import Sandflea.Ext2.Path

/-!
# File handles

The calls of `kern_fs.c` on file handles: `fs_open`, `fs_close`, `fs_seek`, `fs_read`, `fs_write`. A
handle holds a copy of the inode that it was opened on and does not say on which drive; the calls go to
the active drive.

Counters and positions are 32-bit. A call returns the 32-bit number that its counter holds as a signed
one (`toI32`).
-/

namespace Sandflea

open Bytes Kern

/-- The `i32` with the bits of a `u32`. -/
def toI32 (v : ℕ) : ℤ := if v < 2 ^ 31 then v else (v : ℤ) - 2 ^ 32

/-- `allocate_fd`: the first free descriptor of a list. -/
def firstFreeFd : List ℕ → Kern (Option ℕ)
  | [] => pure none
  | i :: is => do
    match ← fd i with
    | none => pure (some i)
    | some _ => firstFreeFd is

/-- `allocate_fd` -/
def allocateFd : Kern (Option ℕ) := firstFreeFd (List.range' 3 (maxFileHandles - 3))

/-- `sizeof(file_handle_t)` -/
def fileHandleBytes : ℕ := 140

/-- `fs_open` -/
def fsOpen (path : Str) : Kern ℤ := do
  match ← ext2FindPath path with
  | none => pure (-1)
  | some (inodeNo, inode) => do
    match ← allocateFd with
    | none => pure (-1)
    | some i => do
      let mem ← kmalloc fileHandleBytes
      if mem then do
        setFd i (some { inodeNo, inode, pos := 0 })
        pure i
      else fault

/-- The handle that a call gets: the descriptor is in range and open. -/
def openHandle (i : ℤ) : Kern (Option FileHandle) :=
  if i < 0 ∨ (maxFileHandles : ℤ) ≤ i then pure none else fd i.toNat

/-- `fs_close` -/
def fsClose (i : ℤ) : Kern ℤ := do
  match ← openHandle i with
  | none => pure (-1)
  | some _ => do
    setFd i.toNat none
    pure 0

/-- `seek_type_t`; the parameter of `fs_seek` can have other values. -/
inductive SeekType
  | set
  | cur
  | stop
  | other (whence : ℤ)
deriving DecidableEq, Repr

/-- What the offset of a seek is added to. -/
def FileHandle.seekBase (h : FileHandle) : SeekType → Option ℕ
  | .set => some 0
  | .cur => some h.pos
  | .stop => some h.inode.size
  | .other _ => none

/-- `fs_seek` -/
def fsSeek (i offset : ℤ) (whence : SeekType) : Kern ℤ := do
  match ← openHandle i with
  | none => pure (-1)
  | some h =>
    match h.seekBase whence with
    | none => pure (-1)
    | some base => do
      let newPos := ((base + offset) % 2 ^ 32).toNat
      let newPos := min newPos h.inode.size
      setFd i.toNat (some { h with pos := newPos })
      pure (toI32 newPos)

/-! ## Writing -/

/-- The loop of `fs_write`: the bytes written so far and the handle, after at most `fuel` turns. -/
def writeLoop (blockSize : ℕ) (data : Bytes) (size : ℕ) :
    ℕ → ℕ → FileHandle → Kern (ℕ × FileHandle)
  | 0, written, h => pure (written, h)
  | fuel + 1, written, h =>
    if written < size then do
      let logicalBlock := h.pos / blockSize
      let offsetInBlock := h.pos % blockSize
      let toWrite := min (blockSize - offsetInBlock) (size - written)
      let phys ← ext2GetBmap h.inode logicalBlock
      if phys = 0 then do
        let phys ← ext2AllocBlock
        if phys = 0 then pure (written, h)
        else do
          let inode ← ext2SetBmap h.inode logicalBlock phys
          ext2WriteBlock phys (copyInto zeros offsetInBlock data written toWrite)
          let pos := (h.pos + toWrite) % 2 ^ 32
          let inode := if inode.size < pos then inode.setSize pos else inode
          writeLoop blockSize data size fuel (written + toWrite) { h with inode, pos }
      else do
        let tempBlock ← ext2ReadBlock phys
        ext2WriteBlock phys (copyInto tempBlock offsetInBlock data written toWrite)
        let pos := (h.pos + toWrite) % 2 ^ 32
        let inode := if h.inode.size < pos then h.inode.setSize pos else h.inode
        writeLoop blockSize data size fuel (written + toWrite) { h with inode, pos }
    else pure (written, h)

/-- `fs_write` of less than 2^32 bytes. Every turn of its loop writes a byte or is the last. -/
def fsWrite (i : ℤ) (data : Bytes) (size : ℕ) : Kern ℤ := do
  match ← openHandle i with
  | none => pure (-1)
  | some h => do
    let sb ← superblock
    let mem ← kmalloc sb.blockSize
    if mem then do
      let (written, h) ← writeLoop sb.blockSize data size size 0 h
      setFd i.toNat (some h)
      ext2WriteInode h.inodeNo h.inode
      pure (toI32 written)
    else pure (-1)

/-! ## Reading -/

/-- `FS_BATCH_BLOCKS` -/
def fsBatchBlocks : ℕ := 64

/-- The state of a read: the buffer, the bytes read, and the position. -/
structure ReadState where
  /-- `buf` -/
  buf : Bytes
  /-- `bytes_read` -/
  bytesRead : ℕ
  /-- `h->pos` -/
  pos : ℕ

/-- The fallback loop of `fs_read`, one block at a time, for at most `fuel` turns. -/
def readSingle (inode : Inode) (blockSize count : ℕ) : ℕ → ReadState → Kern ReadState
  | 0, s => pure s
  | fuel + 1, s =>
    if s.bytesRead < count then do
      let phys ← ext2GetBmap inode (s.pos / blockSize)
      if phys = 0 then
        pure { s with buf := zeroFill s.buf s.bytesRead (count - s.bytesRead) }
      else do
        let tempBlock ← ext2ReadBlock phys
        let toCopy := min blockSize (count - s.bytesRead)
        readSingle inode blockSize count fuel
          { buf := copyInto s.buf s.bytesRead tempBlock 0 toCopy
            bytesRead := s.bytesRead + toCopy
            pos := (s.pos + toCopy) % 2 ^ 32 }
    else pure s

/-- `run_blocks`: one more than the number of blocks `r = r₀, r₀ + 1, ..` of the list that follow the
first physically. -/
def runBlocks (inode : Inode) (logicalBlock phys : ℕ) : List ℕ → ℕ → Kern ℕ
  | [], run => pure run
  | r :: rs, run => do
    let nextPhys ← ext2GetBmap inode ((logicalBlock + r) % 2 ^ 32)
    if nextPhys ≠ (phys + r) % 2 ^ 32 then pure run
    else runBlocks inode logicalBlock phys rs (run + 1)

/-- The batch loop of `fs_read`, one run of contiguous blocks at a time, for at most `fuel` turns. -/
def readBatch (inode : Inode) (blockSize count : ℕ) : ℕ → ReadState → Kern ReadState
  | 0, s => pure s
  | fuel + 1, s =>
    if s.bytesRead < count then do
      let logicalBlock := s.pos / blockSize
      let phys ← ext2GetBmap inode logicalBlock
      if phys = 0 then
        pure { s with buf := zeroFill s.buf s.bytesRead (count - s.bytesRead) }
      else do
        let maxRun := min ((count - s.bytesRead) / blockSize) fsBatchBlocks
        let run ← runBlocks inode logicalBlock phys (List.range' 1 (maxRun - 1)) 1
        let runBytes := min (run * blockSize) (count - s.bytesRead)
        let src ← if run = 1 then ext2ReadBlock phys else ext2ReadBlocks phys run
        readBatch inode blockSize count fuel
          { buf := copyInto s.buf s.bytesRead src 0 runBytes
            bytesRead := s.bytesRead + runBytes
            pos := (s.pos + runBytes) % 2 ^ 32 }
    else pure s

/-- The first phase of `fs_read`, when the position is not at the start of a block: the state to go on
with, or the result of the call. -/
def readHead (inode : Inode) (blockSize count : ℕ) (s : ReadState) :
    Kern (ReadState × Option ℕ) :=
  let offsetInBlock := s.pos % blockSize
  if offsetInBlock = 0 then pure (s, none)
  else do
    let phys ← ext2GetBmap inode (s.pos / blockSize)
    if phys = 0 then
      pure ({ s with buf := zeroFill s.buf 0 count, pos := (s.pos + count) % 2 ^ 32 }, some count)
    else do
      let tempBlock ← ext2ReadBlock phys
      let toCopy := min (blockSize - offsetInBlock) count
      pure ({ buf := copyInto s.buf 0 tempBlock offsetInBlock toCopy
              bytesRead := toCopy
              pos := (s.pos + toCopy) % 2 ^ 32 }, none)

/-- `fs_read` into a buffer that held `buf`: the result and the buffer. -/
def fsRead (i : ℤ) (buf : Bytes) (count : ℕ) : Kern (ℤ × Bytes) := do
  match ← openHandle i with
  | none => pure (-1, buf)
  | some h =>
    if h.inode.size ≤ h.pos then pure (0, buf)
    else do
      let count := if h.inode.size < (h.pos + count) % 2 ^ 32 then h.inode.size - h.pos else count
      let sb ← superblock
      let mem ← kmalloc sb.blockSize
      if mem then do
        let (s, result) ← readHead h.inode sb.blockSize count { buf, bytesRead := 0, pos := h.pos }
        match result with
        | some n => do
          setFd i.toNat (some { h with pos := s.pos })
          pure (toI32 n, s.buf)
        | none => do
          let batchBuf ← kmalloc (sb.blockSize * fsBatchBlocks % 2 ^ 32)
          let s ← if batchBuf then readBatch h.inode sb.blockSize count count s
            else readSingle h.inode sb.blockSize count count s
          setFd i.toNat (some { h with pos := s.pos })
          pure (toI32 s.bytesRead, s.buf)
      else pure (-1, buf)

end Sandflea
