import Sandflea.Wasm.Memory

/-!
# Host functions on linear memory

The file and argument functions that `wasm_spawn.c` gives to guest programs: `fd_read`, `fd_write` and
`get_arg` of the module `env`, and `fd_read`, `fd_write`, `args_get` and `args_sizes_get` of WASI. Each
checks the offsets and lengths of the guest by itself, most with a sum in a `u32`.

A call is described by its result, the memory after it, and two lists of ranges: those that it read or
wrote (`touched`), and those that the guest asked it to (`asked`). `confined_iff` says for which calls
everything touched is in the linear memory and a call that asks for more fails.
-/

namespace Sandflea

open Bytes

/-- What the host functions look at in the process of the guest. -/
structure GuestProc where
  /-- `argc`, an `i32` -/
  argc : ℤ
  argv : ℕ → Option (List UInt8)
  /-- The entry of `fd_table` is not null. -/
  fdOpen : ℕ → Bool

/-- What the keyboard and the files do during a call, turn by turn of its loop over the iovecs. -/
structure Devices where
  /-- What `keyboard_fg_eat` gives, 0 where the queue is empty. -/
  keys : ℕ → List UInt8
  /-- What `fs_read` puts into the buffer, as far as it has the place, and its result. -/
  fsRead : ℕ → List UInt8 × ℤ
  /-- How many bytes of the buffer `fs_write` reads, if there are so many, and its result. -/
  fsWrite : ℕ → ℕ × ℤ

/-- What a call did. -/
structure HostRun where
  /-- `none` while the call waits for keys. -/
  result : Option ℤ
  bytes : Bytes
  touched : List Span
  asked : List Span

/-- A call that touches nothing and returns. -/
def HostRun.refuse (g : Guest) (result : ℤ) : HostRun := ⟨some result, g.bytes, [], []⟩

/-- `MAX_FILE_HANDLES` -/
def maxFds : ℤ := 128

/-- `WESI_ESUCCESS` -/
def wesiEsuccess : ℤ := 0

/-- `WESI_EINVAL` -/
def wesiEinval : ℤ := 28

/-- The descriptor is open in the process. -/
def isOpen (p : Option GuestProc) (fd : ℤ) : Bool :=
  match p with
  | none => false
  | some p => 0 ≤ fd && fd < maxFds && p.fdOpen fd.toNat

/-! ## Transfers -/

/-- How the loop over the iovecs goes on after a transfer. -/
inductive Ending
  | next
  | stop
  | waits
deriving DecidableEq, Repr

/-- A transfer between a device and a buffer of the guest. -/
structure Transfer where
  ending : Ending
  bytes : Bytes
  result : ℤ
  touched : List Span

/-- How the loop over the keys ends. -/
inductive StdinEnd
  | waits
  | eof
  | read (n : ℕ)
deriving DecidableEq, Repr

/-- The loop over the keys of `wasm_fd_read` and `kern_wasi_fd_read`; only the first ends at Ctrl+D. -/
def readStdin (ctrlD : Bool) (buf : Span) : List UInt8 → ℕ → Bytes → StdinEnd × Bytes × List Span
  | [], n, b => (if n < buf.len then .waits else .read n, b, [])
  | k :: keys, n, b =>
    if n < buf.len then
      -- an empty queue: `sched_yield`
      if k = 0 then readStdin ctrlD buf keys n b
      else if ctrlD && k = 4 then (.eof, b, [])
      else
        let k := if k = 13 then 10 else k
        if k = 8 then readStdin ctrlD buf keys (n - 1) b
        else
          let b := Function.update b (buf.start + n) k
          if k = 10 then (.read (n + 1), b, [⟨buf.start + n, 1⟩])
          else
            let (e, b, touched) := readStdin ctrlD buf keys (n + 1) b
            (e, b, ⟨buf.start + n, 1⟩ :: touched)
    else (.read n, b, [])

/-- `fs_read` into a buffer of the guest -/
def fsReadInto (p : Option GuestProc) (dev : Devices) (fd : ℤ) (i : ℕ) (b : Bytes) (buf : Span) :
    ℤ × Bytes × Span :=
  if isOpen p fd then
    let data := (dev.fsRead i).1.take buf.len
    ((dev.fsRead i).2, putList b buf.start data, ⟨buf.start, data.length⟩)
  else (-1, b, ⟨buf.start, 0⟩)

/-- `fs_write` from a buffer of the guest -/
def fsWriteFrom (dev : Devices) (i : ℕ) (buf : Span) : ℤ × Span :=
  ((dev.fsWrite i).2, ⟨buf.start, min (dev.fsWrite i).1 buf.len⟩)

/-- `term_write` of a buffer of the guest: its length is an `i32`. -/
def termWriteFrom (buf : Span) : Span := ⟨buf.start, (i32 buf.len).toNat⟩

/-- A turn of `kern_wasi_fd_read` with a buffer -/
def readTransfer (p : Option GuestProc) (dev : Devices) (fd : ℤ) (i : ℕ) (b : Bytes) (buf : Span) :
    Transfer :=
  if fd = 0 then
    match readStdin false buf (dev.keys i) 0 b with
    | (.read n, b, touched) => ⟨.next, b, n, touched⟩
    | (_, b, touched) => ⟨.waits, b, 0, touched⟩
  else
    let (res, b, s) := fsReadInto p dev fd i b buf
    ⟨if res ≤ 0 then .stop else .next, b, res, [s]⟩

/-- The write of a buffer to a file, as a turn of `wasm_fd_write` and of `kern_wasi_fd_write` -/
def fileTransfer (dev : Devices) (i : ℕ) (b : Bytes) (buf : Span) : Transfer :=
  let (res, s) := fsWriteFrom dev i buf
  ⟨if res < 0 then .stop else .next, b, res, [s]⟩

/-- A turn of `wasm_fd_write` with a buffer: a descriptor that is open is a file, whatever its number. -/
def envWriteTransfer (p : Option GuestProc) (dev : Devices) (fd : ℤ) (i : ℕ) (b : Bytes) (buf : Span) :
    Transfer :=
  if isOpen p fd then fileTransfer dev i b buf
  else if fd = 1 ∨ fd = 2 then ⟨.next, b, buf.len, [termWriteFrom buf]⟩
  else ⟨.stop, b, 0, []⟩

/-- A turn of `kern_wasi_fd_write` with a buffer: 1 and 2 are the terminal. -/
def wasiWriteTransfer (p : Option GuestProc) (dev : Devices) (fd : ℤ) (i : ℕ) (b : Bytes)
    (buf : Span) : Transfer :=
  if fd = 1 ∨ fd = 2 then ⟨.next, b, buf.len, [termWriteFrom buf]⟩
  else if isOpen p fd then fileTransfer dev i b buf
  else ⟨.stop, b, 0, []⟩

/-! ## Iovecs -/

/-- What a loop over iovecs did. -/
structure IovRun where
  /-- The loop is not waiting for keys. -/
  ended : Bool
  bytes : Bytes
  total : ℕ
  touched : List Span
  asked : List Span

/-- A loop after a turn that touched and was asked for some ranges. -/
def IovRun.after (touched asked : List Span) (r : IovRun) : IovRun :=
  { r with touched := touched ++ r.touched, asked := asked ++ r.asked }

/-- The `i`-th iovec of a table: 32-bit numbers for the offset and the length of a buffer. -/
def iovSpan (iovs i : ℕ) : Span := ⟨iovs + i * 8, 8⟩

/-- The buffer that the `i`-th iovec of a table names. -/
def iovBuffer (b : Bytes) (iovs i : ℕ) : Span :=
  ⟨u32At b (iovs + i * 8), u32At b (iovs + i * 8 + 4)⟩

/-- The loop over the iovecs of `wasm_fd_write`, `kern_wasi_fd_read` and `kern_wasi_fd_write`, from the
`i`-th of `i + n` on. The table is read as it is by then: a buffer may lie over it. -/
def iovTurns (transfer : ℕ → Bytes → Span → Transfer) (memSize iovs : ℕ) :
    ℕ → ℕ → Bytes → ℕ → IovRun
  | 0, _, b, total => ⟨true, b, total, [], []⟩
  | n + 1, i, b, total =>
    let buf := iovBuffer b iovs i
    if memSize < u32 (buf.start + buf.len) ∨ buf.len = 0 then
      (iovTurns transfer memSize iovs n (i + 1) b total).after [iovSpan iovs i] [iovSpan iovs i, buf]
    else
      let t := transfer i b buf
      match t.ending with
      | .next =>
        (iovTurns transfer memSize iovs n (i + 1) t.bytes (u32 (total + t.result.toNat))).after
          (iovSpan iovs i :: t.touched) [iovSpan iovs i, buf]
      | .stop => ⟨true, t.bytes, total, iovSpan iovs i :: t.touched, [iovSpan iovs i, buf]⟩
      | .waits => ⟨false, t.bytes, total, iovSpan iovs i :: t.touched, [iovSpan iovs i, buf]⟩

/-- The end of the three functions with iovecs: the number of bytes goes to the result pointer. -/
def IovRun.finish (r : IovRun) (resultPtr : UInt32) : HostRun :=
  if r.ended then
    ⟨some wesiEsuccess, putU32 r.bytes resultPtr.toNat r.total, r.touched ++ [⟨resultPtr.toNat, 4⟩],
      ⟨resultPtr.toNat, 4⟩ :: r.asked⟩
  else ⟨none, r.bytes, r.touched, ⟨resultPtr.toNat, 4⟩ :: r.asked⟩

/-! ## The calls -/

/-- `wasm_fd_read` -/
def wasmFdRead (g : Guest) (p : Option GuestProc) (dev : Devices) (fd : Int32)
    (bufOffset count : UInt32) : HostRun :=
  if bufOffset + count ≤ g.memSize then
    let buf : Span := ⟨bufOffset.toNat, count.toNat⟩
    if fd.toInt = 0 then
      match readStdin true buf (dev.keys 0) 0 g.bytes with
      | (.waits, b, touched) => ⟨none, b, touched, [buf]⟩
      | (.eof, b, touched) => ⟨some 0, b, touched, [buf]⟩
      | (.read n, b, touched) => ⟨some (i32 n), b, touched, [buf]⟩
    else
      let (res, b, s) := fsReadInto p dev fd.toInt 0 g.bytes buf
      ⟨some res, b, [s], [buf]⟩
  else .refuse g (-1)

/-- `wasm_fd_write`: its bound checks are sums of `size_t`. -/
def wasmFdWrite (g : Guest) (p : Option GuestProc) (dev : Devices) (fd : Int32) (iovsOffset : UInt32)
    (iovsLen : Int32) (nwrittenOffset : UInt32) : HostRun :=
  if (g.memSize.toNat : ℤ) < (iovsOffset.toNat + iovsLen.toInt * 8) % 2 ^ 64 ∨
      g.memSize.toNat < nwrittenOffset.toNat + 4 then .refuse g (-1)
  else
    (iovTurns (envWriteTransfer p dev fd.toInt) g.memSize.toNat iovsOffset.toNat
      iovsLen.toInt.toNat 0 g.bytes 0).finish nwrittenOffset

/-- How much of an argument `wasm_get_arg` copies: `max_len` 0 gives 2^32 - 1. -/
def argCut (arg : List UInt8) (maxLen : UInt32) : ℕ :=
  if maxLen.toNat ≤ u32 arg.length then (maxLen - 1).toNat else u32 arg.length

/-- `wasm_get_arg`. What lies behind an argument in the kernel is left out. -/
def wasmGetArg (g : Guest) (p : Option GuestProc) (index : Int32) (bufOffset maxLen : UInt32) :
    HostRun :=
  match p with
  | none => .refuse g (-1)
  | some p =>
    if index.toInt < 0 ∨ p.argc ≤ index.toInt then .refuse g (-1)
    else if bufOffset < g.memSize then
      let arg := (p.argv index.toInt.toNat).getD []
      let len := argCut arg maxLen
      let stop := u32 (bufOffset.toNat + len)
      ⟨some (i32 len), Function.update (copyInto g.bytes bufOffset.toNat (fun i => arg.getD i 0) 0 len)
        stop 0, [⟨bufOffset.toNat, len⟩, ⟨stop, 1⟩], [⟨bufOffset.toNat, len + 1⟩]⟩
    else .refuse g (-1)

/-- The number of arguments that the WASI functions see -/
def argCount (p : Option GuestProc) : ℕ :=
  match p with
  | none => 0
  | some p => p.argc.toNat

/-- An argument that the WASI functions see -/
def argAt (p : Option GuestProc) (i : ℕ) : Option (List UInt8) := p.bind fun p => p.argv i

/-- The bytes of an argument, with its end, as a `u32` -/
def argBytes (arg : List UInt8) : ℕ := u32 (arg.length + 1)

/-- `kern_wasi_args_sizes_get` -/
def kernWasiArgsSizesGet (g : Guest) (p : Option GuestProc) (argcPtr argvBufSizePtr : UInt32) :
    HostRun :=
  if g.memSize < argcPtr + 4 ∨ g.memSize < argvBufSizePtr + 4 then .refuse g wesiEinval
  else
    let bufSize := (List.range (min (argCount p) 16)).foldl
      (fun n i => u32 (n + ((argAt p i).map argBytes).getD 0)) 0
    let spans : List Span := [⟨argcPtr.toNat, 4⟩, ⟨argvBufSizePtr.toNat, 4⟩]
    ⟨some wesiEsuccess, putU32 (putU32 g.bytes argcPtr.toNat (argCount p)) argvBufSizePtr.toNat bufSize,
      spans, spans⟩

/-- What a call did after a turn that touched and was asked for some ranges. -/
def HostRun.after (touched asked : List Span) (r : HostRun) : HostRun :=
  { r with touched := touched ++ r.touched, asked := asked ++ r.asked }

/-- The loop of `kern_wasi_args_get`, from the `i`-th of `i + n` arguments on. -/
def argTurns (p : Option GuestProc) (memSize argvPtr : ℕ) : ℕ → ℕ → Bytes → ℕ → HostRun
  | 0, _, b, _ => ⟨some wesiEsuccess, b, [], []⟩
  | n + 1, i, b, strOff =>
    match argAt p i with
    | none => ⟨some wesiEsuccess, b, [], []⟩
    | some s =>
      let ptr : Span := ⟨argvPtr + i * 4, 4⟩
      let str : Span := ⟨strOff, argBytes s⟩
      if memSize < u32 (argvPtr + i * 4 + 4) then ⟨some wesiEinval, b, [], [ptr]⟩
      else
        let b := putU32 b ptr.start strOff
        if memSize < u32 (strOff + argBytes s) then ⟨some wesiEinval, b, [ptr], [ptr, str]⟩
        else
          (argTurns p memSize argvPtr n (i + 1)
            (copyInto b strOff (fun i => s.getD i 0) 0 (argBytes s)) (u32 (strOff + argBytes s))).after
            [ptr, str] [ptr, str]

/-- `kern_wasi_args_get` -/
def kernWasiArgsGet (g : Guest) (p : Option GuestProc) (argvPtr argvBufPtr : UInt32) : HostRun :=
  argTurns p g.memSize.toNat argvPtr.toNat (min (argCount p) 16) 0 g.bytes argvBufPtr.toNat

/-- The checks of `kern_wasi_fd_read` and `kern_wasi_fd_write`, sums of `u32` -/
def wasiRefused (g : Guest) (iovsPtr : UInt32) (iovsLen : Int32) (resultPtr : UInt32) : Prop :=
  g.memSize < resultPtr + 4 ∨
    (g.memSize.toNat : ℤ) < (iovsPtr.toNat + iovsLen.toInt * 8) % 2 ^ 32

instance (g : Guest) (iovsPtr : UInt32) (iovsLen : Int32) (resultPtr : UInt32) :
    Decidable (wasiRefused g iovsPtr iovsLen resultPtr) :=
  inferInstanceAs (Decidable (_ ∨ _))

/-- `kern_wasi_fd_read` -/
def kernWasiFdRead (g : Guest) (p : Option GuestProc) (dev : Devices) (fd : Int32) (iovsPtr : UInt32)
    (iovsLen : Int32) (nreadPtr : UInt32) : HostRun :=
  if wasiRefused g iovsPtr iovsLen nreadPtr then .refuse g wesiEinval
  else
    (iovTurns (readTransfer p dev fd.toInt) g.memSize.toNat iovsPtr.toNat
      iovsLen.toInt.toNat 0 g.bytes 0).finish nreadPtr

/-- `kern_wasi_fd_write` -/
def kernWasiFdWrite (g : Guest) (p : Option GuestProc) (dev : Devices) (fd : Int32)
    (iovsPtr : UInt32) (iovsLen : Int32) (nwrittenPtr : UInt32) : HostRun :=
  if wasiRefused g iovsPtr iovsLen nwrittenPtr then .refuse g wesiEinval
  else
    (iovTurns (wasiWriteTransfer p dev fd.toInt) g.memSize.toNat iovsPtr.toNat
      iovsLen.toInt.toNat 0 g.bytes 0).finish nwrittenPtr

end Sandflea
