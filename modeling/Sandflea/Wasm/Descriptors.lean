import Sandflea.Fs.File
import Sandflea.Lib.Runs
import Sandflea.Wasm.HostCalls

/-!
# Descriptors of a WASI program

`allocate_fd` keeps the descriptors 0, 1 and 2 for the console and gives 3 to the first file, but for the WASI
functions 3 is the preopened directory. The functions that say what a descriptor is mostly look at its number
alone, not at whether anything is open there (`Descriptors.classified_iff`). So no run is as it should be
(`descriptors_confused`): the first file that is opened looks like a directory, and closed descriptors look like
files.

What the file system finds, or creates, for a path is an argument of the calls that open.
-/

namespace Sandflea

open Runs

/-- `WESI_EBADF` -/
def wesiEbadf : ℤ := 8

/-- `WESI_ENOENT` -/
def wesiEnoent : ℤ := 44

/-- `WESI_PREOPEN_FD` -/
def wesiPreopenFd : ℤ := 3

/-- `WESI_OFLAGS_CREAT` -/
def wesiOflagsCreat : Int32 := 1

/-- `WESI_FILETYPE_DIRECTORY`, `WESI_FILETYPE_REGULAR_FILE` and `WESI_FILETYPE_CHARACTER_DEVICE` -/
inductive WesiFiletype
  | directory
  | regularFile
  | characterDevice
deriving DecidableEq, Repr

/-- `WESI_RIGHT_FD_READ` -/
def wesiRightFdRead : ℕ := 2 ^ 1

/-- `WESI_RIGHT_FD_WRITE` -/
def wesiRightFdWrite : ℕ := 2 ^ 5

/-- `WESI_RIGHT_FD_SEEK` -/
def wesiRightFdSeek : ℕ := 2 ^ 7

/-- `WESI_RIGHT_PATH_OPEN | WESI_RIGHT_FD_READDIR`, the rights of the preopened directory -/
def preopenRights : ℕ := 2 ^ 8 ||| 2 ^ 13

/-- The rights of a file -/
def fileRights : ℕ := wesiRightFdRead ||| wesiRightFdWrite ||| wesiRightFdSeek

/-- What the file system does for `fs_create`: `ext2_create_file`, which gives 0 if it fails, `ext2_get_inode`, and
the `kmalloc` of the handle. -/
structure Creation where
  inodeNo : ℕ
  inode : Option Inode
  heap : Bool

/-- `fd_table` of the process of a WASI program -/
structure Descriptors where
  fdTable : ℕ → Option FileHandle

namespace Descriptors

/-! ## Opening and closing -/

/-- The descriptors of a process that `process_create` has made -/
def fresh : Descriptors := ⟨fun _ => none⟩

/-- `allocate_fd` -/
def allocateFd (s : Descriptors) : Option ℕ :=
  (List.range' 3 (maxFileHandles - 3)).find? fun i => (s.fdTable i).isNone

/-- Assign `fd_table[i]`. -/
def setFd (s : Descriptors) (i : ℕ) (h : Option FileHandle) : Descriptors := ⟨Function.update s.fdTable i h⟩

/-- `fs_open`, with what `ext2_find_path` gives. Where there is no memory for the handle, the kernel stops. -/
def fsOpen (found : Option (ℕ × Inode)) (s : Descriptors) : ℤ × Descriptors :=
  match found with
  | none => (-1, s)
  | some (inodeNo, inode) =>
    match s.allocateFd with
    | none => (-1, s)
    | some i => (i, s.setFd i (some { inodeNo, inode, pos := 0 }))

/-- `fs_create` -/
def fsCreate (c : Creation) (s : Descriptors) : ℤ × Descriptors :=
  if c.inodeNo = 0 then (-1, s)
  else
    match s.allocateFd with
    | none => (-1, s)
    | some i =>
      match c.inode with
      | none => (-1, s)
      | some inode =>
        if c.heap then (i, s.setFd i (some { inodeNo := c.inodeNo, inode, pos := 0 })) else (-1, s)

/-- The handle that the functions of `kern_fs.c` find for a descriptor -/
def handleAt (s : Descriptors) (i : ℤ) : Option FileHandle :=
  if i < 0 ∨ (maxFileHandles : ℤ) ≤ i then none else s.fdTable i.toNat

/-- `fs_close` -/
def fsClose (i : ℤ) (s : Descriptors) : ℤ × Descriptors :=
  match s.handleAt i with
  | none => (-1, s)
  | some _ => (0, s.setFd i.toNat none)

/-- `fs_size` -/
def fsSize (i : ℤ) (s : Descriptors) : ℕ :=
  match s.handleAt i with
  | none => 0
  | some h => h.inode.size

/-- `kern_wasi_path_open`: the error number, and the descriptor that the guest gets -/
def kernWasiPathOpen (g : Guest) (pathPtr : UInt32) (pathLen oflags : Int32) (retFdPtr : UInt32)
    (found : Option (ℕ × Inode)) (c : Creation) (s : Descriptors) : ℤ × Option ℤ × Descriptors :=
  if g.memSize < retFdPtr + 4 ∨ g.memSize < pathPtr + pathLen.toUInt32 then (wesiEinval, none, s)
  else
    let (newFd, s) := s.fsOpen found
    if newFd < 0 ∧ oflags &&& wesiOflagsCreat ≠ 0 then
      let (newFd, s) := s.fsCreate c
      if newFd < 0 then (wesiEnoent, none, s) else (wesiEsuccess, some newFd, s)
    else if newFd < 0 then (wesiEnoent, none, s)
    else (wesiEsuccess, some newFd, s)

/-- `kern_wasi_fd_close` -/
def kernWasiFdClose (i : ℤ) (s : Descriptors) : ℤ × Descriptors :=
  if i < 3 then (wesiEsuccess, s)
  else
    let (res, s) := s.fsClose i
    (if res = 0 then wesiEsuccess else wesiEbadf, s)

/-! ## What a descriptor is -/

/-- `kern_wasi_fd_fdstat_get`: the file type and the rights that it reports. It does not look at the table. -/
def kernWasiFdFdstatGet (g : Guest) (i : Int32) (statPtr : UInt32) : Except ℤ (WesiFiletype × ℕ) :=
  if g.memSize < statPtr + 24 then .error wesiEinval
  else if i.toInt = 0 then .ok (.characterDevice, wesiRightFdRead)
  else if i.toInt = 1 ∨ i.toInt = 2 then .ok (.characterDevice, wesiRightFdWrite)
  else if i.toInt = wesiPreopenFd then .ok (.directory, preopenRights)
  else if (maxFileHandles : ℤ) ≤ i.toInt then .error wesiEbadf
  else .ok (.regularFile, fileRights)

/-- `kern_wasi_fd_filestat_get`: the file type and the size that it reports -/
def kernWasiFdFilestatGet (g : Guest) (i : Int32) (statPtr : UInt32) (s : Descriptors) :
    Except ℤ (WesiFiletype × ℕ) :=
  if g.memSize < statPtr + 64 then .error wesiEinval
  else if i.toInt < 3 then .ok (.characterDevice, 0)
  else if i.toInt = wesiPreopenFd then .ok (.directory, 0)
  else if (maxFileHandles : ℤ) ≤ i.toInt then .error wesiEbadf
  else
    let sz := toI32 (s.fsSize i.toInt)
    if sz < 0 then .error wesiEbadf else .ok (.regularFile, sz.toNat)

/-- `kern_wasi_fd_prestat_get` -/
def kernWasiFdPrestatGet (g : Guest) (i : Int32) (prestatPtr : UInt32) : ℤ :=
  if g.memSize < prestatPtr + 8 then wesiEinval
  else if i.toInt = wesiPreopenFd then wesiEsuccess
  else wesiEbadf

end Descriptors

/-- A call of the program that concerns descriptors -/
inductive WasiCall
  /-- `path_open` -/
  | pathOpen (g : Guest) (pathPtr : UInt32) (pathLen oflags : Int32) (retFdPtr : UInt32)
    (found : Option (ℕ × Inode)) (c : Creation)
  /-- `fs_open` -/
  | fsOpen (found : Option (ℕ × Inode))
  /-- `fs_create` -/
  | fsCreate (c : Creation)
  /-- `fd_close` -/
  | fdClose (i : ℤ)

namespace Descriptors

/-- A call, with the descriptor that it gives out, if there is one -/
def call (s : Descriptors) : WasiCall → Option ℤ × Descriptors
  | .pathOpen g pathPtr pathLen oflags retFdPtr found c =>
    (s.kernWasiPathOpen g pathPtr pathLen oflags retFdPtr found c).2
  | .fsOpen found => (if 0 ≤ (s.fsOpen found).1 then some (s.fsOpen found).1 else none, (s.fsOpen found).2)
  | .fsCreate c => (if 0 ≤ (s.fsCreate c).1 then some (s.fsCreate c).1 else none, (s.fsCreate c).2)
  | .fdClose i => (none, (s.kernWasiFdClose i).2)

/-- The descriptors after a call -/
def step (s : Descriptors) (c : WasiCall) : Descriptors := (s.call c).2

/-- The descriptor that a call gives out is not that of the preopened directory. -/
def GivesOther (s : Descriptors) (c : WasiCall) : Prop := (s.call c).1 ≠ some wesiPreopenFd

/-- The three functions say of a descriptor, for all places in the memory of a guest where they can write, what it
is: a file with its size, the preopened directory, or nothing. -/
def Classified (s : Descriptors) (i : Int32) : Prop :=
  ∀ (g : Guest) (statPtr : UInt32), ¬ g.memSize < statPtr + 64 → ¬ g.memSize < statPtr + 24 →
    ¬ g.memSize < statPtr + 8 →
    match s.handleAt i.toInt with
    | some h => kernWasiFdFdstatGet g i statPtr = .ok (.regularFile, fileRights) ∧
        s.kernWasiFdFilestatGet g i statPtr = .ok (.regularFile, h.inode.size) ∧
        kernWasiFdPrestatGet g i statPtr = wesiEbadf
    | none =>
      if i.toInt = wesiPreopenFd then
        kernWasiFdFdstatGet g i statPtr = .ok (.directory, preopenRights) ∧
          s.kernWasiFdFilestatGet g i statPtr = .ok (.directory, 0) ∧
          kernWasiFdPrestatGet g i statPtr = wesiEsuccess
      else kernWasiFdFdstatGet g i statPtr = .error wesiEbadf ∧
        s.kernWasiFdFilestatGet g i statPtr = .error wesiEbadf ∧ kernWasiFdPrestatGet g i statPtr = wesiEbadf

/-- Every descriptor but those of the console is what the functions say. -/
def AllClassified (s : Descriptors) : Prop := ∀ i : Int32, 3 ≤ i.toInt → s.Classified i

/-- The descriptors that the functions are right about: the preopened directory, as long as no file has its
number, open files below 2 GiB, and numbers that are none. -/
def Tells (s : Descriptors) (i : ℤ) : Prop :=
  match s.handleAt i with
  | some h => 3 < i ∧ h.inode.size < 2 ^ 31
  | none => i = wesiPreopenFd ∨ (maxFileHandles : ℤ) ≤ i

end Descriptors

/-- A creation that fails after `allocate_fd`, or before -/
def Creation.Fails (c : Creation) : Prop := c.inodeNo = 0 ∨ c.inode = none ∨ c.heap = false

/-- A call for which there is no file, and none is made -/
def WasiCall.FindsNothing : WasiCall → Prop
  | .pathOpen g pathPtr pathLen oflags retFdPtr found c =>
    (g.memSize < retFdPtr + 4 ∨ g.memSize < pathPtr + pathLen.toUInt32) ∨
      found = none ∧ (oflags &&& wesiOflagsCreat = 0 ∨ c.Fails)
  | .fsOpen found => found = none
  | .fsCreate c => c.Fails
  | .fdClose _ => True

namespace Descriptors

/-! ## What the functions say -/

/-- A number that is not negative as an `i32` -/
theorem toI32_nonneg_iff {v : ℕ} (h : v < 2 ^ 32) : 0 ≤ toI32 v ↔ v < 2 ^ 31 := by
  unfold toI32
  split
  · omega
  · omega

/-- What `fd_filestat_get` says of an open file -/
theorem filestat_open {s : Descriptors} {g : Guest} {i : Int32} {statPtr : UInt32} {h : FileHandle}
    (hopen : s.handleAt i.toInt = some h) (hmem : ¬ g.memSize < statPtr + 64) (hi : 3 < i.toInt) :
    s.kernWasiFdFilestatGet g i statPtr = if h.inode.size < 2 ^ 31 then .ok (.regularFile, h.inode.size)
      else .error wesiEbadf := by
  have hrange : ¬ (maxFileHandles : ℤ) ≤ i.toInt := by
    intro hge
    rw [handleAt, if_pos (.inr hge)] at hopen
    cases hopen
  have hsize : s.fsSize i.toInt = h.inode.size := by rw [fsSize, hopen]
  have hthree : ¬ i.toInt = wesiPreopenFd := by
    unfold wesiPreopenFd
    omega
  have hsign := toI32_nonneg_iff h.inode.size_lt
  rw [kernWasiFdFilestatGet, if_neg hmem, if_neg (by omega), if_neg hthree, if_neg hrange, hsize]
  dsimp only
  by_cases hlt : h.inode.size < 2 ^ 31
  · have hval : toI32 h.inode.size = h.inode.size := if_pos hlt
    rw [if_pos hlt, if_neg (by omega), hval]
    rfl
  · rw [if_neg hlt, if_pos (by omega)]

/-- The functions are right about a descriptor exactly if it is one of these. -/
theorem classified_iff (s : Descriptors) (i : Int32) : s.Classified i ↔ 3 ≤ i.toInt ∧ s.Tells i.toInt := by
  unfold Classified Tells
  constructor
  · intro hall
    have hcall := hall ⟨64, Bytes.zeros⟩ 0 (by decide) (by decide) (by decide)
    have hfd : kernWasiFdFdstatGet ⟨64, Bytes.zeros⟩ i 0 =
        if i.toInt = 0 then .ok (.characterDevice, wesiRightFdRead)
        else if i.toInt = 1 ∨ i.toInt = 2 then .ok (.characterDevice, wesiRightFdWrite)
        else if i.toInt = wesiPreopenFd then .ok (.directory, preopenRights)
        else if (maxFileHandles : ℤ) ≤ i.toInt then .error wesiEbadf
        else .ok (.regularFile, fileRights) := if_neg (by decide)
    unfold wesiPreopenFd at hfd hcall ⊢
    cases hopen : s.handleAt i.toInt with
    | some h =>
      rw [hopen] at hcall
      obtain ⟨hstat, hfile, -⟩ := hcall
      have hnonneg : 0 ≤ i.toInt := by
        by_contra hneg
        rw [handleAt, if_pos (.inl (by omega))] at hopen
        cases hopen
      rw [hfd] at hstat
      -- The console and the preopened directory are no regular files.
      have hfour : 3 < i.toInt := by
        by_contra hle
        by_cases hzero : i.toInt = 0
        · rw [if_pos hzero] at hstat
          cases hstat
        by_cases hconsole : i.toInt = 1 ∨ i.toInt = 2
        · rw [if_neg hzero, if_pos hconsole] at hstat
          cases hstat
        · rw [if_neg hzero, if_neg hconsole, if_pos (by omega)] at hstat
          cases hstat
      rw [filestat_open hopen (by decide) hfour] at hfile
      refine ⟨hfour.le, hfour, ?_⟩
      split_ifs at hfile with hlt
      exact hlt
    | none =>
      rw [hopen] at hcall
      dsimp only at hcall ⊢
      by_cases hthree : i.toInt = 3
      · exact ⟨hthree.ge, .inl hthree⟩
      · rw [if_neg hthree, hfd] at hcall
        have hstat := hcall.1
        split_ifs at hstat with h₀ h₁ h₂
        exact ⟨le_trans (by decide) h₂, .inr h₂⟩
  · rintro ⟨hge, htells⟩ g statPtr h64 h24 h8
    have hzero : ¬ i.toInt = 0 := by omega
    have hconsole : ¬(i.toInt = 1 ∨ i.toInt = 2) := by omega
    unfold wesiPreopenFd at htells ⊢
    cases hopen : s.handleAt i.toInt with
    | some h =>
      rw [hopen] at htells
      obtain ⟨hfour, hsize⟩ := htells
      have hrange : ¬ (maxFileHandles : ℤ) ≤ i.toInt := by
        intro hge
        rw [handleAt, if_pos (.inr hge)] at hopen
        cases hopen
      have hthree : ¬ i.toInt = wesiPreopenFd := by
        unfold wesiPreopenFd
        omega
      refine ⟨?_, ?_, ?_⟩
      · rw [kernWasiFdFdstatGet, if_neg h24, if_neg hzero, if_neg hconsole, if_neg hthree, if_neg hrange]
      · rw [filestat_open hopen h64 hfour, if_pos hsize]
      · rw [kernWasiFdPrestatGet, if_neg h8, if_neg hthree]
    | none =>
      rw [hopen] at htells
      dsimp only at htells ⊢
      have hlow : ¬ i.toInt < 3 := by omega
      rcases htells with hthree | hbig
      · have hpre : i.toInt = wesiPreopenFd := hthree
        rw [if_pos hthree]
        refine ⟨?_, ?_, ?_⟩
        · rw [kernWasiFdFdstatGet, if_neg h24, if_neg hzero, if_neg hconsole, if_pos hpre]
        · rw [kernWasiFdFilestatGet, if_neg h64, if_neg hlow, if_pos hpre]
        · rw [kernWasiFdPrestatGet, if_neg h8, if_pos hpre]
      · have hthree : ¬ i.toInt = 3 := by
          unfold maxFileHandles at hbig
          omega
        have hpre : ¬ i.toInt = wesiPreopenFd := hthree
        rw [if_neg hthree]
        refine ⟨?_, ?_, ?_⟩
        · rw [kernWasiFdFdstatGet, if_neg h24, if_neg hzero, if_neg hconsole, if_neg hpre, if_pos hbig]
        · rw [kernWasiFdFilestatGet, if_neg h64, if_neg hlow, if_neg hpre, if_pos hbig]
        · rw [kernWasiFdPrestatGet, if_neg h8, if_neg hpre]

/-! ## The first file -/

/-- The first descriptor that `allocate_fd` gives is that of the preopened directory. -/
theorem allocateFd_fresh : fresh.allocateFd = some 3 := rfl

theorem fsCreate_fresh (c : Creation) :
    c.Fails ∧ fresh.fsCreate c = (-1, fresh) ∨ ¬ c.Fails ∧ (fresh.fsCreate c).1 = wesiPreopenFd := by
  unfold Creation.Fails fsCreate
  rw [allocateFd_fresh]
  by_cases hzero : c.inodeNo = 0
  · exact .inl ⟨.inl hzero, if_pos hzero⟩
  · rw [if_neg hzero]
    cases hinode : c.inode with
    | none => exact .inl ⟨.inr (.inl rfl), rfl⟩
    | some inode =>
      dsimp only
      cases hheap : c.heap with
      | false => exact .inl ⟨.inr (.inr rfl), rfl⟩
      | true =>
        refine .inr ⟨?_, rfl⟩
        rintro (hno | hno | hno)
        · exact hzero hno
        · cases hno
        · cases hno

/-- While no file was opened, a call gives out the descriptor of the preopened directory, or none. -/
theorem call_fresh (c : WasiCall) :
    c.FindsNothing ∧ fresh.call c = (none, fresh) ∨
      ¬ c.FindsNothing ∧ (fresh.call c).1 = some wesiPreopenFd := by
  cases c with
  | fdClose i =>
    refine .inl ⟨trivial, ?_⟩
    have hnone : fresh.handleAt i = none := by
      unfold handleAt
      split
      · rfl
      · rfl
    unfold call kernWasiFdClose fsClose
    dsimp only
    rw [hnone]
    split
    · rfl
    · rfl
  | fsOpen found =>
    cases found with
    | none => exact .inl ⟨rfl, rfl⟩
    | some file => exact .inr ⟨nofun, rfl⟩
  | fsCreate c =>
    unfold call
    dsimp only
    rcases fsCreate_fresh c with ⟨hfails, heq⟩ | ⟨hmade, heq⟩
    · rw [heq]
      exact .inl ⟨hfails, rfl⟩
    · rw [heq]
      exact .inr ⟨hmade, rfl⟩
  | pathOpen g pathPtr pathLen oflags retFdPtr found c =>
    unfold WasiCall.FindsNothing call kernWasiPathOpen
    dsimp only
    by_cases hbad : g.memSize < retFdPtr + 4 ∨ g.memSize < pathPtr + pathLen.toUInt32
    · rw [if_pos hbad]
      exact .inl ⟨.inl hbad, rfl⟩
    rw [if_neg hbad]
    cases found with
    | some file =>
      refine .inr ⟨?_, rfl⟩
      rintro (hno | ⟨hno, -⟩)
      · exact hbad hno
      · cases hno
    | none =>
      by_cases hcreat : oflags &&& wesiOflagsCreat = 0
      · refine .inl ⟨.inr ⟨rfl, .inl hcreat⟩, ?_⟩
        rw [if_neg fun hand => hand.2 hcreat]
        rfl
      · have hopen : (fresh.fsOpen none).1 < 0 ∧ oflags &&& wesiOflagsCreat ≠ 0 := ⟨by decide, hcreat⟩
        rw [if_pos hopen, show (fresh.fsOpen none).2 = fresh from rfl]
        rcases fsCreate_fresh c with ⟨hfails, heq⟩ | ⟨hmade, heq⟩
        · rw [heq]
          exact .inl ⟨.inr ⟨rfl, .inr hfails⟩, rfl⟩
        · rw [heq]
          refine .inr ⟨?_, rfl⟩
          rintro (hno | ⟨-, hno | hno⟩)
          · exact hbad hno
          · exact hcreat hno
          · exact hmade hno

/-- Other descriptors than that of the preopened directory are given out exactly as long as no file is opened. -/
theorem along_givesOther_iff (calls : List WasiCall) :
    Along step GivesOther fresh calls ↔ ∀ c ∈ calls, c.FindsNothing := by
  induction calls with
  | nil => exact ⟨fun _ => nofun, fun _ => trivial⟩
  | cons c calls ih =>
    rw [List.forall_mem_cons, ← ih]
    rcases call_fresh c with ⟨hnothing, heq⟩ | ⟨hfile, heq⟩
    · have hsame : fresh.step c = fresh := by rw [step, heq]
      have hgives : fresh.GivesOther c := by
        rw [GivesOther, heq]
        nofun
      constructor
      · exact fun hrun => ⟨hnothing, hsame ▸ hrun.2⟩
      · exact fun hrest => ⟨hgives, hsame.symm ▸ hrest.2⟩
    · exact ⟨fun hrun => absurd heq hrun.1, fun hrest => absurd hrest.1 hfile⟩

end Descriptors

open Descriptors

/-- No run is as it should be. No file gets the descriptor of the preopened directory exactly if no file is opened
at all, and of a descriptor the functions say what it is exactly if it is one of those in `Tells`: not if it is
closed. -/
theorem descriptors_confused (calls : List WasiCall) :
    ¬(Along step GivesOther fresh calls ∧ Always step AllClassified fresh calls) ∧
      (Along step GivesOther fresh calls ↔ ∀ c ∈ calls, c.FindsNothing) ∧
      ∀ (s : Descriptors) (i : Int32), s.Classified i ↔ 3 ≤ i.toInt ∧ s.Tells i.toInt := by
  refine ⟨?_, along_givesOther_iff calls, classified_iff⟩
  rintro ⟨-, hall⟩
  -- At the start descriptor 4 is closed, and is said to be a file.
  have htells := ((classified_iff fresh 4).mp (hall.head 4 (by decide))).2
  rcases htells with hthree | hbig
  · exact absurd hthree (by decide)
  · exact absurd hbig (by decide)

/-- The first file that is opened gets descriptor 3. -/
theorem first_file_is_directory :
    ¬(Along step GivesOther fresh [.fsOpen (some (12, Inode.zero))] ∧
      Always step AllClassified fresh [.fsOpen (some (12, Inode.zero))]) := by
  rintro ⟨hrun, -⟩
  exact hrun.1 rfl

end Sandflea
