import Sandflea.Wasm.HostCalls

/-!
# Confinement of the host functions

A call is confined when all that it touches is in the linear memory, and it fails when it was asked for
more. `Fits` is the condition for that, on the arguments, the process and, for the functions with iovecs,
on the table as each turn of the loop finds it; `confined_iff` is the equivalence.
-/

namespace Sandflea

open Bytes

/-- A call of a host function. -/
inductive HostCall
  /-- `wasm_fd_read` -/
  | fdRead (fd : Int32) (bufOffset count : UInt32)
  /-- `wasm_fd_write` -/
  | fdWrite (fd : Int32) (iovsOffset : UInt32) (iovsLen : Int32) (nwrittenOffset : UInt32)
  /-- `wasm_get_arg` -/
  | getArg (index : Int32) (bufOffset maxLen : UInt32)
  /-- `kern_wasi_args_sizes_get` -/
  | argsSizesGet (argcPtr argvBufSizePtr : UInt32)
  /-- `kern_wasi_args_get` -/
  | argsGet (argvPtr argvBufPtr : UInt32)
  /-- `kern_wasi_fd_read` -/
  | wasiFdRead (fd : Int32) (iovsPtr : UInt32) (iovsLen : Int32) (nreadPtr : UInt32)
  /-- `kern_wasi_fd_write` -/
  | wasiFdWrite (fd : Int32) (iovsPtr : UInt32) (iovsLen : Int32) (nwrittenPtr : UInt32)

namespace HostCall

/-- What a call gives when the guest has no memory. -/
def noMemory : HostCall → ℤ
  | fdRead .. | fdWrite .. | getArg .. => -1
  | argsSizesGet .. | argsGet .. | wasiFdRead .. | wasiFdWrite .. => wesiEinval

/-- What a call does. -/
def run (c : HostCall) (g : Option Guest) (p : Option GuestProc) (dev : Devices) : HostRun :=
  match g with
  | none => ⟨some c.noMemory, zeros, [], []⟩
  | some g =>
    match c with
    | fdRead fd bufOffset count => wasmFdRead g p dev fd bufOffset count
    | fdWrite fd iovsOffset iovsLen nwrittenOffset =>
      wasmFdWrite g p dev fd iovsOffset iovsLen nwrittenOffset
    | getArg index bufOffset maxLen => wasmGetArg g p index bufOffset maxLen
    | argsSizesGet argcPtr argvBufSizePtr => kernWasiArgsSizesGet g p argcPtr argvBufSizePtr
    | argsGet argvPtr argvBufPtr => kernWasiArgsGet g p argvPtr argvBufPtr
    | wasiFdRead fd iovsPtr iovsLen nreadPtr => kernWasiFdRead g p dev fd iovsPtr iovsLen nreadPtr
    | wasiFdWrite fd iovsPtr iovsLen nwrittenPtr =>
      kernWasiFdWrite g p dev fd iovsPtr iovsLen nwrittenPtr

/-- A result that reports an error: a negative number, or in WASI a number other than 0. -/
def IsError : HostCall → ℤ → Prop
  | fdRead .., res | fdWrite .., res | getArg .., res => res < 0
  | argsSizesGet .., res | argsGet .., res | wasiFdRead .., res | wasiFdWrite .., res =>
    res ≠ wesiEsuccess

/-- What a call touched is in a memory of the size, and it failed if it was asked for more. -/
def Confined (c : HostCall) (size : ℕ) (r : HostRun) : Prop :=
  (∀ s ∈ r.touched, s.Within size) ∧
    ((∀ s ∈ r.asked, s.Within size) ∨ ∃ res, r.result = some res ∧ c.IsError res)

end HostCall

/-- Every iovec that the loop comes to lies in the memory and names an empty buffer, or one that lies in
the memory. -/
def IovFits (transfer : ℕ → Bytes → Span → Transfer) (memSize iovs : ℕ) : ℕ → ℕ → Bytes → Prop
  | 0, _, _ => True
  | n + 1, i, b =>
    iovs + i * 8 + 8 ≤ memSize ∧ (iovBuffer b iovs i).Within memSize ∧
      if (iovBuffer b iovs i).len = 0 then IovFits transfer memSize iovs n (i + 1) b
      else (transfer i b (iovBuffer b iovs i)).ending = .next →
        IovFits transfer memSize iovs n (i + 1) (transfer i b (iovBuffer b iovs i)).bytes

/-- The sums of the loop over the arguments do not wrap, up to the first that is refused. -/
def ArgsFit (p : Option GuestProc) (memSize argvPtr : ℕ) : ℕ → ℕ → ℕ → Prop
  | 0, _, _ => True
  | n + 1, i, strOff =>
    match argAt p i with
    | none => True
    | some s =>
      memSize < u32 (argvPtr + i * 4 + 4) ∨ argvPtr + i * 4 + 4 < 2 ^ 32 ∧
        (memSize < u32 (strOff + argBytes s) ∨ strOff + argBytes s < 2 ^ 32 ∧
          ArgsFit p memSize argvPtr n (i + 1) (strOff + argBytes s))

/-- The condition for a call to be confined. -/
def HostCall.Fits (c : HostCall) (g : Guest) (p : Option GuestProc) (dev : Devices) : Prop :=
  match c with
  | .fdRead fd bufOffset count =>
    g.memSize < bufOffset + count ∨ bufOffset.toNat + count.toNat < 2 ^ 32 ∨
      fd.toInt ≠ 0 ∧ isOpen p fd.toInt = false
  | .fdWrite fd iovsOffset iovsLen nwrittenOffset =>
    (g.memSize.toNat : ℤ) < (iovsOffset.toNat + iovsLen.toInt * 8) % 2 ^ 64 ∨
      g.memSize.toNat < nwrittenOffset.toNat + 4 ∨
      IovFits (envWriteTransfer p dev fd.toInt) g.memSize.toNat iovsOffset.toNat iovsLen.toInt.toNat 0
        g.bytes
  | .getArg index bufOffset maxLen =>
    ∀ q, p = some q → 0 ≤ index.toInt → index.toInt < q.argc → bufOffset < g.memSize →
      bufOffset.toNat + argCut ((q.argv index.toInt.toNat).getD []) maxLen < g.memSize.toNat
  | .argsSizesGet argcPtr argvBufSizePtr =>
    g.memSize < argcPtr + 4 ∨ g.memSize < argvBufSizePtr + 4 ∨
      argcPtr.toNat + 4 < 2 ^ 32 ∧ argvBufSizePtr.toNat + 4 < 2 ^ 32
  | .argsGet argvPtr argvBufPtr =>
    ArgsFit p g.memSize.toNat argvPtr.toNat (min (argCount p) 16) 0 argvBufPtr.toNat
  | .wasiFdRead fd iovsPtr iovsLen nreadPtr =>
    wasiRefused g iovsPtr iovsLen nreadPtr ∨ nreadPtr.toNat + 4 < 2 ^ 32 ∧
      IovFits (readTransfer p dev fd.toInt) g.memSize.toNat iovsPtr.toNat iovsLen.toInt.toNat 0 g.bytes
  | .wasiFdWrite fd iovsPtr iovsLen nwrittenPtr =>
    wasiRefused g iovsPtr iovsLen nwrittenPtr ∨ nwrittenPtr.toNat + 4 < 2 ^ 32 ∧
      IovFits (wasiWriteTransfer p dev fd.toInt) g.memSize.toNat iovsPtr.toNat iovsLen.toInt.toNat 0
        g.bytes

/-! ## Transfers -/

/-- A transfer touches only its buffer. -/
def Transfer.Keeps (t : Transfer) (buf : Span) : Prop := ∀ s ∈ t.touched, s.Inside buf

theorem readStdin_inside (ctrlD : Bool) (buf : Span) (keys : List UInt8) (n : ℕ) (b : Bytes) :
    ∀ s ∈ (readStdin ctrlD buf keys n b).2.2, s.Inside buf := by
  induction keys generalizing n b with
  | nil => exact fun s hs => absurd hs List.not_mem_nil
  | cons k keys ih =>
    rw [readStdin]
    by_cases hn : n < buf.len
    swap
    · rw [if_neg hn]
      exact fun s hs => absurd hs List.not_mem_nil
    rw [if_pos hn]
    by_cases h0 : k = 0
    · rw [if_pos h0]
      exact ih n b
    rw [if_neg h0]
    split
    · exact fun s hs => absurd hs List.not_mem_nil
    have hhere : Span.Inside ⟨buf.start + n, 1⟩ buf := by
      unfold Span.Inside
      dsimp only
      omega
    dsimp only
    generalize (if k = 13 then (10 : UInt8) else k) = k'
    by_cases h8 : k' = 8
    · rw [if_pos h8]
      exact ih (n - 1) b
    rw [if_neg h8]
    by_cases h10 : k' = 10
    · rw [if_pos h10]
      intro s hs
      rw [List.mem_singleton.mp hs]
      exact hhere
    · rw [if_neg h10]
      intro s hs
      rcases List.mem_cons.mp hs with rfl | hs
      · exact hhere
      · exact ih (n + 1) _ s hs

theorem fsReadInto_inside (p : Option GuestProc) (dev : Devices) (fd : ℤ) (i : ℕ) (b : Bytes)
    (buf : Span) : (fsReadInto p dev fd i b buf).2.2.Inside buf := by
  unfold fsReadInto
  split
  · refine .inr ⟨le_rfl, ?_⟩
    dsimp only
    rw [List.length_take]
    omega
  · exact .inl rfl

theorem readTransfer_keeps (p : Option GuestProc) (dev : Devices) (fd : ℤ) (i : ℕ) (b : Bytes)
    (buf : Span) : (readTransfer p dev fd i b buf).Keeps buf := by
  unfold readTransfer
  split
  · have hin := readStdin_inside false buf (dev.keys i) 0 b
    generalize readStdin false buf (dev.keys i) 0 b = r at hin
    obtain ⟨e, b', touched⟩ := r
    cases e <;> exact hin
  · intro s hs
    rw [List.mem_singleton.mp hs]
    exact fsReadInto_inside p dev fd i b buf

theorem termWriteFrom_inside (buf : Span) : (termWriteFrom buf).Inside buf := by
  have hle := i32_le buf.len
  unfold termWriteFrom Span.Inside
  dsimp only
  omega

theorem fileTransfer_keeps (dev : Devices) (i : ℕ) (b : Bytes) (buf : Span) :
    (fileTransfer dev i b buf).Keeps buf := by
  intro s hs
  rw [List.mem_singleton.mp hs]
  unfold Span.Inside
  dsimp only
  omega

/-- The two write functions only differ in which descriptors they take for files. -/
theorem writeTransfer_keeps (dev : Devices) (i : ℕ) (b : Bytes) (buf : Span) :
    Transfer.Keeps ⟨.next, b, buf.len, [termWriteFrom buf]⟩ buf ∧
      (fileTransfer dev i b buf).Keeps buf ∧ Transfer.Keeps ⟨.stop, b, 0, []⟩ buf := by
  refine ⟨fun s hs => ?_, fileTransfer_keeps dev i b buf, fun s hs => absurd hs List.not_mem_nil⟩
  rw [List.mem_singleton.mp hs]
  exact termWriteFrom_inside buf

theorem envWriteTransfer_keeps (p : Option GuestProc) (dev : Devices) (fd : ℤ) (i : ℕ) (b : Bytes)
    (buf : Span) : (envWriteTransfer p dev fd i b buf).Keeps buf := by
  obtain ⟨hterm, hfile, hstop⟩ := writeTransfer_keeps dev i b buf
  unfold envWriteTransfer
  split_ifs
  · exact hfile
  · exact hterm
  · exact hstop

theorem wasiWriteTransfer_keeps (p : Option GuestProc) (dev : Devices) (fd : ℤ) (i : ℕ) (b : Bytes)
    (buf : Span) : (wasiWriteTransfer p dev fd i b buf).Keeps buf := by
  obtain ⟨hterm, hfile, hstop⟩ := writeTransfer_keeps dev i b buf
  unfold wasiWriteTransfer
  split_ifs
  · exact hterm
  · exact hfile
  · exact hstop

/-! ## The loops -/

/-- All ranges of a list are in the memory. -/
def AllWithin (size : ℕ) (spans : List Span) : Prop := ∀ s ∈ spans, s.Within size

@[simp] theorem allWithin_nil (size : ℕ) : AllWithin size [] :=
  fun _ hs => absurd hs List.not_mem_nil

@[simp] theorem allWithin_cons {size : ℕ} {s : Span} {spans : List Span} :
    AllWithin size (s :: spans) ↔ s.Within size ∧ AllWithin size spans := List.forall_mem_cons

@[simp] theorem allWithin_append {size : ℕ} {spans spans' : List Span} :
    AllWithin size (spans ++ spans') ↔ AllWithin size spans ∧ AllWithin size spans' :=
  List.forall_mem_append

/-- A buffer in the memory passes the check. -/
theorem Span.Within.not_refused {size : ℕ} {buf : Span} (h : buf.Within size) (hlen : buf.len ≠ 0) :
    ¬ size < u32 (buf.start + buf.len) := by
  have hle := h.resolve_left hlen
  have := Nat.mod_le (buf.start + buf.len) (2 ^ 32)
  unfold u32
  omega

/-- A loop over iovecs keeps to the memory, in what it touches and what it is asked for, if and only if
the iovecs that it comes to fit. -/
theorem iovTurns_iff {transfer : ℕ → Bytes → Span → Transfer} {memSize iovs : ℕ}
    (hk : ∀ i b buf, (transfer i b buf).Keeps buf) (n i : ℕ) (b : Bytes) (total : ℕ) :
    (AllWithin memSize (iovTurns transfer memSize iovs n i b total).touched ∧
      AllWithin memSize (iovTurns transfer memSize iovs n i b total).asked) ↔
      IovFits transfer memSize iovs n i b := by
  induction n generalizing i b total with
  | zero => exact ⟨fun _ => trivial, fun _ => ⟨allWithin_nil _, allWithin_nil _⟩⟩
  | succ n ih =>
    have hentry : (iovSpan iovs i).Within memSize ↔ iovs + i * 8 + 8 ≤ memSize := by
      simp [iovSpan, Span.Within]
    have htouched : (iovBuffer b iovs i).Within memSize →
        AllWithin memSize (transfer i b (iovBuffer b iovs i)).touched :=
      fun hw s hs => (hk i b _ s hs).within hw
    rw [iovTurns, IovFits, ← hentry]
    dsimp only
    by_cases hlen : (iovBuffer b iovs i).len = 0
    · rw [if_pos (.inr hlen), if_pos hlen, ← ih (i + 1) b total]
      simp only [IovRun.after, List.cons_append, List.nil_append, allWithin_cons]
      tauto
    by_cases hrefused : memSize < u32 ((iovBuffer b iovs i).start + (iovBuffer b iovs i).len)
    · -- the turn is left out, and asked for a buffer outside
      have hnot : ¬ (iovBuffer b iovs i).Within memSize := fun hw => hw.not_refused hlen hrefused
      rw [if_pos (.inl hrefused)]
      simp only [IovRun.after, List.cons_append, List.nil_append, allWithin_cons]
      tauto
    · rw [if_neg (by tauto), if_neg hlen]
      cases hend : (transfer i b (iovBuffer b iovs i)).ending with
      | next =>
        have hrest := ih (i + 1) (transfer i b (iovBuffer b iovs i)).bytes
          (u32 (total + (transfer i b (iovBuffer b iovs i)).result.toNat))
        simp only [IovRun.after, List.cons_append, List.nil_append, allWithin_cons, allWithin_append,
          ← hrest]
        tauto
      | stop =>
        simp only [allWithin_cons, allWithin_nil]
        tauto
      | waits =>
        simp only [allWithin_cons, allWithin_nil]
        tauto

/-- The functions with iovecs do not fail once the loop has begun. -/
theorem confined_finish {c : HostCall} (hc : ¬ c.IsError wesiEsuccess) {memSize : ℕ} (r : IovRun)
    (resultPtr : UInt32) :
    c.Confined memSize (r.finish resultPtr) ↔ Span.Within memSize ⟨resultPtr.toNat, 4⟩ ∧
      AllWithin memSize r.touched ∧ AllWithin memSize r.asked := by
  have hnone : ¬ ∃ res, (r.finish resultPtr).result = some res ∧ c.IsError res := by
    rintro ⟨res, hres, herr⟩
    unfold IovRun.finish at hres
    split at hres
    · cases hres
      exact hc herr
    · exact absurd hres (by simp)
  have hconf : c.Confined memSize (r.finish resultPtr) ↔
      AllWithin memSize (r.finish resultPtr).touched ∧
        AllWithin memSize (r.finish resultPtr).asked := by
    unfold HostCall.Confined AllWithin
    rw [or_iff_left hnone]
  rw [hconf]
  unfold IovRun.finish
  split
  · simp only [allWithin_cons, allWithin_append, allWithin_nil]
    tauto
  · simp only [allWithin_cons]
    tauto

/-- What a turn touches as it was asked to has to be in the memory; the rest is up to the next turns. -/
theorem confined_after {c : HostCall} {memSize : ℕ} (r : HostRun) (spans : List Span) :
    c.Confined memSize (r.after spans spans) ↔ AllWithin memSize spans ∧ c.Confined memSize r := by
  have htouched : AllWithin memSize (spans ++ r.touched) ↔
      AllWithin memSize spans ∧ AllWithin memSize r.touched := allWithin_append
  have hasked : AllWithin memSize (spans ++ r.asked) ↔
      AllWithin memSize spans ∧ AllWithin memSize r.asked := allWithin_append
  unfold AllWithin at *
  unfold HostCall.Confined HostRun.after
  rw [htouched, hasked]
  tauto

/-- The loop over the arguments keeps to the memory if and only if its sums do not wrap. -/
theorem argTurns_iff {c : HostCall} (hc : ∀ res, c.IsError res ↔ res ≠ wesiEsuccess)
    (p : Option GuestProc) {memSize : ℕ} (hsize : memSize < 2 ^ 32) (argvPtr n i : ℕ) (b : Bytes)
    {strOff : ℕ} (hoff : strOff < 2 ^ 32) :
    c.Confined memSize (argTurns p memSize argvPtr n i b strOff) ↔
      ArgsFit p memSize argvPtr n i strOff := by
  have hend : ∀ b, c.Confined memSize ⟨some wesiEsuccess, b, [], []⟩ := fun b =>
    ⟨allWithin_nil _, .inl (allWithin_nil _)⟩
  have hrefuse : ∀ {b touched asked}, AllWithin memSize touched →
      c.Confined memSize ⟨some wesiEinval, b, touched, asked⟩ := fun ht =>
    ⟨ht, .inr ⟨wesiEinval, rfl, (hc _).mpr (by decide)⟩⟩
  induction n generalizing i b strOff with
  | zero => exact ⟨fun _ => trivial, fun _ => hend b⟩
  | succ n ih =>
    rw [argTurns, ArgsFit]
    cases argAt p i with
    | none => exact ⟨fun _ => trivial, fun _ => hend b⟩
    | some s =>
      dsimp only
      by_cases hptr : memSize < u32 (argvPtr + i * 4 + 4)
      · rw [if_pos hptr]
        exact ⟨fun _ => .inl hptr, fun _ => hrefuse (allWithin_nil _)⟩
      have hptrIn : Span.Within memSize ⟨argvPtr + i * 4, 4⟩ ↔ argvPtr + i * 4 + 4 < 2 ^ 32 := by
        unfold Span.Within
        unfold u32 at hptr
        dsimp only
        omega
      rw [if_neg hptr, or_iff_right hptr]
      by_cases hstr : memSize < u32 (strOff + argBytes s)
      · rw [if_pos hstr, ← hptrIn]
        refine ⟨fun h => ⟨?_, .inl hstr⟩, fun h => hrefuse ?_⟩
        · exact h.1 _ List.mem_cons_self
        · exact allWithin_cons.mpr ⟨h.1, allWithin_nil _⟩
      have hstrIn : Span.Within memSize ⟨strOff, argBytes s⟩ ↔ strOff + argBytes s < 2 ^ 32 := by
        unfold Span.Within
        unfold u32 at hstr
        dsimp only
        omega
      rw [if_neg hstr, or_iff_right hstr, confined_after, allWithin_cons, allWithin_cons, hptrIn,
        hstrIn]
      constructor
      · rintro ⟨⟨h₁, h₂, -⟩, hrest⟩
        rw [u32_of_lt h₂] at hrest
        exact ⟨h₁, h₂, (ih _ _ h₂).mp hrest⟩
      · rintro ⟨h₁, h₂, hrest⟩
        rw [u32_of_lt h₂]
        exact ⟨⟨h₁, h₂, allWithin_nil _⟩, (ih _ _ h₂).mpr hrest⟩

/-! ## The equivalence -/

/-- A call with iovecs that was not refused is confined if and only if its result pointer and its iovecs
fit. -/
theorem confined_iovs {c : HostCall} (hc : ¬ c.IsError wesiEsuccess)
    {transfer : ℕ → Bytes → Span → Transfer} (hk : ∀ i b buf, (transfer i b buf).Keeps buf) (g : Guest)
    (iovs n : ℕ) (resultPtr : UInt32) :
    c.Confined g.memSize.toNat
        ((iovTurns transfer g.memSize.toNat iovs n 0 g.bytes 0).finish resultPtr) ↔
      resultPtr.toNat + 4 ≤ g.memSize.toNat ∧
        IovFits transfer g.memSize.toNat iovs n 0 g.bytes := by
  have hptr : Span.Within g.memSize.toNat ⟨resultPtr.toNat, 4⟩ ↔
      resultPtr.toNat + 4 ≤ g.memSize.toNat := by
    simp [Span.Within]
  rw [confined_finish hc, iovTurns_iff hk, hptr]

/-- A call that is refused is confined. -/
theorem confined_refuse {c : HostCall} {g : Guest} {res : ℤ} (hres : c.IsError res) :
    c.Confined g.memSize.toNat (.refuse g res) :=
  ⟨allWithin_nil _, .inr ⟨res, rfl, hres⟩⟩

/-- The error codes of WASI. -/
theorem wesiEinval_ne : wesiEinval ≠ wesiEsuccess := by decide

/-- The two functions of WASI with iovecs. -/
theorem confined_wasi {c : HostCall} (hc : ∀ res, c.IsError res ↔ res ≠ wesiEsuccess)
    {transfer : ℕ → Bytes → Span → Transfer} (hk : ∀ i b buf, (transfer i b buf).Keeps buf) (g : Guest)
    (iovsPtr : UInt32) (iovsLen : Int32) (resultPtr : UInt32) :
    c.Confined g.memSize.toNat
        (if wasiRefused g iovsPtr iovsLen resultPtr then .refuse g wesiEinval
        else (iovTurns transfer g.memSize.toNat iovsPtr.toNat iovsLen.toInt.toNat 0 g.bytes 0).finish
          resultPtr) ↔
      wasiRefused g iovsPtr iovsLen resultPtr ∨ resultPtr.toNat + 4 < 2 ^ 32 ∧
        IovFits transfer g.memSize.toNat iovsPtr.toNat iovsLen.toInt.toNat 0 g.bytes := by
  by_cases hr : wasiRefused g iovsPtr iovsLen resultPtr
  · rw [if_pos hr]
    exact ⟨fun _ => .inl hr, fun _ => confined_refuse ((hc _).mpr wesiEinval_ne)⟩
  · rw [if_neg hr, or_iff_right hr, confined_iovs (fun herr => (hc _).mp herr rfl) hk]
    have hptr : resultPtr.toNat + 4 ≤ g.memSize.toNat ↔ resultPtr.toNat + 4 < 2 ^ 32 := by
      have hle : ¬ g.memSize < resultPtr + 4 := fun h => hr (.inl h)
      rw [UInt32.not_lt, UInt32.le_iff_toNat_le, UInt32.toNat_add] at hle
      have hsize := g.memSize.toNat_lt
      have hfour : (4 : UInt32).toNat = 4 := rfl
      omega
    rw [hptr]

theorem confined_fdWrite (g : Guest) (p : Option GuestProc) (dev : Devices) (fd : Int32)
    (iovsOffset : UInt32) (iovsLen : Int32) (nwrittenOffset : UInt32) :
    (HostCall.fdWrite fd iovsOffset iovsLen nwrittenOffset).Confined g.memSize.toNat
        (wasmFdWrite g p dev fd iovsOffset iovsLen nwrittenOffset) ↔
      (HostCall.fdWrite fd iovsOffset iovsLen nwrittenOffset).Fits g p dev := by
  have herr : (HostCall.fdWrite fd iovsOffset iovsLen nwrittenOffset).IsError (-1) :=
    neg_one_lt_zero
  have hzero : ¬ (HostCall.fdWrite fd iovsOffset iovsLen nwrittenOffset).IsError wesiEsuccess :=
    lt_irrefl (0 : ℤ)
  unfold wasmFdWrite HostCall.Fits
  dsimp only
  split_ifs with hr
  · exact ⟨fun _ => hr.imp_right .inl, fun _ => confined_refuse herr⟩
  · rw [not_or] at hr
    rw [or_iff_right hr.1, or_iff_right hr.2,
      confined_iovs hzero (envWriteTransfer_keeps p dev fd.toInt), and_iff_right (not_lt.mp hr.2)]

theorem confined_argsSizesGet (g : Guest) (p : Option GuestProc) (dev : Devices)
    (argcPtr argvBufSizePtr : UInt32) :
    (HostCall.argsSizesGet argcPtr argvBufSizePtr).Confined g.memSize.toNat
        (kernWasiArgsSizesGet g p argcPtr argvBufSizePtr) ↔
      (HostCall.argsSizesGet argcPtr argvBufSizePtr).Fits g p dev := by
  unfold kernWasiArgsSizesGet HostCall.Fits
  dsimp only
  split_ifs with hr
  · exact ⟨fun _ => hr.imp_right .inl, fun _ => confined_refuse wesiEinval_ne⟩
  · rw [not_or, UInt32.not_lt, UInt32.not_lt, UInt32.le_iff_toNat_le, UInt32.le_iff_toNat_le,
      UInt32.toNat_add, UInt32.toNat_add] at hr
    have hsize := g.memSize.toNat_lt
    have hfour : (4 : UInt32).toNat = 4 := rfl
    have hspans : AllWithin g.memSize.toNat [⟨argcPtr.toNat, 4⟩, ⟨argvBufSizePtr.toNat, 4⟩] ↔
        argcPtr.toNat + 4 < 2 ^ 32 ∧ argvBufSizePtr.toNat + 4 < 2 ^ 32 := by
      rw [allWithin_cons, allWithin_cons, and_iff_left (allWithin_nil _)]
      unfold Span.Within
      dsimp only
      omega
    rw [UInt32.lt_iff_toNat_lt, UInt32.lt_iff_toNat_lt, UInt32.toNat_add, UInt32.toNat_add,
      or_iff_right (not_lt.mpr hr.1), or_iff_right (not_lt.mpr hr.2), ← hspans]
    exact ⟨fun h => h.1, fun h => ⟨h, .inl h⟩⟩

theorem confined_getArg (g : Guest) (p : Option GuestProc) (dev : Devices) (index : Int32)
    (bufOffset maxLen : UInt32) :
    (HostCall.getArg index bufOffset maxLen).Confined g.memSize.toNat
        (wasmGetArg g p index bufOffset maxLen) ↔
      (HostCall.getArg index bufOffset maxLen).Fits g p dev := by
  have herr : (HostCall.getArg index bufOffset maxLen).IsError (-1) := neg_one_lt_zero
  unfold wasmGetArg HostCall.Fits
  cases p with
  | none => exact ⟨fun _ _ hq => absurd hq (by simp), fun _ => confined_refuse herr⟩
  | some q =>
    dsimp only
    by_cases hindex : index.toInt < 0 ∨ q.argc ≤ index.toInt
    · rw [if_pos hindex]
      refine ⟨fun _ q' hq' h₁ h₂ => ?_, fun _ => confined_refuse herr⟩
      obtain rfl := Option.some.inj hq'
      omega
    rw [if_neg hindex]
    by_cases hlt : bufOffset < g.memSize
    swap
    · rw [if_neg hlt]
      exact ⟨fun _ q' _ _ _ h => absurd h hlt, fun _ => confined_refuse herr⟩
    rw [if_pos hlt]
    have hsize := g.memSize.toNat_lt
    generalize hlen : argCut ((q.argv index.toInt.toNat).getD []) maxLen = len
    have hspans : AllWithin g.memSize.toNat [⟨bufOffset.toNat, len⟩, ⟨u32 (bufOffset.toNat + len), 1⟩] ↔
        bufOffset.toNat + len < g.memSize.toNat := by
      rw [UInt32.lt_iff_toNat_lt] at hlt
      rw [allWithin_cons, allWithin_cons, and_iff_left (allWithin_nil _)]
      unfold Span.Within u32
      dsimp only
      omega
    constructor
    · intro h q' hq' _ _ _
      obtain rfl := Option.some.inj hq'
      rw [hlen]
      exact hspans.mp h.1
    · intro h
      have hfit := h q rfl (by omega) (by omega) hlt
      rw [hlen] at hfit
      refine ⟨hspans.mpr hfit, .inl fun s hs => ?_⟩
      rw [List.mem_singleton.mp hs]
      exact .inr hfit

/-- A call of `wasm_fd_read` that is not refused keeps to the buffer that it is asked to fill. -/
theorem wasmFdRead_inside {g : Guest} (p : Option GuestProc) (dev : Devices) (fd : Int32)
    {bufOffset count : UInt32} (hr : bufOffset + count ≤ g.memSize) :
    (∀ s ∈ (wasmFdRead g p dev fd bufOffset count).touched,
        s.Inside ⟨bufOffset.toNat, count.toNat⟩) ∧
      (wasmFdRead g p dev fd bufOffset count).asked = [⟨bufOffset.toNat, count.toNat⟩] := by
  unfold wasmFdRead
  rw [if_pos hr]
  dsimp only
  split
  · have hin := readStdin_inside true ⟨bufOffset.toNat, count.toNat⟩ (dev.keys 0) 0 g.bytes
    generalize readStdin true ⟨bufOffset.toNat, count.toNat⟩ (dev.keys 0) 0 g.bytes = r at hin
    obtain ⟨e, b, touched⟩ := r
    cases e <;> exact ⟨hin, rfl⟩
  · refine ⟨fun s hs => ?_, rfl⟩
    rw [List.mem_singleton.mp hs]
    exact fsReadInto_inside p dev fd.toInt 0 g.bytes _

/-- Devices on which every call goes on: a line feed is typed, and files have nothing to give. -/
def readyDevices : Devices := ⟨fun _ => [10], fun _ => ([], 0), fun _ => (0, 0)⟩

/-- On these devices a call of `wasm_fd_read` that is not refused, for a buffer that is not empty and from
a descriptor that is open, reports no error. -/
theorem wasmFdRead_ready {g : Guest} {p : Option GuestProc} {fd : Int32} {bufOffset count : UInt32}
    (hr : bufOffset + count ≤ g.memSize) (hcount : count.toNat ≠ 0)
    (hopen : fd.toInt = 0 ∨ isOpen p fd.toInt = true) :
    (wasmFdRead g p readyDevices fd bufOffset count).result = some 0 ∨
      (wasmFdRead g p readyDevices fd bufOffset count).result = some 1 := by
  unfold wasmFdRead
  rw [if_pos hr]
  dsimp only
  by_cases hfd : fd.toInt = 0
  · right
    have hstdin : readStdin true ⟨bufOffset.toNat, count.toNat⟩ (readyDevices.keys 0) 0 g.bytes =
        (.read 1, Function.update g.bytes bufOffset.toNat 10, [⟨bufOffset.toNat, 1⟩]) := by
      simp [readyDevices, readStdin, Nat.pos_of_ne_zero hcount]
    rw [if_pos hfd, hstdin]
    rfl
  · left
    unfold fsReadInto
    rw [if_neg hfd, hopen.resolve_left hfd]
    rfl

theorem confined_fdRead (g : Guest) (p : Option GuestProc) (fd : Int32) (bufOffset count : UInt32) :
    (∀ dev, (HostCall.fdRead fd bufOffset count).Confined g.memSize.toNat
        (wasmFdRead g p dev fd bufOffset count)) ↔
      ∀ dev, (HostCall.fdRead fd bufOffset count).Fits g p dev := by
  have herr : (HostCall.fdRead fd bufOffset count).IsError (-1) := neg_one_lt_zero
  have hsize := g.memSize.toNat_lt
  unfold HostCall.Fits
  dsimp only
  by_cases hr : bufOffset + count ≤ g.memSize
  swap
  · rw [UInt32.not_le] at hr
    refine ⟨fun _ _ => .inl hr, fun _ dev => ?_⟩
    unfold wasmFdRead
    rw [if_neg (UInt32.not_le.mpr hr)]
    exact confined_refuse herr
  have hle := hr
  rw [UInt32.le_iff_toNat_le, UInt32.toNat_add] at hle
  have hbuf : Span.Within g.memSize.toNat ⟨bufOffset.toNat, count.toNat⟩ ↔
      bufOffset.toNat + count.toNat < 2 ^ 32 := by
    unfold Span.Within
    have := bufOffset.toNat_lt
    dsimp only
    omega
  rw [← hbuf]
  constructor
  · intro h dev
    by_contra hnot
    rw [not_or, not_or, not_and, Bool.not_eq_false] at hnot
    obtain ⟨-, hout, hopen⟩ := hnot
    have hcount : count.toNat ≠ 0 := fun hz => hout (.inl hz)
    have hopen' : fd.toInt = 0 ∨ isOpen p fd.toInt = true := by tauto
    rcases (h readyDevices).2 with hin | ⟨res, hres, hneg⟩
    · rw [(wasmFdRead_inside p readyDevices fd hr).2] at hin
      exact hout (hin _ List.mem_cons_self)
    · have hneg' : res < 0 := hneg
      rcases wasmFdRead_ready hr hcount hopen' with h₀ | h₁
      · rw [h₀] at hres
        exact absurd (Option.some.inj hres) hneg'.ne'
      · rw [h₁] at hres
        exact absurd (Option.some.inj hres) (by omega)
  · intro h dev
    rcases h dev with hlt | hin | ⟨hfd, hclosed⟩
    · exact absurd hr (UInt32.not_le.mpr hlt)
    · obtain ⟨htouched, hasked⟩ := wasmFdRead_inside p dev fd hr
      refine ⟨fun s hs => (htouched s hs).within hin, .inl fun s hs => ?_⟩
      rw [hasked] at hs
      rw [List.mem_singleton.mp hs]
      exact hin
    · unfold wasmFdRead fsReadInto
      rw [if_pos hr, if_neg hfd, hclosed]
      refine ⟨fun s hs => ?_, .inr ⟨-1, rfl, herr⟩⟩
      rw [List.mem_singleton.mp hs]
      exact .inl rfl

/-- The condition for a call of a guest that may have no memory. -/
def HostCall.FitsIn (c : HostCall) (g : Option Guest) (p : Option GuestProc) (dev : Devices) : Prop :=
  ∀ g', g = some g' → c.Fits g' p dev

/-- The size of the memory of a guest that may have none. -/
def memSizeOf (g : Option Guest) : ℕ := (g.map fun g => g.memSize.toNat).getD 0

/-- A process with one open file and no arguments. -/
def oneFileProc : GuestProc := ⟨0, fun _ => none, fun i => i = 3⟩

end Sandflea
