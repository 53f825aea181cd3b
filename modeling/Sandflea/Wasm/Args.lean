import Sandflea.Wasm.HostCalls

/-!
# The arguments of a program

A guest asks `args_sizes_get` how many arguments there are and how many bytes they need, makes room, and has
`args_get` write the pointers and the strings there. The two agree exactly if there are at most 16 arguments,
none of them is missing, and a `u32` holds their size (`args_agree_iff`): a missing one is counted by the
first function and ends the loop of the second.
-/

namespace Sandflea

open Bytes

/-- The bytes of some arguments with their ends -/
def argsSize (args : List (List UInt8)) : ℕ := (args.map fun s => s.length + 1).sum

@[simp] theorem argsSize_nil : argsSize [] = 0 := rfl

@[simp] theorem argsSize_cons (s : List UInt8) (args : List (List UInt8)) :
    argsSize (s :: args) = s.length + 1 + argsSize args := rfl

/-- A string with its end is in a buffer. -/
def HoldsString (b : Bytes) (o : ℕ) (s : List UInt8) : Prop :=
  (∀ j x, s[j]? = some x → b (o + j) = x) ∧ b (o + s.length) = 0

/-- The ranges for some arguments from the `i`-th on: a pointer and a string for each, one string after the
other -/
def argSpans (argvPtr : ℕ) : ℕ → ℕ → List (List UInt8) → List Span
  | _, _, [] => []
  | i, strOff, s :: args =>
    ⟨argvPtr + i * 4, 4⟩ :: ⟨strOff, s.length + 1⟩ :: argSpans argvPtr (i + 1) (strOff + s.length + 1) args

/-- What `args_sizes_get` reports: a call of it that succeeds, with two pointers that are apart, leaves the
numbers there. -/
def Reports (p : Option GuestProc) (argc size : ℕ) : Prop :=
  ∃ (g : Guest) (argcPtr sizePtr : UInt32),
    (argcPtr.toNat + 4 ≤ sizePtr.toNat ∨ sizePtr.toNat + 4 ≤ argcPtr.toNat) ∧
      (kernWasiArgsSizesGet g p argcPtr sizePtr).result = some wesiEsuccess ∧
      u32At (kernWasiArgsSizesGet g p argcPtr sizePtr).bytes argcPtr.toNat = argc ∧
      u32At (kernWasiArgsSizesGet g p argcPtr sizePtr).bytes sizePtr.toNat = size

/-- Room for the pointers and for the strings, inside the memory and apart -/
structure Room (memSize argvPtr argvBuf argc size : ℕ) : Prop where
  pointers : argvPtr + 4 * argc ≤ memSize
  strings : argvBuf + size ≤ memSize
  apart : argvPtr + 4 * argc ≤ argvBuf ∨ argvBuf + size ≤ argvPtr

/-- A call of `args_get` did what is claimed: it succeeded and wrote exactly the pointers and the strings of all
arguments, and each pointer is that of the string. -/
structure CopiesArgs (p : Option GuestProc) (g : Guest) (r : HostRun) (argvPtr argvBuf argc size : ℕ)
    (args : List (List UInt8)) : Prop where
  result : r.result = some wesiEsuccess
  count : args.length = argc
  length : argsSize args = size
  vector : ∀ i < argc, argAt p i = args[i]?
  touched : r.touched = argSpans argvPtr 0 argvBuf args
  inside : ∀ i s, args[i]? = some s → argvBuf ≤ u32At r.bytes (argvPtr + i * 4) ∧
    u32At r.bytes (argvPtr + i * 4) + s.length + 1 ≤ argvBuf + size
  copies : ∀ i s, args[i]? = some s → HoldsString r.bytes (u32At r.bytes (argvPtr + i * 4)) s
  kept : ∀ a, (∀ t ∈ r.touched, a < t.start ∨ t.start + t.len ≤ a) → r.bytes a = g.bytes a

/-- The arguments that there are, up to the first that is missing -/
def argList (p : Option GuestProc) : ℕ → ℕ → List (List UInt8)
  | 0, _ => []
  | n + 1, i =>
    match argAt p i with
    | none => []
    | some s => s :: argList p n (i + 1)

/-- The condition: at most 16 arguments, none missing, with a size that a `u32` holds -/
def ArgsComplete (p : Option GuestProc) : Prop :=
  argCount p ≤ 16 ∧ (∀ i < argCount p, (argAt p i).isSome) ∧ argsSize (argList p (argCount p) 0) < 2 ^ 32

/-! ## The loop of `args_get` -/

section

variable {p : Option GuestProc} {memSize argvPtr : ℕ}

/-- The string and its end are in the buffer after a copy. -/
theorem holdsString_copyInto (b : Bytes) (o : ℕ) (s : List UInt8) :
    HoldsString (copyInto b o (fun i => s.getD i 0) 0 (s.length + 1)) o s := by
  constructor
  · intro j x hx
    have hj := (List.getElem?_eq_some_iff.mp hx).1
    rw [copyInto_of_mem (by omega) (by omega)]
    simp [List.getD_eq_getElem?_getD, hx]
  · rw [copyInto_of_mem (by omega) (by omega)]
    simp [List.getD_eq_getElem?_getD]

theorem HoldsString.congr {b c : Bytes} {o : ℕ} {s : List UInt8} (h : HoldsString b o s)
    (hbc : ∀ a, o ≤ a → a < o + s.length + 1 → c a = b a) : HoldsString c o s := by
  constructor
  · intro j x hx
    have hj := (List.getElem?_eq_some_iff.mp hx).1
    rw [hbc (o + j) (by omega) (by omega)]
    exact h.1 j x hx
  · rw [hbc (o + s.length) (by omega) (by omega)]
    exact h.2

/-- What the loop leaves, from the `i`-th argument on -/
structure Copied (b : Bytes) (r : HostRun) (argvPtr i strOff : ℕ) (args : List (List UInt8)) : Prop where
  result : r.result = some wesiEsuccess
  touched : r.touched = argSpans argvPtr i strOff args
  copies : ∀ k s, args[k]? = some s → strOff ≤ u32At r.bytes (argvPtr + (i + k) * 4) ∧
    u32At r.bytes (argvPtr + (i + k) * 4) + s.length + 1 ≤ strOff + argsSize args ∧
    HoldsString r.bytes (u32At r.bytes (argvPtr + (i + k) * 4)) s
  kept : ∀ a, (a < argvPtr + i * 4 ∨ argvPtr + (i + args.length) * 4 ≤ a) →
    (a < strOff ∨ strOff + argsSize args ≤ a) → r.bytes a = b a

/-- With room for them, the loop copies all arguments. -/
theorem argTurns_copied (hsize : memSize < 2 ^ 32) (args : List (List UInt8)) (i strOff : ℕ) (b : Bytes)
    (hargs : ∀ k < args.length, argAt p (i + k) = args[k]?)
    (hptr : argvPtr + (i + args.length) * 4 ≤ memSize) (hstr : strOff + argsSize args ≤ memSize)
    (hapart : argvPtr + (i + args.length) * 4 ≤ strOff ∨ strOff + argsSize args ≤ argvPtr + i * 4) :
    Copied b (argTurns p memSize argvPtr args.length i b strOff) argvPtr i strOff args := by
  induction args generalizing i strOff b with
  | nil => exact ⟨rfl, rfl, fun k s hs => by simp at hs, fun a _ _ => rfl⟩
  | cons s args ih =>
    rw [List.length_cons] at *
    rw [argsSize_cons] at *
    have harg : argAt p i = some s := hargs 0 (by omega)
    have hbytes : argBytes s = s.length + 1 := u32_of_lt (by omega)
    have hptrEnd : u32 (argvPtr + i * 4 + 4) = argvPtr + i * 4 + 4 := u32_of_lt (by omega)
    have hstrEnd : u32 (strOff + (s.length + 1)) = strOff + s.length + 1 := u32_of_lt (by omega)
    have hturn : argTurns p memSize argvPtr (args.length + 1) i b strOff =
        (argTurns p memSize argvPtr args.length (i + 1)
          (copyInto (putU32 b (argvPtr + i * 4) strOff) strOff (fun i => s.getD i 0) 0 (s.length + 1))
          (strOff + s.length + 1)).after [⟨argvPtr + i * 4, 4⟩, ⟨strOff, s.length + 1⟩]
          [⟨argvPtr + i * 4, 4⟩, ⟨strOff, s.length + 1⟩] := by
      rw [argTurns, harg]
      dsimp only
      rw [hbytes, hptrEnd, hstrEnd, if_neg (by omega), if_neg (by omega)]
    have hrest := ih (i + 1) (strOff + s.length + 1)
      (copyInto (putU32 b (argvPtr + i * 4) strOff) strOff (fun i => s.getD i 0) 0 (s.length + 1))
      (fun k hk => by rw [Nat.add_assoc, Nat.add_comm 1 k]; exact hargs (k + 1) (by omega))
      (by omega) (by omega) (by omega)
    rw [hturn]
    generalize argTurns p memSize argvPtr args.length (i + 1) _ (strOff + s.length + 1) = r at hrest ⊢
    -- the rest of the loop leaves the first pointer and the first string
    have hptr0 : u32At r.bytes (argvPtr + i * 4) = strOff := by
      have hsame : u32At r.bytes (argvPtr + i * 4) = u32At (putU32 b (argvPtr + i * 4) strOff) (argvPtr + i * 4) := by
        refine u32At_congr fun j hj => ?_
        rw [hrest.kept _ (by omega) (by omega), copyInto_of_not_mem (by omega)]
      rw [hsame, u32At_putU32, Nat.mod_eq_of_lt (by omega)]
    have hstr0 : HoldsString r.bytes strOff s :=
      (holdsString_copyInto (putU32 b (argvPtr + i * 4) strOff) strOff s).congr fun a ha ha' =>
        hrest.kept a (by omega) (by omega)
    refine ⟨hrest.result, ?_, fun k t ht => ?_, fun a ha ha' => ?_⟩
    · show [_, _] ++ r.touched = _
      rw [hrest.touched]
      rfl
    · cases k with
      | zero =>
        obtain rfl : s = t := Option.some.inj ht
        have hptr0 : u32At r.bytes (argvPtr + (i + 0) * 4) = strOff := hptr0
        rw [HostRun.after, argsSize_cons]
        dsimp only
        rw [hptr0]
        exact ⟨le_rfl, by omega, hstr0⟩
      | succ k =>
        obtain ⟨hge, hle, hholds⟩ := hrest.copies k t ht
        rw [argsSize_cons, show i + (k + 1) = i + 1 + k by omega]
        exact ⟨by show _ ≤ u32At r.bytes _; omega, by show u32At r.bytes _ + _ + _ ≤ _; omega, hholds⟩
    · rw [List.length_cons] at ha
      rw [argsSize_cons] at ha'
      show r.bytes a = b a
      rw [hrest.kept a (by omega) (by omega), copyInto_of_not_mem (by omega), putU32_of_ne (by omega)]

/-- The loop writes at most a pointer and a string in each turn. -/
theorem length_touched_argTurns (p : Option GuestProc) (memSize argvPtr n i : ℕ) (b : Bytes) (strOff : ℕ) :
    (argTurns p memSize argvPtr n i b strOff).touched.length ≤ 2 * n := by
  induction n generalizing i b strOff with
  | zero => exact Nat.zero_le _
  | succ n ih =>
    unfold argTurns
    split
    · exact Nat.zero_le _
    · dsimp only
      split_ifs
      · exact Nat.zero_le _
      · show 1 ≤ _
        omega
      · rw [HostRun.after, List.length_append]
        exact (Nat.add_le_add_left (ih (i + 1) _ _) 2).trans_eq (by omega)

/-- A byte outside the ranges is outside both buffers. -/
theorem outside_argSpans {a i strOff : ℕ} {args : List (List UInt8)}
    (h : ∀ t ∈ argSpans argvPtr i strOff args, a < t.start ∨ t.start + t.len ≤ a) :
    (a < argvPtr + i * 4 ∨ argvPtr + (i + args.length) * 4 ≤ a) ∧
      (a < strOff ∨ strOff + argsSize args ≤ a) := by
  induction args generalizing i strOff with
  | nil =>
    rw [List.length_nil, argsSize_nil]
    omega
  | cons s args ih =>
    have hptr : a < argvPtr + i * 4 ∨ argvPtr + i * 4 + 4 ≤ a := h ⟨argvPtr + i * 4, 4⟩ List.mem_cons_self
    have hstr : a < strOff ∨ strOff + (s.length + 1) ≤ a :=
      h ⟨strOff, s.length + 1⟩ (List.mem_cons_of_mem _ List.mem_cons_self)
    have hrest := ih fun t ht => h t (List.mem_cons_of_mem _ (List.mem_cons_of_mem _ ht))
    rw [List.length_cons, argsSize_cons]
    omega

theorem length_argSpans (i strOff : ℕ) (args : List (List UInt8)) :
    (argSpans argvPtr i strOff args).length = 2 * args.length := by
  induction args generalizing i strOff with
  | nil => rfl
  | cons s args ih =>
    show (argSpans argvPtr (i + 1) (strOff + s.length + 1) args).length + 1 + 1 = 2 * (args.length + 1)
    rw [ih]
    omega

/-! ## The reported numbers -/

/-- What `args_sizes_get` computes -/
def reportedSize (p : Option GuestProc) : ℕ :=
  (List.range (min (argCount p) 16)).foldl (fun n i => u32 (n + ((argAt p i).map argBytes).getD 0)) 0

theorem reportedSize_lt (p : Option GuestProc) : reportedSize p < 2 ^ 32 := by
  unfold reportedSize
  refine List.foldlRecOn (motive := fun n => n < 2 ^ 32) _ _ (by decide) fun n _ i _ => u32_lt _

/-- The numbers that a call of `args_sizes_get` leaves -/
theorem reports_iff (hargc : argCount p < 2 ^ 32) (argc size : ℕ) :
    Reports p argc size ↔ argc = argCount p ∧ size = reportedSize p := by
  have hread : ∀ (g : Guest) (argcPtr sizePtr : UInt32),
      (argcPtr.toNat + 4 ≤ sizePtr.toNat ∨ sizePtr.toNat + 4 ≤ argcPtr.toNat) →
      ¬ (g.memSize < argcPtr + 4 ∨ g.memSize < sizePtr + 4) →
      u32At (kernWasiArgsSizesGet g p argcPtr sizePtr).bytes argcPtr.toNat = argCount p ∧
        u32At (kernWasiArgsSizesGet g p argcPtr sizePtr).bytes sizePtr.toNat = reportedSize p := by
    intro g argcPtr sizePtr hapart hin
    rw [kernWasiArgsSizesGet, if_neg hin]
    dsimp only
    rw [u32At_putU32_of_disjoint (by omega), u32At_putU32, u32At_putU32, Nat.mod_eq_of_lt hargc]
    exact ⟨rfl, Nat.mod_eq_of_lt (reportedSize_lt p)⟩
  constructor
  · rintro ⟨g, argcPtr, sizePtr, hapart, hresult, hcount, hsize⟩
    have hin : ¬ (g.memSize < argcPtr + 4 ∨ g.memSize < sizePtr + 4) := by
      intro hout
      rw [kernWasiArgsSizesGet, if_pos hout] at hresult
      have hres : some wesiEinval = some wesiEsuccess := hresult
      exact absurd hres (by decide)
    obtain ⟨hcount', hsize'⟩ := hread g argcPtr sizePtr hapart hin
    exact ⟨hcount.symm.trans hcount', hsize.symm.trans hsize'⟩
  · rintro ⟨rfl, rfl⟩
    have hin : ¬ ((8 : UInt32) < 0 + 4 ∨ (8 : UInt32) < 4 + 4) := by decide
    obtain ⟨hcount, hsize⟩ := hread ⟨8, zeros⟩ 0 4 (by decide) hin
    refine ⟨⟨8, zeros⟩, 0, 4, by decide, ?_, hcount, hsize⟩
    rw [kernWasiArgsSizesGet, if_neg hin]

/-- With all arguments there, the list has all of them. -/
theorem argList_spec {n i : ℕ} (h : ∀ k < n, (argAt p (i + k)).isSome) :
    (argList p n i).length = n ∧ ∀ k < n, argAt p (i + k) = (argList p n i)[k]? := by
  induction n generalizing i with
  | zero => exact ⟨rfl, fun k hk => absurd hk (Nat.not_lt_zero k)⟩
  | succ n ih =>
    obtain ⟨s, hs⟩ := Option.isSome_iff_exists.mp (h 0 (by omega))
    have hlist : argList p (n + 1) i = s :: argList p n (i + 1) := by
      rw [argList, show argAt p i = some s from hs]
    obtain ⟨hlen, hall⟩ := ih (i := i + 1) fun k hk => by
      rw [Nat.add_assoc, Nat.add_comm 1 k]
      exact h (k + 1) (by omega)
    rw [hlist]
    refine ⟨by rw [List.length_cons, hlen], fun k hk => ?_⟩
    cases k with
    | zero => exact hs
    | succ k =>
      rw [List.getElem?_cons_succ, ← hall k (by omega), Nat.add_assoc, Nat.add_comm 1 k]

/-- A vector that agrees with a list up to its length is the list. -/
theorem argList_eq {args : List (List UInt8)} {i : ℕ} (h : ∀ k < args.length, argAt p (i + k) = args[k]?) :
    argList p args.length i = args := by
  have hsome : ∀ k < args.length, (argAt p (i + k)).isSome := by
    intro k hk
    rw [h k hk, List.getElem?_eq_getElem hk]
    rfl
  obtain ⟨hlen, hall⟩ := argList_spec hsome
  refine List.ext_getElem? fun k => ?_
  by_cases hk : k < args.length
  · rw [← hall k hk, h k hk]
  · rw [List.getElem?_eq_none (by omega), List.getElem?_eq_none (by omega)]

/-- The reported size is that of the arguments, if a `u32` holds it. -/
theorem foldl_argsSize {args : List (List UInt8)} {i total : ℕ}
    (h : ∀ k < args.length, argAt p (i + k) = args[k]?) (hlt : total + argsSize args < 2 ^ 32) :
    (List.range' i args.length).foldl (fun n i => u32 (n + ((argAt p i).map argBytes).getD 0)) total =
      total + argsSize args := by
  induction args generalizing i total with
  | nil => rfl
  | cons s args ih =>
    rw [argsSize_cons] at hlt ⊢
    have hs : argAt p i = some s := h 0 (Nat.succ_pos _)
    have hbytes : argBytes s = s.length + 1 := u32_of_lt (by omega)
    have hturn : u32 (total + ((argAt p i).map argBytes).getD 0) = total + (s.length + 1) := by
      rw [hs, Option.map_some, Option.getD_some, hbytes, u32_of_lt (by omega)]
    rw [List.length_cons, List.range'_succ, List.foldl_cons, hturn, ih _ (by omega), Nat.add_assoc]
    intro k hk
    rw [Nat.add_assoc, Nat.add_comm 1 k]
    exact h (k + 1) (by rw [List.length_cons]; omega)

theorem ArgsComplete.reportedSize_eq (h : ArgsComplete p) :
    reportedSize p = argsSize (argList p (argCount p) 0) := by
  obtain ⟨hle, hall, hlt⟩ := h
  obtain ⟨hlen, hargs⟩ := argList_spec (p := p) (n := argCount p) (i := 0) fun k hk => by
    rw [Nat.zero_add]
    exact hall k hk
  have hlt : 0 + argsSize (argList p (argCount p) 0) < 2 ^ 32 := by omega
  have hfold := foldl_argsSize (fun k hk => hargs k (hlen ▸ hk)) hlt
  rw [hlen, Nat.zero_add, ← List.range_eq_range'] at hfold
  rw [reportedSize, min_eq_left hle, hfold]

/-! ## Agreement -/

/-- With the reported room, `args_get` copies all arguments as they were counted, if and only if there are at most
16, none is missing, and a `u32` holds their size. -/
theorem args_agree_iff (g : Guest) (p : Option GuestProc) (hargc : argCount p < 2 ^ 31) (argc size : ℕ)
    (hreports : Reports p argc size) (argvPtr argvBuf : UInt32)
    (hroom : Room g.memSize.toNat argvPtr.toNat argvBuf.toNat argc size) :
    (∃ args, CopiesArgs p g (kernWasiArgsGet g p argvPtr argvBuf) argvPtr.toNat argvBuf.toNat argc size args) ↔
      ArgsComplete p := by
  obtain ⟨rfl, rfl⟩ := (reports_iff (by omega) argc size).mp hreports
  have hmem := g.memSize.toNat_lt
  constructor
  · rintro ⟨args, hcopies⟩
    have hvector : ∀ k < args.length, argAt p (0 + k) = args[k]? := fun k hk => by
      rw [Nat.zero_add]
      exact hcopies.vector k (hcopies.count ▸ hk)
    refine ⟨?_, fun i hi => ?_, ?_⟩
    · -- there are not more turns than 16
      have htouched := length_touched_argTurns p g.memSize.toNat argvPtr.toNat (min (argCount p) 16) 0 g.bytes
        argvBuf.toNat
      have hspans := congrArg List.length hcopies.touched
      rw [length_argSpans, hcopies.count] at hspans
      unfold kernWasiArgsGet at hspans
      omega
    · rw [hcopies.vector i hi, List.getElem?_eq_getElem (hcopies.count ▸ hi)]
      rfl
    · have hlist := argList_eq hvector
      rw [hcopies.count] at hlist
      rw [hlist, hcopies.length]
      exact reportedSize_lt p
  · intro h
    have hsize := h.reportedSize_eq
    obtain ⟨hle, hall, hlt⟩ := h
    obtain ⟨hlen, hargs⟩ := argList_spec (p := p) (n := argCount p) (i := 0) fun k hk => by
      rw [Nat.zero_add]
      exact hall k hk
    generalize argList p (argCount p) 0 = args at hlen hargs hsize hlt
    have hptr := hroom.pointers
    have hstr := hroom.strings
    have hapart := hroom.apart
    have hcopied : Copied g.bytes (argTurns p g.memSize.toNat argvPtr.toNat args.length 0 g.bytes argvBuf.toNat)
        argvPtr.toNat 0 argvBuf.toNat args :=
      argTurns_copied hmem args 0 argvBuf.toNat g.bytes (fun k hk => hargs k (hlen ▸ hk)) (by omega) (by omega)
        (by omega)
    have hrun : kernWasiArgsGet g p argvPtr argvBuf =
        argTurns p g.memSize.toNat argvPtr.toNat args.length 0 g.bytes argvBuf.toNat := by
      rw [kernWasiArgsGet, min_eq_left hle, hlen]
    rw [hrun]
    refine ⟨args, hcopied.result, hlen, hsize.symm, fun i hi => ?_, hcopied.touched, fun i s hs => ?_,
      fun i s hs => ?_, fun a ha => ?_⟩
    · have := hargs i hi
      rwa [Nat.zero_add] at this
    · obtain ⟨hge, hend, -⟩ := hcopied.copies i s hs
      rw [Nat.zero_add] at hge hend
      exact ⟨hge, hsize ▸ hend⟩
    · have := (hcopied.copies i s hs).2.2
      rwa [Nat.zero_add] at this
    · rw [hcopied.touched] at ha
      obtain ⟨hptrs, hstrs⟩ := outside_argSpans ha
      exact hcopied.kept a hptrs hstrs

end

/-- A program with two arguments, and room for them behind each other -/
def twoArgs : GuestProc := ⟨2, fun i => [[108, 115], [97]][i]?, fun _ => false⟩

theorem args_agree_twoArgs :
    (argCount (some twoArgs) < 2 ^ 31 ∧ Reports (some twoArgs) 2 5 ∧ Room 64 16 24 2 5) ∧
      ((∃ args, CopiesArgs (some twoArgs) ⟨64, zeros⟩ (kernWasiArgsGet ⟨64, zeros⟩ (some twoArgs) 16 24)
        16 24 2 5 args) ↔ ArgsComplete (some twoArgs)) := by
  have hargc : argCount (some twoArgs) < 2 ^ 31 := by decide
  have hreports : Reports (some twoArgs) 2 5 := (reports_iff (by decide) 2 5).mpr ⟨rfl, by decide⟩
  have hroom : Room 64 16 24 2 5 := ⟨by decide, by decide, by decide⟩
  exact ⟨⟨hargc, hreports, hroom⟩, args_agree_iff ⟨64, zeros⟩ (some twoArgs) hargc 2 5 hreports 16 24 hroom⟩

/-- With the first of two arguments missing, two are reported and no pointer is written. -/
theorem args_not_agree : ¬ ∀ (g : Guest) (p : Option GuestProc) (argc size : ℕ) (argvPtr argvBuf : UInt32),
    argCount p < 2 ^ 31 → Reports p argc size →
    Room g.memSize.toNat argvPtr.toNat argvBuf.toNat argc size →
    ∃ args, CopiesArgs p g (kernWasiArgsGet g p argvPtr argvBuf) argvPtr.toNat argvBuf.toNat argc size args := by
  intro h
  let p : GuestProc := ⟨2, fun i => if i = 1 then some [97] else none, fun _ => false⟩
  have hreports : Reports (some p) 2 2 := (reports_iff (by decide) 2 2).mpr ⟨rfl, by decide⟩
  obtain ⟨args, hcopies⟩ := h ⟨64, zeros⟩ (some p) 2 2 16 24 (by decide) hreports ⟨by decide, by decide, by decide⟩
  have hspans := congrArg List.length hcopies.touched
  rw [length_argSpans, hcopies.count] at hspans
  exact absurd hspans (by decide)

/-! ## Spawned programs -/

/-- The arguments of a process that `wasm_spawn` starts: at most 16 of those that are requested, of which
`str_dup_safe` copies some -/
def spawnArgs (requested : List (Option (List UInt8))) (copied fdOpen : ℕ → Bool) : GuestProc where
  argc := min requested.length 16
  argv i := if i < min requested.length 16 ∧ copied i then requested[i]?.join else none
  fdOpen := fdOpen

/-- For a spawned program the functions agree if all of the first 16 requested arguments are there and could be
copied, and a `u32` holds their size. -/
theorem argsComplete_spawnArgs (requested : List (Option (List UInt8))) (copied fdOpen : ℕ → Bool) :
    ArgsComplete (some (spawnArgs requested copied fdOpen)) ↔
      (∀ i < min requested.length 16, copied i = true ∧ requested[i]?.join.isSome) ∧
        argsSize (argList (some (spawnArgs requested copied fdOpen)) (min requested.length 16) 0) < 2 ^ 32 := by
  have hcount : argCount (some (spawnArgs requested copied fdOpen)) = min requested.length 16 := by
    show (min requested.length 16 : ℤ).toNat = min requested.length 16
    omega
  unfold ArgsComplete
  rw [hcount]
  refine ⟨fun h => ⟨fun i hi => ?_, h.2.2⟩, fun h => ⟨min_le_right _ _, fun i hi => ?_, h.2⟩⟩
  · have hsome := h.2.1 i hi
    unfold argAt spawnArgs at hsome
    simp only [Option.bind_some] at hsome
    split at hsome
    · exact ⟨(‹_ ∧ _›).2, hsome⟩
    · exact absurd hsome (by decide)
  · obtain ⟨hcopied, hsome⟩ := h.1 i hi
    show (if i < min requested.length 16 ∧ copied i then requested[i]?.join else none).isSome
    rw [if_pos ⟨hi, hcopied⟩]
    exact hsome

end Sandflea
