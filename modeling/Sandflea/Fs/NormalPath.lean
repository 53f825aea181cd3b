import Sandflea.Ext2.Image
import Sandflea.Ext2.Path
import Sandflea.Lib.Segments

/-!
# Normal paths

The normal form of a path behind a working directory (`normalPath`): the drive of the path, or else of the
working directory, and then the segments that `.` and `..` leave, each behind a slash. `fs_resolve_path`
has room for a prefix of 31 bytes, for 32 segments and for 511 bytes, copies the working directory for an
empty path, and takes a path behind the working directory `//` for a drive. `resolve_path_iff` says that
these are all the differences.
-/

namespace Sandflea

open Bytes Kern Segments

/-! ## The normal form -/

/-- The segments of a text that `.` and `..` leave -/
def normalSegments (text : Str) : List Str :=
  (segments slash text).foldl (push (· = str ".") (· = str "..")) []

/-- Segments at the root of a drive -/
def rooted (drive : Str) (segs : List Str) : Str :=
  drive ++ if segs = [] then [slash] else joined slash segs

/-- The drive prefix of the path, or else of the working directory -/
def drivePrefix (cwd driveName path : Str) : Str :=
  if hasDrive path then driveOf path
  else if hasDrive cwd then driveOf cwd
  else letterPrefix driveName

/-- What is looked up from the root of the drive -/
def pathText (cwd path : Str) : Str :=
  if hasDrive path then afterDrive path
  else if path.head? = some slash then path
  else (if hasDrive cwd then afterDrive cwd else cwd) ++ slash :: path

/-- The normal form of a path -/
def normalPath (cwd driveName path : Str) : Str :=
  rooted (drivePrefix cwd driveName path) (normalSegments (pathText cwd path))

/-- The path with what is put in front of it -/
def combinedText (cwd driveName path : Str) : Str :=
  if path = [] then cwd
  else if hasDrive path then path
  else if path.head? = some slash then
    (if hasDrive cwd then driveOf cwd else letterPrefix driveName) ++ path
  else cwd ++ (if cwd.getLast? = some slash then [] else [slash]) ++ path

/-- When `fs_resolve_path` gives the normal form: an empty path needs a working directory in normal form,
and every other one no more than 32 segments at a time, unless all of them are left again. -/
def Normalizes (cwd driveName path : Str) (outSize : ℕ) : Prop :=
  (if path = [] then cwd.take (outSize - 1) = normalPath cwd driveName path ∧
      (normalSegments (pathText cwd path)).length ≤ 32
    else (path.head? ≠ some slash → cwd ≠ [slash, slash]) ∧
      Fits (· = str ".") (· = str "..") 32 [] (segments slash (pathText cwd path))) ∧
  (drivePrefix cwd driveName path).length ≤ 31 ∧ (normalPath cwd driveName path).length < 512

/-! ## Drive prefixes -/

/-- A drive prefix: two slashes and a name -/
def IsDrive (d : Str) : Prop := ∃ name, d = slash :: slash :: name ∧ slash ∉ name

theorem hasDrive_iff {path : Str} : hasDrive path = true ↔ ∃ rest, path = slash :: slash :: rest := by
  unfold hasDrive
  rw [decide_eq_true_eq]
  constructor
  · intro h
    refine ⟨path.drop 2, ?_⟩
    calc path = path.take 2 ++ path.drop 2 := (List.take_append_drop 2 path).symm
      _ = slash :: slash :: path.drop 2 := by rw [h]; rfl
  · rintro ⟨rest, rfl⟩
    rfl

/-- A path with a drive is its prefix and what follows, which is empty or begins with a slash. -/
theorem drive_split {path : Str} (h : hasDrive path = true) :
    IsDrive (driveOf path) ∧ path = driveOf path ++ afterDrive path ∧
      (afterDrive path = [] ∨ ∃ u, afterDrive path = slash :: u) := by
  obtain ⟨rest, rfl⟩ := hasDrive_iff.mp h
  have hdrive : driveOf (slash :: slash :: rest) = slash :: slash :: rest.takeWhile (· ≠ slash) := rfl
  have hafter : afterDrive (slash :: slash :: rest) = rest.dropWhile (· ≠ slash) := rfl
  rw [hdrive, hafter]
  refine ⟨⟨_, rfl, fun hmem => ?_⟩, ?_, ?_⟩
  · simpa using List.mem_takeWhile_imp hmem
  · rw [List.cons_append, List.cons_append, List.takeWhile_append_dropWhile]
  · cases hrest : rest.dropWhile (· ≠ slash) with
    | nil => exact .inl rfl
    | cons c u =>
      right
      have hhead := List.head?_dropWhile_not (fun x : UInt8 => decide (x ≠ slash)) rest
      rw [hrest] at hhead
      refine ⟨u, ?_⟩
      have hc : c = slash := by simpa using hhead
      rw [hc]

/-- A drive prefix and a text from the root -/
theorem drive_append {d u : Str} (hd : IsDrive d) :
    hasDrive (d ++ slash :: u) = true ∧ driveOf (d ++ slash :: u) = d ∧
      afterDrive (d ++ slash :: u) = slash :: u := by
  obtain ⟨name, rfl, hname⟩ := hd
  have hall : ∀ x ∈ name, decide (x ≠ slash) = true := by
    intro x hx
    rw [decide_eq_true_eq]
    rintro rfl
    exact hname hx
  refine ⟨rfl, ?_, ?_⟩
  · change slash :: slash :: (name ++ slash :: u).takeWhile (· ≠ slash) = _
    rw [List.takeWhile_append_of_pos hall, List.takeWhile_cons_of_neg (by simp), List.append_nil]
  · change (name ++ slash :: u).dropWhile (· ≠ slash) = _
    rw [List.dropWhile_append_of_pos hall, List.dropWhile_cons_of_neg (by simp)]

theorem IsDrive.take {d : Str} (hd : IsDrive d) : IsDrive (d.take 31) := by
  obtain ⟨name, rfl, hname⟩ := hd
  exact ⟨name.take 29, rfl, fun hmem => hname (List.mem_of_mem_take hmem)⟩

theorem IsDrive.length {d : Str} (hd : IsDrive d) : 2 ≤ d.length := by
  obtain ⟨name, rfl, -⟩ := hd
  simp

theorem isDrive_letterPrefix {driveName : Str} (hname : driveName.head? ≠ some slash) :
    IsDrive (letterPrefix driveName) := by
  refine ⟨[driveName.headD 65], rfl, ?_⟩
  cases driveName with
  | nil => decide
  | cons c cs =>
    intro hmem
    rw [List.headD_cons, List.mem_singleton] at hmem
    exact hname (by rw [← hmem]; rfl)

theorem isDrive_drivePrefix (cwd path : Str) {driveName : Str} (hname : driveName.head? ≠ some slash) :
    IsDrive (drivePrefix cwd driveName path) := by
  unfold drivePrefix
  split_ifs with hpath hcwd
  · exact (drive_split hpath).1
  · exact (drive_split hcwd).1
  · exact isDrive_letterPrefix hname

/-! ## The text that is made canonical -/

theorem take_take_append (n : ℕ) (t u : Str) : (t.take n ++ u).take n = (t ++ u).take n := by
  rw [List.take_append, List.take_append, List.take_take, min_self, List.length_take]
  congr 2
  omega

theorem appendTo_appendTo (n : ℕ) (out t u : Str) :
    appendTo n (appendTo n out t) u = appendTo n out (t ++ u) := by
  unfold appendTo
  rw [take_take_append, List.append_assoc]

/-- The segments that the code finds -/
theorem splitSlash_eq (seg t : Str) :
    splitSlash seg t = (List.splitOnPPrepend (· == slash) t seg).filter (· ≠ []) := by
  induction t generalizing seg with
  | nil => cases seg <;> simp [splitSlash]
  | cons c t ih =>
    rw [splitSlash]
    by_cases hc : c = slash
    · have hsplit : List.splitOnPPrepend (· == slash) (c :: t) seg =
          seg.reverse :: List.splitOnPPrepend (· == slash) t [] :=
        List.splitOnPPrepend_cons_pos (by rw [hc]; rfl)
      rw [if_pos hc, hsplit, ih []]
      cases seg <;> simp
    · have hsplit : List.splitOnPPrepend (· == slash) (c :: t) seg =
          List.splitOnPPrepend (· == slash) t (c :: seg) :=
        List.splitOnPPrepend_cons_neg (beq_eq_false_iff_ne.mpr hc)
      rw [if_neg hc, hsplit]
      exact ih (c :: seg)

/-- The segments that the code keeps, at most 32 at a time -/
def keptSegments (text : Str) : List Str :=
  (segments slash text).foldl (pushAtMost (· = str ".") (· = str "..") 32) []

theorem foldl_pushSegment (text : Str) :
    (splitSlash [] text).foldl pushSegment [] = keptSegments text := by
  rw [splitSlash_eq]
  rfl

theorem foldl_appendTo (n : ℕ) (out : Str) (segs : List Str) :
    segs.foldl (fun out seg => appendTo n (appendTo n out [slash]) seg) (appendTo n [] out) =
      appendTo n [] (out ++ joined slash segs) := by
  induction segs generalizing out with
  | nil => rw [joined_nil, List.append_nil]; rfl
  | cons seg segs ih =>
    rw [List.foldl_cons, appendTo_appendTo, appendTo_appendTo, ih, joined_cons, List.append_assoc]
    rfl

/-- The prefix of a combined text, and what follows it -/
def prefixOf (driveName combined : Str) : Str :=
  if hasDrive combined then driveOf combined else letterPrefix driveName

def restOf (combined : Str) : Str := if hasDrive combined then afterDrive combined else combined

theorem take_prefixOf (driveName combined : Str) :
    (if hasDrive combined = true then (driveOf combined).take 31 else letterPrefix driveName) =
      (prefixOf driveName combined).take 31 := by
  unfold prefixOf
  split
  · rfl
  · rfl

/-- The canonical form: the first 31 bytes of the prefix and the segments that are kept, cut to the
buffer -/
theorem canonicalize_eq (outSize : ℕ) (driveName combined : Str) :
    canonicalize outSize driveName combined =
      (rooted ((prefixOf driveName combined).take 31) (keptSegments (restOf combined))).take
        (outSize - 1) := by
  unfold canonicalize rooted
  rw [take_prefixOf]
  dsimp only
  rw [foldl_pushSegment, foldl_appendTo, appendTo_appendTo]
  change (if keptSegments (restOf combined) = [] then _ else _) = _
  unfold appendTo
  split
  · rfl
  · rfl

/-! ## The segments of a combined text -/

/-- It makes no difference whether the slash between two texts is there once or twice. -/
theorem segments_between (t path : Str) :
    segments slash (t ++ (if t.getLast? = some slash then [] else [slash]) ++ path) =
      segments slash (t ++ slash :: path) := by
  split
  next hlast =>
    obtain ⟨u, rfl⟩ := List.getLast?_eq_some_iff.mp hlast
    rw [List.append_nil, List.append_assoc, List.append_assoc, List.singleton_append, List.singleton_append,
      segments_append_sep, segments_append_sep, segments_sep_cons]
  next => rw [List.append_assoc]; rfl

/-- A working directory without a drive gives none to what is behind it. -/
theorem not_hasDrive_behind {cwd path : Str} (hcwd : hasDrive cwd ≠ true) (hne : cwd ≠ [])
    (hpath : path.head? ≠ some slash) :
    hasDrive (cwd ++ (if cwd.getLast? = some slash then [] else [slash]) ++ path) ≠ true := by
  intro hdrive
  obtain ⟨rest, hrest⟩ := hasDrive_iff.mp hdrive
  match cwd, hne with
  | [c], _ =>
    obtain ⟨rfl, htail⟩ := List.cons.inj hrest
    have hslash : path = slash :: rest := by simpa using htail
    exact hpath (by rw [hslash]; rfl)
  | c :: d :: cs, _ =>
    obtain ⟨rfl, htail⟩ := List.cons.inj hrest
    obtain ⟨rfl, -⟩ := List.cons.inj htail
    exact hcwd rfl

/-- What the code combines has the prefix and the segments of the path behind the working directory. -/
theorem combinePath_spec {cwd driveName path : Str} (hname : driveName.head? ≠ some slash)
    (hcwd : cwd ≠ []) (hpath : path ≠ []) (hlen : (combinedText cwd driveName path).length < 512)
    (hroot : path.head? ≠ some slash → cwd ≠ [slash, slash]) :
    (prefixOf driveName (combinePath cwd driveName path)).take 31 =
        (drivePrefix cwd driveName path).take 31 ∧
      segments slash (restOf (combinePath cwd driveName path)) = segments slash (pathText cwd path) := by
  have happend : ∀ {out t : Str}, (out ++ t).length < 512 → appendTo 512 out t = out ++ t :=
    fun hle => List.take_of_length_le (by omega)
  have hfirst : ∀ {t : Str}, t.length < 512 → appendTo 512 [] t = t := fun hle => happend hle
  unfold combinedText at hlen
  rw [if_neg hpath] at hlen
  unfold combinePath drivePrefix pathText
  by_cases hdrive : hasDrive path = true
  · rw [if_pos hdrive] at hlen
    rw [if_pos hdrive, if_pos hdrive, if_pos hdrive, hfirst hlen]
    unfold prefixOf restOf
    rw [if_pos hdrive, if_pos hdrive]
    exact ⟨rfl, rfl⟩
  rw [if_neg hdrive] at hlen
  rw [if_neg hdrive, if_neg hdrive, if_neg hdrive]
  by_cases habs : path.head? = some slash
  · -- behind the drive of the working directory
    rw [if_pos habs] at hlen
    rw [if_pos habs, if_pos habs]
    dsimp only
    obtain ⟨u, rfl⟩ : ∃ u, path = slash :: u := by
      cases path with
      | nil => exact absurd rfl hpath
      | cons c u => exact ⟨u, by rw [Option.some.inj habs]⟩
    obtain ⟨d, hd, htake, hle, hcode⟩ : ∃ d, IsDrive d ∧ d.take 31 =
        (if hasDrive cwd = true then driveOf cwd else letterPrefix driveName).take 31 ∧
        d.length ≤ (if hasDrive cwd = true then driveOf cwd else letterPrefix driveName).length ∧
        (if hasDrive cwd = true then (driveOf cwd).take 31 else letterPrefix driveName) = d := by
      split
      next hc =>
        exact ⟨_, (drive_split hc).1.take, by rw [List.take_take, min_self],
          (List.length_take_le' 31 _), rfl⟩
      next => exact ⟨_, isDrive_letterPrefix hname, rfl, le_rfl, rfl⟩
    rw [hcode, happend (by rw [List.length_append] at hlen ⊢; omega)]
    obtain ⟨hhas, hdriveOf, hafter⟩ := drive_append (u := u) hd
    unfold prefixOf restOf
    rw [if_pos hhas, if_pos hhas, hdriveOf, hafter]
    exact ⟨htake, rfl⟩
  · -- behind the working directory
    rw [if_neg habs] at hlen
    rw [if_neg habs, if_neg habs]
    dsimp only
    have hbase : cwd.length < 512 := by
      rw [List.length_append, List.length_append] at hlen
      omega
    have hcombined : appendTo 512 (if appendTo 512 [] cwd ≠ [] ∧ (appendTo 512 [] cwd).getLast? ≠ some slash
        then appendTo 512 (appendTo 512 [] cwd) [slash] else appendTo 512 [] cwd) path =
        cwd ++ (if cwd.getLast? = some slash then [] else [slash]) ++ path := by
      rw [hfirst hbase]
      split at hlen
      next hlast =>
        rw [if_neg (by simp [hlast]), if_pos hlast]
        rw [List.append_nil] at hlen ⊢
        exact happend hlen
      next hlast =>
        rw [List.append_assoc] at hlen
        rw [if_pos ⟨hcwd, hlast⟩, if_neg hlast, appendTo_appendTo, List.append_assoc]
        exact happend hlen
    rw [hcombined]
    unfold prefixOf restOf
    by_cases hc : hasDrive cwd = true
    · obtain ⟨hd, hsplit, hafter⟩ := drive_split hc
      rw [if_pos hc, if_pos hc]
      rcases hafter with hnil | ⟨u, hu⟩
      · -- the working directory is a drive alone, and has a name
        rw [hnil, List.append_nil] at hsplit
        have hlast : cwd.getLast? ≠ some slash := by
          obtain ⟨name, hdname, hfree⟩ := hd
          rw [hdname] at hsplit
          intro hlast
          have hname0 : name ≠ [] := by
            rintro rfl
            exact hroot habs hsplit
          rw [hsplit, List.getLast?_cons_cons, List.getLast?_cons_of_ne_nil hname0] at hlast
          exact hfree (List.mem_of_getLast? hlast)
        have hshape : cwd ++ (if cwd.getLast? = some slash then [] else [slash]) ++ path =
            driveOf cwd ++ slash :: path := by
          rw [if_neg hlast, List.append_assoc, ← hsplit]
          rfl
        obtain ⟨hhas, hdriveOf, hrest⟩ := drive_append (u := path) hd
        rw [hshape, if_pos hhas, if_pos hhas, hdriveOf, hrest, hnil]
        exact ⟨rfl, rfl⟩
      · have hlast : cwd.getLast? = (slash :: u).getLast? := by
          rw [hsplit, hu, List.getLast?_append_of_ne_nil _ (List.cons_ne_nil slash u)]
        have hshape : cwd ++ (if cwd.getLast? = some slash then [] else [slash]) ++ path =
            driveOf cwd ++ slash :: (u ++ (if (slash :: u).getLast? = some slash then [] else [slash]) ++
              path) := by
          rw [hlast]
          nth_rewrite 1 [hsplit]
          rw [hu, List.append_assoc, List.append_assoc, List.append_assoc]
          rfl
        obtain ⟨hhas, hdriveOf, hrest⟩ := drive_append
          (u := u ++ (if (slash :: u).getLast? = some slash then [] else [slash]) ++ path) hd
        rw [hshape, if_pos hhas, if_pos hhas, hdriveOf, hrest, hu]
        exact ⟨rfl, segments_between (slash :: u) path⟩
    · have hnone := not_hasDrive_behind hc hcwd habs
      rw [if_neg hc, if_neg hc, if_neg hnone, if_neg hnone]
      exact ⟨rfl, segments_between cwd path⟩

/-! ## Texts in normal form -/

/-- Segments of a normal form -/
def IsNormal (segs : List Str) : Prop :=
  ∀ seg ∈ segs, (seg ≠ [] ∧ slash ∉ seg) ∧ seg ≠ str "." ∧ seg ≠ str ".."

theorem isNormal_normalSegments (text : Str) : IsNormal (normalSegments text) := by
  intro seg hseg
  have hplain := plain_of_mem_foldl (fun x hx => absurd hx List.not_mem_nil) hseg
  refine ⟨mem_segments (t := text) ?_, hplain⟩
  exact (mem_of_mem_foldl hseg).resolve_left List.not_mem_nil

theorem IsNormal.sublist {segs segs' : List Str} (h : IsNormal segs') (hs : segs.Sublist segs') :
    IsNormal segs := fun seg hseg => h seg (hs.subset hseg)

/-- A text at the root of a drive has this drive and these segments. -/
theorem rooted_split {d : Str} {segs : List Str} (hd : IsDrive d) (hsegs : IsNormal segs) :
    hasDrive (rooted d segs) = true ∧ driveOf (rooted d segs) = d ∧
      segments slash (afterDrive (rooted d segs)) = segs := by
  unfold rooted
  cases segs with
  | nil =>
    obtain ⟨hhas, hdriveOf, hafter⟩ := drive_append (u := []) hd
    rw [if_pos rfl]
    exact ⟨hhas, hdriveOf, by rw [hafter]; rfl⟩
  | cons seg segs =>
    obtain ⟨hhas, hdriveOf, hafter⟩ := drive_append (u := seg ++ joined slash segs) hd
    rw [if_neg (List.cons_ne_nil seg segs), joined_cons, List.cons_append]
    refine ⟨hhas, hdriveOf, ?_⟩
    rw [hafter, ← List.cons_append, ← joined_cons]
    exact segments_joined fun s hs => (hsegs s hs).1

/-- The drive and the segments can be read off. -/
theorem rooted_inj {d d' : Str} {segs segs' : List Str} (hd : IsDrive d) (hd' : IsDrive d')
    (hsegs : IsNormal segs) (hsegs' : IsNormal segs') (h : rooted d segs = rooted d' segs') :
    d = d' ∧ segs = segs' := by
  obtain ⟨-, hdrive, hafter⟩ := rooted_split hd hsegs
  obtain ⟨-, hdrive', hafter'⟩ := rooted_split hd' hsegs'
  rw [h] at hdrive hafter
  exact ⟨hdrive.symm.trans hdrive', hafter.symm.trans hafter'⟩

theorem length_rooted_le {d d' : Str} {segs segs' : List Str} (hd : d.length ≤ d'.length)
    (hs : segs.Sublist segs') : (rooted d segs).length ≤ (rooted d' segs').length := by
  have hjoin := length_joined_le slash hs
  unfold rooted
  rw [List.length_append, List.length_append]
  refine Nat.add_le_add hd ?_
  split
  next hnil =>
    split
    · exact le_rfl
    next hne =>
      obtain ⟨seg, rest, rfl⟩ := List.exists_cons_of_ne_nil hne
      rw [joined_cons]
      simp
  next hne =>
    have hne' : segs' ≠ [] := by
      rintro rfl
      exact hne (List.sublist_nil.mp hs)
    rw [if_neg hne']
    exact hjoin

theorem keptSegments_sublist (text : Str) : (keptSegments text).Sublist (normalSegments text) :=
  foldl_pushAtMost_sublist (List.Sublist.refl [])

theorem keptSegments_eq_iff (text : Str) : keptSegments text = normalSegments text ↔
    Fits (· = str ".") (· = str "..") 32 [] (segments slash text) :=
  (foldl_pushAtMost_iff _).1 [] (Nat.zero_le 32)

theorem keptSegments_congr {t u : Str} (h : segments slash t = segments slash u) :
    keptSegments t = keptSegments u := by
  unfold keptSegments
  rw [h]

theorem take_eq_self_iff {d : Str} : d.take 31 = d ↔ d.length ≤ 31 := by
  constructor
  · intro h
    rw [← h]
    exact List.length_take_le 31 d
  · exact List.take_of_length_le

/-- The code gives the normal form of a drive and a text exactly if it has room for them. -/
theorem rooted_take_iff (text : Str) {d : Str} {outSize : ℕ} (hd : IsDrive d)
    (hout : (rooted d (normalSegments text)).length < outSize) :
    (rooted (d.take 31) (keptSegments text)).take (outSize - 1) = rooted d (normalSegments text) ↔
      d.length ≤ 31 ∧ Fits (· = str ".") (· = str "..") 32 [] (segments slash text) := by
  have hsub := keptSegments_sublist text
  have hle := length_rooted_le (List.length_take_le' 31 d) hsub
  rw [List.take_of_length_le (by omega), ← take_eq_self_iff, ← keptSegments_eq_iff]
  constructor
  · intro h
    have hnormal := isNormal_normalSegments text
    exact rooted_inj hd.take hd (hnormal.sublist hsub) hnormal h
  · rintro ⟨hlen, hkept⟩
    rw [hlen, hkept]

/-- The segments of a normal form are its own. -/
theorem normalSegments_rooted {d : Str} {segs : List Str} (hd : IsDrive d) (hsegs : IsNormal segs) :
    normalSegments (afterDrive (rooted d segs)) = segs := by
  unfold normalSegments
  rw [(rooted_split hd hsegs).2.2, foldl_push_of_plain fun x hx => (hsegs x hx).2]
  rfl

theorem fits_of_isNormal {segs : List Str} (hsegs : IsNormal segs) :
    Fits (· = str ".") (· = str "..") 32 [] segs ↔ segs.length ≤ 32 := by
  have hplain : ∀ x ∈ segs, ¬ x = str "." ∧ ¬ x = str ".." := fun x hx => (hsegs x hx).2
  constructor
  · intro h
    have hle := h.length_le
    rwa [foldl_push_of_plain hplain] at hle
  · intro hle
    refine fits_of_plain hplain ?_
    rw [List.length_nil, Nat.zero_add]
    exact hle

/-- The result of the code is shorter than 512 bytes, if what it combines has a drive. -/
theorem length_canonicalize_le (outSize : ℕ) (driveName : Str) {combined : Str}
    (hdrive : hasDrive combined = true) :
    (canonicalize outSize driveName combined).length ≤ max 32 combined.length := by
  rw [canonicalize_eq]
  refine (List.length_take_le' _ _).trans ?_
  obtain ⟨-, hsplit, hafter⟩ := drive_split hdrive
  have hlen : combined.length = (driveOf combined).length + (afterDrive combined).length := by
    rw [← List.length_append, ← hsplit]
  have hsub : (keptSegments (afterDrive combined)).Sublist (segments slash (afterDrive combined)) :=
    (keptSegments_sublist _).trans (foldl_push_sublist _)
  have hjoin := length_joined_le slash hsub
  unfold rooted prefixOf restOf
  rw [if_pos hdrive, if_pos hdrive, List.length_append, List.length_take]
  split
  · rw [List.length_singleton]
    omega
  next hne =>
    rcases hafter with hnil | ⟨u, hu⟩
    · rw [hnil] at hne
      exact absurd rfl hne
    · rw [hu, segments_sep_cons] at hjoin
      have hu' := length_joined_segments_le slash u
      rw [hu, List.length_cons] at hlen
      rw [hu]
      omega

/-! ## The call -/

/-- The text that `fs_resolve_path` gives -/
def resolvedText (outSize : ℕ) (cwd driveName path : Str) : Str :=
  if path = [] then appendTo outSize [] cwd
  else canonicalize outSize driveName (combinePath cwd driveName path)

/-- The working directory of the current process -/
def Kernel.workingDir (k : PlainKernel) : Str := fsGetCwd (k.procCwd k.proc, k.sessionCwd, k.cwd)

/-- The name of the active drive -/
def Kernel.driveName (k : PlainKernel) : Str := (k.drives k.active).name

variable {k : PlainKernel}

theorem exec_fsResolvePath (path : Str) (outSize : ℕ) : (fsResolvePath path outSize).exec k =
    some (resolvedText outSize k.workingDir k.driveName path, k) := by
  have hcwds : cwds.exec k = some ((k.procCwd k.proc, k.sessionCwd, k.cwd), k) := rfl
  have hname : activeName.exec k = some (k.driveName, k) := rfl
  unfold fsResolvePath resolvedText
  rw [Kern.exec_bind, hcwds, Option.bind_some, Kern.exec_bind, hname, Option.bind_some, Kern.exec_ite]
  split
  · rfl
  · rfl

theorem workingDir_ne_nil (k : PlainKernel) : k.workingDir ≠ [] := by
  unfold Kernel.workingDir fsGetCwd
  split_ifs with h₁ h₂ h₃
  · exact h₁
  · exact h₂
  · exact h₃
  · decide

/-- A text in normal form is given back exactly if there is room for it. -/
theorem resolvedText_rooted_iff (cwd driveName : Str) {d : Str} {segs : List Str} {outSize : ℕ} (hd : IsDrive d)
    (hsegs : IsNormal segs) (hout : (rooted d segs).length < outSize) :
    resolvedText outSize cwd driveName (rooted d segs) = rooted d segs ↔
      d.length ≤ 31 ∧ segs.length ≤ 32 ∧ (rooted d segs).length < 512 := by
  obtain ⟨hhas, hdriveOf, hsegments⟩ := rooted_split hd hsegs
  have hnormal := normalSegments_rooted hd hsegs
  have hne : rooted d segs ≠ [] := by
    intro hnil
    rw [hnil] at hhas
    cases hhas
  have hcombine : combinePath cwd driveName (rooted d segs) = (rooted d segs).take 511 := if_pos hhas
  unfold resolvedText
  rw [if_neg hne, hcombine]
  by_cases hlt : (rooted d segs).length < 512
  · have hiff := rooted_take_iff (afterDrive (rooted d segs)) hd (by rw [hnormal]; exact hout)
    rw [hnormal, hsegments, fits_of_isNormal hsegs] at hiff
    rw [List.take_of_length_le (by omega), canonicalize_eq]
    unfold prefixOf restOf
    rw [if_pos hhas, if_pos hhas, hdriveOf, hiff, and_iff_left hlt]
  · -- what does not fit into the combined buffer is lost
    have hcut : ((rooted d segs).take 511).length = 511 := by
      rw [List.length_take]
      omega
    have hdrive : hasDrive ((rooted d segs).take 511) = true := by
      obtain ⟨rest, hrest⟩ := hasDrive_iff.mp hhas
      rw [hrest]
      rfl
    have hle := length_canonicalize_le outSize driveName hdrive
    rw [hcut] at hle
    refine ⟨fun he => ?_, fun h => absurd h.2.2 hlt⟩
    rw [he] at hle
    omega

/-- A path that does not begin with a slash is taken for a drive behind the working directory `//`. -/
theorem resolvedText_ne_of_root {driveName path : Str} {outSize : ℕ} (hpath : path ≠ [])
    (hrel : path.head? ≠ some slash)
    (hout : (normalPath [slash, slash] driveName path).length < outSize) :
    resolvedText outSize [slash, slash] driveName path ≠ normalPath [slash, slash] driveName path := by
  obtain ⟨c, cs, rfl⟩ := List.exists_cons_of_ne_nil hpath
  have hc : c ≠ slash := fun he => hrel (by rw [he]; rfl)
  have hnone : hasDrive (c :: cs) ≠ true := by
    intro hdrive
    obtain ⟨rest, hrest⟩ := hasDrive_iff.mp hdrive
    exact hc (List.cons.inj hrest).1
  obtain ⟨t, hnormal⟩ : ∃ t, normalPath [slash, slash] driveName (c :: cs) =
      slash :: slash :: slash :: t := by
    unfold normalPath drivePrefix rooted
    rw [if_neg hnone]
    cases normalSegments (pathText [slash, slash] (c :: cs)) with
    | nil => exact ⟨_, rfl⟩
    | cons seg segs => exact ⟨_, rfl⟩
  obtain ⟨u, hcombine⟩ : ∃ u, combinePath [slash, slash] driveName (c :: cs) = slash :: slash :: c :: u := by
    unfold combinePath
    rw [if_neg hnone, if_neg hrel]
    exact ⟨_, rfl⟩
  have hdrive : hasDrive (slash :: slash :: c :: u) = true := rfl
  have hdriveOf : driveOf (slash :: slash :: c :: u) = slash :: slash :: c :: u.takeWhile (· ≠ slash) := by
    change slash :: slash :: (c :: u).takeWhile (· ≠ slash) = _
    rw [List.takeWhile_cons_of_pos (by simpa using hc)]
  unfold resolvedText
  rw [if_neg hpath, hcombine, canonicalize_eq]
  unfold prefixOf rooted
  rw [if_pos hdrive, hdriveOf]
  rw [hnormal] at hout ⊢
  obtain ⟨n, hn⟩ : ∃ n, outSize - 1 = n + 3 := ⟨outSize - 4, by simp only [List.length_cons] at hout; omega⟩
  rw [hn]
  intro he
  exact hc (List.cons.inj (List.cons.inj (List.cons.inj he).2).2).1

/-- Path normalisation, up to the limits of its buffers. In every state in which the name of the active
drive does not begin with a slash, for every path whose combined text is shorter than 512 bytes and every
buffer with room for the normal form, `fs_resolve_path` gives the normal form and gives it back for itself
exactly if the path normalizes within the limits. -/
theorem resolve_path_iff (path : Str) {outSize : ℕ} (hname : k.driveName.head? ≠ some slash)
    (hlen : (combinedText k.workingDir k.driveName path).length < 512)
    (hout : (normalPath k.workingDir k.driveName path).length < outSize) :
    ((fsResolvePath path outSize).exec k = some (normalPath k.workingDir k.driveName path, k) ∧
      (fsResolvePath (normalPath k.workingDir k.driveName path) outSize).exec k =
        some (normalPath k.workingDir k.driveName path, k)) ↔
      Normalizes k.workingDir k.driveName path outSize := by
  have hd := isDrive_drivePrefix k.workingDir path hname
  have hsegs := isNormal_normalSegments (pathText k.workingDir path)
  have hexec : ∀ t p : Str, (fsResolvePath p outSize).exec k = some (t, k) ↔
      resolvedText outSize k.workingDir k.driveName p = t := by
    intro t p
    rw [exec_fsResolvePath, Option.some.injEq, Prod.mk.injEq, and_iff_left rfl]
  rw [hexec, hexec]
  have hagain := resolvedText_rooted_iff k.workingDir k.driveName hd hsegs hout
  unfold Normalizes
  by_cases hpath : path = []
  · have hfirst : resolvedText outSize k.workingDir k.driveName path = k.workingDir.take (outSize - 1) :=
      if_pos hpath
    rw [if_pos hpath, hfirst]
    have hagain' := hagain
    change resolvedText outSize k.workingDir k.driveName (normalPath k.workingDir k.driveName path) =
      normalPath k.workingDir k.driveName path ↔ _ at hagain'
    rw [hagain']
    unfold normalPath
    tauto
  · rw [if_neg hpath]
    by_cases hroot : path.head? ≠ some slash → k.workingDir ≠ [slash, slash]
    · obtain ⟨hbegins, hsegments⟩ := combinePath_spec hname (workingDir_ne_nil k) hpath hlen hroot
      have hfirst : resolvedText outSize k.workingDir k.driveName path =
          (rooted ((drivePrefix k.workingDir k.driveName path).take 31)
            (keptSegments (pathText k.workingDir path))).take (outSize - 1) := by
        unfold resolvedText
        rw [if_neg hpath, canonicalize_eq, hbegins, keptSegments_congr hsegments]
      have hiff := rooted_take_iff (pathText k.workingDir path) hd hout
      rw [← hfirst] at hiff
      unfold normalPath at *
      rw [hiff, hagain]
      have hdepth := fun h : Fits (· = str ".") (· = str "..") 32 []
        (segments slash (pathText k.workingDir path)) => h.length_le
      unfold normalSegments at *
      tauto
    · have hroot' := hroot
      push Not at hroot'
      obtain ⟨hrel, hcwd⟩ := hroot'
      refine ⟨fun h => absurd h.1 ?_, fun h => absurd h.1.1 hroot⟩
      rw [hcwd] at hout ⊢
      exact resolvedText_ne_of_root hpath hrel hout

/-- A kernel with one drive `A`, in its root directory -/
def driveA : PlainKernel := Kernel.oneDrive (sampleDrive (str "A")) fun _ => zeros

instance (cwd driveName path : Str) (outSize : ℕ) : Decidable (Normalizes cwd driveName path outSize) := by
  unfold Normalizes
  infer_instance

theorem resolve_path_up_and_down :
    (fsResolvePath (str "a/.//../b") 16).exec driveA = some (str "//A/b", driveA) := by
  have hnormal : normalPath driveA.workingDir driveA.driveName (str "a/.//../b") = str "//A/b" := by
    decide
  have hiff := resolve_path_iff (k := driveA) (str "a/.//../b") (by decide) (by decide)
    (by decide : _ < 16)
  rw [hnormal] at hiff
  exact (hiff.mpr (by decide)).1

/-- 33 segments, of which the last is lost -/
def deepPath : Str := str "//A" ++ (List.replicate 33 (str "/a")).flatten

theorem resolve_path_deep : driveA.driveName.head? ≠ some slash ∧
    (combinedText driveA.workingDir driveA.driveName deepPath).length < 512 ∧
    (normalPath driveA.workingDir driveA.driveName deepPath).length < 256 ∧
    (fsResolvePath deepPath 256).exec driveA ≠
      some (normalPath driveA.workingDir driveA.driveName deepPath, driveA) := by
  refine ⟨by decide, by decide +kernel, by decide +kernel, ?_⟩
  rw [exec_fsResolvePath, ne_eq, Option.some.injEq, Prod.mk.injEq, and_iff_left rfl]
  decide +kernel

end Sandflea
