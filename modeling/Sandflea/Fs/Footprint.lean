import Sandflea.Fs.File

/-!
# Footprints

Which commands the functions of the file system issue, from their text alone. A program that stays
does not switch the drive; a quiet one changes no block and no descriptor; one that looks does neither.
Lookups are quiet, reads look, and writes stay.
-/

namespace Sandflea

open Bytes Kern

/-- A command that does not switch the drive. -/
def Op.Stays : Op → Prop
  | .switchDrive _ => False
  | _ => True

/-- A command that changes no block and no descriptor. -/
def Op.Quiet : Op → Prop
  | .writeBlock _ _ | .zeroSectors _ | .setGroupDesc _ _ => False
  | _ => True

/-- A command that stays and is quiet. -/
def Op.Looks (op : Op) : Prop := op.Stays ∧ op.Quiet

/-- A command that changes no handle. -/
def Op.KeepsHandles : Op → Prop
  | .setFd _ _ => False
  | _ => True

/-- A quiet command that changes no handle. -/
def Op.Searches (op : Op) : Prop := op.Quiet ∧ op.KeepsHandles

/-- A command that stays and changes no handle. -/
def Op.Stores (op : Op) : Prop := op.Stays ∧ op.KeepsHandles

/-- A command that stays, is quiet and changes no handle. -/
def Op.Probes (op : Op) : Prop := op.Looks ∧ op.KeepsHandles

/-- A program that does not switch the drive. -/
def Stays {α : Type} (p : Kern α) : Prop := p.All Op.Stays

/-- A program that changes no block and no descriptor. -/
def Quiet {α : Type} (p : Kern α) : Prop := p.All Op.Quiet

/-- A program that stays and is quiet. -/
def Looks {α : Type} (p : Kern α) : Prop := p.All Op.Looks

/-- A quiet program that changes no handle. -/
def Searches {α : Type} (p : Kern α) : Prop := p.All Op.Searches

/-- A program that stays and changes no handle. -/
def Stores {α : Type} (p : Kern α) : Prop := p.All Op.Stores

/-- A program that stays, is quiet and changes no handle. -/
def Probes {α : Type} (p : Kern α) : Prop := p.All Op.Probes

theorem Looks.stays {α : Type} {p : Kern α} (h : Looks p) : Stays p :=
  Prog.All.mono (fun _ hop => hop.1) h

theorem Looks.quiet {α : Type} {p : Kern α} (h : Looks p) : Quiet p :=
  Prog.All.mono (fun _ hop => hop.2) h

theorem Probes.looks {α : Type} {p : Kern α} (h : Probes p) : Looks p :=
  Prog.All.mono (fun _ hop => hop.1) h

theorem Probes.searches {α : Type} {p : Kern α} (h : Probes p) : Searches p :=
  Prog.All.mono (fun _ hop => ⟨hop.1.2, hop.2⟩) h

theorem Probes.stores {α : Type} {p : Kern α} (h : Probes p) : Stores p :=
  Prog.All.mono (fun _ hop => ⟨hop.1.1, hop.2⟩) h

theorem Searches.quiet {α : Type} {p : Kern α} (h : Searches p) : Quiet p :=
  Prog.All.mono (fun _ hop => hop.1) h

theorem Stores.stays {α : Type} {p : Kern α} (h : Stores p) : Stays p :=
  Prog.All.mono (fun _ hop => hop.1) h

/-! ## Commands -/

section

variable {P : Op → Prop}

@[simp] theorem all_kmalloc (n : ℕ) : (kmalloc n).All P ↔ P (.kmalloc n) := Prog.all_issue_iff

@[simp] theorem all_ext2ReadBlock (b : ℕ) : (ext2ReadBlock b).All P ↔ P (.readBlock b) :=
  Prog.all_issue_iff

@[simp] theorem all_ext2ReadBlocks (b n : ℕ) :
    (ext2ReadBlocks b n).All P ↔ P (.readBlocks b n) :=
  Prog.all_issue_iff

@[simp] theorem all_ext2WriteBlock (b : ℕ) (data : Bytes) :
    (ext2WriteBlock b data).All P ↔ P (.writeBlock b data) :=
  Prog.all_issue_iff

@[simp] theorem all_zeroSectors (b : ℕ) : (zeroSectors b).All P ↔ P (.zeroSectors b) :=
  Prog.all_issue_iff

@[simp] theorem all_superblock : superblock.All P ↔ P .superblock := Prog.all_issue_iff

@[simp] theorem all_groupDesc (g : ℕ) : (groupDesc g).All P ↔ P (.groupDesc g) :=
  Prog.all_issue_iff

@[simp] theorem all_setGroupDesc (g : ℕ) (d : GroupDesc) :
    (setGroupDesc g d).All P ↔ P (.setGroupDesc g d) :=
  Prog.all_issue_iff

@[simp] theorem all_driveList : driveList.All P ↔ P .driveList := Prog.all_issue_iff

@[simp] theorem all_ext2SwitchDrive (i : ℕ) : (ext2SwitchDrive i).All P ↔ P (.switchDrive i) :=
  Prog.all_issue_iff

@[simp] theorem all_activeName : activeName.All P ↔ P .activeName := Prog.all_issue_iff

@[simp] theorem all_cwds : cwds.All P ↔ P .cwds := Prog.all_issue_iff

@[simp] theorem all_fd (i : ℕ) : (fd i).All P ↔ P (.fd i) := Prog.all_issue_iff

@[simp] theorem all_setFd (i : ℕ) (h : Option FileHandle) : (setFd i h).All P ↔ P (.setFd i h) :=
  Prog.all_issue_iff

@[simp] theorem all_fault {α : Type} : (fault : Kern α).All P ↔ P .fault :=
  ⟨fun h => h.1, fun h => ⟨h, fun r => r.elim⟩⟩

end

section

variable {α β : Type} {p q : Kern α} {f : α → Kern β}

@[simp] theorem stays_pure (a : α) : Stays (pure a : Kern α) := trivial

@[simp] theorem stays_bind_iff :
    Stays (p >>= f) ↔ Stays p ∧ ∀ a, p.Returns a → Stays (f a) :=
  Prog.all_bind_iff

@[simp] theorem stays_ite_iff {c : Prop} [Decidable c] :
    Stays (if c then p else q) ↔ (c → Stays p) ∧ (¬ c → Stays q) :=
  Prog.all_ite_iff

end

/-! ## Programs that look -/

@[simp] theorem probes_ext2GetBmap (x : Inode) (l : ℕ) : Probes (ext2GetBmap x l) := by
  simp [Probes, ext2GetBmap, Op.Probes, Op.Looks, Op.Stays, Op.Quiet, Op.KeepsHandles]

@[simp] theorem probes_ext2GetInode (n : ℕ) (out : Inode) : Probes (ext2GetInode n out) := by
  simp [Probes, ext2GetInode, Op.Probes, Op.Looks, Op.Stays, Op.Quiet, Op.KeepsHandles]

@[simp] theorem probes_openHandle (i : ℤ) : Probes (openHandle i) := by
  simp [Probes, openHandle, Op.Probes, Op.Looks, Op.Stays, Op.Quiet, Op.KeepsHandles]

@[simp] theorem looks_openHandle (i : ℤ) : Looks (openHandle i) := (probes_openHandle i).looks

@[simp] theorem probes_readSingle (x : Inode) (bs count fuel : ℕ) (s : ReadState) :
    Probes (readSingle x bs count fuel s) := by
  induction fuel generalizing s with
  | zero => exact trivial
  | succ fuel ih =>
    have hmap := probes_ext2GetBmap x (s.pos / bs)
    simp only [Probes] at ih hmap ⊢
    simp [readSingle, Op.Probes, Op.Looks, Op.Stays, Op.Quiet, Op.KeepsHandles, ih, hmap]

@[simp] theorem probes_runBlocks (x : Inode) (l phys : ℕ) (rs : List ℕ) (run : ℕ) :
    Probes (runBlocks x l phys rs run) := by
  induction rs generalizing run with
  | nil => exact trivial
  | cons r rs ih =>
    have hmap := probes_ext2GetBmap x
    simp only [Probes] at ih hmap ⊢
    simp [runBlocks, ih, hmap]

@[simp] theorem probes_readBatch (x : Inode) (bs count fuel : ℕ) (s : ReadState) :
    Probes (readBatch x bs count fuel s) := by
  induction fuel generalizing s with
  | zero => exact trivial
  | succ fuel ih =>
    have hmap := probes_ext2GetBmap x (s.pos / bs)
    have hrun := probes_runBlocks x (s.pos / bs)
    simp only [Probes] at ih hmap hrun ⊢
    simp [readBatch, Op.Probes, Op.Looks, Op.Stays, Op.Quiet, Op.KeepsHandles, ih, hmap, hrun]

theorem probes_readHead (x : Inode) (bs count : ℕ) (s : ReadState) :
    Probes (readHead x bs count s) := by
  have hmap := probes_ext2GetBmap x (s.pos / bs)
  simp only [Probes] at hmap ⊢
  simp [readHead, Op.Probes, Op.Looks, Op.Stays, Op.Quiet, Op.KeepsHandles, hmap]

theorem looks_fsRead (i : ℤ) (buf : Bytes) (count : ℕ) : Looks (fsRead i buf count) := by
  refine Prog.All.bind (looks_openHandle i) fun h => ?_
  cases h with
  | none => exact trivial
  | some h =>
    refine .ite trivial ?_
    refine Prog.All.bind (by simp [Op.Looks, Op.Stays, Op.Quiet]) fun sb => ?_
    refine Prog.All.bind (by simp [Op.Looks, Op.Stays, Op.Quiet]) fun mem => .ite ?_ trivial
    refine Prog.All.bind (probes_readHead _ _ _ _).looks fun r => ?_
    have hbatch := fun count fuel s => (probes_readBatch h.inode sb.blockSize count fuel s).looks
    have hsingle := fun count fuel s => (probes_readSingle h.inode sb.blockSize count fuel s).looks
    simp only [Looks] at hbatch hsingle
    obtain ⟨s, _ | n⟩ := r <;> simp [Op.Looks, Op.Stays, Op.Quiet, hbatch, hsingle]

theorem looks_fsClose (i : ℤ) : Looks (fsClose i) := by
  refine Prog.All.bind (looks_openHandle i) fun h => ?_
  cases h <;> simp [Op.Looks, Op.Stays, Op.Quiet]

theorem looks_fsSeek (i offset : ℤ) (whence : SeekType) : Looks (fsSeek i offset whence) := by
  refine Prog.All.bind (looks_openHandle i) fun h => ?_
  cases h with
  | none => exact trivial
  | some h => cases whence <;> simp [FileHandle.seekBase, Op.Looks, Op.Stays, Op.Quiet]

/-! ## Programs that stay -/

theorem stores_ext2AllocBlock : Stores ext2AllocBlock := by
  refine Prog.All.bind (by simp [Op.Stores, Op.Stays, Op.KeepsHandles]) fun sb => ?_
  induction List.range sb.scanned with
  | nil => exact trivial
  | cons g gs ih =>
    refine Prog.All.bind (by simp [Op.Stores, Op.Stays, Op.KeepsHandles]) fun bd => .ite ih ?_
    refine Prog.All.bind (by simp [Op.Stores, Op.Stays, Op.KeepsHandles]) fun mem => .ite ?_ ih
    refine Prog.All.bind (by simp [Op.Stores, Op.Stays, Op.KeepsHandles]) fun bitmap => ?_
    split
    · simp [Op.Stores, Op.Stays, Op.KeepsHandles]
    · exact ih

theorem stores_ext2SetBmap (x : Inode) (l p : ℕ) : Stores (ext2SetBmap x l p) := by
  have halloc := stores_ext2AllocBlock
  simp only [Stores] at halloc ⊢
  simp [ext2SetBmap, setEntry, linkEntry, linkSlot, allocAndClear, Op.Stores, Op.Stays,
    Op.KeepsHandles, halloc]

theorem stores_ext2WriteInode (n : ℕ) (x : Inode) : Stores (ext2WriteInode n x) := by
  simp [Stores, ext2WriteInode, Op.Stores, Op.Stays, Op.KeepsHandles]

theorem stays_writeLoop (bs : ℕ) (data : Bytes) (size fuel written : ℕ) (h : FileHandle) :
    Stays (writeLoop bs data size fuel written h) := by
  have halloc := stores_ext2AllocBlock.stays
  have hget := fun x l => (probes_ext2GetBmap x l).stores.stays
  have hset := fun x l p => (stores_ext2SetBmap x l p).stays
  simp only [Stays] at halloc hget hset ⊢
  induction fuel generalizing written h with
  | zero => exact trivial
  | succ fuel ih => simp [writeLoop, Op.Stays, ih, halloc, hget, hset]

theorem stays_fsWrite (i : ℤ) (data : Bytes) (size : ℕ) : Stays (fsWrite i data size) := by
  refine Prog.All.bind (looks_openHandle i).stays fun h => ?_
  have hloop := stays_writeLoop
  have hinode := fun n x => (stores_ext2WriteInode n x).stays
  simp only [Stays] at hloop hinode
  cases h <;> simp [Op.Stays, hloop, hinode]

/-! ## Lookups search -/

theorem searches_fsResolvePath (path : Str) (outSize : ℕ) : Searches (fsResolvePath path outSize) := by
  simp [Searches, fsResolvePath, Op.Searches, Op.Quiet, Op.KeepsHandles]

theorem searches_ext2FindChild (dir : Inode) (name : Str) : Searches (ext2FindChild dir name) := by
  have hin : ∀ bs blocks, Searches (findChildIn dir name bs blocks) := by
    intro bs blocks
    induction blocks with
    | nil => exact trivial
    | cons b blocks ih =>
      refine Prog.All.bind (probes_ext2GetBmap dir b).searches fun phys => .ite ih ?_
      refine Prog.All.bind (by simp [Op.Searches, Op.Quiet, Op.KeepsHandles]) fun data => ?_
      split
      · exact trivial
      · exact ih
  simp only [Searches] at hin ⊢
  simp [ext2FindChild, Op.Searches, Op.Quiet, Op.KeepsHandles, hin]

theorem searches_ext2ReadSymlinkTarget (x : Inode) (outSize : ℕ) :
    Searches (ext2ReadSymlinkTarget x outSize) := by
  have hget := (probes_ext2GetBmap x 0).searches
  simp only [Searches] at hget ⊢
  simp [ext2ReadSymlinkTarget, Op.Searches, Op.Quiet, Op.KeepsHandles, hget]

theorem searches_walkComponents (path : Str) (follow : Bool) (fuel pos inodeNo : ℕ) (x : Inode) :
    Searches (walkComponents path follow fuel pos inodeNo x) := by
  have hinode : ∀ n out, Searches (ext2GetInode n out) := fun n out => (probes_ext2GetInode n out).searches
  have hend : ∀ n out, Searches (do
      let r ← ext2GetInode n out
      pure (.done (r.map fun x => (n, x))) : Kern Walk) := fun n out =>
    Prog.All.bind (hinode n out) fun _ => trivial
  induction fuel generalizing pos inodeNo x with
  | zero => exact hend inodeNo x
  | succ fuel ih =>
    refine .ite (hend inodeNo x) (.ite (ih _ _ _) ?_)
    refine Prog.All.bind (hinode _ _) fun dir => ?_
    cases dir with
    | none => exact trivial
    | some dir =>
      refine Prog.All.bind (searches_ext2FindChild _ _) fun child => .ite trivial ?_
      refine Prog.All.bind (hinode _ _) fun next => ?_
      cases next with
      | none => exact trivial
      | some y =>
        refine .ite (.ite ?_ trivial) (ih _ _ _)
        refine Prog.All.bind (searches_ext2ReadSymlinkTarget _ _) fun target => ?_
        cases target with
        | none => exact trivial
        | some t => exact Prog.All.bind (searches_fsResolvePath _ _) fun _ => trivial

theorem searches_crossDrive (path : Str) : Searches (crossDrive path) := by
  refine .ite (.ite trivial ?_) trivial
  refine Prog.All.bind (by simp [Op.Searches, Op.Quiet, Op.KeepsHandles]) fun drives => ?_
  split
  · exact trivial
  · exact Prog.All.bind (by simp [Op.Searches, Op.Quiet, Op.KeepsHandles]) fun _ => trivial

theorem searches_findFrom (links : ℕ) (path : Str) : Searches (findFrom links path) := by
  induction links generalizing path with
  | zero =>
    rw [findFrom]
    refine Prog.All.bind (searches_crossDrive path) fun rest => ?_
    cases rest with
    | none => exact trivial
    | some rest =>
      refine Prog.All.bind (by simp [Op.Searches, Op.Quiet, Op.KeepsHandles]) fun sb => ?_
      refine Prog.All.bind (by simp [Op.Searches, Op.Quiet, Op.KeepsHandles]) fun mem => .ite (.ite ?_ ?_) trivial
      · exact Prog.All.bind (probes_ext2GetInode _ _).searches fun _ => trivial
      · refine Prog.All.bind (searches_walkComponents _ _ _ _ _ _) fun w => ?_
        cases w <;> exact trivial
  | succ links ih =>
    rw [findFrom]
    refine Prog.All.bind (searches_crossDrive path) fun rest => ?_
    cases rest with
    | none => exact trivial
    | some rest =>
      refine Prog.All.bind (by simp [Op.Searches, Op.Quiet, Op.KeepsHandles]) fun sb => ?_
      refine Prog.All.bind (by simp [Op.Searches, Op.Quiet, Op.KeepsHandles]) fun mem => .ite (.ite ?_ ?_) trivial
      · exact Prog.All.bind (probes_ext2GetInode _ _).searches fun _ => trivial
      · refine Prog.All.bind (searches_walkComponents _ _ _ _ _ _) fun w => ?_
        cases w with
        | done r => exact trivial
        | restart linkPath => exact ih linkPath

theorem searches_ext2FindPath (path : Str) : Searches (ext2FindPath path) :=
  .ite trivial (Prog.All.bind (searches_fsResolvePath _ _) fun _ => searches_findFrom _ _)

theorem quiet_ext2FindPath (path : Str) : Quiet (ext2FindPath path) :=
  (searches_ext2FindPath path).quiet

theorem searches_allocateFd : Searches allocateFd := by
  unfold allocateFd
  induction List.range' 3 (maxFileHandles - 3) with
  | nil => exact trivial
  | cons i is ih =>
    refine Prog.All.bind (by simp [Op.Searches, Op.Quiet, Op.KeepsHandles]) fun h => ?_
    cases h with
    | none => exact trivial
    | some h => exact ih

theorem quiet_fsOpen (path : Str) : Quiet (fsOpen path) := by
  refine Prog.All.bind (quiet_ext2FindPath path) fun r => ?_
  cases r with
  | none => exact trivial
  | some r =>
    refine Prog.All.bind searches_allocateFd.quiet fun i => ?_
    cases i with
    | none => exact trivial
    | some i => simp [Op.Quiet]

end Sandflea
