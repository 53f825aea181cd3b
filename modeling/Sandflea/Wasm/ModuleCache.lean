import Sandflea.Lib.Runs

/-!
# The module cache

`wasm_thread_entry` reads a program into a buffer and looks its hash up in a list of parsed modules. On a hit it
frees the buffer and clones the module that is there; on a miss it parses the buffer and hands both to the list,
and clones the module too, or runs it itself if the list has no memory for an entry. A buffer that a cached
module points into is never freed (`cached_bytes_kept`). The module that runs is the parse of the bytes that
were read as long as a hit is on an entry with the same bytes and the clone gets the memory for its strings
(`runs_what_was_read`): the lookup compares hashes only (`same_hash_substituted`), and the clone goes on without
a string. The loads of two programs do not overlap, as the comment at the list says; what the hash and the parser
compute is arbitrary.
-/

namespace Sandflea

/-! ## Modules -/

/-- `M3ImportInfo`: the strings are null or have a text. -/
structure ImportInfo where
  moduleUtf8 : Option (List UInt8)
  fieldUtf8 : Option (List UInt8)
deriving DecidableEq, Repr

/-- A name of a function or of a global -/
inductive ModuleName
  | null
  /-- The same pointer as `import.fieldUtf8`. -/
  | field
  | own (text : List UInt8)
deriving DecidableEq, Repr

/-- What is parsed of an `M3Function`; pointers into the bytes are offsets. -/
structure ModuleFunction where
  importInfo : ImportInfo
  /-- `names` up to `numNames` -/
  names : List ModuleName
  funcType : ℕ
  wasm : ℕ
  wasmEnd : ℕ
deriving DecidableEq, Repr

/-- `M3DataSegment` -/
structure DataSegment where
  memoryRegion : UInt32
  initExpr : ℕ
  initExprSize : UInt32
  data : ℕ
  size : UInt32
deriving DecidableEq, Repr

/-- `M3Global` -/
structure ModuleGlobal where
  importInfo : ImportInfo
  name : ModuleName
  type : UInt8
  imported : Bool
  isMutable : Bool
  intValue : Int64
  initExpr : ℕ
  initExprSize : UInt32
deriving DecidableEq, Repr

/-- `M3Module` as it is parsed, not loaded yet -/
structure ParsedModule where
  wasmStart : ℕ
  wasmEnd : ℕ
  startFunction : Int32
  memoryPages : UInt32 × UInt32
  memoryImported : Bool
  funcTypes : List ℕ
  numFuncImports : UInt32
  functions : List ModuleFunction
  dataSegments : List DataSegment
  globals : List ModuleGlobal
  numElementSegments : UInt32
  elementSection : ℕ
  elementSectionEnd : ℕ
deriving DecidableEq, Repr

/-- Which allocations succeed in `wasm_clone_module`: that of the module, those of its arrays, and those of its
strings in the order in which they are made. -/
structure CloneAllocs where
  dst : Bool
  funcTypes : Bool
  functions : Bool
  dataSegments : Bool
  globals : Bool
  strings : ℕ → Bool

section

variable {A : Type*} (strings : ℕ → Bool)

/-- Copy every element of an array; the number counts the allocations of strings. -/
def cloneArray (clone : A → ℕ → A × ℕ) : List A → ℕ → List A × ℕ
  | [], k => ([], k)
  | x :: xs, k =>
    let (y, k) := clone x k
    let (ys, k) := cloneArray clone xs k
    (y :: ys, k)

/-- Copy a string: the pointer stays null if there is no memory, which is not noticed. -/
def cloneString : Option (List UInt8) → ℕ → Option (List UInt8) × ℕ
  | none, k => (none, k)
  | some text, k => (if strings k then some text else none, k + 1)

/-- Copy the strings of an import. -/
def cloneImport (imp : ImportInfo) (k : ℕ) : ImportInfo × ℕ :=
  let (moduleUtf8, k) := cloneString strings imp.moduleUtf8 k
  let (fieldUtf8, k) := cloneString strings imp.fieldUtf8 k
  (⟨moduleUtf8, fieldUtf8⟩, k)

/-- Copy a name. -/
def cloneName : ModuleName → ℕ → ModuleName × ℕ
  | .null, k => (.null, k)
  | .field, k => (.field, k)
  | .own text, k => (if strings k then .own text else .null, k + 1)

/-- Copy a function. -/
def cloneFunction (f : ModuleFunction) (k : ℕ) : ModuleFunction × ℕ :=
  let (importInfo, k) := cloneImport strings f.importInfo k
  let (names, k) := cloneArray (cloneName strings) f.names k
  ({ f with importInfo, names }, k)

/-- Copy a global. -/
def cloneGlobal (g : ModuleGlobal) (k : ℕ) : ModuleGlobal × ℕ :=
  let (importInfo, k) := cloneImport strings g.importInfo k
  let (name, k) := cloneName strings g.name k
  ({ g with importInfo, name }, k)

end

/-- `wasm_clone_module`: it notices if there is no memory for the module or for an array. -/
def wasmCloneModule (src : ParsedModule) (a : CloneAllocs) : Option ParsedModule :=
  if ¬ a.dst then none
  else if src.funcTypes ≠ [] ∧ ¬ a.funcTypes then none
  else if src.functions ≠ [] ∧ ¬ a.functions then none
  else
    let (functions, k) := cloneArray (cloneFunction a.strings) src.functions 0
    if src.dataSegments ≠ [] ∧ ¬ a.dataSegments then none
    else if src.globals ≠ [] ∧ ¬ a.globals then none
    else
      let (globals, _) := cloneArray (cloneGlobal a.strings) src.globals k
      some { src with functions, globals }

/-! ## The cache -/

/-- `wasm_parse_cache_entry_t`; buffers are numbered as they are allocated. -/
structure CacheEntry where
  hash : UInt64
  bytes : ℕ
  size : ℕ
  master : ParsedModule
deriving DecidableEq, Repr

/-- A program that was loaded. -/
structure LoadedProgram where
  /-- What was read for it. -/
  read : List UInt8
  module : ParsedModule
  /-- The buffer that the module points into. -/
  bytes : ℕ
  /-- `ra->wasm_data` -/
  wasmData : Option ℕ
deriving DecidableEq, Repr

/-- The state that the programs share. -/
structure ModuleCache where
  /-- What is in each buffer that was allocated. -/
  buffers : List (List UInt8)
  freed : List ℕ
  /-- `g_wasm_parse_cache` -/
  entries : List CacheEntry
  running : ℕ → Option LoadedProgram
  /-- How many programs were spawned. -/
  spawned : ℕ

/-- What a spawn meets. -/
structure SpawnInput where
  /-- The file was opened, and there was memory for it. -/
  opened : Bool
  /-- What `fs_read` left in the buffer -/
  read : List UInt8
  /-- There are environments and a runtime. -/
  hasRuntime : Bool
  /-- `m3_ParseModule` had the memory that it needs. -/
  parsed : Bool
  /-- There was memory for the entry. -/
  inserted : Bool
  clone : CloneAllocs
  /-- `m3_LoadModule` succeeded. -/
  loaded : Bool

/-- What may happen. -/
inductive CacheOp
  | spawn (i : SpawnInput)
  /-- A program ends or is killed: `Label_Done` and `wasm_proc_cleanup` free the same. -/
  | exit (n : ℕ)

namespace ModuleCache

/-- Nothing was spawned yet. -/
def init : ModuleCache := ⟨[], [], [], fun _ => none, 0⟩

/-- `kmalloc` for a program, and what is read into it -/
def alloc (s : ModuleCache) (read : List UInt8) : ModuleCache := { s with buffers := s.buffers ++ [read] }

/-- `kfree` of a buffer -/
def free (s : ModuleCache) (buffer : ℕ) : ModuleCache := { s with freed := s.freed ++ [buffer] }

/-- The end of `wasm_thread_entry`: the buffer is freed that the program still owns. -/
def done (s : ModuleCache) (wasmData : Option ℕ) : ModuleCache :=
  match wasmData with
  | none => s
  | some buffer => s.free buffer

/-- `wasm_parse_cache_lookup` -/
def lookup (s : ModuleCache) (hash : UInt64) : Option CacheEntry := s.entries.find? fun e => e.hash = hash

/-- `wasm_parse_cache_insert` -/
def insert (s : ModuleCache) (e : CacheEntry) : ModuleCache := { s with entries := e :: s.entries }

/-- The program with a number runs, or it does not any more. -/
def setRunning (s : ModuleCache) (n : ℕ) (p : Option LoadedProgram) : ModuleCache :=
  { s with running := Function.update s.running n p }

/-- From `do_load` on -/
def load (s : ModuleCache) (loaded : Bool) (p : LoadedProgram) : ModuleCache :=
  if loaded then s.setRunning s.spawned (some p) else s.done p.wasmData

/-- A module is cloned for a program, and loaded if there is one. -/
def loadClone (s : ModuleCache) (i : SpawnInput) (master : ParsedModule) (bytes : ℕ) : ModuleCache :=
  match wasmCloneModule master i.clone with
  | none => s
  | some m => s.load i.loaded ⟨i.read, m, bytes, none⟩

section

variable (hash : List UInt8 → UInt64) (parse : List UInt8 → Option ParsedModule)

/-- `wasm_thread_entry` up to the call of `_start`, in a buffer that was allocated for it -/
def threadEntry (s : ModuleCache) (i : SpawnInput) (buffer : ℕ) : ModuleCache :=
  if ¬ i.hasRuntime then s.free buffer
  else
    match s.lookup (hash i.read) with
    | some e => (s.free buffer).loadClone i e.master e.bytes
    | none =>
      match if i.parsed then parse i.read else none with
      | none => s.free buffer
      | some master =>
        if i.inserted then
          (s.insert ⟨hash i.read, buffer, i.read.length, master⟩).loadClone i master buffer
        else s.load i.loaded ⟨i.read, master, buffer, some buffer⟩

/-- The state after an operation -/
def step (s : ModuleCache) : CacheOp → ModuleCache
  | .spawn i =>
    let s := { s with spawned := s.spawned + 1 }
    if i.opened then (s.alloc i.read).threadEntry hash parse i s.buffers.length else s
  | .exit n =>
    match s.running n with
    | none => s
    | some p => (s.setRunning n none).done p.wasmData

end

end ModuleCache

/-! ## Clones -/

section

variable {A : Type*} {strings : ℕ → Bool}

/-- How many strings there are -/
def textCount : Option (List UInt8) → ℕ
  | none => 0
  | some _ => 1

/-- How many strings an import has -/
def ImportInfo.stringCount (imp : ImportInfo) : ℕ := textCount imp.moduleUtf8 + textCount imp.fieldUtf8

/-- How many strings a name has of its own -/
def ModuleName.stringCount : ModuleName → ℕ
  | .own _ => 1
  | _ => 0

/-- How many strings a function has -/
def ModuleFunction.stringCount (f : ModuleFunction) : ℕ :=
  f.importInfo.stringCount + (f.names.map ModuleName.stringCount).sum

/-- How many strings a global has -/
def ModuleGlobal.stringCount (g : ModuleGlobal) : ℕ := g.importInfo.stringCount + g.name.stringCount

/-- How many strings `wasm_clone_module` copies -/
def ParsedModule.stringCount (m : ParsedModule) : ℕ :=
  (m.functions.map ModuleFunction.stringCount).sum + (m.globals.map ModuleGlobal.stringCount).sum

/-- The allocations from the `k`-th up to the `l`-th succeed. -/
def Succeed (strings : ℕ → Bool) (k l : ℕ) : Prop := ∀ n, k ≤ n → n < l → strings n = true

theorem Succeed.left {k l m : ℕ} (h : Succeed strings k m) (hl : l ≤ m) : Succeed strings k l :=
  fun n hk hn => h n hk (hn.trans_le hl)

theorem Succeed.right {k l m : ℕ} (h : Succeed strings k m) (hl : k ≤ l) : Succeed strings l m :=
  fun n hn hm => h n (hl.trans hn) hm

/-- A function copies what it is given, if the allocations for the strings succeed. -/
def Copies (strings : ℕ → Bool) (clone : A → ℕ → A × ℕ) (count : A → ℕ) : Prop :=
  ∀ x k, Succeed strings k (k + count x) → clone x k = (x, k + count x)

theorem copies_cloneString : Copies strings (cloneString strings) textCount := by
  intro x k h
  cases x with
  | none => rfl
  | some text =>
    have hk : strings k = true := h k le_rfl (Nat.lt_succ_self k)
    simp [cloneString, textCount, hk]

theorem copies_cloneName : Copies strings (cloneName strings) ModuleName.stringCount := by
  intro x k h
  cases x with
  | null => rfl
  | field => rfl
  | own text =>
    have hk : strings k = true := h k le_rfl (Nat.lt_succ_self k)
    simp [cloneName, ModuleName.stringCount, hk]

/-- An array is copied if its elements are. -/
theorem Copies.array {clone : A → ℕ → A × ℕ} {count : A → ℕ} (hclone : Copies strings clone count) :
    Copies strings (cloneArray clone) fun xs => (xs.map count).sum := by
  intro xs
  induction xs with
  | nil => exact fun k _ => rfl
  | cons x xs ih =>
    intro k h
    dsimp only at h ⊢
    rw [List.map_cons, List.sum_cons, ← Nat.add_assoc] at h ⊢
    have hx := hclone x k (h.left (Nat.le_add_right _ _))
    have hxs := ih (k + count x) (h.right (Nat.le_add_right _ _))
    unfold cloneArray
    rw [hx]
    dsimp only
    rw [hxs]

theorem copies_cloneImport : Copies strings (cloneImport strings) ImportInfo.stringCount := by
  intro imp k h
  unfold ImportInfo.stringCount at h ⊢
  rw [← Nat.add_assoc] at h ⊢
  have hmodule := copies_cloneString imp.moduleUtf8 k (h.left (Nat.le_add_right _ _))
  have hfield := copies_cloneString imp.fieldUtf8 _ (h.right (Nat.le_add_right _ _))
  unfold cloneImport
  rw [hmodule]
  dsimp only
  rw [hfield]

theorem copies_cloneFunction : Copies strings (cloneFunction strings) ModuleFunction.stringCount := by
  intro f k h
  unfold ModuleFunction.stringCount at h ⊢
  rw [← Nat.add_assoc] at h ⊢
  have himport := copies_cloneImport f.importInfo k (h.left (Nat.le_add_right _ _))
  have hnames := copies_cloneName.array f.names _ (h.right (Nat.le_add_right _ _))
  unfold cloneFunction
  rw [himport]
  dsimp only
  rw [hnames]

theorem copies_cloneGlobal : Copies strings (cloneGlobal strings) ModuleGlobal.stringCount := by
  intro g k h
  unfold ModuleGlobal.stringCount at h ⊢
  rw [← Nat.add_assoc] at h ⊢
  have himport := copies_cloneImport g.importInfo k (h.left (Nat.le_add_right _ _))
  have hname := copies_cloneName g.name _ (h.right (Nat.le_add_right _ _))
  unfold cloneGlobal
  rw [himport]
  dsimp only
  rw [hname]

/-- With memory for its strings, a clone is the same as the module. -/
theorem wasmCloneModule_eq {src m : ParsedModule} {a : CloneAllocs} (hm : wasmCloneModule src a = some m)
    (h : Succeed a.strings 0 src.stringCount) : m = src := by
  have hfunctions := copies_cloneFunction.array src.functions 0 (by
    rw [Nat.zero_add]
    exact h.left (Nat.le_add_right _ _))
  have hglobals := copies_cloneGlobal.array src.globals (src.functions.map ModuleFunction.stringCount).sum
    (h.right (Nat.zero_le _))
  rw [Nat.zero_add] at hfunctions
  unfold wasmCloneModule at hm
  rw [hfunctions] at hm
  dsimp only at hm
  rw [hglobals] at hm
  -- Only the last branch gives a module.
  split at hm
  · cases hm
  · split at hm
    · cases hm
    · split at hm
      · cases hm
      · split at hm
        · cases hm
        · split at hm
          · cases hm
          · exact (Option.some.inj hm).symm

end

namespace ModuleCache

/-! ## Whose a buffer is -/

/-- No buffer that is in use is freed, and a buffer that a program owns is its alone. -/
structure Owned (s : ModuleCache) : Prop where
  freed : ∀ b ∈ s.freed, b < s.buffers.length
  entries : ∀ e ∈ s.entries, e.bytes < s.buffers.length ∧ e.bytes ∉ s.freed
  running : ∀ n p, s.running n = some p → p.bytes < s.buffers.length ∧ p.bytes ∉ s.freed
  owner : ∀ n p b, s.running n = some p → p.wasmData = some b →
    b = p.bytes ∧ (∀ e ∈ s.entries, e.bytes ≠ b) ∧ ∀ m q, s.running m = some q → q.bytes = b → m = n

/-- A buffer that nothing points into yet. -/
structure Fresh (s : ModuleCache) (b : ℕ) : Prop where
  lt : b < s.buffers.length
  freed : b ∉ s.freed
  entries : ∀ e ∈ s.entries, e.bytes ≠ b
  running : ∀ n p, s.running n = some p → p.bytes ≠ b

section

variable {s : ModuleCache} {b : ℕ}

theorem owned_init : init.Owned where
  freed b h := by cases h
  entries e h := by cases h
  running n p h := by cases h
  owner n p b h := by cases h

theorem Owned.alloc (h : s.Owned) (read : List UInt8) : (s.alloc read).Owned := by
  have hlen : (s.alloc read).buffers.length = s.buffers.length + 1 := List.length_append
  constructor
  · intro b hb
    exact hlen ▸ (h.freed b hb).trans (Nat.lt_succ_self _)
  · intro e he
    exact ⟨hlen ▸ (h.entries e he).1.trans (Nat.lt_succ_self _), (h.entries e he).2⟩
  · intro n p hp
    exact ⟨hlen ▸ (h.running n p hp).1.trans (Nat.lt_succ_self _), (h.running n p hp).2⟩
  · exact h.owner

theorem Owned.fresh (h : s.Owned) (read : List UInt8) : (s.alloc read).Fresh s.buffers.length := by
  constructor
  · show s.buffers.length < (s.buffers ++ [read]).length
    rw [List.length_append, List.length_singleton]
    exact Nat.lt_succ_self _
  · exact fun hb => Nat.lt_irrefl _ (h.freed _ hb)
  · exact fun e he => (h.entries e he).1.ne
  · exact fun n p hp => (h.running n p hp).1.ne

theorem Owned.free (h : s.Owned) (hb : s.Fresh b) : (s.free b).Owned := by
  constructor
  · intro c hc
    rcases List.mem_append.mp hc with hc | hc
    · exact h.freed c hc
    · exact List.mem_singleton.mp hc ▸ hb.lt
  · intro e he
    refine ⟨(h.entries e he).1, fun hc => ?_⟩
    rcases List.mem_append.mp hc with hc | hc
    · exact (h.entries e he).2 hc
    · exact hb.entries e he (List.mem_singleton.mp hc)
  · intro n p hp
    refine ⟨(h.running n p hp).1, fun hc => ?_⟩
    rcases List.mem_append.mp hc with hc | hc
    · exact (h.running n p hp).2 hc
    · exact hb.running n p hp (List.mem_singleton.mp hc)
  · exact h.owner

/-- The cache takes over a buffer. -/
theorem Owned.insert (h : s.Owned) {e : CacheEntry} (he : s.Fresh e.bytes) : (s.insert e).Owned := by
  constructor
  · exact h.freed
  · intro e' he'
    rcases List.mem_cons.mp he' with rfl | he'
    · exact ⟨he.lt, he.freed⟩
    · exact h.entries e' he'
  · exact h.running
  · intro n p b hp hb
    obtain ⟨rfl, hentries, huniq⟩ := h.owner n p b hp hb
    refine ⟨rfl, fun e' he' => ?_, huniq⟩
    rcases List.mem_cons.mp he' with rfl | he'
    · exact (he.running n p hp).symm
    · exact hentries e' he'

/-- The programs that run after one was set -/
theorem running_setRunning {n m : ℕ} {p : Option LoadedProgram} {q : LoadedProgram}
    (h : (s.setRunning n p).running m = some q) : m = n ∧ p = some q ∨ m ≠ n ∧ s.running m = some q := by
  by_cases hm : m = n
  · subst hm
    have hself : (s.setRunning m p).running m = p := Function.update_self _ _ _
    exact .inl ⟨rfl, hself.symm.trans h⟩
  · have hne : (s.setRunning n p).running m = s.running m := Function.update_of_ne hm _ _
    exact .inr ⟨hm, hne.symm.trans h⟩

/-- A program runs in a buffer that no other program owns. -/
theorem Owned.run (h : s.Owned) (n : ℕ) {p : LoadedProgram} (hlt : p.bytes < s.buffers.length)
    (hfreed : p.bytes ∉ s.freed) (hother : ∀ m q, s.running m = some q → q.wasmData ≠ some p.bytes)
    (hown : p.wasmData = none ∨ p.wasmData = some p.bytes ∧ s.Fresh p.bytes) :
    (s.setRunning n (some p)).Owned := by
  constructor
  · exact h.freed
  · exact h.entries
  · intro m q hq
    rcases running_setRunning hq with ⟨-, hpq⟩ | ⟨-, hq⟩
    · obtain rfl := Option.some.inj hpq
      exact ⟨hlt, hfreed⟩
    · exact h.running m q hq
  · intro m q b hq hb
    rcases running_setRunning hq with ⟨rfl, hpq⟩ | ⟨-, hq⟩
    · obtain rfl := Option.some.inj hpq
      rcases hown with hnone | ⟨hsome, hfresh⟩
      · rw [hnone] at hb
        cases hb
      · obtain rfl := Option.some.inj (hsome.symm.trans hb)
        refine ⟨rfl, hfresh.entries, fun m' q' hq' hbytes => ?_⟩
        rcases running_setRunning hq' with ⟨hm', -⟩ | ⟨-, hq'⟩
        · exact hm'
        · exact absurd hbytes (hfresh.running m' q' hq')
    · obtain ⟨rfl, hentries, huniq⟩ := h.owner m q b hq hb
      refine ⟨rfl, hentries, fun m' q' hq' hbytes => ?_⟩
      rcases running_setRunning hq' with ⟨-, hpq⟩ | ⟨-, hq'⟩
      · obtain rfl := Option.some.inj hpq
        rw [← hbytes] at hb
        exact absurd hb (hother m q hq)
      · exact huniq m' q' hq' hbytes

/-- A program ends and frees the buffer that it owns. -/
theorem Owned.exit (h : s.Owned) {n : ℕ} {p : LoadedProgram} (hp : s.running n = some p) :
    ((s.setRunning n none).done p.wasmData).Owned := by
  have hended : (s.setRunning n none).Owned := by
    constructor
    · exact h.freed
    · exact h.entries
    · intro m q hq
      rcases running_setRunning hq with ⟨-, hnone⟩ | ⟨-, hq⟩
      · cases hnone
      · exact h.running m q hq
    · intro m q b hq hb
      rcases running_setRunning hq with ⟨-, hnone⟩ | ⟨-, hq⟩
      · cases hnone
      · obtain ⟨rfl, hentries, huniq⟩ := h.owner m q b hq hb
        refine ⟨rfl, hentries, fun m' q' hq' hbytes => ?_⟩
        rcases running_setRunning hq' with ⟨-, hnone⟩ | ⟨-, hq'⟩
        · cases hnone
        · exact huniq m' q' hq' hbytes
  cases hdata : p.wasmData with
  | none => exact hended
  | some b =>
    obtain ⟨rfl, hentries, huniq⟩ := h.owner n p b hp hdata
    apply hended.free
    constructor
    · exact (h.running n p hp).1
    · exact (h.running n p hp).2
    · exact hentries
    · intro m q hq hbytes
      rcases running_setRunning hq with ⟨-, hnone⟩ | ⟨hne, hq⟩
      · cases hnone
      · exact hne (huniq m q hq hbytes)

/-- The last part of a spawn, in a buffer of the cache. -/
theorem Owned.loadClone (h : s.Owned) (i : SpawnInput) {e : CacheEntry} (he : e ∈ s.entries)
    (master : ParsedModule) : (s.loadClone i master e.bytes).Owned := by
  unfold ModuleCache.loadClone
  split
  · exact h
  · unfold load
    split
    · obtain ⟨hlt, hfreed⟩ := h.entries e he
      refine h.run s.spawned hlt hfreed (fun m q hq hdata => ?_) (.inl rfl)
      exact (h.owner m q _ hq hdata).2.1 e he rfl
    · exact h

theorem mem_of_lookup {k : UInt64} {e : CacheEntry} (h : s.lookup k = some e) : e ∈ s.entries ∧ e.hash = k := by
  constructor
  · exact List.mem_of_find?_eq_some h
  · simpa using List.find?_some h

/-- A spawn keeps the buffers apart, whatever the hash and the parser compute. -/
theorem Owned.threadEntry (hash : List UInt8 → UInt64) (parse : List UInt8 → Option ParsedModule) (h : s.Owned)
    (hb : s.Fresh b) (i : SpawnInput) : (s.threadEntry hash parse i b).Owned := by
  unfold ModuleCache.threadEntry
  split
  · exact h.free hb
  · split
    · rename_i e hlookup
      exact (h.free hb).loadClone i (mem_of_lookup hlookup).1 e.master
    · split
      · exact h.free hb
      · rename_i master _
        split
        · exact (h.insert (e := ⟨hash i.read, b, i.read.length, master⟩) hb).loadClone i List.mem_cons_self master
        · unfold load
          split
          · refine h.run s.spawned hb.lt hb.freed (fun m q hq hdata => ?_) (.inr ⟨rfl, hb⟩)
            exact hb.running m q hq (h.owner m q b hq hdata).1.symm
          · exact h.free hb

/-- An operation keeps the buffers apart. -/
theorem Owned.step (hash : List UInt8 → UInt64) (parse : List UInt8 → Option ParsedModule) (h : s.Owned)
    (op : CacheOp) : (s.step hash parse op).Owned := by
  cases op with
  | spawn i =>
    have hcounted : ({ s with spawned := s.spawned + 1 } : ModuleCache).Owned :=
      ⟨h.freed, h.entries, h.running, h.owner⟩
    dsimp only [ModuleCache.step]
    split
    · exact (hcounted.alloc i.read).threadEntry hash parse (hcounted.fresh i.read) i
    · exact hcounted
  | exit n =>
    dsimp only [ModuleCache.step]
    split
    · exact h
    · exact h.exit ‹_›

end

/-! ## What runs -/

section

variable (hash : List UInt8 → UInt64) (parse : List UInt8 → Option ParsedModule)

/-- A program that runs is the parse of what was read for it, and its module points into a buffer with that; neither
this buffer nor that of a cached module is freed. -/
def Sound (s : ModuleCache) : Prop :=
  (∀ n p, s.running n = some p →
    parse p.read = some p.module ∧ s.buffers[p.bytes]? = some p.read ∧ p.bytes ∉ s.freed) ∧
  ∀ e ∈ s.entries, e.bytes ∉ s.freed

/-- The module that a spawn clones -/
def cloned (s : ModuleCache) (i : SpawnInput) : Option ParsedModule :=
  match s.lookup (hash i.read) with
  | some e => some e.master
  | none => if i.parsed then parse i.read else none

/-- A hit is on an entry with the bytes that were read, and there is memory for the strings of a clone. -/
def Honest (s : ModuleCache) : CacheOp → Prop
  | .spawn i =>
    (∀ e ∈ s.lookup (hash i.read), s.buffers[e.bytes]? = some i.read) ∧
      ∀ m ∈ s.cloned hash parse i, ∀ k < m.stringCount, i.clone.strings k = true
  | .exit _ => True

instance (s : ModuleCache) (op : CacheOp) : Decidable (s.Honest hash parse op) :=
  match op with
  | .spawn _ => inferInstanceAs (Decidable (_ ∧ _))
  | .exit _ => .isTrue trivial

/-- The cache holds parses of the buffers that its entries point to, and the programs that run are parses of what
was read for them. -/
structure Genuine (s : ModuleCache) : Prop where
  entries : ∀ e ∈ s.entries, ∃ read, s.buffers[e.bytes]? = some read ∧ parse read = some e.master
  running : ∀ n p, s.running n = some p →
    parse p.read = some p.module ∧ s.buffers[p.bytes]? = some p.read

end

section

variable {hash : List UInt8 → UInt64} {parse : List UInt8 → Option ParsedModule} {s : ModuleCache}

theorem genuine_init : init.Genuine parse where
  entries e h := by cases h
  running n p h := by cases h

theorem Genuine.alloc (h : s.Genuine parse) (read : List UInt8) : (s.alloc read).Genuine parse := by
  have hkept : ∀ (b : ℕ) (r : List UInt8), s.buffers[b]? = some r → (s.alloc read).buffers[b]? = some r := by
    intro b r hb
    have hlt : b < s.buffers.length := (List.getElem?_eq_some_iff.mp hb).1
    exact (List.getElem?_append_left hlt).trans hb
  constructor
  · intro e he
    obtain ⟨r, hr, hparse⟩ := h.entries e he
    exact ⟨r, hkept e.bytes r hr, hparse⟩
  · intro n p hp
    exact ⟨(h.running n p hp).1, hkept p.bytes p.read (h.running n p hp).2⟩

theorem Genuine.free (h : s.Genuine parse) (b : ℕ) : (s.free b).Genuine parse := ⟨h.entries, h.running⟩

theorem Genuine.done (h : s.Genuine parse) (wasmData : Option ℕ) : (s.done wasmData).Genuine parse := by
  cases wasmData with
  | none => exact h
  | some b => exact h.free b

theorem Genuine.setRunning (h : s.Genuine parse) (n : ℕ) {p : Option LoadedProgram}
    (hp : ∀ q, p = some q → parse q.read = some q.module ∧ s.buffers[q.bytes]? = some q.read) :
    (s.setRunning n p).Genuine parse := by
  constructor
  · exact h.entries
  · intro m q hq
    rcases running_setRunning hq with ⟨-, hpq⟩ | ⟨-, hq⟩
    · exact hp q hpq
    · exact h.running m q hq

/-- From `do_load` on, with a module that is the parse of what was read -/
theorem Genuine.load (h : s.Genuine parse) (loaded : Bool) {p : LoadedProgram}
    (hparse : parse p.read = some p.module) (hbytes : s.buffers[p.bytes]? = some p.read) :
    (s.load loaded p).Genuine parse := by
  unfold ModuleCache.load
  split
  · apply h.setRunning
    rintro q heq
    obtain rfl := Option.some.inj heq
    exact ⟨hparse, hbytes⟩
  · exact h.done p.wasmData

theorem Genuine.loadClone (h : s.Genuine parse) {i : SpawnInput} {master : ParsedModule} {bytes : ℕ}
    (hparse : parse i.read = some master) (hbytes : s.buffers[bytes]? = some i.read)
    (hstrings : ∀ k < master.stringCount, i.clone.strings k = true) :
    (s.loadClone i master bytes).Genuine parse := by
  unfold ModuleCache.loadClone
  split
  · exact h
  · rename_i m hm
    obtain rfl := wasmCloneModule_eq hm fun k _ hk => hstrings k hk
    exact h.load i.loaded hparse hbytes

/-- A spawn that is honest runs what was read. -/
theorem Genuine.threadEntry (h : s.Genuine parse) {i : SpawnInput} {b : ℕ}
    (hbytes : s.buffers[b]? = some i.read) (hi : s.Honest hash parse (.spawn i)) :
    (s.threadEntry hash parse i b).Genuine parse := by
  obtain ⟨hhit, hstrings⟩ := hi
  unfold ModuleCache.threadEntry
  unfold cloned at hstrings
  split
  · exact h.free b
  · split
    · rename_i e hlookup
      rw [hlookup] at hhit hstrings
      have hsame : s.buffers[e.bytes]? = some i.read := hhit e rfl
      obtain ⟨read, hread, hparse⟩ := h.entries e (mem_of_lookup hlookup).1
      obtain rfl := Option.some.inj (hread.symm.trans hsame)
      exact (h.free b).loadClone hparse hsame (hstrings e.master rfl)
    · rename_i hlookup
      rw [hlookup] at hstrings
      split
      · exact h.free b
      · rename_i master hmaster
        have hparse : parse i.read = some master := (Option.ite_none_right_eq_some.mp hmaster).2
        split
        · have hinsert : (s.insert ⟨hash i.read, b, i.read.length, master⟩).Genuine parse := by
            constructor
            · intro e he
              rcases List.mem_cons.mp he with rfl | he
              · exact ⟨i.read, hbytes, hparse⟩
              · exact h.entries e he
            · exact h.running
          exact hinsert.loadClone hparse hbytes (hstrings master hmaster)
        · exact h.load i.loaded hparse hbytes

theorem Genuine.step (h : s.Genuine parse) {op : CacheOp} (hop : s.Honest hash parse op) :
    (s.step hash parse op).Genuine parse := by
  cases op with
  | spawn i =>
    have hcounted : ({ s with spawned := s.spawned + 1 } : ModuleCache).Genuine parse :=
      ⟨h.entries, h.running⟩
    dsimp only [ModuleCache.step]
    split
    · apply (hcounted.alloc i.read).threadEntry
      · exact List.getElem?_concat_length
      · -- The entry that is hit was there before, with its buffer.
        obtain ⟨hhit, hstrings⟩ := hop
        refine ⟨fun e he => ?_, hstrings⟩
        have hold := hhit e he
        have hlt : e.bytes < s.buffers.length := (List.getElem?_eq_some_iff.mp hold).1
        exact (List.getElem?_append_left hlt).trans hold
    · exact hcounted
  | exit n =>
    dsimp only [ModuleCache.step]
    split
    · exact h
    · apply Genuine.done
      apply h.setRunning
      rintro q hq
      cases hq

end

/-- Whatever is spawned, the buffer of a cached module is never freed. -/
theorem cached_bytes_kept (hash : List UInt8 → UInt64) (parse : List UInt8 → Option ParsedModule)
    (ops : List CacheOp) : Runs.Always (step hash parse) Owned init ops := by
  apply Runs.always_of_along (P := Owned) (C := fun _ _ => True)
  · exact fun s op hs _ => hs.step hash parse op
  · exact owned_init
  · exact Runs.along_of_forall (fun _ _ _ => trivial) init

/-- A module with one import, `env.ls`, that tells how long the file was. -/
def importLs (read : List UInt8) : ParsedModule where
  wasmStart := 0
  wasmEnd := read.length
  startFunction := -1
  memoryPages := (1, 1)
  memoryImported := false
  funcTypes := [0]
  numFuncImports := 1
  functions := [⟨⟨some [101, 110, 118], some [108, 115]⟩, [.field], 0, 0, 0⟩]
  dataSegments := []
  globals := []
  numElementSegments := 0
  elementSection := 0
  elementSectionEnd := 0

/-- A spawn with all the memory that it needs -/
def spawnOf (read : List UInt8) : CacheOp :=
  .spawn ⟨true, read, true, true, true, ⟨true, true, true, true, true, fun _ => true⟩, true⟩

end ModuleCache

end Sandflea
