import Sandflea.Ext2.Bmap
import Sandflea.Ext2.InodeTable

/-!
# Path resolution

`fs_resolve_path` makes a path canonical; `ext2_find_path` looks it up, switching to the drive that its
prefix names and following symbolic links. The walk of one path to its end, or to a link, is
`walkComponents`; a link restarts the walk on a rebuilt path (`findFrom`).

C strings are lists of bytes without a terminator. A copy into a buffer keeps what fits (`appendTo`).
-/

namespace Sandflea

open Bytes Kern

/-- The C string that a buffer starts with. -/
def cstr (t : Str) : Str := t.takeWhile (· ≠ 0)

/-- Append to the string in a buffer of `size` bytes what fits into it. -/
def appendTo (size : ℕ) (out t : Str) : Str := (out ++ t).take (size - 1)

/-- `str_eql(a, b, n)` from offset `i` on. -/
def strEql (a b : ℕ → UInt8) : ℕ → ℕ → Bool
  | _, 0 => true
  | i, n + 1 => if a i ≠ b i then false else if a i = 0 then true else strEql a b (i + 1) n

/-! ## Canonical paths -/

/-- Whether a path has a drive prefix. -/
def hasDrive (path : Str) : Bool := path.take 2 = [slash, slash]

/-- The drive prefix of a path that has one, `//D`. -/
def driveOf (path : Str) : Str := path.take 2 ++ (path.drop 2).takeWhile (· ≠ slash)

/-- What follows the drive prefix. -/
def afterDrive (path : Str) : Str := (path.drop 2).dropWhile (· ≠ slash)

/-- `fs_get_cwd`, over the working directories of the process, of the session, and the global one. -/
def fsGetCwd (cwds : Str × Str × Str) : Str :=
  if cwds.1 ≠ [] then cwds.1
  else if cwds.2.1 ≠ [] then cwds.2.1
  else if cwds.2.2 ≠ [] then cwds.2.2
  else str "//A/"

/-- The prefix that stands in for a missing one: the first letter of the active drive's name. -/
def letterPrefix (driveName : Str) : Str := [slash, slash, driveName.headD 65]

/-- `combined`: the path behind the working directory, or behind its drive. -/
def combinePath (cwd driveName path : Str) : Str :=
  if hasDrive path then appendTo 512 [] path
  else if path.head? = some slash then
    let drivePref := if hasDrive cwd then (driveOf cwd).take 31 else letterPrefix driveName
    appendTo 512 drivePref path
  else
    let base := appendTo 512 [] cwd
    let base := if base ≠ [] ∧ base.getLast? ≠ some slash then appendTo 512 base [slash] else base
    appendTo 512 base path

/-- The components between the slashes of a path. -/
def splitSlash : Str → Str → List Str
  | [], [] => []
  | seg, [] => [seg.reverse]
  | seg, c :: cs =>
    if c = slash then (if seg = [] then splitSlash [] cs else seg.reverse :: splitSlash [] cs)
    else splitSlash (c :: seg) cs

/-- One component: `.` and `..`, and at most 32 others. -/
def pushSegment (segments : List Str) (seg : Str) : List Str :=
  if seg = str "." then segments
  else if seg = str ".." then segments.dropLast
  else if segments.length < 32 then segments ++ [seg]
  else segments

/-- The second half of `fs_resolve_path`: the canonical form of `combined` in a buffer of `outSize`
bytes. -/
def canonicalize (outSize : ℕ) (driveName combined : Str) : Str :=
  let drivePrefix :=
    if hasDrive combined then (driveOf combined).take 31 else letterPrefix driveName
  let scan := if hasDrive combined then afterDrive combined else combined
  let segments := (splitSlash [] scan).foldl pushSegment []
  let out := appendTo outSize [] drivePrefix
  if segments = [] then appendTo outSize out [slash]
  else segments.foldl (fun out seg => appendTo outSize (appendTo outSize out [slash]) seg) out

/-- `fs_resolve_path(path, out, outSize)` -/
def fsResolvePath (path : Str) (outSize : ℕ) : Kern Str := do
  let dirs ← cwds
  let driveName ← activeName
  if path = [] then pure (appendTo outSize [] (fsGetCwd dirs))
  else pure (canonicalize outSize driveName (combinePath (fsGetCwd dirs) driveName path))

/-! ## Directories -/

/-- The entries of one directory block, from an offset on: the number of the inode that the first live
entry with the name points to. -/
def findEntry (data : Bytes) (blockSize : ℕ) (name : Str) : ℕ → ℕ → Option ℕ
  | 0, _ => none
  | fuel + 1, off =>
    if off < blockSize then
      if u16At data (off + 4) < 8 then none
      else if u32At data off ≠ 0 ∧
          strEql (fun i => name.getD i 0) (fun i => data (off + 8 + i)) 0 (data (off + 6)).toNat then
        some (u32At data off)
      else findEntry data blockSize name fuel (off + u16At data (off + 4))
    else none

/-- The loop of `ext2_find_child` over the blocks of a directory. -/
def findChildIn (dir : Inode) (name : Str) (blockSize : ℕ) : List ℕ → Kern ℕ
  | [] => pure 0
  | b :: bs => do
    let physBlock ← ext2GetBmap dir b
    if physBlock = 0 then findChildIn dir name blockSize bs
    else do
      let data ← ext2ReadBlock physBlock
      match findEntry data blockSize name blockSize 0 with
      | some inodeNo => pure inodeNo
      | none => findChildIn dir name blockSize bs

/-- `ext2_find_child` -/
def ext2FindChild (dir : Inode) (name : Str) : Kern ℕ := do
  let sb ← superblock
  if dir.fileType ≠ ext2SIfdir then pure 0
  else do
    let mem ← kmalloc sb.blockSize
    if mem then
      let totalBlocks := (dir.size + sb.blockSize - 1) % 2 ^ 32 / sb.blockSize
      findChildIn dir name sb.blockSize (List.range totalBlocks)
    else pure 0

/-- `ext2_read_symlink_target` into a buffer of `outSize` bytes. -/
def ext2ReadSymlinkTarget (inode : Inode) (outSize : ℕ) : Kern (Option Str) := do
  let sb ← superblock
  if inode.fileType ≠ ext2SIflnk then pure none
  else
    let len := min inode.size (outSize - 1)
    if inode.blocks = 0 then pure (some (cstr (inode.blockText len)))
    else do
      let phys ← ext2GetBmap inode 0
      if phys = 0 then pure none
      else do
        let mem ← kmalloc sb.blockSize
        if mem then do
          let buf ← ext2ReadBlock phys
          pure (some (cstr ((List.range len).map buf)))
        else pure none

/-! ## The lookup -/

/-- `EXT2_SYMLINK_MAX_DEPTH` -/
def ext2SymlinkMaxDepth : ℕ := 8

/-- How the walk of one path ends: with a result, or at a symbolic link with the path to restart on. -/
inductive Walk
  /-- The returned inode and its number, or null. -/
  | done (r : Option (ℕ × Inode))
  /-- `goto restart` with a new `link_path`. -/
  | restart (linkPath : Str)

/-- The index of the first present drive with a name. -/
def driveIndex (name : Str) (drives : List (Str × Bool)) : Option ℕ :=
  drives.findIdx? fun d => d.2 && decide (d.1 = name)

/-- The rebuilt path of a symbolic link: the path before its component, its target, and the path after
its component, in a buffer of 512 bytes. -/
def spliceLink (path : Str) (prefixLen : ℕ) (target rest : Str) : Str :=
  let prefixLen := if hasDrive target then 0 else prefixLen
  appendTo 512 (appendTo 512 (appendTo 512 [] (path.take prefixLen)) target) rest

/-- The walk of the components of `path` from offset `pos` on; `follow` says whether another link may
be followed. -/
def walkComponents (path : Str) (follow : Bool) : ℕ → ℕ → ℕ → Inode → Kern Walk
  | 0, _, inodeNo, inode => do
    let r ← ext2GetInode inodeNo inode
    pure (.done (r.map fun x => (inodeNo, x)))
  | fuel + 1, pos, inodeNo, inode =>
    let ptr := path.drop pos
    if ptr = [] then do
      let r ← ext2GetInode inodeNo inode
      pure (.done (r.map fun x => (inodeNo, x)))
    else
      let nameBuf := (ptr.takeWhile (· ≠ slash)).take 255
      let rest := ptr.drop nameBuf.length
      let next := pos + nameBuf.length + if rest.head? = some slash then 1 else 0
      if nameBuf = [] then walkComponents path follow fuel next inodeNo inode
      else do
        match ← ext2GetInode inodeNo inode with
        | none => pure (.done none)
        | some dir => do
          let child ← ext2FindChild dir nameBuf
          if child = 0 then pure (.done none)
          else do
            match ← ext2GetInode child dir with
            | none => pure (.done none)
            | some x =>
              if x.fileType = ext2SIflnk then
                if follow then do
                  match ← ext2ReadSymlinkTarget x 256 with
                  | none => pure (.done none)
                  | some target => do
                    let linkPath := spliceLink path pos target rest
                    let canon ← fsResolvePath linkPath 512
                    pure (.restart canon)
                else pure (.done none)
              else walkComponents path follow fuel next child x

/-- The drive prefix of a path: switch to the drive and return the rest of the path, or `none` when
there is no such drive. -/
def crossDrive (path : Str) : Kern (Option Str) :=
  if hasDrive path then
    let name := (path.drop 2).takeWhile (· ≠ slash)
    if name = [] then pure none
    else do
      let drives ← driveList
      match driveIndex name drives with
      | none => pure none
      | some i => do
        ext2SwitchDrive i
        pure (some (if afterDrive path = [] then [slash] else afterDrive path))
  else pure (some path)

/-- `ext2_find_path` from `restart` on, with at most `links` more links to follow. -/
def findFrom : ℕ → Str → Kern (Option (ℕ × Inode))
  | links, path => do
    match ← crossDrive path with
    | none => pure none
    | some path => do
      let sb ← superblock
      let mem ← kmalloc (max inodeBytes sb.inodeSize)
      if mem then
        if path = [slash] then do
          let r ← ext2GetInode 2 Inode.zero
          pure (r.map fun x => (2, x))
        else do
          let start := if path.head? = some slash then 1 else 0
          match ← walkComponents path (links ≠ 0) path.length start 2 Inode.zero with
          | .done r => pure r
          | .restart linkPath =>
            match links with
            | 0 => pure none
            | links + 1 => findFrom links linkPath
      else pure none

/-- `ext2_find_path`: the number and the contents of the inode, or `none` for null. -/
def ext2FindPath (path : Str) : Kern (Option (ℕ × Inode)) :=
  if path = [] then pure none
  else do
    let resolved ← fsResolvePath path 256
    findFrom ext2SymlinkMaxDepth resolved

end Sandflea
