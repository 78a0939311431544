/-
The filesystem connector (`adapters/connectors/filesystem.py`): walk a
directory, describe what is in it.

# The tree

A `Tree` is what the walk meets: the entries of a directory in the order
`os.walk` lists them, and for each what a call on it would answer. A call
that raises `OSError` answers `none`, or `false` where `os.walk` lists the
directory. Every pattern of failures is a tree.
-/
import MemoryOS.Corpus.Ingest

namespace MemoryOS

-- ========= fnmatch

namespace Fnmatch

/-- A piece of a pattern. -/
inductive Piece
  | star
  | any
  | lit (c : Char)
  /-- `[seq]` and `[!seq]`; one character is a range from it to itself. -/
  | seq (negated : Bool) (ranges : List (Char × Char))
deriving DecidableEq, Repr

/-- The inside of a bracket. -/
def ranges : List Char → List (Char × Char)
  | a :: '-' :: b :: rest => (a, b) :: ranges rest
  | a :: rest => (a, a) :: ranges rest
  | [] => []

/-- What follows a `[`: whether it is negated, its inside, and what
follows its `]`. A `]` in the first place is inside. -/
def bracket (pat : List Char) : Option (Bool × List Char × List Char) :=
  let negated := pat.head? = some '!'
  let body := if negated then pat.tail else pat
  let first := if body.head? = some ']' then [']'] else []
  let rest := body.drop first.length
  match rest.dropWhile (· ≠ ']') with
  | [] => none
  | _ :: after =>
    some (negated, first ++ rest.takeWhile (· ≠ ']'), after)

/-- The pieces of a pattern; the number bounds how many. -/
def pieces : Nat → List Char → List Piece
  | 0, _ => []
  | _ + 1, [] => []
  | n + 1, c :: rest =>
    if c = '*' then .star :: pieces n rest
    else if c = '?' then .any :: pieces n rest
    else if c = '[' then
      match bracket rest with
      | none => .lit c :: pieces n rest
      | some (negated, inside, after) =>
        .seq negated (ranges inside) :: pieces n after
    else .lit c :: pieces n rest

/-- Whether the pieces match the whole name. A star matches `/` too. -/
def accepts : List Piece → List Char → Bool
  | [], name => name.isEmpty
  | .star :: ps, name => name.tails.any (accepts ps)
  | .any :: ps, name =>
    match name with
    | [] => false
    | _ :: rest => accepts ps rest
  | .lit c :: ps, name =>
    match name with
    | [] => false
    | d :: rest => decide (c = d) && accepts ps rest
  | .seq negated rs :: ps, name =>
    match name with
    | [] => false
    | d :: rest =>
      (rs.any (fun r => decide (r.1 ≤ d ∧ d ≤ r.2))) != negated
        && accepts ps rest

/-- `fnmatch.fnmatch`, where case matters. -/
def fnmatch (name pat : List Char) : Bool :=
  accepts (pieces pat.length pat) name

end Fnmatch

namespace Filesystem

-- ========== config

/-- `DEFAULT_INCLUDE`. -/
def defaultInclude : List String :=
  ["**/*.md", "**/*.txt", "**/*.py", "**/*.pdf"]

/-- `DEFAULT_EXCLUDE`. -/
def defaultExclude : List String :=
  ["**/.git/**", "**/node_modules/**", "**/.venv/**", "**/__pycache__/**",
    "**/.DS_Store", "**/var/**"]

/-- `DEFAULT_MAX_FILE_BYTES`. -/
def defaultMaxFileBytes : Int := 50 * 1024 * 1024

/-- `FilesystemConfig`, but for its root. -/
structure FilesystemConfig where
  includes : List String := defaultInclude
  excludes : List String := defaultExclude
  maxFileBytes : Int := defaultMaxFileBytes
  followSymlinks : Bool := false
deriving DecidableEq, Repr

/-- A source's `config` column. A key that is missing has Python's false
value of its type, which `or` takes for missing. -/
structure SourceConfig where
  root : String := ""
  includes : List String := []
  excludes : List String := []
  maxFileBytes : Int := 0
  followSymlinks : Bool := false
deriving DecidableEq, Repr

/-- `FilesystemConfig.from_dict`; without a root it raises `ValueError`. -/
def FilesystemConfig.fromDict (config : SourceConfig) :
    Except Failure FilesystemConfig :=
  if config.root = "" then .error .refused
  else .ok {
    includes :=
      if config.includes.isEmpty then defaultInclude else config.includes
    excludes :=
      if config.excludes.isEmpty then defaultExclude else config.excludes
    maxFileBytes :=
      if config.maxFileBytes = 0 then defaultMaxFileBytes
      else config.maxFileBytes
    followSymlinks := config.followSymlinks }

/-- `matches`: whether a relative key matches any glob, or any without its
leading `**/`. -/
def matchesAny (externalKey : String) (patterns : List String) : Bool :=
  patterns.any fun pattern =>
    Fnmatch.fnmatch externalKey.toList pattern.toList
      || ("**/".toList.isPrefixOf pattern.toList
        && Fnmatch.fnmatch externalKey.toList (pattern.toList.drop 3))

-- ======== the tree

/-- `os.stat_result`, as far as it is read: `st_mtime` as a `datetime`. -/
structure Stat where
  mtime : Timestamp
  mtimeNs : Int
  size : Nat
deriving DecidableEq, Repr

/-- `fingerprint`. -/
abbrev Fingerprint := Int × Nat

/-- `fingerprint`: the cheap change filter. -/
def Stat.fingerprint (stat : Stat) : Fingerprint := (stat.mtimeNs, stat.size)

/-- An entry of a directory that is not a directory. -/
structure Probe where
  /-- `path.is_file()`: it is a regular file, or leads to one. -/
  isFile : Bool := true
  /-- `escapes_root`: the resolved path lies outside the root. -/
  escapesRoot : Bool := false
  /-- `path.stat()`. -/
  stat : Option Stat
  /-- What `put_stream` read of it. -/
  bytes : Option Bytes
deriving DecidableEq, Repr

/-- A directory's entries. -/
inductive Tree
  | nil
  | file (name : String) (probe : Probe) (rest : Tree)
  /-- A directory, or a link to one; `listable` when `scandir` succeeds. -/
  | dir (name : String) (link listable : Bool) (entries rest : Tree)
deriving DecidableEq, Repr

/-- What lies at a source's root. -/
structure Root where
  isDir : Bool := true
  listable : Bool := true
  entries : Tree
deriving DecidableEq, Repr

/-- `to_external_key`: the path relative to the root. -/
def toExternalKey (current name : String) : String :=
  if current = "" then name else current ++ "/" ++ name

-- ======== the walk

/-- `(path, stat)`: a file worth considering. -/
structure Found where
  externalKey : String
  name : String
  stat : Stat
  bytes : Option Bytes
deriving DecidableEq, Repr

/-- `_excluded_dir`. -/
def excludedDir (config : FilesystemConfig) (key : String) : Bool :=
  matchesAny key config.excludes || matchesAny (key ++ "/") config.excludes

/-- The loop of `_walk` over one directory's files, at one of them. -/
def walkFile (config : FilesystemConfig) (current name : String)
    (probe : Probe) : Option Found :=
  let externalKey := toExternalKey current name
  if matchesAny externalKey config.excludes then none
  else if !matchesAny externalKey config.includes then none
  else if probe.escapesRoot then none
  else
    match probe.stat with
    | none => none
    | some stat =>
      if !probe.isFile then none
      else if (stat.size : Int) > config.maxFileBytes then none
      else some ⟨externalKey, name, stat, probe.bytes⟩

/-- `filenames`. -/
def Tree.filenames : Tree → List (String × Probe)
  | .nil => []
  | .file name probe rest => (name, probe) :: rest.filenames
  | .dir _ _ _ _ rest => rest.filenames

/-- The loop of `_walk` over `sorted(filenames)`. -/
def walkFiles (config : FilesystemConfig) (current : String)
    (entries : Tree) : List Found :=
  (entries.filenames.mergeSort fun a b => decide (a.1 ≤ b.1)).filterMap
    fun f => walkFile config current f.1 f.2

/-- Whether `os.walk` descends into a directory that `_walk` has left in
`dirnames`. -/
def descends (config : FilesystemConfig) (key : String) (link : Bool) :
    Bool :=
  !excludedDir config key && (config.followSymlinks || !link)

/-- The directories below `current`, in the order they are listed. -/
def walkDirs (config : FilesystemConfig) : String → Tree → List Found
  | _, .nil => []
  | current, .file _ _ rest => walkDirs config current rest
  | current, .dir name link listable entries rest =>
    let key := toExternalKey current name
    (if descends config key link && listable then
      walkFiles config key entries ++ walkDirs config key entries
    else []) ++ walkDirs config current rest

/-- `_walk`, which is also `_collect`. -/
def walk (config : FilesystemConfig) (root : Root) : List Found :=
  if root.listable then
    walkFiles config "" root.entries ++ walkDirs config "" root.entries
  else []

-- ====== observation

/-- What the connector calls that is not its own. -/
structure Env where
  /-- The digest a blob is stored under. -/
  digest : Bytes → ContentHash
  /-- `mimetypes.guess_type(name)[0]`. -/
  guessType : String → Option String

/-- The `ObservedItem` of a file that was read. -/
def Env.item (env : Env) (found : Found) (data : Bytes) : ObservedItem where
  externalKey := found.externalKey
  contentHash := env.digest data
  byteSize := data.length
  mediaType := env.guessType found.name
  -- weak evidence of when something happened, but evidence
  occurredAt := some found.stat.mtime
  occurredAtSource := .filesystem
  readBytes := some data

/-- The loop of `observe` at one file: the blob store after it, and what
it yields. -/
def observeFile (env : Env) (full : Bool)
    (seen : List (String × Fingerprint)) (blobs : Blobs) (found : Found) :
    Blobs × Option ObservedItem :=
  if !full && decide (seen.lookup found.externalKey
      = some found.stat.fingerprint) then
    (blobs, none)
  else
    match found.bytes with
    | none => (blobs, none)
    | some data =>
      (blobs.put (env.digest data) data, some (env.item found data))

end Filesystem

end MemoryOS
