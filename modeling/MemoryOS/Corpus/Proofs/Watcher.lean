/-
The watcher and the connector, on one tree (`application/watcher.py`,
`adapters/connectors/filesystem.py`).

The watcher asks the patterns about a file's whole path. The connector asks them
about each directory on the way down as well, and never looks below one that is
excluded. They agree on a file exactly where the directories above it do not
decide (`accepts_iff_yields`): an exclude pattern that names a directory and not what is in
it prunes a file that the watcher takes.
-/
import Mathlib.Data.List.Induction
import MemoryOS.Corpus.Watcher

namespace MemoryOS.Watcher

open Filesystem

-- ====== statement vocabulary

/-- A name that a directory can list. -/
structure Name (name : String) : Prop where
  notEmpty : name ≠ ""
  noSlash : '/' ∉ name.toList
  notHere : name ≠ "."
  notUp : name ≠ ".."

/-- A tree of names, without symbolic links. -/
def Plain : Tree → Prop
  | .nil => True
  | .file name probe rest => Name name ∧ probe.escapesRoot = false ∧ Plain rest
  | .dir name link _ entries rest =>
    Name name ∧ link = false ∧ Plain entries ∧ Plain rest

/-- A file of a tree: the directories on the way to it, its name and itself. -/
structure Entry where
  dirs : List String
  name : String
  probe : Probe

/-- Its path, relative to the root. -/
def Entry.path (e : Entry) : List String := e.dirs ++ [e.name]

/-- The key of its path. -/
def Entry.key (e : Entry) : String :=
    toExternalKey (e.dirs.foldl toExternalKey "") e.name

/-- The files of a tree whose directories can be listed. -/
def files : Tree → List Entry
  | .nil => []
  | .file name probe rest => ⟨[], name, probe⟩ :: files rest
  | .dir name _ listable entries rest =>
    (if listable then
      (files entries).map fun e => { e with dirs := name :: e.dirs }
    else []) ++ files rest

/-- The size limit and what cannot be read are set aside. -/
structure Readable (config : FilesystemConfig) (probe : Probe) : Prop where
  isFile : probe.isFile = true
  stat : ∃ stat, probe.stat = some stat ∧ (stat.size : Int)
    ≤ config.maxFileBytes

/-- The walk yields a file. -/
def Yields (config : FilesystemConfig) (root : Root) (e : Entry) : Prop :=
  ∃ f ∈ walk config root, f.externalKey = e.key

/-- The keys of the directories on the way down. -/
def keysAbove : String → List String → List String
  | _, [] => []
  | current, dir :: rest =>
    toExternalKey current dir :: keysAbove (toExternalKey current dir) rest

/-- No directory above a file is excluded. -/
def Unpruned (config : FilesystemConfig) (current : String) (e : Entry) :
    Prop :=
  ∀ above ∈ keysAbove current e.dirs, excludedDir config above = false

-- ======== the keys

section
variable {config : FilesystemConfig} {root : Root} {entries : Tree}
  {name current : String} {dirs : List String} {e e' : Entry}

theorem foldl_toExternalKey (h : ∀ dir ∈ dirs, Name dir) :
    dirs.foldl toExternalKey "" = "/".intercalate dirs := by
  induction dirs using List.reverseRecOn with
  | nil => rfl
  | append_singleton dirs dir ih =>
    rw [List.foldl_append, ih fun d hd => h d (List.mem_append_left _ hd)]
    show toExternalKey ("/".intercalate dirs) dir = _
    cases dirs with
    | nil => simp [toExternalKey]
    | cons d ds =>
      rw [String.intercalate_append_of_ne_nil (List.cons_ne_nil _ _)
        (List.cons_ne_nil _ _), String.intercalate_singleton]
      refine if_neg fun hempty => (h d List.mem_cons_self).notEmpty ?_
      have hlength := congrArg String.length hempty
      cases ds with
      | nil => simpa using hempty
      | cons d' ds' =>
        rw [String.intercalate_cons_cons] at hlength
        simp at hlength

theorem Entry.key_eq (h : ∀ name ∈ e.path, Name name) :
    e.key = "/".intercalate e.path := by
  have hpath : e.path.foldl toExternalKey "" = e.key := by
    unfold Entry.path Entry.key
    rw [List.foldl_append]
    rfl
  rw [← hpath, foldl_toExternalKey h]

theorem Entry.path_inj (h : ∀ name ∈ e.path, Name name)
    (h' : ∀ name ∈ e'.path, Name name) (hkey : e.key = e'.key) :
    e.path = e'.path := by
  rw [Entry.key_eq h, Entry.key_eq h'] at hkey
  have hlists := congrArg String.toList hkey
  rw [String.toList_intercalate, String.toList_intercalate] at hlists
  have hsplit := congrArg (List.splitOn '/') hlists
  have hclean : ∀ {path : List String}, (∀ name ∈ path, Name name) →
      ∀ l ∈ path.map String.toList, '/' ∉ l := by
    intro path hpath l hl
    obtain ⟨name, hname, rfl⟩ := List.mem_map.1 hl
    exact (hpath name hname).noSlash
  have hne : ∀ e : Entry, e.path.map String.toList ≠ [] := fun e =>
    mt List.map_eq_nil_iff.1 (List.append_ne_nil_of_right_ne_nil _ (List.cons_ne_nil _ _))
  have hslash : "/".toList = ['/'] := rfl
  rw [hslash, List.splitOn_intercalate _ (hclean h) (hne e),
    List.splitOn_intercalate _ (hclean h') (hne e')] at hsplit
  exact List.map_injective_iff.2 (fun a b => String.toList_inj.1) hsplit

-- ======== the walk

theorem walkFile_key {probe : Probe} {f : Found}
    (h : walkFile config current name probe = some f) :
    f.externalKey = toExternalKey current name
      ∧ isWatchable f.externalKey config.includes config.excludes = true := by
  unfold walkFile at h
  simp only at h
  split at h
  case isTrue => cases h
  case isFalse hexcluded =>
    split at h
    case isTrue => cases h
    case isFalse hincluded =>
      split at h
      case isTrue => cases h
      case isFalse =>
        split at h
        case h_1 => cases h
        case h_2 =>
          split at h
          case isTrue => cases h
          case isFalse =>
            split at h
            case isTrue => cases h
            case isFalse =>
              cases h
              refine ⟨rfl, ?_⟩
              unfold isWatchable
              rw [if_neg hexcluded]
              simpa using hincluded

theorem unpruned_cons :
    Unpruned config current { e with dirs := name :: e.dirs }
    ↔ excludedDir config (toExternalKey current name) = false
      ∧ Unpruned config (toExternalKey current name) e :=
  List.forall_mem_cons

theorem mem_walkTree (hplain : Plain entries) {f : Found} :
    f ∈ walkFiles config current entries ++ walkDirs config current entries
      ↔ ∃ e ∈ files entries, Unpruned config current e
        ∧ walkFile config (e.dirs.foldl toExternalKey current) e.name e.probe
          = some f := by
  rw [List.mem_append]
  have hfiles : ∀ {current : String} {entries : Tree},
      f ∈ walkFiles config current entries ↔ ∃ p ∈ entries.filenames,
        walkFile config current p.1 p.2 = some f := by
    intro current entries
    unfold walkFiles
    simp only [List.mem_filterMap, List.mem_mergeSort]
  rw [hfiles]
  induction entries generalizing current with
  | nil => simp [Tree.filenames, walkDirs, files]
  | file name probe rest ih =>
    have ih := @ih current hplain.2.2
    simp only [Tree.filenames, walkDirs, files, List.exists_mem_cons_iff,
      or_assoc, ih]
    simp [Unpruned, keysAbove]
  | dir name link listable entries rest ihe ih =>
    obtain ⟨-, hlink, hentries, hrest⟩ := hplain
    have ih := @ih current hrest
    have ihe := @ihe (toExternalKey current name) hentries
    rw [← hfiles, ← List.mem_append] at ihe
    have hdown : f ∈ (if (descends config (toExternalKey current name) link && listable)
          then walkFiles config (toExternalKey current name) entries
            ++ walkDirs config (toExternalKey current name) entries
          else [])
        ↔ ∃ e ∈ (if listable then
            (files entries).map fun e => { e with dirs :=
              name :: e.dirs } else []),
          Unpruned config current e
            ∧ walkFile config (e.dirs.foldl toExternalKey current) e.name e.probe
              = some f := by
      unfold descends
      rw [hlink]
      cases listable with
      | false => simp
      | true =>
        simp only [List.mem_map, exists_exists_and_eq_and, if_true,
          unpruned_cons,
          List.foldl_cons, and_assoc]
        cases hexcluded : excludedDir config (toExternalKey current name) with
        | true => simp
        | false => simpa using ihe
    have hboth := or_congr hdown ih
    simp only [Tree.filenames, walkDirs, files]
    rw [List.mem_append, or_left_comm]
    refine hboth.trans ?_
    simp only [List.mem_append, or_and_right, exists_or]

theorem mem_walk (hplain : Plain root.entries) (hlistable : root.listable
    = true)
    {f : Found} : f ∈ walk config root ↔ ∃ e ∈ files root.entries,
      Unpruned config "" e
        ∧ walkFile config (e.dirs.foldl toExternalKey "") e.name e.probe
          = some f := by
  unfold walk
  rw [if_pos hlistable]
  exact mem_walkTree hplain

theorem plain_files (hplain : Plain entries) (he : e ∈ files entries) :
    (∀ name ∈ e.path, Name name) ∧ e.probe.escapesRoot = false := by
  induction entries generalizing e with
  | nil => cases he
  | file name probe rest ih =>
    obtain ⟨hname, hinside, hrest⟩ := hplain
    rcases List.mem_cons.1 he with rfl | he
    · exact ⟨fun n hn => List.mem_singleton.1 hn ▸ hname, hinside⟩
    · exact ih hrest he
  | dir name link listable entries rest ihe ih =>
    obtain ⟨hname, -, hentries, hrest⟩ := hplain
    rcases List.mem_append.1 he with he | he
    · split at he
      case isTrue =>
        obtain ⟨below, hbelow, rfl⟩ := List.mem_map.1 he
        obtain ⟨hnames, hinside⟩ := ihe hentries hbelow
        exact ⟨List.forall_mem_cons.2 ⟨hname, hnames⟩, hinside⟩
      case isFalse => cases he
    · exact ih hrest he

theorem walkFile_of (hreadable : Readable config e.probe)
    (hinside : e.probe.escapesRoot = false)
    (htaken : isWatchable (toExternalKey current name) config.includes config.excludes
      = true) :
    ∃ f, walkFile config current name e.probe = some f
      ∧ f.externalKey = toExternalKey current name := by
  obtain ⟨hfile, stat, hstat, hsize⟩ := hreadable
  unfold isWatchable at htaken
  split at htaken
  case isTrue => cases htaken
  case isFalse hexcluded =>
    refine ⟨⟨toExternalKey current name, name, stat, e.probe.bytes⟩, ?_, rfl⟩
    simp [walkFile, hexcluded, htaken, hinside, hstat, hfile,
      Int.not_lt.2 hsize]

/-- What the walk yields is what the patterns take, below no excluded directory. -/
theorem yields_iff (hplain : Plain root.entries) (hlistable : root.listable
    = true)
    (he : e ∈ files root.entries) (hreadable : Readable config e.probe) :
    Yields config root e
      ↔ isWatchable e.key config.includes config.excludes = true
        ∧ Unpruned config "" e := by
  obtain ⟨hnames, hinside⟩ := plain_files hplain he
  unfold Yields
  constructor
  · intro h
    obtain ⟨f, hf, hkey⟩ := h
    obtain ⟨e', he', hunpruned, hfile⟩ := (mem_walk hplain hlistable).1 hf
    obtain ⟨hkey', htaken⟩ := walkFile_key hfile
    refine ⟨hkey ▸ htaken, ?_⟩
    -- the file it yields is of the same path, so of the same directories
    have hpath := Entry.path_inj (plain_files hplain he').1 hnames
      (hkey'.symm.trans hkey)
    have hdirs : e'.dirs = e.dirs := (List.append_inj' hpath rfl).1
    unfold Unpruned at hunpruned ⊢
    exact hdirs ▸ hunpruned
  · intro h
    obtain ⟨htaken, hunpruned⟩ := h
    obtain ⟨f, hf, hkey⟩ := walkFile_of hreadable hinside htaken
    exact ⟨f, (mem_walk hplain hlistable).2 ⟨e, he, hunpruned, hf⟩, hkey⟩

-- ====== the watcher

variable {base path : List String}

theorem resolve_append (h : ∀ name ∈ path, Name name) :
    resolve (base ++ path) = resolve base ++ path := by
  unfold resolve
  rw [List.foldl_append]
  generalize base.foldl _ [] = done
  induction path generalizing done with
  | nil => rw [List.append_nil]; rfl
  | cons name rest ih =>
    obtain ⟨hname, hrest⟩ := List.forall_mem_cons.1 h
    rw [List.foldl_cons, if_neg hname.notUp, if_neg hname.notHere, ih hrest,
      List.append_assoc]
    rfl

theorem accepts_eq (h : ∀ name ∈ e.path, Name name) :
    accepts config (base ++ e.path) base
      = isWatchable e.key config.includes config.excludes := by
  have hne : e.path.isEmpty = false := by
    unfold Entry.path
    simp
  unfold accepts externalKeyFor
  rw [resolve_append h]
  simp only [List.isPrefixOf_iff_prefix, List.prefix_append, if_true,
    List.drop_left,
    asPosix, hne, Entry.key_eq h]
  rfl

end

-- ======= agreement

/-- On a file of a tree without links the watcher and the walk agree exactly when
no directory above it decides: where the watcher takes the file, none is
excluded. -/
theorem accepts_iff_yields {config : FilesystemConfig} {root : Root} {base :
    List String}
    {e : Entry} (hplain : Plain root.entries) (hlistable : root.listable = true)
    (he : e ∈ files root.entries) (hreadable : Readable config e.probe) :
    (accepts config (base ++ e.path) base = true ↔ Yields config root e)
      ↔ (isWatchable e.key config.includes config.excludes = true →
          Unpruned config "" e) := by
  rw [accepts_eq (plain_files hplain he).1,
    yields_iff hplain hlistable he hreadable]
  constructor
  · exact fun h htaken => (h.1 htaken).2
  · exact fun h => ⟨fun htaken => ⟨htaken, h htaken⟩, And.left⟩

-- ------ a pattern names a directory

/-- A note that can be read. -/
def note : Probe where
  stat := some ⟨0, 0, 1⟩
  bytes := some [0]

/-- One note in one directory. -/
def built : Root where
  entries := .dir "build" false true (.file "notes.md" note .nil) .nil

/-- Its entry. -/
def builtNote : Entry := ⟨["build"], "notes.md", note⟩

/-- The directory is excluded by its name. -/
def noBuild : FilesystemConfig where
  excludes := ["build"]

theorem plain_built : Plain built.entries := by
  have hname : Name "build" := ⟨by decide, by decide, by decide, by decide⟩
  have hnote : Name "notes.md" := ⟨by decide, by decide, by decide, by decide⟩
  exact ⟨hname, rfl, ⟨hnote, rfl, trivial⟩, trivial⟩

theorem readable_note : Readable noBuild note :=
    ⟨rfl, ⟨0, 0, 1⟩, rfl, by decide⟩

/-- The watcher takes the note, and the walk never looks at it. -/
theorem not_accepts_iff_yields :
    ¬ ∀ (config : FilesystemConfig) (root : Root) (base : List String) (e : Entry),
      Plain root.entries → root.listable = true → e ∈ files root.entries →
      Readable config e.probe →
      (accepts config (base ++ e.path) base = true ↔ Yields config root e) := by
  intro hall
  have haccepts : accepts noBuild (["home"] ++ builtNote.path) ["home"]
    = true := by
    decide +kernel
  have hwalk : walk noBuild built = [] := by decide +kernel
  obtain ⟨f, hf, -⟩ := (hall noBuild built ["home"] builtNote plain_built rfl
    List.mem_cons_self readable_note).1 haccepts
  rw [hwalk] at hf
  cases hf

/-- The condition fails there. -/
theorem accepts_iff_yields_built :
    (accepts noBuild (["home"] ++ builtNote.path) ["home"] = true
        ↔ Yields noBuild built builtNote)
      ↔ (isWatchable builtNote.key noBuild.includes noBuild.excludes = true →
          Unpruned noBuild "" builtNote) :=
  accepts_iff_yields plain_built rfl List.mem_cons_self readable_note

end MemoryOS.Watcher
