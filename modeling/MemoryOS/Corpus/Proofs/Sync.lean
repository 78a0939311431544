/-
What a full sync of a directory tombstones.

A full sync takes a key it did not observe for gone. It observes the files
it could read: a file that is there, and that the include rules want, is
not observed when its directory could not be listed, when it could not be
stated or read, or when it is larger than the limit.

# The condition

`full_sync_spares_iff`: a full sync spares every file that is there
exactly when it could read each of those that had a live memory.
-/
import MemoryOS.Corpus.Sync
import MemoryOS.Corpus.Proofs.Recorded

namespace MemoryOS.SyncSource

open Filesystem

-- ====== what is meant

/-- The files of a tree below the directories the rules descend into;
`strict` leaves out those that could not be listed. -/
def filesUnder (config : FilesystemConfig) (strict : Bool) :
    String → Tree → List (String × Probe)
  | _, .nil => []
  | current, .file name probe rest =>
    (toExternalKey current name, probe)
      :: filesUnder config strict current rest
  | current, .dir name link listable entries rest =>
    let key := toExternalKey current name
    (if descends config key link && (!strict || listable) then
      filesUnder config strict key entries
    else []) ++ filesUnder config strict current rest

/-- A file under the root that the rules include. -/
structure Included (config : FilesystemConfig) (key : String)
    (probe : Probe) : Prop where
  isFile : probe.isFile = true
  inside : probe.escapesRoot = false
  included : matchesAny key config.includes = true
  notExcluded : matchesAny key config.excludes = false

/-- The walk can look at the file, and read it. -/
structure Readable (config : FilesystemConfig) (probe : Probe) : Prop where
  stat : ∃ stat, probe.stat = some stat
    ∧ (stat.size : Int) ≤ config.maxFileBytes
  bytes : probe.bytes.isSome = true

/-- The key's file still exists under the root and matches the rules. -/
def Present (config : FilesystemConfig) (root : Root) (key : String) : Prop :=
  ∃ probe, (key, probe) ∈ filesUnder config false "" root.entries
    ∧ Included config key probe

/-- The key's file can be reached and read. -/
def Reached (config : FilesystemConfig) (root : Root) (key : String) : Prop :=
  root.listable = true
    ∧ ∃ probe, (key, probe) ∈ filesUnder config true "" root.entries
      ∧ Included config key probe ∧ Readable config probe

/-- The item has a current version that is not marked deleted. -/
def HasLive (db : Db) (i : Item) : Prop :=
  ∃ m ∈ db.memories, m.item = i ∧ m.isCurrent = true ∧ m.deletedAt = none

/-- Nothing said that the item is gone: no ITEM_DELETED event for it, and
no tombstone on a version of it that was not there before. -/
structure Spared (before after : Db) (i : Item) : Prop where
  events : ∀ e ∈ after.events.drop before.events.length,
    e.eventType = .itemDeleted → e.item ≠ i
  rows : ∀ m ∈ after.memories, m.item = i → m.deletedAt.isSome = true →
    ∃ m₀ ∈ before.memories, m₀.id = m.id ∧ m₀.deletedAt = m.deletedAt

-- ======== the walk

section Walk

variable {config : FilesystemConfig} {current name key : String}
  {probe : Probe}

theorem walkFile_iff :
    (∃ f, walkFile config current name probe = some f
        ∧ f.externalKey = key ∧ f.bytes.isSome = true)
      ↔ toExternalKey current name = key ∧ Included config key probe
        ∧ Readable config probe := by
  unfold walkFile
  simp only
  constructor
  · rintro ⟨f, hf, rfl, hbytes⟩
    split at hf
    case isTrue => cases hf
    case isFalse hex =>
      split at hf
      case isTrue => cases hf
      case isFalse hin =>
        split at hf
        case isTrue => cases hf
        case isFalse hesc =>
          split at hf
          case h_1 => cases hf
          case h_2 stat hstat =>
            split at hf
            case isTrue => cases hf
            case isFalse hfile =>
              split at hf
              case isTrue => cases hf
              case isFalse hsize =>
                cases hf
                refine ⟨rfl, ⟨by simpa using hfile, by simpa using hesc,
                  by simpa using hin, by simpa using hex⟩, ⟨stat, hstat, ?_⟩,
                  hbytes⟩
                exact Int.not_lt.mp hsize
  · rintro ⟨rfl, hinc, ⟨stat, hstat, hsize⟩, hbytes⟩
    refine ⟨⟨toExternalKey current name, name, stat, probe.bytes⟩, ?_, rfl,
      hbytes⟩
    simp [hinc.notExcluded, hinc.included, hinc.inside, hinc.isFile, hstat,
      Int.not_lt.mpr hsize]

theorem walkFiles_iff {entries : Tree} :
    (∃ f ∈ walkFiles config current entries,
        f.externalKey = key ∧ f.bytes.isSome = true)
      ↔ ∃ p ∈ entries.filenames, toExternalKey current p.1 = key
        ∧ Included config key p.2 ∧ Readable config p.2 := by
  unfold walkFiles
  simp only [List.mem_filterMap, List.mem_mergeSort]
  constructor
  · rintro ⟨f, ⟨p, hp, hf⟩, hkey, hbytes⟩
    exact ⟨p, hp, walkFile_iff.mp ⟨f, hf, hkey, hbytes⟩⟩
  · rintro ⟨p, hp, hw⟩
    obtain ⟨f, hf, hkey, hbytes⟩ := walkFile_iff.mpr hw
    exact ⟨f, ⟨p, hp, hf⟩, hkey, hbytes⟩

theorem walkTree_iff {entries : Tree} :
    (∃ f ∈ walkFiles config current entries ++ walkDirs config current entries,
        f.externalKey = key ∧ f.bytes.isSome = true)
      ↔ ∃ probe, (key, probe) ∈ filesUnder config true current entries
        ∧ Included config key probe ∧ Readable config probe := by
  simp only [List.mem_append, or_and_right, exists_or, walkFiles_iff]
  induction entries generalizing current with
  | nil => simp [Tree.filenames, walkDirs, filesUnder]
  | file name probe rest ih =>
    simp only [Tree.filenames, walkDirs, filesUnder, List.mem_cons,
      or_and_right, exists_or, exists_eq_left, or_assoc, ih]
    refine or_congr_left ?_
    constructor
    · rintro ⟨hkey, hw⟩
      exact ⟨probe, by rw [hkey], hw⟩
    · rintro ⟨p, heq, hw⟩
      cases heq
      exact ⟨rfl, hw⟩
  | dir name link listable entries rest ihe ih =>
    simp only [Tree.filenames, walkDirs, filesUnder, List.mem_append,
      or_and_right, exists_or, Bool.not_true, Bool.false_or, ← ih]
    rw [or_left_comm]
    refine or_congr_left ?_
    split
    case isTrue =>
      rw [← ihe]
      simp only [List.mem_append, or_and_right, exists_or, walkFiles_iff]
    case isFalse => simp

theorem walk_iff {root : Root} :
    (∃ f ∈ walk config root, f.externalKey = key ∧ f.bytes.isSome = true)
      ↔ Reached config root key := by
  unfold walk Reached
  cases root.listable with
  | false => simp
  | true => simpa using walkTree_iff

end Walk

-- ====== the observations

/-- What a sync has done once it has observed some keys of a source. -/
structure Observed (store : Store) (sourceId : Id) (p : Progress) : Prop where
  versions : Versions (keyed p.store.db) p.store.db.nextId
  events : ∃ new, p.store.db.events = store.db.events ++ new
    ∧ ∀ e ∈ new, e.eventType = .artifactObserved
  elsewhere : ∀ m : Memory,
    (∀ k ∈ p.observedKeys, m.item ≠ ⟨sourceId, k⟩) →
    (m ∈ p.store.db.memories ↔ m ∈ store.db.memories)
  deleted : ∀ m ∈ p.store.db.memories, m.deletedAt = none
    ∨ ∃ m₀ ∈ store.db.memories, m₀.id = m.id ∧ m₀.item = m.item
      ∧ m₀.deletedAt = m.deletedAt

section Observations

variable {store : Store} {sourceId : Id} {p : Progress} {env : Env}
  {clock : Clock} {source : SyncedSource}

theorem Observed.record (h : Observed store sourceId p) {item : ObservedItem}
    {fingerprint : Fingerprint} {now : Timestamp} :
    Observed store sourceId
      (SyncSource.record p sourceId item fingerprint now) := by
  unfold SyncSource.record
  simp only
  cases hin : ingestItem p.store sourceId item now with
  | error e =>
    refine ⟨h.versions, h.events, fun m hm => h.elsewhere m fun k hk => ?_,
      h.deleted⟩
    exact hm k (List.mem_append_left _ hk)
  | ok r =>
    obtain ⟨store', out⟩ := r
    obtain ⟨hv, helse⟩ := ingestItem_elsewhere h.versions hin
    constructor
    case versions => exact hv
    case elsewhere =>
      intro m hm
      refine (helse m ?_).trans (h.elsewhere m fun k hk => ?_)
      · exact hm _ (List.mem_append_right _ List.mem_cons_self)
      · exact hm k (List.mem_append_left _ hk)
    case events =>
      rcases ingestItem_recorded hin with ⟨rfl, -⟩ | ⟨r, -, hrec⟩
      · exact h.events
      · obtain ⟨new, hnew, hall⟩ := h.events
        obtain ⟨e, he, het⟩ := hrec.events
        refine ⟨new ++ [e], ?_, fun e' he' => ?_⟩
        · show store'.db.events = _
          rw [he, hnew, List.append_assoc]
        · rcases List.mem_append.mp he' with he' | he'
          · exact hall e' he'
          · rw [List.mem_singleton.mp he', het]
    case deleted =>
      rcases ingestItem_recorded hin with ⟨rfl, -⟩ | ⟨r, -, hrec⟩
      · exact h.deleted
      · intro m hm
        rcases hrec.back m hm with hnone | ⟨m₁, hm₁, hid, hi, -, hd⟩
        · exact .inl hnone
        · rw [← hid, ← hi, ← hd]
          exact h.deleted m₁ hm₁

theorem Observed.file (h : Observed store source.id p) {full : Bool}
    {found : Found} :
    Observed store source.id (syncFile env clock source full p found) := by
  have hblobs : ∀ blobs, Observed store source.id
      { p with store := { p.store with blobs := blobs } } := fun blobs =>
    ⟨h.versions, h.events, h.elsewhere, h.deleted⟩
  unfold syncFile
  simp only
  split
  case h_1 => exact hblobs _
  case h_2 => exact (hblobs _).record

theorem syncFiles_observed {full : Bool} {found : List Found}
    (hv : Versions (keyed store.db) store.db.nextId) :
    Observed store source.id
      (syncFiles env clock source full store found) := by
  unfold syncFiles
  have hstart : Observed store source.id
      { store := store, cursorSeen := source.seen } :=
    ⟨hv, ⟨[], (List.append_nil _).symm, nofun⟩, fun _ _ => Iff.rfl,
      fun m hm => .inr ⟨m, hm, rfl, rfl, rfl⟩⟩
  generalize ({ store := store, cursorSeen := source.seen } : Progress) = p
    at hstart ⊢
  induction found generalizing p with
  | nil => exact hstart
  | cons f rest ih => exact ih _ hstart.file

theorem record_observedKeys {item : ObservedItem} {fingerprint : Fingerprint}
    {now : Timestamp} :
    (SyncSource.record p sourceId item fingerprint now).observedKeys
      = p.observedKeys ++ [item.externalKey] := by
  unfold SyncSource.record
  simp only
  split <;> rfl

theorem syncFile_observedKeys {found : Found} :
    (syncFile env clock source true p found).observedKeys
      = p.observedKeys
        ++ if found.bytes.isSome then [found.externalKey] else [] := by
  unfold syncFile observeFile
  simp only [Bool.not_true, Bool.false_and, Bool.false_eq_true, ↓reduceIte]
  cases found.bytes with
  | none => simp
  | some data =>
    simp only [record_observedKeys, Option.isSome_some, ↓reduceIte]
    rfl

theorem syncFiles_observedKeys {found : List Found} {key : String} :
    key ∈ (syncFiles env clock source true store found).observedKeys
      ↔ ∃ f ∈ found, f.externalKey = key ∧ f.bytes.isSome = true := by
  unfold syncFiles
  have hrun : ∀ p : Progress,
      key ∈ (found.foldl (syncFile env clock source true) p).observedKeys
        ↔ key ∈ p.observedKeys
          ∨ ∃ f ∈ found, f.externalKey = key ∧ f.bytes.isSome = true := by
    induction found with
    | nil => simp
    | cons f rest ih =>
      intro p
      rw [List.foldl_cons, ih, syncFile_observedKeys, List.mem_append,
        or_assoc, List.exists_mem_cons_iff]
      refine or_congr_right (or_congr_left ?_)
      cases f.bytes <;> simp [eq_comm]
  rw [hrun]
  exact or_iff_right List.not_mem_nil

end Observations

-- ======= the sweep

variable {key : String} {now : Timestamp} {sourceId : Id} {db : Db}

theorem mem_missingKeys {observed : List String} :
    key ∈ missingKeys (Deletion.knownOf db sourceId) observed
      ↔ HasLive db ⟨sourceId, key⟩ ∧ key ∉ observed := by
  unfold missingKeys Deletion.knownOf HasLive Memory.item
  simp only [List.mem_mergeSort, List.mem_filter, List.mem_dedup,
    List.mem_map, Bool.and_eq_true, decide_eq_true_eq,
    Option.isNone_iff_eq_none, Item.mk.injEq]
  refine and_congr_left fun _ => exists_congr fun m => ?_
  constructor
  · rintro ⟨⟨hm, ⟨hs, hc⟩, hd⟩, hk⟩
    exact ⟨hm, ⟨hs, hk⟩, hc, hd⟩
  · rintro ⟨hm, ⟨hs, hk⟩, hc, hd⟩
    exact ⟨⟨hm, ⟨hs, hc⟩, hd⟩, hk⟩

/-- What tombstoning some keys, one after another, does. -/
structure Swept (db db' : Db) (sourceId : Id) (known : List Memory)
    (keys : List String) : Prop where
  events : ∃ new, db'.events = db.events ++ new
    ∧ ∀ i, (∃ e ∈ new, e.eventType = .itemDeleted ∧ e.item = i)
      ↔ ∃ k ∈ keys, i = ⟨sourceId, k⟩
  rows : ∀ m ∈ db'.memories, ∃ m₀ ∈ db.memories, m₀.id = m.id
    ∧ m₀.item = m.item ∧ (m₀.deletedAt = m.deletedAt
      ∨ ∃ k ∈ keys, Deletion.knownId known k = some m.id)

theorem sweepOne_swept {known : List Memory}
    (hk : (Deletion.knownId known key).isSome = true) :
    Swept db (Deletion.sweepOne sourceId known db key now) sourceId known
      [key] := by
  obtain ⟨id, hid⟩ := Option.isSome_iff_exists.mp hk
  unfold Deletion.sweepOne
  rw [hid]
  constructor
  case events =>
    refine ⟨_, rfl, fun i => ?_⟩
    simp only [List.exists_mem_cons_iff, List.not_mem_nil, false_and,
      exists_false, or_false]
    exact ⟨fun h => h.2.symm, fun h => ⟨rfl, h.symm⟩⟩
  case rows =>
    intro m hm
    obtain ⟨m₀, hm₀, rfl⟩ := List.mem_map.mp hm
    refine ⟨m₀, hm₀, ?_⟩
    by_cases hmid : m₀.id = id
    · rw [if_pos hmid]
      exact ⟨rfl, rfl, .inr ⟨key, List.mem_cons_self, hmid ▸ hid⟩⟩
    · rw [if_neg hmid]
      exact ⟨rfl, rfl, .inl rfl⟩

theorem Swept.cons {db db₁ db₂ : Db} {sourceId : Id} {known : List Memory}
    {key : String} {keys : List String}
    (h : Swept db db₁ sourceId known [key])
    (h' : Swept db₁ db₂ sourceId known keys) :
    Swept db db₂ sourceId known (key :: keys) := by
  obtain ⟨new, hnew, hfirst⟩ := h.events
  obtain ⟨new', hnew', hrest⟩ := h'.events
  constructor
  case events =>
    refine ⟨new ++ new', by rw [hnew', hnew, List.append_assoc], fun i => ?_⟩
    rw [List.exists_mem_cons_iff, ← hrest]
    simp only [List.mem_append, or_and_right, exists_or]
    refine or_congr_left ((hfirst i).trans ?_)
    simp
  case rows =>
    intro m hm
    obtain ⟨m₁, hm₁, hid₁, hi₁, hd₁⟩ := h'.rows m hm
    obtain ⟨m₀, hm₀, hid₀, hi₀, hd₀⟩ := h.rows m₁ hm₁
    refine ⟨m₀, hm₀, hid₀.trans hid₁, hi₀.trans hi₁, ?_⟩
    rcases hd₁ with hd₁ | ⟨k, hk, hknown⟩
    · rcases hd₀ with hd₀ | ⟨k, hk, hknown⟩
      · exact .inl (hd₀.trans hd₁)
      · refine .inr ⟨k, ?_, hid₁ ▸ hknown⟩
        exact List.mem_singleton.mp hk ▸ List.mem_cons_self
    · exact .inr ⟨k, List.mem_cons_of_mem key hk, hknown⟩

theorem detectDeletions_swept {db : Db} {sourceId : Id}
    {observed : List String} {clock : String → Timestamp} :
    Swept db (Deletion.detectDeletions db sourceId observed clock) sourceId
      (Deletion.knownOf db sourceId)
      (missingKeys (Deletion.knownOf db sourceId) observed) := by
  have hknown : ∀ k ∈ missingKeys (Deletion.knownOf db sourceId) observed,
      (Deletion.knownId (Deletion.knownOf db sourceId) k).isSome = true := by
    intro k hk
    obtain ⟨m, -, hid⟩ := knownId_of_missing hk
    exact Option.isSome_iff_exists.mpr ⟨m.id, hid⟩
  show Swept db ((missingKeys (Deletion.knownOf db sourceId) observed).foldl
    _ db) _ _ _
  generalize missingKeys _ observed = keys at hknown ⊢
  generalize Deletion.knownOf db sourceId = known at hknown ⊢
  induction keys generalizing db with
  | nil =>
    exact ⟨⟨[], (List.append_nil _).symm, by simp⟩,
      fun m hm => ⟨m, hm, rfl, rfl, .inl rfl⟩⟩
  | cons k rest ih =>
    refine (sweepOne_swept (hknown k List.mem_cons_self)).cons
      (ih fun k' hk' => hknown k' (List.mem_cons_of_mem k hk'))

theorem knownId_item {m : Memory}
    {next : Id} (hv : Versions (keyed db) next) (hm : m ∈ db.memories)
    (hid : Deletion.knownId (Deletion.knownOf db sourceId) key = some m.id) :
    m.item = ⟨sourceId, key⟩ := by
  unfold Deletion.knownId at hid
  obtain ⟨m', hlast, heq⟩ := Option.map_eq_some_iff.mp hid
  obtain ⟨hknown, hkey⟩ := List.mem_filter.mp (List.mem_of_getLast? hlast)
  obtain ⟨hm', hlive⟩ := List.mem_filter.mp hknown
  simp only [Bool.and_eq_true, decide_eq_true_eq] at hkey hlive
  rw [← row_inj hv hm' hm heq]
  unfold Memory.item
  rw [hlive.1.1, hkey]

theorem spared_iff {store : Store} {p : Progress}
    {clock : String → Timestamp}
    (h : Observed store sourceId p) :
    Spared store.db (Deletion.detectDeletions p.store.db sourceId
        p.observedKeys clock) ⟨sourceId, key⟩
      ↔ (HasLive store.db ⟨sourceId, key⟩ → key ∈ p.observedKeys) := by
  have hsw := @detectDeletions_swept p.store.db sourceId p.observedKeys clock
  obtain ⟨new, hnew, hobs⟩ := h.events
  obtain ⟨del, hdel, hgone⟩ := hsw.events
  -- the item's rows are as they were unless its key was observed
  have hlive : key ∉ p.observedKeys →
      (HasLive p.store.db ⟨sourceId, key⟩
        ↔ HasLive store.db ⟨sourceId, key⟩) := by
    intro hno
    have hsame : ∀ m : Memory, m.item = ⟨sourceId, key⟩ →
        (m ∈ p.store.db.memories ↔ m ∈ store.db.memories) := by
      intro m hm
      refine h.elsewhere m fun k hk heq => hno ?_
      rw [hm] at heq
      cases heq
      exact hk
    constructor
    · rintro ⟨m, hm, hi, hrest⟩
      exact ⟨m, (hsame m hi).mp hm, hi, hrest⟩
    · rintro ⟨m, hm, hi, hrest⟩
      exact ⟨m, (hsame m hi).mpr hm, hi, hrest⟩
  have hmissing : key ∈ missingKeys
      (Deletion.knownOf p.store.db sourceId) p.observedKeys
        ↔ ¬ (HasLive store.db ⟨sourceId, key⟩ → key ∈ p.observedKeys) := by
    rw [mem_missingKeys, Classical.not_imp]
    exact and_congr_left hlive
  rw [← not_iff_not, ← hmissing]
  constructor
  · intro hns
    by_contra hno
    apply hns
    constructor
    case events =>
      rw [hdel, hnew, List.append_assoc, List.drop_left]
      intro e he het hei
      rcases List.mem_append.mp he with he | he
      · rw [hobs e he] at het
        cases het
      · obtain ⟨k, hk, heq⟩ := (hgone ⟨sourceId, key⟩).mp ⟨e, he, het, hei⟩
        cases heq
        exact hno hk
    case rows =>
      intro m hm hi hd
      obtain ⟨m₁, hm₁, hid, hi₁, hd₁⟩ := hsw.rows m hm
      rcases hd₁ with hd₁ | ⟨k, hk, hknown⟩
      · rw [← hid, ← hd₁]
        rcases h.deleted m₁ hm₁ with hnone | ⟨m₀, hm₀, hid₀, -, hd₀⟩
        · rw [← hd₁, hnone] at hd
          cases hd
        · exact ⟨m₀, hm₀, hid₀, hd₀⟩
      · have hitem := knownId_item h.versions hm₁ (hid ▸ hknown)
        rw [hi₁, hi] at hitem
        cases hitem
        exact absurd hk hno
  · intro hk hsp
    obtain ⟨e, he, het, hei⟩ := (hgone ⟨sourceId, key⟩).mpr ⟨key, hk, rfl⟩
    refine hsp.events e ?_ het hei
    rw [hdel, hnew, List.append_assoc, List.drop_left]
    exact List.mem_append_right _ he

/-- A full sync spares every file that is there exactly when it could reach
and read each of those with a live memory. -/
theorem full_sync_spares_iff {env : Env} {clock : Clock} {store : Store}
    {source : SyncedSource} {root : Root} {config : FilesystemConfig}
    {out : Store × SyncedSource × SyncReport}
    (hv : Versions (keyed store.db) store.db.nextId)
    (hconfig : FilesystemConfig.fromDict source.config = .ok config)
    (hcall : call env clock store source root true = .ok out) :
    (∀ key, Present config root key →
        Spared store.db out.1.db ⟨source.id, key⟩)
      ↔ ∀ key, Present config root key →
        HasLive store.db ⟨source.id, key⟩ → Reached config root key := by
  unfold call at hcall
  simp only [hconfig, ↓reduceIte] at hcall
  split at hcall
  case isTrue => cases hcall
  case isFalse =>
    cases hcall
    refine forall_congr' fun key => imp_congr_right fun _ => ?_
    rw [spared_iff (syncFiles_observed hv), syncFiles_observedKeys, walk_iff]

/-- A directory with one note, which `bytes` were read of. -/
def oneFile (bytes : Option Bytes) : Root where
  entries := .file "a.md" { stat := some ⟨5, 5000, 1⟩, bytes := bytes } .nil

/-- A filesystem source. -/
def notes : SyncedSource where
  id := 1
  config := { root := "/notes" }

/-- One digest for all bytes, and no media types. -/
def plainEnv : Env := ⟨fun _ => "h", fun _ => none⟩

/-- The corpus once the note was synced. -/
def synced : Store where
  db := (syncFiles plainEnv ⟨fun _ => 10, fun _ => 10, 10⟩ notes true {}
    (walk {} (oneFile (some [65])))).store.db

theorem synced_versions : Versions (keyed synced.db) synced.db.nextId :=
  (@syncFiles_observed {} _ _ notes _ _ (Versions.empty 1)).versions

theorem notes_config : FilesystemConfig.fromDict notes.config = .ok {} := by
  rfl

/-- A note that was rewritten and can be read is spared. -/
theorem full_sync_spares_iff_rewritten :
    ∃ out, call plainEnv ⟨fun _ => 20, fun _ => 20, 20⟩ synced notes
        (oneFile (some [66])) true = .ok out
      ∧ ∀ key, Present {} (oneFile (some [66])) key →
        Spared synced.db out.1.db ⟨notes.id, key⟩ := by
  refine ⟨_, rfl, (full_sync_spares_iff synced_versions notes_config rfl).mpr
    fun key hpresent _ => ?_⟩
  obtain ⟨probe, hmem, hinc⟩ := hpresent
  refine ⟨rfl, probe, hmem, hinc, ?_⟩
  have hprobe : (key, probe)
      = ("a.md", { stat := some ⟨5, 5000, 1⟩, bytes := some [66] }) :=
    List.mem_singleton.mp hmem
  cases hprobe
  exact ⟨⟨_, rfl, by decide⟩, rfl⟩

/-- A note that is there and could not be read this time is taken for
gone. -/
theorem full_sync_deletes_present :
    ¬ ∀ (env : Env) (clock : Clock) (store : Store) (source : SyncedSource)
      (root : Root) (config : FilesystemConfig)
      (out : Store × SyncedSource × SyncReport),
      Versions (keyed store.db) store.db.nextId →
      FilesystemConfig.fromDict source.config = .ok config →
      call env clock store source root true = .ok out →
      ∀ key, Present config root key →
        Spared store.db out.1.db ⟨source.id, key⟩ := by
  intro hclaim
  have hpresent : Present {} (oneFile none) "a.md" :=
    ⟨_, List.mem_cons_self, rfl, rfl, by decide +kernel, by decide +kernel⟩
  have hsp := hclaim plainEnv ⟨fun _ => 20, fun _ => 20, 20⟩ synced notes
    (oneFile none) {} _ synced_versions notes_config rfl "a.md" hpresent
  have hlive : HasLive synced.db ⟨1, "a.md"⟩ := by
    unfold HasLive
    decide +kernel
  have hobs := (spared_iff (syncFiles_observed synced_versions)).mp hsp hlive
  rw [syncFiles_observedKeys, walk_iff] at hobs
  obtain ⟨-, probe, hmem, -, hread⟩ := hobs
  cases List.mem_singleton.mp hmem
  exact absurd hread.bytes Bool.false_ne_true

end MemoryOS.SyncSource
