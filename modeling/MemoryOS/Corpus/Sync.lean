/-
The sync use case (`application/sync.py`, `SyncSource`): turn what the
filesystem connector observed into stored state.

Each item is a transaction of its own. One that raises is counted and
the walk goes on; the bytes its file was read for stay in the blob store.
-/
import MemoryOS.Corpus.Filesystem
import MemoryOS.Corpus.Deletion

namespace MemoryOS.SyncSource

open Filesystem

/-- A row of `sources`, with the columns a sync reads and writes. -/
structure SyncedSource where
  id : Id
  config : SourceConfig
  /-- `cursor[CURSOR_SEEN]`. -/
  seen : List (String × Fingerprint) := []
  lastSyncAt : Option Timestamp := none
  lastFullSyncAt : Option Timestamp := none
deriving DecidableEq, Repr

/-- `SyncReport`, but for the time it took. -/
structure SyncReport where
  observed : Nat := 0
  new : Nat := 0
  modified : Nat := 0
  deleted : Nat := 0
  skipped : Nat := 0
  errors : Nat := 0
deriving DecidableEq, Repr

/-- When the transactions of a sync run. -/
structure Clock where
  ingested : String → Timestamp
  deleted : String → Timestamp
  finished : Timestamp

/-- A sync in progress. -/
structure Progress where
  store : Store
  observedKeys : List String := []
  cursorSeen : List (String × Fingerprint)
  report : SyncReport := {}

/-- `cursor_seen[key] = value`. -/
def setSeen (seen : List (String × Fingerprint)) (key : String)
    (value : Fingerprint) : List (String × Fingerprint) :=
  seen.filter (fun s => decide (s.1 ≠ key)) ++ [(key, value)]

/-- The loop's body for an item the connector yielded. -/
def record (p : Progress) (sourceId : Id) (item : ObservedItem)
    (fingerprint : Fingerprint) (now : Timestamp) : Progress :=
  let p := { p with
    observedKeys := p.observedKeys ++ [item.externalKey]
    report := { p.report with observed := p.report.observed + 1 } }
  match ingestItem p.store sourceId item now with
  | .error _ =>
    { p with report := { p.report with errors := p.report.errors + 1 } }
  | .ok (store, changed) =>
    { p with
      store := store
      cursorSeen := setSeen p.cursorSeen item.externalKey fingerprint
      report :=
        match changed with
        | none => { p.report with skipped := p.report.skipped + 1 }
        | some ⟨_, true⟩ =>
          { p.report with modified := p.report.modified + 1 }
        | some ⟨_, false⟩ => { p.report with new := p.report.new + 1 } }

/-- One file the walk found: observed, and recorded if it is yielded. -/
def syncFile (env : Env) (clock : Clock) (source : SyncedSource)
    (full : Bool) (p : Progress) (found : Found) : Progress :=
  let r := observeFile env full source.seen p.store.blobs found
  let p := { p with store := { p.store with blobs := r.1 } }
  match r.2 with
  | none => p
  | some item =>
    record p source.id item found.stat.fingerprint
      (clock.ingested item.externalKey)

/-- The files a walk found, one after another. -/
def syncFiles (env : Env) (clock : Clock) (source : SyncedSource)
    (full : Bool) (store : Store) (found : List Found) : Progress :=
  found.foldl (syncFile env clock source full)
    { store := store, cursorSeen := source.seen }

/-- `_finish`. -/
def finish (clock : Clock) (source : SyncedSource)
    (cursorSeen : List (String × Fingerprint)) (full : Bool) :
    SyncedSource :=
  { source with
    seen := cursorSeen
    lastSyncAt := some clock.finished
    lastFullSyncAt :=
      if full then some clock.finished else source.lastFullSyncAt }

/-- `SyncSource.__call__` of a source that was loaded. A config without a
root and a root that is not a directory raise before anything is
written. -/
def call (env : Env) (clock : Clock) (store : Store) (source : SyncedSource)
    (root : Root) (full : Bool) :
    Except Failure (Store × SyncedSource × SyncReport) :=
  match FilesystemConfig.fromDict source.config with
  | .error e => .error e
  | .ok config =>
    if !root.isDir then .error .notFound
    else
      let p := syncFiles env clock source full store (walk config root)
      if full then
        let db := p.store.db
        let deleted :=
          (missingKeys (Deletion.knownOf db source.id) p.observedKeys).length
        .ok ({ p.store with
            db := Deletion.detectDeletions db source.id p.observedKeys
              clock.deleted },
          finish clock source
            (p.cursorSeen.filter fun s => decide (s.1 ∈ p.observedKeys)) full,
          { p.report with deleted := deleted })
      else
        .ok (p.store, finish clock source p.cursorSeen full, p.report)

end MemoryOS.SyncSource
