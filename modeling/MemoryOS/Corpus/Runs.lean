/-
Sync runs of one source, side by side with each other and with writes to
its files (`application/sync.py`, `FilesystemConnector.observe`).

A run loads the cursor, walks the tree, and then takes one file after
another: a file whose fingerprint is the cursor's is skipped, any other is
read and recorded in a transaction of its own. The cursor is saved when the
run ends. Each of these is a step, the walk's look at each file included,
and a write, or another run's step, may come between any two.

# What is kept beside

`recorded` and `past` are not stored anywhere. The first holds under which
fingerprints the current version of a file was recorded, or found
unchanged; the second the fingerprints the files have had.
-/
import MemoryOS.Corpus.Sync

namespace MemoryOS.SyncRuns

open Filesystem SyncSource

-- ======= the state

/-- How far a run has got. -/
inductive Phase
  /-- `_collect`. -/
  | walking
  /-- The loop; an item that was yielded waits to be recorded. -/
  | observing (pending : Option (ObservedItem × Fingerprint))
  /-- `_detect_deletions`, with what was known and is still to be marked. -/
  | sweeping (known : List Memory) (missing : List String)
  | ended

/-- A run of `SyncSource`. -/
structure Run where
  full : Bool
  /-- The cursor it loaded. -/
  seen : List (String × Fingerprint)
  phase : Phase := .walking
  /-- The files the walk has found, and the loop has not come to. -/
  found : List Found := []
  observedKeys : List String := []
  cursorSeen : List (String × Fingerprint)
  report : SyncReport := {}

/-- Whether a run is over. -/
def Run.isEnded (r : Run) : Bool :=
  match r.phase with
  | .ended => true
  | _ => false

/-- The corpus, the source's row and directory, and its runs. -/
structure System where
  store : Store
  source : SyncedSource
  root : Root
  runs : List Run
  recorded : List (String × Fingerprint)
  past : List (String × Fingerprint)

/-- A source that was never synced, over an empty directory. -/
def init (id : Id) (config : SourceConfig) : System where
  store := ⟨{ sources := [⟨id, .filesystem, "files"⟩] }, []⟩
  source := { id := id, config := config }
  root := { entries := .nil }
  runs := []
  recorded := []
  past := []

/-- What a walk of a directory would find. -/
def filesOf (config : SourceConfig) (root : Root) : List Found :=
  match FilesystemConfig.fromDict config with
  | .error _ => []
  | .ok config => walk config root

/-- What a walk would find now. -/
def System.files (s : System) : List Found := filesOf s.source.config s.root

/-- The file of a key, as it is now. -/
def System.file (s : System) (key : String) : Option Found :=
  s.files.find? fun f => decide (f.externalKey = key)

/-- `(external_key, fingerprint)`. -/
def mark (f : Found) : String × Fingerprint :=
  (f.externalKey, f.stat.fingerprint)

/-- Whether a directory has one file of a key, and whether its files are
those of another, or have another modification time or size. -/
def Written (before after : List Found) : Prop :=
  (after.map (·.externalKey)).Nodup ∧ ∀ f ∈ after, ∀ g ∈ before,
    mark f = mark g → f.bytes = g.bytes

instance (before after : List Found) : Decidable (Written before after) :=
  inferInstanceAs (Decidable (_ ∧ _))

-- ======= the steps

/-- A step. -/
inductive Action
  /-- Files are written. -/
  | write (root : Root)
  | start (full : Bool)
  /-- The walk comes to a file. -/
  | look (i : Nat) (key : String)
  | walked (i : Nat)
  /-- The loop comes to a file. Reading it may fail; a file the walk would
  not find any more reads as `other`. -/
  | observe (i : Nat) (other : Option Bytes) (fails : Bool)
  /-- The transaction of one item, which may fail. -/
  | ingest (i : Nat) (fails : Bool) (now : Timestamp)
  | detect (i : Nat)
  | tombstone (i : Nat) (now : Timestamp)
  /-- `_finish`. -/
  | finish (i : Nat) (now : Timestamp)
  /-- A run ends without. -/
  | stop (i : Nat)

/-- A run moves on. -/
def System.move (s : System) (i : Nat) (r : Run) : System :=
  { s with runs := s.runs.set i r }

/-- What a read of a file gives. -/
def System.bytesOf (s : System) (key : String) (other : Option Bytes)
    (fails : Bool) : Option Bytes :=
  match s.file key with
  | none => other
  | some f => if fails then none else f.bytes

/-- What the record of an item says of its key. -/
def noted (recorded : List (String × Fingerprint)) (key : String)
    (fingerprint : Fingerprint) (out : Option Ingested) :
    List (String × Fingerprint) :=
  match out with
  | none => (key, fingerprint) :: recorded
  | some _ => (key, fingerprint) :: recorded.filter fun m => decide (m.1 ≠ key)

/-- A transaction that failed. -/
def Run.failed (r : Run) (key : String) : Run :=
  { r with
    phase := .observing none
    observedKeys := r.observedKeys ++ [key]
    report := { r.report with
      observed := r.report.observed + 1
      errors := r.report.errors + 1 } }

/-- The loop's body for an item, over what other runs have left. -/
def System.record (s : System) (i : Nat) (r : Run) (item : ObservedItem)
    (fingerprint : Fingerprint) (now : Timestamp) : System :=
  let p := SyncSource.record ⟨s.store, r.observedKeys, r.cursorSeen, r.report⟩
    s.source.id item fingerprint now
  { s.move i { r with
      phase := .observing none
      observedKeys := p.observedKeys
      cursorSeen := p.cursorSeen
      report := p.report } with
    store := p.store
    recorded :=
      match ingestItem s.store s.source.id item now with
      | .error _ => s.recorded
      | .ok (_, out) => noted s.recorded item.externalKey fingerprint out }

/-- The cursor a run saves. -/
def Run.saved (r : Run) : List (String × Fingerprint) :=
  if r.full then
    r.cursorSeen.filter fun m => decide (m.1 ∈ r.observedKeys)
  else r.cursorSeen

/-- Whether a run has come to `_finish`. -/
def Run.done (r : Run) : Bool :=
  match r.phase, r.full with
  | .observing none, false => r.found.isEmpty
  | .sweeping _ missing, true => missing.isEmpty
  | _, _ => false

/-- One step of a run. -/
def runStep (env : Env) (s : System) (i : Nat) (r : Run) :
    Action → Option System
  | .look _ key =>
    match r.phase, s.file key with
    | .walking, some f => some (s.move i { r with found := r.found ++ [f] })
    | _, _ => none
  | .walked _ =>
    match r.phase with
    | .walking => some (s.move i { r with phase := .observing none })
    | _ => none
  | .observe _ other fails =>
    match r.phase, r.found with
    | .observing none, f :: rest =>
      let read := observeFile env r.full r.seen s.store.blobs
        { f with bytes := s.bytesOf f.externalKey other fails }
      some { s.move i { r with
          phase := .observing (read.2.map fun x => (x, f.stat.fingerprint))
          found := rest } with
        store := { s.store with blobs := read.1 } }
    | _, _ => none
  | .ingest _ fails now =>
    match r.phase with
    | .observing (some (item, fingerprint)) =>
      if fails then some (s.move i (r.failed item.externalKey))
      else some (s.record i r item fingerprint now)
    | _ => none
  | .detect _ =>
    match r.phase with
    | .observing none =>
      if r.full && r.found.isEmpty then
        let known := Deletion.knownOf s.store.db s.source.id
        some (s.move i { r with
          phase := .sweeping known (missingKeys known r.observedKeys) })
      else none
    | _ => none
  | .tombstone _ now =>
    match r.phase with
    | .sweeping known (key :: missing) =>
      some { s.move i { r with
          phase := .sweeping known missing
          report := { r.report with deleted := r.report.deleted + 1 } } with
        store := { s.store with
          db := Deletion.sweepOne s.source.id known s.store.db key now }
        recorded := s.recorded.filter fun m => decide (m.1 ≠ key) }
    | _ => none
  | .finish _ now =>
    if r.done then
      some { s.move i { r with phase := .ended } with
        source := SyncSource.finish ⟨fun _ => now, fun _ => now, now⟩ s.source
          r.saved r.full }
    else none
  | .stop _ =>
    if r.isEnded then none else some (s.move i { r with phase := .ended })
  | _ => none

/-- Whose step it is. -/
def Action.run : Action → Option Nat
  | .write _ | .start _ => none
  | .look i _ | .walked i | .observe i _ _ | .ingest i _ _ | .detect i
  | .tombstone i _ | .finish i _ | .stop i => some i

/-- One step. -/
def step (env : Env) (s : System) (a : Action) : Option System :=
  match a with
  | .write root =>
    let after := filesOf s.source.config root
    if Written s.files after then
      some { s with root := root, past := s.past ++ after.map mark }
    else none
  | .start full =>
    if s.root.isDir then
      some { s with runs := s.runs ++ [
        { full := full, seen := s.source.seen, cursorSeen := s.source.seen }] }
    else none
  | a => a.run.bind fun i => (s.runs[i]?).bind fun r => runStep env s i r a

/-- The system as a machine. -/
def machine (env : Env) : Lib.Machine System Action Unit where
  step s a := (step env s a).map fun s' => (s', [])

-- ====== statement vocabulary

/-- No run is in progress. -/
def Quiet (s : System) : Prop := ∀ r ∈ s.runs, r.isEnded = true

instance (s : System) : Decidable (Quiet s) :=
  inferInstanceAs (Decidable (∀ r ∈ s.runs, r.isEnded = true))

/-- The current version of each file that is there is live and holds the
file's bytes. -/
def Agrees (env : Env) (s : System) (db : Db) : Prop :=
  ∀ f ∈ s.files, ∀ data, f.bytes = some data →
    ∃ m, currentRow db s.source.id f.externalKey = some m
      ∧ m.deletedAt = none ∧ m.contentHash = env.digest data

/-- No other run is in progress. -/
def lastRun (s : System) (i : Nat) : Bool :=
  (s.runs.eraseIdx i).all Run.isEnded

/-- Whether each file that is there, and whose fingerprint a cursor holds,
had its current version recorded under that fingerprint. -/
def vouched (s : System) (cursor : List (String × Fingerprint)) : Bool :=
  s.files.all fun f =>
    decide (cursor.lookup f.externalKey = some f.stat.fingerprint →
      mark f ∈ s.recorded)

/-- A write gives a file a modification time or a size it has not had. -/
def newWrites (s : System) : Action → Bool
  | .write root => (filesOf s.source.config root).all fun f =>
    decide (mark f ∈ s.files.map mark) || decide (mark f ∉ s.past)
  | _ => true

/-- When the last run in progress comes to its end, the cursor that is then
the source's vouches for nothing but what is recorded. -/
def endsVouched (s : System) : Action → Bool
  | .finish i _ =>
    !lastRun s i || s.runs[i]?.all fun r => vouched s r.saved
  | .stop i => !lastRun s i || vouched s s.source.seen
  | _ => true

/-- What a file's current version is: its content, and whether it is
deleted. -/
def currentContent (s : System) (db : Db) (key : String) :
    Option (ContentHash × Option Timestamp) :=
  (currentRow db s.source.id key).map fun m => (m.contentHash, m.deletedAt)

end MemoryOS.SyncRuns
