/-
Taking a memory out (`application/deletion.py`), and noticing that one is
gone (`application/sync.py`, `_detect_deletions`).

Each item of a purge, and each key of a sweep, is a transaction of its
own: what was done before a failure stays done, and the call's result
says what is left. A transaction's clock is an argument.

A full sync's deletion detection may have another writer beside it. What is
known is read once; each missing key is tombstoned later in a transaction of its
own, and `ingest_item` transactions of other writers may come before each.
`Deletion.detectDeletions` is the sweep nothing comes between.
-/
import MemoryOS.Corpus.Ingest
import MemoryOS.Lib.Machine

namespace MemoryOS

/-- `Item`: one item's durable identity. -/
structure Item where
  sourceId : Id
  externalKey : String
deriving DecidableEq, Repr

/-- The item a row is a version of. -/
def Memory.item (m : Memory) : Item := ⟨m.sourceId, m.externalKey⟩

/-- The item an event is about. -/
def IngestionEvent.item (e : IngestionEvent) : Item :=
  ⟨e.sourceId, e.externalKey⟩

namespace Deletion

/-- `item_of_memory`. -/
def itemOfMemory (db : Db) (memoryId : Id) : Option Item :=
  (db.memory memoryId).map Memory.item

/-- The event a deletion appends, and the tombstone stamped from it. -/
def markDeleted (db : Db) (item : Item) (memoryId : Id) (now : Timestamp) :
    Db :=
  let r := appendEvent db
    { eventType := .itemDeleted, sourceId := item.sourceId
      externalKey := item.externalKey } now
  (tombstoneRow r.1 memoryId r.2.recordedAt).enqueue
    (graphSyncSpec [memoryId] []) now

/-- `tombstone`: exclude a memory from retrieval, reversibly. -/
def tombstone (db : Db) (memoryId : Id) (now : Timestamp) :
    Except Failure Db :=
  match itemOfMemory db memoryId with
  | none => .error .notFound
  | some item =>
    match currentRow db item.sourceId item.externalKey with
    | none => .error .notFound
    | some current =>
      -- a second event would claim a second deletion
      if current.deletedAt.isSome then .ok db
      else .ok (markDeleted db item current.id now)

/-- `restore`: bring a tombstoned memory back, through the ordinary
version path. -/
def restore (s : Store) (memoryId : Id) (now : Timestamp) :
    Except Failure Store :=
  match itemOfMemory s.db memoryId with
  | none => .error .notFound
  | some item =>
    match currentRow s.db item.sourceId item.externalKey with
    | none => .error .notFound
    | some current =>
      if current.deletedAt.isNone then .error .refused
      else if !s.blobs.holds current.contentHash then .error .refused
      else
        let artifact := s.db.artifacts.find? fun a =>
          decide (a.contentHash = current.contentHash)
        match ingestItem s item.sourceId {
            externalKey := item.externalKey
            contentHash := current.contentHash
            byteSize := (artifact.map (·.byteSize)).getD 0
            mediaType := artifact.bind (·.mediaType)
            occurredAt := current.occurredAt
            occurredAtSource := current.occurredAtSource
            readBytes := none } now with
        | .error e => .error e
        | .ok (_, none) => .error .refused
        | .ok (s', some _) => .ok s'

-- ========= purging

/-- The versions of an item. -/
def versionsOf (db : Db) (item : Item) : List Memory :=
  db.memories.filter fun m => decide (m.item = item)

/-- `ON DELETE SET NULL` of `corrects_message_id`. -/
def unlink (gone : List Id) (m : ChatMessage) : ChatMessage :=
  if m.correctsMessageId.any fun c => decide (c ∈ gone) then
    { m with correctsMessageId := none }
  else m

/-- `_purge_one`: one item's rows, and the artifacts they referenced. -/
def purgeOne (db : Db) (item : Item) (now : Timestamp) :
    Except Failure (Db × List ContentHash) :=
  let versions := versionsOf db item
  if versions.isEmpty then .error .notFound
  else
    let db₁ := (appendEvent db
      { eventType := .itemPurged, sourceId := item.sourceId
        externalKey := item.externalKey } now).1
    -- the transcript is keyed by `external_key` alone
    let turns := (db₁.chatMessages.filter fun m =>
      decide (m.externalKey = some item.externalKey)).map (·.id)
    let db₂ : Db := { db₁ with
      chatMessages := (db₁.chatMessages.filter fun m =>
        decide (m.externalKey ≠ some item.externalKey)).map (unlink turns)
      chatAttachments := db₁.chatAttachments.filter fun a =>
        decide (a.messageId ∉ turns)
      tags := db₁.tags.filter fun t =>
        decide (¬ (t.sourceId = item.sourceId
          ∧ t.externalKey = item.externalKey)) }
    let db₃ := db₂.deleteMemories fun m => decide (m.item = item)
    .ok (db₃.enqueue (graphSyncSpec (versions.map (·.id)) []) now,
      versions.map (·.contentHash))

/-- The loop of `purge`: the database after the last item that committed,
the artifacts to shred, and whether an item was missing. -/
def purgeLoop : Db → List (Item × Timestamp) → Db × List ContentHash × Bool
  | db, [] => (db, [], true)
  | db, (item, now) :: rest =>
    match purgeOne db item now with
    | .error _ => (db, [], false)
    | .ok (db₁, hashes) =>
      let r := purgeLoop db₁ rest
      (r.1, hashes ++ r.2.1, r.2.2)

/-- `_still_referenced`. -/
def stillReferenced (db : Db) (hash : ContentHash) : Bool :=
  db.memories.any (fun m => decide (m.contentHash = hash))
    || db.chatAttachments.any fun a => decide (a.contentHash = hash)

/-- `purge`: remove the content of these items, keeping the log's record
that it existed. Blobs go once every row is gone; an item that is missing
ends the call before they do. -/
def purge (s : Store) (items : List (Item × Timestamp)) : Store :=
  let r := purgeLoop s.db items
  if r.2.2 then
    ⟨r.1, (r.2.1.filter fun h => !stillReferenced r.1 h).foldl Blobs.delete
      s.blobs⟩
  else ⟨r.1, s.blobs⟩

/-- How `purge` ends. -/
inductive PurgeOutcome
  | returned
  /-- `NoSuchMemory`, from the first item without a version. -/
  | noSuchMemory
  /-- `BlobsSurvived`, with the digests it names. -/
  | blobsSurvived (surviving : List ContentHash)
deriving DecidableEq, Repr

/-- `purge` with a blob store that may fail: `raises` says for which bytes
`delete` does. Each digest is tried once, and the others go on. -/
def purgeCall (raises : ContentHash → Bool) (s : Store)
    (items : List (Item × Timestamp)) : Store × PurgeOutcome :=
  let r := purgeLoop s.db items
  if r.2.2 then
    let due := r.2.1.eraseDups.filter fun h => !stillReferenced r.1 h
    let surviving := due.filter raises
    (⟨r.1, (due.filter fun h => !raises h).foldl Blobs.delete s.blobs⟩,
      if surviving.isEmpty then .returned else .blobsSurvived surviving)
  else (⟨r.1, s.blobs⟩, .noSuchMemory)

-- ======= the sweep

/-- Current, undeleted memories of a source: what `known` is built from. -/
def knownOf (db : Db) (sourceId : Id) : List Memory :=
  db.memories.filter fun m =>
    decide (m.sourceId = sourceId) && m.isCurrent && m.deletedAt.isNone

/-- `known[external_key]`. -/
def knownId (known : List Memory) (externalKey : String) : Option Id :=
  ((known.filter fun m => decide (m.externalKey = externalKey)).getLast?).map
    (·.id)

/-- One missing key's transaction. -/
def sweepOne (sourceId : Id) (known : List Memory) (db : Db)
    (externalKey : String) (now : Timestamp) : Db :=
  match knownId known externalKey with
  | none => db
  | some memoryId => markDeleted db ⟨sourceId, externalKey⟩ memoryId now

/-- `_detect_deletions`: tombstone what is known and was not observed, in
key order. -/
def detectDeletions (db : Db) (sourceId : Id) (observed : List String)
    (clock : String → Timestamp) : Db :=
  let known := knownOf db sourceId
  let missing := ((known.map (·.externalKey)).dedup.filter fun k =>
    decide (k ∉ observed)).mergeSort (fun a b => decide (a ≤ b))
  missing.foldl (fun db k => sweepOne sourceId known db k (clock k)) db

end Deletion

end MemoryOS

namespace MemoryOS

namespace SyncSource

open Lib

/-- `sorted(set(known) - observed_keys)`. -/
def missingKeys (known : List Memory) (observed : List String) :
    List String :=
  ((known.map (·.externalKey)).dedup.filter fun k =>
    decide (k ∉ observed)).mergeSort fun a b => decide (a ≤ b)

/-- What a transaction appended to the log, and the memory it did it for. -/
inductive Trace
  | observed (seq : Nat) (memoryId : Id)
  | deleted (seq : Nat) (memoryId : Id)
deriving DecidableEq, Repr

/-- A sweep in progress: what it read, and the keys it has yet to
tombstone. -/
structure Sweep where
  store : Store := {}
  sourceId : Id := 0
  known : List Memory := []
  missing : List String := []
  trace : List Trace := []

/-- What happens next. -/
inductive Action
  /-- Some writer records an item. -/
  | ingest (sourceId : Id) (item : ObservedItem) (now : Timestamp)
  /-- A sweep reads what is known. -/
  | detect (sourceId : Id) (observed : List String)
  /-- It tombstones the next missing key. -/
  | tombstone (now : Timestamp)

/-- One transaction. A sweep starts once the one before is through. -/
def step (s : Sweep) : Action → Option Sweep
  | .ingest sourceId item now =>
    match ingestItem s.store sourceId item now with
    | .error _ => some s
    | .ok (store, none) => some { s with store := store }
    | .ok (store, some r) =>
      some { s with
        store := store
        trace := s.trace ++ [.observed s.store.db.nextSeq r.memoryId] }
  | .detect sourceId observed =>
    if s.missing = [] then
      let known := Deletion.knownOf s.store.db sourceId
      some { s with
        sourceId := sourceId
        known := known
        missing := missingKeys known observed }
    else none
  | .tombstone now =>
    match s.missing with
    | [] => none
    | k :: rest =>
      some { s with
        store := { s.store with
          db := Deletion.sweepOne s.sourceId s.known s.store.db k now }
        missing := rest
        trace := s.trace ++ ((Deletion.knownId s.known k).map
          (Trace.deleted s.store.db.nextSeq)).toList }

/-- The transactions as a machine. -/
def machine : Machine Sweep Action Unit :=
  ⟨fun s a => (step s a).map fun s' => (s', [])⟩

end SyncSource

end MemoryOS
