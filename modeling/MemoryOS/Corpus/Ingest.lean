/-
The repositories the writers share (`adapters/db/repositories.py`):
artifacts, the event log and the versions of an item; and recording one observed
item (`application/ingest.py`, `application/projection.py`), with the graph sync
every writer asks for (`graph_sync.graph_sync_spec`).
-/
import Mathlib.Data.List.Sort
import MemoryOS.Corpus.Ports

namespace MemoryOS

/-- `SqlAlchemyArtifactRepository.exists`. -/
def artifactKnown (db : Db) (hash : ContentHash) : Bool :=
  db.artifacts.any fun a => decide (a.contentHash = hash)

/-- What an event says, before the log numbers and dates it. -/
structure EventDraft where
  eventType : EventType
  sourceId : Id
  externalKey : String
  contentHash : Option ContentHash := none
  occurredAt : Option Timestamp := none
  occurredAtSource : TimeProvenance := .unknown
  mediaType : Option String := none

/-- The row an appended event becomes. -/
def EventDraft.event (e : EventDraft) (seq : Nat) (now : Timestamp) :
    IngestionEvent where
  seq := seq
  eventType := e.eventType
  sourceId := e.sourceId
  externalKey := e.externalKey
  contentHash := e.contentHash
  occurredAt := e.occurredAt
  occurredAtSource := e.occurredAtSource
  mediaType := e.mediaType
  recordedAt := now

/-- `SqlAlchemyEventLog.append`. -/
def appendEvent (db : Db) (e : EventDraft) (now : Timestamp) :
    Db × IngestionEvent :=
  let event := e.event db.nextSeq now
  ({ db with events := db.events ++ [event], nextSeq := db.nextSeq + 1 }, event)

/-- The current version of an item. -/
def isCurrentOf (sourceId : Id) (externalKey : String) (m : Memory) : Bool :=
  decide (m.sourceId = sourceId) && decide (m.externalKey = externalKey)
    && m.isCurrent

/-- `_current_row`, which is also `get_current`. -/
def currentRow (db : Db) (sourceId : Id) (externalKey : String) :
    Option Memory :=
  db.memories.find? (isCurrentOf sourceId externalKey)

/-- `add_version`: supersede the current version and insert the next one.
The number is one past the current row's, whatever `memory` says. -/
def addVersion (db : Db) (memory : Memory) : Db :=
  match currentRow db memory.sourceId memory.externalKey with
  | none =>
    { db with memories := db.memories ++
        [{ memory with version := 1, isCurrent := true }] }
  | some current =>
    { db with memories :=
        (db.memories.map fun m =>
          if m.id = current.id then { m with isCurrent := false } else m)
        ++ [{ memory with version := current.version + 1, isCurrent := true }] }

section Frames

variable (db : Db) (m : Memory)

@[simp] theorem addVersion_events :
    (addVersion db m).events = db.events := by
  unfold addVersion
  split <;> rfl

@[simp] theorem addVersion_nextSeq :
    (addVersion db m).nextSeq = db.nextSeq := by
  unfold addVersion
  split <;> rfl

@[simp] theorem addVersion_nextId :
    (addVersion db m).nextId = db.nextId := by
  unfold addVersion
  split <;> rfl

@[simp] theorem addVersion_chunks :
    (addVersion db m).chunks = db.chunks := by
  unfold addVersion
  split <;> rfl

@[simp] theorem addVersion_jobs :
    (addVersion db m).jobs = db.jobs := by
  unfold addVersion
  split <;> rfl

@[simp] theorem addVersion_cache :
    (addVersion db m).embeddingCache = db.embeddingCache := by
  unfold addVersion
  split <;> rfl

end Frames

/-- `tombstone`: mark a memory deleted without removing the row. -/
def tombstoneRow (db : Db) (memoryId : Id) (deletedAt : Timestamp) : Db :=
  { db with memories := db.memories.map fun m =>
      if m.id = memoryId then { m with deletedAt := some deletedAt } else m }

end MemoryOS

namespace MemoryOS

-- ====== from an event

/-- `_KIND_BY_SUFFIX`. -/
def kindBySuffix (suffix : String) : MemoryKind :=
  if suffix = ".md" then .note
  else if suffix = ".txt" then .note
  else if suffix = ".py" then .code
  else if suffix = ".pdf" then .document
  else .other

/-- `kind_for`: the text from the last dot on, unless the dot is the first
character. -/
def kindFor (externalKey : String) : MemoryKind :=
  let chars := externalKey.toList
  let suffix := (chars.reverse.takeWhile (· ≠ '.')).reverse
  if '.' ∈ chars.tail then
    kindBySuffix (String.ofList ('.' :: suffix.map Char.toLower))
  else .other

/-- `memory_from_event`: the memory one `artifact_observed` event implies,
or `none` for an event without content (`MalformedEvent`). -/
def memoryFromEvent (event : IngestionEvent) (memoryId : Id) :
    Option Memory :=
  event.contentHash.map fun contentHash => {
    id := memoryId
    sourceId := event.sourceId
    externalKey := event.externalKey
    version := 1
    isCurrent := true
    contentHash := contentHash
    normalizedHash := none
    kind := kindFor event.externalKey
    title := none
    content := none
    occurredAt := event.occurredAt
    occurredAtSource := event.occurredAtSource
    -- when the log recorded it, which a rebuild finds unchanged
    ingestedAt := event.recordedAt
    mediaType := event.mediaType
    parsed := none
    deletedAt := none
    entityExtractorVersion := none
    relationshipExtractorVersion := none }

-- ======== the jobs

/-- `payload_for`, sorted so that one change has one payload. -/
def syncPayload (memoryIds entityIds : List Id) : Payload where
  memoryIds := memoryIds.insertionSort (· ≤ ·)
  entityIds := entityIds.insertionSort (· ≤ ·)

/-- `graph_sync_spec`. -/
def graphSyncSpec (memoryIds entityIds : List Id) : JobSpec where
  jobType := .syncGraph
  payload := syncPayload memoryIds entityIds
  dedupeKey := some (.syncGraph ((syncPayload memoryIds entityIds).memoryIds
    ++ (syncPayload memoryIds entityIds).entityIds))
  priority := -1
  dedupeKey_nonempty := by nofun

/-- The job `ingest_item` queues for the pipeline. -/
def normalizeSpec (memoryId : Id) : JobSpec where
  jobType := .normalizeMemory
  payload := { memoryId := some memoryId }
  dedupeKey := some (.memory memoryId)
  dedupeKey_nonempty := by nofun

-- ====== the writer

/-- The database and the blob store beside it. -/
structure Store where
  db : Db := {}
  blobs : Blobs := []

/-- `ObservedItem`: one thing a connector found. -/
structure ObservedItem where
  externalKey : String
  contentHash : ContentHash
  byteSize : Nat
  mediaType : Option String
  occurredAt : Option Timestamp
  occurredAtSource : TimeProvenance
  /-- `none` when the bytes are already stored. -/
  readBytes : Option Bytes
deriving DecidableEq, Repr

/-- The checks of `IngestionEvent.__post_init__` and
`Memory.__post_init__`. -/
def ObservedItem.wellFormed (item : ObservedItem) : Bool :=
  decide (item.externalKey ≠ "")
    && decide (item.occurredAt = none ↔ item.occurredAtSource = .unknown)

/-- `Ingested`: what one recorded item became. -/
structure Ingested where
  memoryId : Id
  superseded : Bool
deriving DecidableEq, Repr

/-- Whether the item is byte-identical to the current, undeleted version
and its artifact is known. -/
def unchanged (db : Db) (sourceId : Id) (item : ObservedItem) : Bool :=
  artifactKnown db item.contentHash &&
    match currentRow db sourceId item.externalKey with
    | none => false
    | some current =>
      decide (current.contentHash = item.contentHash)
        && current.deletedAt.isNone

/-- The bytes, and the artifact row that promises them. -/
def storeArtifact (s : Store) (item : ObservedItem) : Except Failure Store :=
  if artifactKnown s.db item.contentHash then .ok s
  else
    let artifact : RawArtifact :=
      ⟨item.contentHash, item.byteSize, item.mediaType⟩
    let db := { s.db with artifacts := s.db.artifacts ++ [artifact] }
    if s.blobs.holds item.contentHash then .ok { s with db := db }
    else
      match item.readBytes with
      | none => .error .unreadableItem
      | some data => .ok ⟨db, s.blobs.put item.contentHash data⟩

/-- The event an observation appends. -/
def observation (sourceId : Id) (item : ObservedItem) : EventDraft where
  eventType := .artifactObserved
  sourceId := sourceId
  externalKey := item.externalKey
  contentHash := some item.contentHash
  occurredAt := item.occurredAt
  occurredAtSource := item.occurredAtSource
  mediaType := item.mediaType

/-- The event, the memory and its two jobs, once the artifact is known. -/
def recordVersion (db : Db) (sourceId : Id) (item : ObservedItem)
    (now : Timestamp) : Db × Id :=
  let r := appendEvent db (observation sourceId item) now
  let memoryId := r.1.nextId
  let db₁ := { r.1 with nextId := memoryId + 1 }
  match memoryFromEvent r.2 memoryId with
  | none => (db₁, memoryId)
  | some memory =>
    (((addVersion db₁ memory).enqueue (normalizeSpec memoryId) now).enqueue
        (graphSyncSpec [memoryId] []) now,
      memoryId)

/-- `ingest_item`: record one item in the caller's transaction; `none`
when nothing changed. -/
def ingestItem (s : Store) (sourceId : Id) (item : ObservedItem)
    (now : Timestamp) : Except Failure (Store × Option Ingested) :=
  let current := currentRow s.db sourceId item.externalKey
  if unchanged s.db sourceId item then .ok (s, none)
  else
    match storeArtifact s item with
    | .error e => .error e
    | .ok s₁ =>
      if !item.wellFormed then .error .refused
      else
        let r := recordVersion s₁.db sourceId item now
        .ok ({ s₁ with db := r.1 },
          some ⟨r.2, current.isSome⟩)

end MemoryOS
