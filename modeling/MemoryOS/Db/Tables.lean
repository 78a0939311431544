/-
The rows of the Postgres schema (`adapters/db/models.py`) and the
database they make up.

A table is a list of rows in the order they were written; a statement
that says `ORDER BY` sorts, every other one may see any order. Row-level
security scopes every table to one user, so `user_id` is constant and
left out. Real-valued columns that are only stored and compared are
rationals; vectors are their components' bits.

# Identity

`new_id` never returns an id in use. `Db.nextId` is the next one it
returns; a function that mints an id takes it from there and moves it on.
-/
import Mathlib.Data.Rat.Defs
import MemoryOS.Domain.MessageIntent
import MemoryOS.Jobs.Queue

namespace MemoryOS

/-- A file's bytes. -/
abbrev Bytes := List UInt8

/-- A `ContentHash` of raw bytes, as its hexadecimal text. -/
abbrev ContentHash := String

/-- `ContentHash.of` a text: a digest is known by what it digests, so two
are equal when the texts are. -/
structure TextHash where
  text : Text
deriving DecidableEq, Repr

/-- A JSON object of strings: `metadata` columns. -/
abbrev Meta := List (String × String)

/-- A `Vector(384)` column's value: the components' bits. -/
abbrev Embedding := List UInt32

/-- A row of `sources`. -/
structure Source where
  id : Id
  kind : SourceKind
  name : String
deriving DecidableEq, Repr

/-- A row of `raw_artifacts`. -/
structure RawArtifact where
  contentHash : ContentHash
  byteSize : Nat
  mediaType : Option String
deriving DecidableEq, Repr

/-- A row of `ingestion_events`. The payload's one key that is read is
`media_type`. -/
structure IngestionEvent where
  seq : Nat
  eventType : EventType
  sourceId : Id
  externalKey : String
  contentHash : Option ContentHash
  occurredAt : Option Timestamp
  occurredAtSource : TimeProvenance
  mediaType : Option String
  recordedAt : Timestamp
deriving DecidableEq, Repr

/-- A row of `memories`: one version of one item. `mediaType` and `parsed`
are the two keys of its `metadata`. -/
structure Memory where
  id : Id
  sourceId : Id
  externalKey : String
  version : Nat
  isCurrent : Bool
  contentHash : ContentHash
  normalizedHash : Option TextHash
  kind : MemoryKind
  title : Option Text
  content : Option Text
  occurredAt : Option Timestamp
  occurredAtSource : TimeProvenance
  ingestedAt : Timestamp
  mediaType : Option String
  parsed : Option Meta
  deletedAt : Option Timestamp
  entityExtractorVersion : Option String
  relationshipExtractorVersion : Option String
deriving DecidableEq, Repr

/-- A row of `memory_chunks`. -/
structure MemoryChunk where
  id : Id
  memoryId : Id
  ordinal : Nat
  content : Text
  tokenCount : Nat
  charStart : Nat
  charEnd : Nat
  prefixChars : Nat
  chunkerVersion : String
  contentHash : TextHash
  metadata : Meta
  embedding : Option Embedding
  embeddingModel : Option String
  embeddedAt : Option Timestamp
deriving DecidableEq, Repr

/-- A row of `embedding_cache`. `cache_key_for` hashes the model, the role
(always a passage here) and the text, so the key is the pair. -/
structure EmbeddingCacheEntry where
  modelId : String
  text : Text
  embedding : Embedding
deriving DecidableEq, Repr

/-- A row of `memory_tags`. -/
structure MemoryTag where
  sourceId : Id
  externalKey : String
  tag : Text
deriving DecidableEq, Repr

/-- A row of `chat_sessions`. -/
structure ChatSession where
  id : Id
  title : Option Text
  startedAt : Timestamp
  lastActivity : Timestamp
  messageCount : Nat
  archivedAt : Option Timestamp
deriving DecidableEq, Repr

/-- `Citation`: one passage an answer cited, as the transcript keeps it. -/
structure ChatCitation where
  memoryId : Option Id
  locator : Text
  excerpt : Text
deriving DecidableEq, Repr

/-- A row of `chat_messages`. -/
structure ChatMessage where
  id : Id
  sessionId : Id
  role : ChatRole
  content : Text
  ordinal : Nat
  externalKey : Option String
  intent : Option MessageIntent
  correctsMessageId : Option Id
  answerModel : Option String
  answerRefused : Option Bool
  citations : List ChatCitation
  createdAt : Timestamp
deriving DecidableEq, Repr

/-- A row of `chat_attachments`. -/
structure ChatAttachment where
  id : Id
  messageId : Id
  ordinal : Nat
  filename : Text
  externalKey : String
  contentHash : ContentHash
  byteSize : Nat
  mediaType : Option String
  deduplicated : Bool
deriving DecidableEq, Repr

/-- A row of `entities`. -/
structure Entity where
  id : Id
  name : Text
  canonicalName : Text
  type : EntityType
  confidence : Option ℚ
  firstSeenAt : Timestamp
  mergedIntoId : Option Id
deriving DecidableEq

/-- A row of `entity_mentions`. -/
structure EntityMention where
  id : Id
  entityId : Id
  memoryId : Id
  chunkId : Id
  charStart : Nat
  charEnd : Nat
  confidence : Option ℚ
  extractorVersion : String
  extractedAt : Timestamp
deriving DecidableEq

/-- A row of `entity_merges`. -/
structure EntityMerge where
  id : Id
  winnerId : Id
  loserId : Id
  strategy : MergeStrategy
  status : MergeStatus
  confidence : ℚ
  evidence : String
  movedMentionIds : List Id
  proposedAt : Timestamp
  mergedAt : Option Timestamp
  revertedAt : Option Timestamp
deriving DecidableEq

/-- A row of `entity_relationships`. -/
structure EntityRelationship where
  id : Id
  subjectId : Id
  objectId : Id
  predicate : Predicate
  confidence : Option ℚ
  memoryId : Id
  chunkId : Id
deriving DecidableEq

/-- The evidence tables. -/
inductive EvidenceTable
  | decisionEvidence | outcomeEvidence | assumptionEvidence
deriving DecidableEq, Repr

/-- The columns an evidence table has besides the ones all three share. -/
inductive EvidenceColumns
  | decision (relation : EvidenceRelation) (linkedAt : Timestamp)
  | snapshot (occurredAt : Option Timestamp) (linkedAt : Timestamp)
deriving DecidableEq, Repr

/-- A row of one of the evidence tables: a memory, or one chunk of it,
linked to its owner, with the natural key of both beside the ids. -/
structure EvidenceRow where
  id : Id
  table : EvidenceTable
  owner : Id
  memoryId : Id
  chunkId : Option Id
  sourceName : String
  externalKey : String
  chunkOrdinal : Option Nat
  columns : EvidenceColumns
deriving DecidableEq, Repr

/-- The database. -/
structure Db where
  sources : List Source := []
  artifacts : List RawArtifact := []
  /-- The append-only log, in `seq` order. -/
  events : List IngestionEvent := []
  memories : List Memory := []
  chunks : List MemoryChunk := []
  entities : List Entity := []
  mentions : List EntityMention := []
  merges : List EntityMerge := []
  relationships : List EntityRelationship := []
  evidence : List EvidenceRow := []
  embeddingCache : List EmbeddingCacheEntry := []
  tags : List MemoryTag := []
  chatSessions : List ChatSession := []
  chatMessages : List ChatMessage := []
  chatAttachments : List ChatAttachment := []
  jobs : List Job := []
  /-- The next id `new_id` returns. -/
  nextId : Id := 1
  /-- The next value of the log's identity column. -/
  nextSeq : Nat := 1

/-- Why a statement or a use case failed; its transaction is rolled back. -/
inductive Failure
  | notFound
  | refused
  | checkViolation
  | uniqueViolation
  | foreignKeyViolation
  | unreadableItem
  | unparseable
  | missingBlob
deriving DecidableEq, Repr

namespace Db

variable (db : Db)

/-- `session.get(models.Entity, id)`. -/
def entity (id : Id) : Option Entity :=
  db.entities.find? fun e => decide (e.id = id)

/-- `session.get(models.EntityMerge, id)`. -/
def merge (id : Id) : Option EntityMerge :=
  db.merges.find? fun m => decide (m.id = id)

/-- `session.get(models.Memory, id)`. -/
def memory (id : Id) : Option Memory :=
  db.memories.find? fun m => decide (m.id = id)

-- ====== what cascades

/-- Delete chunks, and what `ON DELETE CASCADE` takes with them. -/
def deleteChunks (p : MemoryChunk → Bool) : Db :=
  let gone := (db.chunks.filter p).map (·.id)
  { db with
    chunks := db.chunks.filter fun c => !p c
    mentions := db.mentions.filter fun m => decide (m.chunkId ∉ gone)
    relationships :=
      db.relationships.filter fun r => decide (r.chunkId ∉ gone)
    evidence := db.evidence.filter fun e =>
      match e.chunkId with
      | none => true
      | some c => decide (c ∉ gone) }

/-- Delete memories, and what `ON DELETE CASCADE` takes with them. -/
def deleteMemories (p : Memory → Bool) : Db :=
  let gone := (db.memories.filter p).map (·.id)
  let db' := db.deleteChunks fun c => decide (c.memoryId ∈ gone)
  { db' with
    memories := db.memories.filter fun m => !p m
    mentions := db'.mentions.filter fun m => decide (m.memoryId ∉ gone)
    relationships :=
      db'.relationships.filter fun r => decide (r.memoryId ∉ gone)
    evidence := db'.evidence.filter fun e => decide (e.memoryId ∉ gone) }

/-- `enqueue_in`, in the transaction at hand. -/
def enqueue (spec : JobSpec) (now : Timestamp) : Db :=
  { db with
    jobs := (Queue.enqueueIn db.jobs spec db.nextId now).1
    nextId := db.nextId + 1 }

section Frames

variable (p : MemoryChunk → Bool) (q : Memory → Bool) (spec : JobSpec)
  (now : Timestamp)

@[simp] theorem deleteChunks_memories :
    (db.deleteChunks p).memories = db.memories := rfl
@[simp] theorem deleteChunks_events :
    (db.deleteChunks p).events = db.events := rfl
@[simp] theorem deleteChunks_chunks :
    (db.deleteChunks p).chunks = db.chunks.filter fun c => !p c := rfl
@[simp] theorem deleteChunks_jobs :
    (db.deleteChunks p).jobs = db.jobs := rfl
@[simp] theorem deleteChunks_cache :
    (db.deleteChunks p).embeddingCache = db.embeddingCache := rfl
@[simp] theorem deleteChunks_nextId :
    (db.deleteChunks p).nextId = db.nextId := rfl
@[simp] theorem deleteChunks_nextSeq :
    (db.deleteChunks p).nextSeq = db.nextSeq := rfl
@[simp] theorem deleteMemories_memories :
    (db.deleteMemories q).memories = db.memories.filter fun m => !q m := rfl
@[simp] theorem deleteMemories_events :
    (db.deleteMemories q).events = db.events := rfl
@[simp] theorem deleteMemories_nextId :
    (db.deleteMemories q).nextId = db.nextId := rfl
@[simp] theorem deleteMemories_nextSeq :
    (db.deleteMemories q).nextSeq = db.nextSeq := rfl
@[simp] theorem enqueue_memories :
    (db.enqueue spec now).memories = db.memories := rfl
@[simp] theorem enqueue_events :
    (db.enqueue spec now).events = db.events := rfl
@[simp] theorem enqueue_chunks :
    (db.enqueue spec now).chunks = db.chunks := rfl
@[simp] theorem enqueue_cache :
    (db.enqueue spec now).embeddingCache = db.embeddingCache := rfl
@[simp] theorem enqueue_nextId :
    (db.enqueue spec now).nextId = db.nextId + 1 := rfl
@[simp] theorem enqueue_nextSeq :
    (db.enqueue spec now).nextSeq = db.nextSeq := rfl

end Frames

variable {db}

theorem entity_mem {id : Id} {e : Entity} (h : db.entity id = some e) :
    e ∈ db.entities ∧ e.id = id := by
  refine ⟨List.mem_of_find?_eq_some h, ?_⟩
  simpa using List.find?_some h

theorem memory_mem {id : Id} {m : Memory} (h : db.memory id = some m) :
    m ∈ db.memories ∧ m.id = id := by
  refine ⟨List.mem_of_find?_eq_some h, ?_⟩
  simpa using List.find?_some h

end Db

end MemoryOS
