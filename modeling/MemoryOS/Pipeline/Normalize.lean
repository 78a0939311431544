/-
Turning a stored artifact into text and chunks
(`application/normalize.py`), and giving chunks their vectors
(`application/embed.py`, `adapters/db/embedding_cache.py`).

One run of the first loads the memory, parses its bytes, and then does one of
three things: nothing, when the stored state already reflects the text; move an
earlier version's chunks here, when that version has the same text; or
replace the item's chunks.

A run of the second reads what is pending and writes the vectors in a later
transaction; `call` is the two with nothing in between. The model embeds
text by text, so batches do not appear, and neither does the order in
which the chunks are read: each is written by its id.
-/
import MemoryOS.Corpus.Ingest

namespace MemoryOS

namespace NormalizeMemory

/-- `NormalizeOutcome`. -/
inductive Outcome
  | skipped | reused | chunked | deleted
deriving DecidableEq, Repr

/-- `_parse`. -/
def parse (ports : Ports) (blobs : Blobs) (m : Memory) :
    Except Failure ParsedDocument :=
  match blobs.get m.contentHash with
  | none => .error .missingBlob
  | some data =>
    match ports.parse data (m.mediaType.filter (· ≠ "")) m.externalKey with
    | none => .error .unparseable
    | some doc => .ok doc

/-- `normalized_hash`. -/
def normalizedHash (text : Text) : TextHash := ⟨text⟩

/-- The chunker versions on a memory's chunks, with repeats. -/
def chunkVersions (db : Db) (memoryId : Id) : List String :=
  (db.chunks.filter fun c => decide (c.memoryId = memoryId)).map
    (·.chunkerVersion)

/-- `versions == {version}`. -/
def only (version : String) (versions : List String) : Bool :=
  !versions.isEmpty && versions.all fun v => decide (v = version)

/-- `_is_current`: whether stored state already reflects this text and this
chunker. -/
def isCurrent (ports : Ports) (db : Db) (m : Memory) (doc : ParsedDocument) :
    Bool :=
  if m.normalizedHash ≠ some (normalizedHash doc.text) then false
  else
    let versions := chunkVersions db m.id
    if versions.isEmpty then isBlank doc.text
    else only ports.chunker.version versions

/-- `_apply_document`. -/
def applyDocument (doc : ParsedDocument) (m : Memory) : Memory :=
  { m with
    content := some doc.text
    normalizedHash := some (normalizedHash doc.text)
    kind := doc.kind
    title := if (doc.title.getD []).isEmpty then m.title else doc.title
    parsed := if doc.metadata.isEmpty then m.parsed else some doc.metadata }

/-- Apply a document to one row. -/
def documented (db : Db) (memoryId : Id) (doc : ParsedDocument) : Db :=
  { db with memories := db.memories.map fun m =>
      if m.id = memoryId then applyDocument doc m else m }

/-- `ORDER BY version DESC LIMIT 1`. -/
def highestVersion : List Memory → Option Memory
  | [] => none
  | m :: rest =>
    match highestVersion rest with
    | none => some m
    | some k => if m.version < k.version then some k else some m

/-- The version `_adopt_from_previous_version` looks at: another version of
the item with this text. -/
def previousVersion (db : Db) (m : Memory) (doc : ParsedDocument) :
    Option Memory :=
  highestVersion <| db.memories.filter fun p =>
    decide (p.sourceId = m.sourceId) && decide (p.externalKey = m.externalKey)
      && decide (p.id ≠ m.id)
      && decide (p.normalizedHash = some (normalizedHash doc.text))

/-- `uq_memory_chunks_memory_ordinal`, for chunks that would move. -/
def ordinalsClash (db : Db) (a b : Id) : Bool :=
  db.chunks.any fun c => decide (c.memoryId = a) &&
    db.chunks.any fun k => decide (k.memoryId = b) && decide (k.ordinal = c.ordinal)

/-- Move a version's chunks to another version. -/
def moveChunks (db : Db) (source target : Id) : Db :=
  { db with chunks := db.chunks.map fun c =>
      if c.memoryId = source then { c with memoryId := target } else c }

/-- `_adopt_from_previous_version`: move an earlier version's chunks onto
this one, if the text is identical. `none` when there is nothing to
adopt. -/
def adopt (ports : Ports) (db : Db) (m : Memory) (doc : ParsedDocument) :
    Except Failure (Option Db) :=
  match previousVersion db m doc with
  | none => .ok none
  | some previous =>
    if !only ports.chunker.version (chunkVersions db previous.id) then .ok none
    else if ordinalsClash db m.id previous.id then .error .uniqueViolation
    else
      .ok (some (documented (moveChunks db previous.id m.id) m.id doc))

/-- The row `_store` inserts for a chunk. -/
def chunkRow (version : String) (memoryId id : Id) (c : TextChunk) :
    MemoryChunk where
  id := id
  memoryId := memoryId
  ordinal := c.ordinal
  content := c.text
  tokenCount := c.tokenCount
  charStart := c.charStart
  charEnd := c.charEnd
  prefixChars := c.prefixChars
  chunkerVersion := version
  contentHash := ⟨c.text⟩
  metadata := c.metadata
  embedding := none
  embeddingModel := none
  embeddedAt := none

/-- The rows of a list of chunks, under ids from `next` on. -/
def chunkRows (version : String) (memoryId : Id) :
    Id → List TextChunk → List MemoryChunk
  | _, [] => []
  | next, c :: rest =>
    chunkRow version memoryId next c
      :: chunkRows version memoryId (next + 1) rest

/-- The job that embeds a memory. -/
def embedSpec (memoryId : Id) : JobSpec where
  jobType := .embedMemory
  payload := { memoryId := some memoryId }
  dedupeKey := some (.embed memoryId)
  dedupeKey_nonempty := by nofun

/-- The chunks of every version of an item. -/
def ofItem (db : Db) (item : Id × String) (c : MemoryChunk) : Bool :=
  db.memories.any fun m => decide (m.id = c.memoryId)
    && decide (m.sourceId = item.1) && decide (m.externalKey = item.2)

/-- `_store`: replace the memory's text and the item's chunks. -/
def store (ports : Ports) (followup : Bool) (db : Db) (m : Memory)
    (doc : ParsedDocument) (chunks : List TextChunk) (now : Timestamp) : Db :=
  let db₁ := documented db m.id doc
  -- this memory's chunks, and those of any version of the same item
  let db₂ := db₁.deleteChunks (ofItem db₁ (m.sourceId, m.externalKey))
  let db₃ := { db₂ with
    chunks := db₂.chunks
      ++ chunkRows ports.chunker.version m.id db₂.nextId chunks
    nextId := db₂.nextId + chunks.length }
  if followup then db₃.enqueue (embedSpec m.id) now else db₃

section Frames

variable (ports : Ports) (followup : Bool) (db : Db) (m : Memory)
  (doc : ParsedDocument) (chunks : List TextChunk) (now : Timestamp)

@[simp] theorem store_memories :
    (store ports followup db m doc chunks now).memories
      = (documented db m.id doc).memories := by
  cases followup <;> rfl

@[simp] theorem store_chunks :
    (store ports followup db m doc chunks now).chunks
      = (db.chunks.filter fun c =>
          !ofItem (documented db m.id doc) (m.sourceId, m.externalKey) c)
        ++ chunkRows ports.chunker.version m.id db.nextId chunks := by
  cases followup <;> rfl

end Frames

/-- `__call__`. -/
def call (ports : Ports) (followup : Bool) (blobs : Blobs) (db : Db)
    (memoryId : Id) (now : Timestamp) : Except Failure (Db × Outcome) :=
  match db.memory memoryId with
  | none => .error .notFound
  | some m =>
    -- tombstoned between the enqueue and the claim
    if m.deletedAt.isSome then .ok (db, .deleted)
    else
      match parse ports blobs m with
      | .error e => .error e
      | .ok doc =>
        if isCurrent ports db m doc then .ok (db, .skipped)
        else
          match adopt ports db m doc with
          | .error e => .error e
          | .ok (some db') => .ok (db', .reused)
          | .ok none =>
            .ok (store ports followup db m doc (ports.chunker.chunk doc) now,
              .chunked)

end NormalizeMemory

end MemoryOS

namespace MemoryOS

namespace EmbedMemory

/-- `EmbedOutcome`. -/
inductive Outcome
  | skipped | embedded | deleted
deriving DecidableEq, Repr

/-- A chunk with no vector, or a vector from a different model. A null
model is not different: the comparison is SQL's. -/
def isPending (modelId : String) (c : MemoryChunk) : Bool :=
  c.embedding.isNone ||
    match c.embeddingModel with
    | none => false
    | some model => decide (model ≠ modelId)

/-- `_pending_chunks`. -/
def pendingChunks (embedder : Embedder) (db : Db) (memoryId : Id) :
    List (Id × Text) :=
  (db.chunks.filter fun c =>
    decide (c.memoryId = memoryId) && isPending embedder.modelId c).map
    fun c => (c.id, c.content)

/-- `get_many`, for one key. -/
def cached (db : Db) (modelId : String) (text : Text) : Option Embedding :=
  (db.embeddingCache.find? fun e =>
    decide (e.modelId = modelId) && decide (e.text = text)).map (·.embedding)

/-- `put_many`: a key already there is left alone. -/
def putMany (db : Db) (entries : List EmbeddingCacheEntry) : Db :=
  { db with embeddingCache := db.embeddingCache ++ entries.filter fun e =>
      !db.embeddingCache.any fun k =>
        decide (k.modelId = e.modelId) && decide (k.text = e.text) }

/-- The texts of a batch the cache does not have, each once. -/
def missingTexts (embedder : Embedder) (db : Db)
    (pending : List (Id × Text)) : List Text :=
  ((pending.map (·.2)).filter fun t =>
    (cached db embedder.modelId t).isNone).dedup

/-- `vectors_by_key`: the cached vector, or the one just computed. -/
def vectorOf (embedder : Embedder) (db : Db) (text : Text) : Embedding :=
  (cached db embedder.modelId text).getD (embedder.embedPassage text)

/-- The columns `_write` sets. -/
def withVector (modelId : String) (vector : Embedding) (now : Timestamp)
    (c : MemoryChunk) : MemoryChunk :=
  { c with
    embedding := some vector
    embeddingModel := some modelId
    embeddedAt := some now }

/-- One `UPDATE` of `_write`. -/
def writeOne (embedder : Embedder) (vectors : Text → Embedding)
    (now : Timestamp) (db : Db) (p : Id × Text) : Db :=
  { db with
    chunks := db.chunks.map fun c =>
      if c.id = p.1 then withVector embedder.modelId (vectors p.2) now c
      else c }

/-- `_write`: attach the vectors to their chunks. -/
def write (embedder : Embedder) (vectors : Text → Embedding)
    (pending : List (Id × Text)) (db : Db) (now : Timestamp) : Db :=
  pending.foldl (writeOne embedder vectors now) db

/-- `_embed_chunks`: the cache first, then the chunks. -/
def embedChunks (embedder : Embedder) (db : Db) (pending : List (Id × Text))
    (now : Timestamp) : Db :=
  write embedder (vectorOf embedder db) pending
    (putMany db ((missingTexts embedder db pending).map fun t =>
      ⟨embedder.modelId, t, embedder.embedPassage t⟩)) now

/-- The job that extracts a memory's entities. -/
def extractSpec (memoryId : Id) : JobSpec where
  jobType := .extractEntities
  payload := { memoryId := some memoryId }
  dedupeKey := some (.extract memoryId)
  dedupeKey_nonempty := by nofun

/-- What a run finds: nothing to do, or the chunks to embed. -/
def read (embedder : Embedder) (db : Db) (memoryId : Id) :
    Except Failure (Outcome × List (Id × Text)) :=
  match db.memory memoryId with
  | none => .error .notFound
  | some m =>
    if m.deletedAt.isSome then .ok (.deleted, [])
    else
      let pending := pendingChunks embedder db memoryId
      if pending.isEmpty then .ok (.skipped, [])
      else .ok (.embedded, pending)

/-- What a run does with them. -/
def finish (embedder : Embedder) (followup : Bool) (db : Db) (memoryId : Id)
    (pending : List (Id × Text)) (now : Timestamp) : Db :=
  let db' := embedChunks embedder db pending now
  if followup then db'.enqueue (extractSpec memoryId) now else db'

/-- `__call__`. -/
def call (embedder : Embedder) (followup : Bool) (db : Db) (memoryId : Id)
    (now : Timestamp) : Except Failure (Db × Outcome) :=
  match read embedder db memoryId with
  | .error e => .error e
  | .ok (.embedded, pending) =>
    .ok (finish embedder followup db memoryId pending now, .embedded)
  | .ok (outcome, _) => .ok (db, outcome)

end EmbedMemory

end MemoryOS
