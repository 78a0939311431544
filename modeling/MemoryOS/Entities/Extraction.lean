/-
Entity extraction (`application/extraction.py`): what a run stores, and a run
(`ExtractEntities.__call__`) among the runs that cut and move the chunks its
mentions hang off.

`ExtractEntities` reads a memory's chunks, asks a model about each and stores the
answer in one later transaction. The model's answer is an argument of that
transaction, and so are the chunks, which were read before it.

Every run comes to its end before the next begins, and one that raises leaves
what it found. The extractor is a function of its version and a chunk's text.
-/
import Mathlib.Data.List.Sort
import MemoryOS.Corpus.Live
import MemoryOS.Lib.DistinctOn

namespace MemoryOS

/-- `ExtractedEntity`: a name the extractor reports in a chunk. -/
structure ExtractedEntity where
  name : Text
  type : EntityType
  confidence : ℚ
  charStart : Int
  charEnd : Int
deriving DecidableEq

namespace ExtractEntities

/-- `_follow_merge`: the entity a merged-away one now belongs to. -/
def followMerge (db : Db) : Nat → Id → Id
  | 0, current => current
  | depth + 1, current =>
    match db.entity current with
    | none => current
    | some row =>
      match row.mergedIntoId with
      | none => current
      | some next => followMerge db depth next

/-- The default of `_follow_merge`'s `depth`. -/
def followDepth : Nat := 8

/-- `_offsets_hold`: whether the span really says what the entity claims
it says. -/
def offsetsHold (chunkText : Text) (c : ExtractedEntity) : Bool :=
  if c.charStart < 0 ∨ (chunkText.length : Int) < c.charEnd then false
  else decide (slice chunkText c.charStart.toNat c.charEnd = c.name)

/-- A confidence column's check. -/
def confidenceOk (confidence : ℚ) : Bool :=
  decide (0 ≤ confidence) && decide (confidence ≤ 1)

/-- `length(btrim(name)) > 0`: not only spaces. -/
def nameOk (name : Text) : Bool := name.any fun c => c != ' '

/-- `_upsert_entity`: the entity for this name and type, creating the row
if new. -/
def upsertEntity (casefold : Text → Text) (db : Db) (c : ExtractedEntity)
    (now : Timestamp) : Except Failure (Db × Id × Bool) :=
  let canonical := canonicalEntityName casefold c.name
  match db.entities.find? fun e =>
      decide (e.canonicalName = canonical) && decide (e.type = c.type) with
  | none =>
    if !nameOk c.name || !nameOk canonical || !confidenceOk c.confidence then
      .error .checkViolation
    else
      .ok ({ db with
          entities := db.entities ++ [{
            id := db.nextId
            name := c.name
            canonicalName := canonical
            type := c.type
            confidence := some c.confidence
            firstSeenAt := now
            mergedIntoId := none }]
          nextId := db.nextId + 1 },
        db.nextId, true)
  | some e =>
    match e.mergedIntoId with
    | none => .ok (db, e.id, false)
    -- this name was merged away: its mentions belong to the winner
    | some winner => .ok (db, followMerge db followDepth winner, false)

/-- Insert one mention, or do nothing when its span is taken. -/
def insertMention (db : Db) (entityId memoryId chunkId : Id)
    (c : ExtractedEntity) (version : String) (now : Timestamp) :
    Except Failure Db :=
  if c.charEnd ≤ c.charStart ∨ !confidenceOk c.confidence then
    .error .checkViolation
  else if db.mentions.any fun m => decide (m.entityId = entityId)
      && decide (m.chunkId = chunkId)
      && decide (m.charStart = c.charStart.toNat) then
    .ok db
  else if !(db.entities.any fun e => decide (e.id = entityId))
      || !(db.memories.any fun m => decide (m.id = memoryId))
      || !(db.chunks.any fun k => decide (k.id = chunkId)) then
    .error .foreignKeyViolation
  else
    .ok { db with
      mentions := db.mentions ++ [{
        id := db.nextId
        entityId := entityId
        memoryId := memoryId
        chunkId := chunkId
        charStart := c.charStart.toNat
        charEnd := c.charEnd.toNat
        confidence := some c.confidence
        extractorVersion := version
        extractedAt := now }]
      nextId := db.nextId + 1 }

/-- The counts of an `ExtractReport`. -/
structure ExtractReport where
  chunks : Nat := 0
  entities : Nat := 0
  mentions : Nat := 0
  unverified : Nat := 0
deriving DecidableEq, Repr

/-- The loop of `_store` over every candidate of every chunk. -/
def storeLoop (casefold : Text → Text) (memoryId : Id) (version : String)
    (now : Timestamp) :
    Db → ExtractReport → List ((Id × Text) × ExtractedEntity) →
      Except Failure (Db × ExtractReport)
  | db, report, [] => .ok (db, report)
  | db, report, ((chunkId, text), c) :: rest =>
    if !offsetsHold text c then
      storeLoop casefold memoryId version now db
        { report with unverified := report.unverified + 1 } rest
    else
      match upsertEntity casefold db c now with
      | .error e => .error e
      | .ok (db₁, entityId, created) =>
        match insertMention db₁ entityId memoryId chunkId c version now with
        | .error e => .error e
        | .ok db₂ =>
          storeLoop casefold memoryId version now db₂
            { report with
              entities := report.entities + (if created then 1 else 0)
              mentions := report.mentions + 1 } rest

/-- `_store`: replace this memory's mentions and mark it extracted. -/
def store (casefold : Text → Text) (db : Db) (memoryId : Id)
    (chunks : List (Id × Text)) (found : List (List ExtractedEntity))
    (version : String) (now : Timestamp) :
    Except Failure (Db × ExtractReport) :=
  -- `zip(chunks, found, strict=True)`
  if chunks.length ≠ found.length then .error .refused
  else
    storeLoop casefold memoryId version now
      { db with
        mentions := db.mentions.filter fun m => decide (m.memoryId ≠ memoryId)
        memories := db.memories.map fun m =>
          if m.id = memoryId then
            { m with entityExtractorVersion := some version }
          else m }
      { chunks := chunks.length }
      ((chunks.zip found).flatMap fun (chunk, cs) => cs.map fun c => (chunk, c))

end ExtractEntities

end MemoryOS

namespace MemoryOS

open Lib

namespace ExtractEntities

/-- `ExtractOutcome`. -/
inductive ExtractOutcome
  | extracted | skipped | empty | deleted
deriving DecidableEq, Repr

/-- What an extractor of a version reports in a text. -/
abbrev Extractor := String → Text → List ExtractedEntity

/-- `_chunks`: a memory's chunks, in order. -/
def chunksOf (db : Db) (memoryId : Id) : List (Id × Text) :=
  ((db.chunks.filter fun c => decide (c.memoryId = memoryId)).insertionSort
    fun a b => a.ordinal ≤ b.ordinal).map fun c => (c.id, c.content)

/-- `__call__`, with the queue it was given, if any. -/
def call (casefold : Text → Text) (extract : Text → List ExtractedEntity)
    (version : String) (queued : Bool) (db : Db) (memoryId : Id)
    (now : Timestamp) : Except Failure (Db × ExtractOutcome) :=
  match db.memory memoryId with
  | none => .error .notFound
  | some memory =>
    if memory.deletedAt.isSome then .ok (db, .deleted)
    -- the marker, not the mentions, says that the memory is done
    else if memory.entityExtractorVersion = some version then
      .ok (db, .skipped)
    else
      let chunks := chunksOf db memoryId
      if chunks.isEmpty then .ok (db, .empty)
      else
        match store casefold db memoryId chunks
            (chunks.map fun c => extract c.2) version now with
        | .error e => .error e
        | .ok r =>
          .ok (if queued then
              r.1.enqueue (graphSyncSpec [memoryId] []) now
            else r.1, .extracted)

end ExtractEntities

namespace Marks

open ExtractEntities

/-- A run of a use case: the corpus's, under the parser and the chunker of
the day, or an extraction. -/
inductive Op
  | corpus (ports : Ports) (op : Live.Op)
  | extract (version : String) (queued : Bool) (memoryId : Id)
      (now : Timestamp)

variable (casefold : Text → Text) (extractor : Extractor)

/-- What a run leaves. -/
def step (s : Store) : Op → Store
  | .corpus ports op => Live.step ports s op
  | .extract version queued memoryId now =>
    match call casefold (extractor version) version queued s.db memoryId
        now with
    | .error _ => s
    | .ok r => { s with db := r.1 }

/-- The runs as a machine. -/
def machine : Machine Store Op Unit where
  step s op := some (step casefold extractor s op, [])

-- ====== statement vocabulary

/-- What a mention says, whatever its own id. -/
structure Found where
  chunkId : Id
  canonicalName : Text
  type : EntityType
  charStart : Nat
  charEnd : Nat
  confidence : Option ℚ
  extractorVersion : String
deriving DecidableEq

/-- The columns of `uq_entity_mentions_span`. -/
def Found.span (f : Found) : Id × Text × EntityType × Nat :=
  (f.chunkId, f.canonicalName, f.type, f.charStart)

/-- What a candidate in a chunk says. -/
def found (version : String) (chunkId : Id) (c : ExtractedEntity) : Found where
  chunkId := chunkId
  canonicalName := canonicalEntityName casefold c.name
  type := c.type
  charStart := c.charStart.toNat
  charEnd := c.charEnd.toNat
  confidence := some c.confidence
  extractorVersion := version

/-- What a mention row says. -/
def described (db : Db) (x : EntityMention) : Option Found :=
  (db.entity x.entityId).map fun e => {
    chunkId := x.chunkId
    canonicalName := e.canonicalName
    type := e.type
    charStart := x.charStart
    charEnd := x.charEnd
    confidence := x.confidence
    extractorVersion := x.extractorVersion }

/-- The candidates of a text whose offsets hold. -/
def holding (version : String) (text : Text) : List ExtractedEntity :=
  (extractor version text).filter fun c => offsetsHold text c

/-- The mentions an extraction makes of a chunk: one for each entity at
each offset. -/
def produced (version : String) (chunkId : Id) (text : Text) : List Found :=
  DistinctOn.distinctOn Found.span
    ((holding extractor version text).map (found casefold version chunkId))

/-- The markers tell the truth. -/
structure Truthful (db : Db) : Prop where
  /-- A marked memory's mentions are what its extraction makes of its
  chunks. -/
  marked : ∀ m ∈ db.memories, ∀ v ∈ m.entityExtractorVersion, ∀ f,
    (∃ x ∈ db.mentions, x.memoryId = m.id ∧ described db x = some f)
      ↔ ∃ c ∈ db.chunks, c.memoryId = m.id
        ∧ f ∈ produced casefold extractor v c.id c.content
  /-- A mention belongs to the memory its chunk belongs to. -/
  owner : ∀ x ∈ db.mentions, ∀ c ∈ db.chunks, c.id = x.chunkId →
    x.memoryId = c.memoryId

/-- Extraction at a memory's mark, if it has one, finds nothing in a
text. -/
def findsNothing (m : Memory) (text : Text) : Bool :=
  match m.entityExtractorVersion with
  | none => true
  | some v => (holding extractor v text).isEmpty

/-- Whether a mention points at a chunk. -/
def mentioned (db : Db) (c : MemoryChunk) : Bool :=
  db.mentions.any fun x => decide (x.chunkId = c.id)

/-- The chunks an adoption may move: no mention points at them, and they
say nothing new about the memory that adopts them. -/
def adoptable (db : Db) (m previous : Memory) : Bool :=
  db.chunks.all fun c => !decide (c.memoryId = previous.id)
    || !mentioned db c && findsNothing extractor m c.content

/-- A normalization of a memory whose chunks it is about to replace leaves
the mark true. -/
def keepsMark (ports : Ports) (db : Db) (m : Memory)
    (doc : ParsedDocument) : Bool :=
  match NormalizeMemory.adopt ports db m doc with
  | .error _ => true
  | .ok none => (ports.chunker.chunk doc).all fun c =>
    findsNothing extractor m c.text
  | .ok (some _) =>
    (NormalizeMemory.previousVersion db m doc).all (adoptable extractor db m)

/-- No run replaces the chunks of a memory that is marked, nor moves
chunks that are mentioned, but where extraction finds nothing. -/
def Keeps (s : Store) : Op → Prop
  | .corpus ports (.normalize memoryId _) =>
    ∀ m ∈ s.db.memory memoryId, m.deletedAt = none →
      ∀ doc, NormalizeMemory.parse ports s.blobs m = .ok doc →
        NormalizeMemory.isCurrent ports s.db m doc = false →
          keepsMark extractor ports s.db m doc = true
  | _ => True

end Marks

end MemoryOS
