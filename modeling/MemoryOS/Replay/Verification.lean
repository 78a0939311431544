/-
Whether a rebuilt corpus is the same corpus (`application/verification.py`).

An instant's text is the instant, and metadata its canonical text. What is
only reported (counts, the entity half of the graph, the rendered lines) is
left out.
-/
import MemoryOS.Graph.Projection

namespace MemoryOS.Verification

open Lib

/-- `MemoryRow`. -/
structure MemoryRow where
  sourceName : String
  externalKey : String
  version : Nat
  isCurrent : Bool
  normalizedHash : Option TextHash
  contentHash : ContentHash
  kind : MemoryKind
  occurredAt : Option Timestamp
  ingestedAt : Timestamp
  deletedAt : Option Timestamp
deriving DecidableEq, Repr

/-- `ChunkRow`. -/
structure ChunkRow where
  sourceName : String
  externalKey : String
  memoryVersion : Nat
  ordinal : Nat
  contentHash : TextHash
  chunkerVersion : String
  embeddingModel : Option String
  tokenCount : Nat
  charStart : Nat
  charEnd : Nat
  prefixChars : Nat
  embeddingDigest : Option String
  metadata : Meta
deriving DecidableEq, Repr

/-- `GraphMemoryRow`. -/
structure GraphMemoryRow where
  sourceName : Text
  externalKey : Text
  kind : MemoryKind
  occurredAt : Option Timestamp
deriving DecidableEq, Repr

/-- `MemoryRow.key`. -/
def MemoryRow.key (r : MemoryRow) : String × String × Nat :=
  (r.sourceName, r.externalKey, r.version)

/-- `ChunkRow.key`. -/
def ChunkRow.key (r : ChunkRow) : String × String × Nat × Nat :=
  (r.sourceName, r.externalKey, r.memoryVersion, r.ordinal)

/-- `GraphMemoryRow.key`. -/
def GraphMemoryRow.key (r : GraphMemoryRow) : Text × Text :=
  (r.sourceName, r.externalKey)

/-- `Snapshot`. -/
structure Snapshot where
  memories : List MemoryRow := []
  chunks : List ChunkRow := []
  graphMemories : List GraphMemoryRow := []

/-- How ids, vectors and metadata are written. -/
structure Writing where
  /-- `str` of a `UUID`. -/
  uuid : Id → Text
  /-- `digest_of` a vector. -/
  digestOf : Embedding → String
  uuid_injective : Function.Injective uuid

variable (w : Writing) (db : Db)

-- ====== the snapshot

/-- The join with `sources`. -/
def sourceName (m : Memory) : Option String :=
  (db.sources.find? fun s => decide (s.id = m.sourceId)).map (·.name)

/-- One memory's row. -/
def memoryRow (m : Memory) (name : String) : MemoryRow where
  sourceName := name
  externalKey := m.externalKey
  version := m.version
  isCurrent := m.isCurrent
  normalizedHash := m.normalizedHash
  contentHash := m.contentHash
  kind := m.kind
  occurredAt := m.occurredAt
  ingestedAt := m.ingestedAt
  deletedAt := m.deletedAt

/-- One chunk's row. -/
def chunkRow (c : MemoryChunk) (m : Memory) (name : String) : ChunkRow where
  sourceName := name
  externalKey := m.externalKey
  memoryVersion := m.version
  ordinal := c.ordinal
  contentHash := c.contentHash
  chunkerVersion := c.chunkerVersion
  embeddingModel := c.embeddingModel
  tokenCount := c.tokenCount
  charStart := c.charStart
  charEnd := c.charEnd
  prefixChars := c.prefixChars
  embeddingDigest := c.embedding.map w.digestOf
  metadata := c.metadata

/-- `_memory_rows`. Sorting them by their keys would not move two rows with
one key past each other, and nothing else depends on the order. -/
def memoryRows : List MemoryRow :=
  db.memories.filterMap fun m => (sourceName db m).map (memoryRow m)

/-- `_chunk_rows`. -/
def chunkRows : List ChunkRow :=
  db.chunks.filterMap fun c =>
    (db.memory c.memoryId).bind fun m =>
      (sourceName db m).map (chunkRow w c m)

/-- `_memory_nodes_with_sources`: two dicts, from a memory to its source and
from a source to its name, by their texts. -/
def memoryNodesWithSources (p : GraphProjection) : List (MemoryNode × Text) :=
  let nameOf (key : Text) : Text :=
    ((p.sources.reverse.find? fun s => decide (w.uuid s.sourceId = key)).map
      (·.name)).getD []
  let sourceOf (key : Text) : Text :=
    ((p.edges.reverse.find? fun e =>
      decide (e.type = .fromSource ∧ e.start.key = key)).map fun e =>
        nameOf e.stop.key).getD []
  p.memories.map fun m => (m, sourceOf (w.uuid m.memoryId))

/-- `snapshot`, of everything. -/
def snapshot : Snapshot where
  memories := memoryRows db
  chunks := chunkRows w db
  graphMemories :=
    (memoryNodesWithSources w (GraphProjection.read w.uuid db)).map fun p =>
      ⟨p.2, p.1.externalKey, p.1.kind, p.1.occurredAt⟩

-- ====== the comparison

/-- `ComparisonResult`, as far as it is compared. -/
structure ComparisonResult where
  memories : Diff (String × String × Nat) MemoryRow
  chunks : Diff (String × String × Nat × Nat) ChunkRow
  graphMemories : Diff (Text × Text) GraphMemoryRow

/-- `_diff`. -/
def diffRows {κ ρ : Type} [DecidableEq κ] [DecidableEq ρ] (key : ρ → κ)
    (before after : List ρ) : Diff κ ρ :=
  diff key (fun a b => decide (a = b)) before after

/-- `compare`. -/
def compare (before after : Snapshot) : ComparisonResult where
  memories := diffRows MemoryRow.key before.memories after.memories
  chunks := diffRows ChunkRow.key before.chunks after.chunks
  graphMemories :=
    diffRows GraphMemoryRow.key before.graphMemories after.graphMemories

/-- `identical`. -/
def ComparisonResult.identical (r : ComparisonResult) : Bool :=
  r.memories.clean && r.chunks.clean && r.graphMemories.clean

end MemoryOS.Verification
