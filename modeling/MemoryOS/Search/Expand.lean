/-
Graph expansion (`application/graph_expand.py`): candidates that are
connected rather than similar.

The graph store is a service; what it answers is a parameter, so a graph
may be up to date, stale or unreachable.
-/
import MemoryOS.Search.Fusion

namespace MemoryOS

/-- `GraphReach`: one memory the graph reached, and the route to it. -/
structure GraphReach where
  memoryId : Id
  chunkOrdinal : Nat
  entityId : Id
  hops : Nat
  route : List Text
deriving DecidableEq, Repr

/-- The `GraphStore` methods an expansion calls. `none` is an exception. -/
structure GraphStore where
  /-- `mention_edges(memory_ids=...)`: memories and entities they mention. -/
  mentionEdges : List Id → Option (List (Id × Id))
  /-- `reach(seeds, depth, exclude, limit)`. -/
  reach : List Id → Nat → List Id → Nat → Option (List GraphReach)

/-- `ExpandThroughGraph`, with its defaults. -/
structure ExpandThroughGraph where
  graph : GraphStore
  depth : Nat := 2
  hubRatio : ℚ := 1 / 10
  seedMemories : Nat := 10
  reachLimit : Nat := 400
  /-- `math.log`. -/
  log : ℚ → ℚ

namespace GraphExpand

open Fusion

/-- `EntityStats`: how many memories mention each entity. -/
structure EntityStats where
  documents : Nat
  frequency : List (Id × Nat)
  hubRatio : ℚ

namespace EntityStats

/-- `hub_threshold`. -/
def hubThreshold (stats : EntityStats) : Nat :=
  max 2 (stats.documents * stats.hubRatio).ceil.toNat

/-- `sorted(hubs)`. -/
def hubs (stats : EntityStats) : List Id :=
  ((stats.frequency.filter fun f =>
    decide (stats.hubThreshold ≤ f.2)).map (·.1)).insertionSort
    fun a b => a ≤ b

/-- `idf`: an unseen entity is treated as maximally rare. -/
def idf (stats : EntityStats) (log : ℚ → ℚ) (entityId : Id) : ℚ :=
  log (1 + stats.documents
    / max 1 ((stats.frequency.lookup entityId).getD 1 : ℚ))

end EntityStats

/-- `entity_stats`: mentions of current, undeleted memories. -/
def entityStats (db : Db) (hubRatio : ℚ) : EntityStats :=
  let live := db.mentions.filter fun m =>
    (db.memory m.memoryId).any fun x => x.isCurrent && x.deletedAt.isNone
  let rooted := live.filter fun m =>
    (db.entity m.entityId).any fun e => e.mergedIntoId.isNone
  { documents := (live.map (·.memoryId)).dedup.length
    frequency := (rooted.map (·.entityId)).dedup.map fun e =>
      (e, ((rooted.filter fun m => decide (m.entityId = e)).map
        (·.memoryId)).dedup.length)
    hubRatio := hubRatio }

-- ========= scoring

/-- `(memory_id, chunk_ordinal)`. -/
abbrev ChunkKey := Id × Nat

/-- The chunk a reach is about. -/
def reachKey (r : GraphReach) : ChunkKey :=
  (r.memoryId, r.chunkOrdinal)

/-- The first reach of each entity and chunk: the others are not
counted. -/
def distinctReaches : List GraphReach → List GraphReach → List GraphReach
  | seen, [] => seen
  | seen, r :: rest =>
    if seen.any fun s => decide (reachKey s = reachKey r ∧ s.entityId = r.entityId)
    then distinctReaches seen rest
    else distinctReaches (seen ++ [r]) rest

/-- The shortest route, ties to the rarest endpoint, then to the first. -/
def bestRoute (idf : Id → ℚ) : List GraphReach → List Text
  | [] => []
  | r :: rest =>
    (rest.foldl (fun best r =>
      if r.hops < best.hops
        ∨ (r.hops = best.hops ∧ idf best.entityId < idf r.entityId)
      then r else best) r).route

/-- `_score`: rank the reached chunks, and keep the route that scored
highest for each. -/
def score (reached : List GraphReach) (idf : Id → ℚ) :
    List (ChunkKey × ℚ × List Text) :=
  let distinct := distinctReaches [] reached
  ((distinct.map reachKey).dedup.map fun key =>
    let rs := distinct.filter fun r => decide (reachKey r = key)
    (key, (rs.map fun r => idf r.entityId / max 1 (r.hops : ℚ)).sum,
      bestRoute idf rs)).insertionSort fun a b =>
        b.2.1 < a.2.1
          ∨ (a.2.1 = b.2.1 ∧ (a.1.1 < b.1.1
            ∨ (a.1.1 = b.1.1 ∧ a.1.2 ≤ b.1.2)))

/-- The row of `memory_chunks` with this memory and ordinal. -/
def chunkAt (db : Db) (key : ChunkKey) : Option MemoryChunk :=
  db.chunks.find? fun c => decide ((c.memoryId, c.ordinal) = key)

/-- `_as_chunks`: a pair that resolves to no row is dropped. -/
def asChunks (db : Db) (scored : List (ChunkKey × ℚ × List Text)) :
    GraphCandidates where
  chunks := scored.filterMap fun s =>
    (chunkAt db s.1).map fun c => ScoredChunk.ofRow c s.2.1
  routes := scored.filterMap fun s =>
    (chunkAt db s.1).map fun c => (c.id, s.2.2)

-- ======= expansion

/-- What an expansion is asked to leave out: `set(seeds) | set(exclude)`. -/
def known (seeds exclude : List Id) : List Id := seeds ++ exclude

/-- The graph's answer for these seeds: `mention_edges`, then `reach` from
the entities that are no hubs. No entity is an empty answer. -/
def reachedFrom (expand : ExpandThroughGraph) (db : Db) (seeds : List Id) :
    Option (List GraphReach) :=
  let hubs := (entityStats db expand.hubRatio).hubs
  match expand.graph.mentionEdges seeds with
  | none => none
  | some mentioned =>
    let seedEntities := ((mentioned.map (·.2)).dedup.filter fun e =>
      decide (e ∉ hubs)).insertionSort fun a b => a ≤ b
    if seedEntities.isEmpty then some []
    else expand.graph.reach seedEntities expand.depth hubs expand.reachLimit

/-- `_expand`. -/
def expandFrom (expand : ExpandThroughGraph) (db : Db)
    (seeds exclude : List Id) : Option GraphCandidates :=
  let stats := entityStats db expand.hubRatio
  (reachedFrom expand db seeds).map fun reached =>
    let useful := reached.filter fun r =>
      decide (r.memoryId ∉ known seeds exclude)
    asChunks db (score useful (stats.idf expand.log))

/-- `__call__`: it never raises; an empty result is an answer. -/
def call (expand : ExpandThroughGraph) (db : Db)
    (seedMemoryIds exclude : List Id) : GraphCandidates :=
  let seeds := seedMemoryIds.take expand.seedMemories
  if seeds.isEmpty then {}
  else (expandFrom expand db seeds exclude).getD {}

end GraphExpand

end MemoryOS
