/-
Search (`application/search.py`, `adapters/db/vector_store.py`,
`adapters/db/keyword_store.py`): chunks are what match, memories are what
you get back.

# What is a parameter

The models, the text search and the order in which an approximate index
visits rows are `Engine`'s. The query's temporal intent is an argument:
whatever the parser makes of the words, the search does the same with it.
-/
import MemoryOS.Search.Expand

namespace MemoryOS

open Filters Fusion

/-- What Postgres and the models compute. -/
structure Engine where
  /-- `embed_query`. -/
  embedQuery : Text → Embedding
  /-- The similarity of a query's vector and a chunk's: the negated
  `<#>`. -/
  similarity : Embedding → Embedding → ℚ
  /-- The rows an approximate index offers for a vector, a width of search
  and a limit. -/
  visits : Embedding → Option Nat → Nat → List MemoryChunk → List MemoryChunk
  /-- `ts_rank_cd`, of a chunk whose text matches the query. -/
  textRank : Text → MemoryChunk → Option ℚ
  /-- `recency_score` at the time of the search. -/
  recencyScore : Option Timestamp → ℚ
  /-- The `importance` column of a memory. -/
  importance : Id → Option ℚ
  /-- `Reranker.rerank`. -/
  rerank : Option (Text → List Text → List ℚ)

/-- `SearchMode`. -/
inductive SearchMode
  | vector | keyword | hybrid
deriving DecidableEq, Repr

/-- `SearchMemories`, with its defaults. -/
structure SearchMemories where
  engine : Engine
  weights : FusionWeights := {}
  rerankCandidates : Nat := 25
  expand : Option ExpandThroughGraph := none
  seedMemories : Nat := 10
  temporalRecencyWeight : ℚ := 1 / 2

/-- `MemoryHit`. -/
structure MemoryHit where
  memoryId : Id
  externalKey : String
  sourceName : String
  title : Option Text
  kind : MemoryKind
  occurredAt : Option Timestamp
  occurredAtSource : TimeProvenance
  score : ℚ
  matchedChunks : List ScoredChunk
deriving DecidableEq

/-- The arguments of a search. -/
structure SearchRequest where
  query : Text
  k : Nat := 10
  filters : SearchFilters := {}
  efSearch : Option Nat := none
  exact : Bool := false
  mode : SearchMode := .hybrid
  rrfK : Nat := 60
  rerank : Bool := true

/-- `SearchResult`, but for its timing. -/
structure SearchResult where
  query : Text
  hits : List MemoryHit
  mode : SearchMode
  temporalIntent : Option TemporalIntent
  temporalFilterApplied : Bool
deriving DecidableEq

namespace Search

/-- `CHUNK_FANOUT`. -/
def chunkFanout : Nat := 5

/-- `FUSION_FANOUT`. -/
def fusionFanout : Nat := 3

/-- `OVER_FETCH`. -/
def overFetch : Nat := 2

-- ====== the stores

/-- The join to `memories`, and `memory_predicates` of the row. -/
def eligible (db : Db) (filters : SearchFilters) (memoryId : Id) : Bool :=
  (db.memory memoryId).any (memoryPredicates db filters)

/-- `PgVectorStore._query`: what the plan visits, filtered, in order of
distance, and limited. -/
def vectorQuery (engine : Engine) (db : Db) (filters : SearchFilters)
    (vector : Embedding) (rows : List MemoryChunk) (limit : Nat) :
    List ScoredChunk :=
  ((rows.filterMap fun c => c.embedding.bind fun v =>
    if eligible db filters c.memoryId then
      some (ScoredChunk.ofRow c (engine.similarity vector v))
    else none).insertionSort fun a b => b.score ≤ a.score).take limit

/-- `_vector_chunks`: `search_exact` is a sequential scan, `search` asks
the index for more than the caller wants. -/
def vectorChunks (engine : Engine) (db : Db) (request : SearchRequest)
    (filters : SearchFilters) (k : Nat) (exact : Bool) : List ScoredChunk :=
  let vector := engine.embedQuery request.query
  if exact then vectorQuery engine db filters vector db.chunks k
  else
    let limit := k * overFetch
    (vectorQuery engine db filters vector
      (engine.visits vector request.efSearch limit db.chunks) limit).take k

/-- `PostgresKeywordStore.search`. -/
def keywordChunks (engine : Engine) (db : Db) (request : SearchRequest)
    (filters : SearchFilters) (k : Nat) : List ScoredChunk :=
  if isBlank request.query || k = 0 then []
  else
    ((db.chunks.filterMap fun c => (engine.textRank request.query c).bind
      fun rank =>
        if eligible db filters c.memoryId then
          some (ScoredChunk.ofRow c rank)
        else none).insertionSort fun a b =>
          b.score < a.score
            ∨ (a.score = b.score ∧ a.chunkId ≤ b.chunkId)).take k

-- ========== hybrid

/-- `signals_for`: the candidates' signals, one entry for a chunk. -/
def signalsFor (engine : Engine) (db : Db) (chunks : List ScoredChunk) :
    SignalTable :=
  let rows := (chunks.filterMap fun c =>
    (db.memory c.memoryId).map fun m => (c.chunkId, m)).dedup
  { recency := rows.map fun r => (r.1, engine.recencyScore r.2.occurredAt)
    importance := rows.filterMap fun r =>
      (engine.importance r.2.id).map fun w => (r.1, w) }

/-- `_seed_memories`: the retrieved memories, best rank first, ties by
id. -/
def seedMemories (vector keyword : List ScoredChunk) : List Id :=
  let rank (id : Id) (chunks : List ScoredChunk) : Nat :=
    ((rankIn (chunks.map (·.memoryId)) id).getD
      (vector.length + keyword.length + 1))
  let best (id : Id) : Nat := min (rank id vector) (rank id keyword)
  ((vector ++ keyword).map (·.memoryId)).dedup.insertionSort fun a b =>
    best a < best b ∨ (best a = best b ∧ a ≤ b)

/-- `expand`, which is skipped at weight zero, and `_expansion_for`. -/
def expansionFor (search : SearchMemories) (db : Db)
    (vector keyword : List ScoredChunk) : Option GraphCandidates :=
  if search.weights.graphIsOff then none
  else
    match search.expand with
    | none => none
    | some expand =>
      let seeds := seedMemories vector keyword
      if seeds.isEmpty then none
      else some (GraphExpand.call expand db (seeds.take search.seedMemories)
        seeds)

/-- The two legs of a hybrid search. -/
def legs (search : SearchMemories) (db : Db) (request : SearchRequest)
    (filters : SearchFilters) : List ScoredChunk × List ScoredChunk :=
  let wanted := max (request.k * fusionFanout)
    (max (request.k * chunkFanout) request.k)
  (vectorChunks search.engine db request filters wanted false,
    keywordChunks search.engine db request filters wanted)

/-- `_hybrid`. -/
def hybrid (search : SearchMemories) (db : Db) (request : SearchRequest)
    (filters : SearchFilters) (weights : FusionWeights) :
    List ScoredChunk :=
  let found := legs search db request filters
  fuse found.1 found.2
    (signalsFor search.engine db (found.1 ++ found.2)) weights request.rrfK
    (expansionFor search db found.1 found.2)

/-- `_attribute_single`: the breakdown of a search with one retriever. -/
def attributeSingle (chunks : List ScoredChunk) (mode : SearchMode) :
    List ScoredChunk :=
  let keyword := decide (mode = .keyword)
  chunks.mapIdx fun i c => { c with
    breakdown := some {
      fused := c.score
      vectorRank := if keyword then none else some (i + 1)
      keywordRank := if keyword then some (i + 1) else none
      vectorScore := if keyword then none else some c.score
      keywordScore := if keyword then some c.score else none } }

/-- The chunks a search retrieves in its mode. -/
def retrieve (search : SearchMemories) (db : Db) (request : SearchRequest)
    (filters : SearchFilters) (weights : FusionWeights) :
    List ScoredChunk :=
  let k := max (request.k * chunkFanout) request.k
  match request.mode with
  | .hybrid => hybrid search db request filters weights
  | .keyword =>
    attributeSingle (keywordChunks search.engine db request filters k)
      request.mode
  | .vector =>
    attributeSingle
      (vectorChunks search.engine db request filters k request.exact)
      request.mode

-- ====== after retrieval

/-- `_rerank`: the shortlist by the model's score, ties by id, and the tail
strictly below it. Scores that are too few or too many raise. -/
def rerank (model : Text → List Text → List ℚ) (query : Text)
    (rerankCandidates : Nat) (chunks : List ScoredChunk) :
    Except Failure (List ScoredChunk) :=
  let shortlist := chunks.take rerankCandidates
  let tail := chunks.drop rerankCandidates
  let scores := model query (shortlist.map (·.text))
  if scores.length ≠ shortlist.length then .error .refused
  else
    let scored := (shortlist.zip scores).insertionSort fun a b =>
      b.2 < a.2 ∨ (a.2 = b.2 ∧ a.1.chunkId ≤ b.1.chunkId)
    let floor := scores.min?.getD 0
    .ok ((scored.mapIdx fun i p => { p.1 with
        score := p.2
        breakdown := some { p.1.breakdown.getD { fused := p.1.score } with
          rerankScore := some p.2
          rerankRank := some (i + 1) } })
      ++ tail.mapIdx fun i c =>
        { c with score := floor - 1 / 1000000 * (i + 1) })

/-- The chunks after reranking, when it is asked for and possible. -/
def reranked (search : SearchMemories) (request : SearchRequest)
    (chunks : List ScoredChunk) : Except Failure (List ScoredChunk) :=
  match search.engine.rerank with
  | none => .ok chunks
  | some model =>
    if request.rerank && !chunks.isEmpty then
      rerank model request.query search.rerankCandidates chunks
    else .ok chunks

/-- `_stamp_intent`. -/
def stampIntent (intent : Option TemporalIntent) (filterApplied : Bool)
    (chunks : List ScoredChunk) : List ScoredChunk :=
  match intent with
  | none => chunks
  | some i => chunks.map fun c => { c with
      breakdown := some { c.breakdown.getD { fused := c.score } with
        temporalIntent := some i
        temporalFilterApplied := filterApplied } }

/-- `max(chunk.score for chunk in matched)`. -/
def maxScore : List ScoredChunk → ℚ
  | [] => 0
  | c :: rest => rest.foldl (fun best c => max best c.score) c.score

/-- `_ranking`: best chunk first, then the mean. -/
def ranking (hit : MemoryHit) : ℚ × ℚ :=
  (hit.score,
    (hit.matchedChunks.map (·.score)).sum / hit.matchedChunks.length)

/-- The hit of one memory, when `_memory_metadata` finds its row and its
source. -/
def hitOf (db : Db) (chunks : List ScoredChunk) (memoryId : Id) :
    Option MemoryHit :=
  (db.memory memoryId).bind fun m =>
    (db.sources.find? fun s => decide (s.id = m.sourceId)).map fun s =>
      let matched := chunks.filter fun c => decide (c.memoryId = memoryId)
      { memoryId := memoryId
        externalKey := m.externalKey
        sourceName := s.name
        title := m.title
        kind := m.kind
        occurredAt := m.occurredAt
        occurredAtSource := m.occurredAtSource
        score := maxScore matched
        matchedChunks := matched.insertionSort fun a b =>
          a.ordinal ≤ b.ordinal }

/-- The hits of `_to_hits`, before it takes `k`. -/
def ranked (db : Db) (chunks : List ScoredChunk) : List MemoryHit :=
  ((chunks.map (·.memoryId)).eraseDups.filterMap (hitOf db chunks)).insertionSort
    fun a b => (ranking b).1 < (ranking a).1
      ∨ ((ranking a).1 = (ranking b).1 ∧ (ranking b).2 ≤ (ranking a).2)

/-- Whether one hit's date may stand before another's. The undated come
last, in both directions. -/
def dateBefore (ordering : DateOrder) (a b : MemoryHit) : Bool :=
  match a.occurredAt, b.occurredAt with
  | some s, some t =>
    match ordering with
    | .earliest => decide (s ≤ t)
    | .latest => decide (t ≤ s)
  | none, some _ => false
  | _, none => true

/-- `_reorder`: the returned hits by date. -/
def reorder (ordering : DateOrder) (hits : List MemoryHit) :
    List MemoryHit :=
  hits.insertionSort fun a b => dateBefore ordering a b = true

/-- The weights a query runs under: a relative intent sets recency's. -/
def weightsFor (search : SearchMemories) (intent : Option TemporalIntent) :
    FusionWeights :=
  match intent with
  | none => search.weights
  | some i =>
    if i.kind = .relative then
      { search.weights with recency := search.temporalRecencyWeight }
    else search.weights

/-- The chunks a search groups into hits. -/
def candidates (search : SearchMemories) (db : Db) (request : SearchRequest)
    (intent : Option TemporalIntent) : Except Failure (List ScoredChunk) :=
  let filters := effective request.filters intent
  (reranked search request
    (retrieve search db request filters.1 (weightsFor search intent))).map
      (stampIntent intent filters.2)

/-- `SearchMemories.__call__`. -/
def call (search : SearchMemories) (db : Db) (request : SearchRequest)
    (intent : Option TemporalIntent) : Except Failure SearchResult :=
  (candidates search db request intent).map fun chunks =>
    let hits := (ranked db chunks).take request.k
    { query := request.query
      hits :=
        match intent.bind (·.ordering) with
        | none => hits
        | some ordering => reorder ordering hits
      mode := request.mode
      temporalIntent := intent
      temporalFilterApplied := (effective request.filters intent).2 }

end Search

end MemoryOS
