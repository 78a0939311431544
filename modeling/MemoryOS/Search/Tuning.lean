/-
Grid search over fusion weights (`application/tuning.py`), and the evaluation of
the real search that it stands for (`application/evaluate.py`).

The clock is fixed: what the parser of temporal intents makes of a query's words
is a parameter, as the search's is. Both run in hybrid mode without reranking.
-/
import MemoryOS.Search.Golden
import MemoryOS.Search.Memories

namespace MemoryOS.Tuning

open Filters Fusion Golden Metrics

-- ====== the real path

/-- `MemoryKind(...)`, of a kind's name. -/
def memoryKind (name : String) : Option MemoryKind :=
  [("note", MemoryKind.note), ("document", .document), ("code", .code),
    ("email", .email), ("commit", .commit), ("meeting", .meeting),
    ("bookmark", .bookmark), ("other", .other)].lookup name

/-- `_resolve_filters`: a name that is shared is the last such source's. -/
def resolveFilters (db : Db) (filters : RecordedFilters) : SearchFilters :=
  let rows := db.sources.filter fun s => filters.sources.contains s.name
  { sourceIds := (rows.map (·.name)).eraseDups.filterMap fun name =>
      (rows.reverse.find? fun s => decide (s.name = name)).map (·.id)
    kinds := (filters.kind.bind memoryKind).toList }

/-- How a query is searched. -/
def requestOf (db : Db) (query : GoldenQuery) (k : Nat) : SearchRequest where
  query := query.queryText.toList
  k := k
  filters := resolveFilters db query.filters
  mode := .hybrid
  rerank := false

/-- What is scored of a hit. -/
def scoredHit (hit : MemoryHit) : Hit where
  sourceName := hit.sourceName
  externalKey := hit.externalKey
  ordinals := hit.matchedChunks.map fun chunk => (chunk.ordinal : Int)

/-- The hits of the real search, which does not fail without a reranker
(`searched_eq`). -/
def searched (search : SearchMemories) (db : Db)
    (parse : Text → Option TemporalIntent) (query : GoldenQuery) (k : Nat) :
    List Hit :=
  match Search.call search db (requestOf db query k)
    (parse query.queryText.toList) with
  | .ok result => result.hits.map scoredHit
  | .error _ => []

variable {K : Type} [Field K]

/-- `_mean`. -/
def mean (values : List K) : K :=
  if values.isEmpty then 0 else values.sum / values.length

-- ====== candidates

/-- `MemoryMetadata`: the key, the title, the kind, the date and its provenance,
and the source's name. -/
abbrev MemoryMetadata :=
  String × Option Text × MemoryKind × Option Timestamp × TimeProvenance
    × String

/-- `memory_metadata`, of one memory. -/
def metadataOf (db : Db) (memoryId : Id) : Option MemoryMetadata :=
  (db.memory memoryId).bind fun m =>
    (db.sources.find? fun s => decide (s.id = m.sourceId)).map fun s =>
      (m.externalKey, m.title, m.kind, m.occurredAt, m.occurredAtSource, s.name)

/-- `memory_metadata`. -/
def memoryMetadata (db : Db) (memoryIds : List Id) :
    List (Id × MemoryMetadata) :=
  memoryIds.filterMap fun id => (metadataOf db id).map fun row => (id, row)

/-- `Candidates`. -/
structure Candidates where
  queryText : String
  vector : List ScoredChunk
  keyword : List ScoredChunk
  signals : SignalTable
  metadata : List (Id × MemoryMetadata)
  graph : Option GraphCandidates

/-- `expand_for_tuning`: whatever the configured weight. -/
def expandForTuning (search : SearchMemories) (db : Db)
    (vector keyword : List ScoredChunk) : Option GraphCandidates :=
  match search.expand with
  | none => none
  | some expand =>
    let seeds := Search.seedMemories vector keyword
    if seeds.isEmpty then none
    else some (GraphExpand.call expand db (seeds.take search.seedMemories)
      seeds)

/-- The loop of `collect_candidates`, at one query. -/
def candidatesOf (search : SearchMemories) (db : Db) (k : Nat)
    (query : GoldenQuery) : Candidates :=
  let found := Search.legs search db (requestOf db query k)
    (resolveFilters db query.filters)
  let expansion := expandForTuning search db found.1 found.2
  { queryText := query.queryText
    vector := found.1
    keyword := found.2
    signals := Search.signalsFor search.engine db (found.1 ++ found.2)
    metadata := memoryMetadata db
      ((found.1 ++ found.2 ++ (expansion.getD {}).chunks).map
        (·.memoryId)).eraseDups
    graph := expansion }

/-- `collect_candidates`. -/
def collectCandidates (golden : GoldenSet) (search : SearchMemories) (db : Db)
    (k : Nat) : List Candidates :=
  golden.queries.map (candidatesOf search db k)

-- ========= scoring

/-- The hit of `_group` for one memory. -/
def groupHit (chunks : List ScoredChunk)
    (metadata : List (Id × MemoryMetadata)) (memoryId : Id) :
    Option MemoryHit :=
  (metadata.lookup memoryId).map fun row =>
    let matched := chunks.filter fun c => decide (c.memoryId = memoryId)
    { memoryId := memoryId
      externalKey := row.1
      sourceName := row.2.2.2.2.2
      title := row.2.1
      kind := row.2.2.1
      occurredAt := row.2.2.2.1
      occurredAtSource := row.2.2.2.2.1
      score := Search.maxScore matched
      matchedChunks := matched.insertionSort fun a b =>
        a.ordinal ≤ b.ordinal }

/-- `_group`. -/
def group (chunks : List ScoredChunk) (metadata : List (Id × MemoryMetadata)) :
    List MemoryHit :=
  ((chunks.map (·.memoryId)).eraseDups.filterMap
    (groupHit chunks metadata)).insertionSort fun a b =>
      (Search.ranking b).1 < (Search.ranking a).1
        ∨ ((Search.ranking a).1 = (Search.ranking b).1
          ∧ (Search.ranking b).2 ≤ (Search.ranking a).2)

/-- `_score_one`. -/
def scoreOne (discount : Nat → K) (query : GoldenQuery) (found : Candidates)
    (exclude : List String) (k : Nat) (weights : FusionWeights) (rrfK : Nat) :
    EvalResult K :=
  let chunks := fuse found.vector found.keyword found.signals weights rrfK
    found.graph
  let hits := (group chunks found.metadata).map scoredHit
  let kept := (hits.filter fun hit => !hit.isExcluded exclude).take k
  score discount found.queryText ((rows query kept).map (·.key))
    query.relevantKeys k

/-- The axes of a grid. -/
structure Grid where
  recency : List ℚ
  importance : List ℚ
  graph : List ℚ

/-- The combinations of `itertools.product`, with the retrievers' base
weights. -/
def gridWeights (grid : Grid) (base : FusionWeights) : List FusionWeights :=
  grid.recency.flatMap fun recency =>
    grid.importance.flatMap fun importance =>
      grid.graph.map fun graph =>
        { base with
          recency := recency
          importance := importance
          graph := graph }

/-- `GridRow`. -/
structure GridRow (K : Type) where
  weights : FusionWeights
  recall_ : K
  precision : K
  mrr : K
  ndcg : K

/-- `by_text`: the last query of a text. -/
def byText (golden : GoldenSet) (queryText : String) : Option GoldenQuery :=
  golden.queries.reverse.find? fun query => decide (query.queryText = queryText)

/-- The row of one combination, if any query is scored. -/
def gridRow (discount : Nat → K) (golden : GoldenSet)
    (candidates : List Candidates) (k rrfK : Nat) (weights : FusionWeights) :
    Option (GridRow K) :=
  let results := candidates.filterMap fun found =>
    (byText golden found.queryText).map fun query =>
      scoreOne discount query found golden.exclude k weights rrfK
  if results.isEmpty then none
  else some {
    weights := weights
    recall_ := mean (results.map (·.recall_))
    precision := mean (results.map (·.precision))
    mrr := mean (results.map (·.mrr))
    ndcg := mean (results.map (·.ndcg)) }

/-- The order of the rows: nDCG, then MRR, then the weights themselves. -/
def rowBefore [LinearOrder K] (a b : GridRow K) : Prop :=
  b.ndcg < a.ndcg ∨ (a.ndcg = b.ndcg ∧ (b.mrr < a.mrr ∨ (a.mrr = b.mrr
    ∧ (a.weights.recency < b.weights.recency
      ∨ (a.weights.recency = b.weights.recency
        ∧ (a.weights.importance < b.weights.importance
          ∨ (a.weights.importance = b.weights.importance
            ∧ a.weights.graph ≤ b.weights.graph)))))))

instance [LinearOrder K] : DecidableRel (rowBefore (K := K)) := fun _ _ =>
  inferInstanceAs (Decidable (_ ∨ _))

/-- `score_grid`. -/
def scoreGrid [LinearOrder K] (discount : Nat → K) (golden : GoldenSet)
    (candidates : List Candidates) (k : Nat) (grid : Grid)
    (base : FusionWeights) (rrfK : Nat := 60) : List (GridRow K) :=
  ((gridWeights grid base).filterMap
    (gridRow discount golden candidates k rrfK)).insertionSort rowBefore

end MemoryOS.Tuning
