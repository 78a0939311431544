/-
What a search may return (`adapters/db/filters.py`, `ports.SearchFilters`), what
a query's words do to it (`domain/temporal_intent.py`, `search._narrow`), scored
chunks (`ports.ScoredChunk`), and one ranking from several (`domain/fusion.py`,
`search.fuse`).

Scores are floats in the source and rationals here; nothing is said about how
they round.
-/
import Mathlib.Algebra.Order.Field.Rat
import Mathlib.Data.List.Dedup
import Mathlib.Data.List.Sort
import MemoryOS.Db.Tables

namespace MemoryOS

/-- `SearchFilters`. A sequence that is `None` asks for what an empty one
asks for: nothing. -/
structure SearchFilters where
  sourceIds : List Id := []
  kinds : List MemoryKind := []
  occurredAfter : Option Timestamp := none
  occurredBefore : Option Timestamp := none
  includeDeleted : Bool := false
  /-- Names a memory must carry all of. -/
  tags : List Text := []
deriving DecidableEq, Repr

namespace Filters

/-- `_carries_every_tag`: the distinct tags among these that the memory's
item has are as many as were asked for. -/
def carriesEveryTag (db : Db) (tags : List Text) (m : Memory) : Bool :=
  let found := db.tags.filter fun t =>
    decide (t.sourceId = m.sourceId) && decide (t.externalKey = m.externalKey)
      && decide (t.tag ∈ tags)
  decide ((found.map (·.tag)).dedup.length = tags.dedup.length)

/-- `occurred_at >= bound`, which an undated memory is not. -/
def notBefore (bound : Timestamp) (m : Memory) : Bool :=
  m.occurredAt.any fun t => decide (bound ≤ t)

/-- `occurred_at <= bound`. -/
def notAfter (bound : Timestamp) (m : Memory) : Bool :=
  m.occurredAt.any fun t => decide (t ≤ bound)

/-- `memory_predicates`. -/
def memoryPredicates (db : Db) (filters : SearchFilters) (m : Memory) :
    Bool :=
  m.isCurrent
    && (filters.includeDeleted || m.deletedAt.isNone)
    && (filters.sourceIds.isEmpty || decide (m.sourceId ∈ filters.sourceIds))
    && (filters.kinds.isEmpty || decide (m.kind ∈ filters.kinds))
    && filters.occurredAfter.all (notBefore · m)
    && filters.occurredBefore.all (notAfter · m)
    && (filters.tags.isEmpty || carriesEveryTag db filters.tags m)

-- ====== temporal intent

/-- `IntentKind`. -/
inductive IntentKind
  | range | relative | ordering
deriving DecidableEq, Repr

/-- `Ordering`. -/
inductive DateOrder
  | earliest | latest
deriving DecidableEq, Repr

/-- `TemporalIntent`: what `parse_temporal_intent` found in the query. -/
structure TemporalIntent where
  kind : IntentKind
  phrase : String
  start : Option Timestamp := none
  stop : Option Timestamp := none
  ordering : Option DateOrder := none
deriving DecidableEq, Repr

/-- `_tighter`: the more restrictive of two optional bounds. -/
def tighter (keep : Timestamp → Timestamp → Timestamp) :
    Option Timestamp → Option Timestamp → Option Timestamp
  | existing, none => existing
  | none, some proposed => some proposed
  | some existing, some proposed => some (keep existing proposed)

/-- `_narrow`: intersect a parsed range with what the caller asked for, and
whether that narrowed anything. -/
def narrow (filters : SearchFilters) (intent : TemporalIntent) :
    SearchFilters × Bool :=
  let after := tighter max filters.occurredAfter intent.start
  let before := tighter min filters.occurredBefore intent.stop
  if after = filters.occurredAfter ∧ before = filters.occurredBefore then
    (filters, false)
  else
    ({ filters with occurredAfter := after, occurredBefore := before }, true)

/-- The filters a search runs under, and whether the query narrowed
them. -/
def effective (filters : SearchFilters) (intent : Option TemporalIntent) :
    SearchFilters × Bool :=
  match intent with
  | none => (filters, false)
  | some i => if i.kind = .range then narrow filters i else (filters, false)

end Filters

end MemoryOS

namespace MemoryOS

open Filters

/-- `ScoreBreakdown`: where a chunk's score came from. The intent stands
for its own description. -/
structure ScoreBreakdown where
  fused : ℚ
  vectorRank : Option Nat := none
  keywordRank : Option Nat := none
  vectorScore : Option ℚ := none
  keywordScore : Option ℚ := none
  recencyRank : Option Nat := none
  importanceRank : Option Nat := none
  recencyScore : Option ℚ := none
  importanceScore : Option ℚ := none
  rerankScore : Option ℚ := none
  rerankRank : Option Nat := none
  graphRank : Option Nat := none
  graphScore : Option ℚ := none
  graphPath : Option (List Text) := none
  temporalIntent : Option TemporalIntent := none
  temporalFilterApplied : Bool := false
deriving DecidableEq

/-- `ScoredChunk`. -/
structure ScoredChunk where
  chunkId : Id
  memoryId : Id
  ordinal : Nat
  text : Text
  score : ℚ
  charStart : Nat
  charEnd : Nat
  prefixChars : Nat
  metadata : Meta
  breakdown : Option ScoreBreakdown := none
deriving DecidableEq

/-- The columns a store selects of a chunk. -/
def ScoredChunk.ofRow (c : MemoryChunk) (score : ℚ) : ScoredChunk where
  chunkId := c.id
  memoryId := c.memoryId
  ordinal := c.ordinal
  text := c.content
  score := score
  charStart := c.charStart
  charEnd := c.charEnd
  prefixChars := c.prefixChars
  metadata := c.metadata

namespace Fusion

/-- Where an id first stands in a ranking, from 1 on. -/
def rankIn (ids : List Id) (id : Id) : Option Nat :=
  (ids.idxOf? id).map (· + 1)

-- ====== rank fusion

/-- `scores[identifier] = scores.get(identifier, 0.0) + x`. -/
def addScore : List (Id × ℚ) → Id → ℚ → List (Id × ℚ)
  | [], id, x => [(id, x)]
  | (i, y) :: rest, id, x =>
    if i = id then (i, y + x) :: rest else (i, y) :: addScore rest id x

/-- One ranking's terms of the sum. A repeated id keeps its best
position. -/
def addRanking (k : Nat) (scores : List (Id × ℚ)) (ranking : List Id)
    (weight : ℚ) : List (Id × ℚ) :=
  ranking.eraseDups.foldl (fun scores id =>
    match rankIn ranking id with
    | none => scores
    | some position => addScore scores id (weight / (k + position)))
    scores

/-- `reciprocal_rank_fusion`: descending by score, ties by id. -/
def reciprocalRankFusion (rankings : List (List Id × ℚ)) (k : Nat) :
    List (Id × ℚ) :=
  (rankings.foldl (fun scores r => addRanking k scores r.1 r.2) []).insertionSort
    fun a b => b.2 < a.2 ∨ (a.2 = b.2 ∧ a.1 ≤ b.1)

-- ========= signals

/-- `FusionWeights`. -/
structure FusionWeights where
  vector : ℚ := 1
  keyword : ℚ := 1
  recency : ℚ := 0
  importance : ℚ := 0
  graph : ℚ := 1 / 2

/-- `FusionWeights.graph_is_off`. -/
def FusionWeights.graphIsOff (weights : FusionWeights) : Bool :=
  decide (weights.graph = 0)

/-- `SignalTable`: scores of the candidates, by chunk id. -/
structure SignalTable where
  recency : List (Id × ℚ) := []
  importance : List (Id × ℚ) := []

/-- `SignalTable.ranking`: best first, ties by id. -/
def signalRanking (scores : List (Id × ℚ)) : List Id :=
  (scores.insertionSort fun a b =>
    b.2 < a.2 ∨ (a.2 = b.2 ∧ a.1 ≤ b.1)).map (·.1)

/-- `GraphCandidates`: the expansion's ranking, and the route that
justifies each row. -/
structure GraphCandidates where
  chunks : List ScoredChunk := []
  routes : List (Id × List Text) := []

-- ============ fuse

/-- The expansion that `fuse` merges in: none at weight zero. -/
def expansionUsed (weights : FusionWeights)
    (graph : Option GraphCandidates) : GraphCandidates :=
  if weights.graphIsOff then {} else graph.getD {}

/-- `fuse`: one ranking from five, each chunk carrying where it came
from. Every id that is ranked is some chunk's. -/
def fuse (vectorChunks keywordChunks : List ScoredChunk)
    (signals : SignalTable) (weights : FusionWeights) (rrfK : Nat)
    (graph : Option GraphCandidates) : List ScoredChunk :=
  let expansion := expansionUsed weights graph
  -- the first copy of a chunk wins
  let byId := vectorChunks ++ keywordChunks ++ expansion.chunks
  let ids (chunks : List ScoredChunk) := chunks.map (·.chunkId)
  -- the last score of a chunk wins
  let scoreIn (chunks : List ScoredChunk) (id : Id) :=
    (chunks.reverse.find? fun c => decide (c.chunkId = id)).map (·.score)
  let recencyRanking :=
    if weights.recency = 0 then [] else signalRanking signals.recency
  let importanceRanking :=
    if weights.importance = 0 then [] else signalRanking signals.importance
  let fused := reciprocalRankFusion [
    (ids vectorChunks, weights.vector),
    (ids keywordChunks, weights.keyword),
    (recencyRanking, weights.recency),
    (importanceRanking, weights.importance),
    (ids expansion.chunks, weights.graph)] rrfK
  fused.filterMap fun p =>
    (byId.find? fun c => decide (c.chunkId = p.1)).map fun chunk =>
      { chunk with
        score := p.2
        breakdown := some {
          fused := p.2
          vectorRank := rankIn (ids vectorChunks) p.1
          keywordRank := rankIn (ids keywordChunks) p.1
          vectorScore := scoreIn vectorChunks p.1
          keywordScore := scoreIn keywordChunks p.1
          recencyRank := rankIn recencyRanking p.1
          importanceRank := rankIn importanceRanking p.1
          recencyScore := signals.recency.lookup p.1
          importanceScore := signals.importance.lookup p.1
          graphRank := rankIn (ids expansion.chunks) p.1
          graphScore := (expansion.chunks.find? fun c =>
            decide (c.chunkId = p.1)).map (·.score)
          graphPath := expansion.routes.lookup p.1 } }

theorem mem_fuse {vectorChunks keywordChunks : List ScoredChunk}
    {signals : SignalTable} {weights : FusionWeights} {rrfK : Nat}
    {graph : Option GraphCandidates} {c : ScoredChunk}
    (hc : c ∈ fuse vectorChunks keywordChunks signals weights rrfK graph) :
    ∃ c₀ ∈ vectorChunks ++ keywordChunks
        ++ (expansionUsed weights graph).chunks,
      c.memoryId = c₀.memoryId := by
  unfold fuse at hc
  obtain ⟨p, -, hp⟩ := List.mem_filterMap.mp hc
  obtain ⟨c₀, hfind, rfl⟩ := Option.map_eq_some_iff.mp hp
  exact ⟨c₀, List.mem_of_find?_eq_some hfind, rfl⟩

end Fusion

end MemoryOS
