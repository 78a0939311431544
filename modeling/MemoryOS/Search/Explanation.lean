/-
Why a result is where it is (`domain/explanation.py`,
`citations.explain_hits`), reconstructed from the recorded ranks.

The explanation is computed after the search, from the weights it is given.
The citations beside it are `MemoryOS.Chat.Answering`'s.
-/
import MemoryOS.Search.Memories

namespace MemoryOS

open Fusion

namespace Search

/-- The names of the rankings in an explanation. -/
inductive RankingName
  | semantic | keyword | recency | importance | graph
deriving DecidableEq, Repr

/-- A ranking's name, in a sentence. -/
def RankingName.text : RankingName → String
  | .semantic => "semantic"
  | .keyword => "keyword"
  | .recency => "recency"
  | .importance => "importance"
  | .graph => "graph"

/-- A ranking that found a chunk: its rank, its own score and its weight. -/
structure Found where
  name : RankingName
  rank : Nat
  score : Option ℚ
  weight : ℚ

/-- `weight / (rrf_k + rank)`. -/
def Found.contribution (rrfK : Nat) (f : Found) : ℚ :=
  f.weight / (rrfK + f.rank)

/-- `SignalContribution`. -/
structure SignalContribution where
  name : RankingName
  rank : Nat
  score : Option ℚ
  weight : ℚ
  contribution : ℚ
  share : ℚ
deriving DecidableEq

/-- `RankExplanation`. -/
structure RankExplanation where
  finalRank : Nat
  fusedScore : ℚ
  contributions : List SignalContribution
  rerankScore : Option ℚ
  why : Text
  graphPath : Option (List Text)
deriving DecidableEq

-- ====== the sentence

/-- `_strength`. -/
def strength (rank : Nat) : String :=
  if rank ≤ 3 then "strong" else if rank ≤ 10 then "moderate" else "weak"

/-- `_ordinal`. -/
def ordinal (value : Nat) : String :=
  let suffix :=
    if 10 ≤ value % 100 ∧ value % 100 ≤ 20 then "th"
    else
      match value % 10 with
      | 1 => "st"
      | 2 => "nd"
      | 3 => "rd"
      | _ => "th"
  toString value ++ suffix

/-- `SignalContribution.describe`. -/
def SignalContribution.describe (item : SignalContribution) : Text :=
  (strength item.rank ++ " " ++ item.name.text ++ " match (rank "
    ++ toString item.rank ++ ")").toList

/-- `_introduced_by_the_graph`. -/
def introducedByTheGraph (contributions : List SignalContribution) : Bool :=
  let names := contributions.map (·.name)
  names.contains .graph && !(names.contains .semantic || names.contains .keyword)

/-- The route of a clause, where the graph's is one. -/
def viaRoute (graphPath : Option (List Text)) (name : RankingName) : Text :=
  match graphPath with
  | none => []
  | some path =>
    if name = .graph ∧ path ≠ [] then
      " via ".toList ++ " -> ".toList.intercalate path
    else []

/-- What the sentence says of reranking. -/
def movement (finalRank : Nat) : Option Nat → Text
  | none => []
  | some previous =>
    if previous ≠ finalRank then
      (", reranked " ++ (if finalRank < previous then "up" else "down")
        ++ " from " ++ ordinal previous).toList
    else ", unchanged by reranking".toList

/-- `_why`. -/
def why (finalRank : Nat) (contributions : List SignalContribution)
    (previousRank : Option Nat) (graphPath : Option (List Text)) : Text :=
  if contributions.isEmpty then
    ("Ranked " ++ ordinal finalRank
      ++ ": no ranking signal found this result.").toList
  else
    let parts := contributions.map fun item =>
      item.describe ++ viaRoute graphPath item.name
    ("Ranked " ++ ordinal finalRank ++ ": ").toList
      ++ ", ".toList.intercalate parts
      ++ (if introducedByTheGraph contributions then
        ", found by the graph alone".toList else [])
      ++ movement finalRank previousRank ++ ['.']

-- ====== the explanation

/-- `build_explanation`. A ranking that is switched off is not listed. -/
def buildExplanation (finalRank : Nat) (fusedScore : ℚ) (ranks : List Found)
    (rrfK : Nat) (rerankScore : Option ℚ) (previousRank : Option Nat)
    (graphPath : Option (List Text)) : RankExplanation :=
  let contributions := ranks.filter fun f => decide (f.weight ≠ 0)
  let total := (contributions.map (Found.contribution rrfK)).sum
  let resolved := (contributions.insertionSort fun a b =>
      b.contribution rrfK ≤ a.contribution rrfK).map fun f =>
    { name := f.name
      rank := f.rank
      score := f.score
      weight := f.weight
      contribution := f.contribution rrfK
      share := if total ≠ 0 then f.contribution rrfK / total else 0 }
  { finalRank := finalRank
    fusedScore := fusedScore
    contributions := resolved
    rerankScore := rerankScore
    why := why finalRank resolved previousRank graphPath
    graphPath := graphPath }

/-- `max(hit.matched_chunks, key=lambda chunk: chunk.score)`: the first of
the best. -/
def bestChunk : List ScoredChunk → Option ScoredChunk
  | [] => none
  | c :: rest => some (rest.foldl
      (fun best c => if best.score < c.score then c else best) c)

/-- One ranking's entry, where it found the chunk. -/
def found (name : RankingName) (rank : Option Nat) (score : Option ℚ)
    (weight : ℚ) : List Found :=
  rank.toList.map fun r => ⟨name, r, score, weight⟩

/-- The rankings of a breakdown that found its chunk. -/
def ranksOf (weights : FusionWeights) (b : ScoreBreakdown) : List Found :=
  found .semantic b.vectorRank b.vectorScore weights.vector
    ++ found .keyword b.keywordRank b.keywordScore weights.keyword
    ++ found .recency b.recencyRank b.recencyScore weights.recency
    ++ found .importance b.importanceRank b.importanceScore weights.importance
    ++ found .graph b.graphRank b.graphScore weights.graph

/-- `_explanation`: through the chunk that set the hit's score. -/
def explanation (hit : MemoryHit) (rank : Nat) (previousRank : Option Nat)
    (weights : FusionWeights) (rrfK : Nat) : RankExplanation :=
  match (bestChunk hit.matchedChunks).bind (·.breakdown) with
  | none => buildExplanation rank hit.score [] rrfK none none none
  | some b => buildExplanation rank b.fused (ranksOf weights b) rrfK
      b.rerankScore previousRank b.graphPath

/-- The best fused score among a hit's chunks. -/
def bestFused (hit : MemoryHit) : ℚ :=
  ((hit.matchedChunks.filterMap (·.breakdown)).map (·.fused)).max?.getD 0

/-- `_ranks_before_reranking`: where each hit stands by its fused score. -/
def ranksBeforeReranking (hits : List MemoryHit) : List (Id × Nat) :=
  if hits.any fun hit => hit.matchedChunks.any fun c =>
      c.breakdown.any (·.rerankRank.isSome) then
    ((hits.map fun hit => (hit.memoryId, bestFused hit)).insertionSort
      fun a b => b.2 < a.2 ∨ (a.2 = b.2 ∧ a.1 ≤ b.1)).mapIdx
      fun i p => (p.1, i + 1)
  else []

/-- `explain_hits`, as far as its explanations go. -/
def explainHits (hits : List MemoryHit) (weights : FusionWeights)
    (rrfK : Nat) : List (MemoryHit × RankExplanation) :=
  let previous := ranksBeforeReranking hits
  hits.mapIdx fun i hit => (hit, explanation hit (i + 1)
    -- a later entry of the dictionary replaces an earlier one
    (previous.reverse.lookup hit.memoryId) weights rrfK)

end Search

end MemoryOS
