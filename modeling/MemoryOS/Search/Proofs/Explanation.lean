/-
When an explanation reconstructs the ranking.

# The result

`reconstructs_iff`: the contributions of a hit add up to the fused score of
the chunk that set the hit's score, name every ranking that counted, and
share it out, exactly when the query's intent left recency at its configured
weight, or left it without one, or neither retriever found that chunk.

The ranks of a fused chunk survive reranking and the intent's stamp
(`mem_candidates`), and its score is what they add up to under the weights
of the query (`mem_hybrid`). The explanation adds the same ranks up under
the configured weights (`contributions_sum`), so the two differ in recency's
term alone (`recordedSum_eq_iff`).
-/
import Mathlib.Algebra.BigOperators.Ring.List
import MemoryOS.Search.Explanation
import MemoryOS.Search.Proofs.Filters
import MemoryOS.Search.Proofs.Fusion

namespace MemoryOS

open Filters Fusion

namespace Search

variable {search : SearchMemories} {db : Db} {request : SearchRequest}
  {intent : Option TemporalIntent} {chunks : List ScoredChunk}

-- ====== statement vocabulary

/-- An explanation adds up to a breakdown, under the weights it was fused
with. -/
structure Reconstructs (weights : FusionWeights) (rrfK : Nat)
    (b : ScoreBreakdown) (e : RankExplanation) : Prop where
  sum : (e.contributions.map (·.contribution)).sum = b.fused
  appears : ∀ f ∈ ranksOf weights b, f.contribution rrfK ≠ 0 →
    f.name ∈ e.contributions.map (·.name)
  shares : b.fused ≠ 0 → (e.contributions.map (·.share)).sum = 1

/-- The chunks that the retrievers find for a query. -/
def retrieved (search : SearchMemories) (db : Db) (request : SearchRequest)
    (intent : Option TemporalIntent) : List ScoredChunk :=
  let found := legs search db request (effective request.filters intent).1
  found.1 ++ found.2

/-- A relative intent counts recency as it is configured, or not at all, or
the chunk is the graph's alone. -/
def Accounted (search : SearchMemories) (db : Db) (request : SearchRequest)
    (intent : Option TemporalIntent) (c : ScoredChunk) : Prop :=
  ∀ i, intent = some i → i.kind = .relative →
    search.temporalRecencyWeight = search.weights.recency
      ∨ search.temporalRecencyWeight = 0
      ∨ c.chunkId ∉ (retrieved search db request intent).map (·.chunkId)

/-- A later copy of a chunk, with the ranks that were recorded. -/
structure KeepsRanks (c c₀ : ScoredChunk) : Prop where
  chunkId : c.chunkId = c₀.chunkId
  breakdown : ∀ b₀, c₀.breakdown = some b₀ →
    ∃ score rank intent applied, c.breakdown = some { b₀ with
      rerankScore := score
      rerankRank := rank
      temporalIntent := intent
      temporalFilterApplied := applied }

variable {c : ScoredChunk} {b : ScoreBreakdown} {weights : FusionWeights}
  {k : Nat} {id : Id} {x : ℚ}

theorem KeepsRanks.refl (c : ScoredChunk) : KeepsRanks c c :=
  ⟨rfl, fun _ hb => ⟨_, _, _, _, hb⟩⟩

theorem KeepsRanks.trans {a b : ScoredChunk} (hab : KeepsRanks a b)
    (hbc : KeepsRanks b c) : KeepsRanks a c := by
  refine ⟨hab.chunkId.trans hbc.chunkId, fun b₀ hb₀ => ?_⟩
  obtain ⟨_, _, _, _, hb⟩ := hbc.breakdown b₀ hb₀
  have ha := hab.breakdown _ hb
  exact ha

-- ====== adding up the ranks

theorem found_sum (name : RankingName) (rank : Option Nat) (score : Option ℚ)
    (weight : ℚ) (k : Nat) :
    ((found name rank score weight).map (Found.contribution k)).sum
      = term k weight rank := by
  cases rank with
  | none => rfl
  | some r => exact add_zero _

theorem ranksOf_sum (weights : FusionWeights) (b : ScoreBreakdown) (k : Nat) :
    ((ranksOf weights b).map (Found.contribution k)).sum
      = recordedSum k weights b := by
  unfold ranksOf recordedSum recorded
  simp only [List.map_append, List.sum_append, found_sum, List.map_cons,
    List.map_nil, List.sum_cons, List.sum_nil, add_zero, add_assoc]

theorem listed_sum (ranks : List Found) (k : Nat) :
    ((ranks.filter fun f => decide (f.weight ≠ 0)).map
      (Found.contribution k)).sum
      = (ranks.map (Found.contribution k)).sum := by
  induction ranks with
  | nil => rfl
  | cons f rest ih =>
    rw [List.filter_cons]
    by_cases hw : f.weight = 0
    · have hzero : f.contribution k = 0 := by
        rw [Found.contribution, hw, zero_div]
      rw [if_neg (by simpa using hw), ih, List.map_cons, List.sum_cons, hzero,
        zero_add]
    · rw [if_pos (by simpa using hw), List.map_cons, List.sum_cons, ih,
        List.map_cons, List.sum_cons]

section Build

variable (finalRank : Nat) (fusedScore : ℚ) (ranks : List Found) (k : Nat)
  (rerankScore : Option ℚ) (previousRank : Option Nat)
  (graphPath : Option (List Text))

theorem contributions_sum :
    ((buildExplanation finalRank fusedScore ranks k rerankScore previousRank
        graphPath).contributions.map (·.contribution)).sum
      = (ranks.map (Found.contribution k)).sum := by
  rw [← listed_sum]
  unfold buildExplanation
  simp only [List.map_map]
  exact ((List.perm_insertionSort _ _).map _).sum_eq

theorem shares_sum (hsum : (ranks.map (Found.contribution k)).sum ≠ 0) :
    ((buildExplanation finalRank fusedScore ranks k rerankScore previousRank
        graphPath).contributions.map (·.share)).sum = 1 := by
  rw [← listed_sum] at hsum
  unfold buildExplanation
  simp only [List.map_map]
  rw [(((List.perm_insertionSort _ _).map _).sum_eq)]
  simp only [Function.comp_def, if_pos hsum]
  simp only [div_eq_mul_inv]
  rw [List.sum_map_mul_right, mul_inv_cancel₀ hsum]

theorem listed {f : Found} (hf : f ∈ ranks) (hcounts : f.contribution k ≠ 0) :
    f.name ∈ (buildExplanation finalRank fusedScore ranks k rerankScore
      previousRank graphPath).contributions.map (·.name) := by
  have hweight : f.weight ≠ 0 := fun hw => hcounts (by
    rw [Found.contribution, hw, zero_div])
  unfold buildExplanation
  simp only [List.map_map]
  exact List.mem_map.2 ⟨f, (List.mem_insertionSort _).2 (List.mem_filter.2
    ⟨hf, decide_eq_true hweight⟩), rfl⟩

end Build

-- ====== the best chunk

theorem bestChunk_spec (chunks : List ScoredChunk)
    (hc : bestChunk chunks = some c) :
    c ∈ chunks ∧ ∀ d ∈ chunks, d.score ≤ c.score := by
  cases chunks with
  | nil => cases hc
  | cons first rest =>
    obtain rfl := Option.some.inj hc
    clear hc
    induction rest generalizing first with
    | nil =>
      refine ⟨List.mem_cons_self .., fun d hd => ?_⟩
      rw [List.mem_singleton.1 hd]
      exact le_refl _
    | cons second rest ih =>
      rw [List.foldl_cons]
      by_cases hlt : first.score < second.score
      · rw [if_pos hlt]
        obtain ⟨hmem, hmax⟩ := ih second
        refine ⟨List.mem_cons_of_mem _ hmem, List.forall_mem_cons.2
          ⟨hlt.le.trans (hmax _ (List.mem_cons_self ..)), hmax⟩⟩
      · rw [if_neg hlt]
        obtain ⟨hmem, hmax⟩ := ih first
        obtain ⟨hfirst, hrest⟩ := List.forall_mem_cons.1 hmax
        refine ⟨?_, List.forall_mem_cons.2 ⟨hfirst, List.forall_mem_cons.2
          ⟨(not_lt.1 hlt).trans hfirst, hrest⟩⟩⟩
        rcases List.mem_cons.1 hmem with heq | hmem
        · rw [heq]
          exact List.mem_cons_self ..
        · exact List.mem_cons_of_mem _ (List.mem_cons_of_mem _ hmem)

theorem maxScore_spec (c : ScoredChunk) (rest : List ScoredChunk) :
    (∃ d ∈ c :: rest, d.score = maxScore (c :: rest))
      ∧ ∀ d ∈ c :: rest, d.score ≤ maxScore (c :: rest) := by
  have hbest : maxScore (c :: rest) = (rest.foldl
      (fun best c => if best.score < c.score then c else best) c).score := by
    simp only [maxScore]
    induction rest generalizing c with
    | nil => rfl
    | cons d rest ih =>
      rw [List.foldl_cons, List.foldl_cons]
      by_cases hlt : c.score < d.score
      · rw [if_pos hlt, max_eq_right hlt.le, ih]
      · rw [if_neg hlt, max_eq_left (not_lt.1 hlt), ih]
  obtain ⟨hmem, hmax⟩ := bestChunk_spec (c :: rest) rfl
  rw [hbest]
  exact ⟨⟨_, hmem, rfl⟩, hmax⟩

theorem hitOf_best {hit : MemoryHit}
    (hid : id ∈ chunks.map (·.memoryId))
    (hhit : hitOf db chunks id = some hit) :
    ∃ c ∈ chunks, bestChunk hit.matchedChunks = some c
      ∧ c.score = hit.score := by
  unfold hitOf at hhit
  obtain ⟨m, -, hm⟩ := Option.bind_eq_some_iff.mp hhit
  obtain ⟨s, -, rfl⟩ := Option.map_eq_some_iff.mp hm
  obtain ⟨first, hfirst, hfid⟩ := List.mem_map.1 hid
  have hin : first ∈ chunks.filter fun c => decide (c.memoryId = id) :=
    List.mem_filter.2 ⟨hfirst, decide_eq_true hfid⟩
  have hmem : ∀ c, c ∈ (chunks.filter fun c =>
      decide (c.memoryId = id)).insertionSort (fun a b => a.ordinal ≤ b.ordinal)
        ↔ c ∈ chunks.filter fun c => decide (c.memoryId = id) :=
    fun c => List.mem_insertionSort _
  have hsub : ∀ c ∈ chunks.filter fun c => decide (c.memoryId = id),
      c ∈ chunks := fun c hc => List.mem_of_mem_filter hc
  simp only
  generalize (chunks.filter fun c => decide (c.memoryId = id)) = matched
    at hin hmem hsub ⊢
  generalize matched.insertionSort (fun a b => a.ordinal ≤ b.ordinal) = sorted
    at hmem ⊢
  cases sorted with
  | nil => cases (hmem first).2 hin
  | cons d sorted =>
    cases matched with
    | nil => cases hin
    | cons e matched =>
      obtain ⟨hc, hmax⟩ := bestChunk_spec (d :: sorted) rfl
      obtain ⟨⟨b, hb, hbscore⟩, hle⟩ := maxScore_spec e matched
      refine ⟨_, hsub _ ((hmem _).1 hc), rfl, le_antisymm ?_ ?_⟩
      · exact hle _ ((hmem _).1 hc)
      · rw [← hbscore]
        exact hmax b ((hmem b).2 hb)

-- ====== what is kept of a fused chunk

theorem KeepsRanks.scored (c : ScoredChunk) (score : ℚ)
    (rerankScore : Option ℚ) (rerankRank : Option Nat) :
    KeepsRanks { c with
      score := score
      breakdown := some { c.breakdown.getD { fused := c.score } with
        rerankScore := rerankScore
        rerankRank := rerankRank } } c := by
  refine ⟨rfl, fun b₀ hb₀ => ⟨rerankScore, rerankRank, b₀.temporalIntent,
    b₀.temporalFilterApplied, ?_⟩⟩
  simp only [hb₀, Option.getD_some]

theorem KeepsRanks.stamped (c : ScoredChunk) (intent : Option TemporalIntent)
    (applied : Bool) :
    KeepsRanks { c with
      breakdown := some { c.breakdown.getD { fused := c.score } with
        temporalIntent := intent
        temporalFilterApplied := applied } } c := by
  refine ⟨rfl, fun b₀ hb₀ => ⟨b₀.rerankScore, b₀.rerankRank, intent, applied,
    ?_⟩⟩
  simp only [hb₀, Option.getD_some]

theorem mem_rerank {model : Text → List Text → List ℚ} {query : Text}
    {n : Nat} {chunks' : List ScoredChunk}
    (hr : rerank model query n chunks = .ok chunks') (hc : c ∈ chunks') :
    ∃ c₀ ∈ chunks, KeepsRanks c c₀ := by
  unfold rerank at hr
  simp only at hr
  split at hr
  case isTrue => cases hr
  case isFalse =>
    cases hr
    rcases List.mem_append.1 hc with hc | hc
    · obtain ⟨i, hi, rfl⟩ := List.mem_mapIdx.mp hc
      have hp := (List.mem_insertionSort _).mp (List.getElem_mem hi)
      exact ⟨_, List.mem_of_mem_take (List.of_mem_zip hp).1, .scored _ _ _ _⟩
    · obtain ⟨i, hi, rfl⟩ := List.mem_mapIdx.mp hc
      refine ⟨_, List.mem_of_mem_drop (List.getElem_mem hi), rfl, ?_⟩
      exact (KeepsRanks.refl _).breakdown

theorem mem_reranked {chunks' : List ScoredChunk}
    (hr : reranked search request chunks = .ok chunks') (hc : c ∈ chunks') :
    ∃ c₀ ∈ chunks, KeepsRanks c c₀ := by
  unfold reranked at hr
  split at hr
  case h_1 =>
    cases hr
    exact ⟨c, hc, .refl c⟩
  case h_2 =>
    split at hr
    case isTrue => exact mem_rerank hr hc
    case isFalse =>
      cases hr
      exact ⟨c, hc, .refl c⟩

theorem mem_stampIntent {applied : Bool}
    (hc : c ∈ stampIntent intent applied chunks) :
    ∃ c₀ ∈ chunks, KeepsRanks c c₀ := by
  unfold stampIntent at hc
  split at hc
  case h_1 => exact ⟨c, hc, .refl c⟩
  case h_2 =>
    obtain ⟨c₀, hc₀, rfl⟩ := List.mem_map.1 hc
    exact ⟨c₀, hc₀, .stamped _ _ _⟩

theorem mem_candidates (hmode : request.mode = .hybrid)
    (hc : candidates search db request intent = .ok chunks)
    (hin : c ∈ chunks) :
    ∃ c₀ ∈ hybrid search db request (effective request.filters intent).1
        (weightsFor search intent),
      KeepsRanks c c₀ := by
  unfold candidates at hc
  simp only at hc
  cases hr : reranked search request (retrieve search db request
      (effective request.filters intent).1 (weightsFor search intent)) with
  | error e =>
    rw [hr] at hc
    cases hc
  | ok chunks' =>
    rw [hr] at hc
    cases hc
    obtain ⟨c₁, hc₁, hkeep⟩ := mem_stampIntent hin
    obtain ⟨c₀, hc₀, hkeep'⟩ := mem_reranked hr hc₁
    unfold retrieve at hc₀
    rw [hmode] at hc₀
    exact ⟨c₀, hc₀, hkeep.trans hkeep'⟩

-- ====== a fused chunk's ranks

section Hybrid

variable {engine : Engine} {filters : SearchFilters} {weights : FusionWeights}

theorem mem_recency :
    id ∈ (signalsFor engine db chunks).recency.map (·.1)
      ↔ ∃ c ∈ chunks, c.chunkId = id ∧ (db.memory c.memoryId).isSome := by
  unfold signalsFor
  simp only [List.map_map, List.mem_map, List.mem_dedup, List.mem_filterMap]
  constructor
  · rintro ⟨r, ⟨c, hc, hr⟩, rfl⟩
    obtain ⟨m, hm, rfl⟩ := Option.map_eq_some_iff.1 hr
    exact ⟨c, hc, rfl, Option.isSome_iff_exists.2 ⟨m, hm⟩⟩
  · rintro ⟨c, hc, rfl, hm⟩
    obtain ⟨m, hm⟩ := Option.isSome_iff_exists.1 hm
    exact ⟨(c.chunkId, m), ⟨c, hc, by rw [hm]; rfl⟩, rfl⟩

theorem signalsFor_over :
    SignalsOver (signalsFor engine db chunks) chunks := by
  intro p hp
  rcases List.mem_append.1 hp with hp | hp
  · obtain ⟨c, hc, hid, -⟩ := mem_recency.1 (List.mem_map_of_mem hp)
    exact List.mem_map.2 ⟨c, hc, hid⟩
  · unfold signalsFor at hp
    obtain ⟨r, hr, hrp⟩ := List.mem_filterMap.1 hp
    obtain ⟨w, -, rfl⟩ := Option.map_eq_some_iff.1 hrp
    obtain ⟨c, hc, hcr⟩ := List.mem_filterMap.1 (List.mem_dedup.1 hr)
    obtain ⟨m, -, rfl⟩ := Option.map_eq_some_iff.1 hcr
    exact List.mem_map_of_mem hc

theorem legs_memory (hc : c ∈ (legs search db request filters).1
      ++ (legs search db request filters).2) :
    (db.memory c.memoryId).isSome := by
  have helig : eligible db filters c.memoryId = true := by
    simp only [legs] at hc
    rcases List.mem_append.1 hc with hc | hc
    · exact vectorChunks_eligible hc
    · exact keywordChunks_eligible hc
  obtain ⟨m, hm, -⟩ := (Option.any_eq_true _ _).1 helig
  exact Option.isSome_iff_exists.2 ⟨m, hm⟩

theorem mem_recency_legs :
    id ∈ (signalsFor engine db ((legs search db request filters).1
        ++ (legs search db request filters).2)).recency.map (·.1)
      ↔ id ∈ ((legs search db request filters).1
        ++ (legs search db request filters).2).map (·.chunkId) := by
  rw [mem_recency]
  constructor
  · rintro ⟨c, hc, rfl, -⟩
    exact List.mem_map_of_mem hc
  · intro hid
    obtain ⟨c, hc, rfl⟩ := List.mem_map.1 hid
    exact ⟨c, hc, rfl, legs_memory hc⟩

theorem rankIn_pos {ids : List Id} {r : Nat}
    (h : rankIn ids id = some r) : 0 < r := by
  obtain ⟨i, -, rfl⟩ := Option.map_eq_some_iff.1 h
  exact Nat.succ_pos i

theorem mem_hybrid (hc : c ∈ hybrid search db request filters weights) :
    ∃ b, c.breakdown = some b
      ∧ b.fused = recordedSum request.rrfK weights b
      ∧ (∀ r, b.recencyRank = some r → 0 < r)
      ∧ (b.recencyRank = none ↔ weights.recency = 0
        ∨ c.chunkId ∉ ((legs search db request filters).1
          ++ (legs search db request filters).2).map (·.chunkId)) := by
  unfold hybrid at hc
  obtain ⟨p, c₀, -, hid, hp, rfl⟩ := mem_fuse_iff _ signalsFor_over hc
  refine ⟨_, rfl, ?_, fun r hr => rankIn_pos hr, ?_⟩
  · rw [recordedSum_breakdownOf]
    exact (((fusion_spec _ _).2.2 p).1 hp).2
  · show rankIn _ p.1 = none ↔ _
    rw [rankIn_eq_none_iff, show c₀.chunkId = p.1 from hid]
    by_cases hoff : weights.recency = 0
    · rw [if_pos hoff]
      exact iff_of_true List.not_mem_nil (.inl hoff)
    · rw [if_neg hoff, mem_signalRanking, mem_recency_legs, or_iff_right hoff]

end Hybrid

-- ====== the reconstruction

theorem term_eq_iff {y : ℚ} {rank : Option Nat}
    (hpos : ∀ r, rank = some r → 0 < r) :
    term k x rank = term k y rank ↔ rank = none ∨ x = y := by
  cases rank with
  | none => exact iff_of_true rfl (.inl rfl)
  | some r =>
    have hrank : (0 : ℚ) < r := Nat.cast_pos.2 (hpos r rfl)
    have hne : ((k : ℚ) + r) ≠ 0 :=
      (add_pos_of_nonneg_of_pos (Nat.cast_nonneg k) hrank).ne'
    rw [or_iff_right (by simp)]
    exact div_left_inj' hne

theorem recordedSum_eq_iff (hpos : ∀ r, b.recencyRank = some r → 0 < r) :
    recordedSum k { weights with recency := x } b = recordedSum k weights b
      ↔ b.recencyRank = none ∨ x = weights.recency := by
  rw [← term_eq_iff hpos (k := k)]
  simp only [recordedSum, recorded, List.map_cons, List.map_nil, List.sum_cons,
    add_right_inj, add_left_inj]

theorem weightsFor_eq :
    weightsFor search intent = { search.weights with
      recency := (weightsFor search intent).recency } := by
  unfold weightsFor
  cases intent with
  | none => rfl
  | some i =>
    simp only
    split <;> rfl

theorem accounted_iff :
    Accounted search db request intent c
      ↔ ((weightsFor search intent).recency = 0
          ∨ c.chunkId ∉ (retrieved search db request intent).map (·.chunkId))
        ∨ (weightsFor search intent).recency = search.weights.recency := by
  unfold Accounted weightsFor
  cases intent with
  | none => exact iff_of_true nofun (.inr rfl)
  | some i =>
    by_cases hkind : i.kind = .relative
    · simp only [if_pos hkind]
      constructor
      · intro h
        rcases h i rfl hkind with h | h | h
        · exact .inr h
        · exact .inl (.inl h)
        · exact .inl (.inr h)
      · rintro h j hj -
        cases hj
        rcases h with (h | h) | h
        · exact .inr (.inl h)
        · exact .inr (.inr h)
        · exact .inl h
    · simp only [if_neg hkind]
      refine iff_of_true ?_ (.inr trivial)
      intro j hj hrel
      cases hj
      exact absurd hrel hkind

theorem buildExplanation_reconstructs {finalRank : Nat} {rerankScore : Option ℚ}
    {previousRank : Option Nat} {graphPath : Option (List Text)}
    (hfused : b.fused = recordedSum k { weights with recency := x } b)
    (hpos : ∀ r, b.recencyRank = some r → 0 < r) :
    Reconstructs { weights with recency := x } k b
        (buildExplanation finalRank b.fused (ranksOf weights b) k rerankScore
          previousRank graphPath)
      ↔ b.recencyRank = none ∨ x = weights.recency := by
  rw [← recordedSum_eq_iff hpos (k := k), ← hfused]
  constructor
  · intro h
    rw [← h.sum, contributions_sum, ranksOf_sum]
  · intro h
    have hlisted : ∀ f ∈ ranksOf { weights with recency := x } b,
        f.contribution k ≠ 0 →
        ∃ g ∈ ranksOf weights b, g.name = f.name ∧ g.contribution k ≠ 0 := by
      intro f hf hne
      rw [hfused, recordedSum_eq_iff hpos] at h
      rcases h with h | rfl
      · refine ⟨f, ?_, rfl, hne⟩
        unfold ranksOf at hf ⊢
        rw [h] at hf ⊢
        exact hf
      · exact ⟨f, hf, rfl, hne⟩
    refine ⟨?_, fun f hf hne => ?_, fun hne => ?_⟩
    · rw [contributions_sum, ranksOf_sum, h]
    · obtain ⟨g, hg, hname, hcounts⟩ := hlisted f hf hne
      exact hname ▸ listed _ _ _ _ _ _ _ hg hcounts
    · refine shares_sum _ _ _ _ _ _ _ ?_
      rw [ranksOf_sum, ← h]
      exact hne

theorem explanation_reconstructs {hit : MemoryHit} {rank : Nat}
    {previousRank : Option Nat}
    (hbest : bestChunk hit.matchedChunks = some c) (hb : c.breakdown = some b)
    (hfused : b.fused = recordedSum k { weights with recency := x } b)
    (hpos : ∀ r, b.recencyRank = some r → 0 < r) :
    Reconstructs { weights with recency := x } k b
        (explanation hit rank previousRank weights k)
      ↔ b.recencyRank = none ∨ x = weights.recency := by
  unfold explanation
  rw [hbest, Option.bind_some, hb]
  exact buildExplanation_reconstructs hfused hpos

theorem candidates_ranks (hmode : request.mode = .hybrid)
    (hc : candidates search db request intent = .ok chunks)
    (hin : c ∈ chunks) :
    ∃ b, c.breakdown = some b
      ∧ b.fused
        = recordedSum request.rrfK (weightsFor search intent) b
      ∧ (∀ r, b.recencyRank = some r → 0 < r)
      ∧ (b.recencyRank = none ↔ (weightsFor search intent).recency = 0
        ∨ c.chunkId ∉ (retrieved search db request intent).map
          (·.chunkId)) := by
  obtain ⟨c₀, hc₀, hkeep⟩ := mem_candidates hmode hc hin
  obtain ⟨b₀, hb₀, hfused, hpos, hrank⟩ := mem_hybrid hc₀
  obtain ⟨score, rank, stamp, applied, hb⟩ := hkeep.breakdown b₀ hb₀
  rw [hkeep.chunkId]
  exact ⟨_, hb, hfused, hpos, hrank⟩

/-- An explanation accounts for the score of the chunk that set its hit's
score exactly when recency counted as it is configured, or not at all. -/
theorem reconstructs_iff {search : SearchMemories} {db : Db}
    {request : SearchRequest} {intent : Option TemporalIntent}
    {result : SearchResult} (hmode : request.mode = .hybrid)
    (hcall : call search db request intent = .ok result) :
    (explainHits result.hits search.weights request.rrfK).map Prod.fst
        = result.hits
      ∧ ∀ hit e,
        (hit, e) ∈ explainHits result.hits search.weights request.rrfK →
        ∃ c b, bestChunk hit.matchedChunks = some c ∧ c.score = hit.score
          ∧ c.breakdown = some b
          ∧ (Reconstructs (weightsFor search intent) request.rrfK b e
            ↔ Accounted search db request intent c) := by
  constructor
  · unfold explainHits
    refine List.ext_getElem ?_ fun i _ _ => ?_
    · rw [List.length_map, List.length_mapIdx]
    · rw [List.getElem_map, List.getElem_mapIdx]
  · intro hit e he
    unfold explainHits at he
    obtain ⟨i, hi, hie⟩ := List.mem_mapIdx.1 he
    obtain ⟨hhit, rfl⟩ := Prod.mk.inj hie
    obtain ⟨chunks, hc, hhits⟩ := mem_call_hits hcall
    have hranked := List.mem_of_mem_take ((hhits hit).1
      (hhit ▸ List.getElem_mem hi))
    unfold ranked at hranked
    obtain ⟨id, hid, hof⟩ :=
      List.mem_filterMap.1 ((List.mem_insertionSort _).1 hranked)
    obtain ⟨c, hin, hbest, hscore⟩ := hitOf_best (List.mem_eraseDups.1 hid) hof
    obtain ⟨b, hb, hfused, hpos, hrank⟩ := candidates_ranks hmode hc hin
    refine ⟨c, b, hbest, hscore, hb, ?_⟩
    rw [hhit, accounted_iff, ← hrank, weightsFor_eq]
    rw [weightsFor_eq] at hfused
    exact explanation_reconstructs hbest hb hfused hpos

/-- For a search with no intent: it accounts for both of its hits. -/
theorem reconstructs_iff_live :
    ∃ result, call linkedNotes (twoNotes none) { query := ['q'] } none
        = .ok result
      ∧ result.hits.length = 2
      ∧ (explainHits result.hits linkedNotes.weights 60).map Prod.fst
        = result.hits
      ∧ ∀ hit e,
        (hit, e) ∈ explainHits result.hits linkedNotes.weights 60 →
        ∃ c b, bestChunk hit.matchedChunks = some c ∧ c.score = hit.score
          ∧ c.breakdown = some b
          ∧ (Reconstructs (weightsFor linkedNotes none) 60 b e
            ↔ Accounted linkedNotes (twoNotes none) { query := ['q'] } none
              c) := by
  refine ⟨_, rfl, by decide +kernel, ?_⟩
  exact @reconstructs_iff linkedNotes (twoNotes none) { query := ['q'] } none _
    rfl rfl

-- ------ example a recent note

/-- A query for something recent. -/
def recently : TemporalIntent where
  kind := .relative
  phrase := "recently"

/-- The explanation of a recent note does not know that recency counted. -/
theorem not_reconstructs :
    ¬ ∀ (search : SearchMemories) (db : Db) (request : SearchRequest)
      (intent : Option TemporalIntent) (result : SearchResult),
      request.mode = .hybrid → call search db request intent = .ok result →
      ∀ hit e,
        (hit, e) ∈ explainHits result.hits search.weights request.rrfK →
        ∃ c b, bestChunk hit.matchedChunks = some c ∧ c.score = hit.score
          ∧ c.breakdown = some b
          ∧ Reconstructs (weightsFor search intent) request.rrfK b e := by
  intro hall
  have hrun : (call linkedNotes (twoNotes none) { query := ['q'] }
      (some recently)).toOption.any (fun result =>
        (explainHits result.hits linkedNotes.weights 60).any fun p =>
          (bestChunk p.1.matchedChunks).any fun c => c.breakdown.any fun b =>
            decide ((p.2.contributions.map (·.contribution)).sum
              ≠ b.fused)) = true := by
    decide +kernel
  obtain ⟨result, hresult, hany⟩ := (Option.any_eq_true _ _).1 hrun
  obtain ⟨⟨hit, e⟩, he, hbad⟩ := List.any_eq_true.1 hany
  have hcall := Lib.ok_of_toOption hresult
  obtain ⟨c, b, hbest, -, hb, hrec⟩ := hall _ _ _ _ _ rfl hcall hit e he
  simp only [hbest, hb, Option.any_some, decide_eq_true_eq] at hbad
  exact hbad hrec.sum

end Search

end MemoryOS
