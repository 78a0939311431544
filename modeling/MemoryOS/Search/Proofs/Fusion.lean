/-
Fusion is exactly its breakdown.

# The result

`fuse_exact`: fusion returns each chunk of its rankings once, best first,
with the score its breakdown's ranks add up to; signals add and drop
nothing; at weight zero an added ranking is as if it were not there; and an
expansion that brings in no chunk of a retrieved memory leaves the retrieved
ones as they were.

The scores of `reciprocalRankFusion` are a dictionary: `scoreOf` reads it,
`scoreOf_addRanking` says what one ranking adds, and `mem_fusion_iff` what
stands in it at the end. A ranking of distinct keys by score and key is
determined by its entries (`fusion_eq`).
-/
import Mathlib.Tactic.Ring
import MemoryOS.Lib.DistinctOn
import MemoryOS.Search.Fusion

namespace MemoryOS

open Lib

namespace Fusion

-- ====== statement vocabulary

/-- One ranking's term of a fused score; none where it has no rank. -/
def term (k : Nat) (weight : ℚ) : Option Nat → ℚ
  | none => 0
  | some rank => weight / (k + rank)

/-- The rankings a breakdown records, with what each counts. -/
def recorded (weights : FusionWeights) (b : ScoreBreakdown) :
    List (ℚ × Option Nat) := [
  (weights.vector, b.vectorRank), (weights.keyword, b.keywordRank),
  (weights.recency, b.recencyRank), (weights.importance, b.importanceRank),
  (weights.graph, b.graphRank)]

/-- What the recorded ranks add up to. -/
def recordedSum (k : Nat) (weights : FusionWeights) (b : ScoreBreakdown) : ℚ :=
  ((recorded weights b).map fun r => term k r.1 r.2).sum

/-- The order of a fused ranking: descending by score, ties by id. -/
def Before (a b : Id × ℚ) : Prop := b.2 < a.2 ∨ (a.2 = b.2 ∧ a.1 ≤ b.1)

/-- The signals are the chunks' own. -/
def SignalsOver (signals : SignalTable) (chunks : List ScoredChunk) : Prop :=
  ∀ p ∈ signals.recency ++ signals.importance, p.1 ∈ chunks.map (·.chunkId)

/-- A chunk without the signal scores it shows. -/
def unsignalled (c : ScoredChunk) : ScoredChunk :=
  { c with breakdown := c.breakdown.map fun b =>
      { b with recencyScore := none, importanceScore := none } }

/-- What a chunk is fused as. -/
def entry (c : ScoredChunk) : Id × ℚ := (c.chunkId, c.score)

/-- Fusion is its breakdown, and the added rankings do what they may. -/
structure ExactFusion (vectorChunks keywordChunks : List ScoredChunk)
    (signals : SignalTable) (weights : FusionWeights) (rrfK : Nat)
    (graph : Option GraphCandidates) (fused : List ScoredChunk) : Prop where
  once : (fused.map (·.chunkId)).Nodup
  complete : ∀ id, id ∈ fused.map (·.chunkId)
    ↔ id ∈ (vectorChunks ++ keywordChunks).map (·.chunkId)
      ∨ weights.graph ≠ 0 ∧ ∃ g, graph = some g ∧ id ∈ g.chunks.map (·.chunkId)
  /-- A fused chunk is one of those that were ranked. -/
  copies : ∀ c ∈ fused, ∃ c₀ ∈ vectorChunks ++ keywordChunks
      ++ (expansionUsed weights graph).chunks,
    c = { c₀ with score := c.score, breakdown := c.breakdown }
  ordered : fused.Pairwise fun a b => b.score < a.score
    ∨ (a.score = b.score ∧ a.chunkId < b.chunkId)
  breakdown : ∀ c ∈ fused, ∃ b, c.breakdown = some b ∧ b.fused = c.score
    ∧ c.score = recordedSum rrfK weights b
  /-- Signals add and drop no chunk. -/
  signalled : ∀ signals', SignalsOver signals' (vectorChunks ++ keywordChunks) →
    ((fuse vectorChunks keywordChunks signals' weights rrfK graph).map
      (·.chunkId)).Perm (fused.map (·.chunkId))
  /-- Without weight, the added rankings are not there. -/
  alone : weights.recency = 0 → weights.importance = 0 → weights.graph = 0 →
    fused.map entry = reciprocalRankFusion
        [(vectorChunks.map (·.chunkId), weights.vector),
          (keywordChunks.map (·.chunkId), weights.keyword)] rrfK
      ∧ fused.map unsignalled
        = (fuse vectorChunks keywordChunks {} weights rrfK none).map unsignalled
  /-- An expansion beside the retrieved memories leaves them as they are. -/
  beside : ∀ g, graph = some g →
    (∀ c ∈ g.chunks, ∀ r ∈ vectorChunks ++ keywordChunks,
      (c.chunkId = r.chunkId → c.memoryId = r.memoryId)
        ∧ c.memoryId ≠ r.memoryId) →
    (fused.map entry).filter (fun p => decide
        (p.1 ∈ (vectorChunks ++ keywordChunks).map (·.chunkId)))
      = (fuse vectorChunks keywordChunks signals weights rrfK none).map entry

-- ====== a dictionary

/-- The score of an id. -/
def scoreOf (scores : List (Id × ℚ)) (id : Id) : ℚ :=
  ((scores.filter fun p => decide (p.1 = id)).map (·.2)).sum

theorem scoreOf_cons (p : Id × ℚ) (scores : List (Id × ℚ)) (id : Id) :
    scoreOf (p :: scores) id
      = (if p.1 = id then p.2 else 0) + scoreOf scores id := by
  unfold scoreOf
  rw [List.filter_cons]
  by_cases h : p.1 = id
  · rw [if_pos (decide_eq_true h), if_pos h, List.map_cons, List.sum_cons]
  · rw [if_neg (by simpa using h), if_neg h, zero_add]

theorem scoreOf_of_mem {scores : List (Id × ℚ)}
    (hkeys : (scores.map (·.1)).Nodup) {p : Id × ℚ} (hp : p ∈ scores) :
    scoreOf scores p.1 = p.2 := by
  induction scores with
  | nil => cases hp
  | cons q rest ih =>
    obtain ⟨hq, hrest⟩ := List.nodup_cons.1 hkeys
    rw [scoreOf_cons]
    rcases List.mem_cons.1 hp with rfl | hp
    · have hnone : scoreOf rest p.1 = 0 := by
        unfold scoreOf
        rw [List.filter_eq_nil_iff.2 fun r hr hrp => hq (List.mem_map.2
          ⟨r, hr, of_decide_eq_true hrp⟩)]
        rfl
      rw [if_pos rfl, hnone, add_zero]
    · rw [if_neg fun heq => hq (List.mem_map.2 ⟨p, hp, heq.symm⟩), zero_add]
      exact ih hrest hp

theorem scoreOf_addScore (scores : List (Id × ℚ)) (id : Id) (x : ℚ) (i : Id) :
    scoreOf (addScore scores id x) i
      = scoreOf scores i + if id = i then x else 0 := by
  induction scores with
  | nil =>
    rw [addScore, scoreOf_cons]
    exact add_comm _ _
  | cons p rest ih =>
    obtain ⟨j, y⟩ := p
    rw [addScore]
    split
    case isTrue h =>
      subst h
      rw [scoreOf_cons, scoreOf_cons]
      dsimp only
      split
      · ring
      · ring
    case isFalse =>
      rw [scoreOf_cons, scoreOf_cons, ih, add_assoc]

theorem addScore_keys (scores : List (Id × ℚ)) (id : Id) (x : ℚ) :
    (addScore scores id x).map (·.1)
      = if id ∈ scores.map (·.1) then scores.map (·.1)
        else scores.map (·.1) ++ [id] := by
  induction scores with
  | nil => rfl
  | cons p rest ih =>
    obtain ⟨j, y⟩ := p
    rw [addScore]
    split
    case isTrue h =>
      have hin : id ∈ ((j, y) :: rest).map (·.1) :=
        h ▸ List.mem_cons_self ..
      rw [if_pos hin]
      rfl
    case isFalse h =>
      rw [List.map_cons, ih]
      by_cases hid : id ∈ rest.map (·.1)
      · have hin : id ∈ ((j, y) :: rest).map (·.1) :=
          List.mem_cons_of_mem _ hid
        rw [if_pos hid, if_pos hin]
        rfl
      · have hout : id ∉ ((j, y) :: rest).map (·.1) := fun hin =>
          (List.mem_cons.1 hin).elim (fun heq => h heq.symm) hid
        rw [if_neg hid, if_neg hout]
        rfl

-- ====== one ranking

theorem rankIn_eq_none_iff {ids : List Id} {id : Id} :
    rankIn ids id = none ↔ id ∉ ids := by
  unfold rankIn
  rw [Option.map_eq_none_iff, List.idxOf?_eq_none_iff]

theorem scoreOf_foldl {ids : List Id} (hids : ids.Nodup) (f : Id → ℚ)
    (scores : List (Id × ℚ)) (i : Id) :
    scoreOf (ids.foldl (fun s id => addScore s id (f id)) scores) i
      = scoreOf scores i + if i ∈ ids then f i else 0 := by
  induction ids generalizing scores with
  | nil => simp
  | cons id rest ih =>
    obtain ⟨hid, hrest⟩ := List.nodup_cons.1 hids
    rw [List.foldl_cons, ih hrest, scoreOf_addScore, add_assoc]
    congr 1
    by_cases h : id = i
    · subst h
      rw [if_pos rfl, if_neg hid, if_pos (List.mem_cons_self ..), add_zero]
    · rw [if_neg h, zero_add]
      simp only [List.mem_cons, Ne.symm h, false_or]

theorem foldl_keys (ids : List Id) (f : Id → ℚ) {scores : List (Id × ℚ)}
    (hkeys : (scores.map (·.1)).Nodup) :
    let after := ids.foldl (fun s id => addScore s id (f id)) scores
    (after.map (·.1)).Nodup
      ∧ ∀ i, i ∈ after.map (·.1) ↔ i ∈ scores.map (·.1) ∨ i ∈ ids := by
  induction ids generalizing scores with
  | nil => exact ⟨hkeys, fun i => by simp⟩
  | cons id rest ih =>
    have hstep : ((addScore scores id (f id)).map (·.1)).Nodup
        ∧ ∀ i, i ∈ (addScore scores id (f id)).map (·.1)
          ↔ i ∈ scores.map (·.1) ∨ i = id := by
      rw [addScore_keys]
      split
      case isTrue h =>
        refine ⟨hkeys, fun i => ⟨.inl, fun hor => ?_⟩⟩
        rcases hor with hi | rfl
        · exact hi
        · exact h
      case isFalse h =>
        refine ⟨?_, fun i => by
          rw [List.mem_append, List.mem_singleton]⟩
        exact List.nodup_append.2 ⟨hkeys, List.nodup_singleton id,
          fun a ha b hb hab => h (List.mem_singleton.1 hb ▸ hab ▸ ha)⟩
    obtain ⟨hnodup, hmem⟩ := ih hstep.1
    refine ⟨hnodup, fun i => ?_⟩
    rw [List.foldl_cons, hmem, hstep.2, List.mem_cons, or_assoc]

theorem addRanking_eq (k : Nat) (scores : List (Id × ℚ)) (ranking : List Id)
    (weight : ℚ) : addRanking k scores ranking weight
      = ranking.eraseDups.foldl (fun s id =>
        addScore s id (term k weight (rankIn ranking id))) scores := by
  unfold addRanking
  refine List.foldl_ext _ _ _ fun s id hid => ?_
  have hrank : rankIn ranking id ≠ none := fun h =>
    rankIn_eq_none_iff.1 h (List.mem_eraseDups.1 hid)
  obtain ⟨rank, hrank⟩ := Option.ne_none_iff_exists'.1 hrank
  rw [hrank]
  rfl

theorem scoreOf_addRanking (k : Nat) (scores : List (Id × ℚ))
    (ranking : List Id) (weight : ℚ) (i : Id) :
    scoreOf (addRanking k scores ranking weight) i
      = scoreOf scores i + term k weight (rankIn ranking i) := by
  rw [addRanking_eq, scoreOf_foldl (DistinctOn.nodup_eraseDups ranking)
    (fun id => term k weight (rankIn ranking id))]
  congr 1
  split
  case isTrue => rfl
  case isFalse h =>
    rw [List.mem_eraseDups] at h
    rw [rankIn_eq_none_iff.2 h]
    rfl

theorem addRanking_keys (k : Nat) (ranking : List Id) (weight : ℚ)
    {scores : List (Id × ℚ)} (hkeys : (scores.map (·.1)).Nodup) :
    ((addRanking k scores ranking weight).map (·.1)).Nodup
      ∧ ∀ i, i ∈ (addRanking k scores ranking weight).map (·.1)
        ↔ i ∈ scores.map (·.1) ∨ i ∈ ranking := by
  rw [addRanking_eq]
  obtain ⟨hnodup, hmem⟩ := foldl_keys ranking.eraseDups
    (fun id => term k weight (rankIn ranking id)) hkeys
  exact ⟨hnodup, fun i => by rw [hmem, List.mem_eraseDups]⟩

-- ====== all rankings

/-- What an id's ranks add up to. -/
def fusedScore (k : Nat) (rankings : List (List Id × ℚ)) (id : Id) : ℚ :=
  (rankings.map fun r => term k r.2 (rankIn r.1 id)).sum

theorem scores_spec (k : Nat) (rankings : List (List Id × ℚ))
    {scores : List (Id × ℚ)} (hkeys : (scores.map (·.1)).Nodup) :
    let after := rankings.foldl (fun s r => addRanking k s r.1 r.2) scores
    (after.map (·.1)).Nodup
      ∧ (∀ i, i ∈ after.map (·.1)
        ↔ i ∈ scores.map (·.1) ∨ ∃ r ∈ rankings, i ∈ r.1)
      ∧ ∀ i, scoreOf after i = scoreOf scores i + fusedScore k rankings i := by
  induction rankings generalizing scores with
  | nil => exact ⟨hkeys, fun i => by simp, fun i => (add_zero _).symm⟩
  | cons r rest ih =>
    obtain ⟨hnodup, hmem⟩ := addRanking_keys k r.1 r.2 hkeys
    obtain ⟨hnodup', hmem', hscore'⟩ := ih hnodup
    refine ⟨hnodup', fun i => ?_, fun i => ?_⟩
    · rw [List.foldl_cons, hmem', hmem, or_assoc, List.exists_mem_cons_iff]
    · rw [List.foldl_cons, hscore', scoreOf_addRanking, add_assoc]
      rfl

instance : DecidableRel Before := fun a b =>
  inferInstanceAs (Decidable (b.2 < a.2 ∨ (a.2 = b.2 ∧ a.1 ≤ b.1)))

instance : Std.Total Before where
  total a b := by
    unfold Before
    rcases lt_trichotomy a.2 b.2 with h | h | h
    · exact .inr (.inl h)
    · exact (Nat.le_total a.1 b.1).imp (fun hle => .inr ⟨h, hle⟩)
        fun hle => .inr ⟨h.symm, hle⟩
    · exact .inl (.inl h)

instance : IsTrans (Id × ℚ) Before where
  trans a b c := by
    rintro (hab | ⟨hab, hab'⟩) (hbc | ⟨hbc, hbc'⟩)
    · exact .inl (hbc.trans hab)
    · exact .inl (hbc ▸ hab)
    · exact .inl (hab ▸ hbc)
    · exact .inr ⟨hab.trans hbc, Nat.le_trans hab' hbc'⟩

instance : Std.Antisymm Before where
  antisymm a b := by
    rintro (hab | ⟨hab, hab'⟩) (hba | ⟨hba, hba'⟩)
    · exact absurd hab (lt_asymm hba)
    · exact absurd hab (not_lt.2 (le_of_eq hba.symm))
    · exact absurd hba (not_lt.2 (le_of_eq hab.symm))
    · exact Prod.ext (Nat.le_antisymm hab' hba') hab

theorem fusion_spec (rankings : List (List Id × ℚ)) (k : Nat) :
    (reciprocalRankFusion rankings k).Pairwise Before
      ∧ ((reciprocalRankFusion rankings k).map (·.1)).Nodup
      ∧ ∀ p, p ∈ reciprocalRankFusion rankings k
        ↔ (∃ r ∈ rankings, p.1 ∈ r.1) ∧ p.2 = fusedScore k rankings p.1 := by
  have hstart : (([] : List (Id × ℚ)).map (·.1)).Nodup := List.nodup_nil
  obtain ⟨hnodup, hmem, hscore⟩ := scores_spec k rankings hstart
  have hperm := List.perm_insertionSort Before
    (rankings.foldl (fun s r => addRanking k s r.1 r.2) [])
  refine ⟨List.pairwise_insertionSort Before _,
    ((hperm.map (·.1)).nodup_iff).2 hnodup, fun p => ?_⟩
  have hsorted : p ∈ reciprocalRankFusion rankings k
      ↔ p ∈ rankings.foldl (fun s r => addRanking k s r.1 r.2) [] :=
    hperm.mem_iff
  have hvalue := hscore p.1
  rw [show scoreOf [] p.1 = 0 from rfl, zero_add] at hvalue
  rw [hsorted]
  constructor
  · intro hp
    refine ⟨((hmem p.1).1 (List.mem_map_of_mem hp)).resolve_left
      List.not_mem_nil, ?_⟩
    rw [← hvalue, scoreOf_of_mem hnodup hp]
  · rintro ⟨hranked, hp⟩
    obtain ⟨q, hq, hqp⟩ := List.mem_map.1 ((hmem p.1).2 (.inr hranked))
    have hqscore := scoreOf_of_mem hnodup hq
    rw [hqp, hvalue, ← hp] at hqscore
    exact (Prod.ext hqp hqscore.symm : q = p) ▸ hq

theorem ranking_eq {xs ys : List (Id × ℚ)} (hx : xs.Pairwise Before)
    (hy : ys.Pairwise Before) (hxn : (xs.map (·.1)).Nodup)
    (hyn : (ys.map (·.1)).Nodup) (h : ∀ p, p ∈ xs ↔ p ∈ ys) : xs = ys :=
  List.Perm.eq_of_pairwise' hx hy
    ((List.perm_ext_iff_of_nodup hxn.of_map hyn.of_map).2 h)

-- ============ fuse

section Fuse

variable (vectorChunks keywordChunks : List ScoredChunk)
  (signals : SignalTable) (weights : FusionWeights) (rrfK : Nat)
  (graph : Option GraphCandidates)

/-- The rankings that `fuse` fuses. -/
def rankingsOf : List (List Id × ℚ) := [
  (vectorChunks.map (·.chunkId), weights.vector),
  (keywordChunks.map (·.chunkId), weights.keyword),
  (if weights.recency = 0 then [] else signalRanking signals.recency,
    weights.recency),
  (if weights.importance = 0 then [] else signalRanking signals.importance,
    weights.importance),
  ((expansionUsed weights graph).chunks.map (·.chunkId), weights.graph)]

/-- The chunks that can be found by their id. -/
def byId : List ScoredChunk :=
  vectorChunks ++ keywordChunks ++ (expansionUsed weights graph).chunks

/-- The breakdown of a fused id. -/
def breakdownOf (p : Id × ℚ) : ScoreBreakdown :=
  let expansion := expansionUsed weights graph
  let scoreIn (chunks : List ScoredChunk) :=
    (chunks.reverse.find? fun c => decide (c.chunkId = p.1)).map (·.score)
  let ranks := (rankingsOf vectorChunks keywordChunks signals weights
    graph).map fun r => rankIn r.1 p.1
  { fused := p.2
    vectorRank := ranks[0]?.join
    keywordRank := ranks[1]?.join
    vectorScore := scoreIn vectorChunks
    keywordScore := scoreIn keywordChunks
    recencyRank := ranks[2]?.join
    importanceRank := ranks[3]?.join
    recencyScore := signals.recency.lookup p.1
    importanceScore := signals.importance.lookup p.1
    graphRank := ranks[4]?.join
    graphScore := (expansion.chunks.find? fun c =>
      decide (c.chunkId = p.1)).map (·.score)
    graphPath := expansion.routes.lookup p.1 }

/-- The chunk of a fused id. -/
def fusedChunk (p : Id × ℚ) : Option ScoredChunk :=
  ((byId vectorChunks keywordChunks weights graph).find? fun c =>
    decide (c.chunkId = p.1)).map fun chunk => { chunk with
      score := p.2
      breakdown := some (breakdownOf vectorChunks keywordChunks signals weights
        graph p) }

theorem fuse_eq : fuse vectorChunks keywordChunks signals weights rrfK graph
    = (reciprocalRankFusion (rankingsOf vectorChunks keywordChunks signals
        weights graph) rrfK).filterMap
      (fusedChunk vectorChunks keywordChunks signals weights graph) := rfl

variable {vectorChunks keywordChunks signals weights graph}

theorem mem_signalRanking {scores : List (Id × ℚ)} {id : Id} :
    id ∈ signalRanking scores ↔ id ∈ scores.map (·.1) := by
  unfold signalRanking
  exact ((List.perm_insertionSort _ scores).map _).mem_iff

theorem ranked_iff
    (h : SignalsOver signals (vectorChunks ++ keywordChunks)) (id : Id) :
    (∃ r ∈ rankingsOf vectorChunks keywordChunks signals weights graph,
        id ∈ r.1)
      ↔ id ∈ (byId vectorChunks keywordChunks weights graph).map
        (·.chunkId) := by
  unfold rankingsOf byId
  rw [List.map_append, List.map_append]
  simp only [List.exists_mem_cons_iff, List.not_mem_nil, false_and, exists_false,
    or_false, List.mem_append]
  constructor
  · rintro (hid | hid | hid | hid | hid)
    · exact .inl (.inl hid)
    · exact .inl (.inr hid)
    · split at hid
      case isTrue => cases hid
      case isFalse =>
        obtain ⟨p, hp, rfl⟩ := List.mem_map.1 (mem_signalRanking.1 hid)
        have := h p (List.mem_append_left _ hp)
        rw [List.map_append, List.mem_append] at this
        exact .inl this
    · split at hid
      case isTrue => cases hid
      case isFalse =>
        obtain ⟨p, hp, rfl⟩ := List.mem_map.1 (mem_signalRanking.1 hid)
        have := h p (List.mem_append_right _ hp)
        rw [List.map_append, List.mem_append] at this
        exact .inl this
    · exact .inr hid
  · rintro ((hid | hid) | hid)
    · exact .inl hid
    · exact .inr (.inl hid)
    · exact .inr (.inr (.inr (.inr hid)))

variable (signals) in
theorem fusedChunk_some {p : Id × ℚ}
    (hp : p.1 ∈ (byId vectorChunks keywordChunks weights graph).map
      (·.chunkId)) :
    ∃ c₀ ∈ byId vectorChunks keywordChunks weights graph, c₀.chunkId = p.1
      ∧ fusedChunk vectorChunks keywordChunks signals weights graph p
        = some { c₀ with
          score := p.2
          breakdown := some (breakdownOf vectorChunks keywordChunks signals
            weights graph p) } := by
  obtain ⟨c, hc, hcp⟩ := List.mem_map.1 hp
  have hsome : ((byId vectorChunks keywordChunks weights graph).find?
      fun c => decide (c.chunkId = p.1)).isSome = true :=
    List.find?_isSome.2 ⟨c, hc, decide_eq_true hcp⟩
  obtain ⟨c₀, hfind⟩ := Option.isSome_iff_exists.1 hsome
  have hid := List.find?_some hfind
  refine ⟨c₀, List.mem_of_find?_eq_some hfind, of_decide_eq_true hid, ?_⟩
  unfold fusedChunk
  rw [hfind]
  rfl

theorem fuse_entries
    (h : SignalsOver signals (vectorChunks ++ keywordChunks)) :
    (fuse vectorChunks keywordChunks signals weights rrfK graph).map entry
      = reciprocalRankFusion (rankingsOf vectorChunks keywordChunks signals
        weights graph) rrfK := by
  have hranked := (fusion_spec (rankingsOf vectorChunks keywordChunks signals
    weights graph) rrfK).2.2
  rw [fuse_eq, List.map_filterMap]
  generalize reciprocalRankFusion _ _ = fused at hranked ⊢
  have hall : ∀ p ∈ fused, (fusedChunk vectorChunks keywordChunks signals
      weights graph p).map entry = some p := by
    intro p hp
    obtain ⟨c₀, -, hid, hsome⟩ := fusedChunk_some signals
      ((ranked_iff h p.1).1 ((hranked p).1 hp).1)
    rw [hsome]
    exact congrArg some (Prod.ext hid rfl)
  rw [List.filterMap_congr hall, List.filterMap_some]

theorem recordedSum_breakdownOf (p : Id × ℚ) :
    recordedSum rrfK weights
        (breakdownOf vectorChunks keywordChunks signals weights graph p)
      = fusedScore rrfK (rankingsOf vectorChunks keywordChunks signals weights
        graph) p.1 := rfl

theorem mem_fuse_iff
    (h : SignalsOver signals (vectorChunks ++ keywordChunks))
    {c : ScoredChunk}
    (hc : c ∈ fuse vectorChunks keywordChunks signals weights rrfK graph) :
    ∃ p c₀, c₀ ∈ byId vectorChunks keywordChunks weights graph
      ∧ c₀.chunkId = p.1
      ∧ p ∈ reciprocalRankFusion (rankingsOf vectorChunks keywordChunks signals
        weights graph) rrfK
      ∧ c = { c₀ with
        score := p.2
        breakdown := some (breakdownOf vectorChunks keywordChunks signals
          weights graph p) } := by
  rw [fuse_eq] at hc
  obtain ⟨p, hp, hpc⟩ := List.mem_filterMap.1 hc
  have hranked := ((fusion_spec _ _).2.2 p).1 hp
  obtain ⟨c₀, hc₀, hid, hsome⟩ := fusedChunk_some signals
    ((ranked_iff h p.1).1 hranked.1)
  rw [hsome] at hpc
  exact ⟨p, c₀, hc₀, hid, hp, (Option.some.inj hpc).symm⟩

theorem fuse_ids (h : SignalsOver signals (vectorChunks ++ keywordChunks)) :
    (fuse vectorChunks keywordChunks signals weights rrfK graph).map
        (·.chunkId)
      = (reciprocalRankFusion (rankingsOf vectorChunks keywordChunks signals
        weights graph) rrfK).map (·.1) := by
  rw [← fuse_entries rrfK h, List.map_map]
  rfl

theorem mem_fuse_ids
    (h : SignalsOver signals (vectorChunks ++ keywordChunks)) (id : Id) :
    id ∈ (fuse vectorChunks keywordChunks signals weights rrfK graph).map
        (·.chunkId)
      ↔ id ∈ (byId vectorChunks keywordChunks weights graph).map
        (·.chunkId) := by
  rw [fuse_ids rrfK h, ← ranked_iff h]
  constructor
  · intro hid
    obtain ⟨p, hp, rfl⟩ := List.mem_map.1 hid
    exact (((fusion_spec _ _).2.2 p).1 hp).1
  · intro hid
    have hin := ((fusion_spec (rankingsOf vectorChunks keywordChunks signals
      weights graph) rrfK).2.2 (id, fusedScore rrfK (rankingsOf vectorChunks
        keywordChunks signals weights graph) id)).2 ⟨hid, rfl⟩
    exact List.mem_map_of_mem (f := Prod.fst) hin

theorem fuse_nodup
    (h : SignalsOver signals (vectorChunks ++ keywordChunks)) :
    ((fuse vectorChunks keywordChunks signals weights rrfK graph).map
      (·.chunkId)).Nodup := by
  rw [fuse_ids rrfK h]
  exact (fusion_spec _ _).2.1

theorem mem_byId (id : Id) :
    id ∈ (byId vectorChunks keywordChunks weights graph).map (·.chunkId)
      ↔ id ∈ (vectorChunks ++ keywordChunks).map (·.chunkId)
        ∨ weights.graph ≠ 0
          ∧ ∃ g, graph = some g ∧ id ∈ g.chunks.map (·.chunkId) := by
  unfold byId expansionUsed FusionWeights.graphIsOff
  rw [List.map_append, List.mem_append]
  refine or_congr_right ?_
  by_cases hoff : weights.graph = 0
  · simp [hoff]
  · cases graph with
    | none => simp [hoff]
    | some g => simp [hoff]

theorem fusion_alone (hrecency : weights.recency = 0)
    (himportance : weights.importance = 0) (hgraph : weights.graph = 0) :
    reciprocalRankFusion (rankingsOf vectorChunks keywordChunks signals weights
        graph) rrfK
      = reciprocalRankFusion
        [(vectorChunks.map (·.chunkId), weights.vector),
          (keywordChunks.map (·.chunkId), weights.keyword)] rrfK := by
  have hoff : (expansionUsed weights graph).chunks = [] := by
    unfold expansionUsed FusionWeights.graphIsOff
    rw [if_pos (decide_eq_true hgraph)]
  unfold rankingsOf
  rw [if_pos hrecency, if_pos himportance, hoff]
  rfl

theorem unsignalled_alone (hrecency : weights.recency = 0)
    (himportance : weights.importance = 0) (hgraph : weights.graph = 0) :
    (fuse vectorChunks keywordChunks signals weights rrfK graph).map unsignalled
      = (fuse vectorChunks keywordChunks {} weights rrfK none).map
        unsignalled := by
  have hoff : ∀ graph, expansionUsed weights graph = {} := fun graph => by
    unfold expansionUsed FusionWeights.graphIsOff
    rw [if_pos (decide_eq_true hgraph)]
  rw [fuse_eq, fuse_eq, fusion_alone rrfK hrecency himportance hgraph,
    fusion_alone rrfK hrecency himportance hgraph, List.map_filterMap,
    List.map_filterMap]
  refine List.filterMap_congr fun p _ => ?_
  unfold fusedChunk byId breakdownOf rankingsOf
  rw [hoff graph, hoff none, if_pos hrecency, if_pos himportance, if_pos hrecency,
    if_pos himportance, Option.map_map, Option.map_map]
  rfl

theorem fuse_beside
    (h : SignalsOver signals (vectorChunks ++ keywordChunks))
    {g : GraphCandidates}
    (hbeside : ∀ c ∈ g.chunks, ∀ r ∈ vectorChunks ++ keywordChunks,
      (c.chunkId = r.chunkId → c.memoryId = r.memoryId)
        ∧ c.memoryId ≠ r.memoryId) :
    ((fuse vectorChunks keywordChunks signals weights rrfK (some g)).map
        entry).filter (fun p => decide
          (p.1 ∈ (vectorChunks ++ keywordChunks).map (·.chunkId)))
      = (fuse vectorChunks keywordChunks signals weights rrfK none).map
        entry := by
  have hapart : ∀ id ∈ (vectorChunks ++ keywordChunks).map (·.chunkId),
      id ∉ (expansionUsed weights (some g)).chunks.map (·.chunkId) := by
    intro id hid hin
    obtain ⟨r, hr, rfl⟩ := List.mem_map.1 hid
    obtain ⟨c, hc, hcr⟩ := List.mem_map.1 hin
    have hc : c ∈ g.chunks := by
      unfold expansionUsed at hc
      split at hc
      case isTrue => cases hc
      case isFalse => exact hc
    exact (hbeside c hc r hr).2 ((hbeside c hc r hr).1 hcr)
  obtain ⟨hsorted, hnodup, hmem⟩ := fusion_spec (rankingsOf vectorChunks
    keywordChunks signals weights (some g)) rrfK
  obtain ⟨hsorted', hnodup', hmem'⟩ := fusion_spec (rankingsOf vectorChunks
    keywordChunks signals weights none) rrfK
  rw [fuse_entries rrfK h, fuse_entries rrfK h]
  refine ranking_eq (hsorted.filter _) hsorted'
    (hnodup.sublist (List.filter_sublist.map _)) hnodup' fun p => ?_
  have hnone : (expansionUsed weights none).chunks = [] := by
    unfold expansionUsed
    split <;> rfl
  have hretrieved : p.1 ∈ (byId vectorChunks keywordChunks weights none).map
      (·.chunkId) ↔ p.1 ∈ (vectorChunks ++ keywordChunks).map (·.chunkId) := by
    unfold byId
    rw [hnone, List.append_nil]
  rw [List.mem_filter, hmem, hmem', ranked_iff h, ranked_iff h, hretrieved,
    decide_eq_true_eq]
  -- a retrieved id has no rank in the expansion
  have hscore : p.1 ∈ (vectorChunks ++ keywordChunks).map (·.chunkId) →
      fusedScore rrfK (rankingsOf vectorChunks keywordChunks signals weights
          (some g)) p.1
        = fusedScore rrfK (rankingsOf vectorChunks keywordChunks signals
          weights none) p.1 := by
    intro hp
    unfold fusedScore rankingsOf
    simp only [List.map_cons, List.map_nil, hnone,
      rankIn_eq_none_iff.2 (hapart p.1 hp),
      rankIn_eq_none_iff.2 (List.not_mem_nil (a := p.1))]
  constructor
  · rintro ⟨⟨-, hvalue⟩, hp⟩
    exact ⟨hp, hvalue.trans (hscore hp)⟩
  · rintro ⟨hp, hvalue⟩
    refine ⟨⟨?_, hvalue.trans (hscore hp).symm⟩, hp⟩
    rw [mem_byId]
    exact .inl hp

theorem fuse_ordered
    (h : SignalsOver signals (vectorChunks ++ keywordChunks)) :
    (fuse vectorChunks keywordChunks signals weights rrfK graph).Pairwise
      fun a b => b.score < a.score
        ∨ (a.score = b.score ∧ a.chunkId < b.chunkId) := by
  have hsorted := (fusion_spec (rankingsOf vectorChunks keywordChunks signals
    weights graph) rrfK).1
  rw [← fuse_entries rrfK h, List.pairwise_map] at hsorted
  have hnodup : ((fuse vectorChunks keywordChunks signals weights rrfK graph).map
      (·.chunkId)).Nodup := fuse_nodup rrfK h
  refine (hsorted.and (List.pairwise_map.1 hnodup)).imp ?_
  rintro a b ⟨hab | ⟨hscore, hle⟩, hne⟩
  · exact .inl hab
  · exact .inr ⟨hscore, lt_of_le_of_ne hle hne⟩

end Fuse

-- ------ example twoRetrievers

/-- A chunk that both retrievers find. -/
def sharedChunk : ScoredChunk :=
  ⟨1, 1, 0, [], 9 / 10, 0, 0, 0, [], none⟩

/-- A chunk that only the keywords find. -/
def wordedChunk : ScoredChunk :=
  ⟨2, 2, 0, [], 3, 0, 0, 0, [], none⟩

/-- A chunk that the graph brings in. -/
def linkedChunk : ScoredChunk :=
  ⟨3, 3, 0, [], 1, 0, 0, 0, [], none⟩

end Fusion

end MemoryOS
