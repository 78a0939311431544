/-
When the tuning grid measures the search it tunes (`application/tuning.py`).

# The result

`grid_measures`: every combination of the grid has a row when there are
queries, and its metrics are the means that an evaluation of the real search
under these weights reports, for every golden set whose queries of one text
agree and are steady: the words of a query change neither what is searched nor
how, the wider search that the exclusions ask for has the same candidates, and
one widening is enough.

The candidates are gathered once, and fused under the row's weights they are
what the search fuses (`fuse_candidates`). Grouped by the metadata that was
gathered they are its ranking (`group_eq`), and the intent's stamp is on no part
of a hit that is scored (`map_stamp`). The first kept hits of the ranking are
then what is kept of the widened search too (`kept_searched`).
-/
import MemoryOS.Search.Proofs.Filters
import MemoryOS.Search.Proofs.Golden
import MemoryOS.Search.Tuning

namespace MemoryOS.Tuning

open Filters Fusion Golden

-- ====== statement vocabulary

/-- A search under these weights. -/
def weighted (search : SearchMemories) (weights : FusionWeights) :
    SearchMemories :=
  { search with weights := weights }

/-- The ranking of all candidates that are gathered for a cutoff. -/
def pool (search : SearchMemories) (db : Db) (query : GoldenQuery) (k : Nat) :
    List Hit :=
  (Search.ranked db (Search.hybrid search db (requestOf db query k)
    (resolveFilters db query.filters) search.weights)).map scoredHit

/-- A query's words change neither what is searched nor how, the wider search
that its exclusions ask for finds the same candidates, and one widening is
enough. -/
structure Steady (search : SearchMemories) (db : Db)
    (parse : Text → Option TemporalIntent) (exclude : List String) (k : Nat)
    (query : GoldenQuery) : Prop where
  filters : (effective (resolveFilters db query.filters)
    (parse query.queryText.toList)).1 = resolveFilters db query.filters
  weights : Search.weightsFor search (parse query.queryText.toList)
    = search.weights
  ordering : (parse query.queryText.toList).bind (·.ordering) = none
  legs : Search.legs search db
      (requestOf db query (k + dropped exclude k (pool search db query k)))
      (resolveFilters db query.filters)
    = Search.legs search db (requestOf db query k)
      (resolveFilters db query.filters)
  widened : WidenedEnough exclude k (pool search db query k)

/-- A row's metrics are the means that an evaluation reports. -/
structure Measures {K : Type} [Field K] (row : GridRow K)
    (runs : List (QueryRun K)) : Prop where
  recall_ : row.recall_ = mean (runs.map (·.result.recall_))
  precision : row.precision = mean (runs.map (·.result.precision))
  mrr : row.mrr = mean (runs.map (·.result.mrr))
  ndcg : row.ndcg = mean (runs.map (·.result.ndcg))

-- ====== the intent's stamp

section
variable {db : Db} {chunks matched : List ScoredChunk}
  {f : ScoredChunk → ScoredChunk}

/-- A change that leaves alone what hits are made of. -/
structure Unscored (f : ScoredChunk → ScoredChunk) : Prop where
  memoryId : ∀ c, (f c).memoryId = c.memoryId
  ordinal : ∀ c, (f c).ordinal = c.ordinal
  score : ∀ c, (f c).score = c.score

/-- A hit with changed chunks. -/
def changed (f : ScoredChunk → ScoredChunk) (hit : MemoryHit) : MemoryHit :=
  { hit with matchedChunks := hit.matchedChunks.map f }

theorem maxScore_map (hf : Unscored f) :
    Search.maxScore (matched.map f) = Search.maxScore matched := by
  cases matched with
  | nil => rfl
  | cons c rest =>
    rw [List.map_cons, Search.maxScore, Search.maxScore, List.foldl_map,
      hf.score c]
    simp only [hf.score]

theorem ranking_changed (hf : Unscored f) (hit : MemoryHit) :
    Search.ranking (changed f hit) = Search.ranking hit := by
  unfold Search.ranking changed
  simp only [List.map_map, List.length_map, Function.comp_def, hf.score]

theorem hitOf_map (hf : Unscored f) (memoryId : Id) :
    Search.hitOf db (chunks.map f) memoryId
      = (Search.hitOf db chunks memoryId).map (changed f) := by
  have hfilter : (chunks.map f).filter (fun c => decide (c.memoryId = memoryId))
      = (chunks.filter fun c => decide (c.memoryId = memoryId)).map f := by
    rw [List.filter_map]
    simp only [Function.comp_def, hf.memoryId]
  have hsort : ∀ l : List ScoredChunk,
      (l.map f).insertionSort (fun a b => a.ordinal ≤ b.ordinal)
        = (l.insertionSort fun a b => a.ordinal ≤ b.ordinal).map f := by
    intro l
    symm
    apply List.map_insertionSort
    intro a _ b _
    rw [hf.ordinal, hf.ordinal]
  unfold Search.hitOf
  simp only [hfilter, maxScore_map hf, hsort]
  cases db.memory memoryId with
  | none => rfl
  | some m =>
    rw [Option.bind_some, Option.bind_some, Option.map_map]
    rfl

theorem ranked_map (hf : Unscored f) : Search.ranked db (chunks.map f)
    = (Search.ranked db chunks).map (changed f) := by
  have hids : (chunks.map f).map (·.memoryId) = chunks.map (·.memoryId) := by
    rw [List.map_map]
    exact List.map_congr_left fun c _ => hf.memoryId c
  have hhits : (chunks.map (·.memoryId)).eraseDups.filterMap
        (Search.hitOf db (chunks.map f))
      = ((chunks.map (·.memoryId)).eraseDups.filterMap
        (Search.hitOf db chunks)).map (changed f) := by
    rw [List.map_filterMap]
    exact List.filterMap_congr fun id _ => hitOf_map hf id
  unfold Search.ranked
  rw [hids, hhits]
  symm
  apply List.map_insertionSort
  intro a _ b _
  rw [ranking_changed hf, ranking_changed hf]

theorem scoredHit_changed (hf : Unscored f) (hit : MemoryHit) :
    scoredHit (changed f hit) = scoredHit hit := by
  unfold scoredHit changed
  simp only [List.map_map, Function.comp_def, hf.ordinal]

theorem map_stamp (intent : Option TemporalIntent) (applied : Bool) :
    (Search.ranked db (Search.stampIntent intent applied chunks)).map scoredHit
      = (Search.ranked db chunks).map scoredHit := by
  cases intent with
  | none => rfl
  | some i =>
    have hf : Unscored fun c => { c with
        breakdown := some { c.breakdown.getD { fused := c.score } with
          temporalIntent := some i
          temporalFilterApplied := applied } } :=
      ⟨fun _ => rfl, fun _ => rfl, fun _ => rfl⟩
    have hstamp : Search.stampIntent (some i) applied chunks
        = chunks.map fun c => { c with
          breakdown := some { c.breakdown.getD { fused := c.score } with
            temporalIntent := some i
            temporalFilterApplied := applied } } := rfl
    rw [hstamp, ranked_map hf, List.map_map]
    exact List.map_congr_left fun hit _ => scoredHit_changed hf hit

end

-- ====== the real search

section
variable {search : SearchMemories} {db : Db}
  {parse : Text → Option TemporalIntent} {exclude : List String} {k n : Nat}
  {query : GoldenQuery}

theorem searched_eq
    (hfilters : (effective (resolveFilters db query.filters)
      (parse query.queryText.toList)).1 = resolveFilters db query.filters)
    (hweights : Search.weightsFor search (parse query.queryText.toList)
      = search.weights)
    (hordering : (parse query.queryText.toList).bind (·.ordering) = none) :
    searched search db parse query n = (pool search db query n).take n := by
  have hreranked : ∀ chunks,
    Search.reranked search (requestOf db query n) chunks
      = .ok chunks := by
    intro chunks
    unfold Search.reranked
    cases search.engine.rerank with
    | none => rfl
    | some model => rfl
  have hcandidates : Search.candidates search db (requestOf db query n)
        (parse query.queryText.toList)
      = .ok (Search.stampIntent (parse query.queryText.toList)
        (effective (resolveFilters db query.filters)
          (parse query.queryText.toList)).2
        (Search.hybrid search db (requestOf db query n)
          (resolveFilters db query.filters) search.weights)) := by
    have heffective : effective (requestOf db query n).filters
        (parse query.queryText.toList)
        = effective (resolveFilters db query.filters)
          (parse query.queryText.toList) := rfl
    unfold Search.candidates
    simp only [heffective, hfilters, hweights, hreranked]
    rfl
  unfold searched Search.call pool
  rw [hcandidates]
  simp only [hordering]
  show (List.take n _).map scoredHit = _
  rw [List.map_take, map_stamp]

theorem pool_congr {m : Nat}
    (hlegs : Search.legs search db (requestOf db query m)
      (resolveFilters db query.filters)
    = Search.legs search db (requestOf db query n)
      (resolveFilters db query.filters)) :
    pool search db query m = pool search db query n := by
  unfold pool Search.hybrid
  rw [hlegs]
  rfl

theorem retrieve_congr {a b : Nat → List Hit} (hfirst : a k = b k)
    (hnext : a (k + ((b k).filter (Hit.isExcluded exclude)).length)
      = b (k + ((b k).filter (Hit.isExcluded exclude)).length)) :
    retrieve a exclude k = retrieve b exclude k := by
  unfold retrieve
  simp only [hfirst, hnext]

theorem kept_searched (h : Steady search db parse exclude k query) :
    kept (searched search db parse query) exclude k
      = firstKept exclude k (pool search db query k) := by
  have hpool : pool search db query
        (k + dropped exclude k (pool search db query k))
      = pool search db query k := pool_congr h.legs
  have hsearched := fun n => @searched_eq search db parse n query h.filters
    h.weights h.ordering
  have hretrieve : retrieve (searched search db parse query) exclude k
      = retrieve (fun n => (pool search db query k).take n) exclude k := by
    apply retrieve_congr
    · exact hsearched k
    · change searched search db parse query
          (k + dropped exclude k (pool search db query k)) = _
      rw [hsearched, hpool]
      rfl
  rw [← kept_spec.1 h.widened]
  unfold kept
  rw [hretrieve]

end

-- ====== the candidates

section
variable {search : SearchMemories} {db : Db} {weights : FusionWeights}
  {parse : Text → Option TemporalIntent} {golden : GoldenSet}
  {exclude : List String} {k : Nat} {query : GoldenQuery}
  {chunks : List ScoredChunk} {id : Id}

theorem expansionFor_eq {vector keyword : List ScoredChunk} :
    Search.expansionFor (weighted search weights) db vector keyword
      = if weights.graphIsOff then none
        else expandForTuning search db vector keyword := rfl

theorem fuse_off {vector keyword : List ScoredChunk} {signals : SignalTable}
    {rrfK : Nat} {graph : Option GraphCandidates} :
    fuse vector keyword signals weights rrfK
        (if weights.graphIsOff then none else graph)
      = fuse vector keyword signals weights rrfK graph := by
  have hused : expansionUsed weights
        (if weights.graphIsOff then none else graph)
      = expansionUsed weights graph := by
    unfold expansionUsed
    by_cases hoff : weights.graphIsOff = true
    · rw [if_pos hoff, if_pos hoff]
    · rw [if_neg hoff, if_neg hoff, if_neg hoff]
  unfold fuse
  rw [hused]

theorem fuse_candidates :
    fuse (candidatesOf search db k query).vector
        (candidatesOf search db k query).keyword
        (candidatesOf search db k query).signals weights 60
        (candidatesOf search db k query).graph
      = Search.hybrid (weighted search weights) db (requestOf db query k)
        (resolveFilters db query.filters) weights := by
  unfold Search.hybrid
  simp only [expansionFor_eq, fuse_off]
  rfl

theorem lookup_metadata : ∀ {ids : List Id}, id ∈ ids →
    (memoryMetadata db ids).lookup id = metadataOf db id
  | [], h => absurd h List.not_mem_nil
  | first :: rest, h => by
      unfold memoryMetadata
      cases hrow : metadataOf db first with
      | none =>
        rw [List.filterMap_cons_none (by rw [hrow]; rfl)]
        by_cases hfirst : id ∈ rest
        · exact lookup_metadata hfirst
        · have hid : id = first := (List.mem_cons.1 h).resolve_right hfirst
          rw [hid, hrow, List.lookup_eq_none_iff]
          intro entry hentry
          obtain ⟨other, hother, hsome⟩ := List.mem_filterMap.1 hentry
          obtain ⟨row, hrow', rfl⟩ := Option.map_eq_some_iff.1 hsome
          rw [bne_iff_ne]
          intro hsame
          have hfirst : first = other := hsame
          rw [hfirst] at hrow
          exact absurd (hrow'.symm.trans hrow) (Option.some_ne_none row)
      | some row =>
        rw [List.filterMap_cons_some (by rw [hrow]; rfl), List.lookup_cons]
        by_cases hid : id = first
        · rw [hid, hrow, beq_self_eq_true]
        · rw [beq_eq_false_iff_ne.2 hid]
          exact lookup_metadata ((List.mem_cons.1 h).resolve_left hid)

theorem group_eq {ids : List Id} (hids : ∀ c ∈ chunks, c.memoryId ∈ ids) :
    group chunks (memoryMetadata db ids) = Search.ranked db chunks := by
  have hhits : (chunks.map (·.memoryId)).eraseDups.filterMap
        (groupHit chunks (memoryMetadata db ids))
      = (chunks.map (·.memoryId)).eraseDups.filterMap
        (Search.hitOf db chunks) := by
    apply List.filterMap_congr
    intro id hid
    obtain ⟨c, hc, rfl⟩ := List.mem_map.1 (List.mem_eraseDups.1 hid)
    unfold groupHit Search.hitOf
    rw [lookup_metadata (hids c hc)]
    unfold metadataOf
    cases db.memory c.memoryId with
    | none => rfl
    | some m =>
      rw [Option.bind_some, Option.bind_some, Option.map_map]
      rfl
  unfold group Search.ranked
  rw [hhits]

theorem group_candidates :
    (group (fuse (candidatesOf search db k query).vector
        (candidatesOf search db k query).keyword
        (candidatesOf search db k query).signals weights 60
        (candidatesOf search db k query).graph)
      (candidatesOf search db k query).metadata).map scoredHit
      = pool (weighted search weights) db query k := by
  have hids : ∀ c ∈ fuse (candidatesOf search db k query).vector
        (candidatesOf search db k query).keyword
        (candidatesOf search db k query).signals weights 60
        (candidatesOf search db k query).graph,
      c.memoryId ∈ (((candidatesOf search db k query).vector
          ++ (candidatesOf search db k query).keyword
          ++ ((candidatesOf search db k query).graph.getD {}).chunks).map
        (·.memoryId)).eraseDups := by
    intro c hc
    obtain ⟨c₀, hc₀, hsame⟩ := mem_fuse hc
    rw [List.mem_eraseDups, hsame]
    apply List.mem_map_of_mem
    rcases List.mem_append.1 hc₀ with hfound | hgraph
    · exact List.mem_append_left _ hfound
    · apply List.mem_append_right
      unfold expansionUsed at hgraph
      split at hgraph
      case isTrue => exact absurd hgraph List.not_mem_nil
      case isFalse => exact hgraph
  have hgroup := @group_eq db _ _ hids
  rw [fuse_candidates] at hgroup
  unfold pool
  rw [fuse_candidates]
  exact congrArg (List.map scoredHit) hgroup

-- ====== the scores

variable {K : Type} [Field K] {discount : Nat → K}

theorem scoreOne_eq
    (h : Steady (weighted search weights) db parse exclude k query) :
    scoreOne discount query (candidatesOf search db k query) exclude k weights
        60
      = (evaluateQuery discount exclude k query
        (searched (weighted search weights) db parse query)).result := by
  unfold scoreOne evaluateQuery
  simp only [group_candidates, kept_searched h]
  rfl

theorem scoreOne_congr {other : GoldenQuery} {found : Candidates} {rrfK : Nat}
    (h : other.relevant = query.relevant) :
    scoreOne discount other found exclude k weights rrfK
      = scoreOne discount query found exclude k weights rrfK := by
  obtain ⟨text, filters, relevant⟩ := other
  obtain ⟨text', filters', relevant'⟩ := query
  subst h
  rfl

theorem byText_spec (hquery : query ∈ golden.queries) :
    ∃ other ∈ golden.queries, byText golden query.queryText = some other
      ∧ other.queryText = query.queryText := by
  have hsome : (byText golden query.queryText).isSome := by
    unfold byText
    rw [List.find?_isSome]
    exact ⟨query, List.mem_reverse.2 hquery, decide_eq_true rfl⟩
  obtain ⟨other, hother⟩ := Option.isSome_iff_exists.1 hsome
  have htext := List.find?_some hother
  exact ⟨other, List.mem_reverse.1 (List.mem_of_find?_eq_some hother), hother,
    of_decide_eq_true htext⟩

theorem results_eq
    (htexts : ∀ q ∈ golden.queries, ∀ r ∈ golden.queries,
      q.queryText = r.queryText → q.relevant = r.relevant)
    (hsteady : ∀ q ∈ golden.queries,
      Steady (weighted search weights) db parse golden.exclude k q) :
    ((collectCandidates golden search db k).filterMap fun found =>
        (byText golden found.queryText).map fun query =>
          scoreOne discount query found golden.exclude k weights 60)
      = (evaluate discount golden
          (searched (weighted search weights) db parse) k).map (·.result) := by
  unfold collectCandidates evaluate
  rw [List.filterMap_map, List.map_map, ← List.filterMap_eq_map]
  apply List.filterMap_congr
  intro q hq
  obtain ⟨other, hother, hfound, htext⟩ := byText_spec hq
  have hresult : (byText golden (candidatesOf search db k q).queryText).map
        (fun query => scoreOne discount query (candidatesOf search db k q)
          golden.exclude k weights 60)
      = some (evaluateQuery discount golden.exclude k q
        (searched (weighted search weights) db parse q)).result := by
    change (byText golden q.queryText).map _ = _
    rw [hfound, Option.map_some,
      scoreOne_congr (htexts other hother q hq htext),
      scoreOne_eq (hsteady q hq)]
  exact hresult

theorem gridRow_spec
    (htexts : ∀ q ∈ golden.queries, ∀ r ∈ golden.queries,
      q.queryText = r.queryText → q.relevant = r.relevant)
    (hsteady : ∀ q ∈ golden.queries,
      Steady (weighted search weights) db parse golden.exclude k q)
    (hqueries : golden.queries ≠ []) :
    ∃ row, gridRow discount golden (collectCandidates golden search db k) k 60
        weights = some row
      ∧ row.weights = weights
      ∧ Measures row (evaluate discount golden
        (searched (weighted search weights) db parse) k) := by
  unfold gridRow
  simp only [results_eq htexts hsteady]
  have hne : ((evaluate discount golden
      (searched (weighted search weights) db parse) k).map
        (·.result)).isEmpty = false := by
    rw [List.isEmpty_eq_false_iff]
    unfold evaluate
    simpa using hqueries
  rw [hne]
  refine ⟨_, rfl, rfl, ?_⟩
  constructor
  · exact congrArg mean List.map_map
  · exact congrArg mean List.map_map
  · exact congrArg mean List.map_map
  · exact congrArg mean List.map_map

end

/-- For every golden set, corpus, cutoff, grid and base weights: with a fixed
clock, in hybrid mode and without reranking, every combination of the grid has a
row when there are queries, and every row's metrics are those that the
evaluation of the search with its weights reports, if the queries of one text
have the same judgements and every query is steady under every combination. -/
theorem grid_measures {K : Type} [Field K] [LinearOrder K]
    (discount : Nat → K) (golden : GoldenSet) (search : SearchMemories)
      (db : Db)
    (parse : Text → Option TemporalIntent) (k : Nat) (grid : Grid)
    (base : FusionWeights)
    (htexts : ∀ q ∈ golden.queries, ∀ r ∈ golden.queries,
      q.queryText = r.queryText → q.relevant = r.relevant)
    (hsteady : ∀ weights ∈ gridWeights grid base, ∀ q ∈ golden.queries,
      Steady (weighted search weights) db parse golden.exclude k q) :
    (golden.queries ≠ [] → ∀ weights ∈ gridWeights grid base,
      ∃ row ∈ scoreGrid discount golden
          (collectCandidates golden search db k) k grid base,
        row.weights = weights)
      ∧ ∀ row ∈ scoreGrid discount golden
          (collectCandidates golden search db k) k grid base,
        Measures row (evaluate discount golden
          (searched (weighted search row.weights) db parse) k) := by
  have hmem : ∀ row, row ∈ scoreGrid discount golden
        (collectCandidates golden search db k) k grid base
      ↔ ∃ weights ∈ gridWeights grid base, gridRow discount golden
        (collectCandidates golden search db k) k 60 weights = some row := by
    intro row
    unfold scoreGrid
    rw [List.mem_insertionSort, List.mem_filterMap]
  constructor
  · intro hqueries weights hweights
    obtain ⟨row, hrow, hsame, -⟩ :=
      @gridRow_spec _ _ _ _ _ _ K _ discount htexts (hsteady weights hweights)
        hqueries
    exact ⟨row, (hmem row).2 ⟨weights, hweights, hrow⟩, hsame⟩
  · intro row hrow
    obtain ⟨weights, hweights, hrow⟩ := (hmem row).1 hrow
    by_cases hqueries : golden.queries = []
    · unfold gridRow collectCandidates at hrow
      rw [hqueries] at hrow
      exact absurd hrow.symm (Option.some_ne_none row)
    · obtain ⟨row', hrow', hsame, hmeasures⟩ :=
        @gridRow_spec _ _ _ _ _ _ K _ discount htexts
          (hsteady weights hweights) hqueries
      have heq : row = row' := Option.some.inj (hrow.symm.trans hrow')
      rw [heq, hsame]
      exact hmeasures

-- ------ three notes that a query finds in turn

/-- Three notes. -/
def threeNotes : Db where
  sources := [⟨1, .filesystem, "notes"⟩]
  memories := [Search.note 1 "a.md" none, Search.note 2 "b.md" none,
    Search.note 3 "c.md" none]
  chunks := [Search.noteChunk 11 1, Search.noteChunk 12 2,
    Search.noteChunk 13 3]

/-- A search whose words are in all three, in the first most of all, over a
graph that reaches nothing. -/
def noteSearch : SearchMemories where
  engine := {
    embedQuery := fun _ => []
    similarity := fun _ _ => 0
    visits := fun _ _ _ _ => []
    textRank := fun _ c => some (20 - c.id)
    recencyScore := fun _ => 1
    importance := fun _ => none
    rerank := none }
  expand := some {
    graph := {
      mentionEdges := fun _ => some []
      reach := fun _ _ _ _ => some [] }
    log := fun x => x }

/-- The golden set whose query is answered by the third note. -/
def noteGolden (exclude : List String) : GoldenSet where
  queries := [⟨"where is it", {}, {⟨"notes", "c.md", none⟩}⟩]
  exclude := exclude

/-- A grid of one combination, all off. -/
def offGrid : Grid := ⟨[0], [0], [0]⟩

theorem steady_unexcluded {search : SearchMemories} {db : Db} {k : Nat}
    {query : GoldenQuery} : Steady search db (fun _ => none) [] k query := by
  have hnone : dropped [] k (pool search db query k) = 0 := by
    unfold dropped
    rw [List.length_eq_zero_iff, List.filter_eq_nil_iff]
    intro hit _
    exact Bool.false_ne_true
  exact {
    filters := rfl
    weights := rfl
    ordering := rfl
    legs := by rw [hnone, Nat.add_zero]
    widened := .inl fun _ _ => rfl }

theorem grid_measures_unexcluded :
    ∃ row ∈ scoreGrid (K := Rat) Metrics.harmonic (noteGolden [])
        (collectCandidates (noteGolden []) noteSearch threeNotes 1) 1 offGrid
        {},
      Measures row (evaluate Metrics.harmonic (noteGolden [])
        (searched (weighted noteSearch row.weights) threeNotes fun _ => none)
        1) := by
  have hall := grid_measures Metrics.harmonic (noteGolden []) noteSearch
    threeNotes (fun _ => none) 1 offGrid {}
    (fun q hq r hr _ => by
      rw [List.mem_singleton.1 hq, List.mem_singleton.1 hr])
    (fun _ _ _ _ => steady_unexcluded)
  obtain ⟨row, hrow, -⟩ := hall.1 (List.cons_ne_nil _ _)
    ⟨1, 1, 0, 0, 0⟩ (List.mem_singleton.2 rfl)
  exact ⟨row, hrow, hall.2 row hrow⟩

-- ------ the first two are excluded

/-- The grid finds the third note among its candidates; the widened search ends
before it. -/
theorem not_grid_measures :
    ∃ row ∈ scoreGrid (K := Rat) Metrics.harmonic
        (noteGolden ["a.md", "b.md"])
        (collectCandidates (noteGolden ["a.md", "b.md"]) noteSearch threeNotes
          1) 1 offGrid {},
      ¬ Measures row (evaluate Metrics.harmonic (noteGolden ["a.md", "b.md"])
        (searched (weighted noteSearch row.weights) threeNotes fun _ => none)
        1) := by
  have hgrid : (gridRow Metrics.harmonic (noteGolden ["a.md", "b.md"])
      (collectCandidates (noteGolden ["a.md", "b.md"]) noteSearch threeNotes 1)
      1 60 ⟨1, 1, 0, 0, 0⟩).any (fun row => decide (row.recall_ = 1))
        = true := by
    decide +kernel
  have hreal : mean ((evaluate Metrics.harmonic (noteGolden ["a.md", "b.md"])
      (searched (weighted noteSearch ⟨1, 1, 0, 0, 0⟩) threeNotes
        fun _ => none) 1).map (·.result.recall_)) = 0 := by
    decide +kernel
  obtain ⟨row, hrow, hrecall⟩ := (Option.any_eq_true _ _).1 hgrid
  have hweights : row.weights = ⟨1, 1, 0, 0, 0⟩ := by
    unfold gridRow at hrow
    simp only at hrow
    split at hrow
    case isTrue => exact absurd hrow.symm (Option.some_ne_none row)
    case isFalse => rw [← Option.some.inj hrow]
  refine ⟨row, ?_, fun hmeasures => ?_⟩
  · unfold scoreGrid
    rw [List.mem_insertionSort, List.mem_filterMap]
    exact ⟨⟨1, 1, 0, 0, 0⟩, List.mem_singleton.2 rfl, hrow⟩
  · have hzero := hmeasures.recall_
    rw [hweights, hreal, of_decide_eq_true hrecall] at hzero
    exact one_ne_zero hzero

end MemoryOS.Tuning
