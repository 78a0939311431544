/-
Retrieval metrics (`application/metrics.py`), the golden set, and how a ranking
is scored against it (`application/golden.py`, `application/evaluate.py`).

Relevance is binary. The discounts are a parameter: the code's are
`1 / log2(position + 1)`. A hit is what is read of a `MemoryHit`; what is only
printed of a row is left out. The search is a parameter: the hits it returns
when it is asked for so many.
-/
import Mathlib.Data.Finset.Card
import Mathlib.Data.Finset.Option
import Mathlib.Data.Finset.Union
import MemoryOS.Corpus.Filesystem
import MemoryOS.Lib.Discounted

namespace MemoryOS

namespace Metrics

section
variable {α : Type} [DecidableEq α] {K : Type} [Field K]

/-- `set(retrieved[:k]) & relevant`. -/
def found (retrieved : List α) (relevant : Finset α) (k : Nat) : Finset α :=
  (retrieved.take k).toFinset ∩ relevant

/-- `recall_at_k`. -/
def recallAtK (retrieved : List α) (relevant : Finset α) (k : Nat) : K :=
  if relevant = ∅ ∨ k = 0 then 0
  else ((found retrieved relevant k).card : K) / (relevant.card : K)

/-- `precision_at_k`: divided by `k`, not by how many results came back. -/
def precisionAtK (retrieved : List α) (relevant : Finset α) (k : Nat) : K :=
  if relevant = ∅ ∨ k = 0 then 0
  else ((found retrieved relevant k).card : K) / (k : K)

/-- The loop of `reciprocal_rank`, from a rank. -/
def rankFrom (relevant : Finset α) (rank : Nat) : List α → K
  | [] => 0
  | item :: rest =>
    if item ∈ relevant then 1 / (rank : K) else rankFrom relevant (rank + 1) rest

/-- `reciprocal_rank`. -/
def reciprocalRank (retrieved : List α) (relevant : Finset α) : K :=
  if relevant = ∅ then 0 else rankFrom relevant 1 retrieved

/-- The loop of `ndcg_at_k`: each relevant item gains once. -/
def dcgFrom (discount : Nat → K) (relevant gained : Finset α)
    (position : Nat) : List α → K
  | [] => 0
  | item :: rest =>
    if item ∈ relevant ∧ item ∉ gained then
      discount position
        + dcgFrom discount relevant (insert item gained) (position + 1) rest
    else dcgFrom discount relevant gained (position + 1) rest

/-- `ndcg_at_k`: over as many hits in a row as there can be. -/
def ndcgAtK (discount : Nat → K) (retrieved : List α) (relevant : Finset α)
    (k : Nat) : K :=
  if relevant = ∅ ∨ k = 0 then 0
  else
    dcgFrom discount relevant ∅ 1 (retrieved.take k)
      / Lib.ideal discount 1 (min relevant.card k)

end

end Metrics

end MemoryOS

namespace MemoryOS

namespace Golden

open Metrics

-- ====== judgements

/-- `Item`. -/
structure Item where
  sourceName : String
  externalKey : String
  chunkOrdinal : Option Int := none
deriving DecidableEq, Repr

/-- `Item.memory_key`. -/
def Item.memoryKey (item : Item) : String := item.sourceName ++ "::"
    ++ item.externalKey

/-- `Item.key`: the string the metrics compare on. -/
def Item.key (item : Item) : String :=
  match item.chunkOrdinal with
  | none => item.memoryKey
  | some ordinal => item.memoryKey ++ "#" ++ toString ordinal

/-- An item of an export, as `items` has it. -/
structure RawItem where
  verdict : Option String
  sourceName : String
  externalKey : String
  chunkOrdinal : Option Int := none
deriving DecidableEq, Repr

/-- The filters a judgement was recorded under, as far as they are read. -/
structure RecordedFilters where
  sources : List String := []
  kind : Option String := none
deriving DecidableEq, Repr

/-- An entry of `queries`. -/
structure RawQuery where
  queryText : String
  items : List RawItem
  filters : RecordedFilters := {}
deriving DecidableEq, Repr

/-- An export. -/
structure Payload where
  queries : List RawQuery
  generatedAt : Option String := none
  evalExclude : Option (List String) := none
deriving DecidableEq, Repr

/-- `RELEVANT_VERDICTS`. -/
def relevantVerdicts : List String := ["relevant", "missing"]

/-- `DEFAULT_EVAL_EXCLUDE`. -/
def defaultEvalExclude : List String :=
  ["tests/slow/test_acceptance.py", "tests/slow/test_replay_real.py",
    "tests/slow/test_query_prefix.py", "Makefile", "var/**", "predictions.md"]

/-- `Unresolved`. -/
structure Unresolved where
  queryText : String
  item : Item
  reason : String
deriving DecidableEq, Repr

/-- `Excluded`. -/
structure Excluded where
  queryText : String
  reason : String
deriving DecidableEq, Repr

-- ========= queries

/-- `GoldenQuery`. -/
structure GoldenQuery where
  queryText : String
  filters : RecordedFilters := {}
  relevant : Finset Item
deriving DecidableEq

/-- `GoldenQuery.relevant_keys`. -/
def GoldenQuery.relevantKeys (query : GoldenQuery) : Finset String :=
  query.relevant.image Item.key

/-- `GoldenQuery.pinned`, at a memory. -/
def GoldenQuery.pinned (query : GoldenQuery) (memoryKey : String) :
    Finset Int :=
  (query.relevant.filter fun item => item.memoryKey
    = memoryKey).biUnion fun item =>
    item.chunkOrdinal.toFinset

/-- `GoldenQuery.project`. -/
def GoldenQuery.project (query : GoldenQuery) (sourceName externalKey : String)
    (ordinals : List Int) : String :=
  let memoryKey := sourceName ++ "::" ++ externalKey
  let wanted := query.pinned memoryKey
  if wanted = ∅ then memoryKey
  else
    let matched :=
      (ordinals.filter fun ordinal => decide (ordinal ∈ wanted)).mergeSort
    match matched.head? with
    | none => memoryKey
    | some ordinal => memoryKey ++ "#" ++ toString ordinal

/-- `GoldenSet`. -/
structure GoldenSet where
  queries : List GoldenQuery
  excluded : List Excluded := []
  unresolved : List Unresolved := []
  generatedAt : Option String := none
  exclude : List String := []

/-- `rsplit("/", 1)[-1]`. -/
def lastSegment (externalKey : String) : List Char :=
  (externalKey.toList.reverse.takeWhile (· ≠ '/')).reverse

/-- `excluded_by`. -/
def excludedBy (patterns : List String) (externalKey : String) :
    Option String :=
  patterns.find? fun pattern =>
    Fnmatch.fnmatch externalKey.toList pattern.toList
      || (!pattern.toList.contains '/'
        && Fnmatch.fnmatch (lastSegment externalKey) pattern.toList)

/-- `CorpusIndex`: the chunks of every current memory, as `load_corpus_index`
joins them. -/
structure CorpusIndex where
  ordinals : String × String → Option (Finset Int)
  chunked : ∀ memory present,
    ordinals memory = some present → present.Nonempty

/-- `CorpusIndex.resolve`: why an item does not. -/
def CorpusIndex.resolve (corpus : CorpusIndex) (item : Item) : Option String :=
  match corpus.ordinals (item.sourceName, item.externalKey) with
  | none => some "no current memory with this source and external key"
  | some present =>
    match item.chunkOrdinal with
    | none => none
    | some ordinal =>
      if ordinal ∈ present then none
      else some ("chunk " ++ toString ordinal
        ++ " does not exist; the memory has " ++ toString present.card)

/-- The items of `_relevant_items` that were judged relevant. -/
def judgedItems (items : List RawItem) : List Item :=
  (items.filter fun raw => raw.verdict.any relevantVerdicts.contains).map
    fun raw => ⟨raw.sourceName, raw.externalKey, raw.chunkOrdinal⟩

/-- `_relevant_items`. -/
def relevantItems (queryText : String) (items : List RawItem)
    (corpus : CorpusIndex) :
    Finset Item × List Unresolved :=
  let judged := judgedItems items
  let relevant :=
    (judged.filter fun item => (corpus.resolve item).isNone).toFinset
  let pinned := (relevant.filter fun item => item.chunkOrdinal.isSome).image
    Item.memoryKey
  (relevant.filter fun item => item.chunkOrdinal.isSome
    ∨ item.memoryKey ∉ pinned,
    judged.filterMap fun item =>
      (corpus.resolve item).map fun reason => ⟨queryText, item, reason⟩)

/-- The query of an entry, unless nothing of it is relevant. -/
def goldenQuery (corpus : CorpusIndex) (entry : RawQuery) :
    Option GoldenQuery :=
  let relevant := (relevantItems entry.queryText entry.items corpus).1
  if relevant = ∅ then none
  else some ⟨entry.queryText, entry.filters, relevant⟩

/-- `build_golden_set`. -/
def buildGoldenSet (payload : Payload) (corpus : CorpusIndex) : GoldenSet where
  queries := payload.queries.filterMap (goldenQuery corpus)
  excluded := payload.queries.filterMap fun entry =>
    let found := relevantItems entry.queryText entry.items corpus
    if found.1 = ∅ then
      some ⟨entry.queryText,
        if found.2.isEmpty then "no relevant or missing judgements"
        else "every judged item is unresolved"⟩
    else none
  unresolved := payload.queries.flatMap fun entry =>
    (relevantItems entry.queryText entry.items corpus).2
  generatedAt := payload.generatedAt
  exclude := payload.evalExclude.getD defaultEvalExclude

-- ====== evaluation

/-- What is read of a `MemoryHit`. -/
structure Hit where
  sourceName : String
  externalKey : String
  /-- The ordinals of `matched_chunks`. -/
  ordinals : List Int
deriving DecidableEq, Repr

/-- Whether a hit is dropped. -/
def Hit.isExcluded (exclude : List String) (hit : Hit) : Bool :=
  (excludedBy exclude hit.externalKey).isSome

/-- `_retrieve`, of a search that is asked for so many. -/
def retrieve (search : Nat → List Hit) (exclude : List String) (k : Nat) :
    List Hit :=
  let hits := search k
  if exclude.isEmpty then hits
  else
    let dropped := (hits.filter (Hit.isExcluded exclude)).length
    if dropped = 0 then hits else search (k + dropped)

/-- `RetrievedRow`. -/
structure RetrievedRow where
  rank : Nat
  key : String
  externalKey : String
  matchedOrdinals : List Int
  relevant : Bool
deriving DecidableEq, Repr

/-- `_rows`. -/
def rows (query : GoldenQuery) (hits : List Hit) : List RetrievedRow :=
  hits.mapIdx fun i hit =>
    let ordinals := hit.ordinals.mergeSort
    let key := query.project hit.sourceName hit.externalKey ordinals
    { rank := i + 1
      key := key
      externalKey := hit.externalKey
      matchedOrdinals := ordinals
      relevant := decide (key ∈ query.relevantKeys) }

variable {K : Type} [Field K]

/-- `EvalResult`. -/
structure EvalResult (K : Type) where
  queryText : String
  k : Nat
  retrieved : List String
  relevant : Finset String
  recall_ : K
  precision : K
  mrr : K
  ndcg : K

/-- `score`. -/
def score (discount : Nat → K) (queryText : String) (retrieved : List String)
    (relevant : Finset String) (k : Nat) : EvalResult K where
  queryText := queryText
  k := k
  retrieved := retrieved
  relevant := relevant
  recall_ := recallAtK retrieved relevant k
  precision := precisionAtK retrieved relevant k
  mrr := reciprocalRank retrieved relevant
  ndcg := ndcgAtK discount retrieved relevant k

/-- `QueryRun`. -/
structure QueryRun (K : Type) where
  result : EvalResult K
  rows : List RetrievedRow
  excluded : List (String × String)

/-- What `evaluate` keeps of a search. -/
def kept (search : Nat → List Hit) (exclude : List String) (k : Nat) :
    List Hit :=
  ((retrieve search exclude k).filter fun hit => !hit.isExcluded exclude).take k

/-- The loop of `evaluate`, at one query. -/
def evaluateQuery (discount : Nat → K) (exclude : List String) (k : Nat)
    (query : GoldenQuery) (search : Nat → List Hit) : QueryRun K :=
  let found := rows query (kept search exclude k)
  { result := score discount query.queryText (found.map (·.key))
      query.relevantKeys k
    rows := found
    excluded := (retrieve search exclude k).filterMap fun hit =>
      (excludedBy exclude hit.externalKey).map fun pattern => (hit.externalKey,
        pattern) }

/-- `evaluate`: one search for each query. -/
def evaluate (discount : Nat → K) (golden : GoldenSet)
    (search : GoldenQuery → Nat → List Hit) (k : Nat) : List (QueryRun K) :=
  golden.queries.map fun query =>
    evaluateQuery discount golden.exclude k query (search query)

end Golden

end MemoryOS
