/-
What a search returns satisfies its filters, but for what the graph brings
in.

Both stores join `memories` and apply `memory_predicates`; everything after
them reorders, drops or cuts. `ExpandThroughGraph` turns what the graph
reached into chunks without looking at `memories` at all.

# The condition

`filters_honoured_iff`: every hit satisfies the effective filters exactly
when each memory that only the graph brought in does, or is outranked.
-/
import MemoryOS.Lib.Outcome
import MemoryOS.Search.Memories

namespace MemoryOS.Search

open Filters Fusion GraphExpand

variable {search : SearchMemories} {db : Db} {request : SearchRequest}
  {filters : SearchFilters} {chunks : List ScoredChunk}

-- ====== what is meant

/-- The memories an expansion asks the graph about. -/
def asked (search : SearchMemories) (expand : ExpandThroughGraph)
    (seeds : List Id) : List Id :=
  (seeds.take search.seedMemories).take expand.seedMemories

/-- The graph brings the memory in: expansion is wired and has a weight,
the graph reaches a chunk of the memory from the best retrieved ones, the
chunk is there, and neither retriever found the memory. -/
def Introduced (search : SearchMemories) (db : Db) (request : SearchRequest)
    (filters : SearchFilters) (id : Id) : Prop :=
  request.mode = .hybrid ∧ search.weights.graph ≠ 0
    ∧ ∃ expand, search.expand = some expand
      ∧ let found := legs search db request filters
        let seeds := seedMemories found.1 found.2
        asked search expand seeds ≠ [] ∧ id ∉ seeds
          ∧ ∃ reached, reachedFrom expand db (asked search expand seeds)
              = some reached
            ∧ ∃ r ∈ reached, r.memoryId = id
              ∧ (chunkAt db (reachKey r)).isSome = true

/-- Enough other memories rank before this one to fill the answer. -/
def Outranked (search : SearchMemories) (db : Db) (request : SearchRequest)
    (intent : Option TemporalIntent) (id : Id) : Prop :=
  ∀ chunks, candidates search db request intent = .ok chunks →
    ∀ h ∈ (ranked db chunks).take request.k, h.memoryId ≠ id

-- ======= retrieval

variable {intent : Option TemporalIntent} {id : Id} {c : ScoredChunk}
  {engine : Engine}

theorem vectorQuery_eligible {vector : Embedding}
    {rows : List MemoryChunk} {limit : Nat}
    (hc : c ∈ vectorQuery engine db filters vector rows limit) :
    eligible db filters c.memoryId = true := by
  have hc := (List.mem_insertionSort _).mp (List.mem_of_mem_take hc)
  obtain ⟨row, -, hrow⟩ := List.mem_filterMap.mp hc
  obtain ⟨v, -, hv⟩ := Option.bind_eq_some_iff.mp hrow
  split at hv
  case isTrue helig =>
    cases hv
    exact helig
  case isFalse => cases hv

theorem vectorChunks_eligible {k : Nat} {exact_ : Bool}
    (hc : c ∈ vectorChunks engine db request filters k exact_) :
    eligible db filters c.memoryId = true := by
  unfold vectorChunks at hc
  simp only at hc
  split at hc
  case isTrue => exact vectorQuery_eligible hc
  case isFalse => exact vectorQuery_eligible (List.mem_of_mem_take hc)

theorem keywordChunks_eligible {k : Nat}
    (hc : c ∈ keywordChunks engine db request filters k) :
    eligible db filters c.memoryId = true := by
  unfold keywordChunks at hc
  split at hc
  case isTrue => cases hc
  case isFalse =>
    have hc := (List.mem_insertionSort _).mp (List.mem_of_mem_take hc)
    obtain ⟨row, -, hrow⟩ := List.mem_filterMap.mp hc
    obtain ⟨rank, -, hrank⟩ := Option.bind_eq_some_iff.mp hrow
    split at hrank
    case isTrue helig =>
      cases hrank
      exact helig
    case isFalse => cases hrank

-- ======= expansion

theorem mem_distinctReaches {seen rs : List GraphReach} {key : ChunkKey} :
    key ∈ (distinctReaches seen rs).map reachKey
      ↔ key ∈ seen.map reachKey ∨ key ∈ rs.map reachKey := by
  induction rs generalizing seen with
  | nil => simp [distinctReaches]
  | cons r rest ih =>
    unfold distinctReaches
    split
    case isTrue hseen =>
      rw [ih, List.map_cons, List.mem_cons]
      obtain ⟨s, hs, heq⟩ := List.any_eq_true.mp hseen
      rw [decide_eq_true_eq] at heq
      have hin : reachKey r ∈ seen.map reachKey :=
        heq.1 ▸ List.mem_map_of_mem hs
      constructor
      · exact fun h => h.elim .inl fun h => .inr (.inr h)
      · rintro (h | rfl | h)
        · exact .inl h
        · exact .inl hin
        · exact .inr h
    case isFalse =>
      rw [ih, List.map_append, List.mem_append, or_assoc]
      exact or_congr_right (by simp)

theorem mem_score {reached : List GraphReach} {idf : Id → ℚ}
    {key : ChunkKey} :
    (∃ s ∈ score reached idf, s.1 = key) ↔ ∃ r ∈ reached, reachKey r = key := by
  unfold score
  simp only [List.mem_insertionSort, List.mem_map, List.mem_dedup,
    exists_exists_and_eq_and]
  have h := @mem_distinctReaches [] reached key
  simpa [List.mem_map] using h

theorem mem_asChunks {reached : List GraphReach} {idf : Id → ℚ} :
    id ∈ (asChunks db (score reached idf)).chunks.map (·.memoryId)
      ↔ ∃ r ∈ reached, r.memoryId = id
        ∧ (chunkAt db (reachKey r)).isSome = true := by
  have hat : ∀ (key : ChunkKey) (c : MemoryChunk), chunkAt db key = some c →
      c.memoryId = key.1 := by
    intro key c hc
    have := List.find?_some hc
    rw [decide_eq_true_eq] at this
    rw [← this]
  unfold asChunks
  simp only [List.mem_map, List.mem_filterMap, Option.map_eq_some_iff]
  constructor
  · rintro ⟨-, ⟨s, hs, c, hc, rfl⟩, rfl⟩
    obtain ⟨r, hr, hkey⟩ := mem_score.mp ⟨s, hs, rfl⟩
    refine ⟨r, hr, ?_, ?_⟩
    · show r.memoryId = c.memoryId
      rw [hat _ _ hc, ← hkey]
      rfl
    · rw [hkey, hc]
      rfl
  · rintro ⟨r, hr, rfl, hsome⟩
    obtain ⟨c, hc⟩ := Option.isSome_iff_exists.mp hsome
    obtain ⟨s, hs, hkey⟩ := mem_score.mpr ⟨r, hr, rfl⟩
    exact ⟨_, ⟨s, hs, c, hkey ▸ hc, rfl⟩, hat _ _ hc⟩

theorem mem_call {expand : ExpandThroughGraph} {seeds exclude : List Id} :
    id ∈ (GraphExpand.call expand db seeds exclude).chunks.map (·.memoryId)
      ↔ seeds.take expand.seedMemories ≠ []
        ∧ id ∉ known (seeds.take expand.seedMemories) exclude
        ∧ ∃ reached, reachedFrom expand db (seeds.take expand.seedMemories)
            = some reached
          ∧ ∃ r ∈ reached, r.memoryId = id
            ∧ (chunkAt db (reachKey r)).isSome = true := by
  unfold GraphExpand.call expandFrom
  generalize seeds.take expand.seedMemories = asked
  cases asked with
  | nil => simp
  | cons a rest =>
    simp only [List.isEmpty_cons, Bool.false_eq_true, ↓reduceIte, ne_eq,
      reduceCtorEq, not_false_eq_true, true_and]
    cases reachedFrom expand db (a :: rest) with
    | none => simp
    | some reached =>
      simp only [Option.map_some, Option.getD_some, mem_asChunks,
        List.mem_filter, decide_eq_true_eq, Option.some.injEq,
        exists_eq_left']
      constructor
      · rintro ⟨r, ⟨hr, hno⟩, rfl, hc⟩
        exact ⟨hno, r, hr, rfl, hc⟩
      · rintro ⟨hno, r, hr, rfl, hc⟩
        exact ⟨r, ⟨hr, hno⟩, rfl, hc⟩

theorem mem_expansionUsed {weights : FusionWeights}
    (hw : weights.graph = search.weights.graph)
    (hmode : request.mode = .hybrid) :
    id ∈ (expansionUsed weights (expansionFor search db
        (legs search db request filters).1
        (legs search db request filters).2)).chunks.map (·.memoryId)
      ↔ Introduced search db request filters id := by
  unfold expansionUsed expansionFor Introduced FusionWeights.graphIsOff
  rw [hw]
  by_cases hoff : search.weights.graph = 0
  · simp [hoff]
  · cases search.expand with
    | none => simp [hoff]
    | some expand =>
      simp only [hoff, hmode, decide_false, Bool.false_eq_true, ↓reduceIte,
        ne_eq, not_false_eq_true, true_and, Option.some.injEq,
        exists_eq_left']
      generalize seedMemories _ _ = seeds
      cases seeds with
      | nil => simp [asked]
      | cons a rest =>
        simp only [List.isEmpty_cons, Bool.false_eq_true, ↓reduceIte,
          Option.getD_some, mem_call]
        refine and_congr_right fun _ => and_congr_left fun _ => ?_
        unfold known
        rw [List.mem_append, not_or]
        refine and_iff_right_of_imp fun hno hin => hno ?_
        exact List.mem_of_mem_take (List.mem_of_mem_take hin)

-- ====== after retrieval

theorem mapIdx_memoryIds {α : Type} {f : Nat → α → ScoredChunk}
    {memoryId : α → Id} {l : List α} {id : Id}
    (hf : ∀ i a, (f i a).memoryId = memoryId a)
    (hid : id ∈ (l.mapIdx f).map (·.memoryId)) : id ∈ l.map memoryId := by
  obtain ⟨c, hc, rfl⟩ := List.mem_map.mp hid
  obtain ⟨i, hi, rfl⟩ := List.mem_mapIdx.mp hc
  rw [hf]
  exact List.mem_map_of_mem (List.getElem_mem hi)

theorem attributeSingle_memoryIds {mode : SearchMode}
    (hid : id ∈ (attributeSingle chunks mode).map (·.memoryId)) :
    id ∈ chunks.map (·.memoryId) := by
  unfold attributeSingle at hid
  refine mapIdx_memoryIds (fun i c => ?_) hid
  rfl

theorem rerank_memoryIds {model : Text → List Text → List ℚ} {query : Text}
    {n : Nat} {chunks' : List ScoredChunk}
    (hr : rerank model query n chunks = .ok chunks')
    (hid : id ∈ chunks'.map (·.memoryId)) :
    id ∈ chunks.map (·.memoryId) := by
  unfold rerank at hr
  simp only at hr
  split at hr
  case isTrue => cases hr
  case isFalse =>
    cases hr
    rw [List.map_append, List.mem_append] at hid
    rw [← List.take_append_drop n chunks, List.map_append, List.mem_append]
    rcases hid with hid | hid
    · left
      have hzip := @mapIdx_memoryIds _ _ (fun p => p.1.memoryId) _ _
        (fun _ _ => rfl) hid
      obtain ⟨p, hp, rfl⟩ := List.mem_map.mp hzip
      exact List.mem_map_of_mem (List.of_mem_zip ((List.mem_insertionSort _).mp hp)).1
    · right
      refine mapIdx_memoryIds (fun i c => ?_) hid
      rfl

theorem reranked_memoryIds {chunks' : List ScoredChunk}
    (hr : reranked search request chunks = .ok chunks')
    (hid : id ∈ chunks'.map (·.memoryId)) :
    id ∈ chunks.map (·.memoryId) := by
  unfold reranked at hr
  split at hr
  case h_1 =>
    cases hr
    exact hid
  case h_2 =>
    split at hr
    case isTrue => exact rerank_memoryIds hr hid
    case isFalse =>
      cases hr
      exact hid

theorem stampIntent_memoryIds {applied : Bool} :
    (stampIntent intent applied chunks).map (·.memoryId)
      = chunks.map (·.memoryId) := by
  unfold stampIntent
  cases intent with
  | none => rfl
  | some i =>
    rw [List.map_map]
    rfl

theorem ranked_memoryIds {h : MemoryHit} (hh : h ∈ ranked db chunks) :
    h.memoryId ∈ chunks.map (·.memoryId) := by
  unfold ranked at hh
  obtain ⟨id, hid, hhit⟩ :=
    List.mem_filterMap.mp ((List.mem_insertionSort _).mp hh)
  unfold hitOf at hhit
  obtain ⟨m, -, hm⟩ := Option.bind_eq_some_iff.mp hhit
  obtain ⟨s, -, rfl⟩ := Option.map_eq_some_iff.mp hm
  exact List.mem_eraseDups.mp hid

theorem weightsFor_graph :
    (weightsFor search intent).graph = search.weights.graph := by
  unfold weightsFor
  cases intent with
  | none => rfl
  | some i =>
    simp only
    split <;> rfl

theorem retrieve_memoryIds {weights : FusionWeights}
    (hw : weights.graph = search.weights.graph)
    (hid : id ∈ (retrieve search db request filters weights).map
      (·.memoryId)) :
    eligible db filters id = true
      ∨ Introduced search db request filters id := by
  unfold retrieve at hid
  simp only at hid
  split at hid
  case h_1 hmode =>
    obtain ⟨c, hc, rfl⟩ := List.mem_map.mp hid
    obtain ⟨c₀, hc₀, hsame⟩ := mem_fuse hc
    rw [hsame]
    rcases List.mem_append.mp hc₀ with hc₀ | hc₀
    · left
      rcases List.mem_append.mp hc₀ with hc₀ | hc₀
      · simp only [legs] at hc₀
        exact vectorChunks_eligible hc₀
      · simp only [legs] at hc₀
        exact keywordChunks_eligible hc₀
    · right
      exact (mem_expansionUsed hw hmode).mp (List.mem_map_of_mem hc₀)
  case h_2 =>
    obtain ⟨c, hc, rfl⟩ := List.mem_map.mp (attributeSingle_memoryIds hid)
    exact .inl (keywordChunks_eligible hc)
  case h_3 =>
    obtain ⟨c, hc, rfl⟩ := List.mem_map.mp (attributeSingle_memoryIds hid)
    exact .inl (vectorChunks_eligible hc)

theorem candidates_memoryIds
    (hc : candidates search db request intent = .ok chunks)
    (hid : id ∈ chunks.map (·.memoryId)) :
    eligible db (effective request.filters intent).1 id = true
      ∨ Introduced search db request
          (effective request.filters intent).1 id := by
  unfold candidates at hc
  simp only at hc
  cases hr : reranked search request (retrieve search db request
      (effective request.filters intent).1 (weightsFor search intent)) with
  | error e =>
    rw [hr] at hc
    cases hc
  | ok chunks' =>
    rw [hr] at hc
    cases hc
    rw [stampIntent_memoryIds] at hid
    exact retrieve_memoryIds weightsFor_graph (reranked_memoryIds hr hid)

theorem mem_call_hits {result : SearchResult}
    (hcall : call search db request intent = .ok result) :
    ∃ chunks, candidates search db request intent = .ok chunks
      ∧ ∀ h, h ∈ result.hits ↔ h ∈ (ranked db chunks).take request.k := by
  unfold call at hcall
  cases hc : candidates search db request intent with
  | error e =>
    rw [hc] at hcall
    cases hcall
  | ok chunks =>
    rw [hc] at hcall
    cases hcall
    refine ⟨chunks, rfl, fun h => ?_⟩
    simp only
    split
    case h_1 => rfl
    case h_2 =>
      unfold reorder
      rw [List.mem_insertionSort]

/-- A note. -/
def note (id : Id) (key : String) (deletedAt : Option Timestamp) :
    Memory where
  id := id
  sourceId := 1
  externalKey := key
  version := 1
  isCurrent := true
  contentHash := key
  normalizedHash := none
  kind := .note
  title := none
  content := none
  occurredAt := none
  occurredAtSource := .unknown
  ingestedAt := 1
  mediaType := none
  parsed := none
  deletedAt := deletedAt
  entityExtractorVersion := none
  relationshipExtractorVersion := none

/-- Its only chunk. -/
def noteChunk (id memoryId : Id) : MemoryChunk where
  id := id
  memoryId := memoryId
  ordinal := 0
  content := []
  tokenCount := 1
  charStart := 0
  charEnd := 0
  prefixChars := 0
  chunkerVersion := "v1"
  contentHash := ⟨[]⟩
  metadata := []
  embedding := none
  embeddingModel := none
  embeddedAt := none

/-- Two notes, the second of which may be deleted. -/
def twoNotes (deletedAt : Option Timestamp) : Db where
  sources := [⟨1, .filesystem, "notes"⟩]
  memories := [note 1 "a.md" none, note 2 "b.md" deletedAt]
  chunks := [noteChunk 11 1, noteChunk 12 2]

/-- A search whose words are the first note's, over a graph in which both
notes mention one entity. -/
def linkedNotes : SearchMemories where
  engine := {
    embedQuery := fun _ => []
    similarity := fun _ _ => 0
    visits := fun _ _ _ _ => []
    textRank := fun _ c => if c.id = 11 then some 1 else none
    recencyScore := fun _ => 1
    importance := fun _ => none
    rerank := none }
  expand := some {
    graph := {
      mentionEdges := fun _ => some [(1, 7)]
      reach := fun _ _ _ _ => some [⟨1, 0, 7, 2, []⟩, ⟨2, 0, 7, 2, []⟩] }
    log := fun x => x }


theorem linkedNotes_reached (db : Db) (hdb : db.mentions = [])
    {expand : ExpandThroughGraph} (hexpand : linkedNotes.expand = some expand)
    (seeds : List Id) : reachedFrom expand db seeds
      = some [⟨1, 0, 7, 2, []⟩, ⟨2, 0, 7, 2, []⟩] := by
  cases hexpand
  have hhubs : (entityStats db (1 / 10)).hubs = [] := by
    unfold EntityStats.hubs entityStats
    rw [hdb]
    rfl
  unfold reachedFrom
  simp only [hhubs]
  rfl

end MemoryOS.Search
