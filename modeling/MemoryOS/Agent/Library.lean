/-
The tools of the agent (`application/agent/library.py`), with the citations they
attach (`application/citations.py`) and the reads that only they and the routes
make (`application/memories.py`, `decisions.list_decisions`, `decisions.show`).

A tool calls one use case, and prints what that finds under a cap. Its content
is a list of pieces, so that what is printed of one result stays together;
`toolResult` is the text. A call reads the corpus more than once: the use case
reads one state and the citations a later one.
-/
import MemoryOS.Agent.Planner
import MemoryOS.Domain.Citation
import MemoryOS.Lib.Outcome
import MemoryOS.Patterns.Missing
import MemoryOS.Search.Memories
import MemoryOS.Temporal.Timeline

namespace MemoryOS.Agent

namespace Library

open Lib Filters Fusion Decisions
open Missing (GapKind RefKind)

-- ============ caps

/-- `MAX_MEMORIES`. -/
def maxMemories : Nat := 5

/-- `MAX_GRAPH_NODES`. -/
def maxGraphNodes : Nat := 20

/-- `MAX_BUCKETS`. -/
def maxBuckets : Nat := 12

/-- `MAX_DECISIONS`. -/
def maxDecisions : Nat := 5

/-- `MAX_GAPS`. -/
def maxGaps : Nat := 10

/-- `EXCERPT_CHARS`. -/
def excerptChars : Nat := 600

/-- `DEFAULT_CONTEXT_CHARS`. -/
def defaultContextChars : Nat := 200

/-- The `limit` that `get_decisions` lists with. -/
def listedDecisions : Nat := 200

/-- The evidence of a gap that is printed. -/
def groundsShown : Nat := 4

/-- `_capped`: the limit, and whether more was asked for. -/
def capped (value : Int) (cap : Nat) : Nat × Bool :=
  let wanted := max 1 value
  ((min wanted cap).toNat, decide ((cap : Int) < wanted))

-- ========= content

/-- The head of a block of `find_gaps_in_reasoning`. -/
structure Heading where
  kind : GapKind
  confidence : ℚ
  statement : Text
  supporting : Nat
  contradicting : Nat
deriving DecidableEq

/-- What is printed together, of one result of a use case. -/
inductive Entry
  | hit (sourceName externalKey : String) (kind : MemoryKind)
      (occurredAt : Option Timestamp) (score : ℚ) (id : Id) (passage : Text)
  | connected (sourceName externalKey : String) (route : List Text) (id : Id)
      (excerpt : Text)
  | bucket (b : Temporal.Bucket)
  | dated (occurredAt : Option Timestamp) (externalKey : String) (id : Id)
  | silence (source : String) (start stop : Timestamp)
      (before after : String × Id)
  | decision (id : Id) (decidedAt : Timestamp) (status : DecisionStatus)
      (question chosen : Text) (reasoning : Option Text) (rejected : List Text)
      (assumed : List (Text × Option AssumptionVerdict))
  /-- A memory on the evidence line of a decision. -/
  | linked (decision memory : Id)
  | memory (sourceName externalKey : String) (kind : MemoryKind)
      (occurredAt : Option Timestamp) (versions version : Nat)
      (isCurrent : Bool)
  | chunk (ordinal : Nat) (text : Text)
  | gap (heading : Heading)
  /-- A piece of the evidence of a gap. -/
  | ground (heading : Heading) (kind : RefKind) (label : Text)
deriving DecidableEq

/-- A part of an f-string. -/
inductive Piece
  | text (t : Text)
  | entry (e : Entry)
deriving DecidableEq

/-- `ToolResult`, in pieces. -/
structure Result where
  content : List Piece
  citations : List Planner.Citation := []
  truncated : Bool := false
deriving DecidableEq

/-- The entries of a content, in the order they are printed. -/
def entriesOf (content : List Piece) : List Entry :=
  content.filterMap fun piece =>
    match piece with
    | .text _ => none
    | .entry e => some e

/-- The entries of a result. -/
def Result.entries (result : Result) : List Entry := entriesOf result.content

/-- A result that only says something. -/
def said (t : Text) : Result where
  content := [.text t]

/-- Entries with a text in front of each, and one between them. -/
def listing (front : Nat → Text) (between : Text) :
    Nat → List Entry → List Piece
  | _, [] => []
  | position, [e] => [.text (front position), .entry e]
  | position, e :: rest =>
    .text (front position) :: .entry e :: .text between
      :: listing front between (position + 1) rest

/-- Entries, joined. -/
def lines (between : Text) (entries : List Entry) : List Piece :=
  listing (fun _ => []) between 0 entries

/-- What a tool raises. -/
inductive Raised
  | search (e : Failure)
  | datetime (e : DatetimeError)
  /-- The `ValueError` of `build_excerpt`. -/
  | span (e : Citation.InvalidSpan)
  /-- `UnknownDecision`. -/
  | unknownDecision (id : Id)
  /-- The `ValueError` of `find_gaps`. -/
  | minGap
deriving DecidableEq, Repr

/-- What the tools are built with, and what is called that is not of this
module. -/
structure Setup where
  env : Missing.Env
  search : SearchMemories
  expand : ExpandThroughGraph
  /-- The temporal intent of a query. -/
  intent : Text → Option TemporalIntent
  dateTrunc : String → Timestamp → Timestamp
  /-- `datetime.fromisoformat`, unless it raises. -/
  fromisoformat : Text → Option Moment
  /-- A number with so many digits after the point. -/
  fixed : Nat → ℚ → Text
  /-- `%g`. -/
  general : ℚ → Text
  now : Timestamp

-- ======= citations

/-- `_Parent`, with its date left out. -/
structure Parent where
  sourceName : String
  externalKey : String
  version : Nat
  content : Option Text
deriving DecidableEq, Repr

/-- `_parents`, at one memory: nothing without its row and its source. -/
def parentOf (db : Db) (memoryId : Id) : Option Parent :=
  (db.memory memoryId).bind fun m =>
    (db.sources.find? fun s => decide (s.id = m.sourceId)).map fun s =>
      { sourceName := s.name
        externalKey := m.externalKey
        version := m.version
        content := m.content }

/-- A `Citation`, with the names of its memory. -/
structure Cited where
  sourceName : String
  externalKey : String
  citation : Planner.Citation
deriving DecidableEq

/-- `Citation.locator`. -/
def locator (parent : Parent) (chunk : ScoredChunk) : Text :=
  (parent.sourceName ++ "::" ++ parent.externalKey ++ "#"
    ++ toString chunk.ordinal ++ " @" ++ toString chunk.charStart ++ "-"
    ++ toString chunk.charEnd ++ " (v" ++ toString parent.version ++ ")").toList

/-- What the context of a citation is, where the memory has a text. -/
def contextOf (parent : Parent) (chunk : ScoredChunk) :
    Except Raised (Option Text) :=
  match parent.content with
  | none => .ok none
  | some text =>
    ((Citation.buildExcerpt text chunk.charStart chunk.charEnd
      defaultContextChars).map fun e => some e.text).mapError .span

/-- The citation of a chunk. -/
def citationOf (parent : Parent) (chunk : ScoredChunk) :
    Except Raised Cited := do
  let context ← contextOf parent chunk
  return {
    sourceName := parent.sourceName
    externalKey := parent.externalKey
    citation :=
      { excerpt := chunk.text.drop chunk.prefixChars
        context := context
        locator := locator parent chunk
        memoryId := chunk.memoryId } }

/-- The chunks whose memory is still there, with it. -/
def parented (db : Db) (chunks : List ScoredChunk) :
    List (Parent × ScoredChunk) :=
  chunks.filterMap fun chunk =>
    (parentOf db chunk.memoryId).map fun parent => (parent, chunk)

/-- `citations_for_chunks`. -/
def citationsForChunks (db : Db) (chunks : List ScoredChunk) :
    Except Raised (List Cited) :=
  collect (fun p => citationOf p.1 p.2) (parented db chunks)

/-- `citations_for_memories`: the first chunk of each. -/
def citationsForMemories (db : Db) (memoryIds : List Id) :
    Except Raised (List Planner.Citation) := do
  let found ← citationsForChunks db (memoryIds.eraseDups.filterMap fun id =>
    (db.chunks.reverse.find? fun c =>
      decide (c.memoryId = id) && decide (c.ordinal = 0)).map fun c =>
        ScoredChunk.ofRow c 0)
  return found.map (·.citation)

/-- `_citation`, of a chunk of a hit. -/
def hitCitation (db : Db) (hit : MemoryHit) (chunk : ScoredChunk) :
    Except Raised Cited :=
  let row := db.memory hit.memoryId
  citationOf
    { sourceName := hit.sourceName
      externalKey := hit.externalKey
      version := (row.map (·.version)).getD 1
      content := row.bind (·.content) }
    { chunk with memoryId := hit.memoryId }

/-- `explain_hits`, as far as its citations go. -/
def explainHits (db : Db) (hits : List MemoryHit) :
    Except Raised (List (MemoryHit × List Cited)) :=
  collect
    (fun hit => do
      let citations ← collect (hitCitation db hit) hit.matchedChunks
      return (hit, citations))
    hits

/-- `max(citations, key=lambda c: len(c.excerpt), default=None)`. -/
def longest : List Cited → Option Cited
  | [] => none
  | c :: rest =>
    match longest rest with
    | none => some c
    | some best =>
      if c.citation.excerpt.length < best.citation.excerpt.length then
        some best
      else some c

/-- What is printed of the best citation. -/
def passageOf (citations : List Cited) : Text :=
  match longest citations with
  | none => []
  | some best => best.citation.context.getD best.citation.excerpt

-- ======= searching

variable (s : Setup) (c later : Missing.Corpus)

/-- The entry of a hit. -/
def hitEntry (item : MemoryHit × List Cited) : Entry :=
  .hit item.1.sourceName item.1.externalKey item.1.kind item.1.occurredAt
    item.1.score item.1.memoryId (clip (passageOf item.2) excerptChars)

/-- `self.search(query, k=…)`. -/
def searched (query : Text) (k : Nat) : Except Raised SearchResult :=
  (Search.call s.search c.db { query := query, k := k }
    (s.intent query)).mapError .search

/-- `[position]`, in front of an entry. -/
def numbered (position : Nat) : Text :=
  '[' :: Planner.shown (position + 1) ++ "] ".toList

/-- `SearchMemoriesTool.call`. -/
def searchMemories (query : Text) (limit : Int) : Except Raised Result := do
  let bound := capped limit maxMemories
  -- one more than the cap, so that there being others is a fact
  let result ← searched s c query (bound.1 + 1)
  if result.hits.isEmpty then
    return said ("No memories in the corpus matched ".toList
      ++ s.env.quoted query
      ++ ". The corpus may not contain this subject at all.".toList)
  else
    let truncated := bound.2 || decide (bound.1 < result.hits.length)
    let explained ← explainHits later.db (result.hits.take bound.1)
    return {
      content :=
        .text (Planner.shown explained.length ++ " memories".toList
            ++ (if truncated then " (the best ones; there were more)".toList
              else [])
            ++ " for ".toList ++ s.env.quoted query ++ ":\n\n".toList)
          :: listing numbered "\n\n".toList 0 (explained.map hitEntry)
      citations := explained.flatMap fun item => item.2.map (·.citation)
      truncated := truncated }

-- ======= the graph

/-- `routes.get(str(chunk_id), ())`. -/
def routeOf (candidates : GraphCandidates) (chunkId : Id) : List Text :=
  (candidates.routes.reverse.lookup chunkId).getD []

/-- The entry of a chunk and a citation. -/
def connectedEntry (candidates : GraphCandidates)
    (pair : ScoredChunk × Cited) : Entry :=
  .connected pair.2.sourceName pair.2.externalKey
    (routeOf candidates pair.1.chunkId) pair.2.citation.memoryId
    (clip pair.2.citation.excerpt excerptChars)

/-- `self.expand([seed])`. -/
def expanded (seed : Id) : GraphCandidates :=
  GraphExpand.call s.expand c.db [seed] []

/-- Why an expansion is empty: it counts its seeds unless it failed. -/
def emptyReason (seed : Id) : Text :=
  match GraphExpand.expandFrom s.expand c.db
      ([seed].take s.expand.seedMemories) [] with
  | none => "the corpus has no extracted entities to walk".toList
  | some _ => "nothing shares an entity with it".toList

/-- `TraverseGraphTool.call`. -/
def traverseGraph (memoryId : Text) (limit : Int) : Except Raised Result :=
  match s.env.uuid memoryId with
  | none =>
    .ok (said (s.env.quoted memoryId
      ++ (" is not a memory id. Memory ids are UUIDs and are returned by " ++
        "search_memories and get_memory.").toList))
  | some seed => do
      let candidates := expanded s c seed
      if candidates.chunks.isEmpty then
        return said ("No memories are connected to ".toList ++ s.env.shown seed
          ++ " through the graph: ".toList ++ emptyReason s c seed
          ++ (". Entity extraction has to have been run over the corpus for " ++
            "this tool to return anything.").toList)
      else
        let bound := capped limit maxGraphNodes
        let shown := candidates.chunks.take bound.1
        let citations ← citationsForChunks later.db shown
        let truncated :=
          bound.2 || decide (shown.length < candidates.chunks.length)
        return {
          content :=
            .text (Planner.shown shown.length
                ++ " memories connected to ".toList ++ s.env.shown seed
                ++ (if truncated then
                    " (of ".toList ++ Planner.shown candidates.chunks.length
                      ++ " reached)".toList
                  else [])
                ++ ":\n\n".toList)
              :: listing numbered "\n\n".toList 0
                ((shown.zip citations).map (connectedEntry candidates))
          citations := citations.map (·.citation)
          truncated := truncated }

-- ============ time

/-- `_day`: a date without an offset is of UTC. -/
def day (value : Text) : Except Text Aware :=
  match s.fromisoformat value with
  | none => .error (s.env.quoted value ++ " is not a date.".toList)
  | some moment => .ok (Temporal.aware moment)

/-- `Period(…)`. -/
def periodOf (value : Text) : Option Temporal.Period :=
  [.day, .week, .month].find? fun p : Temporal.Period =>
    decide (p.value.toList = value)

/-- `args.source or None`. -/
def sourceNamed (source : Text) : Option String :=
  if source.isEmpty then none else some (String.ofList source)

/-- The entry of a memory in a sample. -/
def datedEntry (m : Memory) : Entry :=
  .dated m.occurredAt m.externalKey m.id

/-- ` in source …`, where one is named. -/
def inSource (source : Text) : Text :=
  if source.isEmpty then [] else " in source ".toList ++ source

/-- What `query_timeline` reads. -/
def timelineReads (start stop : Aware) (period : Temporal.Period)
    (sourceId : Option Id) :
    Except Raised (List Temporal.Bucket × List Memory) := do
  let buckets ← (Temporal.activityByPeriod s.dateTrunc c.db start.moment
    stop.moment period sourceId).mapError .datetime
  let found ← (Temporal.memoriesInRange c.db start.moment stop.moment sourceId
    []).mapError .datetime
  return (buckets, found)

/-- What `query_timeline` makes of it. -/
def timelineResult (start stop source : Text) (period : Temporal.Period)
    (buckets : List Temporal.Bucket) (found : List Memory) :
    Except Raised Result := do
  if found.isEmpty then
    return said ("No memories are dated between ".toList ++ start
      ++ " and ".toList ++ stop ++ inSource source
      ++ (". Nothing was recorded then, or nothing from then carries a " ++
        "date.").toList)
  else
    -- empty buckets are dropped rather than rendered as zeroes
    let occupied := buckets.filter fun b => decide (b.count ≠ 0)
    let shownBuckets := occupied.take maxBuckets
    let sample := found.take maxMemories
    let citations ← citationsForMemories later.db (sample.map (·.id))
    let truncated := decide (sample.length < found.length)
      || decide (shownBuckets.length < occupied.length)
    return {
      content :=
        .text (Planner.shown found.length
            ++ " memories are dated between ".toList ++ start
            ++ " and ".toList ++ stop ++ ", by ".toList
            ++ period.value.toList ++ ":\n".toList)
          :: (lines ['\n'] (shownBuckets.map .bucket)
            ++ .text ("\n\nShowing ".toList ++ Planner.shown sample.length
                ++ " of them:\n".toList)
              :: (lines ['\n'] (sample.map datedEntry)
                ++ [.text (if truncated then
                    ("\n\nThis is a sample; the counts above cover the " ++
                      "whole range.").toList
                  else [])]))
      citations := citations
      truncated := truncated }

/-- `QueryTimelineTool.call`. -/
def queryTimeline (start stop period source : Text) : Except Raised Result :=
  match day s start, day s stop with
  | .error e, _ => .ok (said (e ++ " Dates look like 2026-08-01.".toList))
  | .ok _, .error e => .ok (said (e ++ " Dates look like 2026-08-01.".toList))
  | .ok first, .ok last =>
    if last.le first then
      .ok (said ("The end date ".toList ++ stop
        ++ " is not after the start ".toList ++ start ++ ['.']))
    else
      match periodOf period with
      | none =>
        .ok (said (s.env.quoted period
          ++ " is not a period. Use one of: day, week, month.".toList))
      | some p =>
        match Temporal.resolve c.db (sourceNamed source) with
        | .error unknown =>
          .ok (said (Temporal.unknownSource s.env.quoted unknown))
        | .ok sourceId => do
            let reads ← timelineReads s c first last p sourceId
            timelineResult later start stop source p reads.1 reads.2

/-- The entry of a silence. -/
def silenceEntry (pair : String × Temporal.Gap) : Entry :=
  .silence pair.1 pair.2.start pair.2.stop
    (pair.2.before.externalKey, pair.2.before.id)
    (pair.2.after.externalKey, pair.2.after.id)

/-- The silences of the sources in scope, by their start. -/
def silences (wanted : Option Id) (minDays : ℚ) :
    Except Raised (List (String × Temporal.Gap)) := do
  let scopes := (Temporal.listed c.db).filter fun source =>
    wanted.all fun id => decide (source.id = id)
  let found ← collect
    (fun source : Source =>
      match Temporal.findGaps c.db source.id (timedeltaDays minDays) with
      | none => .error Raised.minGap
      | some gaps => .ok (gaps.map fun gap => (source.name, gap)))
    scopes
  return found.flatten.insertionSort fun a b => a.2.start ≤ b.2.start

/-- What `find_gaps` makes of the silences. -/
def gapsResult (minDays : ℚ) (source : Text)
    (found : List (String × Temporal.Gap)) : Except Raised Result := do
  if found.isEmpty then
    return said ("No silences of ".toList ++ s.general minDays
      ++ " days or more".toList ++ inSource source
      ++ ". Activity is continuous at that resolution.".toList)
  else
    let shown := found.take maxGaps
    let citations ← citationsForMemories later.db
      (shown.flatMap fun pair => [pair.2.before.id, pair.2.after.id])
    return {
      content :=
        .text (Planner.shown found.length ++ " silence(s) of ".toList
            ++ s.general minDays ++ " days or more:\n".toList)
          :: lines ['\n'] (shown.map silenceEntry)
      citations := citations
      truncated := decide (shown.length < found.length) }

/-- `FindGapsTool.call`. -/
def findGaps (minDays : ℚ) (source : Text) : Except Raised Result :=
  if minDays ≤ 0 then
    .ok (said ("min_days has to be positive; ".toList ++ s.general minDays
      ++ (" is not a length of time. Call it again with a positive " ++
        "number.").toList))
  else
    match Temporal.resolve c.db (sourceNamed source) with
    | .error unknown => .ok (said (Temporal.unknownSource s.env.quoted unknown))
    | .ok wanted => do
        let found ← silences c wanted minDays
        gapsResult s later minDays source found

-- ======= decisions

/-- `list_decisions`, without its limit: the newest first. -/
def newestFirst (t : Tables) : List Decision :=
  t.decisions.insertionSort fun a b =>
    toLex (b.decidedAt, b.createdAt) ≤ toLex (a.decidedAt, a.createdAt)

/-- `list_decisions`. -/
def listDecisions (t : Tables) (limit : Nat) : List Decision :=
  (newestFirst t).take limit

/-- `term in text`. -/
def within (term text : Text) : Bool := text.tails.any term.isPrefixOf

/-- How many of the terms a decision's question has. -/
def termsIn (about : Text) (d : Decision) : Nat :=
  (((words (s.env.unicode.lower (strip about))).filter fun term =>
      decide (2 < term.length)).filter fun term =>
    within term (s.env.unicode.lower d.question)).length

/-- The decisions that are asked for: those with most of the terms first. -/
def matching (about : Text) (decisions : List Decision) : List Decision :=
  if (s.env.unicode.lower (strip about)).isEmpty then decisions
  else
    (((decisions.map fun d => (termsIn s about d, d)).filter fun row =>
      decide (row.1 ≠ 0)).insertionSort fun a b => b.1 ≤ a.1).map (·.2)

/-- `EvidenceRelation.value`. -/
def relationValue : EvidenceColumns → String
  | .decision .informed _ => "informed"
  | .decision .records _ => "records"
  | .decision .contradicts _ => "contradicts"
  | .snapshot _ _ => ""

/-- `DecisionDetail`, as far as it is printed. -/
structure DecisionDetail where
  decision : Decision
  rejected : List Text
  assumed : List (Text × Option AssumptionVerdict)
  evidence : List Id

/-- The memories that are linked to a decision. -/
def decisionEvidence (t : Tables) (id : Id) : List Id :=
  ((t.evidence.filter fun row =>
    decide (row.table = .decisionEvidence) && decide (row.owner = id)
    ).insertionSort fun a b =>
      toLex (relationValue a.columns, a.externalKey)
        ≤ toLex (relationValue b.columns, b.externalKey)).map (·.memoryId)

/-- `decisions.show`. -/
def showDecision (t : Tables) (id : Id) : Except Raised DecisionDetail :=
  match t.decision id with
  | none => .error (.unknownDecision id)
  | some d =>
    .ok
      { decision := d
        rejected := ((t.options.filter fun o =>
            decide (o.decisionId = id) && !o.wasChosen).map
          (·.description)).insertionSort fun a b => a ≤ b
        assumed := ((t.assumptions.filter fun a =>
            decide (a.decisionId = id)).insertionSort fun a b =>
              a.statement ≤ b.statement).map fun a => (a.statement, a.held)
        evidence := decisionEvidence t id }

/-- The entry of a decision. -/
def decisionEntry (detail : DecisionDetail) : Entry :=
  .decision detail.decision.id detail.decision.decidedAt detail.decision.status
    detail.decision.question detail.decision.chosen detail.decision.reasoning
    detail.rejected detail.assumed

/-- The block of a decision, its evidence last. -/
def decisionBlock (detail : DecisionDetail) : List Piece :=
  .entry (decisionEntry detail)
    :: if detail.evidence.isEmpty then
        [.text "  Evidence: none linked in the corpus\n".toList]
      else
        .text ("  Evidence: ".toList ++ Planner.shown detail.evidence.length
            ++ " linked memories, ids: ".toList)
          :: (lines ", ".toList
              (detail.evidence.map (Entry.linked detail.decision.id))
            ++ [.text ['\n']])

/-- What `get_decisions` makes of the decisions it is asked for. -/
def decisionsResult (about : Text) (limit : Int) (summaries : List Decision) :
    Except Raised Result := do
  if summaries.isEmpty then
    return said (if (s.env.unicode.lower (strip about)).isEmpty then
        "No decisions have been recorded.".toList
      else
        "No recorded decision matches ".toList ++ s.env.quoted about ++ ['.'])
  else
    let bound := capped limit maxDecisions
    let shown := summaries.take bound.1
    let details ← collect (fun d : Decision => showDecision c.tables d.id) shown
    let citations ← citationsForMemories later.db
      (details.flatMap (·.evidence))
    return {
      content := [.text ['\n']].intercalate (details.map decisionBlock)
      citations := citations
      truncated := bound.2 || decide (shown.length < summaries.length) }

/-- `GetDecisionsTool.call`. -/
def getDecisions (about : Text) (limit : Int) : Except Raised Result :=
  decisionsResult s c later about limit
    (matching s about (listDecisions c.tables listedDecisions))

-- ====== one memory

/-- `MemoryDetail`, as far as it is printed. -/
structure MemoryDetail where
  memory : Memory
  sourceName : String
  chunks : List MemoryChunk
  versions : Nat

/-- `memories.show`; nothing is `UnknownMemory`. -/
def showMemory (db : Db) (memoryId : Id) : Option MemoryDetail :=
  (db.memory memoryId).bind fun m =>
    (db.sources.find? fun source => decide (source.id = m.sourceId)).map
      fun source =>
        { memory := m
          sourceName := source.name
          chunks := (db.chunks.filter fun chunk =>
            decide (chunk.memoryId = memoryId)).insertionSort fun a b =>
              a.ordinal ≤ b.ordinal
          versions := (db.memories.filter fun other =>
            decide (other.sourceId = m.sourceId)
              && decide (other.externalKey = m.externalKey)).length }

/-- The entry of a memory that was read. -/
def memoryEntry (detail : MemoryDetail) : Entry :=
  .memory detail.sourceName detail.memory.externalKey detail.memory.kind
    detail.memory.occurredAt detail.versions detail.memory.version
    detail.memory.isCurrent

/-- The entry of a chunk of it. -/
def chunkEntry (chunk : MemoryChunk) : Entry :=
  .chunk chunk.ordinal
    (clip (chunk.content.drop chunk.prefixChars) excerptChars)

/-- What `get_memory` makes of the memory. -/
def memoryResult (detail : MemoryDetail) : Except Raised Result := do
  let shownChunks := detail.chunks.take maxMemories
  let truncated := decide (shownChunks.length < detail.chunks.length)
    || decide (excerptChars < (detail.memory.content.getD []).length)
  let citations ← citationsForChunks later.db
    (shownChunks.map fun chunk => ScoredChunk.ofRow chunk 0)
  return {
    content :=
      .entry (memoryEntry detail)
        :: .text ("\n  ".toList ++ Planner.shown detail.chunks.length
            ++ " chunks".toList
            ++ (if truncated then
                ", showing the first ".toList
                  ++ Planner.shown shownChunks.length
              else [])
            ++ "\n\n".toList)
          :: lines "\n\n".toList (shownChunks.map chunkEntry)
    citations := citations.map (·.citation)
    truncated := truncated }

/-- `GetMemoryTool.call`. -/
def getMemory (memoryId : Text) : Except Raised Result :=
  match s.env.uuid memoryId with
  | none =>
    .ok (said (s.env.quoted memoryId
      ++ (" is not a memory id. Memory ids are UUIDs and are returned by " ++
        "search_memories.").toList))
  | some id =>
    match showMemory c.db id with
    | none =>
      .ok (said ("There is no memory with id ".toList ++ s.env.shown id
        ++ (". If you took it from a DECISION line, that is a decision " ++
          "id: use the ids on the decision's Evidence line " ++
          "instead.").toList))
    | some detail => memoryResult later detail

-- ====== what is absent

/-- `Silence.render`. -/
def silenceText (silence : Missing.Silence) : Text :=
  if silence.considered = 0 then
    ("I have no history that bears on this, so I cannot say what is missing " ++
      "from it.").toList
  else
    "I do not have enough history to say what you are missing here: ".toList
      ++ Planner.shown silence.considered
      ++ " candidate(s) considered, none of them supported by ".toList
      ++ Planner.shown Missing.minSupport ++ " past instances".toList
      ++ (if silence.bestSupport = 0 then []
        else
          "; the closest reached ".toList
            ++ Planner.shown silence.bestSupport ++ " of ".toList
            ++ Planner.shown Missing.minSupport)
      ++ (if silence.outweighed = 0 then []
        else
          ", and ".toList ++ Planner.shown silence.outweighed
            ++ " had evidence arguing against".toList)
      ++ ['.']

/-- What is printed of a gap. -/
def headingOf (gap : Missing.Gap) : Heading where
  kind := gap.kind
  confidence := gap.confidence
  statement := gap.statement
  supporting := gap.supporting
  contradicting := gap.contradicting

/-- The entry of a piece of its evidence. -/
def groundEntry (gap : Missing.Gap) (item : Missing.Evidence) : Entry :=
  .ground (headingOf gap) item.kind (clip item.label 90)

/-- The block of a gap. -/
def gapBlock (gap : Missing.Gap) : List Piece :=
  .entry (.gap (headingOf gap))
    :: .text "  Based on: ".toList
    :: (lines "; ".toList
        ((gap.evidence.take groundsShown).map (groundEntry gap))
      ++ [.text ['\n']])

/-- The memories behind a piece of evidence. -/
def memoriesBehind (item : Missing.Evidence) : Except Raised (List Id) :=
  match item.kind with
  | .memory => .ok [item.refId]
  | .decision => (showDecision c.tables item.refId).map (·.evidence)
  | .pattern | .assumption => .ok []

/-- What `find_gaps_in_reasoning` makes of the report. -/
def reasoningResult (report : Missing.MissingReport) :
    Except Raised Result := do
  if report.gaps.isEmpty then
    return said (silenceText report.silence)
  else
    let cited ← collect (memoriesBehind c)
      (report.gaps.flatMap (·.evidence))
    let citations ← citationsForMemories later.db cited.flatten
    return {
      content := [.text ['\n']].intercalate (report.gaps.map gapBlock
        ++ if citations.isEmpty then
            [[.text ("Evidence: none of the decisions behind these gaps " ++
              "links to a memory in the corpus.\n").toList]]
          else [])
      citations := citations }

/-- `FindGapsInReasoningTool.call`. -/
def findGapsInReasoning (about : Text) : Except Raised Result :=
  reasoningResult c later (Missing.findMissing s.env c about none s.now)

-- ======= as a text

/-- `_fmt`. -/
def dated (moment : Option Timestamp) : Text :=
  match moment with
  | none => "undated".toList
  | some t => s.env.day t

/-- `GapKind.value`. -/
def gapKindValue : GapKind → Text
  | .unstatedAssumption => "unstated_assumption".toList
  | .repeatedPattern => "repeated_pattern".toList
  | .orphanedWork => "orphaned_work".toList
  | .unevaluatedAssumption => "unevaluated_assumption".toList

/-- `Evidence.kind`. -/
def refKindValue : RefKind → Text
  | .decision => "decision".toList
  | .pattern => "pattern".toList
  | .memory => "memory".toList
  | .assumption => "assumption".toList

/-- `DecisionStatus.value`. -/
def statusValue : DecisionStatus → Text
  | .opened => "open".toList
  | .settled => "settled".toList
  | .reversed => "reversed".toList

/-- `_held`. -/
def heldText : Option AssumptionVerdict → Text
  | none => "not yet evaluated".toList
  | some .held => "held".toList
  | some .failed => "broke".toList
  | some .partially => "held partially".toList

/-- A line of a block, where there is something to say. -/
def lineOf (label : String) (isNothing : Bool) (t : Text) : Text :=
  if isNothing then [] else "  ".toList ++ label.toList ++ t ++ ['\n']

/-- `source::key`. -/
def fileText (sourceName externalKey : String) : Text :=
  (sourceName ++ "::" ++ externalKey).toList

/-- The text of an entry. -/
def entryText : Entry → Text
  | .hit sourceName externalKey kind occurredAt score id passage =>
    fileText sourceName externalKey ++ " (".toList ++ kind.value
      ++ ", ".toList ++ dated s occurredAt ++ ", score ".toList
      ++ s.fixed 3 score ++ ")\n    id: ".toList ++ s.env.shown id
      ++ "\n    ".toList ++ passage
  | .connected sourceName externalKey route id excerpt =>
    fileText sourceName externalKey ++ " (via ".toList
      ++ (if route.isEmpty then "a shared entity".toList
        else " -> ".toList.intercalate route)
      ++ ")\n    id: ".toList ++ s.env.shown id ++ "\n    ".toList ++ excerpt
  | .bucket b =>
    let count := Planner.shown b.count
    "  ".toList ++ s.env.day b.start.instant ++ "  ".toList
      ++ List.replicate (4 - count.length) ' ' ++ count ++ "  ".toList
      ++ ", ".toList.intercalate (b.byKind.map fun k =>
        k.1.value ++ ' ' :: Planner.shown k.2)
  | .dated occurredAt externalKey id =>
    "  ".toList ++ dated s occurredAt ++ "  ".toList ++ externalKey.toList
      ++ "  id: ".toList ++ s.env.shown id
  | .silence source start stop before after =>
    "  ".toList ++ source.toList ++ ": ".toList ++ s.env.day start
      ++ " -> ".toList ++ s.env.day stop ++ " (".toList
      ++ (toString ((stop - start) / dayMicros)).toList
      ++ " days), between ".toList ++ before.1.toList ++ " (id: ".toList
      ++ s.env.shown before.2 ++ ") and ".toList ++ after.1.toList
      ++ " (id: ".toList ++ s.env.shown after.2 ++ [')']
  | .decision id decidedAt status question chosen reasoning rejected assumed =>
    "DECISION ".toList ++ s.env.shown id
      ++ (" (this is a decision id, NOT a memory id; get_memory and " ++
        "traverse_graph will not accept it) (").toList
      ++ s.env.day decidedAt ++ ", ".toList ++ statusValue status
      ++ ")\n  Question: ".toList ++ question
      ++ "\n  Chose: ".toList ++ chosen ++ ['\n']
      ++ lineOf "Because: " (reasoning.getD []).isEmpty
        (clip (reasoning.getD []) excerptChars)
      ++ lineOf "Rejected: " ("; ".toList.intercalate rejected).isEmpty
        ("; ".toList.intercalate rejected)
      ++ lineOf "Assumed: " assumed.isEmpty
        ("; ".toList.intercalate (assumed.map fun a =>
          a.1 ++ " (".toList ++ heldText a.2 ++ [')']))
  | .linked _ memory => s.env.shown memory
  | .memory sourceName externalKey kind occurredAt versions version isCurrent =>
    fileText sourceName externalKey ++ " (".toList ++ kind.value
      ++ ", ".toList ++ dated s occurredAt ++ ")\n  ".toList
      ++ Planner.shown versions ++ " versions, this is v".toList
      ++ Planner.shown version
      ++ (if isCurrent then " (current)" else " (superseded)").toList
  | .chunk ordinal t =>
    "  [chunk ".toList ++ Planner.shown ordinal ++ "] ".toList ++ t
  | .gap heading =>
    "GAP [".toList ++ gapKindValue heading.kind ++ "] confidence ".toList
      ++ s.fixed 2 heading.confidence ++ "\n  ".toList ++ heading.statement
      ++ "\n  ".toList ++ Planner.shown heading.supporting
      ++ " supporting, ".toList ++ Planner.shown heading.contradicting
      ++ " contradicting\n".toList
  | .ground _ kind label => refKindValue kind ++ ": ".toList ++ label

/-- The text of a piece. -/
def pieceText : Piece → Text
  | .text t => t
  | .entry e => entryText s e

/-- The `ToolResult` that the model is given. -/
def toolResult (result : Result) : Planner.ToolResult where
  content := result.content.flatMap (pieceText s)
  citations := result.citations
  truncated := result.truncated

-- ====== the registry

/-- A tool of `build_registry`, with arguments that it accepts. -/
inductive Call
  | searchMemories (query : Text) (limit : Int)
  | getDecisions (about : Text) (limit : Int)
  | queryTimeline (start stop period source : Text)
  | findGaps (minDays : ℚ) (source : Text)
  | traverseGraph (memoryId : Text) (limit : Int)
  | getMemory (memoryId : Text)
  | findGapsInReasoning (about : Text)
deriving DecidableEq, Repr

/-- `Tool.call`. -/
def call : Call → Except Raised Result
  | .searchMemories query limit => searchMemories s c later query limit
  | .getDecisions about limit => getDecisions s c later about limit
  | .queryTimeline start stop period source =>
    queryTimeline s c later start stop period source
  | .findGaps minDays source => findGaps s c later minDays source
  | .traverseGraph memoryId limit => traverseGraph s c later memoryId limit
  | .getMemory memoryId => getMemory s c later memoryId
  | .findGapsInReasoning about => findGapsInReasoning s c later about

end Library

end MemoryOS.Agent
