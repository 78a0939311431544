/-
Decisions and outcomes proposed from the corpus
(`application/decision_suggest.py`, `application/outcome_suggest.py`).

A run of `SuggestDecisions` reads the passages worth a model call, asks a
language model about one after another and queues what it drafts. A person then
accepts a draft, which writes a decision, or rejects it. What the model replies
is an input, as the list of drafts parsed out of it.

A run of `SuggestOutcomes` takes the open decisions, finds for each the memories
that occurred after it, inside its window and about the same entities, asks a
model to judge each and queues what the model stands behind. A person accepts a
proposal, which writes an outcome, or rejects it. `find_candidates` reads the
corpus in four transactions, so it is given four states of it. It does not read
the queue.
-/
import Mathlib.Data.List.Sort
import Mathlib.Data.Prod.Lex
import Mathlib.Data.String.Basic
import MemoryOS.Decisions.Records
import MemoryOS.Domain.Datetime
import MemoryOS.Lib.Review

namespace MemoryOS

open Lib Lib.Review

namespace Decisions

-- ======= the table

/-- The durable identity of a passage: `source_name`, `external_key`,
`chunk_ordinal`. -/
structure PassageKey where
  sourceName : String
  externalKey : String
  chunkOrdinal : Option Nat
deriving DecidableEq, Repr

/-- The columns of `decision_suggestions` that are not the queue's. -/
structure SuggestedDecision where
  draft : DecisionDraft
  sourceText : Text
  memoryId : Id
  chunkId : Id
  modelId : String
  suggesterVersion : String

/-- What `accept` carries from its first transaction to the others. -/
structure PreparedDecision where
  draft : DecisionDraft
  source : PassageKey
  stamped : Timestamp
  provenance : TimeProvenance

/-- `decision_suggestions`, and the `accept` calls under way on it. -/
abbrev DecisionQueue := Queue PassageKey SuggestedDecision PreparedDecision

/-- `DecisionDraft.from_dict` of what `as_dict` stored. -/
def DecisionDraft.reread (d : DecisionDraft) : DecisionDraft :=
  { d with
    reasoning := optionalText d.reasoning
    expectedOutcome := optionalText d.expectedOutcome
    options := d.options.map fun o =>
      { o with rejectedBecause := optionalText o.rejectedBecause }
    evidence := [] }

-- ====== candidates

/-- `Passage`. -/
structure Passage where
  memoryId : Id
  chunkId : Id
  sourceName : String
  externalKey : String
  ordinal : Nat
  text : Text

/-- The key the passage is queued under. -/
def Passage.key (p : Passage) : PassageKey where
  sourceName := p.sourceName
  externalKey := p.externalKey
  chunkOrdinal := some p.ordinal

/-- `MIN_PASSAGE_CHARS`. -/
def minPassageChars : Nat := 320

/-- The alternatives of the comparative pattern that are plain text, the
optional letters written out. -/
def constructions : List String :=
  ["rather than", "instead of", "in favor of", "in favour of", "opted for",
    "we chose", "we decided", "the decision to", "tradeoff", "trade-off"]

/-- `content ~* '(rather than|…|over [A-Z])'`: case is ignored. -/
def comparative (text : Text) : Bool :=
  (text.map Char.toLower).tails.any fun rest =>
    (constructions.any fun c => c.toList.isPrefixOf rest)
      || "over ".toList.isPrefixOf rest
        && (rest.drop 5).head?.any Char.isAlpha

/-- `find_passages`: what is already queued or reviewed is left out. -/
def findPassages (db : Db) (queue : DecisionQueue) (source : Option String)
    (limit : Nat) : List Passage :=
  let rows := db.chunks.flatMap fun c =>
    (db.memories.filter fun m => decide (m.id = c.memoryId)).flatMap fun m =>
      (db.sources.filter fun s => decide (s.id = m.sourceId)).filterMap
        fun s =>
          let p : Passage :=
            { memoryId := m.id
              chunkId := c.id
              sourceName := s.name
              externalKey := m.externalKey
              ordinal := c.ordinal
              text := c.content }
          if m.isCurrent && m.deletedAt.isNone
              && decide (minPassageChars ≤ c.content.length)
              && comparative c.content
              && !(queue.rows.any fun r => decide (r.key = p.key))
              && source.all (· == s.name)
          then some p
          else none
  (rows.insertionSort fun a b => b.text.length ≤ a.text.length).take limit

/-- `SuggestDecisions._validated`: a draft without an alternative, a question
or a choice is dropped. -/
def validated (casefold : Text → Text) (reply : List DecisionDraft) :
    List DecisionDraft :=
  reply.filterMap fun candidate =>
    let kept := (alternatives casefold (strip candidate.chosen)
        candidate.options).map fun o =>
      { description := strip o.description
        rejectedBecause := optionalText o.rejectedBecause
        wasChosen := false : OptionInput }
    if kept.isEmpty || isBlank candidate.question || isBlank candidate.chosen
    then none
    else
      some
        { question := strip candidate.question
          chosen := strip candidate.chosen
          reasoning := optionalText candidate.reasoning
          confidence := candidate.confidence
          expectedOutcome := optionalText candidate.expectedOutcome
          options := kept
          assumptions := (candidate.assumptions.filter fun a =>
              !isBlank a.statement).map fun a =>
            { a with statement := strip a.statement }
          evidence := [] }

/-- `SuggestDecisions._queue`. -/
def queueDecision (queue : DecisionQueue) (p : Passage) (draft : DecisionDraft)
    (modelId suggesterVersion : String) (now : Timestamp) (begun : Nat) :
    DecisionQueue :=
  queue.propose p.key
    { draft := draft
      sourceText := p.text
      memoryId := p.memoryId
      chunkId := p.chunkId
      modelId := modelId
      suggesterVersion := suggesterVersion }
    now begun

-- ======= reviewing

/-- `_stamp`. -/
def stamp (db : Db) (row : Row PassageKey SuggestedDecision)
    (override : Option Timestamp) : Timestamp × TimeProvenance :=
  match override with
  | some decidedAt => (decidedAt, .declared)
  | none =>
    let found := db.memories.find? fun m =>
      (db.sources.any fun s =>
          decide (s.id = m.sourceId) && decide (s.name = row.key.sourceName))
        && decide (m.externalKey = row.key.externalKey) && m.isCurrent
    match found.bind fun m => m.occurredAt.map (·, m.occurredAtSource) with
    | some dated => dated
    | none => (row.queuedAt, .inferred)

/-- The first transaction of `accept`. -/
def prepareDecision (db : Db) (row : Row PassageKey SuggestedDecision)
    (edited : Option DecisionDraft) (decidedAt : Option Timestamp) :
    PreparedDecision where
  draft := edited.getD row.body.draft.reread
  source := row.key
  stamped := (stamp db row decidedAt).1
  provenance := (stamp db row decidedAt).2

/-- The second transaction of `accept`: `decisions.record`, with the passage
as the evidence. -/
def recordSuggested (casefold : Text → Text) (db : Db) (t : Tables)
    (p : PreparedDecision) (now : Timestamp) : Except Refusal (Tables × Id) :=
  record casefold db t
    { p.draft with
      evidence :=
        [{ sourceName := p.source.sourceName
           externalKey := p.source.externalKey
           relation := .records
           chunkOrdinal := p.source.chunkOrdinal }] }
    p.stamped p.provenance .opened none now

end Decisions

end MemoryOS

namespace MemoryOS

open Lib Lib.Review

namespace Decisions

-- ======= the table

/-- What is pending at most once: the decision and the candidate memory
(`chunk_ordinal` is always null). -/
structure PairKey where
  decisionId : Id
  sourceName : String
  externalKey : String
deriving DecidableEq, Repr

/-- The columns of `outcome_suggestions` that are not the queue's. -/
structure SuggestedOutcome where
  draft : OutcomeDraft
  sourceText : Text
  memoryId : Id
  candidateOccurredAt : Timestamp
  gapDays : ℚ
  windowDays : ℚ
  sharedEntities : List Text
  entityFilter : String
  modelId : String
  suggesterVersion : String

/-- What `accept` carries from its first transaction to the others. -/
structure PreparedOutcome where
  decisionId : Id
  draft : OutcomeDraft
  sourceName : String
  externalKey : String
  observedAt : Timestamp
  stated : ℚ
  provenance : TimeProvenance

/-- `outcome_suggestions`, and the `accept` calls under way on it. -/
abbrev OutcomeQueue := Queue PairKey SuggestedOutcome PreparedOutcome

/-- `OutcomeDraft.from_dict` of what `as_dict` stored. -/
def OutcomeDraft.reread (d : OutcomeDraft) : OutcomeDraft :=
  { d with
    rationale := optionalText d.rationale
    evidence := [] }

-- ====== the window

/-- `MIN_WINDOW_DAYS`. -/
def minWindowDays : ℚ := 30

/-- `MAX_WINDOW_DAYS`. -/
def maxWindowDays : ℚ := 180

/-- `DEFAULT_WINDOW_DAYS`. -/
def defaultWindowDays : ℚ := 90

/-- `window_for`; a window that is not positive is refused. -/
def windowFor (confidence override : Option ℚ) : Option ℚ :=
  match override, confidence with
  | some days, _ => if days ≤ 0 then none else some days
  | none, none => some defaultWindowDays
  | none, some c => some (minWindowDays + (maxWindowDays - minWindowDays) * c)

/-- Python's `round` to an integer: halves go to the even side. -/
def roundHalfEven (q : ℚ) : Int :=
  let rest := q - q.floor
  if rest < 1 / 2 then q.floor
  else if 1 / 2 < rest then q.floor + 1
  else if q.floor % 2 = 0 then q.floor
  else q.floor + 1

/-- The microseconds of a day. -/
def dayMicroseconds : ℚ := 86400000000

/-- `timedelta(days=…)`. -/
def timedeltaDays (days : ℚ) : Timestamp := roundHalfEven (days * dayMicroseconds)

-- ====== candidates

/-- `Candidate`. -/
structure Candidate where
  memoryId : Id
  sourceName : String
  externalKey : String
  occurredAt : Timestamp
  occurredAtSource : TimeProvenance
  text : Text
  gapDays : ℚ
  sharedEntities : List Text

/-- `DecisionContext`. -/
structure DecisionContext where
  id : Id
  question : Text
  chosen : Text
  expectedOutcome : Option Text
  confidence : Option ℚ
  decidedAt : Timestamp
  evidenceMemoryIds : List Id

/-- The key the pair is queued under. -/
def Candidate.key (c : Candidate) (decision : DecisionContext) : PairKey where
  decisionId := decision.id
  sourceName := c.sourceName
  externalKey := c.externalKey

/-- `open_decisions`. -/
def openDecisions (t : Tables) (decisionId : Option Id) :
    Except Refusal (List DecisionContext) :=
  let rows := (t.decisions.insertionSort fun a b =>
      a.decidedAt ≤ b.decidedAt).filter fun d =>
    match decisionId with
    | some id => decide (d.id = id)
    | none => decide (d.status = .opened)
  if decisionId.isSome && rows.isEmpty then .error .unknownDecision
  else
    .ok (rows.map fun d =>
      { id := d.id
        question := d.question
        chosen := d.chosen
        expectedOutcome := d.expectedOutcome
        confidence := d.confidence
        decidedAt := d.decidedAt
        evidenceMemoryIds := (t.evidence.filter fun e =>
            decide (e.table = .decisionEvidence)
              && decide (e.owner = d.id)).map (·.memoryId) })

/-- `temporal.memories_in_range`. -/
def memoriesInRange (db : Db) (start stop : Timestamp) : List Memory :=
  (db.memories.filter fun m =>
    m.isCurrent && m.deletedAt.isNone
      && m.occurredAt.any fun at' => decide (start ≤ at') && decide (at' < stop)
    ).insertionSort fun a b =>
      toLex (a.occurredAt.getD 0, a.externalKey)
        ≤ toLex (b.occurredAt.getD 0, b.externalKey)

/-- The entities that memories mention, each as the winner of its merge. -/
def mentioned (db : Db) (memoryIds : List Id) : List (Id × Entity) :=
  db.mentions.flatMap fun mention =>
    if mention.memoryId ∈ memoryIds then
      (db.entities.filter fun e => decide (e.id = mention.entityId)).map
        fun e => (mention.memoryId, e)
    else []

/-- `resolved_entities`: names by winner, the last row of a winner staying. -/
def resolvedEntities (db : Db) (memoryIds : List Id) : List (Id × Text) :=
  (mentioned db memoryIds).foldl
    (fun names p =>
      let winner := p.2.mergedIntoId.getD p.2.id
      (names.filter fun n => decide (n.1 ≠ winner))
        ++ [(winner, p.2.canonicalName)])
    []

/-- `_entities_by_memory`, at one memory. -/
def entitiesOf (db : Db) (memoryId : Id) : List Id :=
  (mentioned db [memoryId]).map fun p => p.2.mergedIntoId.getD p.2.id

/-- `_source_names`, at one source. -/
def sourceName (db : Db) (sourceId : Id) : String :=
  ((db.sources.find? fun s => decide (s.id = sourceId)).map (·.name)).getD ""

/-- `find_candidates`. -/
def findCandidates (window entities names overlaps : Db)
    (decision : DecisionContext) (windowDays : ℚ) (limit : Nat) :
    List Candidate × String :=
  let inWindow := memoriesInRange window decision.decidedAt
    (decision.decidedAt + timedeltaDays windowDays)
  let decisionEntities :=
    resolvedEntities entities decision.evidenceMemoryIds
  let kept := inWindow.filterMap fun m =>
    match m.occurredAt, m.content with
    | some occurredAt, some content =>
      let shared := decisionEntities.filter fun n =>
        decide (n.1 ∈ entitiesOf overlaps m.id)
      if occurredAt ≤ decision.decidedAt then none
      else if m.id ∈ decision.evidenceMemoryIds then none
      else if isBlank content then none
      else if !decisionEntities.isEmpty && shared.isEmpty then none
      else
        some
          { memoryId := m.id
            sourceName := sourceName names m.sourceId
            externalKey := m.externalKey
            occurredAt := occurredAt
            occurredAtSource := m.occurredAtSource
            text := content
            gapDays := (occurredAt - decision.decidedAt) / dayMicroseconds
            sharedEntities :=
              (shared.map (·.2)).insertionSort fun a b => a ≤ b
            : Candidate }
    | _, _ => none
  ((kept.insertionSort fun a b => a.gapDays ≤ b.gapDays).take limit,
    if decisionEntities.isEmpty then "unavailable" else "applied")

/-- `decision.decided_at + timedelta(days=window_days)`. -/
def windowStop (decision : DecisionContext) (windowDays : ℚ) :
    Except DatetimeError Datetime :=
  Datetime.ofInstant (decision.decidedAt + timedeltaDays windowDays)

/-- `find_candidates` while nobody writes; its window may end where the
calendar has. -/
def candidatesOf (db : Db) (decision : DecisionContext) (windowDays : ℚ)
    (limit : Nat) : Except DatetimeError (List Candidate × String) :=
  (windowStop decision windowDays).map fun _ =>
    findCandidates db db db db decision windowDays limit

-- ======== the pass

/-- `_Judgement`. -/
structure Judgement where
  answer : Text
  verdict : Option Text
  description : Option Text
  rationale : Option Text
  confidence : ℚ

/-- `OutcomeVerdict(…)`. -/
def verdictOf (value : Text) : Option OutcomeVerdict :=
  if value = "worked".toList then some .worked
  else if value = "failed".toList then some .failed
  else if value = "mixed".toList then some .mixed
  else if value = "too_early".toList then some .tooEarly
  else none

/-- `SuggestOutcomes._judge`, of what the model's reply parses to. -/
def judge (lower : Text → Text) (minConfidence : ℚ) (reply : Judgement) :
    Option OutcomeDraft :=
  if lower (strip reply.answer) ≠ "yes".toList then none
  else if reply.confidence < minConfidence then none
  else
    match optionalText reply.description,
      verdictOf (lower (strip (reply.verdict.getD []))) with
    | some description, some verdict =>
      some
        { description := description
          verdict := verdict
          rationale := optionalText reply.rationale
          judgedConfidence := some reply.confidence
          evidence := [] }
    | _, _ => none

/-- The characters of the candidate that a reviewer is shown. -/
def sourceTextChars : Nat := 4000

/-- `SuggestOutcomes._queue`; a source text of blanks is refused by
`ck_outcome_suggestions_source_text`. -/
def queueOutcome (queue : OutcomeQueue) (decision : DecisionContext)
    (c : Candidate) (draft : OutcomeDraft) (entityFilter : String)
    (windowDays : ℚ) (modelId suggesterVersion : String) (now : Timestamp)
    (begun : Nat) : Except Refusal OutcomeQueue :=
  let sourceText := c.text.take sourceTextChars
  if sourceText.all (· == ' ') then .error .integrityError
  else
    .ok (queue.propose (c.key decision)
      { draft := draft
        sourceText := sourceText
        memoryId := c.memoryId
        candidateOccurredAt := c.occurredAt
        gapDays := c.gapDays
        windowDays := windowDays
        sharedEntities := c.sharedEntities
        entityFilter := entityFilter
        modelId := modelId
        suggesterVersion := suggesterVersion }
      now begun)

-- ======= reviewing

/-- `_provenance_of`. -/
def provenanceOf (db : Db) (name externalKey : String) :
    Except Refusal TimeProvenance :=
  match db.memories.filter fun m =>
      (db.sources.any fun s =>
          decide (s.id = m.sourceId) && decide (s.name = name))
        && decide (m.externalKey = externalKey) && m.isCurrent with
  | [] => .ok .inferred
  | [m] =>
    .ok (if m.occurredAtSource = .unknown then .inferred
      else m.occurredAtSource)
  | _ :: _ :: _ => .error .multipleResults

/-- The first transaction of `accept`. -/
def prepareOutcome (db : Db) (row : Row PairKey SuggestedOutcome)
    (edited : Option OutcomeDraft) : Except Refusal PreparedOutcome :=
  let draft := edited.getD row.body.draft.reread
  (provenanceOf db row.key.sourceName row.key.externalKey).map
    fun provenance =>
      { decisionId := row.key.decisionId
        draft := draft
        sourceName := row.key.sourceName
        externalKey := row.key.externalKey
        observedAt := row.body.candidateOccurredAt
        stated := draft.judgedConfidence.getD 0
        provenance := provenance }

/-- The second transaction of `accept`: `outcomes.record` of an inferred
outcome, with the candidate as the evidence. -/
def recordSuggestedOutcome (db : Db) (t : Tables) (p : PreparedOutcome)
    (now : Timestamp) : Except Refusal (Tables × Id) :=
  recordOutcome db t p.decisionId
    { p.draft with
      judgedConfidence := none
      evidence :=
        [{ sourceName := p.sourceName
           externalKey := p.externalKey
           relation := .records
           chunkOrdinal := none }] }
    p.observedAt p.provenance .inferred
    (if 0 < p.stated then some (min p.stated (99 / 100)) else none) now

end Decisions

end MemoryOS
