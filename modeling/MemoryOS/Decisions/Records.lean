/-
Decisions, what followed from them, and what they took for granted
(`application/decisions.py`, `application/outcomes.py`,
`application/assumptions.py`, `domain/patterns.py`).

`record` writes a decision with its options, assumptions and evidence in
one transaction, `edit` rewrites parts of it, `recordOutcome` writes what
was observed afterwards, `evaluate` judges one assumption. Each is one
transaction: a refusal leaves the tables as they were.

The corpus that evidence is resolved against is read and never written
here, so each call is given the one it reads. Probabilities are exact
rationals. A `Timestamp` is an aware `datetime`.

A query reads the table's rows in any order. `DISTINCT ON` keeps the first row
of a decision in the query's order, and which of the rows that tie there is the
reading's.
-/
import Mathlib.Algebra.Order.Field.Rat
import Mathlib.Data.List.Sort
import MemoryOS.Db.Tables
import MemoryOS.Lib.DistinctOn

namespace MemoryOS.Decisions

-- ========== values

/-- `DecisionStatus`; `opened` is its `OPEN`. -/
inductive DecisionStatus
  | opened | settled | reversed
deriving DecidableEq, Repr

/-- `ConfidenceHorizon`. -/
inductive ConfidenceHorizon
  | foresight | hindsight | unknown
deriving DecidableEq, Repr

/-- `OutcomeVerdict`. -/
inductive OutcomeVerdict
  | worked | failed | mixed | tooEarly
deriving DecidableEq, Repr

/-- `AssumptionVerdict`. -/
inductive AssumptionVerdict
  | held | failed | partially
deriving DecidableEq, Repr

/-- `EvidenceKind`. -/
inductive EvidenceKind
  | declared | inferred
deriving DecidableEq, Repr

/-- `FORESIGHT_WINDOW`: a day. -/
def foresightWindow : Timestamp := 24 * 3600 * 1000000

/-- `classify_confidence`. -/
def classifyConfidence (confidence : Option ℚ) (decidedAt : Timestamp)
    (decidedAtSource : TimeProvenance) (recordedAt : Timestamp)
    (outcomeAlreadyObserved : Bool) : ConfidenceHorizon :=
  match confidence with
  | none => .unknown
  | some _ =>
    if outcomeAlreadyObserved then .hindsight
    else if decidedAtSource ≠ .declared then .hindsight
    else if recordedAt - decidedAt > foresightWindow then .hindsight
    else .foresight

-- ========== drafts

/-- `OptionInput`. -/
structure OptionInput where
  description : Text
  rejectedBecause : Option Text
  wasChosen : Bool
deriving DecidableEq, Repr

/-- `AssumptionInput`. -/
structure AssumptionInput where
  statement : Text
  confidence : Option ℚ
deriving DecidableEq, Repr

/-- `EvidenceInput`. The outcome's `OutcomeEvidenceInput` has no relation. -/
structure EvidenceInput where
  sourceName : String
  externalKey : String
  relation : EvidenceRelation
  chunkOrdinal : Option Nat
deriving DecidableEq, Repr

/-- `DecisionDraft`. -/
structure DecisionDraft where
  question : Text
  chosen : Text
  reasoning : Option Text
  confidence : Option ℚ
  expectedOutcome : Option Text
  options : List OptionInput
  assumptions : List AssumptionInput
  evidence : List EvidenceInput
deriving DecidableEq, Repr

/-- `DecisionEdit`. -/
structure DecisionEdit where
  question : Option Text
  chosen : Option Text
  reasoning : Option Text
  expectedOutcome : Option Text
  status : Option DecisionStatus
  options : Option (List OptionInput)
  assumptions : Option (List AssumptionInput)
deriving DecidableEq, Repr

/-- `OutcomeDraft`. -/
structure OutcomeDraft where
  description : Text
  verdict : OutcomeVerdict
  rationale : Option Text
  judgedConfidence : Option ℚ
  evidence : List EvidenceInput
deriving DecidableEq, Repr

-- ========== tables

/-- A row of `decisions`. -/
structure Decision where
  id : Id
  question : Text
  chosen : Text
  reasoning : Option Text
  confidence : Option ℚ
  confidenceHorizon : ConfidenceHorizon
  expectedOutcome : Option Text
  decidedAt : Timestamp
  decidedAtSource : TimeProvenance
  status : DecisionStatus
  createdAt : Timestamp
  updatedAt : Timestamp
  /-- Not in the source: the number of the transaction that wrote the
  confidence. -/
  writtenIn : Nat
deriving DecidableEq, Repr

/-- A row of `decision_options`. -/
structure DecisionOption where
  id : Id
  decisionId : Id
  description : Text
  wasChosen : Bool
  rejectedBecause : Option Text
deriving DecidableEq, Repr

/-- A row of `decision_assumptions`. -/
structure DecisionAssumption where
  id : Id
  decisionId : Id
  statement : Text
  confidence : Option ℚ
  held : Option AssumptionVerdict
  evaluatedAt : Option Timestamp
  note : Option Text
  groupId : Option Id
  /-- Not in the source: the number of the transaction that wrote the
  confidence. -/
  writtenIn : Nat
  /-- Not in the source: when that was. -/
  writtenAt : Timestamp
  /-- Not in the source: the date of every evaluation of this row. -/
  evaluations : List Timestamp
deriving DecidableEq, Repr

/-- A row of `decision_outcomes`. -/
structure DecisionOutcome where
  id : Id
  decisionId : Id
  description : Text
  verdict : OutcomeVerdict
  observedAt : Timestamp
  observedAtSource : TimeProvenance
  evidenceKind : EvidenceKind
  confidence : Option ℚ
deriving DecidableEq, Repr

/-- The tables these use cases write. -/
structure Tables where
  decisions : List Decision
  options : List DecisionOption
  assumptions : List DecisionAssumption
  outcomes : List DecisionOutcome
  /-- `decision_evidence`, `outcome_evidence` and `assumption_evidence`. -/
  evidence : List EvidenceRow
  /-- The next id `new_id` returns. -/
  nextId : Id
  /-- Not in the source: how many transactions have written. -/
  written : Nat
deriving DecidableEq, Repr

namespace Tables

/-- Nothing was ever recorded. -/
def empty : Tables where
  decisions := []
  options := []
  assumptions := []
  outcomes := []
  evidence := []
  nextId := 0
  written := 0

/-- `session.get(models.Decision, id)`. -/
def decision (t : Tables) (id : Id) : Option Decision :=
  t.decisions.find? fun d => decide (d.id = id)

/-- `session.get(models.DecisionAssumption, id)`. -/
def assumption (t : Tables) (id : Id) : Option DecisionAssumption :=
  t.assumptions.find? fun a => decide (a.id = id)

end Tables

/-- What `InvalidDecision` and `InvalidOutcome` complain about. -/
inductive Complaint
  | noQuestion
  | noChosen
  | noAlternatives (question : Text)
  | confidence (stated : ℚ)
  | noStatement
  | assumptionConfidence (stated : ℚ)
  | unknownDate
  | lastAlternative
  | noDescription
  | certainInference
deriving DecidableEq, Repr

/-- Why a call raised; its transaction is rolled back. -/
inductive Refusal
  | invalid (complaint : Complaint)
  | unknownDecision
  | unknownAssumption
  | unresolvedEvidence
  | multipleResults
  | integrityError
deriving DecidableEq, Repr

/-- `_optional_text`. -/
def optionalText (value : Option Text) : Option Text :=
  value.bind fun text => if isBlank text then none else some (strip text)

/-- `not 0.0 <= confidence <= 1.0`, of a confidence that is given. -/
def outOfRange (confidence : Option ℚ) : Option ℚ :=
  confidence.filter fun c => !(decide (0 ≤ c) && decide (c ≤ 1))

-- ======== evidence

/-- The current memories of an item, as `_link_one` selects them. -/
def currentMemories (db : Db) (sourceName externalKey : String) :
    List Memory :=
  db.memories.filter fun m =>
    (db.sources.any fun s =>
        decide (s.id = m.sourceId) && decide (s.name = sourceName))
      && decide (m.externalKey = externalKey) && m.isCurrent
      && m.deletedAt.isNone

/-- The chunk a link names, if it names one. -/
def resolveChunk (db : Db) (memoryId : Id) :
    Option Nat → Except Refusal (Option Id)
  | none => .ok none
  | some ordinal =>
    match db.chunks.filter fun c =>
        decide (c.memoryId = memoryId) && decide (c.ordinal = ordinal) with
    | [] => .error .unresolvedEvidence
    | [c] => .ok (some c.id)
    | _ :: _ :: _ => .error .multipleResults

/-- The rows of one evidence table that a unique constraint takes to be the
same link: the relation is part of it for a decision alone. -/
def sameLink (row other : EvidenceRow) : Bool :=
  decide (row.table = other.table) && decide (row.owner = other.owner)
    && decide (row.memoryId = other.memoryId)
    && decide (row.chunkId = other.chunkId)
    && match row.columns, other.columns with
      | .decision r _, .decision r' _ => decide (r = r')
      | _, _ => true

/-- The insert both `_link_one`s end with. -/
def insertEvidence (t : Tables) (row : EvidenceRow) :
    Except Refusal Tables :=
  if t.evidence.any (sameLink row) then .error .integrityError
  else .ok { t with evidence := t.evidence ++ [row], nextId := t.nextId + 1 }

/-- `decisions._link_one`, which insists on at most one memory. -/
def linkToDecision (db : Db) (decisionId : Id) (now : Timestamp)
    (t : Tables) (link : EvidenceInput) : Except Refusal Tables :=
  match currentMemories db link.sourceName link.externalKey with
  | [] => .error .unresolvedEvidence
  | _ :: _ :: _ => .error .multipleResults
  | [m] => do
      let chunkId ← resolveChunk db m.id link.chunkOrdinal
      insertEvidence t
        { id := t.nextId
          table := .decisionEvidence
          owner := decisionId
          memoryId := m.id
          chunkId := chunkId
          sourceName := link.sourceName
          externalKey := link.externalKey
          chunkOrdinal := link.chunkOrdinal
          columns := .decision link.relation now }

/-- `_link_one` of `outcomes` and of `assumptions`, which takes the first
memory and keeps its date. -/
def linkSnapshot (table : EvidenceTable) (db : Db) (owner : Id)
    (now : Timestamp) (t : Tables) (link : EvidenceInput) :
    Except Refusal Tables :=
  match currentMemories db link.sourceName link.externalKey with
  | [] => .error .unresolvedEvidence
  | m :: _ => do
      let chunkId ← resolveChunk db m.id link.chunkOrdinal
      insertEvidence t
        { id := t.nextId
          table := table
          owner := owner
          memoryId := m.id
          chunkId := chunkId
          sourceName := link.sourceName
          externalKey := link.externalKey
          chunkOrdinal := link.chunkOrdinal
          columns := .snapshot m.occurredAt now }

/-- `outcomes._link_one`. -/
def linkToOutcome : Db → Id → Timestamp → Tables → EvidenceInput →
    Except Refusal Tables :=
  linkSnapshot .outcomeEvidence

/-- `assumptions._link_one`. -/
def linkToAssumption : Db → Id → Timestamp → Tables → EvidenceInput →
    Except Refusal Tables :=
  linkSnapshot .assumptionEvidence

-- ========= writing

/-- The options that count as alternatives to `chosen`. -/
def alternatives (casefold : Text → Text) (chosen : Text)
    (options : List OptionInput) : List OptionInput :=
  options.filter fun o =>
    !isBlank o.description
      && decide (casefold (strip o.description) ≠ casefold chosen)

/-- `_validate`. -/
def validate (casefold : Text → Text) (draft : DecisionDraft)
    (decidedAtSource : TimeProvenance) : Except Refusal DecisionDraft :=
  let question := strip draft.question
  let chosen := strip draft.chosen
  let kept := alternatives casefold chosen draft.options
  if question.isEmpty then .error (.invalid .noQuestion)
  else if chosen.isEmpty then .error (.invalid .noChosen)
  else if kept.isEmpty then .error (.invalid (.noAlternatives question))
  else
    match outOfRange draft.confidence,
      draft.assumptions.findSome? fun a =>
        if isBlank a.statement then some Complaint.noStatement
        else (outOfRange a.confidence).map .assumptionConfidence with
    | some stated, _ => .error (.invalid (.confidence stated))
    | none, some complaint => .error (.invalid complaint)
    | none, none =>
      if decidedAtSource = .unknown then .error (.invalid .unknownDate)
      else
        .ok
          { question := question
            chosen := chosen
            reasoning := optionalText draft.reasoning
            confidence := draft.confidence
            expectedOutcome := optionalText draft.expectedOutcome
            options := kept
            assumptions := draft.assumptions.map fun a =>
              { a with statement := strip a.statement }
            evidence := draft.evidence }

/-- `_write_options`: the choice itself, then what lost. -/
def writeOptions (t : Tables) (decisionId : Id) (chosen : Text)
    (options : List OptionInput) : Tables :=
  { t with
    options := t.options
      ++ { id := t.nextId
           decisionId := decisionId
           description := chosen
           wasChosen := true
           rejectedBecause := none }
      :: options.mapIdx fun i o =>
        { id := t.nextId + 1 + i
          decisionId := decisionId
          description := strip o.description
          wasChosen := false
          rejectedBecause := optionalText o.rejectedBecause }
    nextId := t.nextId + 1 + options.length }

/-- `_write_assumptions`. -/
def writeAssumptions (t : Tables) (decisionId : Id)
    (assumptions : List AssumptionInput) (now : Timestamp) : Tables :=
  { t with
    assumptions := t.assumptions ++ assumptions.mapIdx fun i a =>
      { id := t.nextId + i
        decisionId := decisionId
        statement := strip a.statement
        confidence := a.confidence
        held := none
        evaluatedAt := none
        note := none
        groupId := none
        writtenIn := t.written
        writtenAt := now
        evaluations := [] }
    nextId := t.nextId + assumptions.length }

/-- The horizon that `record` writes: no caller of `classify_confidence` says
that an outcome was already observed, and a caller of `record` may only make
it worse. -/
def horizonFor (confidence : Option ℚ) (decidedAt : Timestamp)
    (decidedAtSource : TimeProvenance) (now : Timestamp)
    (confidenceHorizon : Option ConfidenceHorizon) : ConfidenceHorizon :=
  if confidenceHorizon = some .hindsight then .hindsight
  else classifyConfidence confidence decidedAt decidedAtSource now false

/-- The row of a new decision. -/
def decisionRow (t : Tables) (validated : DecisionDraft)
    (decidedAt : Timestamp) (decidedAtSource : TimeProvenance)
    (status : DecisionStatus) (horizon : ConfidenceHorizon)
    (now : Timestamp) : Decision where
  id := t.nextId
  question := validated.question
  chosen := validated.chosen
  reasoning := validated.reasoning
  confidence := validated.confidence
  confidenceHorizon := horizon
  expectedOutcome := validated.expectedOutcome
  decidedAt := decidedAt
  decidedAtSource := decidedAtSource
  status := status
  createdAt := now
  updatedAt := now
  writtenIn := t.written

/-- `decisions.record`. -/
def record (casefold : Text → Text) (db : Db) (t : Tables)
    (draft : DecisionDraft) (decidedAt : Timestamp)
    (decidedAtSource : TimeProvenance) (status : DecisionStatus)
    (confidenceHorizon : Option ConfidenceHorizon) (now : Timestamp) :
    Except Refusal (Tables × Id) := do
  let validated ← validate casefold draft decidedAtSource
  let horizon := horizonFor validated.confidence decidedAt decidedAtSource
    now confidenceHorizon
  -- `ck_decisions_horizon_pairing`
  if validated.confidence.isNone ≠ decide (horizon = .unknown) then
    .error .integrityError
  else
    let id := t.nextId
    let t :=
      { t with
        decisions := t.decisions ++
          [decisionRow t validated decidedAt decidedAtSource status horizon
            now]
        nextId := t.nextId + 1 }
    let t := writeOptions t id validated.chosen validated.options
    let t := writeAssumptions t id validated.assumptions now
    let t ← validated.evidence.foldlM (linkToDecision db id now) t
    .ok ({ t with written := t.written + 1 }, id)

/-- A declared outcome is certain unless something else is said. -/
def outcomeConfidence (evidenceKind : EvidenceKind)
    (confidence : Option ℚ) : Option ℚ :=
  confidence.or (if evidenceKind = .declared then some 1 else none)

/-- `outcomes.record`. -/
def recordOutcome (db : Db) (t : Tables) (decisionId : Id)
    (draft : OutcomeDraft) (observedAt : Timestamp)
    (observedAtSource : TimeProvenance) (evidenceKind : EvidenceKind)
    (confidence : Option ℚ) (now : Timestamp) :
    Except Refusal (Tables × Id) :=
  let description := strip draft.description
  let confidence := outcomeConfidence evidenceKind confidence
  if description.isEmpty then .error (.invalid .noDescription)
  else if observedAtSource = .unknown then .error (.invalid .unknownDate)
  else
    match outOfRange confidence with
    | some stated => .error (.invalid (.confidence stated))
    | none =>
      if evidenceKind = .inferred ∧ confidence = some 1 then
        .error (.invalid .certainInference)
      else if (t.decision decisionId).isNone then .error .unknownDecision
      else do
        let id := t.nextId
        let t :=
          { t with
            outcomes := t.outcomes ++
              [{ id := id
                 decisionId := decisionId
                 description := description
                 verdict := draft.verdict
                 observedAt := observedAt
                 observedAtSource := observedAtSource
                 evidenceKind := evidenceKind
                 confidence := confidence }]
            nextId := t.nextId + 1 }
        let t ← draft.evidence.foldlM (linkToOutcome db id now) t
        .ok ({ t with written := t.written + 1 }, id)

/-- `assumptions.evaluate`. -/
def evaluate (db : Db) (t : Tables) (assumptionId : Id)
    (verdict : AssumptionVerdict) (note : Option Text)
    (evidence : List EvidenceInput) (evaluatedAt : Option Timestamp)
    (now : Timestamp) : Except Refusal Tables :=
  match t.assumption assumptionId with
  | none => .error .unknownAssumption
  | some _ => do
      let judged := evaluatedAt.getD now
      let t :=
        { t with
          assumptions := t.assumptions.map fun a =>
            if a.id = assumptionId then
              { a with
                held := some verdict
                evaluatedAt := some judged
                note := optionalText note
                evaluations := a.evaluations ++ [judged] }
            else a
          evidence := t.evidence.filter fun e =>
            !(decide (e.table = .assumptionEvidence)
              && decide (e.owner = assumptionId)) }
      let t ← evidence.foldlM (linkToAssumption db assumptionId now) t
      .ok { t with written := t.written + 1 }

-- ========= editing

/-- The columns of a decision that an edit changes. -/
def Decision.edited (d : Decision) (changes : DecisionEdit)
    (now : Timestamp) : Decision :=
  { d with
    question := (changes.question.map strip).getD d.question
    chosen := (changes.chosen.map strip).getD d.chosen
    reasoning := match changes.reasoning with
      | none => d.reasoning
      | some text => optionalText (some text)
    expectedOutcome := match changes.expectedOutcome with
      | none => d.expectedOutcome
      | some text => optionalText (some text)
    status := changes.status.getD d.status
    updatedAt := now }

/-- What an edit does to the options. -/
def editOptions (casefold : Text → Text) (t : Tables) (d : Decision)
    (changes : DecisionEdit) : Except Refusal Tables :=
  match changes.options with
  | some options =>
    let kept := alternatives casefold d.chosen options
    if kept.isEmpty then .error (.invalid .lastAlternative)
    else
      .ok (writeOptions
        { t with
          options := t.options.filter fun o =>
            decide (o.decisionId ≠ d.id) }
        d.id d.chosen kept)
  | none =>
    if changes.chosen.isSome then
      -- The winner's text moved and the list did not.
      .ok { t with
        options := (t.options.filter fun o =>
            !(decide (o.decisionId = d.id) && o.wasChosen))
          ++ [{ id := t.nextId
                decisionId := d.id
                description := d.chosen
                wasChosen := true
                rejectedBecause := none }]
        nextId := t.nextId + 1 }
    else .ok t

/-- What an edit does to the assumptions: the rows go and new ones come. -/
def editAssumptions (t : Tables) (decisionId : Id) (changes : DecisionEdit)
    (now : Timestamp) : Except Refusal Tables :=
  match changes.assumptions with
  | none => .ok t
  | some assumptions =>
    if assumptions.any fun a => isBlank a.statement then
      .error (.invalid .noStatement)
    -- `ck_decision_assumptions_confidence_range`
    else if assumptions.any fun a => (outOfRange a.confidence).isSome then
      .error .integrityError
    else
      .ok (writeAssumptions
        { t with
          assumptions := t.assumptions.filter fun a =>
            decide (a.decisionId ≠ decisionId)
          -- `ON DELETE CASCADE`
          evidence := t.evidence.filter fun e =>
            !(decide (e.table = .assumptionEvidence)
              && t.assumptions.any fun a =>
                decide (a.id = e.owner)
                  && decide (a.decisionId = decisionId)) }
        decisionId assumptions now)

/-- `decisions.edit`. -/
def edit (casefold : Text → Text) (t : Tables) (decisionId : Id)
    (changes : DecisionEdit) (now : Timestamp) : Except Refusal Tables :=
  match t.decision decisionId with
  | none => .error .unknownDecision
  | some d =>
    if changes.question.any isBlank then .error (.invalid .noQuestion)
    else if changes.chosen.any isBlank then .error (.invalid .noChosen)
    else do
      let d := d.edited changes now
      let t :=
        { t with
          decisions := t.decisions.map fun row =>
            if row.id = decisionId then d else row }
      let t ← editOptions casefold t d changes
      let t ← editAssumptions t decisionId changes now
      .ok { t with written := t.written + 1 }

open Lib Lib.DistinctOn

-- ======= the table

/-- A row of `decision_outcomes`, as far as a verdict is read from it. -/
structure OutcomeRecord where
  id : Id
  decisionId : Id
  verdict : OutcomeVerdict
  observedAt : Timestamp
  createdAt : Timestamp
deriving DecidableEq, Repr

/-- The two tables, with their primary and foreign keys. -/
structure Ledger where
  decisions : List Id
  outcomes : List OutcomeRecord
  decisionKeys : decisions.Nodup
  outcomeKeys : (outcomes.map (·.id)).Nodup
  foreignKeys : ∀ o ∈ outcomes, o.decisionId ∈ decisions

-- ======= the reads

/-- `ORDER BY decision_id, observed_at DESC, created_at DESC`. -/
def newestFirst (a b : OutcomeRecord) : Bool :=
  decide (a.decisionId < b.decisionId)
    || decide (a.decisionId = b.decisionId)
      && (decide (b.observedAt < a.observedAt)
        || decide (a.observedAt = b.observedAt)
          && decide (b.createdAt ≤ a.createdAt))

/-- The rows that `DISTINCT ON (decision_id)` keeps of a reading. -/
def latestRows (reading : List OutcomeRecord) : List OutcomeRecord :=
  distinctOn (·.decisionId)
    (reading.insertionSort fun a b => newestFirst a b = true)

/-- `{row[0]: OutcomeVerdict(row[1]) for row in rows}`. -/
def verdicts (rows : List OutcomeRecord) : List (Id × OutcomeVerdict) :=
  rows.map fun o => (o.decisionId, o.verdict)

/-- `latest_verdict`. -/
def latestVerdict (reading : List OutcomeRecord) : List (Id × OutcomeVerdict) :=
  verdicts (latestRows reading)

/-- `_latest_outcomes`. -/
def latestOutcomes (decisionIds : List Id) (reading : List OutcomeRecord) :
    List (Id × OutcomeVerdict) :=
  if decisionIds.isEmpty then []
  else verdicts (latestRows (reading.filter fun o =>
    decisionIds.contains o.decisionId))

-- ====== the summary

/-- `SuccessRate`. -/
structure SuccessRate where
  worked : Nat
  failed : Nat
  mixed : Nat
  tooEarly : Nat
  undecided : Nat
deriving DecidableEq, Repr

/-- How many decisions a summary counts under a verdict. -/
def SuccessRate.of (rate : SuccessRate) : OutcomeVerdict → Nat
  | .worked => rate.worked
  | .failed => rate.failed
  | .mixed => rate.mixed
  | .tooEarly => rate.tooEarly

/-- `tally[verdict]`, after the loop over `latest.values()`. -/
def tally (latest : List (Id × OutcomeVerdict)) (verdict : OutcomeVerdict) :
    Nat :=
  (latest.filter fun p => decide (p.2 = verdict)).length

/-- `success_rate`, of so many decisions. -/
def successRate (total : Nat) (latest : List (Id × OutcomeVerdict)) :
    SuccessRate where
  worked := tally latest .worked
  failed := tally latest .failed
  mixed := tally latest .mixed
  tooEarly := tally latest .tooEarly
  undecided := total - latest.length

end MemoryOS.Decisions
