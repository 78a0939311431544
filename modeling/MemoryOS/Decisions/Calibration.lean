/-
Stated confidence against what happened
(`application/patterns.py: detect_calibration_patterns`).

`readCorpus` takes a snapshot, and the detector sorts what it may
calibrate into bands: a decision's confidence against its latest outcome,
an assumption's against the verdict on it. What a band becomes afterwards
(an interval, a direction, a sentence) is arithmetic over the band and is
not modelled.

The `World` of a run is the tables: `record`, `edit`, `recordOutcome` and
`evaluate` take turns on them.
-/
import MemoryOS.Decisions.Records
import MemoryOS.Lib.Grouped
import MemoryOS.Lib.Machine
import Mathlib.Data.List.Sort

namespace MemoryOS

open Lib Lib.Grouped

namespace Decisions

-- ====== the corpus

/-- `Corpus`. -/
structure Corpus where
  decisions : List Decision
  assumptions : List DecisionAssumption
  outcomes : List DecisionOutcome

/-- `read_corpus`. -/
def readCorpus (t : Tables) : Corpus where
  decisions := t.decisions
  assumptions := t.assumptions
  outcomes := t.outcomes

namespace Corpus

/-- `Corpus.foresight_decisions`. -/
def foresightDecisions (c : Corpus) : List Id :=
  (c.decisions.filter fun d =>
    decide (d.confidenceHorizon = .foresight)).map (·.id)

/-- `Corpus.latest_outcome`, at one decision: the dictionary is filled in
the order of `observed_at`, so the last entry stays. -/
def latestOutcome (c : Corpus) (decisionId : Id) : Option DecisionOutcome :=
  ((c.outcomes.insertionSort fun a b => a.observedAt ≤ b.observedAt).filter
    fun o => decide (o.decisionId = decisionId)).getLast?

end Corpus

-- ======= the bands

/-- `_BANDS`. -/
def bands : List (ℚ × ℚ) :=
  [(0, 1 / 4), (1 / 4, 1 / 2), (1 / 2, 3 / 4), (3 / 4, 1)]

/-- `_band_of`. -/
def bandOf (confidence : ℚ) : ℚ × ℚ :=
  (bands.find? fun b => decide (b.1 ≤ confidence) && decide (confidence < b.2))
    |>.getD (3 / 4, 1)

/-- `EvidenceItem`, without its note. -/
structure EvidenceItem where
  decisionId : Id
  outcomeId : Option Id
  assumptionId : Option Id
deriving DecidableEq, Repr

/-- What `_calibration_candidate` is called with. -/
structure CalibrationBand where
  detector : String
  low : ℚ
  high : ℚ
  stated : ℚ
  successes : Nat
  total : Nat
  supporting : List EvidenceItem
  contradicting : List EvidenceItem
deriving DecidableEq, Repr

/-- The mean of what was stated. -/
def stated (confidences : List (Option ℚ)) : ℚ :=
  (confidences.map fun c => c.getD 0).sum / confidences.length

/-- The pairs that the first loop keeps: a decision with a confidence it may
be held to, and how it went. -/
def decisionRows (c : Corpus) : List (Decision × DecisionOutcome) :=
  c.decisions.filterMap fun d =>
    match d.confidence, c.latestOutcome d.id with
    | some _, some outcome =>
      if d.id ∉ c.foresightDecisions then none
      else if outcome.verdict = .tooEarly then none
      else some (d, outcome)
    | _, _ => none

/-- The assumptions that the second loop keeps: judged, and with the
confidence of a decision that foresaw. -/
def assumptionRows (c : Corpus) : List DecisionAssumption :=
  c.assumptions.filter fun a =>
    a.confidence.isSome && a.held.isSome
      && decide (a.decisionId ∈ c.foresightDecisions)

/-- One band of decisions. -/
def decisionBand (band : ℚ × ℚ) (rows : List (Decision × DecisionOutcome)) :
    CalibrationBand :=
  let worked := rows.filter fun p => decide (p.2.verdict = .worked)
  let didNot := rows.filter fun p => decide (p ∉ worked)
  let item := fun (p : Decision × DecisionOutcome) =>
    { decisionId := p.1.id
      outcomeId := some p.2.id
      assumptionId := none : EvidenceItem }
  { detector := "decision_calibration"
    low := band.1
    high := band.2
    stated := stated (rows.map (·.1.confidence))
    successes := worked.length
    total := rows.length
    supporting := didNot.map item
    contradicting := worked.map item }

/-- One band of assumptions. -/
def assumptionBand (band : ℚ × ℚ) (members : List DecisionAssumption) :
    CalibrationBand :=
  let held := members.filter fun a => decide (a.held = some .held)
  let broke := members.filter fun a => decide (a ∉ held)
  let item := fun (a : DecisionAssumption) =>
    { decisionId := a.decisionId
      outcomeId := none
      assumptionId := some a.id : EvidenceItem }
  { detector := "assumption_calibration"
    low := band.1
    high := band.2
    stated := stated (members.map (·.confidence))
    successes := held.length
    total := members.length
    supporting := broke.map item
    contradicting := held.map item }

/-- `detect_calibration_patterns`. -/
def detectCalibrationPatterns (c : Corpus) : List CalibrationBand :=
  ((grouped (fun p => bandOf (p.1.confidence.getD 0)) (decisionRows c)).map
      fun g => decisionBand g.1 g.2)
    ++ (grouped (fun a => bandOf (a.confidence.getD 0))
        (assumptionRows c)).map fun g => assumptionBand g.1 g.2

-- ======= the calls

/-- A call. Each brings the corpus it resolves evidence against. -/
inductive Action
  | record (db : Db) (draft : DecisionDraft) (decidedAt : Timestamp)
      (decidedAtSource : TimeProvenance) (status : DecisionStatus)
      (confidenceHorizon : Option ConfidenceHorizon) (now : Timestamp)
  | edit (decisionId : Id) (changes : DecisionEdit) (now : Timestamp)
  | recordOutcome (db : Db) (decisionId : Id) (draft : OutcomeDraft)
      (observedAt : Timestamp) (observedAtSource : TimeProvenance)
      (evidenceKind : EvidenceKind) (confidence : Option ℚ)
      (now : Timestamp)
  | evaluate (db : Db) (assumptionId : Id) (verdict : AssumptionVerdict)
      (note : Option Text) (evidence : List EvidenceInput)
      (evaluatedAt : Option Timestamp) (now : Timestamp)

/-- What a call does to the tables. -/
def perform (casefold : Text → Text) (t : Tables) :
    Action → Except Refusal Tables
  | .record db draft decidedAt source status horizon now =>
    (record casefold db t draft decidedAt source status horizon now).map
      (·.1)
  | .edit decisionId changes now => edit casefold t decisionId changes now
  | .recordOutcome db decisionId draft observedAt source kind confidence
      now =>
      (recordOutcome db t decisionId draft observedAt source kind confidence
        now).map (·.1)
  | .evaluate db assumptionId verdict note evidence evaluatedAt now =>
    evaluate db t assumptionId verdict note evidence evaluatedAt now

/-- The calls, one transaction after another. -/
def machine (casefold : Text → Text) : Machine Tables Action Unit where
  step := fun t a =>
    match perform casefold t a with
    | .error _ => some (t, [])
    | .ok t' => some (t', [])

-- ====== statement vocabulary

/-- A confidence of `d` that was written in transaction `writtenIn`, at
`writtenAt`: with the decision, no more than the window after the date
somebody declared for it, and before anything was seen of how it went. -/
structure Foresaw (t : Tables) (d : Decision) (writtenIn : Nat)
    (writtenAt : Timestamp) : Prop where
  together : writtenIn = d.writtenIn
  declared : d.decidedAtSource = .declared
  after : d.decidedAt ≤ writtenAt
  inWindow : writtenAt ≤ d.decidedAt + foresightWindow
  unobserved : ∀ o ∈ t.outcomes, o.decisionId = d.id →
    writtenAt < o.observedAt

/-- The confidence of this decision is in a band. -/
def DecisionCalibrated (t : Tables) (d : Decision) : Prop :=
  ∃ b ∈ detectCalibrationPatterns (readCorpus t),
    b.detector = "decision_calibration"
      ∧ ∃ e ∈ b.supporting ++ b.contradicting, e.decisionId = d.id

/-- The confidence of this assumption is in a band. -/
def AssumptionCalibrated (t : Tables) (a : DecisionAssumption) : Prop :=
  ∃ b ∈ detectCalibrationPatterns (readCorpus t),
    b.detector = "assumption_calibration"
      ∧ ∃ e ∈ b.supporting ++ b.contradicting, e.assumptionId = some a.id

/-- What is calibrated was foreseen. -/
structure OnlyForesight (t : Tables) : Prop where
  decisions : ∀ d ∈ t.decisions, DecisionCalibrated t d →
    Foresaw t d d.writtenIn d.createdAt
  assumptions : ∀ a ∈ t.assumptions, AssumptionCalibrated t a →
    ∃ d ∈ t.decisions, d.id = a.decisionId
      ∧ Foresaw t d a.writtenIn a.writtenAt
      ∧ ∀ e ∈ a.evaluations, a.writtenAt < e

/-- What keeps hindsight out, of a call that goes through: a decision whose
confidence will be taken for foresight is not dated in the future; an edit
brings no confidences to a decision of foresight; nothing of such a
decision was observed, and none of its assumptions judged, at a date before
the confidence was written. -/
def Ahead (t : Tables) : Action → Prop
  | .record _ draft decidedAt source _ horizon now =>
    classifyConfidence draft.confidence decidedAt source now false
        = .foresight →
      horizon ≠ some .hindsight → decidedAt ≤ now
  | .edit decisionId changes _ =>
    ∀ d ∈ t.decisions, d.id = decisionId →
      d.confidenceHorizon = .foresight →
      ∀ brought, changes.assumptions = some brought →
        ∀ a ∈ brought, a.confidence = none
  | .recordOutcome _ decisionId _ observedAt _ _ _ _ =>
    ∀ d ∈ t.decisions, d.id = decisionId →
      d.confidenceHorizon = .foresight → d.createdAt < observedAt
  | .evaluate _ assumptionId _ _ _ evaluatedAt now =>
    ∀ a ∈ t.assumptions, a.id = assumptionId → a.confidence.isSome →
      ∀ d ∈ t.decisions, d.id = a.decisionId →
        d.confidenceHorizon = .foresight →
        a.writtenAt < evaluatedAt.getD now

/-- The guard of a step: a call that goes through keeps hindsight out. -/
def KeepsAhead (casefold : Text → Text) (t : Tables) (a : Action) : Prop :=
  (∃ t', perform casefold t a = .ok t') → Ahead t a

end Decisions

end MemoryOS
