/-
The four detectors (`application/patterns.py`): what each reads of the corpus,
and the candidates it proposes.

Floats of the source are rationals here, `math.sqrt` is a parameter, and so is
`repr`.
-/
import Mathlib.Data.List.Dedup
import Mathlib.Data.List.Sort
import MemoryOS.Decisions.Calibration
import MemoryOS.Decisions.Suggest
import MemoryOS.Domain.Patterns

namespace MemoryOS.Patterns

open Lib Lib.Grouped
open Decisions (DecisionStatus ConfidenceHorizon OutcomeVerdict AssumptionVerdict
  roundHalfEven)

-- =========== texts

/-- What Python does with floats and strings that is taken as it is. -/
structure Python where
  sqrt : ℚ → ℚ
  repr : Text → Text

/-- `f"{x:.nf}"`. -/
def fixed (digits : Nat) (x : ℚ) : Text :=
  let scaled := (roundHalfEven (x * 10 ^ digits)).natAbs
  let fraction := (toString (scaled % 10 ^ digits)).toList
  (if x < 0 then "-".toList else []) ++ (toString (scaled / 10 ^ digits)).toList
    ++ if digits = 0 then []
      else '.' :: (List.replicate (digits - fraction.length) '0' ++ fraction)

/-- `f"{x:.0%}"`. -/
def percent (x : ℚ) : Text := fixed 0 (x * 100) ++ "%".toList

/-- `str(n)`. -/
def str (n : Nat) : Text := (toString n).toList

-- ====== the corpus

/-- `_Assumption`. -/
structure AssumptionRow where
  id : Id
  decisionId : Id
  statement : Text
  confidence : Option ℚ
  held : Option AssumptionVerdict
  groupId : Option Id
  groupLabel : Option Text
deriving DecidableEq

/-- `_Decision`. -/
structure DecisionRow where
  id : Id
  question : Text
  chosen : Text
  confidence : Option ℚ
  confidenceHorizon : ConfidenceHorizon
  status : DecisionStatus
  decidedAt : Timestamp
deriving DecidableEq

/-- `_Outcome`. -/
structure OutcomeRow where
  id : Id
  decisionId : Id
  verdict : OutcomeVerdict
  observedAt : Timestamp
deriving DecidableEq

/-- `Corpus`, with the primary keys of the tables it was read from. -/
structure Corpus where
  decisions : List DecisionRow
  assumptions : List AssumptionRow
  outcomes : List OutcomeRow
  decisionKeys : (decisions.map (·.id)).Nodup
  assumptionKeys : (assumptions.map (·.id)).Nodup
  outcomeKeys : (outcomes.map (·.id)).Nodup

/-- `Corpus.foresight_decisions`. -/
def Corpus.foresightDecisions (c : Corpus) : List Id :=
  (c.decisions.filter fun d =>
    decide (d.confidenceHorizon = .foresight)).map (·.id)

/-- `Corpus.latest_outcome`, at one decision: the dictionary is filled in the
order of `observed_at`, so the last entry stays. -/
def Corpus.latestOutcome (c : Corpus) (decisionId : Id) : Option OutcomeRow :=
  ((c.outcomes.insertionSort fun a b => a.observedAt ≤ b.observedAt).filter
    fun o => decide (o.decisionId = decisionId)).getLast?

-- ====== candidates

/-- `PatternKind`. -/
inductive PatternKind
  | assumption | timing | choice | outcome
deriving DecidableEq, Repr

/-- `PatternRelation`. -/
inductive PatternRelation
  | supports | contradicts
deriving DecidableEq, Repr

/-- `EvidenceItem`. -/
structure EvidenceItem where
  decisionId : Id
  relation : PatternRelation
  note : Text
  assumptionId : Option Id := none
  outcomeId : Option Id := none
deriving DecidableEq

/-- A subject key: the id of a group, printed, or a text. -/
inductive SubjectKey
  | group (id : Id)
  | text (t : Text)
deriving DecidableEq

/-- The `metrics` of a calibration candidate. -/
structure Metrics where
  low : ℚ
  high : ℚ
  stated : ℚ
  successes : Nat
  total : Nat
deriving DecidableEq

/-- `Candidate`. -/
structure Candidate where
  kind : PatternKind
  detector : String
  subjectKey : SubjectKey
  statement : Text
  evidence : List EvidenceItem
  metrics : Option Metrics := none
  rejectedBecause : Option Text := none
deriving DecidableEq

/-- The distinct decisions of the evidence of one relation. -/
def Candidate.decisions (c : Candidate) (relation : PatternRelation) : List Id :=
  ((c.evidence.filter fun e => decide (e.relation = relation)).map
    (·.decisionId)).dedup

/-- `Candidate.supporting`. -/
def Candidate.supporting (c : Candidate) : List Id := c.decisions .supports

/-- `Candidate.contradicting`. -/
def Candidate.contradicting (c : Candidate) : List Id := c.decisions .contradicts

/-- What a pattern is about. -/
def Candidate.key (c : Candidate) : String × SubjectKey :=
  (c.detector, c.subjectKey)

/-- `AssumptionVerdict.value`. -/
def heldValue : AssumptionVerdict → Text
  | .held => "held".toList
  | .failed => "failed".toList
  | .partially => "partially".toList

/-- `OutcomeVerdict.value`. -/
def verdictValue : OutcomeVerdict → Text
  | .worked => "worked".toList
  | .failed => "failed".toList
  | .mixed => "mixed".toList
  | .tooEarly => "too_early".toList

/-- `member.held.value if member.held else '?'`. -/
def heldText (held : Option AssumptionVerdict) : Text :=
  (held.map heldValue).getD "?".toList

-- ====== the interval

/-- `Interval`. -/
structure Interval where
  observed : ℚ
  low : ℚ
  high : ℚ
  n : Nat

/-- `Interval.contains`. -/
def Interval.contains (i : Interval) (value : ℚ) : Bool :=
  decide (i.low ≤ value) && decide (value ≤ i.high)

/-- `Interval.describe`. -/
def Interval.describe (i : Interval) : Text :=
  percent i.observed ++ " (95% CI ".toList ++ percent i.low ++ "-".toList
    ++ percent i.high ++ ", n=".toList ++ str i.n ++ ")".toList

/-- `_Z`. -/
def z : ℚ := 1959963984540054 / 1000000000000000

/-- `wilson_interval`. -/
def wilsonInterval (python : Python) (successes n : Nat) : Interval :=
  if n = 0 then ⟨0, 0, 1, 0⟩
  else
    let observed : ℚ := successes / n
    let denominator : ℚ := 1 + z * z / n
    let centre : ℚ := (observed + z * z / (2 * n)) / denominator
    let margin : ℚ := z / denominator
      * python.sqrt (observed * (1 - observed) / n + z * z / (4 * n * n))
    { observed := observed
      low := max 0 (centre - margin)
      high := min 1 (centre + margin)
      n := n }

/-- `is_miscalibrated`. -/
def isMiscalibrated (python : Python) (stated : ℚ) (successes n : Nat) : Bool :=
  !(wilsonInterval python successes n).contains stated

-- ====== the detectors

/-- The candidate of one group of assumptions, if any of it was evaluated. -/
def assumptionCandidate (python : Python) (groupId : Id)
    (members : List AssumptionRow) : Option Candidate :=
  let evaluated := members.filter fun m => m.held.isSome
  if evaluated.isEmpty then none
  else
    let label := (members.findSome? fun m =>
      m.groupLabel.bind fun l => if l.isEmpty then none else some l).getD "?".toList
    let broke := evaluated.filter fun m =>
      decide (m.held = some .failed) || decide (m.held = some .partially)
    let held := evaluated.filter fun m => decide (m.held = some .held)
    let rate : ℚ := held.length / evaluated.length
    let finding :=
      if rate < 1 / 2 then "A recurring assumption breaks more often than it holds: "
      else "A recurring assumption, held more often than not: "
    some
      { kind := .assumption
        detector := "assumption_group"
        subjectKey := .group groupId
        statement := finding.toList ++ python.repr label ++ " held ".toList
          ++ percent rate ++ " of ".toList ++ str evaluated.length
          ++ " times it was evaluated, across ".toList
          ++ str ((evaluated.map (·.decisionId)).dedup).length ++ " decisions.".toList
        evidence :=
          (broke.map fun m =>
            { decisionId := m.decisionId
              relation := .supports
              assumptionId := some m.id
              note := heldText m.held ++ ": ".toList ++ m.statement })
          ++ held.map fun m =>
            { decisionId := m.decisionId
              relation := .contradicts
              assumptionId := some m.id
              note := "held: ".toList ++ m.statement } }

/-- `detect_assumption_patterns`. -/
def detectAssumptionPatterns (python : Python) (corpus : Corpus) :
    List Candidate :=
  let grouped' := grouped Prod.fst (corpus.assumptions.filterMap fun a =>
    a.groupId.map fun g => (g, a))
  grouped'.filterMap fun g => assumptionCandidate python g.1 (g.2.map Prod.snd)

/-- A decision, its outcome, and the days between them, if the outcome is one
and came after the decision. -/
def timingRow (corpus : Corpus) (d : DecisionRow) :
    Option (DecisionRow × OutcomeRow × ℚ) :=
  match corpus.latestOutcome d.id with
  | none => none
  | some outcome =>
    if outcome.verdict = .tooEarly then none
    else
      let gap : ℚ := ((outcome.observedAt - d.decidedAt : Int) : ℚ) / 86400000000
      if gap ≤ 0 then none else some (d, outcome, gap)

/-- `detect_timing_patterns`. -/
def detectTimingPatterns (corpus : Corpus) (windowDays : ℚ) : List Candidate :=
  let rows := corpus.decisions.filterMap (timingRow corpus)
  let item := fun (relation : PatternRelation) (r : DecisionRow × OutcomeRow × ℚ) =>
    { decisionId := r.1.id
      relation := relation
      outcomeId := some r.2.1.id
      note := "resolved ".toList ++ fixed 0 r.2.2
        ++ " days after deciding, against a ".toList ++ fixed 0 windowDays
        ++ "-day window".toList : EvidenceItem }
  let supporting := (rows.filter fun r => decide (windowDays < r.2.2)).map
    (item .supports)
  let contradicting := (rows.filter fun r => !decide (windowDays < r.2.2)).map
    (item .contradicts)
  if supporting.isEmpty then []
  else
    [{ kind := .timing
       detector := "slow_resolution"
       subjectKey := .text ("window=".toList ++ fixed 0 windowDays)
       statement := "Outcomes tend to arrive later than expected: ".toList
         ++ str supporting.length ++ " of ".toList
         ++ str (supporting.length + contradicting.length)
         ++ " resolved decisions took longer than the ".toList ++ fixed 0 windowDays
         ++ "-day window their confidence implied.".toList
       evidence := supporting ++ contradicting }]

/-- `detect_choice_patterns`. -/
def detectChoicePatterns (corpus : Corpus) : List Candidate :=
  let reversed := corpus.decisions.filter fun d => decide (d.status = .reversed)
  let settled := corpus.decisions.filter fun d => decide (d.status = .settled)
  if reversed.isEmpty then []
  else
    [{ kind := .choice
       detector := "reversal_rate"
       subjectKey := .text "reversals".toList
       statement := "Decisions get reversed rather than settling: ".toList
         ++ str reversed.length ++ " reversed against ".toList ++ str settled.length
         ++ " settled.".toList
       evidence :=
         (reversed.map fun d =>
           { decisionId := d.id
             relation := .supports
             note := "reversed: ".toList ++ d.question })
         ++ settled.map fun d =>
           { decisionId := d.id
             relation := .contradicts
             note := "settled and still in force: ".toList ++ d.question } }]

-- ====== calibration

/-- `_relabelled`: the same evidence, arguing the other way. -/
def relabelled (items : List EvidenceItem) (relation : PatternRelation) :
    List EvidenceItem :=
  items.map fun item => { item with relation := relation }

/-- `_calibration_candidate`. -/
def calibrationCandidate (python : Python) (detector : String) (subjectKey : Text)
    (noun : Text) (band : ℚ × ℚ) (stated : ℚ) (successes total : Nat)
    (supporting contradicting : List EvidenceItem) : Candidate :=
  let interval := wilsonInterval python successes total
  let withinNoise := !isMiscalibrated python stated successes total
  let isOver := decide (interval.observed < stated)
  -- for under-confidence the cases that worked are those that argue for it
  let evidence :=
    if isOver then supporting ++ contradicting
    else relabelled contradicting .supports ++ relabelled supporting .contradicts
  { kind := .outcome
    detector := detector
    subjectKey := .text subjectKey
    metrics := some ⟨band.1, band.2, stated, successes, total⟩
    statement := (if isOver then "Over" else "Under").toList ++ "confident on ".toList
      ++ noun ++ " stated between ".toList ++ fixed 2 band.1 ++ " and ".toList
      ++ fixed 2 band.2 ++ ": mean stated ".toList ++ fixed 2 stated
      ++ ", actual ".toList ++ interval.describe ++ ".".toList
    evidence := evidence
    rejectedBecause :=
      if withinNoise then
        some ("stated ".toList ++ fixed 2 stated ++ " falls inside the ".toList
          ++ interval.describe
          ++ " the sample supports, so the gap is not evidence".toList)
      else none }

/-- The key of a band. -/
def bandKey (band : ℚ × ℚ) : Text :=
  fixed 2 band.1 ++ "-".toList ++ fixed 2 band.2

/-- The pairs that the first loop keeps: a decision with a confidence that it may
be held to, and how it went. -/
def decisionRows (corpus : Corpus) : List (DecisionRow × OutcomeRow) :=
  corpus.decisions.filterMap fun d =>
    match d.confidence, corpus.latestOutcome d.id with
    | some _, some outcome =>
      if d.id ∉ corpus.foresightDecisions then none
      else if outcome.verdict = .tooEarly then none
      else some (d, outcome)
    | _, _ => none

/-- The assumptions that the second loop keeps: judged, and with the confidence of
a decision that foresaw. -/
def assumptionRows (corpus : Corpus) : List AssumptionRow :=
  corpus.assumptions.filter fun a =>
    a.confidence.isSome && a.held.isSome
      && decide (a.decisionId ∈ corpus.foresightDecisions)

/-- `f"{x:.2f}"` of a confidence. -/
def confidenceText (confidence : Option ℚ) : Text := fixed 2 (confidence.getD 0)

/-- The candidate of one band of decisions. -/
def decisionBand (python : Python) (band : ℚ × ℚ)
    (rows : List (DecisionRow × OutcomeRow)) : Candidate :=
  let worked := rows.filter fun p => decide (p.2.verdict = .worked)
  let didNot := rows.filter fun p => decide (p ∉ worked)
  let item := fun (relation : PatternRelation) (p : DecisionRow × OutcomeRow) =>
    { decisionId := p.1.id
      relation := relation
      outcomeId := some p.2.id
      note := "stated ".toList ++ confidenceText p.1.confidence
        ++ ", outcome ".toList ++ verdictValue p.2.verdict : EvidenceItem }
  calibrationCandidate python "decision_calibration" (bandKey band)
    "decisions".toList band (Decisions.stated (rows.map (·.1.confidence)))
    worked.length rows.length (didNot.map (item .supports))
    (worked.map (item .contradicts))

/-- The candidate of one band of assumptions. -/
def assumptionBand (python : Python) (band : ℚ × ℚ)
    (members : List AssumptionRow) : Candidate :=
  let held := members.filter fun a => decide (a.held = some .held)
  let broke := members.filter fun a => decide (a ∉ held)
  calibrationCandidate python "assumption_calibration" (bandKey band)
    "assumptions".toList band (Decisions.stated (members.map (·.confidence)))
    held.length members.length
    (broke.map fun a =>
      { decisionId := a.decisionId
        relation := .supports
        assumptionId := some a.id
        note := "stated ".toList ++ confidenceText a.confidence ++ ", ".toList
          ++ heldText a.held ++ ": ".toList ++ a.statement })
    (held.map fun a =>
      { decisionId := a.decisionId
        relation := .contradicts
        assumptionId := some a.id
        note := "stated ".toList ++ confidenceText a.confidence
          ++ ", held: ".toList ++ a.statement })

/-- `detect_calibration_patterns`. -/
def detectCalibrationPatterns (python : Python) (corpus : Corpus) :
    List Candidate :=
  ((grouped (fun p => Decisions.bandOf (p.1.confidence.getD 0))
      (decisionRows corpus)).map fun g => decisionBand python g.1 g.2)
    ++ (grouped (fun a => Decisions.bandOf (a.confidence.getD 0))
      (assumptionRows corpus)).map fun g => assumptionBand python g.1 g.2

/-- `all_detectors`. -/
def allDetectors (python : Python) (corpus : Corpus) (windowDays : ℚ) :
    List Candidate :=
  detectAssumptionPatterns python corpus ++ detectTimingPatterns corpus windowDays
    ++ detectChoicePatterns corpus ++ detectCalibrationPatterns python corpus

end MemoryOS.Patterns
