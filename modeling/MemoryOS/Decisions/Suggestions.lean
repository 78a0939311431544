/-
The two review queues, with the runs that fill them and the calls that
empty them.

Every transaction is a step, and the calls and runs between two of their
transactions are part of the `World`: a run that has read its candidates and
is still asking the model, an `accept` that has checked its row, or has
written the record and not yet the row. A run or a call may stop at any of
these points (`stop…`, `fail…`), which is a failure or, for a run, its end.

What other processes do to the corpus comes in as the corpus each read is
given.
-/
import MemoryOS.Decisions.Suggest
import MemoryOS.Lib.Machine

namespace MemoryOS

open Lib Lib.Review

namespace Decisions

/-- What the use cases are set up with. -/
structure Setup where
  /-- `str.casefold`. -/
  casefold : Text → Text
  /-- `str.lower`. -/
  lower : Text → Text
  /-- `min_confidence` of `SuggestOutcomes`. -/
  minConfidence : ℚ
  modelId : String
  /-- `version` of `SuggestDecisions`. -/
  decisionVersion : String
  /-- `version` of `SuggestOutcomes`. -/
  outcomeVersion : String

/-- A call of `SuggestDecisions` under way. -/
structure DecisionRun where
  /-- The passages that the model was not asked about yet. -/
  passages : List Passage
  /-- The drafts of the last passage that are not queued yet. -/
  drafts : List (Passage × DecisionDraft)
  /-- Not in the source: when the run read its passages. -/
  begun : Nat

/-- A candidate on its way to the queue, with what it was found by. -/
structure Found where
  decision : DecisionContext
  windowDays : ℚ
  entityFilter : String
  candidate : Candidate

/-- A call of `SuggestOutcomes` under way. -/
structure OutcomeRun where
  windowDays : Option ℚ
  limit : Nat
  /-- The decisions that no candidates were looked for yet. -/
  decisions : List DecisionContext
  /-- The candidates of the last decision that were not judged yet. -/
  candidates : List Found
  /-- The draft of the last candidate, if it is not queued yet. -/
  drafts : List (Found × OutcomeDraft)
  /-- Not in the source: when the run read its decisions. -/
  begun : Nat

/-- The tables, and what is under way. -/
structure World where
  tables : Tables
  decisions : DecisionQueue
  outcomes : OutcomeQueue
  decisionRuns : List DecisionRun
  outcomeRuns : List OutcomeRun
  /-- Not in the source: how many transactions there were. -/
  clock : Nat

/-- One transaction, or a call that stops. -/
inductive Event
  -- a suggestion run over decisions
  | findPassages (db : Db) (source : Option String) (limit : Nat)
  | proposeDecisions (i : Nat) (reply : Option (List DecisionDraft))
  | queueDecision (i : Nat) (now : Timestamp)
  | stopDecisions (i : Nat)
  -- a suggestion run over outcomes
  | openDecisions (decisionId : Option Id) (windowDays : Option ℚ)
      (limit : Nat)
  | findCandidates (i : Nat) (window entities names overlaps : Db)
  | judgeCandidate (i : Nat) (reply : Option Judgement)
  | queueOutcome (i : Nat) (now : Timestamp)
  | stopOutcomes (i : Nat)
  -- `decision_suggest.accept` and `reject`
  | checkDecision (db : Db) (id : Id) (edited : Option DecisionDraft)
      (decidedAt : Option Timestamp)
  | recordDecision (db : Db) (i : Nat) (now : Timestamp)
  | acceptDecision (i : Nat) (now : Timestamp)
  | failDecision (i : Nat)
  | rejectDecision (id : Id) (now : Timestamp)
  -- `outcome_suggest.accept` and `reject`
  | checkOutcome (db : Db) (id : Id) (edited : Option OutcomeDraft)
  | recordOutcome (db : Db) (i : Nat) (now : Timestamp)
  | acceptOutcome (i : Nat) (now : Timestamp)
  | failOutcome (i : Nat)
  | rejectOutcome (id : Id) (now : Timestamp)

-- ======= the steps

/-- The event takes its place on the clock. -/
def World.tick (w : World) : World := { w with clock := w.clock + 1 }

/-- `find_passages`. -/
def beginDecisions (w : World) (db : Db) (source : Option String)
    (limit : Nat) : World :=
  { w with
    decisionRuns := w.decisionRuns ++
      [{ passages := findPassages db w.decisions source limit
         drafts := []
         begun := w.clock }] }

/-- The model replies about the next passage of a run. -/
def proposeDecisions (s : Setup) (run : DecisionRun)
    (reply : Option (List DecisionDraft)) : Option DecisionRun :=
  match run.passages, run.drafts with
  | p :: rest, [] =>
    some { run with
      passages := rest
      drafts := (validated s.casefold (reply.getD [])).map (p, ·) }
  | _, _ => none

/-- The next draft of a run is queued. -/
def queueNextDecision (s : Setup) (w : World) (i : Nat) (now : Timestamp) :
    Option World := do
  let run ← w.decisionRuns[i]?
  match run.drafts with
  | [] => none
  | (p, draft) :: rest =>
    some { w with
      decisions := Decisions.queueDecision w.decisions p draft s.modelId
        s.decisionVersion now run.begun
      decisionRuns := w.decisionRuns.set i { run with drafts := rest } }

/-- `open_decisions`. -/
def beginOutcomes (w : World) (decisionId : Option Id)
    (windowDays : Option ℚ) (limit : Nat) : World :=
  match Decisions.openDecisions w.tables decisionId with
  | .error _ => w
  | .ok decisions =>
    { w with
      outcomeRuns := w.outcomeRuns ++
        [{ windowDays := windowDays
           limit := limit
           decisions := decisions
           candidates := []
           drafts := []
           begun := w.clock }] }

/-- `find_candidates` for the next decision of a run; `window_for` may
refuse, which is the end of the run. -/
def findNextCandidates (w : World) (i : Nat)
    (window entities names overlaps : Db) : Option World := do
  let run ← w.outcomeRuns[i]?
  match run.decisions, run.candidates, run.drafts with
  | d :: rest, [], [] =>
    match windowFor d.confidence run.windowDays with
    | none => some { w with outcomeRuns := w.outcomeRuns.eraseIdx i }
    | some days =>
      let found := Decisions.findCandidates window entities names
        overlaps d days run.limit
      some { w with
        outcomeRuns := w.outcomeRuns.set i
          { run with
            decisions := rest
            candidates := found.1.map fun c =>
              { decision := d
                windowDays := days
                entityFilter := found.2
                candidate := c } } }
  | _, _, _ => none

/-- The model judges the next candidate of a run. -/
def judgeNext (s : Setup) (run : OutcomeRun) (reply : Option Judgement) :
    Option OutcomeRun :=
  match run.candidates, run.drafts with
  | c :: rest, [] =>
    some { run with
      candidates := rest
      drafts := ((reply.bind (judge s.lower s.minConfidence)).map
        (c, ·)).toList }
  | _, _ => none

/-- The draft of a run is queued; a refused insert is the end of the run. -/
def queueNextOutcome (s : Setup) (w : World) (i : Nat) (now : Timestamp) :
    Option World := do
  let run ← w.outcomeRuns[i]?
  match run.drafts with
  | [] => none
  | (f, draft) :: rest =>
    match Decisions.queueOutcome w.outcomes f.decision f.candidate draft
      f.entityFilter f.windowDays s.modelId s.outcomeVersion now run.begun
    with
    | .error _ => some { w with outcomeRuns := w.outcomeRuns.eraseIdx i }
    | .ok outcomes =>
      some { w with
        outcomes := outcomes
        outcomeRuns := w.outcomeRuns.set i { run with drafts := rest } }

/-- `decision_suggest.accept` reads its row. -/
def checkDecision (w : World) (db : Db) (id : Id)
    (edited : Option DecisionDraft) (decidedAt : Option Timestamp) : World :=
  match w.decisions.check id with
  | .error _ => w
  | .ok row =>
    { w with
      decisions := w.decisions.enter row.id
        (prepareDecision db row edited decidedAt) }

/-- `decision_suggest.accept` calls `record`, which may refuse. -/
def recordNextDecision (s : Setup) (w : World) (db : Db) (i : Nat)
    (now : Timestamp) : Option World :=
  match w.decisions.calls[i]? with
  | some (.checked id p) =>
    match recordSuggested s.casefold db w.tables p now with
    | .error _ => some { w with decisions := w.decisions.drop i }
    | .ok (tables, decisionId) =>
      some { w with
        tables := tables
        decisions := w.decisions.noted i id decisionId }
  | _ => none

/-- `decision_suggest.accept` marks its row. -/
def acceptDecision (w : World) (i : Nat) (now : Timestamp) : Option World :=
  match w.decisions.calls[i]? with
  | some (.recorded id decisionId) =>
    some { w with
      decisions := w.decisions.accept i id decisionId now w.clock }
  | _ => none

/-- `decision_suggest.reject`. -/
def rejectDecision (w : World) (id : Id) (now : Timestamp) : World :=
  match w.decisions.reject id now w.clock with
  | .error _ => w
  | .ok decisions => { w with decisions := decisions }

/-- `outcome_suggest.accept` reads its row. -/
def checkOutcome (w : World) (db : Db) (id : Id)
    (edited : Option OutcomeDraft) : World :=
  match w.outcomes.check id with
  | .error _ => w
  | .ok row =>
    match prepareOutcome db row edited with
    | .error _ => w
    | .ok p => { w with outcomes := w.outcomes.enter row.id p }

/-- `outcome_suggest.accept` calls `record`, which may refuse. -/
def recordNextOutcome (w : World) (db : Db) (i : Nat) (now : Timestamp) :
    Option World :=
  match w.outcomes.calls[i]? with
  | some (.checked id p) =>
    match recordSuggestedOutcome db w.tables p now with
    | .error _ => some { w with outcomes := w.outcomes.drop i }
    | .ok (tables, outcomeId) =>
      some { w with
        tables := tables
        outcomes := w.outcomes.noted i id outcomeId }
  | _ => none

/-- `outcome_suggest.accept` marks its row. -/
def acceptOutcome (w : World) (i : Nat) (now : Timestamp) : Option World :=
  match w.outcomes.calls[i]? with
  | some (.recorded id outcomeId) =>
    some { w with
      outcomes := w.outcomes.accept i id outcomeId now w.clock }
  | _ => none

/-- `outcome_suggest.reject`. -/
def rejectOutcome (w : World) (id : Id) (now : Timestamp) : World :=
  match w.outcomes.reject id now w.clock with
  | .error _ => w
  | .ok outcomes => { w with outcomes := outcomes }

/-- One event. -/
def happen (s : Setup) (w : World) : Event → Option World
  | .findPassages db source limit => some (beginDecisions w db source limit)
  | .proposeDecisions i reply => do
      let run ← w.decisionRuns[i]?
      let run' ← proposeDecisions s run reply
      some { w with decisionRuns := w.decisionRuns.set i run' }
  | .queueDecision i now => queueNextDecision s w i now
  | .stopDecisions i =>
    some { w with decisionRuns := w.decisionRuns.eraseIdx i }
  | .openDecisions decisionId windowDays limit =>
    some (beginOutcomes w decisionId windowDays limit)
  | .findCandidates i window entities names overlaps =>
    findNextCandidates w i window entities names overlaps
  | .judgeCandidate i reply => do
      let run ← w.outcomeRuns[i]?
      let run' ← judgeNext s run reply
      some { w with outcomeRuns := w.outcomeRuns.set i run' }
  | .queueOutcome i now => queueNextOutcome s w i now
  | .stopOutcomes i =>
    some { w with outcomeRuns := w.outcomeRuns.eraseIdx i }
  | .checkDecision db id edited decidedAt =>
    some (checkDecision w db id edited decidedAt)
  | .recordDecision db i now => recordNextDecision s w db i now
  | .acceptDecision i now => acceptDecision w i now
  | .failDecision i =>
    (w.decisions.calls[i]?).map fun _ =>
      { w with decisions := w.decisions.drop i }
  | .rejectDecision id now => some (rejectDecision w id now)
  | .checkOutcome db id edited => some (checkOutcome w db id edited)
  | .recordOutcome db i now => recordNextOutcome w db i now
  | .acceptOutcome i now => acceptOutcome w i now
  | .failOutcome i =>
    (w.outcomes.calls[i]?).map fun _ =>
      { w with outcomes := w.outcomes.drop i }
  | .rejectOutcome id now => some (rejectOutcome w id now)

/-- The queues and everything around them. -/
def reviewing (s : Setup) : Machine World Event Unit where
  step := fun w e => (happen s w e).map fun w' => (w'.tick, [])

/-- Nothing was proposed yet. -/
def World.start (t : Tables) : World where
  tables := t
  decisions := .empty
  outcomes := .empty
  decisionRuns := []
  outcomeRuns := []
  clock := 0

-- ====== statement vocabulary

/-- Every suggestion of either queue is acted on exactly once, and nothing
reviewed is asked again. -/
def ReviewedOnce (w : World) : Prop := w.decisions.Exact ∧ w.outcomes.Exact

/-- The guard: no `accept` records on account of a suggestion that has led
to a record already, no `accept` ends between its record and its mark, and a
run over outcomes queues no pair that was reviewed before the run began. -/
def Single (s : Setup) (w : World) : Event → Prop
  | .recordDecision db i now =>
    ∀ id p, w.decisions.calls[i]? = some (.checked id p) →
      (∃ r, recordSuggested s.casefold db w.tables p now = .ok r) →
      id ∉ w.decisions.records.map Prod.fst
  | .recordOutcome db i now =>
    ∀ id p, w.outcomes.calls[i]? = some (.checked id p) →
      (∃ r, recordSuggestedOutcome db w.tables p now = .ok r) →
      id ∉ w.outcomes.records.map Prod.fst
  | .failDecision i =>
    ∀ c, w.decisions.calls[i]? = some c → c.made = none
  | .failOutcome i =>
    ∀ c, w.outcomes.calls[i]? = some c → c.made = none
  | .queueOutcome i _ =>
    ∀ run f draft rest, w.outcomeRuns[i]? = some run →
      run.drafts = (f, draft) :: rest →
      (f.candidate.text.take sourceTextChars).all (· == ' ') = false →
      (∃ r ∈ w.outcomes.rows, r.status = .pending
          ∧ r.key = f.candidate.key f.decision)
        ∨ w.outcomes.Unasked run.begun (f.candidate.key f.decision)
  | _ => True

end Decisions

end MemoryOS
