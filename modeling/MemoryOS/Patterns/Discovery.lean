/-
Discovering patterns, and dismissing them (`application/patterns.py`: `discover`,
`_upsert`, `dismiss`).

The rows of `pattern_evidence` are with their pattern, without the ids that each
write mints anew. Reports, and when a pattern was discovered, are left out:
nothing is decided by them.
-/
import MemoryOS.Lib.DistinctOn
import MemoryOS.Patterns.Detectors

namespace MemoryOS.Patterns

open Lib

/-- A row of `patterns`, and the rows of `pattern_evidence` of it. -/
structure Pattern where
  id : Id
  statement : Text
  kind : PatternKind
  detector : String
  subjectKey : SubjectKey
  supportCount : Nat
  contradictionCount : Nat
  confidence : ℚ
  firstObserved : Option Timestamp
  lastObserved : Option Timestamp
  dismissal : Option (Timestamp × Text)
  evidence : List EvidenceItem
deriving DecidableEq

/-- What a pattern is about. -/
def Pattern.key (p : Pattern) : String × SubjectKey := (p.detector, p.subjectKey)

/-- The tables. -/
structure Store where
  patterns : List Pattern := []
  nextId : Id := 1
deriving DecidableEq

/-- What a run raises: `ZeroDivisionError` for a minimum of 0, and a check on the
confidence for one below. -/
inductive DiscoverError
  | zeroDivision
  | checkViolation
deriving DecidableEq, Repr

-- ========= writing

/-- The evidence that is written: of two items of one link the first. -/
def linked (evidence : List EvidenceItem) : List EvidenceItem :=
  DistinctOn.sieve some (fun e => (e.decisionId, e.assumptionId, e.outcomeId)) []
    evidence

/-- The dates of the supporting decisions. -/
def supportDates (corpus : Corpus) (c : Candidate) : List Timestamp :=
  c.supporting.filterMap fun id =>
    (corpus.decisions.find? fun d => decide (d.id = id)).map (·.decidedAt)

/-- A pattern with the numbers, the statement and the evidence of a candidate. -/
def refreshed (corpus : Corpus) (minSupport : Nat) (c : Candidate) (p : Pattern) :
    Pattern :=
  { p with
    statement := c.statement
    supportCount := c.supporting.length
    contradictionCount := c.contradicting.length
    confidence := patternConfidence c.supporting.length c.contradicting.length
      minSupport
    firstObserved := (supportDates corpus c).min?
    lastObserved := (supportDates corpus c).max?
    evidence := linked c.evidence }

/-- A new pattern. -/
def created (corpus : Corpus) (minSupport : Nat) (c : Candidate) (id : Id) :
    Pattern :=
  refreshed corpus minSupport c
    { id := id
      statement := []
      kind := c.kind
      detector := c.detector
      subjectKey := c.subjectKey
      supportCount := 0
      contradictionCount := 0
      confidence := 0
      firstObserved := none
      lastObserved := none
      dismissal := none
      evidence := [] }

/-- `_upsert`. -/
def upsert (corpus : Corpus) (minSupport : Nat) (s : Store) (c : Candidate) :
    Store :=
  if s.patterns.any fun p => decide (p.key = c.key) then
    { s with
      patterns := s.patterns.map fun p =>
        if p.key = c.key then refreshed corpus minSupport c p else p }
  else
    { patterns := s.patterns ++ [created corpus minSupport c s.nextId]
      nextId := s.nextId + 1 }

/-- The keys that somebody dismissed. -/
def dismissed (s : Store) : List (String × SubjectKey) :=
  (s.patterns.filter fun p => p.dismissal.isSome).map (·.key)

/-- A candidate that is not within noise, and has the support. -/
def clears (minSupport : Int) (c : Candidate) : Bool :=
  c.rejectedBecause.isNone
    && isEmittable c.supporting.length c.contradicting.length minSupport.toNat

/-- The loop of `discover`: the candidates that clear the bar, one transaction
each. -/
def writeAll (corpus : Corpus) (minSupport : Int) :
    Store → List Candidate → Except DiscoverError Store
  | s, [] => .ok s
  | s, c :: rest =>
    if minSupport = 0 then .error .zeroDivision
    else if minSupport < 0 then .error .checkViolation
    else writeAll corpus minSupport (upsert corpus minSupport.toNat s c) rest

/-- The candidates that `discover` writes: not dismissed, and over the bar. -/
def emitted (minSupport : Int) (s : Store) (candidates : List Candidate) :
    List Candidate :=
  candidates.filter fun c => decide (c.key ∉ dismissed s) && clears minSupport c

/-- `discover`. -/
def discover (python : Python) (s : Store) (corpus : Corpus) (minSupport : Int)
    (windowDays : ℚ) : Except DiscoverError Store :=
  writeAll corpus minSupport s
    (emitted minSupport s (allDetectors python corpus windowDays))

/-- `dismiss`; a blank reason, and a pattern that is not there, are refused. -/
def dismiss (s : Store) (patternId : Id) (reason : Text) (now : Timestamp) :
    Store :=
  if (strip reason).isEmpty then s
  else
    { s with
      patterns := s.patterns.map fun p =>
        if p.id = patternId then { p with dismissal := some (now, strip reason) }
        else p }

-- =========== a run

/-- A call, and the corpus that there is when it is made. -/
inductive Action
  | discover (corpus : Corpus) (minSupport : Int) (windowDays : ℚ)
  | dismiss (patternId : Id) (reason : Text) (now : Timestamp)

/-- The calls, one after another; one that raises on its first write leaves the
tables as they were. -/
def machine (python : Python) : Machine Store Action Unit where
  step := fun s a =>
    match a with
    | .discover corpus minSupport windowDays =>
      match discover python s corpus minSupport windowDays with
      | .error _ => some (s, [])
      | .ok s' => some (s', [])
    | .dismiss patternId reason now => some (dismiss s patternId reason now, [])

end MemoryOS.Patterns
