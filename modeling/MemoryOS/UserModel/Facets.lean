/-
The user model: claims about a person, what they rest on and what
replaced them (`application/user_model.py`, `domain/user_model.py`).

`derive` runs over what the derivers propose, writes what clears the bar
and retires what lost its support; `assert_facet` states a facet by hand,
`dismiss` rejects one, `history` walks the pointers. Each of the first
three is one transaction.

The derivers read tables that none of these writes (patterns, assumption
groups, memories, mentions), so what they propose is given to `derive`.
Scores are exact rationals: the roundings of a double and of a `REAL`
column are not modelled.
-/
import MemoryOS.Db.Tables
import MemoryOS.Lib.DistinctOn
import MemoryOS.Lib.Machine
import Mathlib.Algebra.Order.Field.Rat

namespace MemoryOS

open Lib Lib.DistinctOn

namespace UserModel

/-- `Dimension`. -/
inductive Dimension
  | decisionPatterns | strengths | weaknesses | habits | workflows | goals
  | learningStyle
deriving DecidableEq, Repr

/-- `FacetOrigin`. -/
inductive FacetOrigin
  | derived | asserted
deriving DecidableEq, Repr

/-- `FacetEvidenceKind`. -/
inductive FacetEvidenceKind
  | decision | pattern | memory | outcome
deriving DecidableEq, Repr

/-- `FacetRelation`. -/
inductive FacetRelation
  | supports | contradicts
deriving DecidableEq, Repr

/-- One item of a candidate's evidence. -/
abbrev Item := FacetEvidenceKind × Id × FacetRelation

/-- `MIN_SUPPORT`, which is `DEFAULT_MIN_SUPPORT`. -/
def minSupport : Nat := 3

/-- `MAX_CONFIDENCE`. -/
def maxConfidence : ℚ := 95 / 100

/-- `facet_confidence`, by way of `pattern_confidence`. -/
def facetConfidence (supporting contradicting : Nat) : ℚ :=
  if supporting = 0 then 0
  else
    let agreement : ℚ := supporting / (supporting + contradicting)
    let sufficiency : ℚ := min 1 (supporting / (2 * minSupport))
    min maxConfidence (agreement * sufficiency)

/-- `clears_bar`. -/
def clearsBar (supporting contradicting : Nat) : Bool :=
  decide (minSupport ≤ supporting) && decide (contradicting < supporting)

/-- `Candidate`: a facet a deriver is proposing. -/
structure Candidate where
  dimension : Dimension
  detector : String
  subjectKey : String
  statement : Text
  supporting : Nat
  contradicting : Nat
  evidence : List Item
  firstObserved : Option Timestamp
  lastObserved : Option Timestamp
deriving DecidableEq, Repr

/-- `Candidate.confidence`. -/
def Candidate.confidence (c : Candidate) : ℚ :=
  facetConfidence c.supporting c.contradicting

/-- `Candidate.clears`. -/
def Candidate.clears (c : Candidate) : Bool :=
  clearsBar c.supporting c.contradicting

/-- What a candidate is about. -/
def Candidate.key (c : Candidate) : String × String :=
  (c.detector, c.subjectKey)

/-- What the derivers propose in one run. No subject is proposed twice:
there is one candidate for each pattern, and those are unique by detector
and subject, one for each assumption group, one rhythm, and one for each
pair of entities. -/
structure Proposals where
  considered : List Candidate
  distinct : (considered.map Candidate.key).Nodup

/-- A row of `user_model_facets`. -/
structure Facet where
  id : Id
  dimension : Dimension
  statement : Text
  confidence : Option ℚ
  supportCount : Nat
  contradictionCount : Nat
  firstObserved : Option Timestamp
  lastObserved : Option Timestamp
  origin : FacetOrigin
  detector : Option String
  subjectKey : Option String
  supersededBy : Option Id
  supersededAt : Option Timestamp
  supersededReason : Option Text
  dismissedAt : Option Timestamp
  dismissedReason : Option Text
  createdAt : Timestamp
deriving DecidableEq

/-- A row of `facet_evidence`. -/
structure FacetEvidence where
  id : Id
  facetId : Id
  kind : FacetEvidenceKind
  refId : Id
  relation : FacetRelation
deriving DecidableEq, Repr

/-- The two tables, and the supply of identifiers. -/
structure Tables where
  facets : List Facet
  evidence : List FacetEvidence
  nextId : Id
deriving DecidableEq

/-- `FacetRow.live`. -/
def Facet.live (f : Facet) : Bool :=
  f.supersededAt.isNone && f.dismissedAt.isNone

/-- A derived facet that is live: what `derive` looks for and retires. -/
def Facet.liveDerived (f : Facet) : Bool :=
  decide (f.origin = .derived) && f.live

/-- The facet is about what the candidate is about. -/
def Facet.about (f : Facet) (c : Candidate) : Bool :=
  decide (f.detector = some c.detector)
    && decide (f.subjectKey = some c.subjectKey)

namespace Tables

/-- `session.get(UserModelFacet, id)`. -/
def facet (t : Tables) (id : Id) : Option Facet :=
  t.facets.find? fun f => decide (f.id = id)

/-- Write the columns of one row. -/
def update (t : Tables) (id : Id) (set : Facet → Facet) : Tables :=
  { t with facets := t.facets.map fun f => if f.id = id then set f else f }

/-- The evidence of a facet, as its rows say it. -/
def evidenceOf (t : Tables) (id : Id) : List Item :=
  (t.evidence.filter fun e => decide (e.facetId = id)).map fun e =>
    (e.kind, e.refId, e.relation)

end Tables

-- ======== deriving

/-- The report of one derivation; the assessments it also carries are read
after the transaction. -/
structure DeriveReport where
  written : Nat
  superseded : Nat
  unchanged : Nat
  considered : Nat
  belowBar : Nat
  skippedDismissed : Nat
  withdrawn : Nat
  rejected : List (Text × Nat)
  withdrawals : List (Text × Text)
deriving DecidableEq, Repr

/-- A number in a message. -/
def shown (n : Nat) : Text := (toString n).toList

/-- `_restated_reason`. -/
def restatedReason (existing : Facet) (c : Candidate) : Text :=
  "re-derived: support ".toList ++ shown existing.supportCount
    ++ " → ".toList ++ shown c.supporting
    ++ ", against ".toList ++ shown existing.contradictionCount
    ++ " → ".toList ++ shown c.contradicting

/-- `_withdrawal_reason`. -/
def withdrawalReason (f : Facet) : Option Candidate → Text
  | some c =>
    "support fell from ".toList ++ shown f.supportCount
      ++ " to ".toList ++ shown c.supporting
      ++ ", below the bar of ".toList ++ shown minSupport
      ++ " distinct observations".toList
  | none =>
    "the ".toList ++ (f.detector.getD "None").toList
      ++ " deriver no longer proposes this subject: ".toList
      ++ "the evidence it rested on is not in the corpus any more".toList

/-- The evidence rows of `_insert`, each with an identifier of its own. -/
def evidenceRows (facetId : Id) : Id → List Item → List FacetEvidence
  | _, [] => []
  | next, (kind, refId, relation) :: rest =>
    { id := next
      facetId := facetId
      kind := kind
      refId := refId
      relation := relation } :: evidenceRows facetId (next + 1) rest

/-- The row `_insert` writes. -/
def derivedRow (c : Candidate) (facetId : Id) (now : Timestamp) : Facet where
  id := facetId
  dimension := c.dimension
  statement := c.statement
  confidence := some c.confidence
  supportCount := c.supporting
  contradictionCount := c.contradicting
  firstObserved := c.firstObserved
  lastObserved := c.lastObserved
  origin := .derived
  detector := some c.detector
  subjectKey := some c.subjectKey
  supersededBy := none
  supersededAt := none
  supersededReason := none
  dismissedAt := none
  dismissedReason := none
  createdAt := now

/-- `_insert`, with the identifier that was minted for it: the facet, then
its evidence, no item twice. -/
def insert (t : Tables) (c : Candidate) (facetId : Id) (now : Timestamp) :
    Tables :=
  let items := distinctOn id c.evidence
  { facets := t.facets ++ [derivedRow c facetId now]
    evidence := t.evidence ++ evidenceRows facetId t.nextId items
    nextId := t.nextId + items.length }

/-- The live derived facet of a candidate's subject
(`scalar_one_or_none`, which raises on a second one). -/
def existing (t : Tables) (c : Candidate) : Except Failure (Option Facet) :=
  match t.facets.filter fun f => f.liveDerived && f.about c with
  | [] => .ok none
  | [f] => .ok (some f)
  | _ :: _ :: _ => .error .uniqueViolation

/-- `dismissed_subjects`: every subject a dismissed facet was about. -/
def dismissedSubjects (t : Tables) : List (Option String × Option String) :=
  (t.facets.filter fun f => f.dismissedAt.isSome).map fun f =>
    (f.detector, f.subjectKey)

/-- The row is superseded by the one with the identifier `by_`. -/
def Facet.supersede (f : Facet) (by_ : Id) (now : Timestamp) (reason : Text) :
    Facet :=
  { f with
    supersededBy := some by_
    supersededAt := some now
    supersededReason := some reason }

/-- The row is retired, with no replacement. -/
def Facet.withdraw (f : Facet) (now : Timestamp) (reason : Text) : Facet :=
  { f with
    supersededAt := some now
    supersededReason := some reason }

/-- What the loop of `derive` carries. The last component is not in the
source: who was superseded by whom. -/
structure Derivation where
  tables : Tables
  report : DeriveReport
  superseded : List (Id × Id)

/-- One turn of the loop. -/
def consider (dismissed : List (Option String × Option String))
    (now : Timestamp) (d : Derivation) (c : Candidate) :
    Except Failure Derivation :=
  if (some c.detector, some c.subjectKey) ∈ dismissed then
    .ok { d with report := { d.report with
      skippedDismissed := d.report.skippedDismissed + 1 } }
  else if !c.clears then
    .ok { d with report := { d.report with
      belowBar := d.report.belowBar + 1
      rejected := d.report.rejected ++ [(c.statement, c.supporting)] } }
  else
    match existing d.tables c with
    | .error e => .error e
    | .ok none =>
      let facetId := d.tables.nextId
      let t := { d.tables with nextId := facetId + 1 }
      .ok { d with
        tables := insert t c facetId now
        report := { d.report with written := d.report.written + 1 } }
    | .ok (some f) =>
      if f.statement = c.statement then
        -- the same sentence: whatever else changed is not looked at
        .ok { d with report := { d.report with
          unchanged := d.report.unchanged + 1 } }
      else
        let facetId := d.tables.nextId
        let t := { d.tables with nextId := facetId + 1 }
        let t := t.update f.id fun f =>
          f.supersede facetId now (restatedReason f c)
        .ok
          { tables := insert t c facetId now
            report := { d.report with
              superseded := d.report.superseded + 1
              written := d.report.written + 1 }
            superseded := d.superseded ++ [(f.id, facetId)] }

/-- The loop over the candidates. -/
def considerAll (dismissed : List (Option String × Option String))
    (now : Timestamp) : Derivation → List Candidate → Except Failure Derivation
  | d, [] => .ok d
  | d, c :: rest =>
    match consider dismissed now d c with
    | .error e => .error e
    | .ok d => considerAll dismissed now d rest

/-- `by_subject.get(…)`: of the candidates about a subject, the last. -/
def proposal (considered : List Candidate) (f : Facet) : Option Candidate :=
  (considered.filter f.about).getLast?

/-- The candidate a live facet still rests on clears the bar. -/
def supported (considered : List Candidate) (f : Facet) : Bool :=
  match proposal considered f with
  | some c => c.clears
  | none => false

/-- The retirement of one row. -/
def retire (considered : List Candidate) (now : Timestamp) (f : Facet) :
    Facet :=
  if f.liveDerived && !supported considered f then
    f.withdraw now (withdrawalReason f (proposal considered f))
  else f

/-- `derive`, given what the derivers propose. -/
def derive (t : Tables) (considered : List Candidate) (now : Timestamp) :
    Except Failure Derivation :=
  let start : Derivation :=
    { tables := t
      report :=
        { written := 0, superseded := 0, unchanged := 0
          considered := considered.length, belowBar := 0
          skippedDismissed := 0, withdrawn := 0
          rejected := [], withdrawals := [] }
      superseded := [] }
  match considerAll (dismissedSubjects t) now start considered with
  | .error e => .error e
  | .ok d =>
    let stale := d.tables.facets.filter fun f =>
      f.liveDerived && !supported considered f
    .ok { d with
      tables := { d.tables with
        facets := d.tables.facets.map (retire considered now) }
      report := { d.report with
        withdrawn := stale.length
        withdrawals := stale.map fun f =>
          (f.statement, withdrawalReason f (proposal considered f)) } }

-- ====== by hand, and read

/-- The row `assert_facet` writes. -/
def assertedRow (dimension : Dimension) (statement : Text) (id : Id)
    (now : Timestamp) : Facet where
  id := id
  dimension := dimension
  statement := statement
  confidence := none
  supportCount := 0
  contradictionCount := 0
  firstObserved := none
  lastObserved := none
  origin := .asserted
  detector := none
  subjectKey := none
  supersededBy := none
  supersededAt := none
  supersededReason := none
  dismissedAt := none
  dismissedReason := none
  createdAt := now

/-- `assert_facet`: the new facet's id, and the facet it restates points at
it. -/
def assertFacet (t : Tables) (dimension : Dimension) (statement : Text)
    (supersedes : Option Id) (now : Timestamp) :
    Except Failure (Tables × Id) :=
  let text := strip statement
  if text.isEmpty then .error .refused
  else
    let id := t.nextId
    let t' : Tables :=
      { t with
        facets := t.facets ++ [assertedRow dimension text id now]
        nextId := id + 1 }
    match supersedes with
    | none => .ok (t', id)
    | some previous =>
      match t.facet previous with
      | none => .error .notFound
      | some _ =>
        .ok (t'.update previous fun f =>
          f.supersede id now "restated by hand".toList, id)

/-- `dismiss`. -/
def dismiss (t : Tables) (facetId : Id) (reason : Text) (now : Timestamp) :
    Except Failure Tables :=
  let text := strip reason
  if text.isEmpty then .error .refused
  else
    match t.facet facetId with
    | none => .error .notFound
    | some _ =>
      .ok (t.update facetId fun f =>
        { f with
          dismissedAt := some now
          dismissedReason := some text })

/-- The row that points at `id` (`scalar_one_or_none`). -/
def earlier (t : Tables) (id : Id) : Except Failure (Option Facet) :=
  match t.facets.filter fun f => decide (f.supersededBy = some id) with
  | [] => .ok none
  | [f] => .ok (some f)
  | _ :: _ :: _ => .error .uniqueViolation

/-- The first loop of `history`, from its first row: what points at the row
it holds first. `none` if the fuel runs out. -/
def backwards (t : Tables) : Nat → Facet → List Facet →
    Option (Except Failure (List Facet))
  | 0, _, _ => none
  | fuel + 1, first, rest =>
    match earlier t first.id with
    | .error e => some (.error e)
    | .ok none => some (.ok (first :: rest))
    | .ok (some f) => backwards t fuel f (first :: rest)

/-- The second loop, from the last row: the rows after it. -/
def forwards (t : Tables) : Nat → Facet → Option (List Facet)
  | 0, _ => none
  | fuel + 1, last =>
    match last.supersededBy with
    | none => some []
    | some next =>
      match t.facet next with
      | none => some []
      | some f => (forwards t fuel f).map fun rest => f :: rest

/-- `history`: the chain a facet belongs to, oldest first. -/
def history (t : Tables) (fuel : Nat) (id : Id) :
    Option (Except Failure (List Facet)) :=
  match t.facet id with
  | none => some (.error .notFound)
  | some start =>
    match backwards t fuel start [] with
    | none => none
    | some (.error e) => some (.error e)
    | some (.ok chain) =>
      (forwards t fuel start).map fun rest => .ok (chain ++ rest)

-- ======== the runs

/-- The tables, and what was done to them. -/
structure World where
  tables : Tables
  /-- What the derivers proposed, if a derivation was the last thing that
  wrote. -/
  derived : Option (List Candidate)
  /-- Every supersession so far: who, by whom. -/
  supersessions : List (Id × Id)

/-- One call. -/
inductive Action
  | derive (proposals : Proposals) (now : Timestamp)
  | assertFacet (dimension : Dimension) (statement : Text)
      (supersedes : Option Id) (now : Timestamp)
  | dismiss (facetId : Id) (reason : Text) (now : Timestamp)

/-- A call that raises writes nothing. -/
def step (w : World) : Action → Option (World × List Unit)
  | .derive proposals now =>
    match UserModel.derive w.tables proposals.considered now with
    | .error _ => some (w, [])
    | .ok d =>
      some ({ tables := d.tables
              derived := some proposals.considered
              supersessions := w.supersessions ++ d.superseded }, [])
  | .assertFacet dimension statement supersedes now =>
    match UserModel.assertFacet w.tables dimension statement supersedes now
      with
    | .error _ => some (w, [])
    | .ok (t, id) =>
      some ({ tables := t
              derived := none
              supersessions := w.supersessions
                ++ supersedes.toList.map fun previous => (previous, id) },
        [])
  | .dismiss facetId reason now =>
    match UserModel.dismiss w.tables facetId reason now with
    | .error _ => some (w, [])
    | .ok t => some ({ w with tables := t, derived := none }, [])

/-- The user model's calls, in any order. -/
def machine : Machine World Action Unit where
  step := step

/-- Nothing is known about anybody. -/
def empty : World where
  tables := { facets := [], evidence := [], nextId := 0 }
  derived := none
  supersessions := []

end UserModel

end MemoryOS
