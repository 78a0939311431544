/-
Assumptions that say the same thing (`application/assumption_groups.py`).

`groupAssumptions` is one call of `GroupAssumptions`: every pair of eligible
statements is scored, the pairs at the threshold are joined and each cluster
becomes a new group, and the pairs between the floor and the threshold wait
in a queue. `accept` puts both sides of a pair in one group; `reject` closes
the pair and leaves the groups alone.

# What is a parameter

The embedder, which gives a statement one vector for good (all of one
length, or `zip` would refuse them), and the collation of the database. Rows
that collate alike come in an order of the database's own, so a run is given
the order it read. A score is an exact rational. The report of a run and the
listing of the queue are left out.
-/
import MemoryOS.Decisions.Records
import MemoryOS.Lib.Machine
import MemoryOS.Lib.UnionFind
import Mathlib.Data.List.Sort

namespace MemoryOS

open Lib Decisions

namespace AssumptionGroups

-- ======== the rows

/-- A row of `assumption_groups`. -/
structure AssumptionGroup where
  id : Id
  label : Text
  strategy : MergeStrategy
deriving DecidableEq, Repr

/-- A row of `assumption_group_candidates`. -/
structure AssumptionGroupCandidate where
  id : Id
  leftId : Id
  rightId : Id
  similarity : ℚ
  status : MergeStatus
  modelId : String
  reviewedAt : Option Timestamp
deriving DecidableEq, Repr

/-- The tables that grouping reads and writes. -/
structure GroupTables where
  assumptions : List DecisionAssumption
  groups : List AssumptionGroup
  candidates : List AssumptionGroupCandidate
  /-- The next id of the uuid supply, which `new_id` draws from. -/
  nextId : Id
deriving DecidableEq, Repr

/-- `GroupCandidate`. -/
structure GroupCandidate where
  leftId : Id
  rightId : Id
  leftStatement : Text
  rightStatement : Text
  similarity : ℚ
deriving DecidableEq, Repr

/-- What `GroupAssumptions` is set up with. -/
structure GroupSetup where
  /-- `embed_passage`, of one statement. -/
  embed : Text → List ℚ
  modelId : String
  threshold : ℚ
  reviewFloor : ℚ
  /-- The collation behind `order_by(statement)`. -/
  collated : Text → Text → Bool

/-- `AUTO_THRESHOLD`. -/
def autoThreshold : ℚ := 95 / 100

/-- `REVIEW_FLOOR`. -/
def reviewFloor : ℚ := 88 / 100

/-- `MIN_STATEMENT_CHARS`. -/
def minStatementChars : Nat := 20

/-- `session.get(DecisionAssumption, id)`. -/
def GroupTables.assumption (t : GroupTables) (id : Id) :
    Option DecisionAssumption :=
  t.assumptions.find? fun a => decide (a.id = id)

/-- `session.get(AssumptionGroupCandidate, id)`. -/
def GroupTables.candidate (t : GroupTables) (id : Id) :
    Option AssumptionGroupCandidate :=
  t.candidates.find? fun c => decide (c.id = id)

-- ======= proposing

/-- The rows of `_eligible`, in the order of the table. -/
def eligible (t : GroupTables) : List DecisionAssumption :=
  t.assumptions.filter fun a => decide (minStatementChars ≤ a.statement.length)

/-- What `_eligible` may return: its rows, ordered by statement. -/
def Ordered (s : GroupSetup) (t : GroupTables)
    (rows : List DecisionAssumption) : Prop :=
  rows.Perm (eligible t)
    ∧ rows.Pairwise fun a b => s.collated a.statement b.statement = true

instance (s : GroupSetup) (t : GroupTables)
    (rows : List DecisionAssumption) : Decidable (Ordered s t rows) :=
  inferInstanceAs (Decidable (_ ∧ _))

/-- The inner product of two vectors. -/
def inner (u v : List ℚ) : ℚ := (u.zipWith (· * ·) v).sum

/-- The score of two statements. -/
def score (s : GroupSetup) (left right : Text) : ℚ :=
  inner (s.embed left) (s.embed right)

/-- A score as it is kept. -/
def similarity (s : GroupSetup) (left right : Text) : ℚ :=
  min 1 (max 0 (score s left right))

/-- The two loops over `i < j`. -/
def triangle : List DecisionAssumption →
    List (DecisionAssumption × DecisionAssumption)
  | [] => []
  | row :: rows => rows.map (row, ·) ++ triangle rows

/-- One turn of the inner loop. -/
def proposePair (s : GroupSetup)
    (pair : DecisionAssumption × DecisionAssumption) :
    Option GroupCandidate :=
  if score s pair.1.statement pair.2.statement < s.reviewFloor then none
  else
    some
      { leftId := pair.1.id
        rightId := pair.2.id
        leftStatement := pair.1.statement
        rightStatement := pair.2.statement
        similarity := similarity s pair.1.statement pair.2.statement }

/-- `propose`. -/
def propose (s : GroupSetup) (rows : List DecisionAssumption) :
    List GroupCandidate :=
  ((triangle rows).filterMap (proposePair s)).insertionSort
    fun c d => -c.similarity ≤ -d.similarity

-- =========== a run

/-- `candidate.similarity >= self._threshold`. -/
def clears (s : GroupSetup) (c : GroupCandidate) : Bool :=
  decide (s.threshold ≤ c.similarity)

/-- The pairs that are joined, in the order they are. -/
def autoPairs (s : GroupSetup) (rows : List DecisionAssumption) :
    List (Id × Id) :=
  ((propose s rows).filter (clears s)).map fun c => (c.leftId, c.rightId)

/-- `statements[member]`. -/
def statementOf (rows : List DecisionAssumption) (member : Id) : Text :=
  match rows.find? fun a => decide (a.id = member) with
  | none => []
  | some a => a.statement

/-- `max(…, key=len)`: the first of the longest. -/
def longest (texts : List Text) : Text :=
  texts.foldl
    (fun best text => if best.length < text.length then text else best) []

/-- `update(DecisionAssumption).where(id.in_(members))`. -/
def regroup (members : List Id) (groupId : Id) (a : DecisionAssumption) :
    DecisionAssumption :=
  if a.id ∈ members then { a with groupId := some groupId } else a

/-- One turn of the loop over `clusters.values()`. -/
def writeCluster (rows : List DecisionAssumption) (t : GroupTables)
    (members : List Id) : GroupTables :=
  if members.length < 2 then t
  else
    { t with
      groups := t.groups ++
        [{ id := t.nextId
           label := longest (members.map (statementOf rows))
           strategy := .embedding }]
      assumptions := t.assumptions.map (regroup members t.nextId)
      nextId := t.nextId + 1 }

/-- The conflict that `_queue` does nothing on. -/
def outstanding (t : GroupTables) (leftId rightId : Id) : Bool :=
  t.candidates.any fun c =>
    decide (c.leftId = leftId ∧ c.rightId = rightId ∧ c.status = .pending)

/-- `_queue`. -/
def queue (s : GroupSetup) (t : GroupTables) (c : GroupCandidate) :
    GroupTables :=
  if outstanding t c.leftId c.rightId then t
  else
    { t with
      candidates := t.candidates ++
        [{ id := t.nextId
           leftId := c.leftId
           rightId := c.rightId
           similarity := c.similarity
           status := .pending
           modelId := s.modelId
           reviewedAt := none }]
      nextId := t.nextId + 1 }

/-- The transaction that writes the groups. -/
def writeGroups (s : GroupSetup) (rows : List DecisionAssumption)
    (t : GroupTables) : GroupTables :=
  ((UnionFind.clusters (UnionFind.unions (autoPairs s rows))).map
    Prod.snd).foldl (writeCluster rows) t

/-- `GroupAssumptions.__call__`, without `dry_run`. -/
def groupAssumptions (s : GroupSetup) (rows : List DecisionAssumption)
    (t : GroupTables) : GroupTables :=
  ((propose s rows).filter fun c => !clears s c).foldl (queue s)
    (writeGroups s rows t)

-- ====== the reviews

/-- What `accept` and `reject` refuse. -/
inductive GroupError
  | unknownCandidate (id : Id)
  | alreadyReviewed (id : Id) (status : MergeStatus)
  | sideGone
deriving DecidableEq, Repr

/-- A pending row, or why there is none. -/
def reviewable (t : GroupTables) (id : Id) :
    Except GroupError AssumptionGroupCandidate :=
  match t.candidate id with
  | none => .error (.unknownCandidate id)
  | some row =>
    if row.status ≠ .pending then .error (.alreadyReviewed id row.status)
    else .ok row

/-- `row.status = …` and `row.reviewed_at = …`. -/
def review (t : GroupTables) (id : Id) (status : MergeStatus)
    (now : Timestamp) : GroupTables :=
  { t with
    candidates := t.candidates.map fun c =>
      if c.id = id then { c with status := status, reviewedAt := some now }
      else c }

/-- `update(DecisionAssumption).where(group_id == …)`. -/
def moveGroup (t : GroupTables) (source target : Id) : GroupTables :=
  { t with
    assumptions := t.assumptions.map fun a =>
      if a.groupId = some source then { a with groupId := some target }
      else a }

/-- `left.group_id = group_id` and `right.group_id = group_id`. -/
def assign (t : GroupTables) (left right groupId : Id) : GroupTables :=
  { t with
    assumptions := t.assumptions.map (regroup [left, right] groupId) }

/-- The group of a pair, created or merged when it has to be. -/
def sharedGroup (t : GroupTables) (left right : DecisionAssumption) :
    GroupTables × Id :=
  match left.groupId, right.groupId with
  | none, none =>
    ({ t with
        groups := t.groups ++
          [{ id := t.nextId
             label := longest [left.statement, right.statement]
             strategy := .manual }]
        nextId := t.nextId + 1 }, t.nextId)
  | none, some g => (t, g)
  | some g, none => (t, g)
  | some g, some g' => if g ≠ g' then (moveGroup t g' g, g) else (t, g)

/-- `accept`. -/
def accept (t : GroupTables) (id : Id) (now : Timestamp) :
    Except GroupError GroupTables := do
  let row ← reviewable t id
  match t.assumption row.leftId, t.assumption row.rightId with
  | some left, some right =>
    let (t, groupId) := sharedGroup t left right
    return review (assign t left.id right.id groupId) id .applied now
  | _, _ => throw .sideGone

/-- `reject`. -/
def reject (t : GroupTables) (id : Id) (now : Timestamp) :
    Except GroupError GroupTables := do
  let _ ← reviewable t id
  return review t id .reverted now

-- ====== the system

/-- The tables, with what was done last. -/
structure GroupWorld where
  tables : GroupTables
  /-- Not in the source: the tables before the last action. -/
  before : GroupTables
  /-- Not in the source: how many runs there were since anything else. -/
  runs : Nat

/-- What people and jobs do. -/
inductive GroupAction
  /-- A decision brings an assumption. -/
  | assume (a : DecisionAssumption)
  /-- A run, over the rows as it read them. -/
  | group (rows : List DecisionAssumption)
  | accept (id : Id) (now : Timestamp)
  | reject (id : Id) (now : Timestamp)

/-- The action on the tables. A call that is refused is not one. -/
def GroupAction.apply (s : GroupSetup) (t : GroupTables) :
    GroupAction → Option GroupTables
  | .assume a =>
    if a.id ∈ t.assumptions.map (·.id) ∨ a.groupId ≠ none then none
    else some { t with assumptions := t.assumptions ++ [a] }
  | .group rows =>
    if Ordered s t rows then some (groupAssumptions s rows t) else none
  | .accept id now => (AssumptionGroups.accept t id now).toOption
  | .reject id now => (AssumptionGroups.reject t id now).toOption

/-- Runs one after another are counted. -/
def GroupAction.runs (n : Nat) : GroupAction → Nat
  | .group _ => n + 1
  | _ => 0

/-- Grouping, between people and jobs. -/
def grouping (s : GroupSetup) : Machine GroupWorld GroupAction Unit where
  step w a :=
    (a.apply s w.tables).map fun t =>
      ({ tables := t, before := w.tables, runs := a.runs w.runs }, [])

/-- No assumptions yet. -/
def emptyGroups : GroupWorld where
  tables := ⟨[], [], [], 0⟩
  before := ⟨[], [], [], 0⟩
  runs := 0

end AssumptionGroups

end MemoryOS
