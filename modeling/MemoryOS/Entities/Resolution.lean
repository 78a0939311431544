/-
Entity resolution (`application/resolution.py`): merging two entities
into one, taking a merge back, and the candidates of a run, one for each pair.

`apply`, `revert` and `record_pending` are one transaction each: they
return the database after the commit, or the error that rolled it back.
The graph sync they announce afterwards is `GraphSync.enqueueSync`.
-/
import Mathlib.Algebra.Order.Field.Rat
import Mathlib.Data.List.Sort
import Mathlib.Data.String.Basic
import Mathlib.Data.Sym.Sym2
import MemoryOS.Db.Tables
import MemoryOS.Lib.Best

namespace MemoryOS

/-- `MergeCandidate`: a proposal that two entities are one thing. -/
structure MergeCandidate where
  leftId : Id
  rightId : Id
  strategy : MergeStrategy
  confidence : ℚ
  evidence : String
deriving DecidableEq

namespace ResolveEntities

/-- `_follow`: the entity this one was merged into, transitively, within
`depth` reads. -/
def follow (db : Db) : Nat → Id → Option Id
  | 0, _ => none
  | depth + 1, current =>
    match db.entity current with
    | none => none
    | some row =>
      match row.mergedIntoId with
      | none => some current
      | some next => follow db depth next

/-- The default of `_follow`'s `depth`. -/
def followDepth : Nat := 8

/-- `counts.get(entity_id, 0)`. -/
def mentionCount (db : Db) (id : Id) : Nat :=
  db.mentions.countP fun m => decide (m.entityId = id)

/-- `seen.timestamp() if seen is not None else 0.0`. -/
def firstSeen (db : Db) (id : Id) : Timestamp :=
  ((db.entity id).map (·.firstSeenAt)).getD 0

/-- `rank(a) < rank(b)`: more mentions first, then the older, then the
lower id. -/
def ranksBefore (db : Db) (a b : Id) : Bool :=
  decide (mentionCount db b < mentionCount db a)
    || (decide (mentionCount db a = mentionCount db b)
      && (decide (firstSeen db a < firstSeen db b)
        || (decide (firstSeen db a = firstSeen db b) && decide (a < b))))

/-- `_pick_winner`: `sorted([left, right], key=rank)`. -/
def pickWinner (db : Db) (left right : Id) : Id × Id :=
  if ranksBefore db right left then (right, left) else (left, right)

/-- `_resolve_pair`: follow both sides to their current winners and order
them. -/
def resolvePair (db : Db) (left right : Id) : Option (Id × Id) :=
  match follow db followDepth left, follow db followDepth right with
  | some l, some r => if l = r then none else some (pickWinner db l r)
  | _, _ => none

/-- The loop of `_repoint`: which of the loser's mentions move, and which
are dropped because the winner has one at the same place. -/
def repointLoop : List EntityMention → List (Id × Nat) → List Id × List Id
  | [], _ => ([], [])
  | m :: rest, existing =>
    if (m.chunkId, m.charStart) ∈ existing then
      let r := repointLoop rest existing
      (r.1, m.id :: r.2)
    else
      let r := repointLoop rest ((m.chunkId, m.charStart) :: existing)
      (m.id :: r.1, r.2)

/-- `_repoint`: move the loser's mentions to the winner, returning the ids
that moved. -/
def repoint (db : Db) (winner loser : Id) : Db × List Id :=
  let moving := db.mentions.filter fun m => decide (m.entityId = loser)
  let existing := (db.mentions.filter fun m =>
    decide (m.entityId = winner)).map fun m => (m.chunkId, m.charStart)
  let plan := repointLoop moving existing
  ({ db with
      mentions := (db.mentions.filter fun m => decide (m.id ∉ plan.2)).map
        fun m => if m.id ∈ plan.1 then { m with entityId := winner } else m },
    plan.1)

/-- Set one entity's `merged_into_id`. -/
def setMergedInto (db : Db) (id : Id) (target : Option Id) : Db :=
  { db with
    entities := db.entities.map fun e =>
      if e.id = id then { e with mergedIntoId := target } else e }

/-- Whether the ledger row passes `ck_entity_merges_distinct` and
`ck_entity_merges_confidence_range`. -/
def mergeRowOk (winner loser : Id) (confidence : ℚ) : Bool :=
  decide (winner ≠ loser) && decide (0 ≤ confidence)
    && decide (confidence ≤ 1)

/-- `uq_entity_merges_active_loser`: a loser with an applied merge. -/
def hasActiveMerge (db : Db) (loser : Id) : Bool :=
  db.merges.any fun m =>
    decide (m.status = .applied) && decide (m.loserId = loser)

/-- What a merge did: its two sides and the mentions it moved. -/
structure Applied where
  winner : Id
  loser : Id
  moved : List Id
deriving DecidableEq

/-- `apply`: merge one side into the other. `none` when the merge is no
longer applicable. -/
def apply (db : Db) (candidate : MergeCandidate) (now : Timestamp) :
    Except Failure (Db × Option Applied) :=
  match resolvePair db candidate.leftId candidate.rightId with
  | none => .ok (db, none)
  | some (winner, loser) =>
    if winner = loser then .ok (db, none)
    else if !mergeRowOk winner loser candidate.confidence then
      .error .checkViolation
    else if hasActiveMerge db loser then .error .uniqueViolation
    else
      let r := repoint db winner loser
      let db' := setMergedInto r.1 loser (some winner)
      .ok ({ db' with
          merges := db'.merges ++ [{
            id := db.nextId
            winnerId := winner
            loserId := loser
            strategy := candidate.strategy
            status := .applied
            confidence := candidate.confidence
            evidence := candidate.evidence
            movedMentionIds := r.2
            proposedAt := now
            mergedAt := some now
            revertedAt := none }]
          nextId := db.nextId + 1 },
        some ⟨winner, loser, r.2⟩)

/-- `uq_entity_mentions_span`. -/
def spansUnique (mentions : List EntityMention) : Bool :=
  decide (mentions.map fun m => (m.entityId, m.chunkId, m.charStart)).Nodup

/-- `revert`: undo a merge, restoring exactly the mentions it moved. -/
def revert (db : Db) (mergeId : Id) (now : Timestamp) :
    Except Failure (Db × Nat) :=
  match db.merge mergeId with
  | none => .error .notFound
  | some merge =>
    if merge.status ≠ .applied then .error .refused
    else
      let mentions := db.mentions.map fun m =>
        if m.id ∈ merge.movedMentionIds then { m with entityId := merge.loserId }
        else m
      if !spansUnique mentions then .error .uniqueViolation
      else
        let db' := setMergedInto { db with mentions := mentions } merge.loserId none
        .ok ({ db' with
            merges := db'.merges.map fun m =>
              if m.id = mergeId then
                { m with status := .reverted, revertedAt := some now }
              else m },
          merge.movedMentionIds.length)

/-- `record_pending`: queue a candidate for review. `false` when it was
already queued, or there is nothing to merge. -/
def recordPending (db : Db) (candidate : MergeCandidate) (now : Timestamp) :
    Except Failure (Db × Bool) :=
  match resolvePair db candidate.leftId candidate.rightId with
  | none => .ok (db, false)
  | some (winner, loser) =>
    if winner = loser then .ok (db, false)
    else if !mergeRowOk winner loser candidate.confidence then
      .error .checkViolation
    else if db.merges.any fun m => decide (m.status = .pending)
        && decide (m.winnerId = winner) && decide (m.loserId = loser) then
      .ok (db, false)
    else
      .ok ({ db with
          merges := db.merges ++ [{
            id := db.nextId
            winnerId := winner
            loserId := loser
            strategy := candidate.strategy
            status := .pending
            confidence := candidate.confidence
            evidence := candidate.evidence
            movedMentionIds := []
            proposedAt := now
            mergedAt := none
            revertedAt := none }]
          nextId := db.nextId + 1 },
        true)

end ResolveEntities

end MemoryOS

namespace MemoryOS

namespace MergeCandidate

/-- `AUTO_MERGE_STRATEGIES`. -/
def autoMergeStrategies : List MergeStrategy := [.exact, .alias, .manual]

/-- Whether the candidate's strategy may merge without review. -/
def trusted (c : MergeCandidate) : Bool :=
  decide (c.strategy ∈ autoMergeStrategies)

/-- `frozenset({left_id, right_id})`. -/
def pair (c : MergeCandidate) : Sym2 Id := s(c.leftId, c.rightId)

/-- By `(-confidence, evidence)`. -/
def Before (a b : MergeCandidate) : Prop :=
  b.confidence < a.confidence
    ∨ (a.confidence = b.confidence ∧ a.evidence ≤ b.evidence)

instance : DecidableRel Before := fun _ _ => inferInstanceAs (Decidable (_ ∨ _))

end MergeCandidate

namespace ResolveEntities

open Lib

/-- `DEFAULT_THRESHOLD`. -/
def defaultThreshold : ℚ := 93 / 100

/-- `would_auto_merge`. -/
def wouldAutoMerge (threshold : ℚ) (c : MergeCandidate) : Bool :=
  c.trusted && decide (threshold ≤ c.confidence)

/-- `_deduplicated`. -/
def deduplicated (candidates : List MergeCandidate) : List MergeCandidate :=
  (Best.best MergeCandidate.pair MergeCandidate.confidence
    candidates).insertionSort MergeCandidate.Before

end ResolveEntities

end MemoryOS
