/-
What the system knew at a past instant (`application/temporal.py`,
`as_of`), and the states a run has gone through.

`as_of` reads the versions a past instant had: the newest of each item
ingested by then, unless it had been deleted by then. A sweep commits
once for each missing key, every other operation once.
-/
import Mathlib.Data.List.Sort
import Mathlib.Data.Prod.Lex
import Mathlib.Data.String.Basic
import MemoryOS.Corpus.Projection
import MemoryOS.Corpus.Live
import MemoryOS.Lib.DistinctOn
import MemoryOS.Lib.Timeline

namespace MemoryOS

open Lib

namespace Temporal

-- ========= reading

/-- The order the versions are picked in: by item, the newest first. -/
def pickOrder (m : Memory) : Id ×ₗ String ×ₗ Timestampᵒᵈ ×ₗ Natᵒᵈ :=
  toLex (m.sourceId, toLex (m.externalKey,
    toLex (OrderDual.toDual m.ingestedAt, OrderDual.toDual m.version)))

/-- The versions known at an instant, one for each item. -/
def knownAt (db : Db) (moment : Timestamp) : List Memory :=
  DistinctOn.distinctOn Memory.item
    ((db.memories.filter fun m => decide (m.ingestedAt ≤ moment)).insertionSort
      fun a b => pickOrder a ≤ pickOrder b)

/-- Whether a version had not been deleted by an instant. -/
def undeletedAt (moment : Timestamp) (m : Memory) : Bool :=
  match m.deletedAt with
  | none => true
  | some d => decide (moment < d)

/-- The order of the answer. -/
def viewOrder (m : Memory) : Timestamp ×ₗ String :=
  toLex (m.ingestedAt, m.externalKey)

/-- `as_of`: what the system knew at `moment`, by `ingested_at`. -/
def asOf (db : Db) (moment : Timestamp) : List Memory :=
  ((knownAt db moment).filter (undeletedAt moment)).insertionSort fun a b =>
    viewOrder a ≤ viewOrder b

/-- Current, undeleted memories: what `_current_predicates` admits. -/
def live (db : Db) : List Memory :=
  db.memories.filter fun m => m.isCurrent && m.deletedAt.isNone

-- =========== a run

/-- The keys a sweep finds missing, in the order it deletes them. -/
def missingKeys (db : Db) (sourceId : Id) (observed : List String) :
    List String :=
  (((Deletion.knownOf db sourceId).map (·.externalKey)).dedup.filter fun k =>
    decide (k ∉ observed)).mergeSort fun a b => decide (a ≤ b)

/-- The database after each missing key's transaction. -/
def sweeps (sourceId : Id) (known : List Memory)
    (clock : String → Timestamp) : Db → List String → List Db
  | _, [] => []
  | db, k :: rest =>
    let db₁ := Deletion.sweepOne sourceId known db k (clock k)
    db₁ :: sweeps sourceId known clock db₁ rest

/-- The store after each transaction of an operation. -/
def commits (ports : Ports) (s : Store) : Live.Op → List Store
  | .detectDeletions sourceId observed clock =>
    (sweeps sourceId (Deletion.knownOf s.db sourceId) clock s.db
      (missingKeys s.db sourceId observed)).map fun db => { s with db := db }
  | op => [Live.step ports s op]

/-- The store after each transaction of a run. -/
def history (ports : Ports) : Store → List Live.Op → List Store
  | _, [] => []
  | s, op :: rest =>
    commits ports s op ++ history ports (Live.step ports s op) rest

-- ====== statement vocabulary

/-- An operation other than a purge. -/
def keeps : Live.Op → Bool
  | .purge _ => false
  | _ => true

/-- When each event was recorded. -/
def recordedTimes (s : Store) : List Timestamp :=
  s.db.events.map (·.recordedAt)

/-- Every event was recorded later than the one before. -/
def RecordedInOrder (s : Store) : Prop :=
  (recordedTimes s).Pairwise (· < ·)

instance (s : Store) : Decidable (RecordedInOrder s) :=
  inferInstanceAs (Decidable (List.Pairwise _ _))

/-- The store right after the last operation of a run recorded at or
before an instant. -/
def rightAfter (ports : Ports) (sources : List Source) (ops : List Live.Op)
    (moment : Timestamp) : Store :=
  Timeline.rightAfter recordedTimes moment (Live.start sources)
    (history ports (Live.start sources) ops)

/-- A version without the two marks that later operations overwrite. -/
def unmarked (v : MemoryView) : MemoryView :=
  { v with isCurrent := true, deletedAt := none }

/-- Which version a row is, with its id. -/
def version (m : Memory) : Id × MemoryView := (m.id, unmarked m.view)

/-- Which version a row is, whatever id a rebuild minted for it. -/
def content (m : Memory) : MemoryView := unmarked m.view

end Temporal

end MemoryOS
