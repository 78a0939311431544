/-
The domain's identifiers and enumerations (`domain/values.py`,
`domain/ids.py`, `domain/jobs.py`).

A `UUID` is an `Id`: `new_id` mints version-7 identifiers, which sort by
creation, so a fresh one is a number above every number in use. A
timestamp is an integer count of microseconds. Python strings that are
only compared (keys, names) are `String`; text that is sliced is a list
of code points.
-/
import Mathlib.Data.List.Basic

namespace MemoryOS

/-- A `UUID`. -/
abbrev Id := Nat

/-- A `datetime`, in microseconds. -/
abbrev Timestamp := Int

/-- A Python `str` whose characters matter: its code points. -/
abbrev Text := List Char

/-- `domain/values.py`: `TimeProvenance`. -/
inductive TimeProvenance
  | declared | parsed | filesystem | inferred | unknown
deriving DecidableEq, Repr

/-- `domain/values.py`: `MemoryKind`. -/
inductive MemoryKind
  | note | document | code | email | commit | meeting | bookmark | other
deriving DecidableEq, Repr

/-- `domain/values.py`: `SourceKind`. -/
inductive SourceKind
  | filesystem | chat | upload
deriving DecidableEq, Repr

/-- `domain/values.py`: `EventType`. -/
inductive EventType
  | artifactObserved | itemDeleted | itemPurged
deriving DecidableEq, Repr

/-- `domain/values.py`: `EntityType`. -/
inductive EntityType
  | person | technology | project | organization | concept | file | decision
deriving DecidableEq, Repr

/-- `domain/values.py`: `Predicate`. -/
inductive Predicate
  | uses | dependsOn | partOf | authoredBy | mentions | supersedes | relatesTo
deriving DecidableEq, Repr

/-- `domain/values.py`: `MergeStrategy`. -/
inductive MergeStrategy
  | exact | embedding | alias | llm | manual
deriving DecidableEq, Repr

/-- `domain/values.py`: `MergeStatus`. -/
inductive MergeStatus
  | pending | applied | reverted
deriving DecidableEq, Repr

/-- `domain/values.py`: `EvidenceRelation`. -/
inductive EvidenceRelation
  | informed | records | contradicts
deriving DecidableEq, Repr

/-- `domain/jobs.py`: `JobStatus`. -/
inductive JobStatus
  | pending | running | succeeded | failed | cancelled
deriving DecidableEq, Repr

/-- `domain/jobs.py`: `JobType`. -/
inductive JobType
  | syncSource | normalizeMemory | embedMemory | extractEntities
  | syncGraph | handleEvent | assembleContext
  | noop | failTransient | failPermanent
deriving DecidableEq, Repr

/-- `domain/events.py`: `EventKind`. -/
inductive EventKind
  | editorOpened | fileFocused | meetingUpcoming | manual
deriving DecidableEq, Repr

end MemoryOS
