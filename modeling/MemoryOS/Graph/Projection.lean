/-
What the graph holds, as values (`application/ports.py`), the part of
what Postgres implies it should hold that a replay rebuilds
(`application/graph_projection.py`: `_memories`, `_sources`,
`_from_source_edges`), and whether the two agree (`application/graph_verify.py`,
`compare`).

The graph's keys are the ids' texts. Entities and their edges are read the
same way on both sides of a comparison and are not read out of Postgres
here. A divergence keeps the keys and rows that differ; how they are described is
left out, and so is the digest of everything at once, which `compare` takes
beside the ones of each type.
-/
import Mathlib.Data.Char
import Mathlib.Data.List.Lex
import Mathlib.Data.List.Sort
import MemoryOS.Db.Tables
import MemoryOS.Lib.Folded

namespace MemoryOS

/-- `GraphLabel`. -/
inductive GraphLabel
  | source | memory | entity
deriving DecidableEq, Repr

/-- `EdgeType`. -/
inductive EdgeType
  | mentions | relatesTo | fromSource
deriving DecidableEq, Repr

/-- A property's value: a scalar the driver returns. -/
inductive Property
  | null
  | bool (b : Bool)
  | int (n : Int)
  | float (q : ℚ)
  | text (t : Text)
deriving DecidableEq

/-- `SourceNode`. -/
structure SourceNode where
  sourceId : Id
  name : Text
  kind : Text
deriving DecidableEq, Repr

/-- `MemoryNode`. -/
structure MemoryNode where
  memoryId : Id
  externalKey : Text
  kind : MemoryKind
  occurredAt : Option Timestamp
deriving DecidableEq, Repr

/-- `EntityNode`. -/
structure EntityNode where
  entityId : Id
  name : Text
  canonicalName : Text
  type : Text
  confidence : ℚ
deriving DecidableEq

/-- `GraphNode`: a label and an identity. -/
structure GraphNode where
  label : GraphLabel
  key : Text
deriving DecidableEq, Repr

/-- `GraphEdge`. -/
structure GraphEdge where
  type : EdgeType
  start : GraphNode
  stop : GraphNode
  properties : List (Text × Property) := []
deriving DecidableEq

/-- `GraphProjection`. -/
structure GraphProjection where
  sources : List SourceNode := []
  memories : List MemoryNode := []
  entities : List EntityNode := []
  edges : List GraphEdge := []

/-- `MemoryKind.value`. -/
def MemoryKind.value : MemoryKind → Text
  | .note => "note".toList
  | .document => "document".toList
  | .code => "code".toList
  | .email => "email".toList
  | .commit => "commit".toList
  | .meeting => "meeting".toList
  | .bookmark => "bookmark".toList
  | .other => "other".toList

/-- `SourceKind.value`. -/
def SourceKind.value : SourceKind → Text
  | .filesystem => "filesystem".toList
  | .chat => "chat".toList
  | .upload => "upload".toList

namespace GraphProjection

/-- Current, undeleted memories, by id. -/
def projected (db : Db) : List Memory :=
  (db.memories.filter fun m => m.isCurrent && m.deletedAt.isNone).insertionSort
    fun m m' => m.id ≤ m'.id

/-- `_memories`, with the source each came from. -/
def memoriesOf (db : Db) : List MemoryNode × List (Id × Id) :=
  ((projected db).map fun m =>
      ⟨m.id, m.externalKey.toList, m.kind, m.occurredAt⟩,
    (projected db).map fun m => (m.id, m.sourceId))

/-- `_sources`. -/
def sourcesOf (db : Db) (ids : List Id) : List SourceNode :=
  ((db.sources.filter fun s => decide (s.id ∈ ids)).insertionSort
    fun s s' => s.id ≤ s'.id).map fun s =>
      ⟨s.id, s.name.toList, s.kind.value⟩

/-- `_from_source_edges`. -/
def fromSourceEdges (uuid : Id → Text) (sourceOf : List (Id × Id)) :
    List GraphEdge :=
  sourceOf.map fun p =>
    { type := .fromSource
      start := ⟨.memory, uuid p.1⟩, stop := ⟨.source, uuid p.2⟩ }

/-- `read`, without the entities. -/
def read (uuid : Id → Text) (db : Db) : GraphProjection :=
  let r := memoriesOf db
  { sources := sourcesOf db (r.2.map (·.2))
    memories := r.1
    edges := fromSourceEdges uuid r.2 }

end GraphProjection

end MemoryOS

namespace MemoryOS

namespace GraphVerify

open Lib

/-- The separators of `_digest_rows`: `"\x1f"` and `"\n"`. -/
def fieldSeparator : Char := Char.ofNat 31

@[inherit_doc fieldSeparator]
def rowSeparator : Char := Char.ofNat 10

/-- Without separators. -/
def Plain (t : Text) : Prop := fieldSeparator ∉ t ∧ rowSeparator ∉ t

/-- How the platform writes what is compared as text. -/
structure Formats where
  /-- `str` of a `UUID`. -/
  uuid : Id → Text
  /-- `str` of a `datetime`. -/
  stamp : Timestamp → Text
  /-- `f"{round(x, 6):.6f}"`. -/
  sixPlaces : ℚ → Text
  /-- `str` of a property. -/
  str : Property → Text
  /-- `str` of a tuple of pairs, which quotes what is not printable. -/
  repr : List (Text × Property) → Text
  /-- `hashlib.blake2b(...).hexdigest()`. -/
  digest : Text → String

/-- What the platform's texts are relied on for: they tell apart what they
write, and are digits, punctuation and quoted text. -/
structure Formats.Sound (f : Formats) : Prop where
  uuid_injective : Function.Injective f.uuid
  uuid_plain : ∀ id, Plain (f.uuid id)
  stamp_injective : Function.Injective f.stamp
  stamp_plain : ∀ t, Plain (f.stamp t)
  stamp_ne_nil : ∀ t, f.stamp t ≠ []
  sixPlaces_plain : ∀ q, Plain (f.sixPlaces q)
  repr_injective : Function.Injective f.repr
  repr_plain : ∀ props, Plain (f.repr props)

variable (f : Formats)

-- ======== the rows

/-- `_memory_row`. -/
def memoryRow (node : MemoryNode) : List Text :=
  [node.externalKey, node.kind.value, (node.occurredAt.map f.stamp).getD []]

/-- `_entity_row`. -/
def entityRow (node : EntityNode) : List Text :=
  [node.name, node.canonicalName, node.type, f.sixPlaces node.confidence]

/-- The dict entries of a label's nodes. -/
def sourceItems (p : GraphProjection) : List (Text × List Text) :=
  p.sources.map fun node => (f.uuid node.sourceId, [node.name, node.kind])

@[inherit_doc sourceItems]
def memoryItems (p : GraphProjection) : List (Text × List Text) :=
  p.memories.map fun node => (f.uuid node.memoryId, memoryRow f node)

@[inherit_doc sourceItems]
def entityItems (p : GraphProjection) : List (Text × List Text) :=
  p.entities.map fun node => (f.uuid node.entityId, entityRow f node)

/-- `_comparable`. -/
def comparable : Property → Property
  | .float q => .text (f.sixPlaces q)
  | value => value

/-- `EDGE_IDENTITY_PROPERTIES`. -/
def edgeIdentityProperties : List Text := ["predicate".toList]

/-- `edge.properties[name]`. -/
def propertyOf (edge : GraphEdge) (name : Text) : Option Property :=
  (edge.properties.find? fun p => decide (p.1 = name)).map (·.2)

/-- `_edge_key`. -/
def edgeKey (edge : GraphEdge) : List Text :=
  edge.start.key :: edge.stop.key ::
    edgeIdentityProperties.filterMap fun name =>
      (propertyOf edge name).map f.str

/-- The properties of an edge, canonicalised. -/
def edgeRow (edge : GraphEdge) : List (Text × Property) :=
  (edge.properties.insertionSort fun p q => p.1 ≤ q.1).map fun p =>
    (p.1, comparable f p.2)

/-- The dict entries of `_edges_by_key`. -/
def edgeItems (type : EdgeType) (edges : List GraphEdge) :
    List (List Text × List (Text × Property)) :=
  (edges.filter fun e => decide (e.type = type)).map fun e =>
    (edgeKey f e, edgeRow f e)

/-- `==` of two values: a `bool` is an `int`. -/
def valueEq : Property → Property → Bool
  | .bool b, .int n => decide (n = b.toNat)
  | .int n, .bool b => decide (n = b.toNat)
  | a, b => decide (a = b)

/-- `==` of two tuples of pairs. -/
def rowEq : List (Text × Property) → List (Text × Property) → Bool
  | [], [] => true
  | (k, a) :: rest, (k', b) :: rest' =>
    decide (k = k') && valueEq a b && rowEq rest rest'
  | _, _ => false

-- ====== the comparison

/-- `_digest_rows`, of a dict's entries in the order of their keys. -/
def digestRows {κ ρ : Type} [LinearOrder κ] (fields : κ × ρ → List Text)
    (items : List (κ × ρ)) : String :=
  f.digest (joined fieldSeparator rowSeparator
    ((items.insertionSort fun a b => a.1 ≤ b.1).map fields))

/-- `TypeDivergence`. -/
structure TypeDivergence (κ ρ : Type) where
  expected : Nat
  actual : Nat
  expectedHash : String
  actualHash : String
  differences : Diff κ (κ × ρ)

/-- `clean`. -/
def TypeDivergence.clean {κ ρ : Type} (d : TypeDivergence κ ρ) : Bool :=
  decide (d.expectedHash = d.actualHash)

/-- What `_diff_nodes` and `_diff_edges` share. -/
def diffItems {κ ρ : Type} [LinearOrder κ] (fields : κ × ρ → List Text)
    (same : ρ → ρ → Bool) (expected actual : List (κ × ρ)) :
    TypeDivergence κ ρ :=
  let left := keep Prod.fst expected
  let right := keep Prod.fst actual
  { expected := left.length
    actual := right.length
    expectedHash := digestRows f fields left
    actualHash := digestRows f fields right
    differences := diff Prod.fst (fun a b => same a.2 b.2) expected actual }

/-- `_diff_nodes`. -/
def diffNodes (expected actual : List (Text × List Text)) :
    TypeDivergence Text (List Text) :=
  diffItems f (fun item => item.1 :: item.2) (fun a b => decide (a = b))
    expected actual

/-- `_diff_edges`. -/
def diffEdges (type : EdgeType) (expected actual : List GraphEdge) :
    TypeDivergence (List Text) (List (Text × Property)) :=
  diffItems f (fun item => item.1 ++ [f.repr item.2]) rowEq
    (edgeItems f type expected) (edgeItems f type actual)

/-- `GraphDivergence`, as far as `compare` finds it out for each type. -/
structure GraphDivergence where
  source : TypeDivergence Text (List Text)
  memory : TypeDivergence Text (List Text)
  entity : TypeDivergence Text (List Text)
  edges : EdgeType → TypeDivergence (List Text) (List (Text × Property))

/-- `compare`. -/
def compare (expected actual : GraphProjection) : GraphDivergence where
  source := diffNodes f (sourceItems f expected) (sourceItems f actual)
  memory := diffNodes f (memoryItems f expected) (memoryItems f actual)
  entity := diffNodes f (entityItems f expected) (entityItems f actual)
  edges type := diffEdges f type expected.edges actual.edges

end GraphVerify

end MemoryOS
