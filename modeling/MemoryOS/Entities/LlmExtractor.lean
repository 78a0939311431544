/-
The extractor over a language model (`adapters/extraction/llm.py`): what it
keeps of a response.

The model's response has been parsed and validated; what it says is any list of
names, and of numbered claims. The statistics are left out: nothing is decided
by them.
-/
import Mathlib.Algebra.Order.Ring.Unbundled.Rat
import MemoryOS.Entities.Extraction

namespace MemoryOS

open Lib

/-- `ExtractedRelationship`. -/
structure ExtractedRelationship where
  subjectId : Id
  objectId : Id
  predicate : Predicate
  confidence : ℚ
  evidence : Text
  charStart : Option Nat
  charEnd : Option Nat
deriving DecidableEq

/-- `EntityRef`. -/
structure EntityRef where
  entityId : Id
  name : Text
  type : EntityType
deriving DecidableEq

/-- `EntityType`'s values. -/
def EntityType.values : List (String × EntityType) :=
  [("person", .person), ("technology", .technology), ("project", .project),
    ("organization", .organization), ("concept", .concept), ("file", .file),
    ("decision", .decision)]

/-- `Predicate`'s values. -/
def Predicate.values : List (String × Predicate) :=
  [("uses", .uses), ("depends_on", .dependsOn), ("part_of", .partOf),
    ("authored_by", .authoredBy), ("mentions", .mentions),
    ("supersedes", .supersedes), ("relates_to", .relatesTo)]

namespace LlmExtractor

-- ======= responses

/-- `_Entity`: one name as the model returns it. -/
structure Candidate where
  name : Text
  type : Text
  confidence : ℚ := 1
deriving DecidableEq

/-- `_Result`: the names of one chunk of the batch. -/
structure Result where
  index : Int
  entities : List Candidate := []
deriving DecidableEq

/-- `_Relationship`: a claim about two numbered entities. -/
structure Claim where
  subject : Int
  predicate : Text
  object : Int
  confidence : ℚ := 1
  evidence : Text := []
deriving DecidableEq

-- ======== locating

/-- The loop of `str.find`, from an offset on. -/
def findFrom (sub : Text) : Text → Nat → Option Nat
  | [], i => if sub.isEmpty then some i else none
  | c :: rest, i =>
    if sub.isPrefixOf (c :: rest) then some i else findFrom sub rest (i + 1)

/-- `text.find(sub)`; none for -1. -/
def find (text sub : Text) : Option Nat := findFrom sub text 0

/-- `_locate`: where a name is, and the text's own spelling of it. -/
def locate (unicode : Unicode) (text name : Text) : Option (Nat × Text) :=
  match find text name with
  | some index => some (index, name)
  | none =>
    match find (unicode.lower text) (unicode.lower name) with
    | none => none
    | some index =>
      some (index, slice text index ((index + name.length : Nat) : Int))

-- ======== entities

/-- `_type_of`. -/
def typeOf (unicode : Unicode) (raw : Text) : Option EntityType :=
  EntityType.values.lookup (String.ofList (unicode.lower (strip raw)))

/-- `min(1.0, max(0.0, confidence))`. -/
def clamp (confidence : ℚ) : ℚ := min 1 (max 0 confidence)

/-- What `_verify` makes of a candidate, unless it drops it. -/
def judgeEntity (unicode : Unicode) (minConfidence : ℚ) (text : Text)
    (candidate : Candidate) : Option (Candidate × ExtractedEntity) :=
  let name := strip candidate.name
  if name.isEmpty then none
  else if candidate.confidence < minConfidence then none
  else
    match typeOf unicode candidate.type with
    | none => none
    | some type =>
      match locate unicode text name with
      | none => none
      | some (start, surface) =>
        some (candidate,
          { name := surface
            type := type
            confidence := clamp candidate.confidence
            charStart := start
            charEnd := ((start + surface.length : Nat) : Int) })

/-- The place of a mention: a second one there is the same. -/
def place (found : Candidate × ExtractedEntity) : Text × Int :=
  (found.2.name, found.2.charStart)

/-- `_verify`, each mention beside the candidate it is of. -/
def verify (unicode : Unicode) (minConfidence : ℚ) (candidates : List Candidate)
    (text : Text) : List (Candidate × ExtractedEntity) :=
  DistinctOn.sieve (judgeEntity unicode minConfidence text) place [] candidates

/-- `by_index.get(index, [])`: of two results of one index the later. -/
def candidatesAt (results : List Result) (index : Nat) : List Candidate :=
  match results.reverse.find? fun r => decide (r.index = (index : Int)) with
  | none => []
  | some result => result.entities

/-- What `_extract_one_batch` returns of a response, one list for each chunk. -/
def extractOneBatch (unicode : Unicode) (minConfidence : ℚ)
    (results : List Result) (batch : List Text) :
    List (List (Candidate × ExtractedEntity)) :=
  batch.mapIdx fun index text =>
    verify unicode minConfidence (candidatesAt results index) text

-- ====== relationships

/-- `_predicate_of`. -/
def predicateOf (unicode : Unicode) (raw : Text) : Option Predicate :=
  Predicate.values.lookup (String.ofList (unicode.lower (strip raw)))

/-- `_entity_at`. -/
def entityAt (entities : List EntityRef) (index : Int) : Option EntityRef :=
  if 0 ≤ index then entities[index.toNat]? else none

/-- The span of a claim's evidence. -/
def evidenceSpan (unicode : Unicode) (text evidence : Text) :
    Option (Nat × Text) :=
  if evidence.isEmpty then none else locate unicode text (strip evidence)

/-- What `_verify_relationships` makes of a claim, unless it drops it. -/
def judgeClaim (unicode : Unicode) (minConfidence : ℚ)
    (entities : List EntityRef) (text : Text) (claim : Claim) :
    Option (Claim × ExtractedRelationship) :=
  if claim.confidence < minConfidence then none
  else
    match predicateOf unicode claim.predicate with
    | none => none
    | some predicate =>
      match entityAt entities claim.subject, entityAt entities claim.object with
      | some subject, some object =>
        if subject.entityId = object.entityId then none
        else
          let span := evidenceSpan unicode text claim.evidence
          some (claim,
            { subjectId := subject.entityId
              objectId := object.entityId
              predicate := predicate
              confidence := clamp claim.confidence
              evidence := strip claim.evidence
              charStart := span.map fun s => s.1
              charEnd := span.map fun s => s.1 + s.2.length })
      | _, _ => none

/-- What a relationship claims. -/
def triple (found : Claim × ExtractedRelationship) : Id × Predicate × Id :=
  (found.2.subjectId, found.2.predicate, found.2.objectId)

/-- `_verify_relationships`, each relationship beside the claim it is of. -/
def verifyRelationships (unicode : Unicode) (minConfidence : ℚ)
    (claims : List Claim) (entities : List EntityRef) (text : Text) :
    List (Claim × ExtractedRelationship) :=
  DistinctOn.sieve (judgeClaim unicode minConfidence entities text) triple []
    claims

/-- `extract_relationships`, of a response; fewer than two entities are not
asked about. -/
def extractRelationships (unicode : Unicode) (minConfidence : ℚ)
    (claims : List Claim) (entities : List EntityRef) (text : Text) :
    List (Claim × ExtractedRelationship) :=
  if entities.length < 2 then []
  else verifyRelationships unicode minConfidence claims entities text

end LlmExtractor

end MemoryOS
