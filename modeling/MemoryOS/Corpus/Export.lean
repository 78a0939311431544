/-
The JSON export (`application/export.py`), and the tags of its items
(`tags.for_items`).

Nobody writes while it runs, so every query reads one state. The order of text
in the database, how an instant is written and a tag's label, which is not a
column of the table's model, are parameters. What an export only counts
(`ExportStats`) is left out.
-/
import Mathlib.Data.List.Dedup
import Mathlib.Data.List.Sort
import MemoryOS.Db.Tables
import MemoryOS.Lib.Json

namespace MemoryOS.Export

open Lib

/-- What an export rests on: the database's order of text, the standard
library's text of an instant, and the labels of tags. -/
structure Setting where
  textLe : Text → Text → Bool
  textLe_total : ∀ a b, textLe a b = true ∨ textLe b a = true
  textLe_trans : ∀ a b c, textLe a b = true → textLe b c = true →
    textLe a c = true
  isoformat : Timestamp → Text
  label : MemoryTag → Text

/-- `FORMAT_VERSION`. -/
def formatVersion : Nat := 1

/-- `BATCH`. -/
def defaultBatch : Nat := 100

/-- `UnknownSource`, and the `MultipleResultsFound` of `scalar_one_or_none`. -/
inductive ExportError
  | unknownSource (name : String)
  | multipleResultsFound
deriving DecidableEq, Repr

-- ========== values

/-- The value of a `MemoryKind`. -/
def kindName : MemoryKind → String
  | .note => "note"
  | .document => "document"
  | .code => "code"
  | .email => "email"
  | .commit => "commit"
  | .meeting => "meeting"
  | .bookmark => "bookmark"
  | .other => "other"

/-- The value of a `TimeProvenance`. -/
def provenanceName : TimeProvenance → String
  | .declared => "declared"
  | .parsed => "parsed"
  | .filesystem => "filesystem"
  | .inferred => "inferred"
  | .unknown => "unknown"

/-- The value of a `SourceKind`. -/
def sourceKindName : SourceKind → String
  | .filesystem => "filesystem"
  | .chat => "chat"
  | .upload => "upload"

/-- `Version`. -/
structure Version where
  version : Nat
  isCurrent : Bool
  contentHash : ContentHash
  content : Option Text
  title : Option Text
  kind : String
  occurredAt : Option Text
  occurredAtSource : String
  ingestedAt : Text
  deletedAt : Option Text := none
  chunks : Nat := 0
deriving DecidableEq, Repr

/-- Text, or null. -/
def textOrNull : Option Text → Json
  | none => .null
  | some text => .str text

/-- `Version.as_dict`. -/
def Version.asDict (v : Version) : Json :=
  .obj [("version".toList, .num v.version),
    ("is_current".toList, .bool v.isCurrent),
    ("content_hash".toList, .str v.contentHash.toList),
    ("content".toList, textOrNull v.content),
    ("title".toList, textOrNull v.title),
    ("kind".toList, .str v.kind.toList),
    ("occurred_at".toList, textOrNull v.occurredAt),
    ("occurred_at_source".toList, .str v.occurredAtSource.toList),
    ("ingested_at".toList, .str v.ingestedAt),
    ("deleted_at".toList, textOrNull v.deletedAt),
    ("chunks".toList, .num v.chunks)]

/-- `ExportedItem`. -/
structure ExportedItem where
  source : String
  sourceKind : String
  externalKey : String
  versions : List Version
  tags : List Text := []
deriving DecidableEq, Repr

/-- `ExportedItem.as_dict`. -/
def ExportedItem.asDict (item : ExportedItem) : Json :=
  .obj [("source".toList, .str item.source.toList),
    ("source_kind".toList, .str item.sourceKind.toList),
    ("external_key".toList, .str item.externalKey.toList),
    ("tags".toList, .arr (item.tags.map .str)),
    ("versions".toList, .arr (item.versions.map Version.asDict))]

-- ========= queries

/-- `_resolve_source`. -/
def resolveSource (db : Db) (source : Option String) :
    Except ExportError (Option Id) :=
  match source with
  | none => .ok none
  | some name =>
    match db.sources.filter fun s => decide (s.name = name) with
    | [] => .error (.unknownSource name)
    | [s] => .ok (some s.id)
    | _ => .error .multipleResultsFound

/-- `ORDER BY` a text, then something else. -/
def thenBy (setting : Setting) (a b : Text) (rest : Bool) : Bool :=
  setting.textLe a b && (!setting.textLe b a || rest)

/-- The rows of `_keys`: a source, and the key of an item of it. -/
def keyRows (setting : Setting) (db : Db) (sourceId : Option Id) :
    List (Source × String) :=
  let scope := db.memories.filter fun m =>
    sourceId.all fun id => decide (m.sourceId = id)
  let joined := scope.flatMap fun m =>
    (db.sources.filter fun s => decide (s.id = m.sourceId)).map fun s =>
      (s, m.externalKey)
  joined.dedup.insertionSort fun a b =>
    thenBy setting a.1.name.toList b.1.name.toList
      (setting.textLe a.2.toList b.2.toList) = true

/-- A row of `_versions_for`. -/
def versionOf (setting : Setting) (db : Db) (m : Memory) : Version where
  version := m.version
  isCurrent := m.isCurrent
  contentHash := m.contentHash
  content := m.content
  title := m.title
  kind := kindName m.kind
  occurredAt := m.occurredAt.map setting.isoformat
  occurredAtSource := provenanceName m.occurredAtSource
  ingestedAt := setting.isoformat m.ingestedAt
  deletedAt := m.deletedAt.map setting.isoformat
  chunks := (db.chunks.filter fun c => decide (c.memoryId = m.id)).length

/-- `_versions_for`: the rows of one pair. -/
def versionsFor (setting : Setting) (db : Db) (keys : List (Id × String))
    (pair : Id × String) : List Version :=
  let found := db.memories.filter fun m =>
    keys.contains (m.sourceId, m.externalKey)
  let rows := found.insertionSort fun a b =>
    thenBy setting a.externalKey.toList b.externalKey.toList
      (decide (a.version ≤ b.version)) = true
  (rows.filter fun m => decide ((m.sourceId, m.externalKey) = pair)).map
    (versionOf setting db)

/-- `Tag.display`. -/
def display (setting : Setting) (tag : MemoryTag) : Text :=
  '#' :: setting.label tag

/-- `for_items`: the tags of one pair. The two conditions of the query match too
much, so its rows are looked up among the pairs. -/
def forItems (setting : Setting) (db : Db) (keys : List (Id × String))
    (pair : Id × String) : List MemoryTag :=
  let found := db.tags.filter fun t =>
    (keys.map (·.1)).contains t.sourceId
      && (keys.map (·.2)).contains t.externalKey
  let rows := found.insertionSort fun a b => setting.textLe a.tag b.tag = true
  rows.filter fun t => keys.contains (t.sourceId, t.externalKey)
    && decide ((t.sourceId, t.externalKey) = pair)

-- =========== items

/-- The slices of so many, one after another. -/
def batches {α : Type} (batch : Nat) (keys : List α) : List (List α) :=
  (List.range ((keys.length + batch - 1) / batch)).map fun i =>
    (keys.drop (i * batch)).take batch

/-- One item of a batch; one without versions is passed over. -/
def exportItem (setting : Setting) (db : Db) (rows : List (Source × String))
    (keys : List (Id × String)) (pair : Id × String) : Option ExportedItem :=
  let versions := versionsFor setting db keys pair
  if versions.isEmpty then none
  else
    (rows.reverse.find? fun row => decide (row.1.id = pair.1)).map fun row =>
      { source := row.1.name
        sourceKind := sourceKindName row.1.kind
        externalKey := pair.2
        versions := versions
        tags := (forItems setting db keys pair).map (display setting) }

/-- `items`. -/
def items (setting : Setting) (db : Db) (batch : Nat) (source : Option String) :
    Except ExportError (List ExportedItem) :=
  (resolveSource db source).map fun sourceId =>
    let rows := keyRows setting db sourceId
    (batches batch (rows.map fun row => (row.1.id, row.2))).flatMap fun keys =>
      keys.filterMap (exportItem setting db rows keys)

-- ======= rendering

/-- The header of an export. -/
def header (now : Text) (source : Option String) : Json :=
  .obj [("format".toList, .str "memoryos-export".toList),
    ("format_version".toList, .num formatVersion),
    ("exported_at".toList, .str now),
    ("source".toList, textOrNull (source.map String.toList)),
    ("includes_version_history".toList, .bool true)]

/-- The pieces of the items. -/
def itemPieces : Bool → List ExportedItem → List Text
  | _, [] => []
  | first, item :: rest =>
    ((if first then [] else ",\n".toList) ++ Json.dumps item.asDict)
      :: itemPieces false rest

/-- `to_json`. The source is resolved when the items are first asked for. -/
def toJson (setting : Setting) (now : Text) (db : Db) (batch : Nat)
    (source : Option String) : Except ExportError (List Text) :=
  (items setting db batch source).map fun found =>
    ["\x7b\n".toList,
      "\"meta\": ".toList ++ Json.dumps (header now source) ++ ",\n".toList,
      "\"items\": [\n".toList]
    ++ itemPieces true found
    ++ ["\n]\n\x7d\n".toList]

end MemoryOS.Export
