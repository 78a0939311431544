/-
The confirmation of a purge (`application/deletion.py`, `scope_of`), and the
report of what it took (`purge`).

A preview's line is left out: nothing that is counted reads it.
-/
import MemoryOS.Corpus.Deletion

namespace MemoryOS

/-- The item a tag is on. -/
def MemoryTag.item (t : MemoryTag) : Item := ⟨t.sourceId, t.externalKey⟩

namespace Deletion

/-- `PurgeScope`, less the items and their previews. -/
structure PurgeScope where
  memories : Nat := 0
  chunks : Nat := 0
  embeddedChunks : Nat := 0
  mentions : Nat := 0
  orphanedEntities : Nat := 0
  tags : Nat := 0
  turns : Nat := 0
  attachments : Nat := 0
  evidence : Nat := 0
  blobs : Nat := 0
  sharedBlobs : Nat := 0
deriving DecidableEq, Repr

/-- `PurgeReport`. -/
structure PurgeReport where
  items : Nat := 0
  memories : Nat := 0
  chunks : Nat := 0
  mentions : Nat := 0
  tags : Nat := 0
  turns : Nat := 0
  blobsShredded : Nat := 0
  blobsSurviving : List ContentHash := []
  eventsAppended : Nat := 0
deriving DecidableEq, Repr

-- ======= the scope

/-- `_versions_of`: one query for all the items, a tuple `IN`. -/
def versionsOfAll (db : Db) (items : List Item) : List Memory :=
  db.memories.filter fun m => decide (m.item ∈ items)

/-- `_entities_left_unmentioned`. -/
def entitiesLeftUnmentioned (db : Db) (memoryIds : List Id) : Nat :=
  (((db.mentions.filter fun m => decide (m.memoryId ∈ memoryIds)).map
    (·.entityId)).eraseDups.filter fun e => !db.mentions.any fun m =>
      decide (m.entityId = e) && decide (m.memoryId ∉ memoryIds)).length

/-- Whether an artifact is shared: a version that stays has it, or an
attachment of any turn. -/
def isShared (db : Db) (doomed : List Id) (hash : ContentHash) : Bool :=
  db.memories.any (fun m =>
      decide (m.contentHash = hash) && decide (m.id ∉ doomed))
    || db.chatAttachments.any fun a => decide (a.contentHash = hash)

/-- `_blob_split`. -/
def blobSplit (db : Db) (hashes : List ContentHash) (doomed : List Id) :
    List ContentHash × List ContentHash :=
  (hashes.eraseDups.filter fun h => !isShared db doomed h,
    hashes.eraseDups.filter fun h => isShared db doomed h)

/-- `scope_of`: count what purging these items would remove. The tags are
counted by their keys and their sources separately. -/
def scopeOf (db : Db) (items : List Item) : PurgeScope :=
  if items.isEmpty then {}
  else
    let versions := versionsOfAll db items
    let memoryIds : List Id := versions.map fun m => m.id
    let keys := items.map (·.externalKey)
    let chunks := db.chunks.filter fun c => decide (c.memoryId ∈ memoryIds)
    let turnIds := (db.chatMessages.filter fun m =>
      m.externalKey.any fun k => decide (k ∈ keys)).map (·.id)
    let split := blobSplit db (versions.map (·.contentHash)) memoryIds
    { memories := memoryIds.length
      chunks := chunks.length
      embeddedChunks := (chunks.filter fun c => c.embedding.isSome).length
      mentions := (db.mentions.filter fun m =>
        decide (m.memoryId ∈ memoryIds)).length
      orphanedEntities := entitiesLeftUnmentioned db memoryIds
      tags := (db.tags.filter fun t => decide (t.externalKey ∈ keys)
        && decide (t.sourceId ∈ items.map (·.sourceId))).length
      turns := turnIds.length
      attachments := (db.chatAttachments.filter fun a =>
        decide (a.messageId ∈ turnIds)).length
      evidence := (db.evidence.filter fun e =>
        decide (e.memoryId ∈ memoryIds)).length
      blobs := split.1.length
      sharedBlobs := split.2.length }

-- ====== the report

/-- What `_purge_one` counts, added to the report. -/
def counted (db : Db) (item : Item) (report : PurgeReport) : PurgeReport :=
  let memoryIds : List Id := (versionsOf db item).map fun m => m.id
  { report with
    items := report.items + 1
    memories := report.memories + memoryIds.length
    chunks := report.chunks + (db.chunks.filter fun c =>
      decide (c.memoryId ∈ memoryIds)).length
    mentions := report.mentions + (db.mentions.filter fun m =>
      decide (m.memoryId ∈ memoryIds)).length
    tags := report.tags + (db.tags.filter fun t =>
      decide (t.item = item)).length
    turns := report.turns + (db.chatMessages.filter fun m =>
      decide (m.externalKey = some item.externalKey)).length
    eventsAppended := report.eventsAppended + 1 }

/-- The report after the loop of `purge`. -/
def reportLoop : PurgeReport → Db → List (Item × Timestamp) → PurgeReport
  | report, _, [] => report
  | report, db, (item, now) :: rest =>
    match purgeOne db item now with
    | .error _ => report
    | .ok (db₁, _) => reportLoop (counted db item report) db₁ rest

/-- The report `purge` returns: none when an item is missing, or when bytes
survive. -/
def purgeReport (raises : ContentHash → Bool) (s : Store)
    (items : List (Item × Timestamp)) : Option PurgeReport :=
  let r := purgeLoop s.db items
  if r.2.2 then
    let due := r.2.1.eraseDups.filter fun h => !stillReferenced r.1 h
    if (due.filter raises).isEmpty then
      some { reportLoop {} s.db items with blobsShredded := due.length }
    else none
  else none

end Deletion

end MemoryOS
