/-
Rebuilding the corpus from the log (`application/replay.py`: the scope,
`_preflight_blobs`, `_clear`, `_rebuild` and the downstream stages), and the
evidence that is kept across it (`_preserve_evidence`, `_restore_evidence`, and
the `try` of `__call__` around the rebuild).

Every transaction of a replay stands once it has committed, so a replay
that raises leaves what it had done: the functions here return the
database they got to together with the failure, if there was one. The
graph, which a complete replay clears and projects again, is not part of
the database.

The links of the evidence are read out by natural key and deleted before the
attempt, and written back after it, whether it succeeded or raised.
-/
import MemoryOS.Corpus.Deletion
import MemoryOS.Pipeline.Normalize

namespace MemoryOS

/-- `ReplayStage`: how far upstream to start over. -/
inductive ReplayStage
  | all | normalize | embed
deriving DecidableEq, Repr

/-- `ReplayScope`: which events to replay, and from which stage. -/
structure ReplayScope where
  sourceName : Option String := none
  afterSeq : Nat := 0
  stage : ReplayStage := .all
deriving DecidableEq, Repr

/-- `rebuilds_memories`. -/
def ReplayScope.rebuildsMemories (scope : ReplayScope) : Bool :=
  decide (scope.stage = .all)

/-- `rechunks`. -/
def ReplayScope.rechunks (scope : ReplayScope) : Bool :=
  decide (scope.stage = .all) || decide (scope.stage = .normalize)

namespace ReplayCorpus

/-- `_resolve_source`. -/
def resolveSource (db : Db) (name : Option String) :
    Except Failure (Option Id) :=
  match name with
  | none => .ok none
  | some n =>
    match db.sources.filter fun s => decide (s.name = n) with
    | [] => .error .notFound
    | [s] => .ok (some s.id)
    -- `scalar_one_or_none` refuses two rows
    | _ :: _ :: _ => .error .refused

-- ========= reading

/-- Whether an event is within a scope. -/
def inScope (scope : ReplayScope) (sourceId : Option Id) (e : IngestionEvent) :
    Bool :=
  decide (scope.afterSeq < e.seq)
    && (sourceId.map fun s => decide (e.sourceId = s)).getD true

/-- `_stream_events`: the log within the scope, in `seq` order. -/
def streamEvents (db : Db) (scope : ReplayScope) (sourceId : Option Id) :
    List IngestionEvent :=
  db.events.filter (inScope scope sourceId)

/-- `_purged_keys`: every item a purge event names, within the scope. -/
def purgedKeys (db : Db) (scope : ReplayScope) (sourceId : Option Id) :
    List Item :=
  ((streamEvents db scope sourceId).filter fun e =>
    decide (e.eventType = .itemPurged)).map (·.item)

/-- `_preflight_blobs`: whether the bytes the scope will ask for are
there. -/
def preflightBlobs (blobs : Blobs) (db : Db) (scope : ReplayScope)
    (sourceId : Option Id) : Bool :=
  (streamEvents db scope sourceId).all fun e =>
    decide (e.item ∈ purgedKeys db scope sourceId) ||
      match e.contentHash with
      | none => true
      | some hash => blobs.holds hash

-- ======== clearing

/-- `_memories_of`. -/
def memoriesOf (sourceId : Option Id) (m : Memory) : Bool :=
  (sourceId.map fun s => decide (m.sourceId = s)).getD true

/-- `_reprocessed`: the memories a downstream stage will reprocess. -/
def reprocessed (sourceId : Option Id) (m : Memory) : Bool :=
  m.isCurrent && m.deletedAt.isNone && memoriesOf sourceId m

/-- `_chunks_of_reprocessed`. -/
def chunkOfReprocessed (db : Db) (sourceId : Option Id) (c : MemoryChunk) :
    Bool :=
  db.memories.any fun m => decide (m.id = c.memoryId) && reprocessed sourceId m

/-- `truncate_derived`, with what `CASCADE` takes. -/
def truncateDerived (clearCache : Bool) (db : Db) : Db :=
  { db with
    relationships := []
    merges := []
    mentions := []
    entities := []
    chunks := []
    memories := []
    embeddingCache := if clearCache then [] else db.embeddingCache
    jobs := []
    evidence := [] }

/-- The columns `--stage embed` clears. -/
def withoutVector (c : MemoryChunk) : MemoryChunk :=
  { c with embedding := none, embeddingModel := none, embeddedAt := none }

/-- Delete the jobs whose payload names a memory of the scope. -/
def deleteJobs (sourceId : Option Id) (db : Db) : Db :=
  { db with jobs := db.jobs.filter fun j =>
      match j.payload.memoryId with
      | none => true
      | some id => !db.memories.any fun m =>
        decide (m.id = id) && memoriesOf sourceId m }

/-- `_clear`. -/
def clear (scope : ReplayScope) (sourceId : Option Id) (clearCache : Bool)
    (db : Db) : Db :=
  if scope.stage = .all ∧ sourceId = none then truncateDerived clearCache db
  else
    let inChunks := chunkOfReprocessed db sourceId
    let db₁ := if scope.rechunks then deleteJobs sourceId db else db
    let db₂ :=
      match scope.stage with
      | .embed =>
        { db₁ with chunks := db₁.chunks.map fun c =>
            if inChunks c then withoutVector c else c }
      | .normalize => db₁.deleteChunks inChunks
      | .all => (db₁.deleteChunks inChunks).deleteMemories (memoriesOf sourceId)
    if clearCache then { db₂ with embeddingCache := [] } else db₂

-- ====== rebuilding

/-- What a replay got to, and what it raised. -/
abbrev Progress := Db × Option Failure

/-- Carry on, unless something was raised. -/
def Progress.andThen (p : Progress) (f : Db → Progress) : Progress :=
  match p.2 with
  | none => f p.1
  | some _ => p

theorem Progress.andThen_eq_none {p : Progress} {f : Db → Progress}
    {db' : Db} : p.andThen f = (db', none)
      ↔ ∃ db, p = (db, none) ∧ f db = (db', none) := by
  obtain ⟨db, e⟩ := p
  cases e with
  | none => simp [andThen]
  | some e => simp [andThen]

/-- Do `f` for each, until something is raised. -/
def forEach {α : Type} (f : Db → α → Progress) (db : Db) :
    List α → Progress
  | [] => (db, none)
  | x :: rest => (f db x).andThen fun db' => forEach f db' rest

theorem forEach_cons {α : Type} {f : Db → α → Progress} {db db₁ : Db} {x : α}
    {rest : List α} (h : f db x = (db₁, none)) :
    forEach f db (x :: rest) = forEach f db₁ rest := by
  show (f db x).andThen _ = _
  rw [h]
  rfl

theorem forEach_head {α : Type} {f : Db → α → Progress} {db : Db} {x : α}
    {rest : List α} (h : (forEach f db (x :: rest)).2 = none) :
    (f db x).2 = none := by
  unfold forEach Progress.andThen at h
  cases heq : (f db x).2 with
  | none => rfl
  | some e =>
    simp only [heq] at h
    cases h

theorem forEach_cons_inv {α : Type} {f : Db → α → Progress} {db db' : Db}
    {x : α} {rest : List α} (h : forEach f db (x :: rest) = (db', none)) :
    ∃ db₁, f db x = (db₁, none) ∧ forEach f db₁ rest = (db', none) := by
  have hfirst : f db x = ((f db x).1, none) :=
    Prod.ext rfl (forEach_head (congrArg Prod.snd h))
  exact ⟨(f db x).1, hfirst, (forEach_cons hfirst).symm.trans h⟩

/-- `_normalize_one`. -/
def normalizeOne (ports : Ports) (blobs : Blobs) (now : Timestamp) (db : Db)
    (memoryId : Id) : Progress :=
  match NormalizeMemory.call ports false blobs db memoryId now with
  | .error e => (db, some e)
  | .ok r => (r.1, none)

/-- `_embed_one`. -/
def embedOne (ports : Ports) (now : Timestamp) (db : Db) (memoryId : Id) :
    Progress :=
  match EmbedMemory.call ports.embedder false db memoryId now with
  | .error e => (db, some e)
  | .ok r => (r.1, none)

/-- One event of `_rebuild`. -/
def rebuildEvent (ports : Ports) (blobs : Blobs) (purged : List Item)
    (now : Timestamp) (db : Db) (e : IngestionEvent) : Progress :=
  if e.item ∈ purged then (db, none)
  else
    match e.eventType with
    | .artifactObserved =>
      match memoryFromEvent e db.nextId with
      | none => (db, some .refused)
      | some memory =>
        let db₁ := addVersion { db with nextId := db.nextId + 1 } memory
        (normalizeOne ports blobs now db₁ memory.id).andThen fun db₂ =>
          embedOne ports now db₂ memory.id
    | .itemDeleted =>
      match currentRow db e.sourceId e.externalKey with
      -- reachable when the scope starts partway through the log
      | none => (db, none)
      | some current => (tombstoneRow db current.id e.recordedAt, none)
    | .itemPurged => (db, none)

/-- `_rebuild`: apply each event, then run the pipeline for what it
produced. -/
def rebuild (ports : Ports) (blobs : Blobs) (scope : ReplayScope)
    (sourceId : Option Id) (now : Timestamp) (db : Db) : Progress :=
  forEach (rebuildEvent ports blobs (purgedKeys db scope sourceId) now) db
    (streamEvents db scope sourceId)

/-- `_targets`: current, undeleted memories, by key. -/
def targets (db : Db) (sourceId : Option Id) : List Id :=
  ((db.memories.filter (reprocessed sourceId)).mergeSort fun a b =>
    decide (a.externalKey ≤ b.externalKey)).map (·.id)

/-- `_normalize`. -/
def normalizeAll (ports : Ports) (blobs : Blobs) (sourceId : Option Id)
    (now : Timestamp) (db : Db) : Progress :=
  forEach (normalizeOne ports blobs now) db (targets db sourceId)

/-- `_embed`. -/
def embedAll (ports : Ports) (sourceId : Option Id) (now : Timestamp)
    (db : Db) : Progress :=
  forEach (embedOne ports now) db (targets db sourceId)

/-- What follows `_clear`. -/
def rewrite (ports : Ports) (blobs : Blobs) (scope : ReplayScope)
    (sourceId : Option Id) (now : Timestamp) (db : Db) : Progress :=
  if scope.rebuildsMemories then rebuild ports blobs scope sourceId now db
  else
    (if scope.rechunks then normalizeAll ports blobs sourceId now db
      else (db, none)).andThen (embedAll ports sourceId now)

/-- `_in_place`. -/
def inPlace (ports : Ports) (blobs : Blobs) (scope : ReplayScope)
    (clearCache : Bool) (now : Timestamp) (db : Db) : Progress :=
  match resolveSource db scope.sourceName with
  | .error e => (db, some e)
  | .ok sourceId =>
    if scope.rebuildsMemories && !preflightBlobs blobs db scope sourceId then
      (db, some .missingBlob)
    else
      rewrite ports blobs scope sourceId now
        (clear scope sourceId clearCache db)

end ReplayCorpus

end MemoryOS

namespace MemoryOS

/-- `EvidenceLink`: one evidence row, as its durable identity rather than
its ids. -/
structure EvidenceLink where
  table : EvidenceTable
  owner : Id
  sourceName : String
  externalKey : String
  chunkOrdinal : Option Nat
  columns : EvidenceColumns
deriving DecidableEq, Repr

namespace ReplayCorpus

/-- `EVIDENCE_TABLES`. -/
def evidenceTables : List EvidenceTable :=
  [.decisionEvidence, .outcomeEvidence, .assumptionEvidence]

/-- The snapshot of one row. -/
def evidenceLink (row : EvidenceRow) : EvidenceLink where
  table := row.table
  owner := row.owner
  sourceName := row.sourceName
  externalKey := row.externalKey
  chunkOrdinal := row.chunkOrdinal
  columns := row.columns

/-- `_preserve_evidence`: read every evidence table out by natural key,
then empty them. -/
def preserveEvidence (db : Db) : Db × List EvidenceLink :=
  ({ db with evidence := [] },
    evidenceTables.flatMap fun table =>
      (db.evidence.filter fun row => decide (row.table = table)).map evidenceLink)

/-- A row of `memories` joined to its source's name, `is_current` and not
deleted: what the dictionary `memories` is built from. -/
def linkable (db : Db) (sourceName externalKey : String) (m : Memory) : Bool :=
  m.isCurrent && m.deletedAt.isNone && decide (m.externalKey = externalKey)
    && db.sources.any fun s =>
      decide (s.id = m.sourceId) && decide (s.name = sourceName)

/-- `memories.get((source_name, external_key))`: a later row replaces an
earlier one of the same key. -/
def memoryOf (db : Db) (sourceName externalKey : String) : Option Id :=
  ((db.memories.filter (linkable db sourceName externalKey)).getLast?).map
    (·.id)

/-- `chunks.get((memory_id, ordinal))`. -/
def chunkOf (db : Db) (memoryId : Id) (ordinal : Nat) : Option Id :=
  ((db.chunks.filter fun k =>
    decide (k.memoryId = memoryId) && decide (k.ordinal = ordinal)).getLast?).map
    (·.id)

/-- The memory and chunk a link is written back to, or `none` when it is
dropped. -/
def relink (db : Db) (link : EvidenceLink) : Option (Id × Option Id) :=
  match memoryOf db link.sourceName link.externalKey with
  | none => none
  | some memoryId =>
    match link.chunkOrdinal with
    | none => some (memoryId, none)
    | some ordinal =>
      match chunkOf db memoryId ordinal with
      | none => none
      | some chunkId => some (memoryId, some chunkId)

/-- The key of `uq_decision_evidence_link`, `uq_outcome_evidence_link` and
`uq_assumption_evidence_link`: nulls are not distinct, and only a
decision's evidence has the relation in its key. -/
def uniqueKey (row : EvidenceRow) :
    EvidenceTable × Id × Id × Option Id × Option EvidenceRelation :=
  (row.table, row.owner, row.memoryId, row.chunkId,
    match row.columns with
    | .decision relation _ => some relation
    | .snapshot _ _ => none)

/-- The loop of `_restore_evidence`, one insert a link. -/
def restoreLoop (db : Db) : List EvidenceLink → Nat → Except Failure (Db × Nat)
  | [], restored => .ok (db, restored)
  | link :: rest, restored =>
    match relink db link with
    | none => restoreLoop db rest restored
    | some (memoryId, chunkId) =>
      let row : EvidenceRow := {
        id := db.nextId
        table := link.table
        owner := link.owner
        memoryId := memoryId
        chunkId := chunkId
        sourceName := link.sourceName
        externalKey := link.externalKey
        chunkOrdinal := link.chunkOrdinal
        columns := link.columns }
      if db.evidence.any fun r => decide (uniqueKey r = uniqueKey row) then
        .error .uniqueViolation
      else
        restoreLoop { db with
          evidence := db.evidence ++ [row], nextId := db.nextId + 1 }
          rest (restored + 1)

/-- `_restore_evidence`: re-link to the corpus as it now is, by natural
key, in one transaction. -/
def restoreEvidence (db : Db) (preserved : List EvidenceLink) :
    Except Failure (Db × Nat) :=
  restoreLoop db preserved 0

/-- `__call__` around `attempt`, the rebuild and the swap: what the
database is afterwards and the error raised, if one is. An attempt that
raises before the swap has not touched the live tables. -/
def call (attempt : Db → Except Failure Db) (db : Db) : Db × Option Failure :=
  let r := preserveEvidence db
  match attempt r.1 with
  | .error raised =>
    match restoreEvidence r.1 r.2 with
    | .ok restored => (restored.1, some raised)
    -- the restore's own transaction rolls back, and its error is raised
    | .error raised' => (r.1, some raised')
  | .ok rebuilt =>
    match restoreEvidence rebuilt r.2 with
    | .ok restored => (restored.1, none)
    | .error raised' => (rebuilt, some raised')

end ReplayCorpus

end MemoryOS
