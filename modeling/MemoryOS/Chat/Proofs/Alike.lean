/-
Two databases that differ in what one item's text put into them.

The item's hashes and texts are blanked, and what is derived from them is
dropped; everything else is equal (`Alike`). What the chat reads of a
database is the same of both.
-/
import MemoryOS.Chat.Turns
import MemoryOS.Corpus.Deletion

namespace MemoryOS

-- ====== what a version owns

/-- The tables that cascade from a memory. -/
structure Rows where
  chunks : List MemoryChunk
  mentions : List EntityMention
  relationships : List EntityRelationship
  evidence : List EvidenceRow

/-- The rows that cascade. -/
def Db.rows (db : Db) : Rows :=
  ⟨db.chunks, db.mentions, db.relationships, db.evidence⟩

namespace Rows

/-- The chunks of some memories. -/
def chunksOf (r : Rows) (ids : List Id) : List Id :=
  (r.chunks.filter fun c => decide (c.memoryId ∈ ids)).map (·.id)

/-- What is left when some memories are deleted. -/
def drop (r : Rows) (ids : List Id) : Rows where
  chunks := r.chunks.filter fun c => decide (c.memoryId ∉ ids)
  mentions := r.mentions.filter fun m =>
    decide (m.chunkId ∉ r.chunksOf ids ∧ m.memoryId ∉ ids)
  relationships := r.relationships.filter fun x =>
    decide (x.chunkId ∉ r.chunksOf ids ∧ x.memoryId ∉ ids)
  evidence := r.evidence.filter fun e =>
    decide ((∀ c ∈ e.chunkId, c ∉ r.chunksOf ids) ∧ e.memoryId ∉ ids)

theorem not_mem_chunksOf_append {r : Rows} {a b : List Id} {c : Id} :
    c ∉ r.chunksOf (a ++ b) ↔ c ∉ r.chunksOf a ∧ c ∉ (r.drop a).chunksOf b := by
  unfold chunksOf drop
  rw [← not_or, not_iff_not]
  simp only [List.mem_map, List.mem_filter, decide_eq_true_eq, List.mem_append]
  constructor
  · rintro ⟨x, ⟨hx, hor⟩, rfl⟩
    by_cases ha : x.memoryId ∈ a
    · exact .inl ⟨x, ⟨hx, ha⟩, rfl⟩
    · exact .inr ⟨x, ⟨⟨hx, ha⟩, hor.resolve_left ha⟩, rfl⟩
  · rintro (⟨x, ⟨hx, ha⟩, rfl⟩ | ⟨x, ⟨⟨hx, -⟩, hb⟩, rfl⟩)
    · exact ⟨x, ⟨hx, .inl ha⟩, rfl⟩
    · exact ⟨x, ⟨hx, .inr hb⟩, rfl⟩

theorem drop_append (r : Rows) (a b : List Id) :
    r.drop (a ++ b) = (r.drop a).drop b := by
  have hids : ∀ x : Id, x ∉ a ++ b ↔ x ∉ a ∧ x ∉ b := fun x => by
    rw [List.mem_append, not_or]
  have hsplit : ∀ (l : List MemoryChunk), (l.filter fun c =>
      decide (c.memoryId ∉ a ++ b)) = (l.filter fun c =>
        decide (c.memoryId ∉ a)).filter fun c => decide (c.memoryId ∉ b) := by
    intro l
    rw [List.filter_filter]
    refine List.filter_congr fun c _ => ?_
    rw [← Bool.decide_and, decide_eq_decide, hids, and_comm]
  have hrows : ∀ (c m : Id), c ∉ r.chunksOf (a ++ b) ∧ m ∉ a ++ b
      ↔ (c ∉ (r.drop a).chunksOf b ∧ m ∉ b) ∧ c ∉ r.chunksOf a ∧ m ∉ a := by
    intro c m
    rw [hids, not_mem_chunksOf_append]
    tauto
  show Rows.mk _ _ _ _ = Rows.mk _ _ _ _
  rw [Rows.mk.injEq]
  refine ⟨hsplit r.chunks, ?_, ?_, ?_⟩
  · refine Eq.trans ?_ List.filter_filter.symm
    refine List.filter_congr fun x _ => ?_
    rw [← Bool.decide_and, decide_eq_decide]
    exact hrows x.chunkId x.memoryId
  · refine Eq.trans ?_ List.filter_filter.symm
    refine List.filter_congr fun x _ => ?_
    rw [← Bool.decide_and, decide_eq_decide]
    exact hrows x.chunkId x.memoryId
  · refine Eq.trans ?_ List.filter_filter.symm
    refine List.filter_congr fun e _ => ?_
    rw [← Bool.decide_and, decide_eq_decide]
    cases e.chunkId with
    | none => simp only [Option.not_mem_none, hids]; tauto
    | some c =>
      simp only [Option.mem_some_iff, forall_eq']
      exact hrows c e.memoryId

end Rows

theorem rows_deleteMemories (db : Db) (p : Memory → Bool) :
    (db.deleteMemories p).rows
      = db.rows.drop ((db.memories.filter p).map (·.id)) := by
  show Rows.mk _ _ _ _ = Rows.mk _ _ _ _
  rw [Rows.mk.injEq]
  refine ⟨?_, ?_, ?_, ?_⟩
  · exact List.filter_congr fun c _ => (decide_not).symm
  · refine List.filter_filter.trans (List.filter_congr fun x _ => ?_)
    rw [← Bool.decide_and, decide_eq_decide, and_comm]
    exact Iff.rfl
  · refine List.filter_filter.trans (List.filter_congr fun x _ => ?_)
    rw [← Bool.decide_and, decide_eq_decide, and_comm]
    exact Iff.rfl
  · refine List.filter_filter.trans (List.filter_congr fun e _ => ?_)
    cases hc : e.chunkId with
    | none => simp
    | some c =>
      simp only [Option.mem_some_iff, forall_eq', Bool.decide_and]
      rw [Bool.and_comm]
      rfl

namespace Chat

-- ====== statement vocabulary

/-- A version, without the item's text. -/
def blankMemory (i : Item) (m : Memory) : Memory :=
  if m.item = i then
    { m with
      contentHash := "", normalizedHash := none, title := none
      content := none, parsed := none
      entityExtractorVersion := none, relationshipExtractorVersion := none }
  else m

/-- An event, without the hash of the item's text. -/
def blankEvent (i : Item) (e : IngestionEvent) : IngestionEvent :=
  if e.item = i then { e with contentHash := e.contentHash.map fun _ => "" }
  else e

/-- A turn, without the item's text. -/
def blankTurn (i : Item) (m : ChatMessage) : ChatMessage :=
  if m.externalKey = some i.externalKey then { m with content := [] } else m

/-- The versions of an item. -/
def versionIds (i : Item) (db : Db) : List Id :=
  (Deletion.versionsOf db i).map (·.id)

/-- The turns of an item. -/
def turnIds (i : Item) (db : Db) : List Id :=
  (db.chatMessages.filter fun m =>
    decide (m.externalKey = some i.externalKey)).map (·.id)

/-- Two databases that differ in what one item's text put into them. -/
structure Alike (i : Item) (s t : Db) : Prop where
  sources : s.sources = t.sources
  events : s.events.map (blankEvent i) = t.events.map (blankEvent i)
  memories : s.memories.map (blankMemory i) = t.memories.map (blankMemory i)
  rows : s.rows.drop (versionIds i s) = t.rows.drop (versionIds i t)
  entities : s.entities = t.entities
  merges : s.merges = t.merges
  cache : s.embeddingCache = t.embeddingCache
  tags : s.tags = t.tags
  sessions : s.chatSessions = t.chatSessions
  turns : s.chatMessages.map (blankTurn i) = t.chatMessages.map (blankTurn i)
  attachments :
    (s.chatAttachments.filter fun a => decide (a.messageId ∉ turnIds i s))
      = t.chatAttachments.filter fun a => decide (a.messageId ∉ turnIds i t)
  jobs : s.jobs = t.jobs
  nextId : s.nextId = t.nextId
  nextSeq : s.nextSeq = t.nextSeq

/-- The foreign key of a memory's content. -/
def Referenced (db : Db) : Prop :=
  ∀ m ∈ db.memories, artifactKnown db m.contentHash = true

/-- Two items as they are observed: the same but for the text, and the same
unless it is the item's. -/
structure SameItem (i : Item) (sourceId : Id) (a b : ObservedItem) : Prop where
  key : a.externalKey = b.externalKey
  mediaType : a.mediaType = b.mediaType
  occurredAt : a.occurredAt = b.occurredAt
  occurredAtSource : a.occurredAtSource = b.occurredAtSource
  other : (⟨sourceId, a.externalKey⟩ : Item) ≠ i → a = b

variable {i : Item} {s t : Db}

-- ======== blanking

@[simp] theorem blankMemory_id (m : Memory) : (blankMemory i m).id = m.id := by
  unfold blankMemory
  split <;> rfl

@[simp] theorem blankMemory_item (m : Memory) :
    (blankMemory i m).item = m.item := by
  unfold blankMemory
  split <;> rfl

@[simp] theorem blankMemory_version (m : Memory) :
    (blankMemory i m).version = m.version := by
  unfold blankMemory
  split <;> rfl

@[simp] theorem blankMemory_isCurrentOf (sourceId : Id) (key : String)
    (m : Memory) :
    isCurrentOf sourceId key (blankMemory i m)
      = isCurrentOf sourceId key m := by
  unfold blankMemory
  split <;> rfl

theorem blankMemory_of_ne {m : Memory} (h : m.item ≠ i) :
    blankMemory i m = m := if_neg h

@[simp] theorem blankTurn_id (m : ChatMessage) : (blankTurn i m).id = m.id := by
  unfold blankTurn
  split <;> rfl

@[simp] theorem blankTurn_externalKey (m : ChatMessage) :
    (blankTurn i m).externalKey = m.externalKey := by
  unfold blankTurn
  split <;> rfl

@[simp] theorem blankTurn_sessionId (m : ChatMessage) :
    (blankTurn i m).sessionId = m.sessionId := by
  unfold blankTurn
  split <;> rfl

@[simp] theorem blankTurn_ordinal (m : ChatMessage) :
    (blankTurn i m).ordinal = m.ordinal := by
  unfold blankTurn
  split <;> rfl

@[simp] theorem blankTurn_createdAt (m : ChatMessage) :
    (blankTurn i m).createdAt = m.createdAt := by
  unfold blankTurn
  split <;> rfl

@[simp] theorem blankTurn_role (m : ChatMessage) :
    (blankTurn i m).role = m.role := by
  unfold blankTurn
  split <;> rfl

@[simp] theorem blankTurn_intent (m : ChatMessage) :
    (blankTurn i m).intent = m.intent := by
  unfold blankTurn
  split <;> rfl

theorem blankTurn_of_ne {m : ChatMessage}
    (h : m.externalKey ≠ some i.externalKey) : blankTurn i m = m := if_neg h

-- ====== the relation

theorem Alike.refl (s : Db) : Alike i s s := by
  constructor <;> rfl

theorem Alike.symm (h : Alike i s t) : Alike i t s where
  sources := h.sources.symm
  events := h.events.symm
  memories := h.memories.symm
  rows := h.rows.symm
  entities := h.entities.symm
  merges := h.merges.symm
  cache := h.cache.symm
  tags := h.tags.symm
  sessions := h.sessions.symm
  turns := h.turns.symm
  attachments := h.attachments.symm
  jobs := h.jobs.symm
  nextId := h.nextId.symm
  nextSeq := h.nextSeq.symm

theorem Alike.trans {u : Db} (h : Alike i s t) (h' : Alike i t u) :
    Alike i s u where
  sources := h.sources.trans h'.sources
  events := h.events.trans h'.events
  memories := h.memories.trans h'.memories
  rows := h.rows.trans h'.rows
  entities := h.entities.trans h'.entities
  merges := h.merges.trans h'.merges
  cache := h.cache.trans h'.cache
  tags := h.tags.trans h'.tags
  sessions := h.sessions.trans h'.sessions
  turns := h.turns.trans h'.turns
  attachments := h.attachments.trans h'.attachments
  jobs := h.jobs.trans h'.jobs
  nextId := h.nextId.trans h'.nextId
  nextSeq := h.nextSeq.trans h'.nextSeq

theorem versionIds_eq (db : Db) : versionIds i db
    = ((db.memories.map (blankMemory i)).filter fun m =>
      decide (m.item = i)).map (·.id) := by
  unfold versionIds Deletion.versionsOf
  rw [List.filter_map, List.map_map]
  refine congrArg₂ List.map (funext fun m => (blankMemory_id m).symm) ?_
  exact List.filter_congr fun m _ => by simp

theorem turnIds_eq (db : Db) : turnIds i db
    = ((db.chatMessages.map (blankTurn i)).filter fun m =>
      decide (m.externalKey = some i.externalKey)).map (·.id) := by
  unfold turnIds
  rw [List.filter_map, List.map_map]
  refine congrArg₂ List.map (funext fun m => (blankTurn_id m).symm) ?_
  exact List.filter_congr fun m _ => by simp

theorem Alike.versionIds (h : Alike i s t) :
    Chat.versionIds i s = Chat.versionIds i t := by
  rw [versionIds_eq, versionIds_eq, h.memories]

theorem Alike.turnIds (h : Alike i s t) :
    Chat.turnIds i s = Chat.turnIds i t := by
  rw [turnIds_eq, turnIds_eq, h.turns]

theorem messageOf_blank (db : Db) (id : Id) :
    (messageOf db id).map (blankTurn i)
      = (db.chatMessages.map (blankTurn i)).find?
        fun m => decide (m.id = id) := by
  unfold messageOf
  rw [List.find?_map]
  refine congrArg (Option.map _) (congrArg (List.find? · _) ?_)
  exact funext fun m => by simp

theorem Alike.messageOf (h : Alike i s t) (id : Id) :
    (Chat.messageOf s id).map (blankTurn i)
      = (Chat.messageOf t id).map (blankTurn i) := by
  rw [messageOf_blank, messageOf_blank, h.turns]

theorem currentRow_blank (db : Db) (sourceId : Id) (key : String) :
    (currentRow db sourceId key).map (blankMemory i)
      = (db.memories.map (blankMemory i)).find? (isCurrentOf sourceId key) := by
  unfold currentRow
  rw [List.find?_map]
  refine congrArg (Option.map _) (congrArg (List.find? · _) ?_)
  exact funext fun m => (blankMemory_isCurrentOf sourceId key m).symm

theorem Alike.currentRow (h : Alike i s t) (sourceId : Id) (key : String) :
    (MemoryOS.currentRow s sourceId key).map (blankMemory i)
      = (MemoryOS.currentRow t sourceId key).map (blankMemory i) := by
  rw [currentRow_blank, currentRow_blank, h.memories]

theorem Alike.currentRow_other (h : Alike i s t) {sourceId : Id} {key : String}
    (hne : (⟨sourceId, key⟩ : Item) ≠ i) :
    MemoryOS.currentRow s sourceId key
      = MemoryOS.currentRow t sourceId key := by
  have hblank : ∀ db : Db, (MemoryOS.currentRow db sourceId key).map
      (blankMemory i) = MemoryOS.currentRow db sourceId key := by
    intro db
    cases hrow : MemoryOS.currentRow db sourceId key with
    | none => rfl
    | some m =>
      have hm := List.find?_some hrow
      unfold isCurrentOf at hm
      rw [Bool.and_eq_true, Bool.and_eq_true, decide_eq_true_eq,
        decide_eq_true_eq] at hm
      refine congrArg some (blankMemory_of_ne ?_)
      show (⟨m.sourceId, m.externalKey⟩ : Item) ≠ i
      rw [hm.1.1, hm.1.2]
      exact hne
  rw [← hblank s, ← hblank t, h.currentRow]

end Chat

end MemoryOS
