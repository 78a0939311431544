/-
What each transaction of the chat does to two databases that differ in one
item's text: it fails alike, or leaves two that differ in it still.
-/
import MemoryOS.Chat.Proofs.Alike
import MemoryOS.Lib.Outcome

namespace MemoryOS.Chat

open Lib Uploads

variable {i : Item} {s t : Db}

-- ====== one version

variable {now : Timestamp} {ports : ChatPorts} {item : ObservedItem}
  {stored : List Stored} {db : Db}

theorem Alike.enqueue (h : Alike i s t) (spec : JobSpec) (now : Timestamp) :
    Alike i (s.enqueue spec now) (t.enqueue spec now) :=
  { h with
    jobs := by
      show (Queue.enqueueIn s.jobs spec s.nextId now).1
        = (Queue.enqueueIn t.jobs spec t.nextId now).1
      rw [h.jobs, h.nextId]
    nextId := congrArg (· + 1) h.nextId }

/-- The database after one id was minted. -/
def minted (db : Db) : Db := { db with nextId := db.nextId + 1 }

theorem Alike.minted (h : Alike i s t) :
    Alike i (Chat.minted s) (Chat.minted t) :=
  { h with nextId := congrArg (· + 1) h.nextId }

/-- The rows `add_version` leaves, without the new one. -/
def superseded (current : Option Memory) (m : Memory) : Memory :=
  if current.any fun c => decide (m.id = c.id) then
    { m with isCurrent := false }
  else m

/-- The row `add_version` inserts. -/
def inserted (version : Nat) (m : Memory) : Memory :=
  { m with version := version, isCurrent := true }

theorem addVersion_memories (db : Db) (m : Memory) :
    (addVersion db m).memories
      = db.memories.map
          (superseded (currentRow db m.sourceId m.externalKey))
        ++ [inserted (((currentRow db m.sourceId m.externalKey).map
          fun c => c.version + 1).getD 1) m] := by
  unfold addVersion superseded inserted
  cases currentRow db m.sourceId m.externalKey with
  | none => simp
  | some c => simp

theorem blankMemory_superseded (current : Option Memory) (m : Memory) :
    blankMemory i (superseded current m)
      = superseded (current.map (blankMemory i)) (blankMemory i m) := by
  unfold superseded
  simp only [Option.any_map, blankMemory_id]
  split
  case isTrue =>
    by_cases hi : m.item = i
    · have hi' : ({ m with isCurrent := false } : Memory).item = i := hi
      rw [blankMemory, blankMemory, if_pos hi', if_pos hi]
    · have hi' : ({ m with isCurrent := false } : Memory).item ≠ i := hi
      rw [blankMemory_of_ne hi', blankMemory_of_ne hi]
  case isFalse => rfl

theorem blankMemory_inserted (version : Nat) (m : Memory) :
    blankMemory i (inserted version m)
      = inserted version (blankMemory i m) := by
  by_cases hi : m.item = i
  · have hi' : (inserted version m).item = i := hi
    rw [blankMemory, blankMemory, if_pos hi', if_pos hi]
    rfl
  · have hi' : (inserted version m).item ≠ i := hi
    rw [blankMemory_of_ne hi', blankMemory_of_ne hi]

theorem versionIds_addVersion (db : Db) (m : Memory) :
    versionIds i (addVersion db m)
      = versionIds i db ++ if m.item = i then [m.id] else [] := by
  unfold versionIds Deletion.versionsOf
  rw [addVersion_memories, List.filter_append, List.map_append]
  refine congrArg₂ (· ++ ·) ?_ ?_
  · rw [List.filter_map, List.map_map]
    refine congrArg₂ List.map (funext fun x => ?_)
      (List.filter_congr fun x _ => ?_)
    · unfold superseded
      simp only [Function.comp_apply]
      split <;> rfl
    · unfold superseded
      simp only [Function.comp_apply]
      split <;> rfl
  · by_cases hi : m.item = i
    · have hi' : ∀ v, (inserted v m).item = i := fun _ => hi
      simp only [List.filter_cons, hi', hi, decide_true, if_true]
      rfl
    · have hi' : ∀ v, (inserted v m).item ≠ i := fun _ => hi
      simp only [List.filter_cons, hi', hi, decide_false]
      rfl

theorem Alike.addVersion {m m' : Memory} (h : Alike i s t)
    (hm : blankMemory i m = blankMemory i m') :
    Alike i (MemoryOS.addVersion s m) (MemoryOS.addVersion t m') := by
  have hid : m.id = m'.id := by
    rw [← blankMemory_id (i := i) m, hm, blankMemory_id]
  have hitem : m.item = m'.item := by
    rw [← blankMemory_item (i := i) m, hm, blankMemory_item]
  obtain ⟨hsource, hkey⟩ : m.sourceId = m'.sourceId
      ∧ m.externalKey = m'.externalKey := by
    unfold Memory.item at hitem
    rw [Item.mk.injEq] at hitem
    exact hitem
  have hrow := h.currentRow m.sourceId m.externalKey
  have hmem : (MemoryOS.addVersion s m).memories.map (blankMemory i)
      = (MemoryOS.addVersion t m').memories.map (blankMemory i) := by
    have hversion : ((MemoryOS.currentRow s m.sourceId m.externalKey).map
          fun c => c.version + 1)
        = (MemoryOS.currentRow t m.sourceId m.externalKey).map
          fun c => c.version + 1 := by
      have hmap := congrArg (Option.map fun c : Memory => c.version + 1) hrow
      simpa only [Option.map_map, Function.comp_def, blankMemory_version]
        using hmap
    have hold : ∀ (db : Db) (row : Option Memory),
        (db.memories.map (superseded row)).map (blankMemory i)
          = (db.memories.map (blankMemory i)).map
            (superseded (row.map (blankMemory i))) := by
      intro db row
      rw [List.map_map, List.map_map]
      exact List.map_congr_left fun x _ => blankMemory_superseded row x
    rw [addVersion_memories, addVersion_memories, ← hsource, ← hkey,
      List.map_append, List.map_append, hold, hold, hrow, h.memories, hversion]
    rw [List.map_singleton, List.map_singleton, blankMemory_inserted,
      blankMemory_inserted, hm]
  have hframe : ∀ (db : Db) (x : Memory), MemoryOS.addVersion db x
      = { db with memories := (MemoryOS.addVersion db x).memories } :=
    fun db x => by
      unfold MemoryOS.addVersion
      split <;> rfl
  rw [hframe s m, hframe t m']
  refine { h with memories := hmem, rows := ?_ }
  show s.rows.drop (Chat.versionIds i (MemoryOS.addVersion s m))
    = t.rows.drop (Chat.versionIds i (MemoryOS.addVersion t m'))
  rw [versionIds_addVersion, versionIds_addVersion, Rows.drop_append,
    Rows.drop_append, h.rows, hitem, hid]

theorem memoryFromEvent_blank (e : IngestionEvent) (id : Id) :
    (memoryFromEvent e id).map (blankMemory i)
      = memoryFromEvent (blankEvent i e) id := by
  unfold memoryFromEvent
  by_cases hi : e.item = i
  · rw [blankEvent, if_pos hi, Option.map_map, Option.map_map]
    refine congrArg (Option.map · e.contentHash) (funext fun hash => ?_)
    exact if_pos hi
  · rw [blankEvent, if_neg hi, Option.map_map]
    refine congrArg (Option.map · e.contentHash) (funext fun hash => ?_)
    exact if_neg hi

theorem Alike.recordVersion {sourceId : Id} {a b : ObservedItem}
    (h : Alike i s t) (hab : SameItem i sourceId a b) (now : Timestamp) :
    Alike i (MemoryOS.recordVersion s sourceId a now).1
      (MemoryOS.recordVersion t sourceId b now).1 := by
  have hother : (⟨sourceId, b.externalKey⟩ : Item) ≠ i → a = b := by
    rw [← hab.key]
    exact hab.other
  have hevent : blankEvent i ((observation sourceId a).event s.nextSeq now)
      = blankEvent i ((observation sourceId b).event t.nextSeq now) := by
    by_cases hi : (⟨sourceId, b.externalKey⟩ : Item) = i
    · unfold blankEvent observation EventDraft.event IngestionEvent.item
      simp only [hab.key, hi, if_true, h.nextSeq, hab.occurredAt,
        hab.occurredAtSource, hab.mediaType, Option.map_some]
    · rw [hother hi, h.nextSeq]
  have happend : Alike i (appendEvent s (observation sourceId a) now).1
      (appendEvent t (observation sourceId b) now).1 :=
    { h with
      events := by
        show (s.events ++ [_]).map (blankEvent i)
          = (t.events ++ [_]).map (blankEvent i)
        rw [List.map_append, List.map_append, h.events, List.map_singleton,
          List.map_singleton, hevent]
      nextSeq := congrArg (· + 1) h.nextSeq }
  have hmemory := congrArg (memoryFromEvent · s.nextId) hevent
  simp only [← memoryFromEvent_blank] at hmemory
  unfold MemoryOS.recordVersion
  have hid : (appendEvent s (observation sourceId a) now).1.nextId
      = (appendEvent t (observation sourceId b) now).1.nextId := h.nextId
  simp only [← hid]
  have hleft : memoryFromEvent (appendEvent s (observation sourceId a) now).2
      (appendEvent s (observation sourceId a) now).1.nextId
        = some _ := rfl
  have hright : memoryFromEvent (appendEvent t (observation sourceId b) now).2
      (appendEvent s (observation sourceId a) now).1.nextId
        = some _ := rfl
  rw [hleft, hright]
  refine Alike.enqueue (Alike.enqueue (Alike.addVersion ?_ ?_) _ _) _ _
  · exact { happend with nextId := congrArg (· + 1) rfl }
  · exact Option.some.inj hmemory

-- ====== one stored item

/-- Two stores that differ in what one item's text put into them. -/
structure Same (i : Item) (s t : Store) : Prop where
  alike : Alike i s.db t.db
  left : Referenced s.db
  right : Referenced t.db

/-- The item's bytes can be had. -/
def Readable (s : Store) (item : ObservedItem) : Prop :=
  item.readBytes.isSome = true ∨ s.blobs.holds item.contentHash = true

/-- What storing an item does to the artifacts and the bytes. -/
structure Kept (s s' : Store) (hash : ContentHash) : Prop where
  known : ∀ x, artifactKnown s'.db x
    = (artifactKnown s.db x || decide (hash = x))
  bytes : ∀ x, s.blobs.holds x = true → s'.blobs.holds x = true
  turns : s'.db.chatMessages = s.db.chatMessages

theorem storeArtifact_ok {s : Store}
    (hread : Readable s item) : ∃ s', storeArtifact s item = .ok s'
      ∧ s'.db = { s.db with artifacts := s'.db.artifacts }
      ∧ Kept s s' item.contentHash := by
  unfold storeArtifact
  split
  case isTrue hknown =>
    refine ⟨s, rfl, rfl, fun x => ?_, fun _ h => h, rfl⟩
    by_cases hx : item.contentHash = x
    · rw [← hx, hknown, Bool.true_or]
    · rw [decide_eq_false hx, Bool.or_false]
  case isFalse =>
    have hadded : ∀ x, artifactKnown { s.db with artifacts := s.db.artifacts
        ++ [⟨item.contentHash, item.byteSize, item.mediaType⟩] } x
          = (artifactKnown s.db x || decide (item.contentHash = x)) := by
      intro x
      unfold artifactKnown
      simp only [List.any_append, List.any_cons, List.any_nil, Bool.or_false]
    simp only
    split
    case isTrue => exact ⟨_, rfl, rfl, hadded, fun _ h => h, rfl⟩
    case isFalse hno =>
      rcases hread with hsome | hholds
      · obtain ⟨data, hdata⟩ := Option.isSome_iff_exists.mp hsome
        rw [hdata]
        exact ⟨_, rfl, rfl, hadded,
          fun x hx => Blobs.holds_put.mpr (.inl hx), rfl⟩
      · exact absurd hholds hno

theorem ingestItem_eq {s : Store} {sourceId : Id} {item : ObservedItem}
    {now : Timestamp} (hread : Readable s item) : ∃ s',
      Alike i s.db s'.db ∧ s'.db.memories = s.db.memories
      ∧ Kept s s' item.contentHash
      ∧ ingestItem s sourceId item now
        = if unchanged s.db sourceId item then .ok (s, none)
          else if !item.wellFormed then .error .refused
          else .ok (⟨(recordVersion s'.db sourceId item now).1, s'.blobs⟩,
            some ⟨(recordVersion s'.db sourceId item now).2,
              (currentRow s.db sourceId item.externalKey).isSome⟩) := by
  obtain ⟨s', hok, hdb, hkept⟩ := storeArtifact_ok hread
  refine ⟨s', ?_, ?_, hkept, ?_⟩
  · rw [hdb]
    exact { Alike.refl s.db with }
  · rw [hdb]
  · unfold ingestItem
    simp only [hok]

theorem artifactKnown_recordVersion (db : Db) (sourceId : Id)
    (item : ObservedItem) (now : Timestamp) (x : ContentHash) :
    artifactKnown (recordVersion db sourceId item now).1 x
      = artifactKnown db x := by
  unfold recordVersion memoryFromEvent
  simp only [appendEvent, observation, EventDraft.event, Option.map_some]
  unfold addVersion
  split <;> rfl

theorem chatMessages_recordVersion (db : Db) (sourceId : Id)
    (item : ObservedItem) (now : Timestamp) :
    (recordVersion db sourceId item now).1.chatMessages = db.chatMessages := by
  unfold recordVersion memoryFromEvent
  simp only [appendEvent, observation, EventDraft.event, Option.map_some]
  unfold addVersion
  split <;> rfl

theorem recordVersion_hashes {db : Db} {sourceId : Id} {item : ObservedItem}
    {now : Timestamp} {m : Memory}
    (hm : m ∈ (recordVersion db sourceId item now).1.memories) :
    m.contentHash = item.contentHash
      ∨ ∃ m₀ ∈ db.memories, m₀.contentHash = m.contentHash := by
  unfold recordVersion memoryFromEvent at hm
  simp only [appendEvent, observation, EventDraft.event, Option.map_some,
    Db.enqueue_memories, addVersion_memories] at hm
  rcases List.mem_append.mp hm with hm | hm
  · obtain ⟨m₀, hm₀, rfl⟩ := List.mem_map.mp hm
    refine .inr ⟨m₀, hm₀, ?_⟩
    unfold superseded
    split <;> rfl
  · rw [List.mem_singleton.mp hm]
    exact .inl rfl

theorem storeItem_same {s t : Store} {sourceId : Id} {a b : ObservedItem}
    {nothing : ChatFailure} {clock : Timestamp} (h : Same i s t)
    (hab : SameItem i sourceId a b) (ha : Readable s a) (hb : Readable t b)
    (hunchanged : unchanged s.db sourceId a = unchanged t.db sourceId b) :
    Both (fun s' t' => Same i s' t' ∧ Kept s s' a.contentHash
        ∧ Kept t t' b.contentHash)
      (storeItem s sourceId a nothing clock)
      (storeItem t sourceId b nothing clock) := by
  obtain ⟨s₁, hs, hsm, hsk, hseq⟩ :=
    @ingestItem_eq i s sourceId a clock ha
  obtain ⟨t₁, ht, htm, htk, hteq⟩ :=
    @ingestItem_eq i t sourceId b clock hb
  have hformed : a.wellFormed = b.wellFormed := by
    unfold ObservedItem.wellFormed
    rw [hab.key, hab.occurredAt, hab.occurredAtSource]
  have hrefs : ∀ {u u₁ : Store} {item : ObservedItem},
      Referenced u.db → u₁.db.memories = u.db.memories →
      Kept u u₁ item.contentHash →
      Referenced (recordVersion u₁.db sourceId item clock).1 := by
    intro u u₁ item href hmem hkept m hm
    rw [artifactKnown_recordVersion, hkept.known]
    rcases recordVersion_hashes hm with heq | ⟨m₀, hm₀, heq⟩
    · rw [heq, decide_eq_true rfl, Bool.or_true]
    · rw [← heq, href m₀ (hmem ▸ hm₀), Bool.true_or]
  have hkept : ∀ {u u₁ : Store} {item : ObservedItem},
      Kept u u₁ item.contentHash →
      Kept u ⟨(recordVersion u₁.db sourceId item clock).1, u₁.blobs⟩
        item.contentHash := fun hk =>
    ⟨fun x => (artifactKnown_recordVersion _ _ _ _ x).trans (hk.known x),
      hk.bytes, (chatMessages_recordVersion _ _ _ _).trans hk.turns⟩
  unfold storeItem
  rw [hseq, hteq, ← hunchanged, ← hformed]
  cases unchanged s.db sourceId a with
  | true => exact .error nothing
  | false =>
    cases a.wellFormed with
    | false => exact .error _
    | true =>
      refine .ok ⟨⟨?_, hrefs h.left hsm hsk, hrefs h.right htm htk⟩,
        hkept hsk, hkept htk⟩
      exact ((hs.symm.trans h.alike).trans ht).recordVersion hab clock

theorem Same.unchanged_other {s t : Store} (h : Same i s t) {sourceId : Id}
    (hne : (⟨sourceId, item.externalKey⟩ : Item) ≠ i) :
    unchanged s.db sourceId item = unchanged t.db sourceId item := by
  have hrow : ∀ db : Db, Referenced db → unchanged db sourceId item
      = (currentRow db sourceId item.externalKey).any fun c =>
        decide (c.contentHash = item.contentHash) && c.deletedAt.isNone := by
    intro db href
    unfold unchanged
    cases hc : currentRow db sourceId item.externalKey with
    | none => exact Bool.and_false _
    | some c =>
      -- the row's artifact is there
      have hknown := href c (List.mem_of_find?_eq_some hc)
      by_cases heq : c.contentHash = item.contentHash
      · rw [← heq, hknown, Bool.true_and]
        rfl
      · simp only [Option.any_some, heq, decide_false, Bool.false_and,
          Bool.and_false]
  rw [hrow s.db h.left, hrow t.db h.right, h.alike.currentRow_other hne]

-- ========== frames

/-- The versions and their artifacts are the same. -/
def SameCorpus (s t : Db) : Prop :=
  t.memories = s.memories ∧ t.artifacts = s.artifacts

theorem SameCorpus.referenced (h : SameCorpus s t) (href : Referenced s) :
    Referenced t := by
  intro m hm
  have hknown := href m (h.1 ▸ hm)
  unfold artifactKnown at hknown ⊢
  rw [h.2]
  exact hknown

theorem SameCorpus.artifactKnown (h : SameCorpus s t) (x : ContentHash) :
    MemoryOS.artifactKnown t x = MemoryOS.artifactKnown s x := by
  unfold MemoryOS.artifactKnown
  rw [h.2]

theorem SameCorpus.unchanged (h : SameCorpus s t) (sourceId : Id)
    (item : ObservedItem) :
    MemoryOS.unchanged t sourceId item
      = MemoryOS.unchanged s sourceId item := by
  unfold MemoryOS.unchanged MemoryOS.currentRow
  rw [h.artifactKnown, h.1]

theorem SameCorpus.trans {u : Db} (h : SameCorpus s t) (h' : SameCorpus t u) :
    SameCorpus s u :=
  ⟨h'.1.trans h.1, h'.2.trans h.2⟩

theorem ensureSource_corpus (db : Db) (kind : SourceKind) (name : String) :
    SameCorpus db (ensureSource db kind name).1 := by
  unfold ensureSource
  split
  case h_1 => exact ⟨rfl, rfl⟩
  case h_2 => exact ⟨rfl, rfl⟩

theorem resolveSession_corpus
    {sessionId : Option Id} {newSession : Bool} {r : Db × ChatSession}
    (hr : resolveSession db now sessionId newSession = .ok r) :
    SameCorpus db r.1 := by
  unfold resolveSession at hr
  split at hr
  case h_1 =>
    split at hr
    case h_1 => cases hr
    case h_2 =>
      cases hr
      exact ⟨rfl, rfl⟩
  case h_2 =>
    split at hr
    case h_1 =>
      cases hr
      exact ⟨rfl, rfl⟩
    case h_2 =>
      cases hr
      exact ⟨rfl, rfl⟩

theorem addTurn_corpus {db' : Db} {record : ChatSession}
    {turn : ChatMessage} {attachments : List ChatAttachment} {cutTitle : Bool}
    (hr : addTurn db record turn attachments cutTitle = .ok db') :
    SameCorpus db db' := by
  unfold addTurn at hr
  split at hr
  case isTrue => cases hr
  case isFalse =>
    cases hr
    exact ⟨rfl, rfl⟩

theorem recordAnswer_corpus {db' : Db} {sessionId : Id} {answer : Answer} (hr : recordAnswer db sessionId answer now = .ok db') :
    SameCorpus db db' := by
  unfold recordAnswer at hr
  split at hr
  case h_1 => cases hr
  case h_2 => exact addTurn_corpus hr

-- ====== sources and sessions

theorem Alike.ensureSource (h : Alike i s t) (kind : SourceKind)
    (name : String) :
    Alike i (MemoryOS.ensureSource s kind name).1
        (MemoryOS.ensureSource t kind name).1
      ∧ (MemoryOS.ensureSource s kind name).2
        = (MemoryOS.ensureSource t kind name).2 := by
  unfold MemoryOS.ensureSource
  rw [← h.sources]
  split
  case h_1 => exact ⟨h, rfl⟩
  case h_2 =>
    refine ⟨{ h with sources := ?_, nextId := congrArg (· + 1) h.nextId },
      h.nextId⟩
    show s.sources ++ [⟨s.nextId, kind, name⟩]
      = s.sources ++ [⟨t.nextId, kind, name⟩]
    rw [h.nextId]

theorem Alike.resolveSession (h : Alike i s t) (now : Timestamp)
    (sessionId : Option Id) (newSession : Bool) :
    Both (fun a b => Alike i a.1 b.1 ∧ a.2 = b.2)
      (Chat.resolveSession s now sessionId newSession)
      (Chat.resolveSession t now sessionId newSession) := by
  have hlatest : latestSession s = latestSession t := by
    unfold latestSession
    rw [h.sessions]
  have hsession : ∀ id, sessionOf s id = sessionOf t id := fun id => by
    unfold sessionOf
    rw [h.sessions]
  unfold Chat.resolveSession
  rw [hlatest]
  cases sessionId with
  | some id =>
    simp only [hsession]
    cases sessionOf t id with
    | none => exact .error _
    | some found => exact .ok ⟨h, rfl⟩
  | none =>
    simp only
    split
    case h_1 latest _ => exact .ok ⟨h, rfl⟩
    case h_2 =>
      refine .ok ⟨{ h with
        sessions := ?_, nextId := congrArg (· + 1) h.nextId }, ?_⟩
      · show s.chatSessions ++ [_] = t.chatSessions ++ [_]
        rw [h.sessions, h.nextId]
      · show ChatSession.mk _ _ _ _ _ _ = ChatSession.mk _ _ _ _ _ _
        rw [h.nextId]

theorem Alike.nextOrdinal (h : Alike i s t) (sessionId : Id) :
    Chat.nextOrdinal s sessionId = Chat.nextOrdinal t sessionId := by
  have hblank : ∀ db : Db, ((db.chatMessages.filter fun m =>
        decide (m.sessionId = sessionId)).map (·.ordinal))
      = ((db.chatMessages.map (blankTurn i)).filter fun m =>
        decide (m.sessionId = sessionId)).map (·.ordinal) := by
    intro db
    rw [List.filter_map, List.map_map]
    refine congrArg₂ List.map (funext fun m => (blankTurn_ordinal m).symm) ?_
    exact List.filter_congr fun m _ => by simp
  unfold Chat.nextOrdinal
  rw [hblank s, hblank t, h.turns]

-- =========== turns

/-- Two turns: the same but for the text, with attachments of their own that
may differ only when the turn is the item's. -/
structure SameTurn (i : Item) (a b : ChatMessage)
    (as bs : List ChatAttachment) : Prop where
  turn : blankTurn i a = blankTurn i b
  other : a.externalKey ≠ some i.externalKey → as = bs
  length : as.length = bs.length
  left : ∀ x ∈ as, x.messageId = a.id
  right : ∀ x ∈ bs, x.messageId = b.id

theorem turnIds_append (db : Db) (turn : ChatMessage) :
    turnIds i { db with chatMessages := db.chatMessages ++ [turn] }
      = turnIds i db
        ++ if turn.externalKey = some i.externalKey then [turn.id] else [] := by
  unfold turnIds
  rw [List.filter_append, List.map_append]
  refine congrArg _ ?_
  by_cases hi : turn.externalKey = some i.externalKey
  · simp [hi]
  · simp [hi]

theorem Alike.addTurn {record : ChatSession} {a b : ChatMessage}
    {as bs : List ChatAttachment} {cutTitle : Bool} (h : Alike i s t)
    (hturn : SameTurn i a b as bs)
    (htitle : cutTitle = true → a.ordinal = 0 →
      titleFor a.content = titleFor b.content) :
    Both (Alike i) (Chat.addTurn s record a as cutTitle)
      (Chat.addTurn t record b bs cutTitle) := by
  have hfields : a.id = b.id ∧ a.sessionId = b.sessionId
      ∧ a.ordinal = b.ordinal ∧ a.externalKey = b.externalKey
      ∧ a.createdAt = b.createdAt := by
    have heq := hturn.turn
    refine ⟨?_, ?_, ?_, ?_, ?_⟩
    · rw [← blankTurn_id (i := i) a, heq, blankTurn_id]
    · rw [← blankTurn_sessionId (i := i) a, heq, blankTurn_sessionId]
    · rw [← blankTurn_ordinal (i := i) a, heq, blankTurn_ordinal]
    · rw [← blankTurn_externalKey (i := i) a, heq, blankTurn_externalKey]
    · rw [← blankTurn_createdAt (i := i) a, heq, blankTurn_createdAt]
  obtain ⟨hid, hsession, hordinal, hkey, hcreated⟩ := hfields
  have hmoved : moved a cutTitle = moved b cutTitle := by
    funext x
    unfold moved
    rw [hsession, hcreated, hordinal]
    split
    case isFalse => rfl
    case isTrue =>
      cases hcut : cutTitle && b.ordinal == 0 with
      | false => rfl
      | true =>
        rw [Bool.and_eq_true, beq_iff_eq] at hcut
        rw [htitle hcut.1 (hordinal.trans hcut.2)]
  unfold Chat.addTurn
  rw [hcreated]
  split
  case isTrue => exact .error _
  case isFalse =>
    refine .ok { h with
      sessions := ?_, turns := ?_, attachments := ?_, nextId := ?_ }
    · show s.chatSessions.map _ = t.chatSessions.map _
      rw [hmoved, h.sessions]
    · show (s.chatMessages ++ [a]).map (blankTurn i)
        = (t.chatMessages ++ [b]).map (blankTurn i)
      rw [List.map_append, List.map_append, h.turns, List.map_singleton,
        List.map_singleton, hturn.turn]
    · show ((s.chatAttachments ++ as).filter fun x => decide (x.messageId ∉
          Chat.turnIds i { s with chatMessages := s.chatMessages ++ [a] }))
        = (t.chatAttachments ++ bs).filter fun x => decide (x.messageId ∉
          Chat.turnIds i { t with chatMessages := t.chatMessages ++ [b] })
      rw [turnIds_append, turnIds_append, ← hid, ← hkey, ← h.turnIds,
        List.filter_append, List.filter_append]
      have hsplit : ∀ (l : List ChatAttachment) (x y : List Id),
          (l.filter fun c => decide (c.messageId ∉ x ++ y))
            = (l.filter fun c => decide (c.messageId ∉ x)).filter
              fun c => decide (c.messageId ∉ y) := by
        intro l x y
        rw [List.filter_filter]
        refine List.filter_congr fun c _ => ?_
        rw [← Bool.decide_and, decide_eq_decide, List.mem_append, not_or,
          and_comm]
      have hold := h.attachments
      rw [← h.turnIds] at hold
      rw [hsplit, hsplit t.chatAttachments, hold]
      refine congrArg _ ?_
      by_cases hi : a.externalKey = some i.externalKey
      · -- the turn is the item's, and its files with it
        rw [if_pos hi]
        have hgone : ∀ l : List ChatAttachment, (∀ x ∈ l, x.messageId = a.id) →
            (l.filter fun x =>
              decide (x.messageId ∉ Chat.turnIds i s ++ [a.id])) = [] := by
          intro l hl
          refine List.filter_eq_nil_iff.mpr fun x hx => ?_
          rw [hl x hx]
          simp
        rw [hgone as hturn.left,
          hgone bs fun x hx => (hturn.right x hx).trans hid.symm]
      · rw [hturn.other hi]
    · show s.nextId + 1 + as.length = t.nextId + 1 + bs.length
      rw [h.nextId, hturn.length]

theorem Alike.recordAnswer (h : Alike i s t) (sessionId : Id)
    (answer : Answer) (now : Timestamp) :
    Both (Alike i) (Chat.recordAnswer s sessionId answer now)
      (Chat.recordAnswer t sessionId answer now) := by
  unfold Chat.recordAnswer sessionOf
  rw [h.sessions]
  split
  case h_1 => exact .error _
  case h_2 =>
    refine h.addTurn ⟨?_, fun _ => rfl, rfl, nofun, nofun⟩ nofun
    rw [h.nextId, h.nextOrdinal]

-- =========== files

theorem externalKeyFor_ne {filename : Text}
    {now' : Timestamp} {uploadId turnId : Id} :
    externalKeyFor ports filename now uploadId
      ≠ messageKey ports now' turnId := by
  intro heq
  have hleft : '#' ∈ (externalKeyFor ports filename now uploadId).toList := by
    unfold externalKeyFor
    simp only [String.toList_append, List.mem_append]
    exact .inl (.inr (by decide))
  rw [heq] at hleft
  unfold messageKey at hleft
  simp only [String.toList_append, List.mem_append] at hleft
  rcases hleft with ((hday | hslash) | huuid) | hsuffix
  · exact ports.day_plain _ hday
  · exact absurd hslash (by decide)
  · exact ports.uuid_plain _ huuid
  · exact absurd hsuffix (by decide)

/-- An upload's record, but for whether the bytes were there. -/
def bare (x : Stored) : Stored := { x with deduplicated := false }

theorem record_same {ports : ChatPorts} {s t : Store} {sourceId : Id}
    {upload : Upload} {hash : ContentHash} {byteSize : Nat}
    {now clock : Timestamp} (h : Same i s t)
    (hitem : ∃ now turnId, i.externalKey = messageKey ports now turnId)
    (hs : s.blobs.holds hash = true) (ht : t.blobs.holds hash = true) :
    Both (fun a b => Same i a.1 b.1 ∧ Kept s a.1 hash ∧ Kept t b.1 hash
        ∧ bare a.2 = bare b.2
        ∧ (artifactKnown s.db hash = artifactKnown t.db hash → a.2 = b.2))
      (record ports s sourceId upload hash byteSize now clock)
      (record ports t sourceId upload hash byteSize now clock) := by
  obtain ⟨now', turnId, hkey⟩ := hitem
  have hminted : Same i { s with db := minted s.db }
      { t with db := minted t.db } := ⟨h.alike.minted, h.left, h.right⟩
  have hother : ∀ key, key = externalKeyFor ports upload.filename now
      s.db.nextId → (⟨sourceId, key⟩ : Item) ≠ i := by
    rintro key rfl heq
    have hupload : i.externalKey
        = externalKeyFor ports upload.filename now s.db.nextId := by
      rw [← heq]
    exact externalKeyFor_ne (hupload.symm.trans hkey)
  unfold record
  simp only [← h.alike.nextId]
  have hboth := @storeItem_same i _ _ sourceId
    (uploadItem upload (externalKeyFor ports upload.filename now s.db.nextId)
      hash byteSize now) _ .unstorableUpload clock hminted
    ⟨rfl, rfl, rfl, rfl, fun _ => rfl⟩ (.inr hs) (.inr ht)
    (hminted.unchanged_other (hother _ rfl))
  rcases hboth with ⟨e, hx, hy⟩ | ⟨a, b, hx, hy, hsame, hka, hkb⟩
  · unfold minted at hx hy
    simp only [h.alike.nextId] at hx hy ⊢
    rw [hx, hy]
    exact .error e
  · unfold minted at hx hy
    simp only [h.alike.nextId] at hx hy ⊢
    rw [hx, hy]
    refine .ok ⟨hsame, ⟨hka.known, hka.bytes, hka.turns⟩,
      ⟨hkb.known, hkb.bytes, hkb.turns⟩, rfl, ?_⟩
    intro hknown
    rw [hknown]

theorem recordAll_same {ports : ChatPorts} {s t : Store} {sourceId : Id}
    {now clock : Timestamp} {staged : List (Upload × ContentHash × Nat)}
    (h : Same i s t)
    (hitem : ∃ now turnId, i.externalKey = messageKey ports now turnId)
    (hheld : ∀ x ∈ staged, s.blobs.holds x.2.1 = true
      ∧ t.blobs.holds x.2.1 = true) :
    Both (fun a b => Same i a.1 b.1 ∧ a.1.db.chatMessages = s.db.chatMessages
        ∧ a.2.map bare = b.2.map bare ∧ ((∀ x ∈ staged,
          artifactKnown s.db x.2.1 = artifactKnown t.db x.2.1) → a.2 = b.2))
      (recordAll ports s sourceId now clock staged)
      (recordAll ports t sourceId now clock staged) := by
  induction staged generalizing s t with
  | nil => exact .ok ⟨h, rfl, rfl, fun _ => rfl⟩
  | cons x rest ih =>
    obtain ⟨upload, hash, byteSize⟩ := x
    obtain ⟨⟨hs, ht⟩, hrest⟩ := List.forall_mem_cons.mp hheld
    unfold recordAll
    rcases @record_same i ports s t sourceId upload hash byteSize now clock h
        hitem hs ht
      with ⟨e, hx, hy⟩ | ⟨⟨a, xa⟩, ⟨b, xb⟩, hx, hy, hsame, hka, hkb, hbare,
        hflag⟩
    · rw [hx, hy]
      exact .error e
    · rw [hx, hy]
      have hlater := ih hsame fun y hy =>
        ⟨hka.bytes _ (hrest y hy).1, hkb.bytes _ (hrest y hy).2⟩
      simp only at hbare hflag hka hkb ⊢
      rcases hlater with ⟨e, hx', hy'⟩ | ⟨⟨a', as⟩, ⟨b', bs⟩, hx', hy',
        hsame', hturns, hbares, hflags⟩
      · rw [hx', hy']
        exact .error e
      · rw [hx', hy']
        refine .ok ⟨hsame', hturns.trans hka.turns, ?_, fun hagree => ?_⟩
        · rw [List.map_cons, List.map_cons, hbare, hbares]
        · obtain ⟨hfirst, hothers⟩ := List.forall_mem_cons.mp hagree
          refine congrArg₂ List.cons (hflag hfirst) (hflags fun y hy => ?_)
          rw [hka.known, hkb.known, hothers y hy]

theorem attachmentRows_messageId {messageId newId : Id} {ordinal : Nat} :
    ∀ x ∈ attachmentRows messageId ordinal newId stored,
      x.messageId = messageId := by
  induction stored generalizing ordinal newId with
  | nil => exact nofun
  | cons y rest ih => exact List.forall_mem_cons.mpr ⟨rfl, ih⟩

theorem attachmentRows_length {messageId newId : Id} {ordinal : Nat} :
    (attachmentRows messageId ordinal newId stored).length
      = stored.length := by
  induction stored generalizing ordinal newId with
  | nil => rfl
  | cons y rest ih =>
    unfold attachmentRows
    rw [List.length_cons, List.length_cons, ih]

theorem describe_bare {as bs : List Stored} (h : as.map bare = bs.map bare) :
    describe as = describe bs := by
  have hnames : ∀ l : List Stored, l.map (·.filename)
      = (l.map bare).map (·.filename) := fun l => by
    rw [List.map_map]
    rfl
  unfold describe
  rw [hnames as, hnames bs, h]

theorem stage_holds {blobs after : Blobs} {upload : Upload}
    {hash : ContentHash} {byteSize : Nat}
    (hok : stage ports blobs upload = (after, .ok (hash, byteSize))) :
    (∀ x, blobs.holds x = true → after.holds x = true)
      ∧ after.holds hash = true ∧ hash = ports.digest upload.data := by
  unfold stage at hok
  split at hok
  case isTrue => cases hok
  case isFalse =>
    split at hok
    case isTrue => cases hok
    case isFalse =>
      simp only at hok
      split at hok
      case isTrue => cases hok
      case isFalse =>
        cases hok
        exact ⟨fun x hx => Blobs.holds_put.mpr (.inl hx),
          Blobs.holds_put.mpr (.inr rfl), rfl⟩

theorem stageAll_holds {blobs after : Blobs}
    {uploads : List Upload} {staged : List (Upload × ContentHash × Nat)}
    (hok : stageAll ports blobs uploads = (after, .ok staged)) :
    (∀ x, blobs.holds x = true → after.holds x = true)
      ∧ ∀ x ∈ staged, after.holds x.2.1 = true
        ∧ ∃ u ∈ uploads, x.2.1 = ports.digest u.data := by
  induction uploads generalizing blobs staged with
  | nil =>
    cases hok
    exact ⟨fun _ h => h, List.forall_mem_nil _⟩
  | cons upload rest ih =>
    unfold stageAll at hok
    split at hok
    case h_1 => cases hok
    case h_2 mid r hstage =>
      obtain ⟨hash, byteSize⟩ := r
      obtain ⟨hmono, hheld, hhash⟩ := stage_holds hstage
      split at hok
      case h_1 => cases hok
      case h_2 later more hrest =>
        cases hok
        obtain ⟨hmono', hheld'⟩ := ih hrest
        refine ⟨fun x hx => hmono' x (hmono x hx),
          List.forall_mem_cons.mpr ⟨⟨hmono' _ hheld, upload,
            List.mem_cons_self, hhash⟩, fun x hx => ?_⟩⟩
        obtain ⟨hx', u, hu, hux⟩ := hheld' x hx
        exact ⟨hx', u, List.mem_cons_of_mem _ hu, hux⟩

theorem stageAll_result {ports : ChatPorts} {uploads : List Upload}
    (blobs blobs' : Blobs) : (stageAll ports blobs uploads).2
      = (stageAll ports blobs' uploads).2 := by
  induction uploads generalizing blobs blobs' with
  | nil => rfl
  | cons upload rest ih =>
    have hstage : (stage ports blobs upload).2
        = (stage ports blobs' upload).2 := by
      unfold stage
      split
      case isTrue => rfl
      case isFalse =>
        split
        case isTrue => rfl
        case isFalse =>
          simp only
          split
          case isTrue => rfl
          case isFalse => rfl
    unfold stageAll
    rcases hx : stage ports blobs upload with ⟨mid, r⟩
    rcases hy : stage ports blobs' upload with ⟨mid', r'⟩
    rw [hx, hy] at hstage
    simp only at hstage
    subst hstage
    cases r with
    | error e => rfl
    | ok r =>
      have hrest := ih mid mid'
      rcases hx' : stageAll ports mid rest with ⟨later, q⟩
      rcases hy' : stageAll ports mid' rest with ⟨later', q'⟩
      rw [hx', hy'] at hrest
      simp only at hrest
      subst hrest
      simp only [hx', hy']
      cases q with
      | error e => rfl
      | ok more => rfl

end MemoryOS.Chat
