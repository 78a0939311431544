/-
One item, as its pipeline runs see it.

`itemRows` keeps of an item's rows what a deletion or a later version does
not rewrite, and `itemHeld` of its chunks the owner, the chunker and the
span. Operations on other items do not change them; observing the item
adds a row, and purging it leaves none. Only a run of its own can do more.
-/
import MemoryOS.Pipeline.Proofs.Chunks

namespace MemoryOS

/-- A row without the columns a later version, a deletion or a document
rewrites, but for the hash of its text. -/
def Memory.base (m : Memory) : Memory :=
  { m with
    version := 1
    isCurrent := true
    deletedAt := none
    kind := .other
    title := none
    content := none
    parsed := none }

variable {m p : Memory} {doc : ParsedDocument} {now : Timestamp}
  {rows : List Memory} {ports : Ports} {id : Id}

@[simp] theorem Memory.base_id (m : Memory) : m.base.id = m.id := rfl
@[simp] theorem Memory.base_item (m : Memory) : m.base.item = m.item := rfl
@[simp] theorem Memory.base_contentHash (m : Memory) :
    m.base.contentHash = m.contentHash := rfl
@[simp] theorem Memory.base_normalizedHash (m : Memory) :
    m.base.normalizedHash = m.normalizedHash := rfl

/-- The span a chunk's row holds. -/
def MemoryChunk.span (c : MemoryChunk) : TextChunk :=
  ⟨c.ordinal, c.content, c.charStart, c.charEnd, c.tokenCount, c.prefixChars,
    c.metadata⟩

/-- A chunk without its id and its vector. -/
structure Held where
  memoryId : Id
  version : String
  span : TextChunk
deriving DecidableEq, Repr

def MemoryChunk.held (c : MemoryChunk) : Held :=
  ⟨c.memoryId, c.chunkerVersion, c.span⟩

/-- The rows of an item's versions. -/
def itemRows (db : Db) (i : Item) : List Memory :=
  (db.memories.filter fun m => decide (m.item = i)).map Memory.base

/-- Whether a chunk belongs to a version of an item. -/
def ofRows (rows : List Memory) (c : MemoryChunk) : Bool :=
  decide (c.memoryId ∈ rows.map (·.id))

/-- The chunks of an item's versions. -/
def itemHeld (db : Db) (i : Item) : List Held :=
  (db.chunks.filter (ofRows (itemRows db i))).map MemoryChunk.held

variable {db db' : Db} {i : Item}

theorem mem_itemRows {r : Memory} :
    r ∈ itemRows db i ↔ ∃ m ∈ db.memories, m.item = i ∧ m.base = r := by
  unfold itemRows
  simp only [List.mem_map, List.mem_filter, decide_eq_true_eq, and_assoc]

theorem itemRows_ids (h : Versions (keyed db) db.nextId) :
    ((itemRows db i).map (·.id)).Nodup := by
  have hids : (db.memories.map (·.id)).Nodup := by
    have h' := h.ids
    unfold keyed at h'
    rwa [List.map_map] at h'
  unfold itemRows
  rw [List.map_map]
  exact hids.sublist (List.filter_sublist.map _)

theorem itemRows_fresh (h : Versions (keyed db) db.nextId) :
    ∀ r ∈ itemRows db i, r.id < db.nextId := by
  intro r hr
  obtain ⟨m, hm, -, rfl⟩ := mem_itemRows.mp hr
  exact h.fresh (m.id, m.view) (List.mem_map_of_mem hm)

theorem memory_unique (h : Versions (keyed db) db.nextId) {m' : Memory}
    (hm : m ∈ db.memories) (hm' : m' ∈ db.memories) (hid : m.id = m'.id) :
    m = m' := by
  have hids : (db.memories.map (·.id)).Nodup := by
    have h' := h.ids
    unfold keyed at h'
    rwa [List.map_map] at h'
  exact List.inj_on_of_nodup_map hids hm hm' hid

theorem itemRows_map {f g : Memory → Memory}
    (hmem : db'.memories = db.memories.map f)
    (hitem : ∀ m ∈ db.memories, (f m).item = m.item)
    (hbase : ∀ m ∈ db.memories, m.item = i → (f m).base = g m.base) :
    itemRows db' i = (itemRows db i).map g := by
  unfold itemRows
  rw [hmem, List.filter_map, List.map_map, List.map_map]
  have hfilter : db.memories.filter ((fun m => decide (m.item = i)) ∘ f)
      = db.memories.filter fun m => decide (m.item = i) :=
    List.filter_congr fun m hm => by simp only [Function.comp, hitem m hm]
  rw [hfilter]
  refine List.map_congr_left fun m hm => ?_
  obtain ⟨hm, hi⟩ := List.mem_filter.mp hm
  exact hbase m hm (by simpa using hi)

-- ====== an item left alone

/-- A step that does not touch an item. -/
structure ItemSame (i : Item) (db db' : Db) : Prop where
  next : db.nextId ≤ db'.nextId
  rows : itemRows db' i = itemRows db i
  held : itemHeld db' i = itemHeld db i

theorem ItemSame.refl (i : Item) (db : Db) : ItemSame i db db :=
  ⟨Nat.le_refl _, rfl, rfl⟩

theorem ItemSame.trans {a b c : Db} (h : ItemSame i a b)
    (h' : ItemSame i b c) : ItemSame i a c :=
  ⟨Nat.le_trans h.next h'.next, h'.rows.trans h.rows, h'.held.trans h.held⟩

theorem itemHeld_congr (hrows : itemRows db' i = itemRows db i)
    (hchunks : db'.chunks = db.chunks) : itemHeld db' i = itemHeld db i := by
  unfold itemHeld
  rw [hrows, hchunks]

theorem markDeleted_item (j : Item) (id : Id) (now : Timestamp) :
    ItemSame i db (Deletion.markDeleted db j id now) := by
  have hrows : itemRows (Deletion.markDeleted db j id now) i
      = itemRows db i := by
    refine (itemRows_map (g := fun m => m) rfl (fun m _ => by split <;> rfl)
      fun m _ _ => ?_).trans (List.map_id _)
    split <;> rfl
  exact ⟨Nat.le_succ _, hrows, itemHeld_congr hrows rfl⟩

theorem tombstone_item
    (ht : Deletion.tombstone db id now = .ok db') : ItemSame i db db' := by
  obtain rfl | ⟨j, c, -, rfl⟩ := tombstone_cases ht
  · exact .refl i db'
  · exact markDeleted_item j c.id now

theorem detectDeletions_item {sourceId : Id} {observed : List String}
    {clock : String → Timestamp} :
    ItemSame i db (Deletion.detectDeletions db sourceId observed clock) := by
  unfold Deletion.detectDeletions
  simp only
  generalize List.mergeSort _ _ = missing
  generalize Deletion.knownOf db sourceId = known
  induction missing generalizing db with
  | nil => exact .refl i db
  | cons k rest ih =>
    rw [List.foldl_cons]
    refine ItemSame.trans ?_ ih
    unfold Deletion.sweepOne
    split
    case h_1 => exact .refl i db
    case h_2 => exact markDeleted_item _ _ _

-- ========= purging

/-- A step after which nothing of the item is left. -/
structure ItemGone (i : Item) (db db' : Db) : Prop where
  next : db.nextId ≤ db'.nextId
  rows : itemRows db' i = []
  held : itemHeld db' i = []

theorem purgeOne_item {j : Item} {now : Timestamp}
    {r : Db × List ContentHash} (h : Versions (keyed db) db.nextId)
    (hp : Deletion.purgeOne db j now = .ok r) :
    ItemSame i db r.1 ∨ ItemGone i db r.1 := by
  unfold Deletion.purgeOne at hp
  simp only at hp
  split at hp
  case isTrue => cases hp
  case isFalse =>
    cases hp
    by_cases hji : j = i
    · subst hji
      have hrows : (List.filter (fun m => decide (m.item = j))
          (db.memories.filter fun m => !decide (m.item = j))) = [] := by
        rw [List.filter_filter, List.filter_eq_nil_iff]
        intro m _
        by_cases hj : m.item = j <;> simp [hj]
      refine .inr ⟨Nat.le_succ _, ?_, ?_⟩
      · show List.map _ (List.filter _ (db.memories.filter _)) = _
        rw [hrows]
        rfl
      · show List.map _ (List.filter (ofRows (List.map _
          (List.filter _ (db.memories.filter _)))) (db.chunks.filter _)) = _
        rw [hrows, List.map_eq_nil_iff, List.filter_eq_nil_iff]
        intro c _
        simp [ofRows]
    · have hrows : (List.filter (fun m => decide (m.item = i))
          (db.memories.filter fun m => !decide (m.item = j)))
          = db.memories.filter fun m => decide (m.item = i) := by
        rw [List.filter_filter]
        refine List.filter_congr fun m _ => ?_
        by_cases hi : m.item = i
        · simp [hi, Ne.symm hji]
        · simp [hi]
      refine .inl ⟨Nat.le_succ _, ?_, ?_⟩
      · show List.map _ (List.filter _ (db.memories.filter _)) = _
        rw [hrows]
        rfl
      · show List.map _ (List.filter (ofRows (List.map _
          (List.filter _ (db.memories.filter _)))) (db.chunks.filter _)) = _
        rw [hrows, List.filter_filter]
        unfold itemHeld
        congr 1
        refine List.filter_congr fun c _ => ?_
        -- a chunk of the item is not among the purged item's
        show (ofRows (itemRows db i) c && _) = ofRows (itemRows db i) c
        cases hof : ofRows (itemRows db i) c with
        | false => rfl
        | true =>
          rw [Bool.true_and, Bool.not_eq_true', decide_eq_false_iff_not]
          intro hgone
          obtain ⟨m, hm, hid⟩ := List.mem_map.mp hgone
          obtain ⟨hm, hmj⟩ := List.mem_filter.mp hm
          unfold ofRows at hof
          rw [decide_eq_true_eq] at hof hmj
          obtain ⟨x, hx, hid'⟩ := List.mem_map.mp hof
          obtain ⟨m', hm', hi, rfl⟩ := mem_itemRows.mp hx
          rw [memory_unique h hm' hm (hid'.trans hid.symm)] at hi
          exact hji (hmj.symm.trans hi)

theorem purgeLoop_item (i : Item) {items : List (Item × Timestamp)}
    (h : Faithful db) : ItemSame i db (Deletion.purgeLoop db items).1
      ∨ ItemGone i db (Deletion.purgeLoop db items).1 := by
  induction items generalizing db with
  | nil => exact .inl (.refl i db)
  | cons x rest ih =>
    obtain ⟨j, now⟩ := x
    unfold Deletion.purgeLoop
    split
    case h_1 => exact .inl (.refl i db)
    case h_2 db₁ hashes hp =>
      obtain hs | hg := @purgeOne_item db i j now _ h.versions hp
      · obtain hs' | hg' := ih (purgeOne_faithful h hp)
        · exact .inl (hs.trans hs')
        · exact .inr ⟨Nat.le_trans hs.next hg'.next, hg'.rows, hg'.held⟩
      · obtain hs' | hg' := ih (purgeOne_faithful h hp)
        · exact .inr ⟨Nat.le_trans hg.next hs'.next, hs'.rows.trans hg.rows,
            hs'.held.trans hg.held⟩
        · exact .inr ⟨Nat.le_trans hg.next hg'.next, hg'.rows, hg'.held⟩

-- ======= embedding

theorem finish_item (embedder : Embedder) (followup : Bool) (id : Id)
    (pending : List (Id × Text)) (now : Timestamp) :
    ItemSame i db (EmbedMemory.finish embedder followup db id pending now) := by
  have hw : ItemSame i db
      (EmbedMemory.embedChunks embedder db pending now) := by
    obtain ⟨cache, heq⟩ := @EmbedMemory.embedChunks_eq embedder pending now db
    rw [heq]
    refine ⟨Nat.le_refl _, rfl, ?_⟩
    show List.map _ (List.filter _ (List.map _ db.chunks)) = _
    rw [List.filter_map, List.map_map]
    have hheld : MemoryChunk.held ∘ EmbedMemory.vectored embedder
        (EmbedMemory.vectorOf embedder db) pending now
        = MemoryChunk.held := by
      funext c
      obtain ⟨v, m, t, h⟩ := @EmbedMemory.vectored_columns embedder
        (EmbedMemory.vectorOf embedder db) pending now c
      rw [Function.comp, h]
      rfl
    have hof : ofRows (itemRows db i) ∘ EmbedMemory.vectored embedder
        (EmbedMemory.vectorOf embedder db) pending now
        = ofRows (itemRows db i) := by
      funext c
      simp only [Function.comp, ofRows, EmbedMemory.vectored_memoryId]
    unfold itemHeld
    rw [hheld]
    exact congrArg (fun p => List.map MemoryChunk.held
      (List.filter p db.chunks)) hof
  unfold EmbedMemory.finish
  cases followup with
  | false => exact hw
  | true => exact hw.trans ⟨Nat.le_succ _, rfl, rfl⟩

theorem embed_item {embedder : Embedder} {followup : Bool} {id : Id}
    {now : Timestamp} {r : Db × EmbedMemory.Outcome}
    (hr : EmbedMemory.call embedder followup db id now = .ok r) :
    ItemSame i db r.1 := by
  obtain heq | ⟨pending, -, heq⟩ := EmbedMemory.call_cases hr
  · rw [heq]
    exact .refl i db
  · rw [heq]
    exact finish_item embedder followup id pending now

-- ======= observing

theorem itemRows_addVersion (db : Db) (m : Memory) :
    itemRows (addVersion db m) i
      = itemRows db i ++ if m.item = i then [m.base] else [] := by
  have happend : ∀ (rows : List Memory) (n : Nat),
      ((rows ++ [{ m with version := n, isCurrent := true }]).filter
        fun x : Memory => decide (x.item = i)).map Memory.base
      = (rows.filter fun x => decide (x.item = i)).map Memory.base
        ++ if m.item = i then [m.base] else [] := by
    intro rows n
    rw [List.filter_append, List.map_append]
    congr 1
    by_cases hi : m.item = i
    · have hi' : ({ m with version := n, isCurrent := true } : Memory).item
          = i := hi
      simp only [List.filter_cons, hi', decide_true, ↓reduceIte, hi]
      rfl
    · have hi' : ({ m with version := n, isCurrent := true } : Memory).item
          ≠ i := hi
      simp [hi, hi']
  unfold addVersion
  split
  case h_1 => exact happend _ _
  case h_2 c hc =>
    refine (happend _ _).trans ?_
    congr 1
    refine (@itemRows_map db { db with memories := _ } i _ id rfl
      (fun x _ => by split <;> rfl) fun x _ _ => ?_).trans (List.map_id _)
    split <;> rfl

/-- A step that adds a row to an item, which nothing has normalized. -/
structure ItemAdded (i : Item) (db db' : Db) : Prop where
  next : db.nextId ≤ db'.nextId
  row : ∃ r : Memory, r.id = db.nextId ∧ r.normalizedHash = none
    ∧ itemRows db' i = itemRows db i ++ [r]
  held : itemHeld db' i = itemHeld db i

/-- What an operation that is not a run of the item's own can do to it. -/
inductive ItemStep (i : Item) (db db' : Db) : Prop
  | same (h : ItemSame i db db')
  | added (h : ItemAdded i db db')
  | gone (h : ItemGone i db db')

theorem recordVersion_item {sourceId : Id} {item : ObservedItem}
    {now : Timestamp} (h : Faithful db) (hc : ChunksOwned db) :
    ItemStep i db (recordVersion db sourceId item now).1 := by
  set m : Memory := {
    id := db.nextId, sourceId := sourceId, externalKey := item.externalKey
    version := 1, isCurrent := true, contentHash := item.contentHash
    normalizedHash := none, kind := kindFor item.externalKey
    title := none, content := none, occurredAt := item.occurredAt
    occurredAtSource := item.occurredAtSource, ingestedAt := now
    mediaType := item.mediaType, parsed := none, deletedAt := none
    entityExtractorVersion := none, relationshipExtractorVersion := none }
  have hrows : itemRows (recordVersion db sourceId item now).1 i
      = itemRows db i ++ if m.item = i then [m.base] else [] :=
    itemRows_addVersion _ m
  have hchunks : (recordVersion db sourceId item now).1.chunks = db.chunks :=
    addVersion_chunks _ m
  have hnext : db.nextId ≤ (recordVersion db sourceId item now).1.nextId := by
    show db.nextId ≤ (addVersion _ m).nextId + 1 + 1
    rw [addVersion_nextId]
    exact Nat.le_add_right _ 3
  by_cases hi : m.item = i
  · rw [if_pos hi] at hrows
    refine .added ⟨hnext, ⟨m.base, rfl, rfl, hrows⟩, ?_⟩
    unfold itemHeld
    rw [hrows, hchunks]
    congr 1
    refine List.filter_congr fun c hcm => ?_
    obtain ⟨x, hx, hxc⟩ := hc.owned c hcm
    have hne : c.memoryId ≠ m.id := by
      rw [← hxc]
      exact Nat.ne_of_lt
        (h.versions.fresh (x.id, x.view) (List.mem_map_of_mem hx))
    simp [ofRows, hne]
  · rw [if_neg hi, List.append_nil] at hrows
    exact .same ⟨hnext, hrows, itemHeld_congr hrows hchunks⟩

theorem ingestItem_item {s s' : Store} {sourceId : Id} {item : ObservedItem} {out : Option Ingested} (h : Faithful s.db)
    (hc : ChunksOwned s.db)
    (hin : ingestItem s sourceId item now = .ok (s', out)) :
    ItemStep i s.db s'.db := by
  obtain ⟨-, rfl, -⟩ | ⟨-, artifacts, blobs, -, rfl, -⟩ := ingestItem_cases hin
  · exact .same (.refl i _)
  · have hs := @recordVersion_item { s.db with artifacts := artifacts } i
      sourceId item now (h.same ⟨rfl, rfl, rfl, Nat.le_refl _⟩)
      (hc.keep rfl (Nat.le_refl _) fun _ hk => hk)
    -- the artifacts are no part of the item
    cases hs with
    | same hs => exact .same ⟨hs.next, hs.rows, hs.held⟩
    | added hs => exact .added ⟨hs.next, hs.row, hs.held⟩
    | gone hs => exact .gone ⟨hs.next, hs.rows, hs.held⟩

-- ====== normalizing

theorem ofItem_eq (db : Db) (m : Memory) (c : MemoryChunk) :
    NormalizeMemory.ofItem db (m.sourceId, m.externalKey) c
      = ofRows (itemRows db m.item) c := by
  rw [Bool.eq_iff_iff]
  unfold NormalizeMemory.ofItem ofRows
  simp only [List.any_eq_true, Bool.and_eq_true, decide_eq_true_eq,
    List.mem_map]
  constructor
  · rintro ⟨x, hx, ⟨hid, hs⟩, hk⟩
    refine ⟨x.base, mem_itemRows.mpr ⟨x, hx, ?_, rfl⟩, hid⟩
    rw [Memory.item, Memory.item, hs, hk]
  · rintro ⟨r, hr, hid⟩
    obtain ⟨x, hx, hi, rfl⟩ := mem_itemRows.mp hr
    rw [Memory.item, Memory.item, Item.mk.injEq] at hi
    exact ⟨x, hx, ⟨hid, hi.1⟩, hi.2⟩

/-- The chunker versions on one version's chunks. -/
def heldVersions (held : List Held) (id : Id) : List String :=
  (held.filter fun h => decide (h.memoryId = id)).map (·.version)

theorem chunkVersions_eq (hm : m ∈ db.memories)
    (hi : m.item = i) :
    NormalizeMemory.chunkVersions db m.id = heldVersions (itemHeld db i) m.id := by
  unfold NormalizeMemory.chunkVersions heldVersions itemHeld
  rw [List.filter_map, List.map_map, List.filter_filter]
  have hmem : m.id ∈ (itemRows db i).map (·.id) :=
    List.mem_map.mpr ⟨m.base, mem_itemRows.mpr ⟨m, hm, hi, rfl⟩, rfl⟩
  have hfilter : (db.chunks.filter fun c => decide (c.memoryId = m.id))
      = db.chunks.filter fun c => ((fun h => decide (h.memoryId = m.id))
        ∘ MemoryChunk.held) c && ofRows (itemRows db i) c := by
    refine List.filter_congr fun c _ => ?_
    by_cases hc : c.memoryId = m.id
    · have hof : ofRows (itemRows db i) c = true := by
        unfold ofRows
        rw [hc, decide_eq_true_eq]
        exact hmem
      simp [hof, hc, MemoryChunk.held]
    · simp [hc, MemoryChunk.held]
  rw [hfilter]
  rfl

/-- The rows once a document has been applied to one of them. -/
def stamped (id : Id) (text : Text) (rows : List Memory) : List Memory :=
  rows.map fun r =>
    if r.id = id then { r with normalizedHash := some ⟨text⟩ } else r

theorem itemRows_documented
    (hmem : db'.memories = (NormalizeMemory.documented db id doc).memories) :
    itemRows db' i = stamped id doc.text (itemRows db i) := by
  refine itemRows_map hmem (fun m _ => by split <;> rfl) fun m _ _ => ?_
  by_cases hid : m.id = id
  · rw [if_pos hid, if_pos (show m.base.id = id from hid)]
    rfl
  · rw [if_neg hid, if_neg (show m.base.id ≠ id from hid)]

@[simp] theorem stamped_ids (id : Id) (text : Text) (rows : List Memory) :
    (stamped id text rows).map (·.id) = rows.map (·.id) := by
  unfold stamped
  rw [List.map_map]
  refine List.map_congr_left fun r _ => ?_
  show (if r.id = id then _ else r).id = r.id
  split <;> rfl

theorem ofRows_stamped (id : Id) (text : Text) (rows : List Memory) :
    ofRows (stamped id text rows) = ofRows rows := by
  funext c
  unfold ofRows
  rw [stamped_ids]

/-- Chunks that change owners. -/
def moved (source target : Id) (held : List Held) : List Held :=
  held.map fun h =>
    if h.memoryId = source then { h with memoryId := target } else h

/-- Chunks that are cut for one version. -/
def cutFor (version : String) (id : Id) (cs : List TextChunk) : List Held :=
  cs.map fun c => ⟨id, version, c⟩

theorem chunkRows_held (version : String) (id next : Id)
    (cs : List TextChunk) :
    (NormalizeMemory.chunkRows version id next cs).map MemoryChunk.held
      = cutFor version id cs := by
  induction cs generalizing next with
  | nil => rfl
  | cons c rest ih =>
    unfold NormalizeMemory.chunkRows
    rw [List.map_cons, ih]
    rfl

/-- What a run does to the item it is for. -/
inductive OwnRun (ports : Ports) (blobs : Blobs) (m : Memory)
    (rows : List Memory) (held : List Held) :
    List Memory → List Held → Prop
  | skipped (doc : ParsedDocument)
      (hdoc : NormalizeMemory.parse ports blobs m = .ok doc)
      (hhash : m.normalizedHash = some ⟨doc.text⟩)
      (hblank : heldVersions held m.id = [] → isBlank doc.text = true) :
      OwnRun ports blobs m rows held rows held
  | reused (doc : ParsedDocument)
      (hdoc : NormalizeMemory.parse ports blobs m = .ok doc)
      (previous : Memory) (hrow : previous ∈ rows)
      (hne : previous.id ≠ m.id)
      (hhash : previous.normalizedHash = some ⟨doc.text⟩)
      (hheld : heldVersions held previous.id ≠ []) :
      OwnRun ports blobs m rows held (stamped m.id doc.text rows)
        (moved previous.id m.id held)
  | chunked (doc : ParsedDocument)
      (hdoc : NormalizeMemory.parse ports blobs m = .ok doc)
      (hstale : m.normalizedHash = some ⟨doc.text⟩ →
        (∀ v ∈ heldVersions held m.id, v = ports.chunker.version) →
        heldVersions held m.id = [] ∧ isBlank doc.text = false) :
      OwnRun ports blobs m rows held (stamped m.id doc.text rows)
        (cutFor ports.chunker.version m.id (ports.chunker.chunk doc))

theorem OwnRun.ids {blobs : Blobs}
    {rows' : List Memory} {held held' : List Held}
    (h : OwnRun ports blobs m rows held rows' held') :
    rows'.map (·.id) = rows.map (·.id) := by
  cases h with
  | skipped => rfl
  | reused => exact stamped_ids _ _ _
  | chunked => exact stamped_ids _ _ _

theorem only_eq_true {version : String} {versions : List String} :
    NormalizeMemory.only version versions = true
      ↔ versions ≠ [] ∧ ∀ v ∈ versions, v = version := by
  unfold NormalizeMemory.only
  simp

theorem highestVersion_mem
    (h : NormalizeMemory.highestVersion rows = some p) : p ∈ rows := by
  induction rows generalizing p with
  | nil => cases h
  | cons m rest ih =>
    unfold NormalizeMemory.highestVersion at h
    split at h
    case h_1 =>
      cases h
      exact List.mem_cons_self
    case h_2 k hk =>
      split at h
      case isTrue =>
        cases h
        exact List.mem_cons_of_mem m (ih hk)
      case isFalse =>
        cases h
        exact List.mem_cons_self

theorem not_mem_rows (h : Versions (keyed db) db.nextId)
    (hm : m ∈ db.memories) (hi : m.item ≠ i) :
    m.id ∉ (itemRows db i).map (·.id) := by
  intro hmem
  obtain ⟨r, hr, hid⟩ := List.mem_map.mp hmem
  obtain ⟨m', hm', hi', rfl⟩ := mem_itemRows.mp hr
  rw [memory_unique h hm' hm hid] at hi'
  exact hi hi'

theorem stamped_other {text : Text}
    (h : id ∉ rows.map (·.id)) : stamped id text rows = rows := by
  unfold stamped
  refine (List.map_congr_left fun r hr => ?_).trans (List.map_id rows)
  have hne : r.id ≠ id := by
    rintro rfl
    exact h (List.mem_map_of_mem hr)
  rw [if_neg hne]
  rfl

theorem previousVersion_row
    (h : NormalizeMemory.previousVersion db m doc = some p) :
    p ∈ db.memories ∧ p.item = m.item ∧ p.id ≠ m.id
      ∧ p.normalizedHash = some ⟨doc.text⟩ := by
  obtain ⟨hp, hc⟩ := List.mem_filter.mp (highestVersion_mem h)
  simp only [Bool.and_eq_true, decide_eq_true_eq] at hc
  refine ⟨hp, ?_, hc.1.2, hc.2⟩
  rw [Memory.item, Memory.item, hc.1.1.1, hc.1.1.2]

theorem normalize_item_other {ports : Ports} {followup : Bool}
    {blobs : Blobs} {id : Id} {now : Timestamp}
    {r : Db × NormalizeMemory.Outcome} (h : Versions (keyed db) db.nextId)
    (hr : NormalizeMemory.call ports followup blobs db id now = .ok r)
    (hother : ∀ m, db.memory id = some m → m.item ≠ i) :
    ItemSame i db r.1 := by
  have hsame := normalize_same hr
  have hstamped : ∀ m ∈ db.memories, m.item ≠ i → ∀ doc : ParsedDocument,
      r.1.memories = (NormalizeMemory.documented db m.id doc).memories →
      itemRows r.1 i = itemRows db i := by
    intro m hm hi doc hmem
    rw [itemRows_documented hmem, stamped_other (not_mem_rows h hm hi)]
  obtain ⟨m, hm, ⟨heq, -⟩ | ⟨-, doc, -, -, ⟨p, hp, -, -, heq⟩ | ⟨-, heq⟩⟩⟩ :=
    NormalizeMemory.call_cases hr
  · rw [heq]
    exact .refl i db
  · have hmem := (Db.memory_mem hm).1
    have hmi := not_mem_rows h hmem (hother m hm)
    obtain ⟨hpm, hpi, -, -⟩ := previousVersion_row hp
    have hpi' := not_mem_rows h hpm (by rw [hpi]; exact hother m hm)
    have hrows := hstamped m hmem (hother m hm) doc (by rw [heq]; rfl)
    refine ⟨hsame.nextId, hrows, ?_⟩
    have hchunks : r.1.chunks
        = (NormalizeMemory.moveChunks db p.id m.id).chunks := by
      rw [heq]
      rfl
    unfold itemHeld
    rw [hrows, hchunks]
    unfold NormalizeMemory.moveChunks
    rw [List.filter_map, List.map_map]
    -- neither the old owner nor the new one is the item's
    have hof : ofRows (itemRows db i) ∘ (fun c : MemoryChunk =>
        if c.memoryId = p.id then { c with memoryId := m.id } else c)
        = ofRows (itemRows db i) := by
      funext c
      by_cases hc : c.memoryId = p.id
      · simp only [Function.comp, hc, ↓reduceIte, ofRows, hmi, hpi']
      · simp only [Function.comp, hc, ↓reduceIte]
    rw [hof]
    refine List.map_congr_left fun c hc => ?_
    obtain ⟨-, hc⟩ := List.mem_filter.mp hc
    have hne : c.memoryId ≠ p.id := by
      intro hcp
      unfold ofRows at hc
      rw [decide_eq_true_eq, hcp] at hc
      exact hpi' hc
    simp only [Function.comp, hne, ↓reduceIte]
  · have hmem := (Db.memory_mem hm).1
    have hmi := not_mem_rows h hmem (hother m hm)
    have hrows := hstamped m hmem (hother m hm) doc (by
      rw [heq, NormalizeMemory.store_memories])
    refine ⟨hsame.nextId, hrows, ?_⟩
    unfold itemHeld
    rw [hrows, heq, NormalizeMemory.store_chunks, List.filter_append,
      List.map_append, List.filter_filter]
    -- what is deleted is the other item's, and so is what is inserted
    have hnew : (NormalizeMemory.chunkRows ports.chunker.version m.id db.nextId
        (ports.chunker.chunk doc)).filter (ofRows (itemRows db i)) = [] := by
      rw [List.filter_eq_nil_iff]
      intro c hc
      unfold ofRows
      rw [decide_eq_true_eq, (NormalizeMemory.chunkRows_mem hc).1]
      exact hmi
    rw [hnew, List.map_nil, List.append_nil]
    congr 1
    refine List.filter_congr fun c _ => ?_
    cases hof : ofRows (itemRows db i) c with
    | false => rfl
    | true =>
      have hno : NormalizeMemory.ofItem
          (NormalizeMemory.documented db m.id doc)
          (m.sourceId, m.externalKey) c = false := by
        rw [ofItem_eq, itemRows_documented rfl, ofRows_stamped]
        unfold ofRows at hof ⊢
        rw [decide_eq_true_eq] at hof
        rw [decide_eq_false_iff_not]
        intro hmo
        obtain ⟨r₁, hr₁, hid₁⟩ := List.mem_map.mp hof
        obtain ⟨r₂, hr₂, hid₂⟩ := List.mem_map.mp hmo
        obtain ⟨m₁, hm₁, hi₁, rfl⟩ := mem_itemRows.mp hr₁
        obtain ⟨m₂, hm₂, hi₂, rfl⟩ := mem_itemRows.mp hr₂
        have hsame : m₁ = m₂ :=
          memory_unique h hm₁ hm₂ (hid₁.trans hid₂.symm)
        rw [hsame, hi₂] at hi₁
        exact hother m hm hi₁
      rw [hno]
      rfl

theorem adopt_item
    (hm : m ∈ db.memories) (hi : m.item = i) (hp : p ∈ db.memories)
    (hpi : p.item = i)
    (heq : db' = NormalizeMemory.documented
      (NormalizeMemory.moveChunks db p.id m.id) m.id doc) :
    itemRows db' i = stamped m.id doc.text (itemRows db i)
      ∧ itemHeld db' i = moved p.id m.id (itemHeld db i) := by
  have hrows : itemRows db' i = stamped m.id doc.text (itemRows db i) :=
    itemRows_documented (by rw [heq]; rfl)
  have hids : ∀ x ∈ db.memories, x.item = i →
      x.id ∈ (itemRows db i).map (·.id) := fun x hx hxi =>
    List.mem_map.mpr ⟨x.base, mem_itemRows.mpr ⟨x, hx, hxi, rfl⟩, rfl⟩
  have hid := hids m hm hi
  have hpid := hids p hp hpi
  have hchunks : db'.chunks
      = (NormalizeMemory.moveChunks db p.id m.id).chunks := by
    rw [heq]
    rfl
  refine ⟨hrows, ?_⟩
  unfold itemHeld moved
  rw [hrows, hchunks, ofRows_stamped]
  unfold NormalizeMemory.moveChunks
  rw [List.filter_map, List.map_map, List.map_map]
  have hof : ofRows (itemRows db i) ∘ (fun c : MemoryChunk =>
      if c.memoryId = p.id then { c with memoryId := m.id } else c)
      = ofRows (itemRows db i) := by
    funext c
    by_cases hc : c.memoryId = p.id
    · simp only [Function.comp, hc, ↓reduceIte, ofRows, hid, hpid]
    · simp only [Function.comp, hc, ↓reduceIte]
  rw [hof]
  refine List.map_congr_left fun c _ => ?_
  by_cases hc : c.memoryId = p.id <;>
    simp [Function.comp, MemoryChunk.held, MemoryChunk.span, hc]

theorem store_item {followup : Bool} {cs : List TextChunk}
    (hm : m ∈ db.memories) (hi : m.item = i)
    (heq : db' = NormalizeMemory.store ports followup db m doc cs now) :
    itemRows db' i = stamped m.id doc.text (itemRows db i)
      ∧ itemHeld db' i = cutFor ports.chunker.version m.id cs := by
  have hid : m.id ∈ (itemRows db i).map (·.id) :=
    List.mem_map.mpr ⟨m.base, mem_itemRows.mpr ⟨m, hm, hi, rfl⟩, rfl⟩
  have hrows : itemRows db' i = stamped m.id doc.text (itemRows db i) :=
    itemRows_documented (by rw [heq, NormalizeMemory.store_memories])
  refine ⟨hrows, ?_⟩
  unfold itemHeld
  rw [hrows, ofRows_stamped, heq, NormalizeMemory.store_chunks,
    List.filter_append, List.map_append, List.filter_filter]
  have hold : (db.chunks.filter fun c => ofRows (itemRows db i) c
      && !NormalizeMemory.ofItem (NormalizeMemory.documented db m.id doc)
        (m.sourceId, m.externalKey) c) = [] := by
    rw [List.filter_eq_nil_iff]
    intro c _
    rw [ofItem_eq, itemRows_documented rfl, ofRows_stamped, hi]
    simp
  have hnew : (NormalizeMemory.chunkRows ports.chunker.version m.id
      db.nextId cs).filter (ofRows (itemRows db i))
      = NormalizeMemory.chunkRows ports.chunker.version m.id db.nextId cs := by
    rw [List.filter_eq_self]
    intro c hc
    unfold ofRows
    rw [decide_eq_true_eq, (NormalizeMemory.chunkRows_mem hc).1]
    exact hid
  rw [hold, hnew, List.map_nil, List.nil_append, chunkRows_held]

theorem normalize_item_own {followup : Bool}
    {blobs : Blobs}
    {r : Db × NormalizeMemory.Outcome}
    (hr : NormalizeMemory.call ports followup blobs db id now = .ok r)
    (hm : db.memory id = some m) (hi : m.item = i) (hdel : m.deletedAt = none) :
    OwnRun ports blobs m.base (itemRows db i) (itemHeld db i)
      (itemRows r.1 i) (itemHeld r.1 i) := by
  have hmem := (Db.memory_mem hm).1
  have hversions := chunkVersions_eq hmem hi
  obtain ⟨m', hm', hcase⟩ := NormalizeMemory.call_cases hr
  obtain rfl : m = m' := Option.some.inj (hm.symm.trans hm')
  obtain ⟨heq, hsome | ⟨doc, hdoc, hcur⟩⟩ | ⟨-, doc, hdoc, hcur, hcase⟩ :=
    hcase
  · rw [hdel] at hsome
    cases hsome
  · rw [heq]
    unfold NormalizeMemory.isCurrent at hcur
    split at hcur
    case isTrue => cases hcur
    case isFalse hhash =>
      rw [ne_eq, not_not] at hhash
      refine .skipped doc hdoc hhash fun hnone => ?_
      have hnone' := hversions.trans hnone
      simpa [hnone'] using hcur
  · obtain ⟨p, hp, honly, -, heq⟩ | ⟨-, heq⟩ := hcase
    · obtain ⟨hpm, hpi, hne, hhash⟩ := previousVersion_row hp
      have hrow : p.base ∈ itemRows db i :=
        mem_itemRows.mpr ⟨p, hpm, hpi.trans hi, rfl⟩
      obtain ⟨hrows, hheld⟩ := adopt_item hmem hi hpm (hpi.trans hi) heq
      rw [hrows, hheld]
      refine @OwnRun.reused ports blobs m.base _ _ doc hdoc p.base hrow hne
        hhash ?_
      rw [Memory.base_id, ← chunkVersions_eq hpm (hpi.trans hi)]
      exact (only_eq_true.mp honly).1
    · obtain ⟨hrows, hheld⟩ := store_item hmem hi heq
      rw [hrows, hheld]
      refine @OwnRun.chunked ports blobs m.base _ _ doc hdoc
        fun hhash hall => ?_
      rw [Memory.base_id, ← hversions] at hall ⊢
      unfold NormalizeMemory.isCurrent at hcur
      have hhash' : m.normalizedHash
          = some (NormalizeMemory.normalizedHash doc.text) := hhash
      rw [if_neg (not_not.mpr hhash')] at hcur
      simp only at hcur
      split at hcur
      case isTrue hnone => exact ⟨by simpa using hnone, hcur⟩
      case isFalse hsome =>
        have htrue := only_eq_true.mpr ⟨by simpa using hsome, hall⟩
        rw [htrue] at hcur
        cases hcur

end MemoryOS
