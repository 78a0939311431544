/-
A complete replay against the live corpus.

Both are folds of the log: the live rows are `corpusOf` of all of it, the
replayed rows are the fold of the events whose item no purge names. They
agree exactly when skipping the purged items loses nothing, that is, when
no item is observed after its last purge, and the replay gets to its end
exactly when everything it does not skip can be read.
-/
import MemoryOS.Pipeline.Proofs.Chunks
import MemoryOS.Replay.Rebuild

namespace MemoryOS

open Projection Lib KeyedLog

/-- Some event of the log purges the item. -/
def Purged (log : List IngestionEvent) (i : Item) : Prop :=
  ∃ p ∈ log, p.item = i ∧ p.eventType = .itemPurged

instance (log : List IngestionEvent) (i : Item) : Decidable (Purged log i) :=
  inferInstanceAs (Decidable (∃ p ∈ log, p.item = i ∧ p.eventType = .itemPurged))

/-- An item observed after a purge of it is purged again. -/
def PurgesStand (log : List IngestionEvent) : Prop :=
  ∀ pre e post, log = pre ++ e :: post → e.eventType = .artifactObserved →
    Purged pre e.item → Purged post e.item

namespace ReplayCorpus

/-- Whether the pipeline can read what an event observed. -/
def readable (ports : Ports) (blobs : Blobs) (e : IngestionEvent) : Bool :=
  match memoryFromEvent e 0 with
  | none => false
  | some m =>
    match NormalizeMemory.parse ports blobs m with
    | .error _ => false
    | .ok _ => true

/-- What a rebuild keeps in the tables it writes. -/
structure Rebuilt (db : Db) : Prop where
  versions : Versions (keyed db) db.nextId
  chunks : ChunksOwned db

theorem rebuilt_truncated (clearCache : Bool) (db : Db) :
    Rebuilt (truncateDerived clearCache db) :=
  ⟨Versions.empty _, .empty rfl⟩

variable {ports : Ports} {blobs : Blobs} {purged : List Item}
  {now : Timestamp} {db : Db} {e : IngestionEvent}

-- ======= one event

theorem memoryFromEvent_new {m : Memory} {id : Id}
    (hm : memoryFromEvent e id = some m) :
    m.id = id ∧ m.normalizedHash = none ∧ m.deletedAt = none := by
  obtain ⟨hash, -, rfl⟩ := Option.map_eq_some_iff.mp hm
  exact ⟨rfl, rfl, rfl⟩

theorem addVersion_memory {m : Memory} (h : Versions (keyed db) m.id) :
    ∃ n, (addVersion db m).memory m.id
      = some { m with version := n, isCurrent := true } := by
  have hold : ∀ x ∈ db.memories, x.id ≠ m.id := fun x hx =>
    Nat.ne_of_lt (h.fresh (x.id, x.view) (List.mem_map_of_mem hx))
  have hfind : ∀ (rows : List Memory) (new : Memory), new.id = m.id →
      (∀ x ∈ rows, x.id ≠ m.id) →
      (rows ++ [new]).find? (fun x => decide (x.id = m.id)) = some new := by
    intro rows new hnew hrows
    rw [List.find?_append, List.find?_eq_none.mpr fun x hx => by
      simpa using hrows x hx]
    simp [hnew]
  unfold addVersion Db.memory
  split
  case h_1 => exact ⟨1, hfind _ _ rfl hold⟩
  case h_2 c hc =>
    refine ⟨c.version + 1, hfind _ _ rfl fun x hx => ?_⟩
    obtain ⟨y, hy, rfl⟩ := List.mem_map.mp hx
    have hne := hold y hy
    split <;> exact hne

theorem parse_event {m : Memory} {id : Id} (n : Nat)
    (hm : memoryFromEvent e id = some m) :
    readable ports blobs e =
      match NormalizeMemory.parse ports blobs
        { m with version := n, isCurrent := true } with
      | .error _ => false
      | .ok _ => true := by
  unfold memoryFromEvent at hm
  obtain ⟨hash, hh, rfl⟩ := Option.map_eq_some_iff.mp hm
  unfold readable memoryFromEvent
  rw [hh]
  rfl

theorem observed_rows {m : Memory} (h : Rebuilt db)
    (hm : memoryFromEvent e db.nextId = some m) :
    Rebuilt (addVersion { db with nextId := db.nextId + 1 } m)
      ∧ (e.eventType = .artifactObserved →
        views (addVersion { db with nextId := db.nextId + 1 } m)
          = Projection.apply (views db) e)
      ∧ ∀ c ∈ (addVersion { db with nextId := db.nextId + 1 } m).chunks,
          c.memoryId ≠ m.id := by
  obtain ⟨hash, hh, -⟩ := Option.map_eq_some_iff.mp hm
  have hid : m.id = db.nextId := (memoryFromEvent_new hm).1
  have hv : Versions (keyed { db with nextId := db.nextId + 1 }) m.id := by
    rw [hid]
    exact h.versions
  refine ⟨⟨?_, ?_⟩, fun ht => ?_, fun c hc => ?_⟩
  · have hv' := addVersion_versions hv
    rw [hid] at hv'
    rwa [addVersion_nextId]
  · refine h.chunks.keep (addVersion_chunks _ _) ?_ ?_
    · rw [addVersion_nextId]
      exact Nat.le_succ _
    · rintro k ⟨x, hx, rfl⟩
      unfold addVersion
      split
      case h_1 => exact ⟨x, List.mem_append_left _ hx, rfl⟩
      case h_2 c hc =>
        refine ⟨_, List.mem_append_left _ (List.mem_map_of_mem hx), ?_⟩
        split <;> rfl
  · rw [addVersion_views hv hh (by rw [hid]; exact hm)]
    unfold Projection.apply
    simp only [ht, hh]
    rfl
  · rw [addVersion_chunks] at hc
    obtain ⟨x, hx, hxc⟩ := h.chunks.owned c hc
    rw [← hxc, hid]
    exact Nat.ne_of_lt
      (h.versions.fresh (x.id, x.view) (List.mem_map_of_mem hx))

variable (ports blobs now)

theorem rebuildEvent_purged (hp : e.item ∈ purged) :
    rebuildEvent ports blobs purged now db e = (db, none) := by
  unfold rebuildEvent
  rw [if_pos hp]

theorem rebuildEvent_observed (h : Rebuilt db) (hp : e.item ∉ purged)
    (ht : e.eventType = .artifactObserved)
    (hread : readable ports blobs e = true) :
    ∃ db', rebuildEvent ports blobs purged now db e = (db', none)
      ∧ Rebuilt db' ∧ views db' = Projection.apply (views db) e := by
  unfold rebuildEvent
  simp only [if_neg hp, ht]
  cases hm : memoryFromEvent e db.nextId with
  | none =>
    unfold memoryFromEvent at hm
    rw [Option.map_eq_none_iff] at hm
    simp [readable, memoryFromEvent, hm] at hread
  | some m =>
    simp only
    obtain ⟨hrows, hviews, hnone⟩ := observed_rows h hm
    have hid : m.id = db.nextId := (memoryFromEvent_new hm).1
    obtain ⟨n, hmem⟩ := @addVersion_memory
      { db with nextId := db.nextId + 1 } m (by rw [hid]; exact h.versions)
    generalize addVersion { db with nextId := db.nextId + 1 } m = db₁
      at hrows hviews hnone hmem ⊢
    have hparse := @parse_event ports blobs e m _ n hm
    rw [hread] at hparse
    cases hdoc : NormalizeMemory.parse ports blobs
        { m with version := n, isCurrent := true } with
    | error f =>
      rw [hdoc] at hparse
      cases hparse
    | ok doc =>
      have hdel : m.deletedAt = none := (memoryFromEvent_new hm).2.2
      obtain ⟨r, hr⟩ := NormalizeMemory.call_ok false now hmem hdel
        hdoc hnone
      have hsame := normalize_same hr
      have hthere : (r.1.memory m.id).isSome = true := by
        rw [memory_isSome_iff, hsame.keyed, ← memory_isSome_iff, hmem]
        rfl
      obtain ⟨m', hm'⟩ := Option.isSome_iff_exists.mp hthere
      obtain ⟨r', hr'⟩ := EmbedMemory.call_ok ports.embedder false now hm'
      have hsame' := hsame.trans (embed_same hr')
      refine ⟨r'.1, ?_, ⟨hsame'.versions hrows.versions, ?_⟩, ?_⟩
      · simp [normalizeOne, embedOne, Progress.andThen, hr, hr']
      · exact EmbedMemory.call_owned
          (NormalizeMemory.call_owned hrows.chunks hr) hr'
      · rw [hsame'.views, hviews ht]

theorem rebuildEvent_unreadable (h : Rebuilt db) (hp : e.item ∉ purged)
    (ht : e.eventType = .artifactObserved)
    (hread : readable ports blobs e = false) :
    (rebuildEvent ports blobs purged now db e).2 ≠ none := by
  unfold rebuildEvent
  simp only [if_neg hp, ht]
  cases hm : memoryFromEvent e db.nextId with
  | none => simp
  | some m =>
    simp only
    have hid : m.id = db.nextId := (memoryFromEvent_new hm).1
    have hdel : m.deletedAt = none := (memoryFromEvent_new hm).2.2
    obtain ⟨n, hmem⟩ := @addVersion_memory
      { db with nextId := db.nextId + 1 } m (by rw [hid]; exact h.versions)
    have hparse := @parse_event ports blobs e m _ n hm
    rw [hread] at hparse
    cases hdoc : NormalizeMemory.parse ports blobs
        { m with version := n, isCurrent := true } with
    | ok doc =>
      rw [hdoc] at hparse
      cases hparse
    | error f =>
      have herr := NormalizeMemory.call_error false now hmem hdel hdoc
      simp [normalizeOne, Progress.andThen, herr]

theorem rebuildEvent_deleted (h : Rebuilt db) (hp : e.item ∉ purged)
    (ht : e.eventType = .itemDeleted) :
    ∃ db', rebuildEvent ports blobs purged now db e = (db', none)
      ∧ Rebuilt db' ∧ views db' = Projection.apply (views db) e := by
  unfold rebuildEvent
  simp only [if_neg hp, ht]
  cases hc : currentRow db e.sourceId e.externalKey with
  | none => exact ⟨db, rfl, h, (deleted_views_none hc ht).symm⟩
  | some c =>
    refine ⟨_, rfl, ⟨tombstoneRow_versions h.versions, ?_⟩,
      tombstoneRow_views h.versions hc ht⟩
    refine h.chunks.keep rfl (Nat.le_refl _) ?_
    rintro k ⟨x, hx, rfl⟩
    refine ⟨_, List.mem_map_of_mem hx, ?_⟩
    split <;> rfl

-- ======== the fold

/-- What a log the rebuild can apply looks like: a purge of it is in the
skipped set, and what is not skipped can be read. -/
structure Rebuildable (ports : Ports) (blobs : Blobs) (purged : List Item)
    (log : List IngestionEvent) : Prop where
  purges : ∀ e ∈ log, e.eventType = .itemPurged → e.item ∈ purged
  reads : ∀ e ∈ log, e.eventType = .artifactObserved → e.item ∉ purged →
    readable ports blobs e = true

theorem rebuild_fold {log : List IngestionEvent} (h : Rebuilt db)
    (hlog : Rebuildable ports blobs purged log) :
    ∃ db', forEach (rebuildEvent ports blobs purged now) db log = (db', none)
      ∧ Rebuilt db'
      ∧ views db' = (unskipped IngestionEvent.item
          (fun i => decide (i ∈ purged)) log).foldl Projection.apply
            (views db) := by
  induction log generalizing db with
  | nil => exact ⟨db, rfl, h, rfl⟩
  | cons e rest ih =>
    have hrest : Rebuildable ports blobs purged rest :=
      ⟨fun x hx => hlog.purges x (List.mem_cons_of_mem e hx),
        fun x hx => hlog.reads x (List.mem_cons_of_mem e hx)⟩
    by_cases hp : e.item ∈ purged
    · obtain ⟨db', hrun, h', hviews⟩ := ih h hrest
      refine ⟨db', ?_, h', ?_⟩
      · rw [forEach_cons (rebuildEvent_purged ports blobs now hp), hrun]
      · rw [hviews]
        simp [unskipped, hp]
    · have hstep : ∃ db₁, rebuildEvent ports blobs purged now db e
          = (db₁, none) ∧ Rebuilt db₁
          ∧ views db₁ = Projection.apply (views db) e := by
        cases ht : e.eventType with
        | artifactObserved =>
          exact rebuildEvent_observed ports blobs now h hp ht
            (hlog.reads e List.mem_cons_self ht hp)
        | itemDeleted => exact rebuildEvent_deleted ports blobs now h hp ht
        | itemPurged =>
          exact absurd (hlog.purges e List.mem_cons_self ht) hp
      obtain ⟨db₁, hrun₁, h₁, hviews₁⟩ := hstep
      obtain ⟨db', hrun, h', hviews⟩ := ih h₁ hrest
      refine ⟨db', ?_, h', ?_⟩
      · rw [forEach_cons hrun₁, hrun]
      · rw [hviews, hviews₁]
        simp [unskipped, hp]

theorem rebuild_reads {log : List IngestionEvent} (h : Rebuilt db)
    (hpurges : ∀ e ∈ log, e.eventType = .itemPurged → e.item ∈ purged)
    (hend : (forEach (rebuildEvent ports blobs purged now) db log).2 = none) :
    Rebuildable ports blobs purged log := by
  refine ⟨hpurges, ?_⟩
  induction log generalizing db with
  | nil =>
    intro e he
    cases he
  | cons e rest ih =>
    have hrest : ∀ x ∈ rest, x.eventType = .itemPurged → x.item ∈ purged :=
      fun x hx => hpurges x (List.mem_cons_of_mem e hx)
    -- the first event ended well, and left what a rebuild keeps
    have hhead : (e.eventType = .artifactObserved → e.item ∉ purged →
        readable ports blobs e = true) ∧ ∃ db₁, rebuildEvent ports blobs
          purged now db e = (db₁, none) ∧ Rebuilt db₁ := by
      by_cases hp : e.item ∈ purged
      · exact ⟨fun _ hn => absurd hp hn, db,
          rebuildEvent_purged ports blobs now hp, h⟩
      · cases ht : e.eventType with
        | artifactObserved =>
          cases hr : readable ports blobs e with
          | true =>
            obtain ⟨db₁, hrun, h₁, -⟩ :=
              rebuildEvent_observed ports blobs now h hp ht hr
            exact ⟨fun _ _ => rfl, db₁, hrun, h₁⟩
          | false =>
            exact absurd (forEach_head hend)
              (rebuildEvent_unreadable ports blobs now h hp ht hr)
        | itemDeleted =>
          obtain ⟨db₁, hrun, h₁, -⟩ :=
            rebuildEvent_deleted ports blobs now h hp ht
          exact ⟨nofun, db₁, hrun, h₁⟩
        | itemPurged =>
          exact absurd (hpurges e List.mem_cons_self ht) hp
    obtain ⟨hread, db₁, hrun, h₁⟩ := hhead
    rw [forEach_cons hrun] at hend
    intro x hx
    rcases List.mem_cons.mp hx with rfl | hx
    · exact hread
    · exact ih h₁ hrest hend x hx

end ReplayCorpus

-- ====== skipping purges

theorem purgesStand_iff {log : List IngestionEvent}
    (hcontent : ∀ e ∈ log, e.eventType = .artifactObserved →
      e.contentHash.isSome) :
    PurgesStand log ↔ ∀ i, Purged log i →
      (eventsOf IngestionEvent.item i log).foldl Projection.apply [] = [] := by
  have hnil : ∀ i, (eventsOf IngestionEvent.item i log).foldl
      Projection.apply [] = [] ↔ ∀ pre e post, log = pre ++ e :: post →
        e.item = i → e.eventType = .artifactObserved → Purged post i := by
    intro i
    have hmem : ∀ e ∈ eventsOf IngestionEvent.item i log,
        e ∈ log ∧ e.item = i := by
      intro e he
      obtain ⟨he, hi⟩ := List.mem_filter.mp he
      exact ⟨he, by simpa using hi⟩
    rw [foldl_eq_nil_iff (fun e he => (hmem e he).2)
      (fun e he => hcontent e (hmem e he).1)]
    have hsplit := @eventsOf_split_iff IngestionEvent Item _
      IngestionEvent.item i log
      (fun e post => e.eventType = .artifactObserved → Purged post i) ?_
    · rw [← hsplit]
      refine forall_congr' fun pre => forall_congr' fun e =>
        forall_congr' fun post => forall_congr' fun hlog => ?_
      -- every event after the split is the item's
      have hpost : ∀ p ∈ post, p.item = i := fun p hp =>
        (hmem p (by rw [hlog]; simp [hp])).2
      constructor
      · rintro h hobs
        obtain ⟨p, hp, hpt⟩ := h hobs
        exact ⟨p, hp, hpost p hp, hpt⟩
      · rintro h hobs
        obtain ⟨p, hp, -, hpt⟩ := h hobs
        exact ⟨p, hp, hpt⟩
    · intro e post _
      have hiff : Purged (eventsOf IngestionEvent.item i post) i
          ↔ Purged post i := by
        unfold Purged eventsOf
        simp only [List.mem_filter, decide_eq_true_eq]
        constructor
        · rintro ⟨p, ⟨hp, hi⟩, h⟩
          exact ⟨p, hp, h⟩
        · rintro ⟨p, hp, hi, h⟩
          exact ⟨p, ⟨hp, hi⟩, hi, h⟩
      rw [hiff]
  constructor
  · intro h i hi
    rw [hnil]
    rintro pre e post hlog rfl hobs
    obtain ⟨p, hp, hpi, hpt⟩ := hi
    rw [hlog, List.mem_append, List.mem_cons] at hp
    rcases hp with hp | rfl | hp
    · exact h pre e post hlog hobs ⟨p, hp, hpi, hpt⟩
    · rw [hobs] at hpt
      cases hpt
    · exact ⟨p, hp, hpi, hpt⟩
  · rintro h pre e post hlog hobs ⟨p, hp, hpi, hpt⟩
    have hi : Purged log e.item :=
      ⟨p, by rw [hlog]; exact List.mem_append_left _ hp, hpi, hpt⟩
    exact (hnil e.item).mp (h e.item hi) pre e post hlog rfl hobs

namespace ReplayCorpus

/-- The bytes of every item that is not purged are there. -/
def BlobsPresent (s : Store) : Prop :=
  ∀ e ∈ s.db.events, ¬ Purged s.db.events e.item →
    ∀ hash ∈ e.contentHash, s.blobs.holds hash = true

/-- Whatever was observed of an item that is not purged can be read. -/
def LogReadable (ports : Ports) (s : Store) : Prop :=
  ∀ e ∈ s.db.events, e.eventType = .artifactObserved →
    ¬ Purged s.db.events e.item → readable ports s.blobs e = true

/-- A complete replay ends, and with the rows the live system holds. -/
def ReplaysFaithfully (ports : Ports) (clearCache : Bool) (now : Timestamp)
    (s : Store) : Prop :=
  ∃ db', inPlace ports s.blobs {} clearCache now s.db = (db', none)
    ∧ (views db').Perm (views s.db)

section Complete

variable {s : Store}

theorem streamEvents_all {db : Db} (h : ∀ e ∈ db.events, 0 < e.seq) :
    streamEvents db {} none = db.events := by
  unfold streamEvents
  rw [List.filter_eq_self]
  intro e he
  simpa [inScope] using h e he

theorem mem_purgedKeys_iff {db : Db} (h : ∀ e ∈ db.events, 0 < e.seq)
    (i : Item) : i ∈ purgedKeys db {} none ↔ Purged db.events i := by
  unfold purgedKeys Purged
  rw [streamEvents_all h]
  simp only [List.mem_map, List.mem_filter, decide_eq_true_eq]
  constructor
  · rintro ⟨p, ⟨hp, ht⟩, hi⟩
    exact ⟨p, hp, hi, ht⟩
  · rintro ⟨p, hp, hi, ht⟩
    exact ⟨p, ⟨hp, ht⟩, hi⟩

theorem inPlace_eq (ports : Ports) (blobs : Blobs) (clearCache : Bool)
    (now : Timestamp) {db : Db} (h : ∀ e ∈ db.events, 0 < e.seq) :
    inPlace ports blobs {} clearCache now db
      = if preflightBlobs blobs db {} none then
          forEach (rebuildEvent ports blobs (purgedKeys db {} none) now)
            (truncateDerived clearCache db) db.events
        else (db, some .missingBlob) := by
  have hstream : streamEvents (truncateDerived clearCache db) {} none
      = db.events := by
    rw [← streamEvents_all h]
    rfl
  have hmemories : ({} : ReplayScope).rebuildsMemories = true := rfl
  unfold inPlace resolveSource
  cases hpre : preflightBlobs blobs db {} none with
  | false =>
    simp only [hpre, hmemories, Bool.not_false, Bool.and_true,
      Bool.false_eq_true, ↓reduceIte]
  | true =>
    simp only [hpre, Bool.not_true, Bool.and_false, Bool.false_eq_true,
      ↓reduceIte]
    show rebuild ports blobs {} none now (truncateDerived clearCache db) = _
    unfold rebuild
    rw [hstream]
    rfl

theorem preflight_all (h : ∀ e ∈ s.db.events, 0 < e.seq)
    (hblobs : BlobsPresent s) :
    preflightBlobs s.blobs s.db {} none = true := by
  unfold preflightBlobs
  rw [streamEvents_all h, List.all_eq_true]
  intro e he
  rw [Bool.or_eq_true, decide_eq_true_eq, mem_purgedKeys_iff h]
  by_cases hp : Purged s.db.events e.item
  · exact .inl hp
  · refine .inr ?_
    cases hh : e.contentHash with
    | none => rfl
    | some hash => exact hblobs e he hp hash hh

theorem inPlace_all (ports : Ports) (clearCache : Bool) (now : Timestamp)
    (h : ∀ e ∈ s.db.events, 0 < e.seq) (hblobs : BlobsPresent s) :
    inPlace ports s.blobs {} clearCache now s.db
      = forEach (rebuildEvent ports s.blobs (purgedKeys s.db {} none) now)
          (truncateDerived clearCache s.db) s.db.events := by
  rw [inPlace_eq ports s.blobs clearCache now h, preflight_all h hblobs,
    if_pos rfl]

theorem replaysFaithfully_iff (ports : Ports) (clearCache : Bool)
    (now : Timestamp) (h : Faithful s.db) (hblobs : BlobsPresent s) :
    ReplaysFaithfully ports clearCache now s
      ↔ PurgesStand s.db.events ∧ LogReadable ports s := by
  have hpurges : ∀ e ∈ s.db.events, e.eventType = .itemPurged →
      e.item ∈ purgedKeys s.db {} none := fun e he ht =>
    (mem_purgedKeys_iff h.positive e.item).mpr ⟨e, he, rfl, ht⟩
  have hstand : ((unskipped IngestionEvent.item
      (fun i => decide (i ∈ purgedKeys s.db {} none)) s.db.events).foldl
        Projection.apply []).Perm (views s.db)
      ↔ PurgesStand s.db.events := by
    rw [h.folded, purgesStand_iff h.content]
    refine (apply_local.unskipped_perm_iff _ _).trans
      (forall_congr' fun i => ?_)
    rw [decide_eq_true_eq, mem_purgedKeys_iff h.positive]
  have hstart := rebuilt_truncated clearCache s.db
  unfold ReplaysFaithfully
  rw [inPlace_all ports clearCache now h.positive hblobs]
  constructor
  · rintro ⟨db', hrun, hperm⟩
    have hlog := rebuild_reads ports s.blobs now hstart hpurges
      (congrArg Prod.snd hrun)
    obtain ⟨db₁, hrun₁, -, hviews⟩ :=
      rebuild_fold ports s.blobs now hstart hlog
    rw [hrun₁] at hrun
    cases hrun
    rw [hviews] at hperm
    refine ⟨hstand.mp hperm, fun e he ht hp => hlog.reads e he ht ?_⟩
    rwa [mem_purgedKeys_iff h.positive]
  · rintro ⟨hstands, hread⟩
    have hlog : Rebuildable ports s.blobs (purgedKeys s.db {} none)
        s.db.events :=
      ⟨hpurges, fun e he ht hp =>
        hread e he ht (by rwa [← mem_purgedKeys_iff h.positive])⟩
    obtain ⟨db', hrun, -, hviews⟩ :=
      rebuild_fold ports s.blobs now hstart hlog
    refine ⟨db', hrun, ?_⟩
    rw [hviews]
    exact hstand.mpr hstands

end Complete

/-- After any run of operations, a complete replay ends with the rows the
live system holds exactly when no item is observed after its last purge
and everything observed of the other items can be read. -/
theorem replay_faithful_iff (ports : Ports) (sources : List Source)
    (ops : List Live.Op) (clearCache : Bool) (now : Timestamp)
    (hblobs : BlobsPresent (Live.run ports sources ops)) :
    ReplaysFaithfully ports clearCache now (Live.run ports sources ops)
      ↔ PurgesStand (Live.run ports sources ops).db.events
        ∧ LogReadable ports (Live.run ports sources ops) :=
  replaysFaithfully_iff ports clearCache now (run_faithful ports sources ops)
    hblobs

-- ------ observed after its purge

/-- Two notes of one source; the first is edited and deleted, the second
is purged. -/
def purgedNote : List Live.Op := [
  .ingest 1 (Live.note "a.md" "h1" [104, 105]) 0,
  .ingest 1 (Live.note "b.md" "h2" [98, 121, 101]) 1,
  .ingest 1 (Live.note "a.md" "h3" [104, 105, 33]) 2,
  .tombstone 7 3,
  .purge [(⟨1, "b.md"⟩, 4)]]

theorem replay_faithful_iff_purged :
    ReplaysFaithfully .plain false 9 (Live.run .plain [] purgedNote)
      ↔ PurgesStand (Live.run .plain [] purgedNote).db.events
        ∧ LogReadable .plain (Live.run .plain [] purgedNote) :=
  replay_faithful_iff .plain [] purgedNote false 9 (by
    unfold BlobsPresent
    decide +kernel)

/-- A note purged and then written again. -/
def rewrittenNote : List Live.Op := [
  .ingest 1 (Live.note "a.md" "h1" [104, 105]) 0,
  .purge [(⟨1, "a.md"⟩, 1)],
  .ingest 1 (Live.note "a.md" "h2" [98, 121, 101]) 2]

/-- The note is live, its bytes are there, and a complete replay loses
it. -/
theorem replay_not_faithful :
    ¬ ∀ (ports : Ports) (sources : List Source) (ops : List Live.Op)
        (clearCache : Bool) (now : Timestamp),
      BlobsPresent (Live.run ports sources ops) →
      (∀ m ∈ (Live.run ports sources ops).db.memories,
        (Live.run ports sources ops).blobs.holds m.contentHash = true) →
      ReplaysFaithfully ports clearCache now
        (Live.run ports sources ops) := by
  intro hclaim
  obtain ⟨db', hrun, hperm⟩ := hclaim .plain [] rewrittenNote false 9
    (by unfold BlobsPresent; decide +kernel) (by decide +kernel)
  have hreplayed : views (inPlace .plain (Live.run .plain [] rewrittenNote).blobs
      {} false 9 (Live.run .plain [] rewrittenNote).db).1 = [] := by
    decide +kernel
  have hlive : (views (Live.run .plain [] rewrittenNote).db).length = 1 := by
    decide +kernel
  rw [hrun] at hreplayed
  rw [← hperm.length_eq, hreplayed] at hlive
  cases hlive

end ReplayCorpus

end MemoryOS
