/-
What a partial replay clears, and whether it writes it back.

`_clear` picks the rows of a source without looking at `after_seq`, and
the rebuild reads the log from there on. So a rebuild gives back what it
cleared exactly when, for every item of the source that has rows, the log
up to `after_seq` leaves none and no purge comes later; a downstream stage
exactly when a document cut anew has the chunks it had.
-/
import MemoryOS.Replay.Proofs.Downstream

namespace MemoryOS.ReplayCorpus

open Projection Lib KeyedLog

/-- An item that a scope has no event of. -/
def OutOfReach (db : Db) (scope : ReplayScope) (sourceId : Option Id)
    (i : Item) : Prop :=
  inReach sourceId i = false
    ∨ ∀ e ∈ db.events, e.item = i → e.seq ≤ scope.afterSeq

/-- What was cleared has been written back, and the rest is as it was. -/
structure WritesBack (scope : ReplayScope) (sourceId : Option Id)
    (db cleared db' : Db) : Prop where
  rows : ∀ m ∈ db.memories, m ∉ cleared.memories → m.view ∈ views db'
  chunks : ∀ c ∈ db.chunks, c ∉ cleared.chunks →
    ∀ k ∈ markOf db c, k ∈ marks db'
  /-- The vectors `--stage embed` clears are written back as well. -/
  vectors : scope.stage = .embed → ∀ c ∈ db'.chunks,
    chunkOfReprocessed db' sourceId c = true → c.embedding.isSome = true
  outside : ∀ i, OutOfReach db scope sourceId i → Unchanged i db db'

/-- A replay gets to its end, and has written back what it cleared. -/
def ClearsWhatItRebuilds (ports : Ports) (s : Store) (scope : ReplayScope)
    (sourceId : Option Id) (clearCache : Bool) (now : Timestamp) : Prop :=
  ∃ db', inPlace ports s.blobs scope clearCache now s.db = (db', none)
    ∧ WritesBack scope sourceId s.db (clear scope sourceId clearCache s.db) db'

/-- The log up to where a scope starts. -/
def earlier (db : Db) (scope : ReplayScope) : List IngestionEvent :=
  db.events.filter fun e => decide (e.seq ≤ scope.afterSeq)

/-- What a rebuild reads gives back what it clears. -/
structure RebuildsAll (ports : Ports) (s : Store) (scope : ReplayScope)
    (sourceId : Option Id) : Prop where
  /-- An item that has rows had none at `after_seq`, and is not purged
  later on. -/
  late : ∀ m ∈ s.db.memories, inReach sourceId m.item = true →
    m.item ∉ purgedKeys s.db scope sourceId
      ∧ ∀ v ∈ corpusOf (earlier s.db scope), item v ≠ m.item
  reads : ∀ e ∈ streamEvents s.db scope sourceId,
    e.eventType = .artifactObserved →
    e.item ∉ purgedKeys s.db scope sourceId →
    readable ports s.blobs e = true
  /-- A chunk is the current version's, and one that version gets when
  the versions are run in the order of the log. -/
  cuts : ∀ m ∈ s.db.memories, inReach sourceId m.item = true →
    ∀ c ∈ s.db.chunks, c.memoryId = m.id → m.isCurrent = true
      ∧ c.span ∈ newestCut ports (docsOf ports s.blobs (eventsOf
        IngestionEvent.item m.item (streamEvents s.db scope sourceId)))

/-- Cutting the current versions anew gives back what was cut. -/
structure RecutsAll (ports : Ports) (s : Store) (scope : ReplayScope)
    (sourceId : Option Id) : Prop where
  reads : ∀ m ∈ s.db.memories, reprocessed sourceId m = true →
    ∃ doc, NormalizeMemory.parse ports s.blobs m = .ok doc
  cuts : ∀ m ∈ s.db.memories, reprocessed sourceId m = true →
    ∀ doc, NormalizeMemory.parse ports s.blobs m = .ok doc →
    ∀ c ∈ s.db.chunks, c.memoryId = m.id → c.span ∈ ports.chunker.chunk doc
  /-- Of an item with no later event, the chunks are the current version's
  and just these, or there is no text to cut and it was run before. -/
  earlier : ∀ m ∈ s.db.memories, reprocessed sourceId m = true →
    ∀ doc, NormalizeMemory.parse ports s.blobs m = .ok doc →
    (∀ e ∈ s.db.events, e.item = m.item → e.seq ≤ scope.afterSeq) →
    itemHeld s.db m.item
        = cutFor ports.chunker.version m.id (ports.chunker.chunk doc)
      ∨ m.normalizedHash = some ⟨doc.text⟩ ∧ isBlank doc.text = true
        ∧ ∀ c ∈ s.db.chunks, c.memoryId ≠ m.id

/-- The condition, stage by stage. -/
def GivesBack (ports : Ports) (s : Store) (scope : ReplayScope)
    (sourceId : Option Id) : Prop :=
  match scope.stage with
  | .all => RebuildsAll ports s scope sourceId
  | .normalize => RecutsAll ports s scope sourceId
  | .embed => True

variable {ports : Ports} {s : Store} {scope : ReplayScope}
  {sourceId : Option Id} {clearCache : Bool} {now : Timestamp} {db db' : Db}
  {i : Item} {docs : List ParsedDocument}

-- ====== rebuilding

theorem filter_seq_split {log : List IngestionEvent} (k : Nat)
    (h : log.Pairwise fun e e' => e.seq < e'.seq) :
    log = log.filter (fun e => decide (e.seq ≤ k))
      ++ log.filter fun e => decide (k < e.seq) := by
  induction log with
  | nil => rfl
  | cons e rest ih =>
    obtain ⟨hhead, htail⟩ := List.pairwise_cons.mp h
    by_cases he : e.seq ≤ k
    · rw [List.filter_cons, if_pos (decide_eq_true he), List.filter_cons,
        if_neg (by simpa using he), List.cons_append, ← ih htail]
    · -- nothing after it is early
      have hnone : (e :: rest).filter (fun x => decide (x.seq ≤ k)) = [] := by
        rw [List.filter_eq_nil_iff]
        intro x hx
        rw [decide_eq_true_eq, not_le]
        rcases List.mem_cons.mp hx with rfl | hx
        · exact not_le.mp he
        · exact (not_le.mp he).trans (hhead x hx)
      rw [hnone, List.nil_append, eq_comm, List.filter_eq_self]
      intro x hx
      rw [decide_eq_true_eq]
      rcases List.mem_cons.mp hx with rfl | hx
      · exact not_le.mp he
      · exact (not_le.mp he).trans (hhead x hx)

theorem eventsOf_split (h : db.events.Pairwise fun e e' => e.seq < e'.seq)
    (hi : inReach sourceId i = true) :
    eventsOf IngestionEvent.item i db.events
      = eventsOf IngestionEvent.item i (earlier db scope)
        ++ eventsOf IngestionEvent.item i
          (streamEvents db scope sourceId) := by
  have hstream : eventsOf IngestionEvent.item i
      (streamEvents db scope sourceId)
      = eventsOf IngestionEvent.item i
        (db.events.filter fun e => decide (scope.afterSeq < e.seq)) := by
    unfold eventsOf streamEvents
    rw [List.filter_filter, List.filter_filter]
    refine List.filter_congr fun e _ => ?_
    by_cases he : e.item = i
    · have hin : inReach sourceId e.item = true := he ▸ hi
      show (decide (e.item = i) && (_ && inReach sourceId e.item)) = _
      rw [hin, Bool.and_true]
    · simp [he]
  rw [hstream]
  unfold eventsOf earlier
  rw [← List.filter_append, ← filter_seq_split scope.afterSeq h]

theorem Recut.mem_marks (h : Recut ports db i docs)
    (hv : Versions (keyed db) db.nextId) {v : MemoryView} {version : String}
    {span : TextChunk} (hi : item v = i) :
    (⟨v, version, span⟩ : Mark) ∈ marks db ↔
      v ∈ rowsOf item i (views db) ∧ v.isCurrent = true
        ∧ version = ports.chunker.version ∧ span ∈ newestCut ports docs := by
  have hheld := h.held
  have hnum := h.numbered
  -- the rows and their views, with the newest last
  have hviews : rowsOf item i (views db)
      = (db.memories.filter fun m => decide (m.item = i)).map Memory.view := by
    unfold rowsOf views
    rw [List.filter_map]
    rfl
  have hrows : (itemRows db i).map (·.id)
      = (db.memories.filter fun m => decide (m.item = i)).map (·.id) := by
    unfold itemRows
    rw [List.map_map]
    rfl
  rw [hrows] at hheld
  rw [ReplayCorpus.mem_marks hv]
  rcases List.eq_nil_or_concat
    (db.memories.filter fun m => decide (m.item = i)) with hnil | ⟨init, l, hl⟩
  · rw [hviews, hnil]
    constructor
    · rintro ⟨m, hm, x, -, -, heq⟩
      rw [Mark.mk.injEq] at heq
      obtain ⟨rfl, -, -⟩ := heq
      exact absurd (decide_eq_true hi) (List.filter_eq_nil_iff.mp hnil m hm)
    · rintro ⟨hmem, -⟩
      cases hmem
  · rw [List.concat_eq_append] at hl
    rw [hl, List.map_append, List.map_cons, List.map_nil,
      List.getLast?_concat] at hheld
    have hlmem : l ∈ db.memories.filter fun m => decide (m.item = i) := by
      rw [hl]
      exact List.mem_append_right _ List.mem_cons_self
    obtain ⟨hldb, hli⟩ := List.mem_filter.mp hlmem
    rw [decide_eq_true_eq] at hli
    have hlast : l.isCurrent = true := by
      rw [hviews, hl, List.map_append, List.map_cons, List.map_nil] at hnum
      exact hnum.last_current
    have hlv : l.view ∈ rowsOf item i (views db) := by
      rw [hviews]
      exact List.mem_map_of_mem hlmem
    constructor
    · rintro ⟨m, hm, x, hx, hid, heq⟩
      rw [Mark.mk.injEq] at heq
      obtain ⟨rfl, rfl, rfl⟩ := heq
      have hmi : m.item = i := hi
      rw [hmi, hheld] at hx
      obtain ⟨c, hc, rfl⟩ := List.mem_map.mp hx
      rw [← memory_unique hv hldb hm hid]
      exact ⟨hlv, hlast, rfl, hc⟩
    · rintro ⟨hmem, hcur, rfl, hspan⟩
      refine ⟨l, hldb, ⟨l.id, ports.chunker.version, span⟩, ?_, rfl, ?_⟩
      · rw [hli, hheld]
        exact List.mem_map_of_mem hspan
      · rw [hnum.current_unique hmem hlv hcur hlast]

theorem eventsOf_key {log : List IngestionEvent} {e : IngestionEvent}
    (he : e ∈ eventsOf IngestionEvent.item i log) : e ∈ log ∧ e.item = i := by
  obtain ⟨he, hi⟩ := List.mem_filter.mp he
  exact ⟨he, of_decide_eq_true hi⟩

theorem rowsOf_corpusOf (log : List IngestionEvent) :
    rowsOf item i (corpusOf log)
      = (eventsOf IngestionEvent.item i log).foldl Projection.apply [] := by
  unfold corpusOf
  rw [apply_local.rowsOf_foldl]
  rfl

theorem purge_skipped {e : IngestionEvent}
    (he : e ∈ streamEvents db scope sourceId)
    (ht : e.eventType = .itemPurged) :
    e.item ∈ purgedKeys db scope sourceId :=
  List.mem_map.mpr ⟨e, List.mem_filter.mpr ⟨he, decide_eq_true ht⟩, rfl⟩

theorem rebuild_clear (ports : Ports) (blobs : Blobs) (now : Timestamp) :
    rebuild ports blobs scope sourceId now (clear scope sourceId clearCache db)
      = forEach (rebuildEvent ports blobs (purgedKeys db scope sourceId) now)
        (clear scope sourceId clearCache db)
        (streamEvents db scope sourceId) := by
  unfold rebuild purgedKeys streamEvents
  rw [clear_events]

section All

variable (hf : Faithful s.db) (hc : ChunksOwned s.db)
  (hstage : scope.stage = .all)
  (hrun : forEach (rebuildEvent ports s.blobs
      (purgedKeys s.db scope sourceId) now)
    (clear scope sourceId clearCache s.db)
    (streamEvents s.db scope sourceId) = (db', none))

include hf hc hstage hrun

theorem rebuilt_rows (hi : inReach sourceId i = true) :
    rowsOf item i (views db') = if i ∈ purgedKeys s.db scope sourceId then []
      else (eventsOf IngestionEvent.item i
        (streamEvents s.db scope sourceId)).foldl Projection.apply [] := by
  have hb := @clear_rebuilt s.db scope sourceId clearCache hf.versions hc hstage
  have hlog := rebuild_reads ports s.blobs now hb
    (fun e he ht => purge_skipped he ht) (congrArg Prod.snd hrun)
  obtain ⟨db₁, hrun₁, -, hviews⟩ := rebuild_fold ports s.blobs now hb hlog
  rw [hrun] at hrun₁
  cases hrun₁
  have hnil : rowsOf item i (views (clear scope sourceId clearCache s.db))
      = [] := itemRows_eq_nil_iff.mp (clear_gone hstage hi)
  rw [hviews, apply_local.rowsOf_foldl, hnil, eventsOf_unskipped]
  by_cases hp : i ∈ purgedKeys s.db scope sourceId
  · rw [if_pos hp, if_pos (decide_eq_true hp)]
    rfl
  · rw [if_neg hp, if_neg (by simpa using hp)]

theorem rebuilt_rows_iff :
    (∀ m ∈ s.db.memories, inReach sourceId m.item = true →
        m.view ∈ views db')
      ↔ ∀ m ∈ s.db.memories, inReach sourceId m.item = true →
        m.item ∉ purgedKeys s.db scope sourceId
          ∧ ∀ v ∈ corpusOf (earlier s.db scope), item v ≠ m.item := by
  have hrows : ∀ i, inReach sourceId i = true →
      i ∉ purgedKeys s.db scope sourceId →
      ((∀ v ∈ rowsOf item i (views s.db), v ∈ rowsOf item i (views db'))
        ↔ rowsOf item i (views s.db) = []
          ∨ rowsOf item i (corpusOf (earlier s.db scope)) = []) := by
    intro i hi hp
    have hlive : rowsOf item i (views s.db)
        = (eventsOf IngestionEvent.item i (earlier s.db scope)
          ++ eventsOf IngestionEvent.item i
            (streamEvents s.db scope sourceId)).foldl Projection.apply [] := by
      rw [hf.folded, rowsOf_corpusOf, ← eventsOf_split hf.ordered hi]
    rw [hlive, rebuilt_rows hf hc hstage hrun hi, if_neg hp, rowsOf_corpusOf]
    refine @late_start_iff i _ _ (fun e he => ?_) (fun e he ht => ?_)
      fun e he ht => ?_
    · exact (List.mem_append.mp he).elim (fun h => (eventsOf_key h).2)
        fun h => (eventsOf_key h).2
    · exact hf.content e (List.mem_filter.mp (eventsOf_key he).1).1 ht
    · obtain ⟨he, hi⟩ := eventsOf_key he
      exact hp (hi ▸ purge_skipped he ht)
  constructor
  · intro h m hm hi
    have hback : ∀ v ∈ rowsOf item m.item (views s.db),
        v ∈ rowsOf item m.item (views db') := by
      intro v hv
      obtain ⟨x, hx, rfl, hxi⟩ := mem_rowsOf_views.mp hv
      exact List.mem_filter.mpr ⟨h x hx (hxi ▸ hi), decide_eq_true hxi⟩
    have hmem : m.view ∈ rowsOf item m.item (views s.db) :=
      mem_rowsOf_views.mpr ⟨m, hm, rfl, rfl⟩
    have hp : m.item ∉ purgedKeys s.db scope sourceId := by
      intro hp
      have hback' := hback m.view hmem
      rw [rebuilt_rows hf hc hstage hrun hi, if_pos hp] at hback'
      cases hback'
    refine ⟨hp, ?_⟩
    obtain hnil | hnil := (hrows m.item hi hp).mp hback
    · rw [hnil] at hmem
      cases hmem
    · intro v hv hvi
      exact List.filter_eq_nil_iff.mp hnil v hv (decide_eq_true hvi)
  · intro h m hm hi
    obtain ⟨hp, hearly⟩ := h m hm hi
    have hnil : rowsOf item m.item (corpusOf (earlier s.db scope)) = [] :=
      List.filter_eq_nil_iff.mpr fun v hv hvi =>
        hearly v hv (of_decide_eq_true hvi)
    have hmem := (hrows m.item hi hp).mpr (.inr hnil) m.view
      (mem_rowsOf_views.mpr ⟨m, hm, rfl, rfl⟩)
    exact (List.mem_filter.mp hmem).1

theorem rebuilt_marks_iff {m : Memory} {c : MemoryChunk}
    (hversion : c.chunkerVersion = ports.chunker.version)
    (hi : inReach sourceId m.item = true)
    (hp : m.item ∉ purgedKeys s.db scope sourceId)
    (hback : m.view ∈ views db') :
    (⟨m.view, c.chunkerVersion, c.span⟩ : Mark) ∈ marks db'
      ↔ m.isCurrent = true ∧ c.span ∈ newestCut ports (docsOf ports s.blobs
        (eventsOf IngestionEvent.item m.item
          (streamEvents s.db scope sourceId))) := by
  have hb := @clear_rebuilt s.db scope sourceId clearCache hf.versions hc hstage
  have hgone := @clear_gone s.db scope sourceId clearCache m.item hstage hi
  have hpurges : ∀ e ∈ streamEvents s.db scope sourceId,
      e.eventType = .itemPurged → e.item ∈ purgedKeys s.db scope sourceId :=
    fun e he ht => purge_skipped he ht
  have hrecut := rebuild_recut hb (recut_nil hgone (itemHeld_nil hgone)
    (itemRows_eq_nil_iff.mp hgone)) hp hpurges hrun
  obtain ⟨db₁, hrun₁, hb', -⟩ := rebuild_fold ports s.blobs now hb
    (rebuild_reads ports s.blobs now hb hpurges (congrArg Prod.snd hrun))
  rw [hrun] at hrun₁
  cases hrun₁
  rw [List.nil_append] at hrecut
  rw [hrecut.mem_marks hb'.versions (show item m.view = m.item from rfl)]
  have hmem : m.view ∈ rowsOf item m.item (views db') :=
    List.mem_filter.mpr ⟨hback, decide_eq_true rfl⟩
  constructor
  · rintro ⟨-, hcur, -, hspan⟩
    exact ⟨hcur, hspan⟩
  · rintro ⟨hcur, hspan⟩
    exact ⟨hmem, hcur, hversion, hspan⟩

theorem rebuilt_outside (hout : OutOfReach s.db scope sourceId i)
    (hlate : ∀ m ∈ s.db.memories, inReach sourceId m.item = true →
      ∀ v ∈ corpusOf (earlier s.db scope), item v ≠ m.item) :
    Unchanged i s.db db' := by
  have hb := @clear_rebuilt s.db scope sourceId clearCache hf.versions hc hstage
  have hnone : ∀ e ∈ streamEvents s.db scope sourceId, e.item ≠ i := by
    intro e he hi
    obtain ⟨he, hin⟩ := List.mem_filter.mp he
    unfold inScope at hin
    rw [Bool.and_eq_true, decide_eq_true_eq] at hin
    obtain hr | hr := hout
    · have hin' : inReach sourceId e.item = true := hin.2
      rw [hi, hr] at hin'
      cases hin'
    · exact Nat.not_lt.mpr (hr e he hi) hin.1
  obtain ⟨hsame, hviews⟩ := rebuild_other hb
    (fun e he ht => purge_skipped he ht)
    (fun e he hi => absurd hi (hnone e he)) hrun
  cases hi : inReach sourceId i with
  | false =>
    obtain ⟨hsame₀, hviews₀⟩ :=
      @clear_other s.db scope sourceId clearCache i hf.versions hc hstage hi
    exact .of_same (hsame₀.trans hsame) (hviews.trans hviews₀)
  | true =>
    -- all its events are early, and the early ones leave no row
    have hgone := @clear_gone s.db scope sourceId clearCache i hstage hi
    have hlater : eventsOf IngestionEvent.item i
        (streamEvents s.db scope sourceId) = [] :=
      List.filter_eq_nil_iff.mpr fun e he hei =>
        hnone e he (of_decide_eq_true hei)
    have hrows : rowsOf item i (views s.db)
        = rowsOf item i (corpusOf (earlier s.db scope)) := by
      rw [hf.folded, rowsOf_corpusOf, rowsOf_corpusOf,
        @eventsOf_split scope sourceId s.db i hf.ordered hi, hlater,
        List.append_nil]
    have hempty : rowsOf item i (views s.db) = [] := by
      rw [List.eq_nil_iff_forall_not_mem]
      intro v hv
      obtain ⟨m, hm, -, rfl⟩ := mem_rowsOf_views.mp hv
      rw [hrows] at hv
      obtain ⟨hv, hvi⟩ := List.mem_filter.mp hv
      exact hlate m hm hi v hv (of_decide_eq_true hvi)
    have hnil := itemRows_eq_nil_iff.mpr hempty
    have hnil' := hsame.rows.trans hgone
    refine .of_same ⟨?_, by rw [hnil', hnil], ?_⟩ ?_
    · have hnext := hsame.next
      rwa [clear_nextId] at hnext
    · rw [itemHeld_nil hnil', itemHeld_nil hnil]
    · rw [itemRows_eq_nil_iff.mp hnil', hempty]

end All

theorem rebuildsAll_iff (ports : Ports) (clearCache : Bool) (now : Timestamp)
    (hf : Faithful s.db) (hc : ChunksOwned s.db)
    (hversion : ∀ c ∈ s.db.chunks, c.chunkerVersion = ports.chunker.version)
    (hstage : scope.stage = .all) :
    (∃ db', rebuild ports s.blobs scope sourceId now
          (clear scope sourceId clearCache s.db) = (db', none)
        ∧ WritesBack scope sourceId s.db
          (clear scope sourceId clearCache s.db) db')
      ↔ RebuildsAll ports s scope sourceId := by
  have hb := @clear_rebuilt s.db scope sourceId clearCache hf.versions hc hstage
  have hpurges : ∀ e ∈ streamEvents s.db scope sourceId,
      e.eventType = .itemPurged → e.item ∈ purgedKeys s.db scope sourceId :=
    fun e he ht => purge_skipped he ht
  have hrow : ∀ m ∈ s.db.memories,
      (m ∉ (clear scope sourceId clearCache s.db).memories
        ↔ inReach sourceId m.item = true) := by
    intro m hm
    rw [clear_all_memories hstage, List.mem_filter, not_and]
    simp [hm]
  have hchunk : ∀ m ∈ s.db.memories, ∀ c ∈ s.db.chunks, c.memoryId = m.id →
      (c ∉ (clear scope sourceId clearCache s.db).chunks
        ↔ inReach sourceId m.item = true) := by
    intro m hm c hcm hid
    rw [clear_all_chunks hc hstage, List.mem_filter, not_and,
      decide_eq_true_eq, not_not, hid]
    constructor
    · intro h
      obtain ⟨x, hx, hxid⟩ := List.mem_map.mp (h hcm)
      obtain ⟨hx, hin⟩ := List.mem_filter.mp hx
      rw [← memory_unique hf.versions hx hm hxid]
      exact hin
    · intro hin _
      exact List.mem_map_of_mem (List.mem_filter.mpr ⟨hm, hin⟩)
  rw [rebuild_clear]
  constructor
  · rintro ⟨db', hrun, hback⟩
    have hlate := (rebuilt_rows_iff hf hc hstage hrun).mp fun m hm hi =>
      hback.rows m hm ((hrow m hm).mpr hi)
    refine ⟨hlate, ?_, fun m hm hi c hcm hid => ?_⟩
    · exact (rebuild_reads ports s.blobs now hb hpurges
        (congrArg Prod.snd hrun)).reads
    · refine (rebuilt_marks_iff hf hc hstage hrun (hversion c hcm) hi
        (hlate m hm hi).1 (hback.rows m hm ((hrow m hm).mpr hi))).mp ?_
      refine hback.chunks c hcm ((hchunk m hm c hcm hid).mpr hi) _ ?_
      unfold markOf
      rw [hid, memory_of_mem hf.versions hm]
      rfl
  · intro h
    obtain ⟨db', hrun, -⟩ := rebuild_fold ports s.blobs now hb
      (⟨hpurges, h.reads⟩ : Rebuildable ports s.blobs _ _)
    have hrows := (rebuilt_rows_iff hf hc hstage hrun).mpr h.late
    refine ⟨db', hrun, fun m hm hgone => hrows m hm ((hrow m hm).mp hgone),
      fun c hcm hgone k hk => ?_, fun he => ?_, fun i hout => ?_⟩
    · obtain ⟨m, hm, rfl⟩ := Option.map_eq_some_iff.mp hk
      obtain ⟨hmem, hid⟩ := Db.memory_mem hm
      have hi := (hchunk m hmem c hcm hid.symm).mp hgone
      exact (rebuilt_marks_iff hf hc hstage hrun (hversion c hcm) hi
        (h.late m hmem hi).1 (hrows m hmem hi)).mpr
          (h.cuts m hmem hi c hcm hid.symm)
    · rw [hstage] at he
      cases he
    · exact rebuilt_outside hf hc hstage hrun hout
        fun m hm hi => (h.late m hm hi).2

-- ====== downstream

theorem chunkOfReprocessed_eq (db : Db) (sourceId : Option Id)
    (c : MemoryChunk) : chunkOfReprocessed db sourceId c
      = decide (c.memoryId ∈ targets db sourceId) := by
  rw [Bool.eq_iff_iff, decide_eq_true_eq, mem_targets]
  unfold chunkOfReprocessed
  simp only [List.any_eq_true, Bool.and_eq_true, decide_eq_true_eq]

theorem targets_clear (hstage : scope.stage ≠ .all) :
    targets (clear scope sourceId clearCache db) sourceId
      = targets db sourceId := by
  unfold targets
  rw [clear_memories hstage]

theorem clear_normalize_held (hstage : scope.stage = .normalize) :
    itemHeld (clear scope sourceId clearCache db) i
      = (itemHeld db i).filter fun x =>
        decide (x.memoryId ∉ targets db sourceId) := by
  unfold itemHeld
  rw [clear_itemRows (by rw [hstage]; exact nofun),
    clear_normalize_chunks hstage, List.filter_map, List.filter_filter,
    List.filter_filter]
  refine congrArg _ (List.filter_congr fun c _ => ?_)
  rw [chunkOfReprocessed_eq, Bool.and_comm, ← decide_not]
  rfl

theorem rerun_cases {blobs : Blobs} {rows rows' : List Memory}
    {held held' : List Held} {runs : List Id} {m : Memory}
    (h : NormalizeMemory.Holding ports blobs rows held runs)
    (hrun : OwnRun ports blobs m rows
      (held.filter fun x => decide (x.memoryId ≠ m.id)) rows' held') :
    ∃ doc, NormalizeMemory.parse ports blobs m = .ok doc
      ∧ ((∀ x ∈ held, x.memoryId = m.id)
          ∧ held' = cutFor ports.chunker.version m.id (ports.chunker.chunk doc)
        ∨ (∀ x ∈ held, x.memoryId ≠ m.id) ∧ held ≠ []
          ∧ (held' = held ↔ m.normalizedHash = some ⟨doc.text⟩
            ∧ isBlank doc.text = true)) := by
  by_cases hown : ∀ x ∈ held, x.memoryId = m.id
  · -- the chunks were its own, so none are left
    have hnil : (held.filter fun x => decide (x.memoryId ≠ m.id)) = [] :=
      List.filter_eq_nil_iff.mpr fun x hx => by simp [hown x hx]
    rw [hnil] at hrun
    cases hrun with
    | skipped doc hdoc hhash hblank =>
      refine ⟨doc, hdoc, .inl ⟨hown, ?_⟩⟩
      rw [(Chunker.chunk_eq_nil_iff _ _).mpr (hblank rfl)]
      rfl
    | reused doc hdoc previous hrow hne hhash hheld => exact absurd rfl hheld
    | chunked doc hdoc hstale => exact ⟨doc, hdoc, .inl ⟨hown, rfl⟩⟩
  · -- they were another version's, and all of them were
    obtain ⟨x₀, hx₀, hx₀m⟩ : ∃ x ∈ held, x.memoryId ≠ m.id := by
      simpa using hown
    have hsome : held ≠ [] := List.ne_nil_of_mem hx₀
    have hother : ∀ x ∈ held, x.memoryId ≠ m.id := by
      intro x hx hxm
      have heq := (h.owner hx).symm.trans (h.owner hx₀)
      rw [Option.some.injEq] at heq
      exact hx₀m (heq.symm.trans hxm)
    have hall : (held.filter fun x => decide (x.memoryId ≠ m.id)) = held :=
      List.filter_eq_self.mpr fun x hx => decide_eq_true (hother x hx)
    have hnone : heldVersions held m.id = [] := by
      unfold heldVersions
      rw [List.map_eq_nil_iff, List.filter_eq_nil_iff]
      exact fun x hx => by simpa using hother x hx
    rw [hall] at hrun
    cases hrun with
    | skipped doc hdoc hhash hblank =>
      exact ⟨doc, hdoc, .inr ⟨hother, hsome, iff_of_true rfl
        ⟨hhash, hblank hnone⟩⟩⟩
    | reused doc hdoc previous hrow hne hhash hheld =>
      refine ⟨doc, hdoc, .inr ⟨hother, hsome, iff_of_false ?_ ?_⟩⟩
      · intro heq
        obtain ⟨x, hx, hxp⟩ := NormalizeMemory.heldVersions_ne_nil hheld
        have hmoved : ({ x with memoryId := m.id } : Held)
            ∈ moved previous.id m.id held :=
          List.mem_map.mpr ⟨x, hx, if_pos hxp⟩
        rw [heq] at hmoved
        exact hother _ hmoved rfl
      · rintro ⟨-, hblank⟩
        obtain ⟨x, hx, hxp⟩ := NormalizeMemory.heldVersions_ne_nil hheld
        obtain ⟨-, r, hr, hrid, v, hv, doc', hdoc', hhash', hspans⟩ :=
          h.writer previous.id (hxp ▸ h.owner hx)
        rw [NormalizeMemory.row_unique h.ids hr hrow hrid, hhash,
          Option.some.injEq, TextHash.mk.injEq] at hhash'
        rw [hhash', ← Chunker.chunk_eq_nil_iff ports.chunker, ← hspans,
          List.map_eq_nil_iff] at hblank
        exact hsome hblank
    | chunked doc hdoc hstale =>
      refine ⟨doc, hdoc, .inr ⟨hother, hsome, iff_of_false ?_ ?_⟩⟩
      · intro heq
        rw [← heq] at hx₀
        obtain ⟨c, -, rfl⟩ := List.mem_map.mp hx₀
        exact hx₀m rfl
      · rintro ⟨hhash, hblank⟩
        have hfalse := (hstale hhash (by rw [hnone]; exact nofun)).2
        rw [hblank] at hfalse
        cases hfalse

section Normalize

variable {all : List Id} (hinv : ∀ i, NormalizeMemory.ItemInv ports i s all)
  (hstage : scope.stage = .normalize)

include hinv hstage

theorem clear_target_held {m : Memory} (hm : m ∈ s.db.memories)
    (hre : reprocessed sourceId m = true) :
    itemHeld (clear scope sourceId clearCache s.db) m.item
      = (itemHeld s.db m.item).filter fun x => decide (x.memoryId ≠ m.id) := by
  have hv := (hinv m.item).faithful.versions
  have hw := @targets_worklist s.db sourceId hv
  rw [clear_normalize_held hstage]
  refine List.filter_congr fun x hx => ?_
  rw [decide_eq_decide, not_iff_not]
  have htarget : m.id ∈ targets s.db sourceId :=
    mem_targets.mpr ⟨m, hm, rfl, hre⟩
  constructor
  · intro hmem
    -- the owner is of this item, which has one target
    obtain ⟨c, hc, rfl⟩ := List.mem_map.mp hx
    have hof := (List.mem_filter.mp hc).2
    unfold ofRows at hof
    rw [decide_eq_true_eq] at hof
    obtain ⟨r, hr, hrid⟩ := List.mem_map.mp hof
    obtain ⟨y, hy, -, hyi⟩ := NormalizeMemory.memory_of_row hv hr
    rw [hrid] at hy
    exact hw.apart _ hmem _ htarget y m hy (memory_of_mem hv hm) hyi
  · intro hid
    rw [hid]
    exact htarget

variable (hrun : forEach (normalizeOne ports s.blobs now)
  (clear scope sourceId clearCache s.db) (targets s.db sourceId)
    = (db', none))

include hrun

theorem normalized_target {m : Memory} (hm : m ∈ s.db.memories)
    (hre : reprocessed sourceId m = true) :
    ∃ doc, NormalizeMemory.parse ports s.blobs m = .ok doc
      ∧ ((∀ x ∈ itemHeld s.db m.item, x.memoryId = m.id)
          ∧ itemHeld db' m.item
            = cutFor ports.chunker.version m.id (ports.chunker.chunk doc)
        ∨ (∀ x ∈ itemHeld s.db m.item, x.memoryId ≠ m.id)
          ∧ itemHeld s.db m.item ≠ []
          ∧ (itemHeld db' m.item = itemHeld s.db m.item
            ↔ m.normalizedHash = some ⟨doc.text⟩
              ∧ isBlank doc.text = true)) := by
  have hne : scope.stage ≠ .all := by rw [hstage]; exact nofun
  have hv : Versions (keyed (clear scope sourceId clearCache s.db))
      (clear scope sourceId clearCache s.db).nextId := by
    rw [clear_keyed hne, clear_nextId]
    exact (hinv m.item).faithful.versions
  have hw := @targets_worklist _ sourceId hv
  rw [targets_clear hne] at hw
  have hmem : (clear scope sourceId clearCache s.db).memory m.id = some m :=
    memory_of_mem hv (by rw [clear_memories hne]; exact hm)
  have hown := normalizeAll_own hv hw (mem_targets.mpr ⟨m, hm, rfl, hre⟩)
    hmem hrun
  rw [clear_itemRows hne, clear_target_held hinv hstage hm hre] at hown
  exact rerun_cases (m := m.base) (hinv m.item).holding hown

theorem normalized_other
    (hother : ∀ m ∈ s.db.memories, reprocessed sourceId m = true →
      m.item ≠ i) : itemHeld db' i = itemHeld s.db i := by
  have hne : scope.stage ≠ .all := by rw [hstage]; exact nofun
  have hver := (hinv i).faithful.versions
  have hv : Versions (keyed (clear scope sourceId clearCache s.db))
      (clear scope sourceId clearCache s.db).nextId := by
    rw [clear_keyed hne, clear_nextId]
    exact hver
  have hsame := normalizeAll_other (i := i) hv (fun id hid m hm => ?_) hrun
  · rw [hsame.held, clear_normalize_held hstage, List.filter_eq_self]
    intro x hx
    rw [decide_eq_true_eq]
    intro hmem
    obtain ⟨m, hm, hid, hre⟩ := mem_targets.mp hmem
    obtain ⟨c, hc, rfl⟩ := List.mem_map.mp hx
    have hof := (List.mem_filter.mp hc).2
    unfold ofRows at hof
    rw [decide_eq_true_eq] at hof
    exact not_mem_rows hver hm (hother m hm hre) (hid ▸ hof)
  · obtain ⟨x, hx, hxid, hre⟩ := mem_targets.mp hid
    obtain ⟨hmm, hmid⟩ := Db.memory_mem hm
    rw [clear_memories hne] at hmm
    rw [← memory_unique hver hx hmm (hxid.trans hmid.symm)]
    exact hother x hx hre

end Normalize

theorem embedAll_downstream (ports : Ports) (now : Timestamp)
    (sourceId : Option Id) (hv : Versions (keyed db) db.nextId) :
    ∃ db', embedAll ports sourceId now db = (db', none)
      ∧ SameVersions db db' ∧ (∀ i, ItemSame i db db')
      ∧ ∀ c ∈ db'.chunks, chunkOfReprocessed db' sourceId c = true →
        c.embedding.isSome = true := by
  obtain ⟨db', hrun, hsame, hitems, hvectors⟩ :=
    @embedAll_ends ports now db _ hv (@targets_worklist db sourceId hv)
  refine ⟨db', hrun, hsame, hitems, fun c hc hre => ?_⟩
  by_contra hnone
  rw [Bool.not_eq_true, Option.isSome_eq_false_iff,
    Option.isNone_iff_eq_none] at hnone
  refine (hvectors c hc hnone).1 ?_
  -- the rows are the same, and so is the list
  rw [chunkOfReprocessed_eq, decide_eq_true_eq] at hre
  obtain ⟨m, hm, hid, hrem⟩ := mem_targets.mp hre
  have hrow : (m.id, m.view) ∈ keyed db := by
    rw [← hsame.keyed]
    exact List.mem_map_of_mem hm
  obtain ⟨x, hx, heq⟩ := List.mem_map.mp hrow
  rw [Prod.mk.injEq] at heq
  refine mem_targets.mpr ⟨x, hx, heq.1.trans hid, ?_⟩
  have hrew : ∀ y : Memory, reprocessed sourceId y
      = (y.view.isCurrent && y.view.deletedAt.isNone
        && inReach sourceId (item y.view)) := fun _ => rfl
  rw [hrew, heq.2, ← hrew]
  exact hrem

theorem cutFor_marks (hv : Versions (keyed db) db.nextId) {m m' : Memory}
    {version : String} {cs : List TextChunk} {span : TextChunk}
    (hm' : db.memory m.id = some m') (hview : m'.view = m.view)
    (hheld : itemHeld db m.item = cutFor version m.id cs) :
    (⟨m.view, version, span⟩ : Mark) ∈ marks db ↔ span ∈ cs := by
  rw [mem_marks hv]
  constructor
  · rintro ⟨y, hy, x, hx, -, heq⟩
    rw [Mark.mk.injEq] at heq
    obtain ⟨hyv, -, rfl⟩ := heq
    rw [item_of_view hyv.symm, hheld] at hx
    obtain ⟨c, hc, rfl⟩ := List.mem_map.mp hx
    exact hc
  · intro hspan
    obtain ⟨hmem, hid⟩ := Db.memory_mem hm'
    refine ⟨m', hmem, ⟨m.id, version, span⟩, ?_, hid.symm, by rw [hview]⟩
    rw [item_of_view hview, hheld]
    exact List.mem_map_of_mem hspan

theorem recutsAll_iff (ports : Ports) (clearCache : Bool) (now : Timestamp)
    {all : List Id} (hinv : ∀ i, NormalizeMemory.ItemInv ports i s all)
    (hf : Faithful s.db) (hstage : scope.stage = .normalize) :
    (∃ db', (normalizeAll ports s.blobs sourceId now
          (clear scope sourceId clearCache s.db)).andThen
            (embedAll ports sourceId now) = (db', none)
        ∧ WritesBack scope sourceId s.db
          (clear scope sourceId clearCache s.db) db')
      ↔ RecutsAll ports s scope sourceId := by
  have hne : scope.stage ≠ .all := by rw [hstage]; exact nofun
  have hv : Versions (keyed (clear scope sourceId clearCache s.db))
      (clear scope sourceId clearCache s.db).nextId := by
    rw [clear_keyed hne, clear_nextId]
    exact hf.versions
  unfold normalizeAll
  rw [targets_clear hne]
  -- what a run of both loops leaves
  have hleft : ∀ db₁ db', forEach (normalizeOne ports s.blobs now)
      (clear scope sourceId clearCache s.db) (targets s.db sourceId)
        = (db₁, none) →
      embedAll ports sourceId now db₁ = (db', none) →
      keyed db' = keyed s.db ∧ Versions (keyed db') db'.nextId
        ∧ ∀ i, itemHeld db' i = itemHeld db₁ i := by
    intro db₁ db' hrun hembed
    have hsame := normalizeAll_same hrun
    obtain ⟨db₂, hembed₂, hsame₂, hitems, -⟩ :=
      embedAll_downstream ports now sourceId (hsame.versions hv)
    rw [hembed] at hembed₂
    cases hembed₂
    refine ⟨?_, hsame₂.versions (hsame.versions hv), fun i => (hitems i).held⟩
    rw [hsame₂.keyed, hsame.keyed, clear_keyed hne]
  -- what is deleted, and what its mark is
  have hmark : ∀ m ∈ s.db.memories, ∀ c ∈ s.db.chunks, c.memoryId = m.id →
      markOf s.db c = some ⟨m.view, ports.chunker.version, c.span⟩
        ∧ c.held ∈ itemHeld s.db m.item := by
    intro m hm c hc hid
    have hheld : c.held ∈ itemHeld s.db m.item :=
      List.mem_map_of_mem (List.mem_filter.mpr
        ⟨hc, ofRows_of_mem hm hid.symm⟩)
    refine ⟨?_, hheld⟩
    unfold markOf
    rw [hid, memory_of_mem hf.versions hm,
      show c.chunkerVersion = ports.chunker.version from
        (hinv m.item).holding.versions _ hheld]
    rfl
  constructor
  · rintro ⟨db', hrun, hback⟩
    obtain ⟨db₁, hrun, hembed⟩ := Progress.andThen_eq_none.mp hrun
    obtain ⟨hkeyed, hv', hheld⟩ := hleft db₁ db' hrun hembed
    refine ⟨fun m hm hre => ?_, fun m hm hre doc hdoc c hc hid => ?_,
      fun m hm hre doc hdoc hearly => ?_⟩
    · obtain ⟨doc, hdoc, -⟩ := normalized_target hinv hstage hrun hm hre
      exact ⟨doc, hdoc⟩
    · obtain ⟨doc', hdoc', ⟨-, hcut⟩ | ⟨hno, -⟩⟩ :=
        normalized_target hinv hstage hrun hm hre
      · rw [hdoc, Except.ok.injEq] at hdoc'
        rw [hdoc'] at *
        obtain ⟨m', hm', hview⟩ := memory_view hf.versions hkeyed
          (memory_of_mem hf.versions hm)
        rw [← hheld] at hcut
        refine (cutFor_marks hv' hm' hview hcut).mp
          (hback.chunks c hc ?_ _ (hmark m hm c hc hid).1)
        rw [clear_normalize_chunks hstage, List.mem_filter, not_and]
        intro _
        rw [(chunkOfReprocessed_iff hf.versions hm hid.symm).mpr hre]
        exact nofun
      · exact absurd hid (hno _ (hmark m hm c hc hid).2)
    · obtain ⟨doc', hdoc', hcase⟩ := normalized_target hinv hstage hrun hm hre
      rw [hdoc, Except.ok.injEq] at hdoc'
      rw [← hdoc'] at hcase
      have hunch := (hback.outside m.item (.inr hearly)).held
      rw [hheld] at hunch
      obtain ⟨-, hcut⟩ | ⟨hno, -, hiff⟩ := hcase
      · exact .inl (hunch.symm.trans hcut)
      · obtain ⟨hhash, hblank⟩ := hiff.mp hunch
        exact .inr ⟨hhash, hblank, fun c hc hid =>
          hno _ (hmark m hm c hc hid).2 hid⟩
  · intro h
    have hw := @targets_worklist _ sourceId hv
    rw [targets_clear hne] at hw
    have hready : ∀ id ∈ targets s.db sourceId, ∀ m,
        (clear scope sourceId clearCache s.db).memory id = some m →
        (∃ doc, NormalizeMemory.parse ports s.blobs m = .ok doc)
          ∧ ∀ x ∈ itemHeld (clear scope sourceId clearCache s.db) m.item,
            x.memoryId ≠ m.id := by
      intro id hid m hm
      obtain ⟨y, hy, hyid, hre⟩ := mem_targets.mp hid
      obtain ⟨hmem, hmid⟩ := Db.memory_mem hm
      rw [clear_memories hne] at hmem
      rw [memory_unique hf.versions hy hmem (hyid.trans hmid.symm)] at hre
      refine ⟨h.reads m hmem hre, fun x hx => ?_⟩
      rw [clear_target_held hinv hstage hmem hre] at hx
      exact of_decide_eq_true (List.mem_filter.mp hx).2
    obtain ⟨db₁, hrun⟩ := @normalizeAll_ends ports s.blobs now _ _ hv hw hready
    have hsame := normalizeAll_same hrun
    obtain ⟨db', hembed, -, -, hvectors⟩ :=
      embedAll_downstream ports now sourceId (hsame.versions hv)
    obtain ⟨hkeyed, hv', hheld⟩ := hleft db₁ db' hrun hembed
    refine ⟨db', Progress.andThen_eq_none.mpr ⟨db₁, hrun, hembed⟩,
      fun m hm hgone => ?_, fun c hc hgone k hk => ?_, fun _ => hvectors,
      fun i hout => ⟨?_, ?_⟩⟩
    · rw [clear_memories hne] at hgone
      exact absurd hm hgone
    · obtain ⟨m, hm, -⟩ := Option.map_eq_some_iff.mp hk
      obtain ⟨hmem, hid⟩ := Db.memory_mem hm
      obtain ⟨hmarkc, hin⟩ := hmark m hmem c hc hid.symm
      rw [hmarkc, Option.mem_some_iff] at hk
      subst hk
      have hre : reprocessed sourceId m = true := by
        rw [← chunkOfReprocessed_iff hf.versions hmem hid]
        by_contra hno
        refine hgone ?_
        rw [clear_normalize_chunks hstage]
        exact List.mem_filter.mpr ⟨hc, by simpa using hno⟩
      obtain ⟨doc, hdoc, ⟨-, hcut⟩ | ⟨hno, -⟩⟩ :=
        normalized_target hinv hstage hrun hmem hre
      · obtain ⟨m', hm', hview⟩ := memory_view hf.versions hkeyed
          (memory_of_mem hf.versions hmem)
        rw [← hheld] at hcut
        exact (cutFor_marks hv' hm' hview hcut).mpr
          (h.cuts m hmem hre doc hdoc c hc hid.symm)
      · exact absurd hid.symm (hno _ hin)
    · unfold itemKeyed
      rw [hkeyed]
    · rw [hheld]
      by_cases hex : ∃ m ∈ s.db.memories, reprocessed sourceId m = true
          ∧ m.item = i
      · obtain ⟨m, hm, hre, rfl⟩ := hex
        -- the item is the scope's, so it has no later event
        have hearly := hout.resolve_left fun hin => by
          unfold reprocessed at hre
          rw [Bool.and_eq_true] at hre
          rw [show memoriesOf sourceId m = false from hin] at hre
          cases hre.2
        obtain ⟨doc, hdoc, ⟨hall, hcut⟩ | ⟨hno, hsome, hiff⟩⟩ :=
          normalized_target hinv hstage hrun hm hre
        · rw [hcut]
          obtain heq | ⟨-, hblank, hnone⟩ :=
            h.earlier m hm hre doc hdoc hearly
          · exact heq.symm
          · -- no chunk of its own, and none of another version
            have hnil : itemHeld s.db m.item = [] := by
              rw [List.eq_nil_iff_forall_not_mem]
              intro x hx
              obtain ⟨c, hc, rfl⟩ := List.mem_map.mp hx
              exact hnone c (List.mem_filter.mp hc).1 (hall _ hx)
            rw [hnil, (Chunker.chunk_eq_nil_iff _ _).mpr hblank]
            rfl
        · refine hiff.mpr ?_
          obtain heq | ⟨hhash, hblank, -⟩ :=
            h.earlier m hm hre doc hdoc hearly
          · obtain ⟨x, hx⟩ := List.exists_mem_of_ne_nil _ hsome
            refine absurd ?_ (hno x hx)
            rw [heq] at hx
            obtain ⟨c, -, rfl⟩ := List.mem_map.mp hx
            rfl
          · exact ⟨hhash, hblank⟩
      · exact normalized_other hinv hstage hrun fun m hm hre hi =>
          hex ⟨m, hm, hre, hi⟩

theorem embed_writesBack (ports : Ports) (clearCache : Bool)
    (now : Timestamp) (hf : Faithful s.db) (hstage : scope.stage = .embed) :
    ∃ db', embedAll ports sourceId now (clear scope sourceId clearCache s.db)
        = (db', none)
      ∧ WritesBack scope sourceId s.db
        (clear scope sourceId clearCache s.db) db' := by
  have hne : scope.stage ≠ .all := by rw [hstage]; exact nofun
  have hv : Versions (keyed (clear scope sourceId clearCache s.db))
      (clear scope sourceId clearCache s.db).nextId := by
    rw [clear_keyed hne, clear_nextId]
    exact hf.versions
  obtain ⟨db', hembed, hsame, hitems, hvectors⟩ :=
    embedAll_downstream ports now sourceId hv
  have hkeyed : keyed db' = keyed s.db := hsame.keyed.trans (clear_keyed hne)
  have hheld : ∀ i, itemHeld db' i = itemHeld s.db i := fun i =>
    (hitems i).held.trans (clear_embed_item hstage).held
  refine ⟨db', hembed, fun m hm hgone => ?_, fun c hcm _ k hk => ?_,
    fun _ => hvectors, fun i _ => ⟨?_, hheld i⟩⟩
  · rw [clear_memories hne] at hgone
    exact absurd hm hgone
  · -- every chunk is still there, of a row with the same view
    have hk₀ : k ∈ marks s.db := List.mem_filterMap.mpr ⟨c, hcm, hk⟩
    obtain ⟨m, hm, x, hx, hid, rfl⟩ := (mem_marks hf.versions).mp hk₀
    obtain ⟨m', hm', hview⟩ := memory_view hf.versions hkeyed
      (memory_of_mem hf.versions hm)
    obtain ⟨hmem', hid'⟩ := Db.memory_mem hm'
    refine (mem_marks (hsame.versions hv)).mpr
      ⟨m', hmem', x, ?_, hid.trans hid'.symm, by rw [hview]⟩
    rw [item_of_view hview, hheld]
    exact hx
  · unfold itemKeyed
    rw [hkeyed]

-- ====== every stage

/-- After any run of operations, a replay that starts writes back what it
clears, and leaves alone what its scope has no event of, exactly when its
stage gives back what it clears. -/
theorem clears_what_it_rebuilds_iff (ports : Ports) (sources : List Source)
    (ops : List Live.Op) (scope : ReplayScope) (sourceId : Option Id)
    (clearCache : Bool) (now : Timestamp)
    (hsource : resolveSource (Live.run ports sources ops).db
      scope.sourceName = .ok sourceId)
    (hblobs : scope.stage = .all →
      preflightBlobs (Live.run ports sources ops).blobs
        (Live.run ports sources ops).db scope sourceId = true) :
    ClearsWhatItRebuilds ports (Live.run ports sources ops) scope sourceId
        clearCache now
      ↔ GivesBack ports (Live.run ports sources ops) scope sourceId := by
  have hinv := fun i =>
    (NormalizeMemory.itemInv_start ports i sources).run ops
  change ∀ i, NormalizeMemory.ItemInv ports i (Live.run ports sources ops) _
    at hinv
  generalize Live.run ports sources ops = s at hinv hsource hblobs ⊢
  have hf : Faithful s.db := (hinv ⟨0, ""⟩).faithful
  have hc : ChunksOwned s.db := (hinv ⟨0, ""⟩).owned
  have hstart : ∀ db', inPlace ports s.blobs scope clearCache now s.db
      = (db', none) ↔ rewrite ports s.blobs scope sourceId now
        (clear scope sourceId clearCache s.db) = (db', none) := by
    intro db'
    unfold inPlace
    simp only [hsource]
    rw [if_neg]
    rw [Bool.and_eq_true, Bool.not_eq_true', not_and, Bool.not_eq_false]
    intro hall
    exact hblobs (of_decide_eq_true hall)
  unfold ClearsWhatItRebuilds GivesBack
  simp only [hstart]
  unfold rewrite ReplayScope.rebuildsMemories ReplayScope.rechunks
  cases hstage : scope.stage with
  | all =>
    refine rebuildsAll_iff ports clearCache now hf hc (fun c hcm => ?_) hstage
    obtain ⟨m, hm, hid⟩ := hc.owned c hcm
    exact (hinv m.item).holding.versions c.held (List.mem_map_of_mem
      (List.mem_filter.mpr ⟨hcm, ofRows_of_mem hm hid⟩))
  | normalize => exact recutsAll_iff ports clearCache now hinv hf hstage
  | embed =>
    refine iff_of_true ?_ trivial
    obtain ⟨db', hrun, hback⟩ :=
      @embed_writesBack s scope sourceId ports clearCache now hf hstage
    exact ⟨db', Progress.andThen_eq_none.mpr ⟨_, rfl, hrun⟩, hback⟩

-- ------ a rebuild from the middle

/-- Two notes of one source, one after the other. -/
def twoNotes : List Live.Op := [
  .ingest 1 (Live.note "a.md" "h1" [104, 105]) 0, .normalize 1 1,
  .ingest 1 (Live.note "b.md" "h2" [98, 121, 101]) 2, .normalize 6 3]

/-- A rebuild of one source, from its beginning. -/
def oneSource : ReplayScope := { sourceName := some "notes" }

theorem clears_what_it_rebuilds_iff_source :
    ClearsWhatItRebuilds .plain (Live.run .plain [⟨1, .filesystem, "notes"⟩] twoNotes)
        oneSource (some 1) true 9
      ↔ GivesBack .plain (Live.run .plain [⟨1, .filesystem, "notes"⟩] twoNotes) oneSource
        (some 1) :=
  clears_what_it_rebuilds_iff .plain [⟨1, .filesystem, "notes"⟩] twoNotes oneSource
    (some 1) true 9 (by decide +kernel) fun _ => by decide +kernel

/-- A rebuild of everything after the first event. -/
def afterFirst : ReplayScope := { afterSeq := 1 }

/-- The first note is cleared, and the log that is read does not have
it. -/
theorem clears_more_than_it_rebuilds :
    ¬ ∀ (ports : Ports) (sources : List Source) (ops : List Live.Op)
        (scope : ReplayScope) (sourceId : Option Id) (clearCache : Bool)
        (now : Timestamp),
      resolveSource (Live.run ports sources ops).db scope.sourceName
        = .ok sourceId →
      preflightBlobs (Live.run ports sources ops).blobs
        (Live.run ports sources ops).db scope sourceId = true →
      ClearsWhatItRebuilds ports (Live.run ports sources ops) scope sourceId
        clearCache now := by
  intro hclaim
  obtain ⟨db', hrun, hback⟩ := hclaim .plain [] twoNotes afterFirst none false 9
    rfl (by decide +kernel)
  have hlost : ∃ m ∈ (Live.run .plain [] twoNotes).db.memories,
      m.view ∉ views (inPlace .plain (Live.run .plain [] twoNotes).blobs
        afterFirst false 9 (Live.run .plain [] twoNotes).db).1 := by
    decide +kernel
  obtain ⟨m, hm, hlost⟩ := hlost
  rw [hrun] at hlost
  exact hlost (hback.rows m hm nofun)

end MemoryOS.ReplayCorpus
