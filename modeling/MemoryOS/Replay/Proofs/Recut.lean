/-
The chunks a rebuild leaves of one item.

The rebuild runs the pipeline for each version before the next one is
applied, so the newest version ends up with the chunks, and with those of
the oldest of the versions before it that have the same text: while the
text stays, they are moved along.
-/
import MemoryOS.Corpus.Proofs.Recorded
import MemoryOS.Pipeline.Proofs.Holder
import MemoryOS.Replay.Proofs.Faithful

namespace MemoryOS.ReplayCorpus

open Projection Lib KeyedLog

/-- The document an observation holds. -/
def docOf (ports : Ports) (blobs : Blobs) (e : IngestionEvent) :
    Option ParsedDocument :=
  (memoryFromEvent e 0).bind fun m =>
    (NormalizeMemory.parse ports blobs m).toOption

/-- The documents a log observes. -/
def docsOf (ports : Ports) (blobs : Blobs) (log : List IngestionEvent) :
    List ParsedDocument :=
  (log.filter isObservation).filterMap (docOf ports blobs)

/-- The document an item's chunks are cut from, once a version with
another document has been run. -/
def cutNext : Option ParsedDocument → ParsedDocument → Option ParsedDocument
  | none, doc => some doc
  | some held, doc => if held.text = doc.text then some held else some doc

/-- The chunks the newest of an item's versions gets. -/
def newestCut (ports : Ports) (docs : List ParsedDocument) : List TextChunk :=
  match docs.foldl cutNext none with
  | none => []
  | some doc => ports.chunker.chunk doc

variable {ports : Ports} {blobs : Blobs} {purged : List Item}
  {now : Timestamp} {db db' : Db} {e : IngestionEvent} {i : Item}
  {docs : List ParsedDocument} {doc : ParsedDocument}

variable {last : ParsedDocument} {m p : Memory}

theorem cut_text (docs : List ParsedDocument) (doc : ParsedDocument) :
    ∃ held, (docs ++ [doc]).foldl cutNext none = some held
      ∧ held.text = doc.text := by
  rw [List.foldl_append, List.foldl_cons, List.foldl_nil]
  cases docs.foldl cutNext none with
  | none => exact ⟨doc, rfl, rfl⟩
  | some held =>
    by_cases htext : held.text = doc.text
    · exact ⟨held, if_pos htext, htext⟩
    · exact ⟨doc, if_neg htext, rfl⟩

theorem newestCut_same (htext : last.text = doc.text) :
    newestCut ports (docs ++ [last] ++ [doc])
      = newestCut ports (docs ++ [last]) := by
  obtain ⟨held, hheld, hht⟩ := cut_text docs last
  unfold newestCut
  rw [List.foldl_append, List.foldl_cons, List.foldl_nil, hheld,
    show cutNext (some held) doc = some held from if_pos (hht.trans htext)]

theorem newestCut_other (htext : last.text ≠ doc.text) :
    newestCut ports (docs ++ [last] ++ [doc]) = ports.chunker.chunk doc := by
  obtain ⟨held, hheld, hht⟩ := cut_text docs last
  unfold newestCut
  rw [List.foldl_append, List.foldl_cons, List.foldl_nil, hheld,
    show cutNext (some held) doc = some doc from
      if_neg fun h => htext (hht.symm.trans h)]

theorem blank_of_newestCut (h : newestCut ports (docs ++ [doc]) = []) :
    isBlank doc.text = true := by
  obtain ⟨held, hheld, hht⟩ := cut_text docs doc
  unfold newestCut at h
  simp only [hheld] at h
  rw [← hht]
  exact (Chunker.chunk_eq_nil_iff _ _).mp h

-- ====== the invariant

/-- What the rebuild of an item's versions leaves. -/
structure Recut (ports : Ports) (db : Db) (i : Item)
    (docs : List ParsedDocument) : Prop where
  numbered : Numbered (rowsOf item i (views db))
  hashes : (itemRows db i).map (·.normalizedHash)
    = docs.map fun d => some ⟨d.text⟩
  held : itemHeld db i =
    match ((itemRows db i).map (·.id)).getLast? with
    | none => []
    | some id => cutFor ports.chunker.version id (newestCut ports docs)

theorem recut_nil (hrows : itemRows db i = []) (hheld : itemHeld db i = [])
    (hviews : rowsOf item i (views db) = []) : Recut ports db i [] := by
  constructor
  · rw [hviews]
    exact numbered_nil
  · rw [hrows]
    rfl
  · rw [hrows, hheld]
    rfl

theorem Recut.same (h : Recut ports db i docs) (hs : ItemSame i db db')
    (hn : Numbered (rowsOf item i (views db'))) : Recut ports db' i docs :=
  ⟨hn, hs.rows ▸ h.hashes, by rw [hs.held, hs.rows]; exact h.held⟩

-- ====== the newest row

theorem highestVersion_concat {l : List Memory}
    (h : ∀ x ∈ l, x.version < p.version) :
    NormalizeMemory.highestVersion (l ++ [p]) = some p := by
  induction l with
  | nil => rfl
  | cons a rest ih =>
    rw [List.cons_append]
    unfold NormalizeMemory.highestVersion
    rw [ih fun x hx => h x (List.mem_cons_of_mem a hx)]
    simp only
    rw [if_pos (h a List.mem_cons_self)]

theorem previousVersion_last {init : List Memory}
    (hmems : (db.memories.filter fun x => decide (x.item = m.item))
      = init ++ [p] ++ [m])
    (hnumbered : Numbered (rowsOf item m.item (views db)))
    (hids : p.id ≠ m.id) (hhash : p.normalizedHash = some ⟨doc.text⟩) :
    NormalizeMemory.previousVersion db m doc = some p := by
  have hversions : ((init ++ [p] ++ [m]).map (·.version)).Pairwise (· < ·) := by
    have hrows : rowsOf item m.item (views db)
        = (init ++ [p] ++ [m]).map Memory.view := by
      rw [← hmems]
      unfold rowsOf views
      rw [List.filter_map]
      rfl
    have hv := hnumbered.versions
    rw [hrows, List.map_map] at hv
    rw [show (init ++ [p] ++ [m]).map (·.version)
      = (init ++ [p] ++ [m]).map ((·.version) ∘ Memory.view) from rfl, hv]
    exact List.pairwise_lt_range'
  -- the rows the query selects: other versions with this text
  set other : Memory → Bool := fun x => decide (x.id ≠ m.id)
    && decide (x.normalizedHash
      = some (NormalizeMemory.normalizedHash doc.text)) with hother
  have hp : other p = true := by
    rw [hother, Bool.and_eq_true, decide_eq_true_eq, decide_eq_true_eq]
    exact ⟨hids, hhash⟩
  have hm : other m = false := by simp [hother]
  have hsplit : (db.memories.filter fun x =>
      decide (x.sourceId = m.sourceId) && decide (x.externalKey = m.externalKey)
        && decide (x.id ≠ m.id)
        && decide (x.normalizedHash
          = some (NormalizeMemory.normalizedHash doc.text)))
      = init.filter other ++ [p] := by
    have hfilter := congrArg (List.filter other) hmems
    rw [List.filter_filter, List.filter_append, List.filter_append,
      List.filter_singleton, List.filter_singleton, hp, hm] at hfilter
    rw [cond_true, cond_false, List.append_nil] at hfilter
    rw [← hfilter]
    refine List.filter_congr fun x _ => ?_
    rw [Bool.and_comm (other x), hother, ← Bool.and_assoc]
    congr 2
    rw [← Bool.decide_and, decide_eq_decide, Memory.item, Memory.item,
      Item.mk.injEq]
  unfold NormalizeMemory.previousVersion
  rw [hsplit]
  refine highestVersion_concat fun x hx => ?_
  have hxi := (List.mem_filter.mp hx).1
  rw [List.map_append, List.map_append, List.pairwise_append] at hversions
  exact (List.pairwise_append.mp hversions.1).2.2 _ (List.mem_map_of_mem hxi)
    _ (List.mem_map_of_mem List.mem_cons_self)

-- ======= one event

theorem memoryFromEvent_item {id : Id}
    (hm : memoryFromEvent e id = some m) : m.item = e.item := by
  obtain ⟨hash, hh, rfl⟩ := Option.map_eq_some_iff.mp hm
  rfl

theorem docOf_parse {id : Id} (n : Nat)
    (hm : memoryFromEvent e id = some m)
    (hdoc : NormalizeMemory.parse ports blobs
      { m with version := n, isCurrent := true } = .ok doc) :
    docOf ports blobs e = some doc := by
  obtain ⟨hash, hh, rfl⟩ := Option.map_eq_some_iff.mp hm
  unfold docOf memoryFromEvent
  rw [hh, Option.map_some, Option.bind_some]
  exact congrArg Except.toOption hdoc

theorem added_item {m : Memory} (h : Rebuilt db)
    (hm : memoryFromEvent e db.nextId = some m) :
    itemRows (addVersion { db with nextId := db.nextId + 1 } m) i
        = itemRows db i ++ (if e.item = i then [m.base] else [])
      ∧ itemHeld (addVersion { db with nextId := db.nextId + 1 } m) i
        = itemHeld db i := by
  have hrows : itemRows (addVersion { db with nextId := db.nextId + 1 } m) i
      = itemRows db i ++ (if e.item = i then [m.base] else []) := by
    rw [itemRows_addVersion, memoryFromEvent_item hm]
    rfl
  refine ⟨hrows, ?_⟩
  obtain ⟨-, -, hnone⟩ := observed_rows h hm
  unfold itemHeld
  rw [hrows]
  refine congrArg (List.map MemoryChunk.held) ?_
  rw [addVersion_chunks] at hnone ⊢
  refine List.filter_congr fun c hc => ?_
  unfold ofRows
  rw [decide_eq_decide, List.map_append, List.mem_append]
  refine ⟨fun hmem => hmem.resolve_right fun hmem => ?_, .inl⟩
  split at hmem
  case isTrue =>
    rw [List.map_cons, List.map_nil, List.mem_singleton] at hmem
    exact hnone c hc hmem
  case isFalse => cases hmem

theorem rebuildEvent_inv (hp : e.item ∉ purged)
    (ht : e.eventType = .artifactObserved)
    (hrun : rebuildEvent ports blobs purged now db e = (db', none)) :
    ∃ m r r', memoryFromEvent e db.nextId = some m
      ∧ NormalizeMemory.call ports false blobs
          (addVersion { db with nextId := db.nextId + 1 } m) m.id now = .ok r
      ∧ EmbedMemory.call ports.embedder false r.1 m.id now = .ok r'
      ∧ db' = r'.1 := by
  unfold rebuildEvent at hrun
  simp only [if_neg hp, ht] at hrun
  split at hrun
  case h_1 => cases hrun
  case h_2 m hm =>
    unfold normalizeOne embedOne Progress.andThen at hrun
    cases hr : NormalizeMemory.call ports false blobs
        (addVersion { db with nextId := db.nextId + 1 } m) m.id now with
    | error f =>
      simp only [hr] at hrun
      cases hrun
    | ok r =>
      simp only [hr] at hrun
      cases hr' : EmbedMemory.call ports.embedder false r.1 m.id now with
      | error f =>
        simp only [hr'] at hrun
        cases hrun
      | ok r' =>
        simp only [hr'] at hrun
        cases hrun
        exact ⟨m, r, r', hm, hr, hr', rfl⟩

theorem rebuildEvent_ok (h : Rebuilt db) (hp : e.item ∉ purged)
    (hpurge : e.eventType = .itemPurged → e.item ∈ purged)
    (hrun : rebuildEvent ports blobs purged now db e = (db', none)) :
    Rebuilt db' ∧ views db' = Projection.apply (views db) e := by
  have hthen : ∀ db₁, rebuildEvent ports blobs purged now db e = (db₁, none)
      ∧ Rebuilt db₁ ∧ views db₁ = Projection.apply (views db) e →
      Rebuilt db' ∧ views db' = Projection.apply (views db) e := by
    rintro db₁ ⟨hrun₁, h₁⟩
    rw [hrun] at hrun₁
    cases hrun₁
    exact h₁
  cases ht : e.eventType with
  | artifactObserved =>
    cases hread : readable ports blobs e with
    | true =>
      obtain ⟨db₁, h₁⟩ :=
        rebuildEvent_observed ports blobs now h hp ht hread
      exact hthen db₁ h₁
    | false =>
      exact absurd (congrArg Prod.snd hrun)
        (rebuildEvent_unreadable ports blobs now h hp ht hread)
  | itemDeleted =>
    obtain ⟨db₁, h₁⟩ := rebuildEvent_deleted ports blobs now h hp ht
    exact hthen db₁ h₁
  | itemPurged => exact absurd (hpurge ht) hp

theorem rebuildEvent_same (h : Rebuilt db)
    (hpurge : e.eventType = .itemPurged → e.item ∈ purged)
    (hother : e.item = i → e.eventType ≠ .artifactObserved ∨ e.item ∈ purged)
    (hrun : rebuildEvent ports blobs purged now db e = (db', none)) :
    ItemSame i db db' := by
  by_cases hp : e.item ∈ purged
  · rw [rebuildEvent_purged ports blobs now hp] at hrun
    cases hrun
    exact .refl i db
  · cases ht : e.eventType with
    | artifactObserved =>
      have hi : e.item ≠ i := fun hi =>
        (hother hi).elim (fun hno => hno ht) hp
      obtain ⟨m, r, r', hm, hr, hr', rfl⟩ := rebuildEvent_inv hp ht hrun
      obtain ⟨hrows, hheld⟩ := @added_item db e i m h hm
      rw [if_neg hi, List.append_nil] at hrows
      have hadd : ItemSame i db
          (addVersion { db with nextId := db.nextId + 1 } m) :=
        ⟨by rw [addVersion_nextId]; exact Nat.le_succ _, hrows, hheld⟩
      refine hadd.trans ((normalize_item_other
        (observed_rows h hm).1.versions hr fun m' hm' => ?_).trans
          (embed_item hr'))
      have hid : m.id = db.nextId := (memoryFromEvent_new hm).1
      obtain ⟨n, hmem⟩ := @addVersion_memory
        { db with nextId := db.nextId + 1 } m (by rw [hid]; exact h.versions)
      rw [hmem, Option.some.injEq] at hm'
      rw [← hm']
      exact (memoryFromEvent_item hm).symm ▸ hi
    | itemDeleted =>
      unfold rebuildEvent at hrun
      simp only [if_neg hp, ht] at hrun
      split at hrun
      case h_1 =>
        cases hrun
        exact .refl i _
      case h_2 current _ =>
        cases hrun
        have hrows : itemRows (tombstoneRow db current.id e.recordedAt) i
            = itemRows db i := by
          refine (itemRows_map (g := fun m => m) rfl
            (fun m _ => by split <;> rfl) fun m _ _ => ?_).trans
              (List.map_id _)
          split <;> rfl
        exact ⟨Nat.le_refl _, hrows, itemHeld_congr hrows rfl⟩
    | itemPurged => exact absurd (hpurge ht) hp

-- ====== the item's own event

theorem Recut.last_row (h : Recut ports db i (docs ++ [last])) :
    ∃ init p, itemRows db i = init ++ [p]
      ∧ p.normalizedHash = some ⟨last.text⟩
      ∧ itemHeld db i = cutFor ports.chunker.version p.id
        (newestCut ports (docs ++ [last])) := by
  have hhashes := h.hashes
  have hheld := h.held
  rcases List.eq_nil_or_concat (itemRows db i) with hnil | ⟨init, p, hrows⟩
  · rw [hnil, List.map_append] at hhashes
    simp at hhashes
  · rw [List.concat_eq_append] at hrows
    rw [hrows, List.map_append, List.map_append] at hhashes
    obtain ⟨-, hlast⟩ := List.append_inj' hhashes rfl
    rw [hrows, List.map_append, List.map_cons, List.map_nil,
      List.getLast?_concat] at hheld
    exact ⟨init, p, hrows, by simpa using hlast, hheld⟩

theorem Recut.held_nil (h : Recut ports db i []) : itemHeld db i = [] := by
  have hnil : itemRows db i = [] := by
    have hhashes := h.hashes
    rw [List.map_nil, List.map_eq_nil_iff] at hhashes
    exact hhashes
  rw [h.held, hnil]
  rfl

theorem moved_cutFor (version : String) (source target : Id)
    (cs : List TextChunk) :
    moved source target (cutFor version source cs)
      = cutFor version target cs := by
  unfold moved cutFor
  rw [List.map_map]
  refine List.map_congr_left fun c _ => ?_
  simp

theorem mems_split {init : List Memory}
    (hv : Versions (keyed db) db.nextId) (hm : m ∈ db.memories)
    (hrows : itemRows db m.item = init ++ [p] ++ [m.base]) :
    ∃ init' p', (db.memories.filter fun x => decide (x.item = m.item))
        = init' ++ [p'] ++ [m]
      ∧ p'.base = p := by
  unfold itemRows at hrows
  obtain ⟨l, l₁, hl, hbase, hbase₁⟩ := List.map_eq_append_iff.mp hrows
  obtain ⟨init', l₂, rfl, -, hbase₂⟩ := List.map_eq_append_iff.mp hbase
  obtain ⟨p', rfl, hp'⟩ := List.map_eq_singleton_iff.mp hbase₂
  obtain ⟨x, rfl, hx⟩ := List.map_eq_singleton_iff.mp hbase₁
  refine ⟨init', p', ?_, hp'⟩
  have hxmem : x ∈ db.memories := by
    have hmem : x ∈ db.memories.filter fun x => decide (x.item = m.item) := by
      rw [hl]
      exact List.mem_append_right _ List.mem_cons_self
    exact (List.mem_filter.mp hmem).1
  have hid : x.id = m.id := by
    rw [← Memory.base_id x, hx, Memory.base_id]
  rw [hl, memory_unique hv hxmem hm hid]

theorem Recut.push (h : Recut ports db i docs)
    (hnew : m.id ∉ (itemRows db i).map (·.id))
    (hrows : itemRows db' i
      = stamped m.id doc.text (itemRows db i ++ [m.base]))
    (hheld : itemHeld db' i = cutFor ports.chunker.version m.id
      (newestCut ports (docs ++ [doc])))
    (hn : Numbered (rowsOf item i (views db'))) :
    Recut ports db' i (docs ++ [doc]) := by
  have hstamped : itemRows db' i = itemRows db i
      ++ [{ m.base with normalizedHash := some ⟨doc.text⟩ }] := by
    rw [hrows]
    unfold stamped
    rw [List.map_append]
    congr 1
    · exact stamped_other hnew
    · simp
  refine ⟨hn, ?_, ?_⟩
  · rw [hstamped, List.map_append, List.map_append, h.hashes]
    rfl
  · rw [hstamped, hheld, List.map_append, List.map_cons, List.map_nil,
      List.getLast?_concat]
    rfl

theorem Recut.observe (h : Recut ports db i docs) (hb : Rebuilt db)
    (hi : e.item = i) (hp : e.item ∉ purged)
    (ht : e.eventType = .artifactObserved)
    (hrun : rebuildEvent ports blobs purged now db e = (db', none)) :
    ∃ doc, docOf ports blobs e = some doc
      ∧ Recut ports db' i (docs ++ [doc]) := by
  obtain ⟨-, hviews'⟩ := rebuildEvent_ok hb hp
    (fun hpt => by rw [ht] at hpt; cases hpt) hrun
  obtain ⟨m, r, r', hm, hr, hr', rfl⟩ := rebuildEvent_inv hp ht hrun
  obtain ⟨hrows, hheld⟩ := @added_item db e i m hb hm
  rw [if_pos hi] at hrows
  obtain ⟨hb₁, hviews, -⟩ := observed_rows hb hm
  have hid : m.id = db.nextId := (memoryFromEvent_new hm).1
  have hhash : m.normalizedHash = none := (memoryFromEvent_new hm).2.1
  have hdel : m.deletedAt = none := (memoryFromEvent_new hm).2.2
  have hmi : m.item = i := (memoryFromEvent_item hm).trans hi
  have hnew : m.id ∉ (itemRows db i).map (·.id) := by
    intro hmem
    obtain ⟨x, hx, hxid⟩ := List.mem_map.mp hmem
    have hlt := itemRows_fresh hb.versions x hx
    rw [hxid, hid] at hlt
    exact Nat.lt_irrefl _ hlt
  obtain ⟨n, hmem⟩ := @addVersion_memory
    { db with nextId := db.nextId + 1 } m (by rw [hid]; exact hb.versions)
  -- the rows are numbered before and after the run
  have hnumbered : Numbered (rowsOf item i
      (Projection.apply (views db) e)) := by
    have hown := apply_local.own (views db) e
    rw [hi] at hown
    rw [hown]
    exact numbered_apply h.numbered fun v hv => by
      rw [hi]
      exact of_decide_eq_true (List.mem_filter.mp hv).2
  have hn' : Numbered (rowsOf item i (views r'.1)) := by
    rw [hviews']
    exact hnumbered
  have hn₁ : Numbered (rowsOf item i
      (views (addVersion { db with nextId := db.nextId + 1 } m))) := by
    rw [hviews ht]
    exact hnumbered
  have hitem := @embed_item r.1 i _ _ _ _ _ hr'
  generalize addVersion { db with nextId := db.nextId + 1 } m = db₁
    at hrows hheld hb₁ hmem hn₁ hr
  obtain ⟨hm₁, -⟩ := Db.memory_mem hmem
  obtain ⟨m', hm', ⟨-, hsome | ⟨doc, -, hcur⟩⟩ | ⟨-, doc, hdoc, -, hcase⟩⟩ :=
    NormalizeMemory.call_cases hr
  · rw [hmem, Option.some.injEq] at hm'
    rw [← hm', hdel] at hsome
    cases hsome
  · rw [hmem, Option.some.injEq] at hm'
    unfold NormalizeMemory.isCurrent at hcur
    rw [← hm', hhash] at hcur
    cases hcur
  · rw [hmem, Option.some.injEq] at hm'
    subst hm'
    refine ⟨doc, docOf_parse n hm hdoc, ?_⟩
    obtain ⟨p, hprev, honly, -, heq⟩ | ⟨hnone, heq⟩ := hcase
    · obtain ⟨hpm, hpi, -, hphash⟩ := previousVersion_row hprev
      obtain ⟨hrows', hheld'⟩ := adopt_item hm₁ hmi hpm (hpi.trans hmi) heq
      -- what has chunks is the version before
      have hsome := (only_eq_true.mp honly).1
      rw [chunkVersions_eq hpm (hpi.trans hmi), hheld] at hsome
      obtain ⟨x, hx, hxid⟩ := NormalizeMemory.heldVersions_ne_nil hsome
      rcases List.eq_nil_or_concat docs with rfl | ⟨docs₀, last, rfl⟩
      · rw [h.held_nil] at hx
        cases hx
      · rw [List.concat_eq_append] at h ⊢
        obtain ⟨init, q, hq, hqhash, hqheld⟩ := h.last_row
        rw [hqheld] at hx
        obtain ⟨c, -, rfl⟩ := List.mem_map.mp hx
        have hpq : p.base = q := by
          refine NormalizeMemory.row_unique (itemRows_ids hb₁.versions)
            (mem_itemRows.mpr ⟨p, hpm, hpi.trans hmi, rfl⟩) ?_ hxid.symm
          rw [hrows, hq]
          simp
        have htext : last.text = doc.text := by
          rw [← hpq, Memory.base_normalizedHash, hphash, Option.some.injEq,
            TextHash.mk.injEq] at hqhash
          exact hqhash.symm
        refine h.push hnew ?_ ?_ hn'
        · rw [hitem.rows, hrows', hrows]
        · rw [hitem.held, hheld', hheld, hqheld, newestCut_same htext,
            ← show q.id = p.id from hxid, moved_cutFor]
    · obtain ⟨hrows', hheld'⟩ := store_item hm₁ hmi heq
      refine h.push hnew ?_ ?_ hn'
      · rw [hitem.rows, hrows', hrows]
      · rw [hitem.held, hheld']
        congr 1
        rcases List.eq_nil_or_concat docs with rfl | ⟨docs₀, last, rfl⟩
        · rfl
        · rw [List.concat_eq_append] at h ⊢
          by_cases htext : last.text = doc.text
          · -- the version before has this text, so it has no chunks to take
            obtain ⟨init, q, hq, hqhash, hqheld⟩ := h.last_row
            obtain ⟨init', p, hmems, hpq⟩ := mems_split hb₁.versions hm₁
              (show itemRows db₁ m.item = init ++ [q] ++ [m.base] by
                rw [hmi, hrows, hq])
            have hpid : p.id = q.id := by
              rw [← Memory.base_id p, hpq]
            obtain ⟨hpm, hpi⟩ := List.mem_filter.mp
              (hmems ▸ by simp : p ∈ db₁.memories.filter fun x =>
                decide (x.item = m.item))
            have hne : p.id ≠ m.id := by
              intro hpm'
              refine hnew (List.mem_map.mpr ⟨q, ?_, hpid.symm.trans hpm'⟩)
              rw [hq]
              simp
            have hphash : p.normalizedHash = some ⟨doc.text⟩ := by
              rw [← htext, ← hqhash, ← hpq]
              rfl
            have honly := hnone p (previousVersion_last hmems
              (hmi ▸ hn₁) hne hphash)
            have hempty : newestCut ports (docs₀ ++ [last]) = [] := by
              by_contra hsome
              rw [chunkVersions_eq hpm ((of_decide_eq_true hpi).trans hmi),
                hheld, hqheld] at honly
              refine Bool.noConfusion (honly.symm.trans (only_eq_true.mpr ?_))
              obtain ⟨c, hc⟩ := List.exists_mem_of_ne_nil _ hsome
              refine ⟨?_, fun v hv => ?_⟩
              · refine List.ne_nil_of_mem (a := ports.chunker.version) ?_
                exact List.mem_map.mpr ⟨_, List.mem_filter.mpr
                  ⟨List.mem_map_of_mem hc, decide_eq_true hpid.symm⟩, rfl⟩
              · obtain ⟨x, hx, rfl⟩ := List.mem_map.mp hv
                obtain ⟨c, -, rfl⟩ := List.mem_map.mp (List.mem_filter.mp hx).1
                rfl
            rw [newestCut_same htext, hempty, Chunker.chunk_eq_nil_iff,
              ← htext]
            exact blank_of_newestCut hempty
          · rw [newestCut_other htext]

-- ========= the log

theorem rebuildEvent_rows (h : Rebuilt db)
    (hpurge : e.eventType = .itemPurged → e.item ∈ purged)
    (hrun : rebuildEvent ports blobs purged now db e = (db', none)) :
    Rebuilt db' ∧ (e.item ∈ purged ∧ db' = db
      ∨ e.item ∉ purged ∧ views db' = Projection.apply (views db) e) := by
  by_cases hp : e.item ∈ purged
  · rw [rebuildEvent_purged ports blobs now hp] at hrun
    cases hrun
    exact ⟨h, .inl ⟨hp, rfl⟩⟩
  · obtain ⟨h', hviews⟩ := rebuildEvent_ok h hp hpurge hrun
    exact ⟨h', .inr ⟨hp, hviews⟩⟩

theorem rebuild_other {log : List IngestionEvent} (h : Rebuilt db)
    (hpurges : ∀ e ∈ log, e.eventType = .itemPurged → e.item ∈ purged)
    (hother : ∀ e ∈ log, e.item = i → e.item ∈ purged)
    (hrun : forEach (rebuildEvent ports blobs purged now) db log
      = (db', none)) :
    ItemSame i db db'
      ∧ rowsOf item i (views db') = rowsOf item i (views db) := by
  induction log generalizing db with
  | nil =>
    cases hrun
    exact ⟨.refl i _, rfl⟩
  | cons e rest ih =>
    obtain ⟨db₁, hrun₁, hrest⟩ := forEach_cons_inv hrun
    have hpurge := hpurges e List.mem_cons_self
    obtain ⟨h₁, hcase⟩ := rebuildEvent_rows h hpurge hrun₁
    obtain ⟨hs, hviews⟩ := ih h₁
      (fun x hx => hpurges x (List.mem_cons_of_mem e hx))
      (fun x hx => hother x (List.mem_cons_of_mem e hx)) hrest
    have hs₁ := @rebuildEvent_same ports blobs purged now db db₁ e i h
      hpurge (fun hi => .inr (hother e List.mem_cons_self hi)) hrun₁
    refine ⟨hs₁.trans hs, hviews.trans ?_⟩
    obtain ⟨-, rfl⟩ | ⟨hp, hviews₁⟩ := hcase
    · rfl
    · rw [hviews₁]
      refine apply_local.other _ _ _ fun hi => hp ?_
      exact hother e List.mem_cons_self hi.symm

theorem rebuild_recut {log : List IngestionEvent} (h : Rebuilt db)
    (hr : Recut ports db i docs) (hi : i ∉ purged)
    (hpurges : ∀ e ∈ log, e.eventType = .itemPurged → e.item ∈ purged)
    (hrun : forEach (rebuildEvent ports blobs purged now) db log
      = (db', none)) :
    Recut ports db' i
      (docs ++ docsOf ports blobs (eventsOf IngestionEvent.item i log)) := by
  induction log generalizing db docs with
  | nil =>
    cases hrun
    rw [show docsOf ports blobs (eventsOf IngestionEvent.item i []) = []
      from rfl, List.append_nil]
    exact hr
  | cons e rest ih =>
    obtain ⟨db₁, hrun₁, hrest⟩ := forEach_cons_inv hrun
    have hpurge := hpurges e List.mem_cons_self
    obtain ⟨h₁, hcase⟩ := rebuildEvent_rows h hpurge hrun₁
    have hpurges' : ∀ x ∈ rest, x.eventType = .itemPurged →
        x.item ∈ purged := fun x hx =>
      hpurges x (List.mem_cons_of_mem e hx)
    by_cases hown : e.item = i ∧ e.eventType = .artifactObserved
    · obtain ⟨hei, ht⟩ := hown
      obtain ⟨doc, hdoc, hr₁⟩ := hr.observe h hei (hei ▸ hi) ht hrun₁
      have hrec := ih h₁ hr₁ hpurges' hrest
      rw [List.append_assoc] at hrec
      have hdocs : docsOf ports blobs
          (eventsOf IngestionEvent.item i (e :: rest))
          = doc :: docsOf ports blobs
            (eventsOf IngestionEvent.item i rest) := by
        unfold docsOf eventsOf
        rw [List.filter_cons, if_pos (decide_eq_true hei), List.filter_cons,
          if_pos (show isObservation e = true from decide_eq_true ht),
          List.filterMap_cons, hdoc]
      rw [hdocs]
      exact hrec
    · have hs := @rebuildEvent_same ports blobs purged now db db₁ e i h
        hpurge (fun hei => .inl fun ht => hown ⟨hei, ht⟩) hrun₁
      have hn : Numbered (rowsOf item i (views db₁)) := by
        obtain ⟨-, rfl⟩ | ⟨-, hviews₁⟩ := hcase
        · exact hr.numbered
        · rw [hviews₁]
          by_cases hei : e.item = i
          · have hrows := apply_local.own (views db) e
            rw [hei] at hrows
            rw [hrows]
            exact numbered_apply hr.numbered fun v hv => by
              rw [hei]
              exact of_decide_eq_true (List.mem_filter.mp hv).2
          · rw [apply_local.other _ _ _ (Ne.symm hei)]
            exact hr.numbered
      have hdocs : docsOf ports blobs
          (eventsOf IngestionEvent.item i (e :: rest))
          = docsOf ports blobs (eventsOf IngestionEvent.item i rest) := by
        unfold docsOf eventsOf
        rw [List.filter_cons]
        split
        case isTrue hei =>
          rw [List.filter_cons, if_neg]
          intro ht
          exact hown ⟨of_decide_eq_true hei, of_decide_eq_true ht⟩
        case isFalse => rfl
      rw [hdocs]
      exact ih h₁ (hr.same hs hn) hpurges' hrest

end MemoryOS.ReplayCorpus
