/-
The live writers keep `memories` equal to what the log says.

`Faithful` is the invariant of a live run: the table's unique indexes,
the log's own order, and `views = corpusOf events`. Each operation either
leaves the versions and the log alone or appends one event and does to
the rows what the projection does for it.
-/
import MemoryOS.Corpus.Live
import MemoryOS.Corpus.Proofs.Versions

namespace MemoryOS

open Projection

/-- The corpus is what its log says, and the log is well formed. -/
structure Faithful (db : Db) : Prop where
  versions : Versions (keyed db) db.nextId
  folded : views db = corpusOf db.events
  ordered : db.events.Pairwise fun e e' => e.seq < e'.seq
  numbered : ∀ e ∈ db.events, 0 < e.seq ∧ e.seq < db.nextSeq
  nextSeq : 0 < db.nextSeq
  content : ∀ e ∈ db.events, e.eventType = .artifactObserved →
    e.contentHash.isSome

variable {now : Timestamp} {db db' : Db} {item : ObservedItem}
  {sourceId id : Id} {s s' : Store}

theorem Faithful.positive (h : Faithful db) :
    ∀ e ∈ db.events, 0 < e.seq :=
  fun e he => (h.numbered e he).1

theorem faithful_start (sources : List Source) :
    Faithful (Live.start sources).db := by
  constructor
  · exact Versions.empty _
  · rfl
  · exact List.Pairwise.nil
  · intro e he
    cases he
  · exact Nat.one_pos
  · intro e he
    cases he

theorem Faithful.same (h : Faithful db)
    (hs : SameVersions db db') : Faithful db' := by
  constructor
  · exact hs.versions h.versions
  · rw [hs.views, hs.events, h.folded]
  · rw [hs.events]
    exact h.ordered
  · rw [hs.events, hs.nextSeq]
    exact h.numbered
  · rw [hs.nextSeq]
    exact h.nextSeq
  · rw [hs.events]
    exact h.content

theorem corpusOf_concat (log : List IngestionEvent) (e : IngestionEvent) :
    corpusOf (log ++ [e]) = Projection.apply (corpusOf log) e := by
  unfold corpusOf
  rw [List.foldl_append, List.foldl_cons, List.foldl_nil]

theorem Faithful.append {db db' : Db} (h : Faithful db)
    (draft : EventDraft) (now : Timestamp)
    (hevents : db'.events = db.events ++ [draft.event db.nextSeq now])
    (hseq : db'.nextSeq = db.nextSeq + 1)
    (hviews : views db'
      = Projection.apply (views db) (draft.event db.nextSeq now))
    (hversions : Versions (keyed db') db'.nextId)
    (hcontent : draft.eventType = .artifactObserved →
      draft.contentHash.isSome) : Faithful db' := by
  constructor
  · exact hversions
  · rw [hviews, hevents, corpusOf_concat, h.folded]
  · rw [hevents, List.pairwise_append]
    refine ⟨h.ordered, List.pairwise_singleton _ _, fun e he e' he' => ?_⟩
    rw [List.mem_singleton.mp he']
    exact (h.numbered e he).2
  · intro e he
    rw [hseq]
    rw [hevents] at he
    rcases List.mem_append.mp he with he | he
    · exact ⟨(h.numbered e he).1, Nat.lt_succ_of_lt (h.numbered e he).2⟩
    · rw [List.mem_singleton.mp he]
      exact ⟨h.nextSeq, Nat.lt_succ_self _⟩
  · rw [hseq]
    exact Nat.succ_pos _
  · intro e he
    rw [hevents] at he
    rcases List.mem_append.mp he with he | he
    · exact h.content e he
    · rw [List.mem_singleton.mp he]
      exact hcontent

-- ======= observing

theorem recordVersion_faithful (h : Faithful db) :
    Faithful (recordVersion db sourceId item now).1 := by
  unfold recordVersion appendEvent
  simp only
  cases hm : memoryFromEvent
      ((observation sourceId item).event db.nextSeq now) db.nextId with
  | none => cases hm
  | some m =>
    simp only
    have hid : m.id = db.nextId := by
      cases hm
      rfl
    rw [← hid] at hm
    -- the database the version is added to: one event and one id further
    have hv : Versions (keyed { db with
        events := db.events ++ [(observation sourceId item).event db.nextSeq now]
        nextSeq := db.nextSeq + 1, nextId := db.nextId + 1 }) m.id := by
      rw [hid]
      exact h.versions
    refine h.append (observation sourceId item) now
      ?_ ?_ ?_ ?_ (fun _ => rfl)
    · rw [Db.enqueue_events, Db.enqueue_events, addVersion_events]
    · rw [Db.enqueue_nextSeq, Db.enqueue_nextSeq, addVersion_nextSeq]
    · exact addVersion_views hv rfl hm
    · refine Versions.mono (addVersion_versions hv) ?_
      rw [Db.enqueue_nextId, Db.enqueue_nextId, addVersion_nextId, hid]
      exact Nat.le_add_right _ 2

theorem ingestItem_cases {out : Option Ingested}
    (hin : ingestItem s sourceId item now = .ok (s', out)) :
    (unchanged s.db sourceId item = true ∧ s' = s ∧ out = none)
      ∨ unchanged s.db sourceId item = false ∧ ∃ artifacts blobs,
        (blobs = s.blobs ∨ ∃ data, blobs = s.blobs.put item.contentHash data)
        ∧ s' = ⟨(recordVersion { s.db with artifacts := artifacts } sourceId
            item now).1, blobs⟩
        ∧ out = some ⟨(recordVersion { s.db with artifacts := artifacts }
            sourceId item now).2,
            (currentRow s.db sourceId item.externalKey).isSome⟩ := by
  unfold ingestItem at hin
  simp only at hin
  split at hin
  case isTrue hu =>
    cases hin
    exact .inl ⟨hu, rfl, rfl⟩
  case isFalse hu =>
    refine .inr ⟨by simpa using hu, ?_⟩
    split at hin
    case h_1 => cases hin
    case h_2 s₁ hs₁ =>
      split at hin
      case isTrue => cases hin
      case isFalse =>
        cases hin
        unfold storeArtifact at hs₁
        split at hs₁
        case isTrue =>
          cases hs₁
          exact ⟨s.db.artifacts, s.blobs, .inl rfl, rfl, rfl⟩
        case isFalse =>
          simp only at hs₁
          split at hs₁
          case isTrue =>
            cases hs₁
            exact ⟨_, s.blobs, .inl rfl, rfl, rfl⟩
          case isFalse =>
            split at hs₁
            case h_1 => cases hs₁
            case h_2 data hdata =>
              cases hs₁
              exact ⟨_, _, .inr ⟨data, rfl⟩, rfl, rfl⟩

theorem ingestItem_faithful {out : Option Ingested}
    (h : Faithful s.db)
    (hin : ingestItem s sourceId item now = .ok (s', out)) :
    Faithful s'.db := by
  obtain ⟨-, rfl, -⟩ | ⟨-, artifacts, blobs, -, rfl, -⟩ := ingestItem_cases hin
  · exact h
  · exact recordVersion_faithful (h.same ⟨rfl, rfl, rfl, Nat.le_refl _⟩)

theorem restore_cases (hr : Deletion.restore s id now = .ok s') :
    ∃ sourceId item out, ingestItem s sourceId item now = .ok (s', some out) := by
  unfold Deletion.restore at hr
  split at hr
  case h_1 => cases hr
  case h_2 item hitem =>
    split at hr
    case h_1 => cases hr
    case h_2 current hc =>
      split at hr
      case isTrue => cases hr
      case isFalse =>
        split at hr
        case isTrue => cases hr
        case isFalse =>
          simp only at hr
          split at hr
          case h_1 => cases hr
          case h_2 => cases hr
          case h_3 s₁ out hin =>
            cases hr
            exact ⟨_, _, out, hin⟩

theorem restore_faithful
    (h : Faithful s.db) (hr : Deletion.restore s id now = .ok s') :
    Faithful s'.db := by
  obtain ⟨_, _, _, hin⟩ := restore_cases hr
  exact ingestItem_faithful h hin

-- ======== deleting

theorem markDeleted_faithful {i : Item} {c : Memory} (h : Faithful db)
    (hc : currentRow db i.sourceId i.externalKey = some c) :
    Faithful (Deletion.markDeleted db i c.id now) := by
  unfold Deletion.markDeleted appendEvent
  refine h.append
    ⟨.itemDeleted, i.sourceId, i.externalKey, none, none, .unknown, none⟩ now
    rfl rfl ?_ ?_ (fun ht => by cases ht)
  · exact tombstoneRow_views h.versions hc rfl
  · exact (tombstoneRow_versions h.versions).mono (Nat.le_succ _)

theorem tombstone_cases (ht : Deletion.tombstone db id now = .ok db') :
    db' = db ∨ ∃ i c, currentRow db i.sourceId i.externalKey = some c
      ∧ db' = Deletion.markDeleted db i c.id now := by
  unfold Deletion.tombstone at ht
  split at ht
  case h_1 => cases ht
  case h_2 item hitem =>
    split at ht
    case h_1 => cases ht
    case h_2 current hc =>
      split at ht
      case isTrue =>
        cases ht
        exact .inl rfl
      case isFalse =>
        cases ht
        exact .inr ⟨item, current, hc, rfl⟩

theorem tombstone_faithful
    (h : Faithful db) (ht : Deletion.tombstone db id now = .ok db') :
    Faithful db' := by
  obtain rfl | ⟨i, c, hc, rfl⟩ := tombstone_cases ht
  · exact h
  · exact markDeleted_faithful h hc

theorem currentRow_markDeleted {db : Db} {i : Item} {id sourceId : Id}
    {externalKey : String} {now : Timestamp} :
    (currentRow (Deletion.markDeleted db i id now) sourceId externalKey).map
        (·.id)
      = (currentRow db sourceId externalKey).map (·.id) := by
  unfold Deletion.markDeleted appendEvent tombstoneRow currentRow
  simp only [Db.enqueue_memories]
  rw [List.find?_map, Option.map_map]
  have hpred : (isCurrentOf sourceId externalKey ∘ fun m : Memory =>
      if m.id = id then { m with deletedAt := some now } else m)
      = isCurrentOf sourceId externalKey := by
    funext m
    by_cases hid : m.id = id <;> simp [isCurrentOf, hid]
  unfold EventDraft.event
  rw [hpred]
  congr 1
  funext m
  by_cases hid : m.id = id <;> simp [hid]

theorem knownId_current {k : String}
    (hv : Versions (keyed db) db.nextId)
    (hk : Deletion.knownId (Deletion.knownOf db sourceId) k = some id) :
    (currentRow db sourceId k).map (·.id) = some id := by
  unfold Deletion.knownId at hk
  obtain ⟨m, hlast, rfl⟩ := Option.map_eq_some_iff.mp hk
  have hmem := List.mem_of_getLast? hlast
  obtain ⟨hknown, hkey⟩ := List.mem_filter.mp hmem
  obtain ⟨hm, hcur⟩ := List.mem_filter.mp hknown
  simp only [Bool.and_eq_true, decide_eq_true_eq] at hkey hcur
  have hof : isCurrentOf sourceId k m = true := by
    simp [isCurrentOf, hcur.1.1, hkey, hcur.1.2]
  cases hc : currentRow db sourceId k with
  | none =>
    have hno := List.find?_eq_none.mp hc m hm
    exact absurd hof hno
  | some c =>
    rw [Option.map_some, Option.some.injEq]
    refine ((id_eq_current hv hc hm).mpr ?_).symm
    rw [← isCurrentOf_eq]
    exact hof

theorem sweepOne_faithful {known : List Memory}
    {k : String} (h : Faithful db)
    (hk : ∀ id, Deletion.knownId known k = some id →
      (currentRow db sourceId k).map (·.id) = some id) :
    Faithful (Deletion.sweepOne sourceId known db k now) := by
  unfold Deletion.sweepOne
  split
  case h_1 => exact h
  case h_2 id hid =>
    obtain ⟨c, hc, rfl⟩ := Option.map_eq_some_iff.mp (hk id hid)
    exact markDeleted_faithful h hc

theorem detectDeletions_faithful
    {observed : List String} {clock : String → Timestamp}
    (h : Faithful db) :
    Faithful (Deletion.detectDeletions db sourceId observed clock) := by
  unfold Deletion.detectDeletions
  simp only
  generalize List.mergeSort _ _ = missing
  have hknown : ∀ k id, Deletion.knownId (Deletion.knownOf db sourceId) k
      = some id → (currentRow db sourceId k).map (·.id) = some id :=
    fun k id hk => knownId_current h.versions hk
  generalize Deletion.knownOf db sourceId = known at hknown ⊢
  induction missing generalizing db with
  | nil => exact h
  | cons k rest ih =>
    rw [List.foldl_cons]
    refine ih (sweepOne_faithful h (hknown k)) fun k' id hk' => ?_
    rw [← hknown k' id hk']
    unfold Deletion.sweepOne
    split
    case h_1 => rfl
    case h_2 => exact currentRow_markDeleted

-- ========= purging

theorem purgeOne_faithful {i : Item}
    {r : Db × List ContentHash} (h : Faithful db)
    (hp : Deletion.purgeOne db i now = .ok r) : Faithful r.1 := by
  unfold Deletion.purgeOne at hp
  simp only at hp
  split at hp
  case isTrue => cases hp
  case isFalse =>
    cases hp
    refine h.append
      ⟨.itemPurged, i.sourceId, i.externalKey, none, none, .unknown, none⟩ now
      rfl rfl ?_ ?_ (fun ht => by cases ht)
    · show List.map Memory.view (db.memories.filter _)
        = (views db).filter _
      unfold views
      rw [List.filter_map]
      congr 1
      refine List.filter_congr fun m _ => ?_
      show (!decide (m.item = i)) = decide (m.item ≠ i)
      rw [decide_not]
    · have hk : keyed ((db.deleteMemories fun m => decide (m.item = i)))
          = (keyed db).filter fun r => !decide (Projection.item r.2 = i) := by
        unfold keyed
        rw [List.filter_map]
        rfl
      have hv := h.versions.filter fun r => !decide (Projection.item r.2 = i)
      rw [← hk] at hv
      exact hv.mono (Nat.le_succ _)

theorem purgeLoop_faithful {items : List (Item × Timestamp)}
    (h : Faithful db) : Faithful (Deletion.purgeLoop db items).1 := by
  induction items generalizing db with
  | nil => exact h
  | cons x rest ih =>
    obtain ⟨i, now⟩ := x
    unfold Deletion.purgeLoop
    split
    case h_1 => exact h
    case h_2 db₁ hashes hp =>
      exact ih (purgeOne_faithful h hp)

-- ========= the run

theorem step_faithful {ports : Ports} {s : Store} {op : Live.Op}
    (h : Faithful s.db) : Faithful (Live.step ports s op).db := by
  unfold Live.step
  cases op with
  | upload hash data => exact h
  | ingest sourceId item now =>
    simp only
    split
    case h_1 => exact h
    case h_2 r hr => exact ingestItem_faithful h hr
  | detectDeletions sourceId observed clock =>
    exact detectDeletions_faithful h
  | tombstone memoryId now =>
    simp only
    split
    case h_1 => exact h
    case h_2 db hdb => exact tombstone_faithful h hdb
  | restore memoryId now =>
    simp only
    split
    case h_1 => exact h
    case h_2 s' hs' => exact restore_faithful h hs'
  | purge items =>
    simp only
    unfold Deletion.purge
    simp only
    split
    · exact purgeLoop_faithful h
    · exact purgeLoop_faithful h
  | normalize memoryId now =>
    simp only
    split
    case h_1 => exact h
    case h_2 r hr => exact h.same (normalize_same hr)
  | embed memoryId now =>
    simp only
    split
    case h_1 => exact h
    case h_2 r hr => exact h.same (embed_same hr)

theorem run_faithful (ports : Ports) (sources : List Source)
    (ops : List Live.Op) : Faithful (Live.run ports sources ops).db := by
  unfold Live.run
  have hrun : ∀ s : Store, Faithful s.db →
      Faithful (ops.foldl (Live.step ports) s).db := by
    induction ops with
    | nil => exact fun s hs => hs
    | cons op rest ih =>
      intro s hs
      exact ih _ (step_faithful hs)
  exact hrun _ (faithful_start sources)

/-- **The corpus is what its log says.** Whatever is ingested, swept, deleted,
restored and purged, and normalized and embedded in between: the table is the
fold of the log, whose numbers ascend, and an item has one current version. -/
theorem log_tells_corpus (ports : Ports) (sources : List Source)
    (ops : List Live.Op) :
    let db := (Live.run ports sources ops).db
    views db = corpusOf db.events
      ∧ (db.events.Pairwise fun e e' => e.seq < e'.seq)
      ∧ ∀ m ∈ db.memories, ∀ m' ∈ db.memories, m.isCurrent = true →
        m'.isCurrent = true → m.sourceId = m'.sourceId →
          m.externalKey = m'.externalKey → m = m' := by
  intro db
  have h : Faithful db := run_faithful ports sources ops
  refine ⟨h.folded, h.ordered, fun m hm m' hm' hcur hcur' hs hk => ?_⟩
  have hids : (db.memories.map (·.id)).Nodup := by
    have hids := h.versions.ids
    unfold keyed at hids
    rwa [List.map_map] at hids
  refine List.inj_on_of_nodup_map hids hm hm' ?_
  exact h.versions.current _ (List.mem_map_of_mem hm) _
    (List.mem_map_of_mem hm') hcur hcur' (congrArg₂ Item.mk hs hk)

end MemoryOS
