/-
What the statements on `memories` do, seen through `Projection`.

`Versions` is what the table's unique indexes promise: ids are unique,
and an item has at most one current version. Under it a statement that
finds the current row and then writes by id is the projection's step.
-/
import Mathlib.Data.List.Nodup
import MemoryOS.Corpus.Projection
import MemoryOS.Pipeline.Normalize

namespace MemoryOS

open Projection

/-- The rows of `memories`, by id. -/
def keyed (db : Db) : List (Id × MemoryView) :=
  db.memories.map fun m => (m.id, m.view)

/-- The rows of `memories` without their ids. -/
def views (db : Db) : List MemoryView := db.memories.map Memory.view

variable {rows : List (Id × MemoryView)} {e : IngestionEvent} {now : Timestamp}
  {db : Db} {id next : Id} {followup : Bool}

theorem views_eq_keyed (db : Db) : views db = (keyed db).map (·.2) := by
  unfold views keyed
  rw [List.map_map]
  rfl

/-- The unique indexes of `memories`, below a fresh id. -/
structure Versions (rows : List (Id × MemoryView)) (next : Id) : Prop where
  ids : (rows.map (·.1)).Nodup
  fresh : ∀ r ∈ rows, r.1 < next
  current : ∀ r ∈ rows, ∀ r' ∈ rows, r.2.isCurrent = true →
    r'.2.isCurrent = true → item r.2 = item r'.2 → r.1 = r'.1

theorem Versions.empty (next : Id) : Versions [] next := by
  constructor <;> simp

theorem Versions.mono {next' : Id}
    (h : Versions rows next) (hle : next ≤ next') : Versions rows next' :=
  ⟨h.ids, fun r hr => Nat.lt_of_lt_of_le (h.fresh r hr) hle, h.current⟩

theorem Versions.map (h : Versions rows next) {f : Id × MemoryView → MemoryView}
    (hitem : ∀ r, item (f r) = item r.2)
    (hcur : ∀ r, (f r).isCurrent = true → r.2.isCurrent = true) :
    Versions (rows.map fun r => (r.1, f r)) next := by
  constructor
  · rw [List.map_map]
    exact h.ids
  · intro r hr
    obtain ⟨r₀, hr₀, rfl⟩ := List.mem_map.mp hr
    exact h.fresh r₀ hr₀
  · intro r hr r' hr' hc hc' hi
    obtain ⟨r₀, hr₀, rfl⟩ := List.mem_map.mp hr
    obtain ⟨r₁, hr₁, rfl⟩ := List.mem_map.mp hr'
    exact h.current r₀ hr₀ r₁ hr₁ (hcur r₀ hc) (hcur r₁ hc')
      (by rw [← hitem r₀, ← hitem r₁]; exact hi)

theorem Versions.filter (h : Versions rows next) (p : Id × MemoryView → Bool) :
    Versions (rows.filter p) next := by
  have hsub : ∀ r ∈ rows.filter p, r ∈ rows := fun r hr =>
    (List.mem_filter.mp hr).1
  refine ⟨h.ids.sublist (List.filter_sublist.map _),
    fun r hr => h.fresh r (hsub r hr),
    fun r hr r' hr' => h.current r (hsub r hr) r' (hsub r' hr')⟩

section Statements

variable {db : Db} {m c : Memory} {next : Id} {sourceId : Id}
  {externalKey : String}

theorem isCurrentOf_eq (m : Memory) :
    isCurrentOf sourceId externalKey m
      = currentOf ⟨sourceId, externalKey⟩ m.view := by
  unfold isCurrentOf currentOf Projection.item Memory.view
  by_cases h1 : m.sourceId = sourceId <;>
    by_cases h2 : m.externalKey = externalKey <;> simp [h1, h2]

theorem find_views (i : Item) :
    (views db).find? (currentOf i)
      = (currentRow db i.sourceId i.externalKey).map Memory.view := by
  unfold views currentRow
  rw [List.find?_map]
  congr 2
  funext m
  exact (isCurrentOf_eq m).symm

theorem currentRow_some (h : currentRow db sourceId externalKey = some c) :
    c ∈ db.memories ∧ c.sourceId = sourceId ∧ c.externalKey = externalKey
      ∧ c.isCurrent = true := by
  have hp := List.find?_some h
  simp only [isCurrentOf, Bool.and_eq_true, decide_eq_true_eq] at hp
  exact ⟨List.mem_of_find?_eq_some h, hp.1.1, hp.1.2, hp.2⟩

theorem currentRow_none (h : currentRow db sourceId externalKey = none)
    (hm : m ∈ db.memories) :
    currentOf ⟨sourceId, externalKey⟩ m.view = false := by
  have hno := List.find?_eq_none.mp h m hm
  rw [← isCurrentOf_eq]
  simpa using hno

theorem id_eq_current (h : Versions (keyed db) next)
    (hc : currentRow db sourceId externalKey = some c) (hm : m ∈ db.memories) :
    m.id = c.id ↔ currentOf ⟨sourceId, externalKey⟩ m.view = true := by
  obtain ⟨hmem, hs, hk, hcur⟩ := currentRow_some hc
  have hkm : ∀ x ∈ db.memories, (x.id, x.view) ∈ keyed db :=
    fun x hx => List.mem_map_of_mem hx
  constructor
  · intro hid
    have hinj : (m.id, m.view) = (c.id, c.view) :=
      List.inj_on_of_nodup_map h.ids (hkm m hm) (hkm c hmem) hid
    have hv : m.view = c.view := (Prod.mk.injEq .. ▸ hinj).2
    rw [hv]
    simp [currentOf, Projection.item, Memory.view, hs, hk, hcur]
  · intro hm'
    simp only [currentOf, Bool.and_eq_true, decide_eq_true_eq] at hm'
    refine h.current _ (hkm m hm) _ (hkm c hmem) hm'.2 hcur (hm'.1.trans ?_)
    simp [Projection.item, Memory.view, hs, hk]

theorem keyed_supersede (rows : List Memory) (id : Id) :
    (rows.map fun x : Memory =>
        if x.id = id then { x with isCurrent := false } else x).map
      (fun x => (x.id, x.view))
      = (rows.map fun x => (x.id, x.view)).map fun r =>
        (r.1, if r.1 = id then superseded r.2 else r.2) := by
  rw [List.map_map, List.map_map]
  refine List.map_congr_left fun x _ => ?_
  by_cases hid : x.id = id <;> simp [hid, superseded, Memory.view]

theorem addVersion_versions (h : Versions (keyed db) m.id) :
    Versions (keyed (addVersion db m)) (m.id + 1) := by
  have hstep : ∀ rows : List (Id × MemoryView), Versions rows m.id →
      (∀ r ∈ rows, r.2.isCurrent = true → item r.2 ≠ ⟨m.sourceId, m.externalKey⟩) →
      ∀ v : MemoryView, item v = ⟨m.sourceId, m.externalKey⟩ →
      Versions (rows ++ [(m.id, v)]) (m.id + 1) := by
    intro rows hr hno v hv
    constructor
    · rw [List.map_append, List.nodup_append]
      refine ⟨hr.ids, by simp, fun a ha b hb => ?_⟩
      obtain ⟨r, hrm, rfl⟩ := List.mem_map.mp ha
      simp only [List.map_cons, List.map_nil, List.mem_singleton] at hb
      rw [hb]
      exact Nat.ne_of_lt (hr.fresh r hrm)
    · intro r hrm
      rcases List.mem_append.mp hrm with hrm | hrm
      · exact Nat.lt_succ_of_lt (hr.fresh r hrm)
      · rw [List.mem_singleton.mp hrm]
        exact Nat.lt_succ_self _
    · intro r hrm r' hrm' hc hc' hi
      rcases List.mem_append.mp hrm with hrm | hrm
      · rcases List.mem_append.mp hrm' with hrm' | hrm'
        · exact hr.current r hrm r' hrm' hc hc' hi
        · rw [List.mem_singleton.mp hrm'] at hi
          exact absurd (hi.trans hv) (hno r hrm hc)
      · rcases List.mem_append.mp hrm' with hrm' | hrm'
        · rw [List.mem_singleton.mp hrm] at hi
          exact absurd (hi.symm.trans hv) (hno r' hrm' hc')
        · rw [List.mem_singleton.mp hrm, List.mem_singleton.mp hrm']
  unfold addVersion
  cases hc : currentRow db m.sourceId m.externalKey with
  | none =>
    show Versions (List.map _ (db.memories ++ [_])) _
    rw [List.map_append]
    refine hstep _ h (fun r hr hcur hi => ?_) _ rfl
    obtain ⟨x, hx, rfl⟩ := List.mem_map.mp hr
    have hno := currentRow_none hc hx
    have hcur' : x.view.isCurrent = true := hcur
    have hi' : item x.view = ⟨m.sourceId, m.externalKey⟩ := hi
    simp [currentOf, hi', hcur'] at hno
  | some c =>
    show Versions (List.map _ (List.map _ db.memories ++ [_])) _
    rw [List.map_append]
    have hmap : Versions ((keyed db).map fun r =>
        (r.1, if r.1 = c.id then superseded r.2 else r.2)) m.id := by
      apply h.map
      · intro r
        by_cases hid : r.1 = c.id <;> simp [hid, superseded, Projection.item]
      · intro r hcur
        by_cases hid : r.1 = c.id
        · simp [hid, superseded] at hcur
        · simpa [hid] using hcur
    rw [keyed_supersede]
    refine hstep _ hmap (fun r hr hcur hi => ?_) _ rfl
    obtain ⟨r₀, hr₀, rfl⟩ := List.mem_map.mp hr
    obtain ⟨x, hx, rfl⟩ := List.mem_map.mp hr₀
    by_cases hid : x.id = c.id
    · simp [hid, superseded] at hcur
    · simp only [hid, ↓reduceIte] at hcur hi
      apply hid
      rw [id_eq_current h hc hx]
      simp [currentOf, hi, hcur]

theorem addVersion_views {hash : ContentHash}
    (h : Versions (keyed db) next) (hh : e.contentHash = some hash)
    (hm : memoryFromEvent e m.id = some m) :
    views (addVersion db m) = observe (views db) e hash := by
  unfold memoryFromEvent at hm
  rw [hh, Option.map_some, Option.some.injEq] at hm
  have hs : m.sourceId = e.sourceId := by rw [← hm]
  have hk : m.externalKey = e.externalKey := by rw [← hm]
  have hnew : ∀ n sid key, sid = e.sourceId → key = e.externalKey →
      ({ m with sourceId := sid, externalKey := key, version := n, isCurrent := true } : Memory).view
      = observed e hash n := by
    rintro n _ _ rfl rfl
    rw [← hm]
    rfl
  unfold observe addVersion
  rw [hs, hk, find_views]
  simp only [IngestionEvent.item]
  cases hc : currentRow db e.sourceId e.externalKey with
  | none =>
    simp only [Option.map_none, views, List.map_append, List.map_cons,
      List.map_nil]
    rw [hnew 1 _ _ rfl rfl]
  | some c =>
    simp only [Option.map_some, views, List.map_append, List.map_cons,
      List.map_nil, List.map_map]
    rw [hnew (c.version + 1) _ _ rfl rfl]
    congr 1
    refine List.map_congr_left fun x hx => ?_
    have hiff := id_eq_current h hc hx
    by_cases hid : x.id = c.id
    · simp only [Function.comp, hid, ↓reduceIte, hiff.mp hid]
      rfl
    · have hno : currentOf ⟨e.sourceId, e.externalKey⟩ x.view = false := by
        rw [Bool.eq_false_iff]
        exact fun hcur => hid (hiff.mpr hcur)
      simp only [Function.comp, hid, ↓reduceIte, hno, Bool.false_eq_true]

theorem keyed_tombstoneRow (db : Db) (id : Id) (at_ : Timestamp) :
    keyed (tombstoneRow db id at_) = (keyed db).map fun r =>
      (r.1, if r.1 = id then { r.2 with deletedAt := some at_ } else r.2) := by
  unfold keyed tombstoneRow
  rw [List.map_map, List.map_map]
  refine List.map_congr_left fun x _ => ?_
  by_cases hid : x.id = id <;> simp [hid, Memory.view]

theorem tombstoneRow_versions {at_ : Timestamp}
    (h : Versions (keyed db) next) :
    Versions (keyed (tombstoneRow db id at_)) next := by
  rw [keyed_tombstoneRow]
  apply h.map
  · intro r
    by_cases hid : r.1 = id <;> simp [hid, Projection.item]
  · intro r hcur
    by_cases hid : r.1 = id
    · simpa [hid] using hcur
    · simpa [hid] using hcur

theorem tombstoneRow_views (h : Versions (keyed db) next)
    (hc : currentRow db e.sourceId e.externalKey = some c)
    (ht : e.eventType = .itemDeleted) :
    views (tombstoneRow db c.id e.recordedAt)
      = Projection.apply (views db) e := by
  unfold Projection.apply views tombstoneRow
  simp only [ht, List.map_map]
  refine List.map_congr_left fun x hx => ?_
  have hiff := id_eq_current h hc hx
  by_cases hid : x.id = c.id
  · simp only [Function.comp, hid, ↓reduceIte, IngestionEvent.item,
      hiff.mp hid]
    rfl
  · have hno : currentOf ⟨e.sourceId, e.externalKey⟩ x.view = false := by
      rw [Bool.eq_false_iff]
      exact fun hcur => hid (hiff.mpr hcur)
    simp only [Function.comp, hid, ↓reduceIte, IngestionEvent.item, hno,
      Bool.false_eq_true]

theorem deleted_views_none (hc : currentRow db e.sourceId e.externalKey = none)
    (ht : e.eventType = .itemDeleted) :
    Projection.apply (views db) e = views db := by
  unfold Projection.apply views
  simp only [ht, List.map_map]
  refine List.map_congr_left fun x hx => ?_
  simp only [Function.comp, IngestionEvent.item, currentRow_none hc hx,
    Bool.false_eq_true, ↓reduceIte]

end Statements

-- ====== what leaves them be

/-- A step that changes no version of any item and appends no event. -/
structure SameVersions (db db' : Db) : Prop where
  keyed : keyed db' = keyed db
  events : db'.events = db.events
  nextSeq : db'.nextSeq = db.nextSeq
  nextId : db.nextId ≤ db'.nextId

theorem SameVersions.refl (db : Db) : SameVersions db db :=
  ⟨rfl, rfl, rfl, Nat.le_refl _⟩

theorem SameVersions.trans {a b c : Db} (h : SameVersions a b)
    (h' : SameVersions b c) : SameVersions a c :=
  ⟨h'.keyed.trans h.keyed, h'.events.trans h.events,
    h'.nextSeq.trans h.nextSeq, Nat.le_trans h.nextId h'.nextId⟩

theorem SameVersions.versions {db' : Db} (h : SameVersions db db')
    (hv : Versions (MemoryOS.keyed db) db.nextId) :
    Versions (MemoryOS.keyed db') db'.nextId := by
  rw [h.keyed]
  exact hv.mono h.nextId

theorem SameVersions.views {db' : Db} (h : SameVersions db db') :
    MemoryOS.views db' = MemoryOS.views db := by
  rw [views_eq_keyed, views_eq_keyed, h.keyed]

theorem memory_isSome_iff (db : Db) (id : Id) :
    (db.memory id).isSome = true ↔ id ∈ (MemoryOS.keyed db).map (·.1) := by
  unfold Db.memory MemoryOS.keyed
  rw [List.find?_isSome, List.map_map]
  simp

theorem keyed_documented (db : Db) (id : Id) (doc : ParsedDocument) :
    keyed (NormalizeMemory.documented db id doc) = keyed db := by
  unfold keyed NormalizeMemory.documented
  rw [List.map_map]
  refine List.map_congr_left fun m _ => ?_
  by_cases hid : m.id = id <;>
    simp [hid, NormalizeMemory.applyDocument, Memory.view]

theorem enqueue_same (db : Db) (spec : JobSpec) (now : Timestamp) :
    SameVersions db (db.enqueue spec now) :=
  ⟨rfl, rfl, rfl, Nat.le_succ _⟩

theorem normalize_same {ports : Ports} {blobs : Blobs} {r : Db × NormalizeMemory.Outcome}
    (h : NormalizeMemory.call ports followup blobs db id now = .ok r) :
    SameVersions db r.1 := by
  unfold NormalizeMemory.call at h
  split at h
  case h_1 => cases h
  case h_2 m hm =>
    split at h
    case isTrue =>
      cases h
      exact .refl db
    case isFalse =>
      split at h
      case h_1 => cases h
      case h_2 doc hdoc =>
        split at h
        case isTrue =>
          cases h
          exact .refl db
        case isFalse =>
          split at h
          case h_1 => cases h
          case h_2 db' hadopt =>
            cases h
            unfold NormalizeMemory.adopt at hadopt
            split at hadopt
            case h_1 => cases hadopt
            case h_2 previous hp =>
              split at hadopt
              case isTrue => cases hadopt
              case isFalse =>
                split at hadopt
                case isTrue => cases hadopt
                case isFalse =>
                  cases hadopt
                  exact ⟨keyed_documented _ _ _, rfl, rfl, Nat.le_refl _⟩
          case h_3 =>
            cases h
            show SameVersions db (NormalizeMemory.store ports followup db m doc
              (ports.chunker.chunk doc) now)
            unfold NormalizeMemory.store
            cases followup with
            | false =>
              exact ⟨keyed_documented db m.id doc, rfl, rfl,
                Nat.le_add_right _ _⟩
            | true =>
              refine SameVersions.trans ?_ (enqueue_same _ _ _)
              exact ⟨keyed_documented db m.id doc, rfl, rfl,
                Nat.le_add_right _ _⟩

theorem write_same (embedder : Embedder) (vectors : Text → Embedding)
    (pending : List (Id × Text)) (db : Db) (now : Timestamp) :
    SameVersions db (EmbedMemory.write embedder vectors pending db now) := by
  unfold EmbedMemory.write
  induction pending generalizing db with
  | nil => exact .refl db
  | cons p rest ih =>
    rw [List.foldl_cons]
    refine SameVersions.trans ?_ (ih _)
    exact ⟨rfl, rfl, rfl, Nat.le_refl _⟩

theorem finish_same (embedder : Embedder) (followup : Bool) (db : Db)
    (id : Id) (pending : List (Id × Text)) (now : Timestamp) :
    SameVersions db
      (EmbedMemory.finish embedder followup db id pending now) := by
  have hw : SameVersions db
      (EmbedMemory.embedChunks embedder db pending now) := by
    refine SameVersions.trans ?_ (write_same embedder _ pending _ now)
    exact ⟨rfl, rfl, rfl, Nat.le_refl _⟩
  unfold EmbedMemory.finish
  cases followup with
  | false => exact hw
  | true => exact hw.trans (enqueue_same _ _ _)

theorem EmbedMemory.call_cases {embedder : Embedder} {r : Db × EmbedMemory.Outcome}
    (h : EmbedMemory.call embedder followup db id now = .ok r) :
    r.1 = db ∨ ∃ pending,
      EmbedMemory.read embedder db id = .ok (.embedded, pending)
      ∧ r.1 = EmbedMemory.finish embedder followup db id pending now := by
  unfold EmbedMemory.call at h
  split at h
  case h_1 => cases h
  case h_2 pending hread =>
    cases h
    exact .inr ⟨pending, hread, rfl⟩
  case h_3 =>
    cases h
    exact .inl rfl

theorem embed_same {embedder : Embedder} {r : Db × EmbedMemory.Outcome}
    (h : EmbedMemory.call embedder followup db id now = .ok r) :
    SameVersions db r.1 := by
  obtain heq | ⟨pending, -, heq⟩ := EmbedMemory.call_cases h
  · rw [heq]
    exact .refl db
  · rw [heq]
    exact finish_same embedder followup db id pending now

end MemoryOS
