/-
How an item's versions are numbered, and what recording an item and marking one
deleted do to the log and the rows, row by row.

The rows a log gives one item are numbered from 1, in order, and the last is the
current one. So a log that is read from the middle gives an item the rows the
whole of it does only if the part left out gives it none.
-/
import Mathlib.Data.List.Dedup
import MemoryOS.Corpus.Proofs.Live

namespace MemoryOS

namespace Projection

open Lib KeyedLog

/-- The versions of one item. -/
structure Numbered (rows : List MemoryView) : Prop where
  versions : rows.map (·.version) = List.range' 1 rows.length
  current : ∀ v ∈ rows, v.isCurrent = true ↔ v.version = rows.length

theorem numbered_nil : Numbered [] := by
  constructor <;> simp

variable {rows : List MemoryView} {e : IngestionEvent} {i : Item}

theorem Numbered.bounds (h : Numbered rows) {v : MemoryView} (hv : v ∈ rows) :
    1 ≤ v.version ∧ v.version ≤ rows.length := by
  have hmem : v.version ∈ List.range' 1 rows.length := by
    rw [← h.versions]
    exact List.mem_map_of_mem hv
  rw [List.mem_range'_1] at hmem
  omega

theorem Numbered.inj (h : Numbered rows) {v v' : MemoryView} (hv : v ∈ rows)
    (hv' : v' ∈ rows) (heq : v.version = v'.version) : v = v' := by
  refine List.inj_on_of_nodup_map ?_ hv hv' heq
  rw [h.versions]
  exact List.nodup_range' ..

theorem Numbered.current_unique (h : Numbered rows) {v v' : MemoryView}
    (hv : v ∈ rows) (hv' : v' ∈ rows) (hc : v.isCurrent = true)
    (hc' : v'.isCurrent = true) : v = v' :=
  h.inj hv hv' (((h.current v hv).mp hc).trans ((h.current v' hv').mp hc').symm)

theorem Numbered.exists_current (h : Numbered rows) (hne : rows ≠ []) :
    ∃ v ∈ rows, v.version = rows.length ∧ v.isCurrent = true := by
  have hlen : rows.length ∈ rows.map (·.version) := by
    have hpos := List.length_pos_of_ne_nil hne
    rw [h.versions, List.mem_range'_1]
    omega
  obtain ⟨v, hv, hlast⟩ := List.mem_map.mp hlen
  exact ⟨v, hv, hlast, (h.current v hv).mpr hlast⟩

theorem Numbered.last_current {init : List MemoryView} {l : MemoryView}
    (h : Numbered (init ++ [l])) : l.isCurrent = true := by
  rw [h.current l (List.mem_append_right _ List.mem_cons_self)]
  have hlast := congrArg List.getLast? h.versions
  rw [List.map_append, List.map_cons, List.map_nil, List.getLast?_concat,
    List.length_append, List.length_singleton, List.range'_1_concat,
    List.getLast?_concat, Option.some.injEq] at hlast
  rw [List.length_append, List.length_singleton, hlast]
  omega

-- ======= one event

theorem apply_items (h : ∀ v ∈ rows, item v = e.item) :
    ∀ v ∈ apply rows e, item v = e.item := by
  have hown := apply_local.own rows e
  have hall : rowsOf item e.item rows = rows :=
    List.filter_eq_self.mpr fun v hv => decide_eq_true (h v hv)
  rw [hall] at hown
  intro v hv
  rw [← hown] at hv
  exact of_decide_eq_true (List.mem_filter.mp hv).2

theorem numbered_observe {hash : ContentHash} (h : Numbered rows)
    (hitem : ∀ v ∈ rows, item v = e.item) :
    Numbered (observe rows e hash)
      ∧ (observe rows e hash).length = rows.length + 1 := by
  unfold observe
  split
  case h_1 hnone =>
    -- no row is current, so there is none
    have hnil : rows = [] := by
      by_contra hne
      obtain ⟨v, hv, -, hc⟩ := h.exists_current hne
      refine List.find?_eq_none.mp hnone v hv ?_
      rw [currentOf, hitem v hv, hc]
      simp
    subst hnil
    refine ⟨⟨rfl, fun v hv => ?_⟩, rfl⟩
    rw [List.mem_singleton.mp hv]
    simp [observed]
  case h_2 c hc =>
    have hcmem := List.mem_of_find?_eq_some hc
    have hcur := List.find?_some hc
    rw [currentOf, Bool.and_eq_true] at hcur
    have hlast := (h.current c hcmem).mp hcur.2
    have hlen : ((rows.map fun v => if currentOf e.item v then superseded v
        else v) ++ [observed e hash (c.version + 1)]).length
        = rows.length + 1 := by simp
    refine ⟨⟨?_, fun v hv => ?_⟩, hlen⟩
    · rw [hlen, List.map_append, List.map_map, List.range'_1_concat,
        ← h.versions]
      congr 1
      · refine List.map_congr_left fun v _ => ?_
        show (if currentOf e.item v then superseded v else v).version = v.version
        split <;> rfl
      · show [c.version + 1] = [1 + rows.length]
        rw [hlast, Nat.add_comm]
    · rw [hlen]
      rcases List.mem_append.mp hv with hv | hv
      · obtain ⟨x, hx, rfl⟩ := List.mem_map.mp hv
        have hbound := (h.bounds hx).2
        split
        case isTrue =>
          show (false = true) ↔ x.version = rows.length + 1
          simp only [Bool.false_eq_true, false_iff]
          omega
        case isFalse hno =>
          rw [currentOf, hitem x hx] at hno
          simp only [decide_true, Bool.true_and] at hno
          simp only [hno, Bool.false_eq_true, false_iff]
          omega
      · rw [List.mem_singleton.mp hv]
        show (true = true) ↔ c.version + 1 = rows.length + 1
        rw [hlast]
        simp

/-- Whether an event adds a row. -/
def isObservation (e : IngestionEvent) : Bool :=
  decide (e.eventType = .artifactObserved)

theorem numbered_apply (h : Numbered rows)
    (hitem : ∀ v ∈ rows, item v = e.item) : Numbered (apply rows e) := by
  unfold apply
  split
  · split
    · exact h
    · exact (numbered_observe h hitem).1
  · refine ⟨?_, fun v hv => ?_⟩
    · rw [List.length_map, List.map_map, ← h.versions]
      refine List.map_congr_left fun v _ => ?_
      show (if currentOf e.item v then _ else v).version = v.version
      split <;> rfl
    · obtain ⟨x, hx, rfl⟩ := List.mem_map.mp hv
      rw [List.length_map]
      split
      case isTrue => exact h.current x hx
      case isFalse => exact h.current x hx
  · have hnil : (rows.filter fun v => decide (item v ≠ e.item)) = [] := by
      rw [List.filter_eq_nil_iff]
      intro v hv
      simp [hitem v hv]
    rw [hnil]
    exact numbered_nil

theorem length_apply (h : Numbered rows) (hitem : ∀ v ∈ rows, item v = e.item)
    (hcontent : e.eventType = .artifactObserved → e.contentHash.isSome)
    (hpurge : e.eventType ≠ .itemPurged) :
    (apply rows e).length
      = rows.length + if isObservation e then 1 else 0 := by
  unfold apply isObservation
  cases ht : e.eventType with
  | artifactObserved =>
    obtain ⟨hash, hh⟩ := Option.isSome_iff_exists.mp (hcontent ht)
    simp only [hh]
    exact (numbered_observe h hitem).2
  | itemDeleted => simp
  | itemPurged => exact absurd ht hpurge

-- ========= the log

theorem numbered_fold {log : List IngestionEvent}
    (hkey : ∀ e ∈ log, e.item = i) (h : Numbered rows)
    (hitem : ∀ v ∈ rows, item v = i) :
    Numbered (log.foldl apply rows)
      ∧ ∀ v ∈ log.foldl apply rows, item v = i := by
  induction log generalizing rows with
  | nil => exact ⟨h, hitem⟩
  | cons e rest ih =>
    have he : e.item = i := hkey e List.mem_cons_self
    have hitem' : ∀ v ∈ rows, item v = e.item := fun v hv =>
      (hitem v hv).trans he.symm
    rw [List.foldl_cons]
    exact ih (fun x hx => hkey x (List.mem_cons_of_mem e hx))
      (numbered_apply h hitem')
      fun v hv => (apply_items hitem' v hv).trans he

theorem length_fold {log : List IngestionEvent}
    (hkey : ∀ e ∈ log, e.item = i)
    (hcontent : ∀ e ∈ log, e.eventType = .artifactObserved →
      e.contentHash.isSome)
    (hpurge : ∀ e ∈ log, e.eventType ≠ .itemPurged) (h : Numbered rows)
    (hitem : ∀ v ∈ rows, item v = i) :
    (log.foldl apply rows).length = rows.length + log.countP isObservation := by
  induction log generalizing rows with
  | nil => rfl
  | cons e rest ih =>
    have he : e.item = i := hkey e List.mem_cons_self
    have hitem' : ∀ v ∈ rows, item v = e.item := fun v hv =>
      (hitem v hv).trans he.symm
    rw [List.foldl_cons, ih (fun x hx => hkey x (List.mem_cons_of_mem e hx))
      (fun x hx => hcontent x (List.mem_cons_of_mem e hx))
      (fun x hx => hpurge x (List.mem_cons_of_mem e hx))
      (numbered_apply h hitem') fun v hv => (apply_items hitem' v hv).trans he,
      length_apply h hitem' (hcontent e List.mem_cons_self)
        (hpurge e List.mem_cons_self), List.countP_cons]
    omega

theorem late_start_iff {early late : List IngestionEvent}
    (hkey : ∀ e ∈ early ++ late, e.item = i)
    (hcontent : ∀ e ∈ late, e.eventType = .artifactObserved →
      e.contentHash.isSome)
    (hpurge : ∀ e ∈ late, e.eventType ≠ .itemPurged) :
    (∀ v ∈ (early ++ late).foldl apply [], v ∈ late.foldl apply [])
      ↔ (early ++ late).foldl apply [] = [] ∨ early.foldl apply [] = [] := by
  have hearly := @numbered_fold [] i early
    (fun e he => hkey e (List.mem_append_left _ he)) numbered_nil nofun
  have hall := @numbered_fold [] i (early ++ late) hkey numbered_nil nofun
  have hkey' : ∀ e ∈ late, e.item = i := fun e he =>
    hkey e (List.mem_append_right _ he)
  have hlate := @numbered_fold [] i late hkey' numbered_nil nofun
  constructor
  · intro hsub
    by_contra hno
    rw [not_or] at hno
    obtain ⟨hne, hne'⟩ := hno
    -- the whole log numbers a version that its second part cannot reach
    obtain ⟨v, hv, hlast, -⟩ := hall.1.exists_current hne
    have hle := (hlate.1.bounds (hsub v hv)).2
    have hlen := length_fold hkey' hcontent hpurge hearly.1 hearly.2
    have hlen' := length_fold hkey' hcontent hpurge numbered_nil
      (fun v (hv : v ∈ []) => by cases hv)
    have hpos := List.length_pos_of_ne_nil hne'
    rw [List.foldl_append] at hlast
    rw [List.length_nil] at hlen'
    omega
  · rintro (hnil | hnil) v hv
    · rw [hnil] at hv
      cases hv
    · rwa [List.foldl_append, hnil] at hv

end Projection

end MemoryOS

namespace MemoryOS

-- ====== a new version

theorem row_inj {db : Db} {next : Id} (h : Versions (keyed db) next)
    {m m' : Memory} (hm : m ∈ db.memories) (hm' : m' ∈ db.memories)
    (hid : m.id = m'.id) : m = m' := by
  have hids := h.ids
  unfold keyed at hids
  rw [List.map_map] at hids
  exact List.inj_on_of_nodup_map hids hm hm' hid

theorem addVersion_rows {db : Db} {memory : Memory}
    (hnew : memory.deletedAt = none) :
    (∀ m ∈ (addVersion db memory).memories, m.deletedAt = none
      ∨ ∃ m₀ ∈ db.memories, m₀.id = m.id ∧ m₀.item = m.item
        ∧ m₀.version = m.version ∧ m₀.deletedAt = m.deletedAt)
    ∧ ∀ m₀ ∈ db.memories, ∃ m ∈ (addVersion db memory).memories,
        m.id = m₀.id ∧ m.item = m₀.item ∧ m.deletedAt = m₀.deletedAt := by
  unfold addVersion
  split
  case h_1 =>
    constructor
    · intro m hm
      rcases List.mem_append.mp hm with hm | hm
      · exact .inr ⟨m, hm, rfl, rfl, rfl, rfl⟩
      · rw [List.mem_singleton.mp hm]
        exact .inl hnew
    · exact fun m₀ hm₀ => ⟨m₀, List.mem_append_left _ hm₀, rfl, rfl, rfl⟩
  case h_2 c hc =>
    constructor
    · intro m hm
      rcases List.mem_append.mp hm with hm | hm
      · obtain ⟨m₀, hm₀, rfl⟩ := List.mem_map.mp hm
        refine .inr ⟨m₀, hm₀, ?_⟩
        by_cases hid : m₀.id = c.id
        · rw [if_pos hid]
          exact ⟨rfl, rfl, rfl, rfl⟩
        · rw [if_neg hid]
          exact ⟨rfl, rfl, rfl, rfl⟩
      · rw [List.mem_singleton.mp hm]
        exact .inl hnew
    · intro m₀ hm₀
      refine ⟨_, List.mem_append_left _ (List.mem_map_of_mem hm₀), ?_⟩
      by_cases hid : m₀.id = c.id
      · rw [if_pos hid]
        exact ⟨rfl, rfl, rfl⟩
      · rw [if_neg hid]
        exact ⟨rfl, rfl, rfl⟩

theorem addVersion_elsewhere {db : Db} {memory : Memory} {next : Id}
    (h : Versions (keyed db) next) {m : Memory}
    (hm : m.item ≠ memory.item) :
    m ∈ (addVersion db memory).memories ↔ m ∈ db.memories := by
  have hlast : ∀ m' : Memory, m'.item = memory.item → m ∉ [m'] := by
    intro m' hm' hmem
    exact hm (List.mem_singleton.mp hmem ▸ hm')
  unfold addVersion
  split
  case h_1 =>
    rw [List.mem_append]
    exact or_iff_left (hlast _ rfl)
  case h_2 c hc =>
    obtain ⟨hmem, hs, hk, -⟩ := currentRow_some hc
    have hother : ∀ m' ∈ db.memories, m'.item ≠ memory.item →
        m'.id ≠ c.id := by
      intro m' hm' hne hid
      apply hne
      rw [row_inj h hm' hmem hid]
      unfold Memory.item
      rw [hs, hk]
    constructor
    · intro hin
      rcases List.mem_append.mp hin with hin | hin
      · obtain ⟨m₀, hm₀, heq⟩ := List.mem_map.mp hin
        by_cases hid : m₀.id = c.id
        · rw [if_pos hid] at heq
          subst heq
          exact absurd hid (hother m₀ hm₀ hm)
        · rw [if_neg hid] at heq
          exact heq ▸ hm₀
      · exact absurd hin (hlast _ rfl)
    · intro hin
      exact List.mem_append_left _
        (List.mem_map.mpr ⟨m, hin, if_neg (hother m hin hm)⟩)

theorem recordVersion_row (db : Db) (sourceId : Id) (item : ObservedItem)
    (now : Timestamp) : ∃ (db₁ : Db) (m : Memory),
      db₁.memories = db.memories ∧ m.id = db.nextId
      ∧ m.item = ⟨sourceId, item.externalKey⟩
      ∧ (recordVersion db sourceId item now).1.memories
        = (addVersion db₁ m).memories
      ∧ (recordVersion db sourceId item now).1.nextId = db.nextId + 3 := by
  refine ⟨_, _, ?_, ?_, ?_, rfl, congrArg (· + 2) (addVersion_nextId _ _)⟩
  · rfl
  · rfl
  · rfl

/-- What a recorded item does to the log and the rows. -/
structure Recorded (db db' : Db) (id : Id) : Prop where
  events : ∃ e, db'.events = db.events ++ [e]
    ∧ e.eventType = .artifactObserved
  nextSeq : db'.nextSeq = db.nextSeq + 1
  newId : id = db.nextId
  nextId : id < db'.nextId
  back : ∀ m ∈ db'.memories, m.deletedAt = none
    ∨ ∃ m₀ ∈ db.memories, m₀.id = m.id ∧ m₀.item = m.item
      ∧ m₀.version = m.version ∧ m₀.deletedAt = m.deletedAt
  forth : ∀ m₀ ∈ db.memories, ∃ m ∈ db'.memories,
    m.id = m₀.id ∧ m.item = m₀.item ∧ m.deletedAt = m₀.deletedAt

theorem recordVersion_recorded {db : Db} {sourceId : Id} {item : ObservedItem}
    {now : Timestamp} {db' : Db} {id : Id}
    (hr : recordVersion db sourceId item now = (db', id)) :
    Recorded db db' id := by
  unfold recordVersion appendEvent at hr
  simp only at hr
  cases hm : memoryFromEvent
      ((observation sourceId item).event db.nextSeq now) db.nextId with
  | none => cases hm
  | some m =>
    rw [hm] at hr
    cases hr
    have hnew : m.deletedAt = none := by
      cases hm
      rfl
    constructor
    case events =>
      refine ⟨(observation sourceId item).event db.nextSeq now, ?_, rfl⟩
      rw [Db.enqueue_events, Db.enqueue_events, addVersion_events]
    case nextSeq =>
      rw [Db.enqueue_nextSeq, Db.enqueue_nextSeq, addVersion_nextSeq]
    case newId => rfl
    case nextId =>
      rw [Db.enqueue_nextId, Db.enqueue_nextId, addVersion_nextId]
      exact Nat.lt_succ_of_lt (Nat.lt_succ_of_lt (Nat.lt_succ_self _))
    case back =>
      rw [Db.enqueue_memories, Db.enqueue_memories]
      exact (addVersion_rows hnew).1
    case forth =>
      rw [Db.enqueue_memories, Db.enqueue_memories]
      exact fun m₀ hm₀ => (addVersion_rows hnew).2 m₀ hm₀

theorem ingestItem_recorded {store store' : Store} {sourceId : Id}
    {item : ObservedItem} {now : Timestamp} {out : Option Ingested}
    (hin : ingestItem store sourceId item now = .ok (store', out)) :
    (store' = store ∧ out = none)
      ∨ ∃ r, out = some r ∧ Recorded store.db store'.db r.memoryId := by
  rcases ingestItem_cases hin with
    ⟨-, hs, ho⟩ | ⟨-, artifacts, blobs, -, rfl, ho⟩
  · exact .inl ⟨hs, ho⟩
  · have hrec := @recordVersion_recorded
      { store.db with artifacts := artifacts } sourceId item now _ _ rfl
    exact .inr ⟨_, ho, hrec.events, hrec.nextSeq, hrec.newId, hrec.nextId,
      hrec.back, hrec.forth⟩

theorem ingestItem_elsewhere {store store' : Store} {sourceId : Id}
    {item : ObservedItem} {now : Timestamp} {out : Option Ingested}
    (h : Versions (keyed store.db) store.db.nextId)
    (hin : ingestItem store sourceId item now = .ok (store', out)) :
    Versions (keyed store'.db) store'.db.nextId
      ∧ ∀ m : Memory, m.item ≠ ⟨sourceId, item.externalKey⟩ →
        (m ∈ store'.db.memories ↔ m ∈ store.db.memories) := by
  rcases ingestItem_cases hin with
    ⟨-, rfl, -⟩ | ⟨-, artifacts, blobs, -, rfl, -⟩
  · exact ⟨h, fun m _ => Iff.rfl⟩
  · obtain ⟨db₁, m, hdb, hid, hitem, hrows, hnext⟩ := recordVersion_row
      { store.db with artifacts := artifacts } sourceId item now
    have hv : Versions (keyed db₁) m.id := by
      unfold keyed
      rw [hdb, hid]
      exact h
    constructor
    · have hle : m.id + 1 ≤ (recordVersion { store.db with
          artifacts := artifacts } sourceId item now).1.nextId := by
        rw [hnext, hid]
        exact Nat.le_add_right _ 2
      have hrow := (addVersion_versions hv).mono hle
      unfold keyed at hrow ⊢
      rw [hrows]
      exact hrow
    · intro m' hm'
      show m' ∈ (recordVersion _ sourceId item now).1.memories ↔ _
      rw [hrows, addVersion_elsewhere hv (hitem ▸ hm'), hdb]

-- ====== a tombstone

/-- What marking a memory deleted does to the log and the rows. -/
structure Stamped (db db' : Db) (i : Item) (id : Id) : Prop where
  events : ∃ e, db'.events = db.events ++ [e] ∧ e.eventType = .itemDeleted
    ∧ e.item = i ∧ 0 < e.seq
  nextSeq : db'.nextSeq = db.nextSeq + 1
  nextId : db.nextId < db'.nextId
  rows : ∃ at_, db'.memories = db.memories.map fun m =>
    if m.id = id then { m with deletedAt := some at_ } else m

theorem markDeleted_stamped {db : Db} (hseq : 0 < db.nextSeq) (i : Item)
    (id : Id) (now : Timestamp) :
    Stamped db (Deletion.markDeleted db i id now) i id := by
  constructor
  case events => exact ⟨_, rfl, rfl, rfl, hseq⟩
  case nextSeq => rfl
  case nextId => exact Nat.lt_succ_self _
  case rows => exact ⟨now, rfl⟩

theorem knownId_of_missing {known : List Memory} {observed : List String}
    {k : String} (hk : k ∈ SyncSource.missingKeys known observed) :
    ∃ m ∈ known.filter (fun m => decide (m.externalKey = k)),
      Deletion.knownId known k = some m.id := by
  unfold SyncSource.missingKeys at hk
  rw [List.mem_mergeSort, List.mem_filter, List.mem_dedup] at hk
  obtain ⟨m, hm, hmk⟩ := List.mem_map.mp hk.1
  have hne : known.filter (fun m => decide (m.externalKey = k)) ≠ [] :=
    List.ne_nil_of_mem (List.mem_filter.mpr ⟨hm, decide_eq_true hmk⟩)
  refine ⟨_, List.getLast_mem hne, ?_⟩
  unfold Deletion.knownId
  rw [List.getLast?_eq_some_getLast hne]
  rfl

end MemoryOS
