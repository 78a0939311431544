/-
The past does not change: what `as_of` answers about an instant is what
was live right after the last operation recorded by then, and a complete
replay answers the same.

Every transaction of a run without purges is a commit of the versions
seen as a `Timeline`: it opens one version or closes one, at the time its
event is recorded. The replay leaves the same views behind, and `as_of`
reads nothing else.
-/
import Mathlib.Data.List.Dedup
import MemoryOS.Replay.Proofs.Faithful
import MemoryOS.Temporal.AsOf

namespace MemoryOS

open Lib Projection

namespace Temporal

variable {db db' : Db} {s s' : Store} {moment now : Timestamp} {m c : Memory}

/-- The columns `as_of` places a version by. -/
def columns : Timeline.Columns MemoryView Item Timestamp where
  key := item
  opened := (·.ingestedAt)
  closed := (·.deletedAt)
  current := (·.isCurrent)

/-- The same, of a version with its id. -/
def keyedColumns : Timeline.Columns (Id × MemoryView) Item Timestamp :=
  columns.comap Prod.snd

/-- Which version a keyed row is. -/
def keyedVersion (r : Id × MemoryView) : Id × MemoryView :=
  (r.1, unmarked r.2)

/-- A version opened or closed by one event. -/
abbrev Writes (t : Timestamp) :=
  Timeline.Writes keyedColumns keyedVersion t

/-- One transaction, as the versions see it. -/
abbrev Commit : Store → Store → Prop :=
  Timeline.Commit keyedColumns keyedVersion (fun s => keyed s.db) recordedTimes

-- ========= reading

variable {clock : String → Timestamp} {sourceId : Id} {blobs : Blobs}
  {o : ObservedItem} {known : List Memory} {ports : Ports}

theorem mem_knownAt_iff
    (hapart : ((views db).map fun v => (item v, v.ingestedAt)).Nodup) :
    m ∈ knownAt db moment ↔ m ∈ db.memories ∧ m.ingestedAt ≤ moment
      ∧ ∀ v ∈ views db, item v = m.item → v.ingestedAt ≤ moment →
        v.ingestedAt ≤ m.ingestedAt := by
  have hinj : ∀ a ∈ db.memories, ∀ b ∈ db.memories, a.item = b.item →
      a.ingestedAt = b.ingestedAt → a = b := by
    unfold views at hapart
    rw [List.map_map] at hapart
    exact fun a ha b hb hi ht =>
      List.inj_on_of_nodup_map hapart ha hb (Prod.ext hi ht)
  have hmem : ∀ {x : Memory}, x ∈ (db.memories.filter fun m =>
      decide (m.ingestedAt ≤ moment)).insertionSort (fun a b =>
        pickOrder a ≤ pickOrder b)
      ↔ x ∈ db.memories ∧ x.ingestedAt ≤ moment := by
    intro x
    rw [List.mem_insertionSort, List.mem_filter, decide_eq_true_eq]
  have hpick : ∀ {a b : Memory}, a.item = b.item →
      (pickOrder a ≤ pickOrder b ↔ b.ingestedAt < a.ingestedAt
        ∨ a.ingestedAt = b.ingestedAt ∧ b.version ≤ a.version) := by
    intro a b hi
    unfold Memory.item at hi
    rw [Item.mk.injEq] at hi
    unfold pickOrder
    simp [Prod.Lex.toLex_le_toLex, hi.1, hi.2]
  have : Std.Total fun a b : Memory => pickOrder a ≤ pickOrder b :=
    ⟨fun a b => le_total _ _⟩
  have : IsTrans Memory fun a b => pickOrder a ≤ pickOrder b :=
    ⟨fun a b c => le_trans⟩
  unfold knownAt
  rw [DistinctOn.mem_distinctOn_iff (fun a => le_refl (pickOrder a))
    (List.pairwise_insertionSort _ _) ?_, hmem]
  · constructor
    · rintro ⟨⟨hm, ht⟩, hfirst⟩
      refine ⟨hm, ht, fun v hv hi hvt => ?_⟩
      obtain ⟨x, hx, rfl⟩ := List.mem_map.mp hv
      rcases (@hpick m x hi.symm).mp (hfirst x (hmem.mpr ⟨hx, hvt⟩) hi)
        with hlt | ⟨heq, -⟩
      · exact le_of_lt hlt
      · exact le_of_eq heq.symm
    · rintro ⟨hm, ht, hnew⟩
      refine ⟨⟨hm, ht⟩, fun x hx hi => ?_⟩
      obtain ⟨hx, hxt⟩ := hmem.mp hx
      have hle := hnew x.view (List.mem_map_of_mem hx) hi hxt
      rw [hpick hi.symm]
      rcases lt_or_eq_of_le hle with hlt | heq
      · exact .inl hlt
      · exact .inr ⟨heq.symm, le_of_eq (by rw [hinj x hx m hm hi heq])⟩
  · intro a ha b hb hi hab hba
    obtain ⟨ha, -⟩ := hmem.mp ha
    obtain ⟨hb, -⟩ := hmem.mp hb
    refine hinj a ha b hb hi ?_
    rcases (hpick hi).mp hab with hlt | ⟨heq, -⟩
    · rcases (hpick hi.symm).mp hba with hlt' | ⟨heq', -⟩
      · exact absurd hlt (not_lt_of_gt hlt')
      · exact heq'.symm
    · exact heq

theorem mem_asOf_iff
    (hapart : ((views db).map fun v => (item v, v.ingestedAt)).Nodup) :
    m ∈ asOf db moment ↔ m ∈ db.memories
      ∧ Timeline.Visible columns (views db) moment m.view := by
  unfold asOf
  rw [List.mem_insertionSort, List.mem_filter, mem_knownAt_iff hapart]
  have hopen : undeletedAt moment m = true
      ↔ ∀ d ∈ m.deletedAt, moment < d := by
    unfold undeletedAt
    cases m.deletedAt with
    | none => simp
    | some d => simp
  rw [hopen]
  constructor
  · rintro ⟨⟨hm, ht, hnew⟩, hd⟩
    exact ⟨hm, ht, hnew, hd⟩
  · rintro ⟨hm, ht, hnew, hd⟩
    exact ⟨⟨hm, ht, hnew⟩, hd⟩

theorem content_asOf_iff
    (hapart : ((views db).map fun v => (item v, v.ingestedAt)).Nodup)
    (v : MemoryView) :
    v ∈ (asOf db moment).map content
      ↔ Timeline.Shows columns unmarked (views db) moment v := by
  rw [List.mem_map]
  constructor
  · rintro ⟨m, hm, rfl⟩
    obtain ⟨hm, hv⟩ := (mem_asOf_iff hapart).mp hm
    exact ⟨m.view, List.mem_map_of_mem hm, hv, rfl⟩
  · rintro ⟨w, hw, hv, rfl⟩
    obtain ⟨m, hm, rfl⟩ := List.mem_map.mp hw
    exact ⟨m, (mem_asOf_iff hapart).mpr ⟨hm, hv⟩, rfl⟩

theorem version_asOf_iff
    (hapart : ((views db).map fun v => (item v, v.ingestedAt)).Nodup)
    (n : Id × MemoryView) :
    n ∈ (asOf db moment).map version
      ↔ Timeline.Shows keyedColumns keyedVersion (keyed db) moment n := by
  have hvisible : ∀ m : Memory,
      Timeline.Visible keyedColumns (keyed db) moment (m.id, m.view)
        ↔ Timeline.Visible columns (views db) moment m.view := by
    intro m
    rw [views_eq_keyed]
    exact Timeline.visible_map
  rw [List.mem_map]
  constructor
  · rintro ⟨m, hm, rfl⟩
    obtain ⟨hm, hv⟩ := (mem_asOf_iff hapart).mp hm
    exact ⟨_, List.mem_map_of_mem hm, (hvisible m).mpr hv, rfl⟩
  · rintro ⟨w, hw, hv, rfl⟩
    obtain ⟨m, hm, rfl⟩ := List.mem_map.mp hw
    exact ⟨m, (mem_asOf_iff hapart).mpr ⟨hm, (hvisible m).mp hv⟩, rfl⟩

theorem version_live_iff (n : Id × MemoryView) :
    n ∈ (live db).map version
      ↔ Timeline.Open keyedColumns keyedVersion (keyed db) n := by
  unfold live
  rw [List.mem_map]
  constructor
  · rintro ⟨m, hm, rfl⟩
    rw [List.mem_filter, Bool.and_eq_true, Option.isNone_iff_eq_none] at hm
    exact ⟨_, List.mem_map_of_mem hm.1, hm.2.1, hm.2.2, rfl⟩
  · rintro ⟨w, hw, hcur, hopen, rfl⟩
    obtain ⟨m, hm, rfl⟩ := List.mem_map.mp hw
    refine ⟨m, List.mem_filter.mpr ⟨hm, ?_⟩, rfl⟩
    rw [Bool.and_eq_true, Option.isNone_iff_eq_none]
    exact ⟨hcur, hopen⟩

theorem content_live_iff (v : MemoryView) :
    v ∈ (live db).map content
      ↔ ∃ id, Timeline.Open keyedColumns keyedVersion (keyed db) (id, v) := by
  constructor
  · intro h
    obtain ⟨m, hm, rfl⟩ := List.mem_map.mp h
    exact ⟨m.id, (version_live_iff _).mp (List.mem_map_of_mem hm)⟩
  · rintro ⟨id, h⟩
    obtain ⟨m, hm, heq⟩ := List.mem_map.mp ((version_live_iff _).mpr h)
    exact List.mem_map.mpr ⟨m, hm, (Prod.mk.injEq .. ▸ heq).2⟩

theorem shows_content_iff (v : MemoryView) :
    Timeline.Shows columns unmarked (views db) moment v
      ↔ ∃ id, Timeline.Shows keyedColumns keyedVersion (keyed db) moment
        (id, v) := by
  rw [views_eq_keyed, Timeline.shows_map]
  constructor
  · rintro ⟨r, hr, hv, hn⟩
    exact ⟨r.1, r, hr, hv, Prod.ext rfl hn⟩
  · rintro ⟨id, r, hr, hv, hn⟩
    exact ⟨r, hr, hv, congrArg Prod.snd hn⟩

-- ========= writing

/-- Rewriting the view of one row. -/
def rewriteAt (id : Id) (f : MemoryView → MemoryView) (r : Id × MemoryView) :
    Id × MemoryView :=
  (r.1, if r.1 = id then f r.2 else r.2)

theorem rewriteAt_same {β : Type} (f : MemoryView → MemoryView)
    (g : MemoryView → β) (hg : ∀ v, g (f v) = g v) (id : Id)
    (r : Id × MemoryView) : g (rewriteAt id f r).2 = g r.2 := by
  unfold rewriteAt
  by_cases hid : r.1 = id
  · simp only [if_pos hid, hg]
  · simp only [if_neg hid]

theorem addVersion_writes (h : Versions (keyed db) m.id)
    (hopen : m.deletedAt = none) :
    Writes m.ingestedAt (keyed db) (keyed (addVersion db m)) := by
  unfold addVersion
  cases hc : currentRow db m.sourceId m.externalKey with
  | none =>
    show Writes m.ingestedAt (keyed db) (List.map _ (db.memories ++ [_]))
    rw [List.map_append]
    have hno : ∀ r ∈ keyed db, r.2.isCurrent = true → item r.2 ≠ m.item := by
      intro r hr hcur hi
      obtain ⟨x, hx, rfl⟩ := List.mem_map.mp hr
      have hnot := currentRow_none hc hx
      have hcur' : x.view.isCurrent = true := hcur
      have hi' : item x.view = m.item := hi
      simp [currentOf, hi', hcur', Memory.item] at hnot
    have hw := @Timeline.Writes.opens _ _ _ _ keyedColumns keyedVersion
      m.ingestedAt (keyed db)
      (m.id, { m.view with version := 1, isCurrent := true }) id rfl
      hopen rfl (fun _ _ => rfl) (fun _ _ => rfl) (fun _ _ => rfl)
      (fun _ _ => rfl) fun r hr =>
        ⟨fun hcur => ⟨hcur, hno r hr hcur⟩, And.left⟩
    rw [List.map_id] at hw
    exact hw
  | some c =>
    show Writes m.ingestedAt (keyed db) (List.map _ (List.map _ db.memories
      ++ [_]))
    rw [List.map_append, keyed_supersede]
    refine @Timeline.Writes.opens _ _ _ _ keyedColumns keyedVersion
      m.ingestedAt (keyed db)
      (m.id, { m.view with version := c.version + 1, isCurrent := true })
      (rewriteAt c.id superseded) rfl hopen rfl
      (fun r _ => rewriteAt_same superseded item (fun _ => rfl) c.id r)
      (fun r _ =>
        rewriteAt_same superseded (·.ingestedAt) (fun _ => rfl) c.id r)
      (fun r _ =>
        rewriteAt_same superseded (·.deletedAt) (fun _ => rfl) c.id r)
      (fun r _ => Prod.ext rfl
        (rewriteAt_same superseded unmarked (fun _ => rfl) c.id r))
      fun r hr => ?_
    obtain ⟨x, hx, rfl⟩ := List.mem_map.mp hr
    have hiff := id_eq_current h hc hx
    simp only [currentOf, Bool.and_eq_true, decide_eq_true_eq] at hiff
    show (if x.id = c.id then superseded x.view else x.view).isCurrent
      = true ↔ x.view.isCurrent = true ∧ item x.view ≠ m.item
    by_cases hid : x.id = c.id
    · rw [if_pos hid]
      constructor
      · intro hcur
        cases hcur
      · exact fun hcur => absurd (hiff.mp hid).1 hcur.2
    · rw [if_neg hid]
      exact ⟨fun hcur => ⟨hcur, fun hi => hid (hiff.mpr ⟨hi, hcur⟩)⟩,
        And.left⟩

/-- The view of a version deleted at an instant. -/
def deletedView (t : Timestamp) (v : MemoryView) : MemoryView :=
  { v with deletedAt := some t }

theorem tombstoneRow_writes {next : Id} (h : Versions (keyed db) next)
    (hc : c ∈ db.memories) (hopen : c.deletedAt = none) (t : Timestamp) :
    Writes t (keyed db) (keyed (tombstoneRow db c.id t)) := by
  rw [keyed_tombstoneRow]
  refine @Timeline.Writes.closes _ _ _ _ keyedColumns keyedVersion t
    (keyed db) (rewriteAt c.id (deletedView t))
    (fun r _ => rewriteAt_same (deletedView t) item (fun _ => rfl) c.id r)
    (fun r _ =>
      rewriteAt_same (deletedView t) (·.ingestedAt) (fun _ => rfl) c.id r)
    (fun r _ =>
      rewriteAt_same (deletedView t) (·.isCurrent) (fun _ => rfl) c.id r)
    (fun r _ => Prod.ext rfl
      (rewriteAt_same (deletedView t) unmarked (fun _ => rfl) c.id r))
    fun r hr => ?_
  by_cases hid : r.1 = c.id
  · have hr' : r = (c.id, c.view) := List.inj_on_of_nodup_map h.ids hr
      (List.mem_map_of_mem hc) hid
    refine .inr ⟨?_, ?_⟩
    · rw [hr']
      exact hopen
    · show (if r.1 = c.id then deletedView t r.2 else r.2).deletedAt = some t
      rw [if_pos hid]
      rfl
  · refine .inl ?_
    show (if r.1 = c.id then deletedView t r.2 else r.2).deletedAt
      = r.2.deletedAt
    rw [if_neg hid]

-- ====== transactions

theorem quiet_commit (h : SameVersions s.db s'.db) : Commit s s' := by
  refine .quiet h.keyed ?_
  unfold recordedTimes
  rw [h.events]

theorem recordVersion_commit {artifacts : List RawArtifact}
    (h : Versions (keyed s.db) s.db.nextId) :
    Commit s ⟨(recordVersion { s.db with artifacts := artifacts } sourceId o
      now).1, blobs⟩ := by
  unfold recordVersion appendEvent
  simp only
  cases hm : memoryFromEvent
      ((observation sourceId o).event s.db.nextSeq now) s.db.nextId with
  | none => cases hm
  | some m =>
    obtain ⟨hid, hopen, hat⟩ : m.id = s.db.nextId ∧ m.deletedAt = none
        ∧ m.ingestedAt = now := by
      cases hm
      exact ⟨rfl, rfl, rfl⟩
    have hv : Versions (keyed s.db) m.id := by rwa [hid]
    refine .writes now ?_ ?_
    · simp only
      unfold recordedTimes
      rw [Db.enqueue_events, Db.enqueue_events, addVersion_events,
        List.map_append]
      rfl
    · have hw := @addVersion_writes { s.db with
        artifacts := artifacts
        events := s.db.events
          ++ [(observation sourceId o).event s.db.nextSeq now]
        nextSeq := s.db.nextSeq + 1
        nextId := s.db.nextId + 1 } m hv hopen
      rw [hat] at hw
      exact hw

theorem ingestItem_commit {out : Option Ingested} (h : Faithful s.db)
    (hin : ingestItem s sourceId o now = .ok (s', out)) : Commit s s' := by
  obtain ⟨-, rfl, -⟩ | ⟨-, artifacts, blobs, -, rfl, -⟩ := ingestItem_cases hin
  · exact .quiet rfl rfl
  · exact recordVersion_commit h.versions

theorem markDeleted_commit {i : Item} {blobs' : Blobs} {next : Id}
    (h : Versions (keyed db) next) (hc : c ∈ db.memories)
    (hopen : c.deletedAt = none) :
    Commit ⟨db, blobs⟩ ⟨Deletion.markDeleted db i c.id now, blobs'⟩ := by
  refine .writes now ?_ (tombstoneRow_writes h hc hopen now)
  unfold recordedTimes Deletion.markDeleted appendEvent
  rw [Db.enqueue_events]
  exact List.map_append

theorem tombstone_commit {id : Id} (h : Faithful db)
    (ht : Deletion.tombstone db id now = .ok db') :
    Commit ⟨db, blobs⟩ ⟨db', blobs⟩ := by
  unfold Deletion.tombstone at ht
  split at ht
  case h_1 => cases ht
  case h_2 i hi =>
    split at ht
    case h_1 => cases ht
    case h_2 c hc =>
      split at ht
      case isTrue =>
        cases ht
        exact .quiet rfl rfl
      case isFalse hopen =>
        cases ht
        exact markDeleted_commit h.versions (currentRow_some hc).1
          (by simpa using hopen)

/-- What `known` says of a key: its current version, not deleted. -/
def KnownOpen (db : Db) (sourceId : Id) (known : List Memory)
    (k : String) : Prop :=
  ∀ id, Deletion.knownId known k = some id →
    ∃ c, currentRow db sourceId k = some c ∧ c.id = id ∧ c.deletedAt = none

theorem knownOpen_start (h : Versions (keyed db) db.nextId)
    (k : String) :
    KnownOpen db sourceId (Deletion.knownOf db sourceId) k := by
  intro id hk
  obtain ⟨c, hc, hid⟩ := Option.map_eq_some_iff.mp (knownId_current h hk)
  unfold Deletion.knownId at hk
  obtain ⟨m, hlast, hmid⟩ := Option.map_eq_some_iff.mp hk
  have hmem := (List.mem_filter.mp (List.mem_of_getLast? hlast)).1
  obtain ⟨hm, hcur⟩ := List.mem_filter.mp hmem
  simp only [Bool.and_eq_true, Option.isNone_iff_eq_none] at hcur
  refine ⟨c, hc, hid, ?_⟩
  have hsame : (m.id, m.view) = (c.id, c.view) :=
    List.inj_on_of_nodup_map h.ids (List.mem_map_of_mem hm)
      (List.mem_map_of_mem (currentRow_some hc).1) (hmid.trans hid.symm)
  have hview : m.view = c.view := (Prod.mk.injEq .. ▸ hsame).2
  show c.view.deletedAt = none
  rw [← hview]
  exact hcur.2

theorem knownOpen_sweepOne {k k' : String} (h : Faithful db) (hne : k' ≠ k)
    (hk : KnownOpen db sourceId known k)
    (hk' : KnownOpen db sourceId known k') :
    KnownOpen (Deletion.sweepOne sourceId known db k now) sourceId known
      k' := by
  intro id hid
  obtain ⟨c', hc', hcid', hopen'⟩ := hk' id hid
  unfold Deletion.sweepOne
  cases hk₁ : Deletion.knownId known k with
  | none => exact ⟨c', hc', hcid', hopen'⟩
  | some swept =>
    obtain ⟨c, hc, hcid, -⟩ := hk swept hk₁
    refine ⟨c', ?_, hcid', hopen'⟩
    have hother : c'.id ≠ c.id := by
      intro heq
      obtain ⟨hmem', -, hkey', -⟩ := currentRow_some hc'
      have hcur := (id_eq_current h.versions hc hmem').mp heq
      simp only [currentOf, Bool.and_eq_true, decide_eq_true_eq] at hcur
      exact hne (hkey'.symm.trans (congrArg Item.externalKey hcur.1))
    have hmap := @currentRow_markDeleted db ⟨sourceId, k⟩ swept sourceId k'
      now
    rw [hc', Option.map_some, Option.map_eq_some_iff] at hmap
    obtain ⟨c₁, hc₁, hid₁⟩ := hmap
    simp only
    rw [hc₁, Option.some.injEq]
    -- the row found is that of `c'`, which the stamp does not touch
    have hmem₁ := (currentRow_some hc₁).1
    unfold Deletion.markDeleted tombstoneRow at hmem₁
    obtain ⟨x, hx, hx₁⟩ := List.mem_map.mp hmem₁
    have hxid : x.id = c₁.id := by
      rw [← hx₁]
      split
      · rfl
      · rfl
    have hids : (db.memories.map (·.id)).Nodup := by
      have hkeyed := h.versions.ids
      unfold keyed at hkeyed
      rwa [List.map_map] at hkeyed
    have hxc : x = c' := List.inj_on_of_nodup_map hids hx
      (currentRow_some hc').1 (hxid.trans hid₁)
    rw [hxc, if_neg (by rw [← hcid]; exact hother)] at hx₁
    exact hx₁.symm

theorem sweeps_chain {keys : List String}
    (h : Faithful db) (hkeys : keys.Nodup)
    (hknown : ∀ k ∈ keys, KnownOpen db sourceId known k) :
    (⟨db, blobs⟩ :: (sweeps sourceId known clock db keys).map fun db =>
      ⟨db, blobs⟩ : List Store).IsChain Commit := by
  induction keys generalizing db with
  | nil => exact List.isChain_singleton _
  | cons k rest ih =>
    obtain ⟨hfresh, hrest⟩ := List.nodup_cons.mp hkeys
    have hk := hknown k List.mem_cons_self
    have hfaithful : Faithful
        (Deletion.sweepOne sourceId known db k (clock k)) := by
      refine sweepOne_faithful h fun id hid => ?_
      obtain ⟨c, hc, hcid, -⟩ := hk id hid
      rw [hc, Option.map_some, hcid]
    refine List.isChain_cons_cons.mpr ⟨?_, ih hfaithful hrest ?_⟩
    · unfold Deletion.sweepOne
      cases hid : Deletion.knownId known k with
      | none => exact .quiet rfl rfl
      | some id =>
        obtain ⟨c, hc, rfl, hopen⟩ := hk id hid
        exact markDeleted_commit h.versions (currentRow_some hc).1 hopen
    · exact fun k' hk' => knownOpen_sweepOne h
        (fun heq => hfresh (heq ▸ hk')) hk
        (hknown k' (List.mem_cons_of_mem k hk'))

theorem sweeps_last {keys : List String} :
    (sweeps sourceId known clock db keys).getLastD db
      = keys.foldl (fun db k =>
          Deletion.sweepOne sourceId known db k (clock k)) db := by
  induction keys generalizing db with
  | nil => rfl
  | cons k rest ih =>
    unfold sweeps
    simp only
    rw [List.getLastD_cons, List.foldl_cons, ih]

theorem commits_last (ports : Ports) (s : Store) (op : Live.Op) :
    (commits ports s op).getLastD s = Live.step ports s op := by
  cases op with
  | detectDeletions sourceId observed clock =>
    unfold commits Live.step Deletion.detectDeletions missingKeys
    simp only
    rw [← sweeps_last]
    exact List.getLastD_map
  | upload hash data => rfl
  | ingest sourceId o now => rfl
  | tombstone id now => rfl
  | restore id now => rfl
  | purge items => rfl
  | normalize id now => rfl
  | embed id now => rfl

theorem commits_chain (ports : Ports) {op : Live.Op} (h : Faithful s.db)
    (hkeeps : keeps op = true) :
    (s :: commits ports s op).IsChain Commit := by
  have hone : ∀ s', Commit s s' → (s :: [s']).IsChain Commit := fun s' hs =>
    List.isChain_cons_cons.mpr ⟨hs, List.isChain_singleton _⟩
  cases op with
  | detectDeletions sourceId observed clock =>
    refine sweeps_chain h ?_ fun k _ => knownOpen_start h.versions k
    unfold missingKeys
    rw [(List.mergeSort_perm _ _).nodup_iff]
    exact (List.nodup_dedup _).filter _
  | upload hash data => exact hone _ (.quiet rfl rfl)
  | ingest sourceId o now =>
    refine hone _ ?_
    unfold Live.step
    simp only
    split
    case h_1 => exact .quiet rfl rfl
    case h_2 r hr => exact ingestItem_commit h hr
  | tombstone id now =>
    refine hone _ ?_
    unfold Live.step
    simp only
    split
    case h_1 => exact .quiet rfl rfl
    case h_2 db hdb => exact tombstone_commit h hdb
  | restore id now =>
    refine hone _ ?_
    unfold Live.step
    simp only
    split
    case h_1 => exact .quiet rfl rfl
    case h_2 s' hs' =>
      obtain ⟨_, _, _, hin⟩ := restore_cases hs'
      exact ingestItem_commit h hin
  | purge items => cases hkeeps
  | normalize id now =>
    refine hone _ ?_
    unfold Live.step
    simp only
    split
    case h_1 => exact .quiet rfl rfl
    case h_2 r hr => exact quiet_commit (normalize_same hr)
  | embed id now =>
    refine hone _ ?_
    unfold Live.step
    simp only
    split
    case h_1 => exact .quiet rfl rfl
    case h_2 r hr => exact quiet_commit (embed_same hr)

theorem history_chain (ports : Ports) {ops : List Live.Op}
    (h : Faithful s.db) (hkeeps : ∀ op ∈ ops, keeps op = true) :
    (s :: history ports s ops).IsChain Commit
      ∧ (history ports s ops).getLastD s = ops.foldl (Live.step ports) s := by
  induction ops generalizing s with
  | nil => exact ⟨List.isChain_singleton _, rfl⟩
  | cons op rest ih =>
    obtain ⟨hchain, hlast⟩ := ih (@step_faithful ports s op h)
      fun op' hop' => hkeeps op' (List.mem_cons_of_mem op hop')
    have hop := commits_chain ports h
      (hkeeps op List.mem_cons_self)
    unfold history
    rw [← commits_last] at hchain hlast ⊢
    exact ⟨Timeline.chain_append hop hchain, by
      rw [Timeline.getLastD_append, hlast, List.foldl_cons, commits_last]⟩

-- ====== what is purged

/-- The log names no purge. -/
def Unpurged (db : Db) : Prop :=
  ∀ e ∈ db.events, e.eventType ≠ .itemPurged

theorem unpurged_append (draft : EventDraft) (now : Timestamp)
    (h : Unpurged db)    (hd : draft.eventType ≠ .itemPurged)
    (hevents : db'.events = db.events ++ [draft.event db.nextSeq now]) :
    Unpurged db' := by
  intro e he
  rw [hevents] at he
  rcases List.mem_append.mp he with he | he
  · exact h e he
  · rw [List.mem_singleton.mp he]
    exact hd

theorem ingestItem_unpurged {out : Option Ingested} (h : Unpurged s.db)
    (hin : ingestItem s sourceId o now = .ok (s', out)) : Unpurged s'.db := by
  obtain ⟨-, rfl, -⟩ | ⟨-, artifacts, blobs, -, rfl, -⟩ := ingestItem_cases hin
  · exact h
  · refine unpurged_append (observation sourceId o) now h
      (fun ht => by cases ht) ?_
    unfold recordVersion appendEvent
    simp only
    cases hm : memoryFromEvent
        ((observation sourceId o).event s.db.nextSeq now) s.db.nextId with
    | none => cases hm
    | some m =>
      simp only
      rw [Db.enqueue_events, Db.enqueue_events, addVersion_events]

theorem markDeleted_unpurged {i : Item} {id : Id} (h : Unpurged db) :
    Unpurged (Deletion.markDeleted db i id now) :=
  unpurged_append
    ⟨.itemDeleted, i.sourceId, i.externalKey, none, none, .unknown, none⟩ now
    h (fun ht => by cases ht) rfl

theorem detectDeletions_unpurged {observed : List String} (h : Unpurged db) :
    Unpurged (Deletion.detectDeletions db sourceId observed clock) := by
  unfold Deletion.detectDeletions
  simp only
  generalize List.mergeSort _ _ = missing
  generalize Deletion.knownOf db sourceId = known
  induction missing generalizing db with
  | nil => exact h
  | cons k rest ih =>
    rw [List.foldl_cons]
    refine ih ?_
    unfold Deletion.sweepOne
    split
    case h_1 => exact h
    case h_2 => exact markDeleted_unpurged h

theorem step_unpurged {op : Live.Op} (h : Unpurged s.db)
    (hkeeps : keeps op = true) : Unpurged (Live.step ports s op).db := by
  unfold Live.step
  cases op with
  | upload hash data => exact h
  | ingest sourceId o now =>
    simp only
    split
    case h_1 => exact h
    case h_2 r hr => exact ingestItem_unpurged h hr
  | detectDeletions sourceId observed clock =>
    exact detectDeletions_unpurged h
  | tombstone id now =>
    simp only
    split
    case h_1 => exact h
    case h_2 db hdb =>
      obtain rfl | ⟨i, c, -, rfl⟩ := tombstone_cases hdb
      · exact h
      · exact markDeleted_unpurged h
  | restore id now =>
    simp only
    split
    case h_1 => exact h
    case h_2 s' hs' =>
      obtain ⟨_, _, _, hin⟩ := restore_cases hs'
      exact ingestItem_unpurged h hin
  | purge items => cases hkeeps
  | normalize id now =>
    simp only
    split
    case h_1 => exact h
    case h_2 r hr =>
      unfold Unpurged
      rw [(normalize_same hr).events]
      exact h
  | embed id now =>
    simp only
    split
    case h_1 => exact h
    case h_2 r hr =>
      unfold Unpurged
      rw [(embed_same hr).events]
      exact h

theorem run_unpurged {ops : List Live.Op}
    (h : Unpurged s.db) (hkeeps : ∀ op ∈ ops, keeps op = true) :
    Unpurged (ops.foldl (Live.step ports) s).db := by
  induction ops generalizing s with
  | nil => exact h
  | cons op rest ih =>
    rw [List.foldl_cons]
    exact ih (step_unpurged h (hkeeps op List.mem_cons_self))
      fun op' hop' => hkeeps op' (List.mem_cons_of_mem op hop')

open ReplayCorpus in
theorem replay_views {clearCache : Bool}
    (h : Faithful db) (hpurge : Unpurged db)
    (hend : inPlace ports blobs {} clearCache now db = (db', none)) :
    views db' = views db := by
  have hkeys : purgedKeys db {} none = [] := by
    rw [List.eq_nil_iff_forall_not_mem]
    intro i hi
    obtain ⟨p, hp, -, ht⟩ := (mem_purgedKeys_iff h.positive i).mp hi
    exact hpurge p hp ht
  rw [inPlace_eq ports blobs clearCache now h.positive, hkeys] at hend
  split at hend
  case isFalse => cases hend
  case isTrue =>
    have hstart := rebuilt_truncated clearCache db
    have hlog := rebuild_reads ports blobs now hstart
      (fun e he ht => absurd ht (hpurge e he)) (congrArg Prod.snd hend)
    obtain ⟨db₁, hrun, -, hviews⟩ := rebuild_fold ports blobs now hstart hlog
    rw [hrun] at hend
    cases hend
    have hall : KeyedLog.unskipped IngestionEvent.item
        (fun i => decide (i ∈ ([] : List Item))) db.events = db.events := by
      unfold KeyedLog.unskipped
      exact List.filter_eq_self.mpr fun e _ => rfl
    rw [hviews, hall, h.folded]
    rfl

-- ========= the law

section Law

variable {ports : Ports} {sources : List Source} {ops : List Live.Op}

theorem run_kept (hkeeps : ∀ op ∈ ops, keeps op = true)
    (hinc : RecordedInOrder (Live.run ports sources ops)) :
    Timeline.Kept keyedColumns (recordedTimes (Live.run ports sources ops))
      (keyed (Live.run ports sources ops).db) := by
  obtain ⟨hchain, hlast⟩ := history_chain ports
    (faithful_start sources) hkeeps
  have hkept := Timeline.path_kept hchain Timeline.Kept.nil
    (by rw [hlast]; exact hinc)
  rwa [hlast] at hkept

theorem views_apart {times : List Timestamp}
    (h : Timeline.Kept keyedColumns times (keyed db)) :
    ((views db).map fun v => (item v, v.ingestedAt)).Nodup := by
  rw [views_eq_keyed, List.map_map]
  exact h.apart

theorem shows_run_iff (hkeeps : ∀ op ∈ ops, keeps op = true)
    (hinc : RecordedInOrder (Live.run ports sources ops))
    (moment : Timestamp) (n : Id × MemoryView) :
    Timeline.Shows keyedColumns keyedVersion
        (keyed (Live.run ports sources ops).db) moment n
      ↔ n ∈ (live (rightAfter ports sources ops moment).db).map version := by
  obtain ⟨hchain, hlast⟩ := history_chain ports
    (faithful_start sources) hkeeps
  have hpath := Timeline.shows_path moment n hchain
    Timeline.Kept.nil (by rw [hlast]; exact hinc) (List.forall_mem_nil _)
  rw [hlast] at hpath
  exact hpath.trans (version_live_iff n).symm

/-- The past does not change: about any instant `as_of` answers with the
versions that were live right after the last operation recorded by then,
and after a complete replay of the log with the same versions, whose ids
alone are new. -/
theorem as_of_unchanged (ports : Ports) (sources : List Source)
    (ops : List Live.Op) (hkeeps : ∀ op ∈ ops, keeps op = true)
    (hinc : RecordedInOrder (Live.run ports sources ops))
    (moment : Timestamp) :
    (∀ n, n ∈ (asOf (Live.run ports sources ops).db moment).map version
      ↔ n ∈ (live (rightAfter ports sources ops moment).db).map version)
    ∧ ∀ (ports' : Ports) (blobs : Blobs) (clearCache : Bool)
        (now : Timestamp) (db' : Db),
      ReplayCorpus.inPlace ports' blobs {} clearCache now
        (Live.run ports sources ops).db = (db', none) →
      ∀ v, v ∈ (asOf db' moment).map content
        ↔ v ∈ (live (rightAfter ports sources ops moment).db).map content := by
  have hapart := views_apart (run_kept hkeeps hinc)
  constructor
  · exact fun n => (version_asOf_iff hapart n).trans
      (shows_run_iff hkeeps hinc moment n)
  · intro ports' blobs clearCache now db' hend v
    have hviews := replay_views (run_faithful ports sources ops)
      (run_unpurged (List.forall_mem_nil _) hkeeps) hend
    rw [content_asOf_iff (by rwa [hviews]), hviews, shows_content_iff,
      content_live_iff]
    refine exists_congr fun id => ?_
    rw [shows_run_iff hkeeps hinc, version_live_iff]

end Law

/-- A note that is rewritten, deleted and restored, and another that a
sweep finds missing. -/
def revisitedNotes : List Live.Op := [
  .ingest 1 (Live.note "a.md" "h1" [104, 105]) 0,
  .ingest 1 (Live.note "b.md" "h2" [98, 121, 101]) 1,
  .detectDeletions 1 ["a.md"] fun _ => 2,
  .ingest 1 (Live.note "a.md" "h3" [104, 105, 33]) 3,
  .tombstone 8 4,
  .restore 8 5]

theorem as_of_unchanged_revisited :
    (∀ n, n ∈ (asOf (Live.run .plain [] revisitedNotes).db 1).map version
      ↔ n ∈ (live (rightAfter .plain [] revisitedNotes 1).db).map version)
    ∧ ∃ db', ReplayCorpus.inPlace .plain
        (Live.run .plain [] revisitedNotes).blobs {} false 9
        (Live.run .plain [] revisitedNotes).db = (db', none)
      ∧ ∀ v, v ∈ (asOf db' 1).map content
        ↔ v ∈ (live (rightAfter .plain [] revisitedNotes 1).db).map
          content := by
  have hlaw := as_of_unchanged .plain [] revisitedNotes (by decide)
    (by decide +kernel) 1
  have hend : (ReplayCorpus.inPlace .plain
      (Live.run .plain [] revisitedNotes).blobs {} false 9
      (Live.run .plain [] revisitedNotes).db).2 = none := by decide +kernel
  exact ⟨hlaw.1, _, Prod.ext rfl hend,
    hlaw.2 .plain _ false 9 _ (Prod.ext rfl hend)⟩

end Temporal

end MemoryOS
