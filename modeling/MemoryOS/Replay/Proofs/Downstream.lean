/-
The downstream stages of a replay.

A stage works through the current, undeleted memories one by one. Each is
of another item (`Worklist`), so what the stage leaves of an item is what
the one run of its current version leaves.
-/
import MemoryOS.Pipeline.Proofs.Calm
import MemoryOS.Replay.Proofs.Cleared

namespace MemoryOS.ReplayCorpus

open Projection Lib KeyedLog

/-- What a stage works through. -/
structure Worklist (db : Db) (ids : List Id) : Prop where
  nodup : ids.Nodup
  there : ∀ id ∈ ids, ∃ m, db.memory id = some m ∧ m.deletedAt = none
  apart : ∀ id ∈ ids, ∀ id' ∈ ids, ∀ m m', db.memory id = some m →
    db.memory id' = some m' → m.item = m'.item → id = id'

variable {ports : Ports} {blobs : Blobs} {now : Timestamp} {db db' : Db}
  {sourceId : Option Id} {id : Id} {ids : List Id} {i : Item} {m : Memory}

theorem mem_targets : id ∈ targets db sourceId
    ↔ ∃ m ∈ db.memories, m.id = id ∧ reprocessed sourceId m = true := by
  unfold targets
  rw [List.mem_map]
  simp only [List.mem_mergeSort, List.mem_filter]
  exact exists_congr fun m => by rw [and_assoc, and_comm (a := m.id = id)]

theorem memory_of_mem (hv : Versions (keyed db) db.nextId)
    (hm : m ∈ db.memories) : db.memory m.id = some m := by
  obtain ⟨x, hx, hbase, -⟩ := NormalizeMemory.memory_of_row hv
    (mem_itemRows.mpr ⟨m, hm, rfl, rfl⟩)
  obtain ⟨hxm, hid⟩ := Db.memory_mem hx
  rw [memory_unique hv hxm hm hid] at hx
  exact hx

theorem targets_worklist (hv : Versions (keyed db) db.nextId) :
    Worklist db (targets db sourceId) := by
  have hids : (db.memories.map (·.id)).Nodup := by
    have h := hv.ids
    unfold keyed at h
    rwa [List.map_map] at h
  have hrow : ∀ id ∈ targets db sourceId, ∀ m, db.memory id = some m →
      m ∈ db.memories ∧ reprocessed sourceId m = true := by
    intro id hid m hm
    obtain ⟨x, hx, hxid, hre⟩ := mem_targets.mp hid
    obtain ⟨hmem, hmid⟩ := Db.memory_mem hm
    rw [memory_unique hv hx hmem (hxid.trans hmid.symm)] at hre
    exact ⟨hmem, hre⟩
  constructor
  · unfold targets
    refine ((List.mergeSort_perm _ _).map _).nodup_iff.mpr ?_
    exact hids.sublist (List.filter_sublist.map _)
  · intro id hid
    obtain ⟨m, hm, rfl, hre⟩ := mem_targets.mp hid
    refine ⟨m, memory_of_mem hv hm, ?_⟩
    unfold reprocessed at hre
    simp only [Bool.and_eq_true] at hre
    simpa using hre.1.2
  · intro id hid id' hid' m m' hm hm' hitem
    obtain ⟨hmem, hre⟩ := hrow id hid m hm
    obtain ⟨hmem', hre'⟩ := hrow id' hid' m' hm'
    unfold reprocessed at hre hre'
    simp only [Bool.and_eq_true] at hre hre'
    rw [← (Db.memory_mem hm).2, ← (Db.memory_mem hm').2]
    exact hv.current (m.id, m.view) (List.mem_map_of_mem hmem)
      (m'.id, m'.view) (List.mem_map_of_mem hmem') hre.1.1 hre'.1.1 hitem

-- ====== what a run finds

theorem memory_view (hv : Versions (keyed db) db.nextId)
    (hs : keyed db' = keyed db) (hm : db.memory id = some m) :
    ∃ m', db'.memory id = some m' ∧ m'.view = m.view := by
  have hsome : (db'.memory id).isSome = true := by
    rw [memory_isSome_iff, hs, ← memory_isSome_iff, hm]
    rfl
  obtain ⟨m', hm'⟩ := Option.isSome_iff_exists.mp hsome
  obtain ⟨hmem, hid⟩ := Db.memory_mem hm
  obtain ⟨hmem', hid'⟩ := Db.memory_mem hm'
  refine ⟨m', hm', ?_⟩
  have hrow : (m'.id, m'.view) ∈ keyed db := by
    rw [← hs]
    exact List.mem_map_of_mem hmem'
  exact congrArg Prod.snd (List.inj_on_of_nodup_map hv.ids hrow
    (List.mem_map_of_mem hmem) (hid'.trans hid.symm))

theorem item_of_view {m' : Memory} (h : m'.view = m.view) :
    m'.item = m.item :=
  congrArg item h

theorem memory_base (hv : Versions (keyed db') db'.nextId)
    (hs : ItemSame m.item db db') (hm : db.memory id = some m) :
    ∃ m', db'.memory id = some m' ∧ m'.base = m.base := by
  obtain ⟨hmem, hid⟩ := Db.memory_mem hm
  have hrow : m.base ∈ itemRows db' m.item := by
    rw [hs.rows]
    exact mem_itemRows.mpr ⟨m, hmem, rfl, rfl⟩
  obtain ⟨m', hm', hbase, -⟩ := NormalizeMemory.memory_of_row hv hrow
  rw [Memory.base_id, hid] at hm'
  exact ⟨m', hm', hbase⟩

theorem Worklist.keep (h : Worklist db ids)
    (hv : Versions (keyed db) db.nextId) (hs : SameVersions db db') :
    Worklist db' ids := by
  have hback : ∀ id ∈ ids, ∀ m', db'.memory id = some m' →
      ∃ m, db.memory id = some m ∧ m.view = m'.view := fun id _ m' hm' =>
    memory_view (hs.versions hv) hs.keyed.symm hm'
  refine ⟨h.nodup, fun id hid => ?_, fun id hid id' hid' m m' hm hm' hi => ?_⟩
  · obtain ⟨m, hm, hdel⟩ := h.there id hid
    obtain ⟨m', hm', hview⟩ := memory_view hv hs.keyed hm
    refine ⟨m', hm', ?_⟩
    rw [← hdel]
    exact congrArg MemoryView.deletedAt hview
  · obtain ⟨x, hx, hxv⟩ := hback id hid m hm
    obtain ⟨x', hx', hxv'⟩ := hback id' hid' m' hm'
    refine h.apart id hid id' hid' x x' hx hx' ?_
    rw [item_of_view hxv, item_of_view hxv', hi]

theorem Worklist.tail (h : Worklist db (id :: ids)) : Worklist db ids :=
  ⟨(List.nodup_cons.mp h.nodup).2,
    fun k hk => h.there k (List.mem_cons_of_mem id hk),
    fun k hk k' hk' => h.apart k (List.mem_cons_of_mem id hk) k'
      (List.mem_cons_of_mem id hk')⟩

theorem Worklist.rest_apart (h : Worklist db (id :: ids))
    (hm : db.memory id = some m) :
    ∀ k ∈ ids, ∀ x, db.memory k = some x → x.item ≠ m.item := by
  intro k hk x hx hi
  have heq := h.apart k (List.mem_cons_of_mem id hk) id List.mem_cons_self
    x m hx hm hi
  exact (List.nodup_cons.mp h.nodup).1 (heq ▸ hk)

-- ====== normalizing

theorem normalizeOne_inv
    (h : normalizeOne ports blobs now db id = (db', none)) :
    ∃ r, NormalizeMemory.call ports false blobs db id now = .ok r
      ∧ r.1 = db' := by
  unfold normalizeOne at h
  cases hr : NormalizeMemory.call ports false blobs db id now with
  | error e =>
    rw [hr] at h
    cases h
  | ok r =>
    rw [hr] at h
    cases h
    exact ⟨r, rfl, rfl⟩

theorem normalizeAll_other (hv : Versions (keyed db) db.nextId)
    (hother : ∀ id ∈ ids, ∀ m, db.memory id = some m → m.item ≠ i)
    (hrun : forEach (normalizeOne ports blobs now) db ids = (db', none)) :
    ItemSame i db db' := by
  induction ids generalizing db with
  | nil =>
    cases hrun
    exact .refl i _
  | cons id rest ih =>
    obtain ⟨_, hrun₁, hrest⟩ := forEach_cons_inv hrun
    obtain ⟨r, hr, rfl⟩ := normalizeOne_inv hrun₁
    have hsame := normalize_same hr
    refine (normalize_item_other hv hr
      (hother id List.mem_cons_self)).trans
        (ih (hsame.versions hv) (fun k hk x hx => ?_) hrest)
    obtain ⟨y, hy, hview⟩ :=
      memory_view (hsame.versions hv) hsame.keyed.symm hx
    rw [← item_of_view hview]
    exact hother k (List.mem_cons_of_mem id hk) y hy

theorem normalizeAll_same
    (hrun : forEach (normalizeOne ports blobs now) db ids = (db', none)) :
    SameVersions db db' := by
  induction ids generalizing db with
  | nil =>
    cases hrun
    exact .refl _
  | cons id rest ih =>
    obtain ⟨_, hrun₁, hrest⟩ := forEach_cons_inv hrun
    obtain ⟨r, hr, rfl⟩ := normalizeOne_inv hrun₁
    exact (normalize_same hr).trans (ih hrest)

theorem normalizeAll_own (hv : Versions (keyed db) db.nextId)
    (hw : Worklist db ids) (hid : id ∈ ids) (hm : db.memory id = some m)
    (hrun : forEach (normalizeOne ports blobs now) db ids = (db', none)) :
    OwnRun ports blobs m.base (itemRows db m.item) (itemHeld db m.item)
      (itemRows db' m.item) (itemHeld db' m.item) := by
  induction ids generalizing db m with
  | nil => cases hid
  | cons k rest ih =>
    obtain ⟨_, hrun₁, hrest⟩ := forEach_cons_inv hrun
    obtain ⟨r, hr, rfl⟩ := normalizeOne_inv hrun₁
    have hsame := normalize_same hr
    have hv₁ := hsame.versions hv
    by_cases hk : k = id
    · -- its own run, and then those of other items
      subst hk
      obtain ⟨x, hx, hdel⟩ := hw.there k List.mem_cons_self
      rw [hm, Option.some.injEq] at hx
      have hown := normalize_item_own hr hm rfl (hx ▸ hdel)
      have hafter := @normalizeAll_other ports blobs now r.1 db' rest
        m.item hv₁ (fun k' hk' y hy => ?_) hrest
      · rw [hafter.rows, hafter.held]
        exact hown
      · obtain ⟨z, hz, hview⟩ := memory_view hv₁ hsame.keyed.symm hy
        rw [← item_of_view hview]
        exact hw.rest_apart hm k' hk' z hz
    · have hidr := (List.mem_cons.mp hid).resolve_left (Ne.symm hk)
      have hbefore := @normalize_item_other db m.item _ _ _ _ _ _ hv hr
        fun y hy hi => hw.rest_apart hy id hidr m hm hi.symm
      obtain ⟨m₁, hm₁, hbase⟩ := memory_base hv₁ hbefore hm
      have hi : m₁.item = m.item := by
        rw [← Memory.base_item m₁, hbase, Memory.base_item]
      have hown := ih hv₁ (hw.tail.keep hv hsame) hidr hm₁ hrest
      rw [hbase, hi, hbefore.rows, hbefore.held] at hown
      exact hown

theorem normalizeAll_ends (hv : Versions (keyed db) db.nextId)
    (hw : Worklist db ids)
    (hread : ∀ id ∈ ids, ∀ m, db.memory id = some m →
      (∃ doc, NormalizeMemory.parse ports blobs m = .ok doc)
        ∧ ∀ x ∈ itemHeld db m.item, x.memoryId ≠ m.id) :
    ∃ db', forEach (normalizeOne ports blobs now) db ids = (db', none) := by
  induction ids generalizing db with
  | nil => exact ⟨db, rfl⟩
  | cons id rest ih =>
    obtain ⟨m, hm, hdel⟩ := hw.there id List.mem_cons_self
    obtain ⟨⟨doc, hdoc⟩, hnone⟩ := hread id List.mem_cons_self m hm
    obtain ⟨r, hr⟩ := NormalizeMemory.call_ok false now hm hdel hdoc
      fun c hc hcm => hnone c.held (List.mem_map_of_mem (List.mem_filter.mpr
        ⟨hc, ofRows_of_mem (Db.memory_mem hm).1 hcm.symm⟩)) hcm
    have hsame := normalize_same hr
    have hone : normalizeOne ports blobs now db id = (r.1, none) := by
      unfold normalizeOne
      rw [hr]
    rw [forEach_cons hone]
    refine ih (hsame.versions hv) (hw.tail.keep hv hsame)
      fun k hk x hx => ?_
    -- the other items are as they were
    obtain ⟨y, hy, hview⟩ :=
      memory_view (hsame.versions hv) hsame.keyed.symm hx
    have hother := @normalize_item_other db y.item _ _ _ _ _ _ hv hr
      fun z hz hi => hw.rest_apart hm k hk y hy
        (by rw [hm, Option.some.injEq] at hz; rw [hz, hi])
    obtain ⟨x', hx', hbase⟩ := memory_base (hsame.versions hv) hother hy
    rw [hx, Option.some.injEq] at hx'
    subst hx'
    obtain ⟨⟨doc', hdoc'⟩, hnone'⟩ :=
      hread k (List.mem_cons_of_mem id hk) y hy
    have hparse : NormalizeMemory.parse ports blobs x
        = NormalizeMemory.parse ports blobs y := by
      show NormalizeMemory.parse ports blobs x.base = _
      rw [hbase]
      rfl
    refine ⟨⟨doc', hparse.trans hdoc'⟩, ?_⟩
    rw [← item_of_view hview, hother.held, ← Memory.base_id x, hbase]
    exact hnone'

-- ======= embedding

theorem embed_vectors {embedder : Embedder} {followup : Bool}
    {r : Db × EmbedMemory.Outcome} {c' : MemoryChunk}
    (hr : EmbedMemory.call embedder followup db id now = .ok r)
    (hm : db.memory id = some m) (hdel : m.deletedAt = none)
    (hc' : c' ∈ r.1.chunks) (hvec : c'.embedding = none) :
    c'.memoryId ≠ id ∧ ∃ c ∈ db.chunks, c.memoryId = c'.memoryId
      ∧ c.embedding = none := by
  have hpending : ∀ c ∈ db.chunks, c.memoryId = id → c.embedding = none →
      (c.id, c.content) ∈ EmbedMemory.pendingChunks embedder db id := by
    intro c hc hid hvec
    refine List.mem_map.mpr ⟨c, List.mem_filter.mpr ⟨hc, ?_⟩, rfl⟩
    simp [hid, EmbedMemory.isPending, hvec]
  unfold EmbedMemory.call EmbedMemory.read at hr
  simp only [hm, hdel, Option.isSome_none, Bool.false_eq_true,
    ↓reduceIte] at hr
  by_cases hempty : (EmbedMemory.pendingChunks embedder db id).isEmpty = true
  · simp only [hempty, ↓reduceIte] at hr
    cases hr
    refine ⟨fun hid => ?_, c', hc', rfl, hvec⟩
    have hmem := hpending c' hc' hid hvec
    rw [List.isEmpty_iff.mp hempty] at hmem
    cases hmem
  · simp only [hempty, Bool.false_eq_true, ↓reduceIte] at hr
    cases hr
    obtain ⟨c, hc, hcid, hcm, hcvec, hno⟩ := Pipeline.finish_chunks hc' hvec
    refine ⟨fun hid => hno ?_, c, hc, hcm, hcvec⟩
    exact List.mem_map.mpr ⟨_, hpending c hc (hcm.trans hid) hcvec, rfl⟩

theorem embedAll_ends (hv : Versions (keyed db) db.nextId)
    (hw : Worklist db ids) :
    ∃ db', forEach (embedOne ports now) db ids = (db', none)
      ∧ SameVersions db db' ∧ (∀ i, ItemSame i db db')
      ∧ ∀ c' ∈ db'.chunks, c'.embedding = none → c'.memoryId ∉ ids
        ∧ ∃ c ∈ db.chunks, c.memoryId = c'.memoryId
          ∧ c.embedding = none := by
  induction ids generalizing db with
  | nil =>
    exact ⟨db, rfl, .refl db, fun i => .refl i db,
      fun c hc hvec => ⟨nofun, c, hc, rfl, hvec⟩⟩
  | cons id rest ih =>
    obtain ⟨m, hm, hdel⟩ := hw.there id List.mem_cons_self
    obtain ⟨r, hr⟩ := EmbedMemory.call_ok ports.embedder false now hm
    have hsame := embed_same hr
    have hone : embedOne ports now db id = (r.1, none) := by
      unfold embedOne
      rw [hr]
    obtain ⟨db', hrun, hsame', hitems, hvectors⟩ :=
      ih (hsame.versions hv) (hw.tail.keep hv hsame)
    refine ⟨db', by rw [forEach_cons hone, hrun], hsame.trans hsame',
      fun i => (embed_item hr).trans (hitems i), fun c' hc' hvec => ?_⟩
    obtain ⟨hrest, c₁, hc₁, hcm₁, hvec₁⟩ := hvectors c' hc' hvec
    obtain ⟨hid, c, hc, hcm, hvec'⟩ := embed_vectors hr hm hdel hc₁ hvec₁
    rw [hcm₁] at hid hcm
    exact ⟨fun h => (List.mem_cons.mp h).elim hid hrest, c, hc, hcm, hvec'⟩

end MemoryOS.ReplayCorpus
