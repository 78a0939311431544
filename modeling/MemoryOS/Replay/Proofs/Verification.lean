/-
A clean comparison of two snapshots is equality while no two sources of one
name have an item key in common: a row is known by its source's name, and
names are unique among sources of one kind only.
-/
import MemoryOS.Replay.Verification

namespace MemoryOS.Verification

open Lib

-- ====== statement vocabulary

/-- The schema's unique indexes and the foreign key to `sources`. -/
structure Schema (db : Db) : Prop where
  sourceIds : (db.sources.map (·.id)).Nodup
  /-- `uq_sources_kind_name`. -/
  sourceNames : (db.sources.map fun s => (s.kind, s.name)).Nodup
  memoryIds : (db.memories.map (·.id)).Nodup
  /-- `uq_memories_source_key_version`. -/
  versions : (db.memories.map fun m =>
    (m.sourceId, m.externalKey, m.version)).Nodup
  /-- `uq_memories_current_version`. -/
  current : ((db.memories.filter (·.isCurrent)).map fun m =>
    (m.sourceId, m.externalKey)).Nodup
  /-- `uq_memory_chunks_memory_ordinal`. -/
  ordinals : (db.chunks.map fun c => (c.memoryId, c.ordinal)).Nodup
  known : ∀ m ∈ db.memories, ∃ s ∈ db.sources, s.id = m.sourceId

/-- No two sources of one name have an item key in common. -/
def NamesApart (db : Db) : Prop :=
  ∀ m ∈ db.memories, ∀ m' ∈ db.memories, sourceName db m = sourceName db m' →
    m.externalKey = m'.externalKey → m.sourceId = m'.sourceId

/-- The same memory, chunk and graph-memory rows. -/
structure SameRows (before after : Snapshot) : Prop where
  memories : before.memories.Perm after.memories
  chunks : before.chunks.Perm after.chunks
  graphMemories : before.graphMemories.Perm after.graphMemories

variable {w : Writing} {db : Db}

-- ======== the keys

theorem Schema.source_eq (h : Schema db) {s s' : Source} (hs : s ∈ db.sources)
    (hs' : s' ∈ db.sources) (hid : s.id = s'.id) : s = s' :=
  List.inj_on_of_nodup_map h.sourceIds hs hs' hid

theorem Schema.memory_eq (h : Schema db) {m m' : Memory}
    (hm : m ∈ db.memories) (hm' : m' ∈ db.memories) (hid : m.id = m'.id) :
    m = m' :=
  List.inj_on_of_nodup_map h.memoryIds hm hm' hid

theorem Schema.version_eq (h : Schema db) {m m' : Memory}
    (hm : m ∈ db.memories) (hm' : m' ∈ db.memories)
    (hsource : m.sourceId = m'.sourceId)
    (hkey : m.externalKey = m'.externalKey)
    (hversion : m.version = m'.version) : m = m' := by
  refine List.inj_on_of_nodup_map h.versions hm hm' ?_
  show (m.sourceId, m.externalKey, m.version) = _
  rw [hsource, hkey, hversion]

theorem sourceName_eq (h : Schema db) {m : Memory} {s : Source}
    (hs : s ∈ db.sources) (hid : s.id = m.sourceId) :
    sourceName db m = some s.name := by
  unfold sourceName
  cases hfind : db.sources.find? fun s => decide (s.id = m.sourceId) with
  | none =>
    have := List.find?_eq_none.mp hfind s hs
    exact absurd (decide_eq_true hid) this
  | some s' =>
    have hs' := List.mem_of_find?_eq_some hfind
    have hid' : s'.id = m.sourceId := by simpa using List.find?_some hfind
    rw [h.source_eq hs' hs (hid'.trans hid.symm)]
    rfl

theorem memoryRows_nodup (h : Schema db) (hapart : NamesApart db) :
    ((memoryRows db).map MemoryRow.key).Nodup := by
  unfold memoryRows
  rw [List.Nodup, List.pairwise_map]
  refine List.Pairwise.filterMap (R := fun m m' => m ∈ db.memories
    ∧ m' ∈ db.memories ∧ m ≠ m') _ (fun m m' hmm r hr r' hr' => ?_) ?_
  · obtain ⟨hm, hm', hne⟩ := hmm
    obtain ⟨name, hname, rfl⟩ := Option.map_eq_some_iff.mp hr
    obtain ⟨name', hname', rfl⟩ := Option.map_eq_some_iff.mp hr'
    intro heq
    unfold MemoryRow.key memoryRow at heq
    simp only [Prod.mk.injEq] at heq
    obtain ⟨hn, hkey, hversion⟩ := heq
    refine hne (h.version_eq hm hm' (hapart m hm m' hm' ?_ hkey) hkey hversion)
    rw [hname, hname', hn]
  · exact (h.memoryIds.of_map.pairwise_of_forall_ne
      (r := fun m m' => m ∈ db.memories ∧ m' ∈ db.memories ∧ m ≠ m')
      fun m hm m' hm' hne => ⟨hm, hm', hne⟩)

theorem chunkRows_nodup (h : Schema db) (hapart : NamesApart db) :
    ((chunkRows w db).map ChunkRow.key).Nodup := by
  unfold chunkRows
  rw [List.Nodup, List.pairwise_map]
  have hpairs := List.pairwise_map.mp h.ordinals
  refine List.Pairwise.filterMap _ (fun c c' hcc r hr r' hr' => ?_) hpairs
  obtain ⟨m, hm, hr⟩ := Option.bind_eq_some_iff.mp hr
  obtain ⟨m', hm', hr'⟩ := Option.bind_eq_some_iff.mp hr'
  obtain ⟨name, hname, rfl⟩ := Option.map_eq_some_iff.mp hr
  obtain ⟨name', hname', rfl⟩ := Option.map_eq_some_iff.mp hr'
  obtain ⟨hmem, hid⟩ := Db.memory_mem hm
  obtain ⟨hmem', hid'⟩ := Db.memory_mem hm'
  intro heq
  unfold ChunkRow.key chunkRow at heq
  simp only [Prod.mk.injEq] at heq
  obtain ⟨hn, hkey, hversion, hordinal⟩ := heq
  have hsame : m = m' := by
    refine h.version_eq hmem hmem' (hapart m hmem m' hmem' ?_ hkey) hkey
      hversion
    rw [hname, hname', hn]
  refine hcc ?_
  show (c.memoryId, c.ordinal) = _
  rw [← hid, ← hid', hsame, hordinal]

-- ------ the graph's rows

theorem mem_projected {m : Memory} : m ∈ GraphProjection.projected db
    ↔ m ∈ db.memories ∧ m.isCurrent = true ∧ m.deletedAt.isNone = true := by
  unfold GraphProjection.projected
  rw [List.mem_insertionSort, List.mem_filter, Bool.and_eq_true]

theorem memoryNodesWithSources_eq (h : Schema db) :
    memoryNodesWithSources w (GraphProjection.read w.uuid db)
      = (GraphProjection.projected db).map fun m =>
        (⟨m.id, m.externalKey.toList, m.kind, m.occurredAt⟩,
          ((sourceName db m).map String.toList).getD []) := by
  unfold memoryNodesWithSources GraphProjection.read
    GraphProjection.memoriesOf
  simp only [List.map_map]
  refine List.map_congr_left fun m hm => ?_
  obtain ⟨hmem, -, -⟩ := mem_projected.mp hm
  obtain ⟨s, hs, hid⟩ := h.known m hmem
  rw [sourceName_eq h hs hid]
  refine congrArg (Prod.mk _) ?_
  -- the edge of the memory
  have hedge : (GraphProjection.fromSourceEdges w.uuid
      ((GraphProjection.projected db).map fun m =>
        (m.id, m.sourceId))).reverse.find? (fun e =>
          decide (e.type = .fromSource ∧ e.start.key = w.uuid m.id))
      = some { type := .fromSource, start := ⟨.memory, w.uuid m.id⟩
               stop := ⟨.source, w.uuid m.sourceId⟩ } := by
    cases hfind : (GraphProjection.fromSourceEdges w.uuid
      ((GraphProjection.projected db).map fun m =>
        (m.id, m.sourceId))).reverse.find? (fun e =>
          decide (e.type = .fromSource ∧ e.start.key = w.uuid m.id)) with
    | none =>
      have hno := List.find?_eq_none.mp hfind
        { type := .fromSource, start := ⟨.memory, w.uuid m.id⟩
          stop := ⟨.source, w.uuid m.sourceId⟩ } (by
        rw [List.mem_reverse]
        unfold GraphProjection.fromSourceEdges
        rw [List.map_map]
        exact List.mem_map.mpr ⟨m, hm, rfl⟩)
      simp at hno
    | some e =>
      have hmem' := List.mem_reverse.mp (List.mem_of_find?_eq_some hfind)
      have hkey := List.find?_some hfind
      unfold GraphProjection.fromSourceEdges at hmem'
      rw [List.map_map] at hmem'
      obtain ⟨m', hm', rfl⟩ := List.mem_map.mp hmem'
      simp only [Function.comp_apply, true_and, decide_eq_true_eq] at hkey
      rw [h.memory_eq (mem_projected.mp hm').1 hmem (w.uuid_injective hkey)]
      rfl
  -- the node of its source
  have hname : ((GraphProjection.sourcesOf db
      (((GraphProjection.projected db).map fun m =>
        (m.id, m.sourceId)).map (·.2))).reverse.find? fun s =>
          decide (w.uuid s.sourceId = w.uuid m.sourceId)).map (·.name)
      = some s.name.toList := by
    have hsource : (⟨s.id, s.name.toList, s.kind.value⟩ : SourceNode)
        ∈ GraphProjection.sourcesOf db
          (((GraphProjection.projected db).map fun m =>
            (m.id, m.sourceId)).map (·.2)) := by
      unfold GraphProjection.sourcesOf
      refine List.mem_map.mpr ⟨s, ?_, rfl⟩
      rw [List.mem_insertionSort, List.mem_filter]
      refine ⟨hs, decide_eq_true ?_⟩
      rw [List.map_map]
      exact List.mem_map.mpr ⟨m, hm, hid.symm⟩
    cases hfind : (GraphProjection.sourcesOf db
      (((GraphProjection.projected db).map fun m =>
        (m.id, m.sourceId)).map (·.2))).reverse.find? fun s =>
          decide (w.uuid s.sourceId = w.uuid m.sourceId) with
    | none =>
      have hno := List.find?_eq_none.mp hfind _ (List.mem_reverse.mpr hsource)
      simp [hid] at hno
    | some node =>
      have hmem' := List.mem_reverse.mp (List.mem_of_find?_eq_some hfind)
      have hkey := List.find?_some hfind
      unfold GraphProjection.sourcesOf at hmem'
      obtain ⟨s', hs', rfl⟩ := List.mem_map.mp hmem'
      rw [List.mem_insertionSort, List.mem_filter] at hs'
      simp only [decide_eq_true_eq] at hkey
      rw [h.source_eq hs'.1 hs ((w.uuid_injective hkey).trans hid.symm)]
      rfl
  rw [List.map_map] at hname
  show ((List.find? _ _).map _).getD [] = _
  rw [hedge, Option.map_some, Option.getD_some]
  exact congrArg (fun name : Option Text => name.getD []) hname

theorem graphRows_nodup (h : Schema db) (hapart : NamesApart db) :
    ((snapshot w db).graphMemories.map GraphMemoryRow.key).Nodup := by
  unfold snapshot
  simp only
  rw [memoryNodesWithSources_eq h, List.map_map, List.map_map]
  refine List.Nodup.map_on (fun m hm m' hm' heq => ?_) ?_
  · obtain ⟨hmem, hcurrent, -⟩ := mem_projected.mp hm
    obtain ⟨hmem', hcurrent', -⟩ := mem_projected.mp hm'
    obtain ⟨s, hs, hid⟩ := h.known m hmem
    obtain ⟨s', hs', hid'⟩ := h.known m' hmem'
    unfold GraphMemoryRow.key at heq
    simp only [Function.comp_apply, Prod.mk.injEq, sourceName_eq h hs hid,
      sourceName_eq h hs' hid', Option.map_some, Option.getD_some,
      String.toList_inj] at heq
    obtain ⟨hn, hkey⟩ := heq
    have hsource := hapart m hmem m' hmem' (by
      rw [sourceName_eq h hs hid, sourceName_eq h hs' hid', hn]) hkey
    refine List.inj_on_of_nodup_map h.current
      (List.mem_filter.mpr ⟨hmem, hcurrent⟩)
      (List.mem_filter.mpr ⟨hmem', hcurrent'⟩) ?_
    show (m.sourceId, m.externalKey) = _
    rw [hsource, hkey]
  · unfold GraphProjection.projected
    exact ((List.perm_insertionSort _ _).nodup_iff).mpr
      (h.memoryIds.of_map.filter _)

-- ====== what identical says

theorem identical_iff {before after : Db} (hbefore : Schema before)
    (hafter : Schema after) (hapart : NamesApart before)
    (hapart' : NamesApart after) :
    (compare (snapshot w before) (snapshot w after)).identical = true
      ↔ SameRows (snapshot w before) (snapshot w after) := by
  have hrow {ρ : Type} [DecidableEq ρ] (a b : ρ) :
      decide (a = b) = true ↔ a = b := decide_eq_true_iff
  have hmemories : (diffRows MemoryRow.key (memoryRows before)
      (memoryRows after)).clean = true ↔ _ :=
    diff_clean_iff (memoryRows_nodup hbefore hapart)
      (memoryRows_nodup hafter hapart') hrow
  have hchunks : (diffRows ChunkRow.key (chunkRows w before)
      (chunkRows w after)).clean = true ↔ _ :=
    diff_clean_iff (chunkRows_nodup hbefore hapart)
      (chunkRows_nodup hafter hapart') hrow
  have hgraph : (diffRows GraphMemoryRow.key (snapshot w before).graphMemories
      (snapshot w after).graphMemories).clean = true ↔ _ :=
    diff_clean_iff (graphRows_nodup hbefore hapart)
      (graphRows_nodup hafter hapart') hrow
  unfold ComparisonResult.identical compare
  rw [Bool.and_eq_true, Bool.and_eq_true]
  constructor
  · rintro ⟨⟨hm, hc⟩, hg⟩
    exact ⟨hmemories.mp hm, hchunks.mp hc, hgraph.mp hg⟩
  · intro h
    exact ⟨⟨hmemories.mpr h.memories, hchunks.mpr h.chunks⟩,
      hgraph.mpr h.graphMemories⟩

end MemoryOS.Verification
