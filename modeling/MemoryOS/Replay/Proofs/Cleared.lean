/-
What `_clear` leaves of an item.

A rebuild deletes the rows of its sources, whatever `after_seq` is, and
leaves the other items alone; a downstream stage deletes no row, and the
chunks of those it will reprocess or only their vectors.

# Two ways of being the same

A row that is written back gets a new id, so a version is known by its
view and a chunk by its `Mark`. What is left alone keeps its ids too:
`Unchanged`.
-/
import MemoryOS.Replay.Proofs.Recut

namespace MemoryOS.ReplayCorpus

open Projection Lib KeyedLog

/-- Whether an item's rows are a scope's. -/
def inReach (sourceId : Option Id) (i : Item) : Bool :=
  (sourceId.map fun s => decide (i.sourceId = s)).getD true

/-- What a chunk is, its row's id and its vector apart. -/
structure Mark where
  owner : MemoryView
  version : String
  span : TextChunk
deriving DecidableEq, Repr

def markOf (db : Db) (c : MemoryChunk) : Option Mark :=
  (db.memory c.memoryId).map fun m => ⟨m.view, c.chunkerVersion, c.span⟩

def marks (db : Db) : List Mark := db.chunks.filterMap (markOf db)

/-- An item's rows, by id. -/
def itemKeyed (db : Db) (i : Item) : List (Id × MemoryView) :=
  (keyed db).filter fun r => decide (item r.2 = i)

/-- An item's rows and chunks are the ones there were. -/
structure Unchanged (i : Item) (db db' : Db) : Prop where
  rows : itemKeyed db' i = itemKeyed db i
  held : itemHeld db' i = itemHeld db i

variable {db db' : Db} {scope : ReplayScope} {sourceId : Option Id}
  {clearCache : Bool} {i : Item}

theorem itemKeyed_eq (db : Db) (i : Item) : itemKeyed db i
    = ((itemRows db i).map (·.id)).zip (rowsOf item i (views db)) := by
  unfold itemKeyed keyed itemRows rowsOf views
  rw [List.filter_map, List.filter_map, List.map_map]
  exact (List.zip_map' ..).symm

theorem Unchanged.of_same (h : ItemSame i db db')
    (hviews : rowsOf item i (views db') = rowsOf item i (views db)) :
    Unchanged i db db' :=
  ⟨by rw [itemKeyed_eq, itemKeyed_eq, h.rows, hviews], h.held⟩

theorem itemRows_eq_nil_iff :
    itemRows db i = [] ↔ rowsOf item i (views db) = [] := by
  unfold itemRows rowsOf views
  rw [List.filter_map, List.map_eq_nil_iff, List.map_eq_nil_iff]
  rfl

theorem mem_rowsOf_views {v : MemoryView} :
    v ∈ rowsOf item i (views db)
      ↔ ∃ m ∈ db.memories, m.view = v ∧ m.item = i := by
  unfold rowsOf views
  simp only [List.mem_filter, List.mem_map, decide_eq_true_eq]
  constructor
  · rintro ⟨⟨m, hm, rfl⟩, hi⟩
    exact ⟨m, hm, rfl, hi⟩
  · rintro ⟨m, hm, rfl, hi⟩
    exact ⟨⟨m, hm, rfl⟩, hi⟩

theorem itemHeld_nil (h : itemRows db i = []) : itemHeld db i = [] := by
  unfold itemHeld
  rw [h, List.map_eq_nil_iff, List.filter_eq_nil_iff]
  intro c _
  simp [ofRows]

theorem ofRows_of_mem {m : Memory} {c : MemoryChunk} (hm : m ∈ db.memories)
    (hid : m.id = c.memoryId) : ofRows (itemRows db m.item) c = true := by
  unfold ofRows
  rw [decide_eq_true_eq, ← hid]
  exact List.mem_map.mpr ⟨m.base, mem_itemRows.mpr ⟨m, hm, rfl, rfl⟩, rfl⟩

theorem mem_marks (h : Versions (keyed db) db.nextId) {k : Mark} :
    k ∈ marks db ↔ ∃ m ∈ db.memories, ∃ x ∈ itemHeld db m.item,
      x.memoryId = m.id ∧ k = ⟨m.view, x.version, x.span⟩ := by
  unfold marks markOf
  rw [List.mem_filterMap]
  constructor
  · rintro ⟨c, hc, hk⟩
    obtain ⟨m, hm, rfl⟩ := Option.map_eq_some_iff.mp hk
    obtain ⟨hmem, hid⟩ := Db.memory_mem hm
    exact ⟨m, hmem, c.held, List.mem_map_of_mem (List.mem_filter.mpr
      ⟨hc, ofRows_of_mem hmem hid⟩), hid.symm, rfl⟩
  · rintro ⟨m, hm, x, hx, hid, rfl⟩
    obtain ⟨c, hc, rfl⟩ := List.mem_map.mp hx
    obtain ⟨m', hm', hbase, -⟩ :=
      NormalizeMemory.memory_of_row h (mem_itemRows.mpr ⟨m, hm, rfl, rfl⟩)
    obtain ⟨hmem', hid'⟩ := Db.memory_mem hm'
    rw [memory_unique h hmem' hm hid'] at hm'
    refine ⟨c, (List.mem_filter.mp hc).1, ?_⟩
    rw [show c.memoryId = m.base.id from hid, hm']
    rfl

-- ====== rebuilding

theorem clear_all_memories (hstage : scope.stage = .all) :
    (clear scope sourceId clearCache db).memories
      = db.memories.filter fun m => !inReach sourceId m.item := by
  unfold clear
  by_cases hs : sourceId = none
  · rw [if_pos ⟨hstage, hs⟩, hs]
    refine (List.filter_eq_nil_iff.mpr fun m _ => ?_).symm
    simp [inReach]
  · rw [if_neg fun h => hs h.2]
    simp only [hstage, ReplayScope.rechunks]
    cases clearCache <;> rfl

theorem clear_all_chunks (h : ChunksOwned db) (hstage : scope.stage = .all) :
    (clear scope sourceId clearCache db).chunks = db.chunks.filter fun c =>
      decide (c.memoryId ∉ (db.memories.filter fun m =>
        inReach sourceId m.item).map (·.id)) := by
  unfold clear
  by_cases hs : sourceId = none
  · rw [if_pos ⟨hstage, hs⟩, hs]
    refine (List.filter_eq_nil_iff.mpr fun c hc => ?_).symm
    obtain ⟨m, hm, hid⟩ := h.owned c hc
    rw [decide_eq_true_eq, not_not, ← hid]
    exact List.mem_map_of_mem (List.mem_filter.mpr ⟨hm, rfl⟩)
  · rw [if_neg fun h => hs h.2]
    simp only [hstage, ReplayScope.rechunks]
    -- the chunks deleted first go with their rows anyway
    have hchunks : ∀ db₁ : Db, db₁.memories = db.memories →
        db₁.chunks = db.chunks →
        ((db₁.deleteChunks (chunkOfReprocessed db sourceId)).deleteMemories
          (memoriesOf sourceId)).chunks = db.chunks.filter fun c =>
            decide (c.memoryId ∉ (db.memories.filter fun m =>
              inReach sourceId m.item).map (·.id)) := by
      intro db₁ hm hc
      show List.filter _ (List.filter _ db₁.chunks) = _
      rw [List.filter_filter, hc, Db.deleteChunks_memories, hm]
      refine List.filter_congr fun c _ => ?_
      by_cases hgone : c.memoryId ∈ (db.memories.filter
          (memoriesOf sourceId)).map (·.id)
      · simp [hgone, show (fun m : Memory => inReach sourceId m.item)
          = memoriesOf sourceId from rfl]
      · have hno : chunkOfReprocessed db sourceId c = false := by
          unfold chunkOfReprocessed
          rw [List.any_eq_false]
          intro m hm hre
          rw [Bool.and_eq_true, decide_eq_true_eq] at hre
          refine hgone (List.mem_map.mpr ⟨m, List.mem_filter.mpr ⟨hm, ?_⟩,
            hre.1⟩)
          unfold reprocessed at hre
          rw [Bool.and_eq_true] at hre
          exact hre.2.2
        simp [hgone, hno, show (fun m : Memory => inReach sourceId m.item)
          = memoriesOf sourceId from rfl]
    cases clearCache
    · exact hchunks _ rfl rfl
    · exact hchunks _ rfl rfl

@[simp] theorem clear_events :
    (clear scope sourceId clearCache db).events = db.events := by
  unfold clear
  split
  case isTrue => rfl
  case isFalse =>
    cases scope.stage <;> cases scope.rechunks <;> cases clearCache <;> rfl

@[simp] theorem clear_nextId :
    (clear scope sourceId clearCache db).nextId = db.nextId := by
  unfold clear
  split
  case isTrue => rfl
  case isFalse =>
    cases scope.stage <;> cases scope.rechunks <;> cases clearCache <;> rfl

theorem clear_rebuilt (hv : Versions (keyed db) db.nextId)
    (hc : ChunksOwned db) (hstage : scope.stage = .all) :
    Rebuilt (clear scope sourceId clearCache db) := by
  constructor
  · rw [clear_nextId]
    have hkeyed : keyed (clear scope sourceId clearCache db)
        = (keyed db).filter fun r => !inReach sourceId (item r.2) := by
      unfold keyed
      rw [clear_all_memories hstage, List.filter_map]
      rfl
    rw [hkeyed]
    exact hv.filter _
  · refine hc.filter (clear_all_chunks hc hstage) (by rw [clear_nextId]) ?_
    rintro c _ hkeep ⟨m, hm, hid⟩
    refine ⟨m, ?_, hid⟩
    rw [decide_eq_true_eq] at hkeep
    rw [clear_all_memories hstage, List.mem_filter]
    refine ⟨hm, ?_⟩
    by_contra hin
    rw [Bool.not_eq_true', Bool.not_eq_false] at hin
    exact hkeep (List.mem_map.mpr ⟨m, List.mem_filter.mpr ⟨hm, hin⟩, hid⟩)

theorem clear_gone (hstage : scope.stage = .all)
    (hi : inReach sourceId i = true) :
    itemRows (clear scope sourceId clearCache db) i = [] := by
  unfold itemRows
  rw [clear_all_memories hstage, List.filter_filter, List.map_eq_nil_iff,
    List.filter_eq_nil_iff]
  intro m _
  by_cases hm : m.item = i
  · simp [hm, hi]
  · simp [hm]

theorem clear_other (hv : Versions (keyed db) db.nextId) (hc : ChunksOwned db)
    (hstage : scope.stage = .all) (hi : inReach sourceId i = false) :
    ItemSame i db (clear scope sourceId clearCache db)
      ∧ rowsOf item i (views (clear scope sourceId clearCache db))
        = rowsOf item i (views db) := by
  have hfilter : (db.memories.filter fun m => !inReach sourceId m.item).filter
      (fun m => decide (m.item = i))
      = db.memories.filter fun m => decide (m.item = i) := by
    rw [List.filter_filter]
    refine List.filter_congr fun m _ => ?_
    by_cases hm : m.item = i
    · simp [hm, hi]
    · simp [hm]
  have hrows : itemRows (clear scope sourceId clearCache db) i
      = itemRows db i := by
    unfold itemRows
    rw [clear_all_memories hstage, hfilter]
  refine ⟨⟨by rw [clear_nextId], hrows, ?_⟩, ?_⟩
  · unfold itemHeld
    rw [hrows, clear_all_chunks hc hstage, List.filter_filter]
    congr 1
    refine List.filter_congr fun c _ => ?_
    cases hof : ofRows (itemRows db i) c with
    | false => rfl
    | true =>
      -- its owner is the item's, so no row that is deleted
      rw [Bool.true_and, decide_eq_true_eq]
      intro hgone
      obtain ⟨m, hm, hid⟩ := List.mem_map.mp hgone
      obtain ⟨hm, hin⟩ := List.mem_filter.mp hm
      unfold ofRows at hof
      rw [decide_eq_true_eq, ← hid] at hof
      refine not_mem_rows hv hm (fun hmi => ?_) hof
      rw [hmi, hi] at hin
      cases hin
  · unfold rowsOf views
    rw [clear_all_memories hstage, List.filter_map, List.filter_map]
    exact congrArg _ hfilter

-- ====== downstream

theorem clear_memories (hstage : scope.stage ≠ .all) :
    (clear scope sourceId clearCache db).memories = db.memories := by
  unfold clear
  rw [if_neg fun h => hstage h.1]
  cases hs : scope.stage with
  | all => exact absurd hs hstage
  | normalize => cases scope.rechunks <;> cases clearCache <;> rfl
  | embed => cases scope.rechunks <;> cases clearCache <;> rfl

theorem clear_keyed (hstage : scope.stage ≠ .all) :
    keyed (clear scope sourceId clearCache db) = keyed db := by
  unfold keyed
  rw [clear_memories hstage]

theorem clear_itemRows (hstage : scope.stage ≠ .all) :
    itemRows (clear scope sourceId clearCache db) i = itemRows db i := by
  unfold itemRows
  rw [clear_memories hstage]

theorem clear_normalize_chunks (hstage : scope.stage = .normalize) :
    (clear scope sourceId clearCache db).chunks
      = db.chunks.filter fun c => !chunkOfReprocessed db sourceId c := by
  unfold clear
  rw [if_neg fun h => by rw [hstage] at h; cases h.1]
  simp only [hstage]
  cases scope.rechunks <;> cases clearCache <;> rfl

theorem clear_embed_chunks (hstage : scope.stage = .embed) :
    (clear scope sourceId clearCache db).chunks = db.chunks.map fun c =>
      if chunkOfReprocessed db sourceId c then withoutVector c else c := by
  unfold clear
  rw [if_neg fun h => by rw [hstage] at h; cases h.1]
  simp only [hstage]
  cases hr : scope.rechunks with
  | false => cases clearCache <;> rfl
  | true =>
    unfold ReplayScope.rechunks at hr
    rw [hstage] at hr
    cases hr

theorem clear_embed_item (hstage : scope.stage = .embed) :
    ItemSame i db (clear scope sourceId clearCache db) := by
  have hrows := @clear_itemRows db scope sourceId clearCache i
    (by rw [hstage]; exact nofun)
  refine ⟨by rw [clear_nextId], hrows, ?_⟩
  have hcolumns : ∀ c : MemoryChunk,
      (if chunkOfReprocessed db sourceId c then withoutVector c else c).held
        = c.held := by
    intro c
    split <;> rfl
  have hof : ofRows (itemRows db i) ∘ (fun c =>
      if chunkOfReprocessed db sourceId c then withoutVector c else c)
      = ofRows (itemRows db i) := by
    funext c
    exact congrArg (fun x : Held =>
      decide (x.memoryId ∈ (itemRows db i).map (·.id))) (hcolumns c)
  unfold itemHeld
  rw [hrows, clear_embed_chunks hstage, List.filter_map, List.map_map, hof]
  exact List.map_congr_left fun c _ => hcolumns c

theorem chunkOfReprocessed_iff (hv : Versions (keyed db) db.nextId)
    {m : Memory} {c : MemoryChunk} (hm : m ∈ db.memories)
    (hid : m.id = c.memoryId) :
    chunkOfReprocessed db sourceId c = true
      ↔ reprocessed sourceId m = true := by
  unfold chunkOfReprocessed
  rw [List.any_eq_true]
  constructor
  · rintro ⟨x, hx, h⟩
    rw [Bool.and_eq_true, decide_eq_true_eq] at h
    rw [← memory_unique hv hx hm (h.1.trans hid.symm)]
    exact h.2
  · intro h
    exact ⟨m, hm, by rw [Bool.and_eq_true, decide_eq_true_eq]; exact ⟨hid, h⟩⟩

end MemoryOS.ReplayCorpus
