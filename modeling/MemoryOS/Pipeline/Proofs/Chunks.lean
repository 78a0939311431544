/-
What the pipeline's runs leave in `memory_chunks`.

`ChunksOwned` is the table's keys: ids are unique and already minted, and
every chunk belongs to a memory. A run of a use case keeps them, and on a
memory that is there and has no chunks yet it does not fail but for a
document it cannot read.
-/
import MemoryOS.Corpus.Proofs.Live

namespace MemoryOS

/-- The keys of `memory_chunks`. -/
structure ChunksOwned (db : Db) : Prop where
  ids : (db.chunks.map (·.id)).Nodup
  fresh : ∀ c ∈ db.chunks, c.id < db.nextId
  owned : ∀ c ∈ db.chunks, ∃ m ∈ db.memories, m.id = c.memoryId

variable {now : Timestamp} {ports : Ports} {id sourceId : Id}
  {r : Db × Outcome} {doc : ParsedDocument} {m : Memory} {blobs : Blobs}
  {followup : Bool}

theorem ChunksOwned.empty {db : Db} (h : db.chunks = []) : ChunksOwned db := by
  constructor <;> simp [h]

variable {db db' : Db}

theorem ChunksOwned.map (h : ChunksOwned db) {f : MemoryChunk → MemoryChunk}
    (hchunks : db'.chunks = db.chunks.map f) (hid : ∀ c, (f c).id = c.id)
    (hnext : db.nextId ≤ db'.nextId)
    (hown : ∀ c ∈ db.chunks, (∃ m ∈ db.memories, m.id = c.memoryId) →
      ∃ m ∈ db'.memories, m.id = (f c).memoryId) : ChunksOwned db' := by
  constructor
  · rw [hchunks, List.map_map]
    exact (List.map_congr_left fun c _ => hid c) ▸ h.ids
  · intro c hc
    rw [hchunks] at hc
    obtain ⟨c₀, hc₀, rfl⟩ := List.mem_map.mp hc
    rw [hid]
    exact Nat.lt_of_lt_of_le (h.fresh c₀ hc₀) hnext
  · intro c hc
    rw [hchunks] at hc
    obtain ⟨c₀, hc₀, rfl⟩ := List.mem_map.mp hc
    exact hown c₀ hc₀ (h.owned c₀ hc₀)

theorem ChunksOwned.keep (h : ChunksOwned db) (hchunks : db'.chunks = db.chunks)
    (hnext : db.nextId ≤ db'.nextId)
    (hmem : ∀ id, (∃ m ∈ db.memories, m.id = id) →
      ∃ m ∈ db'.memories, m.id = id) : ChunksOwned db' :=
  ⟨hchunks ▸ h.ids,
    fun c hc => Nat.lt_of_lt_of_le (h.fresh c (hchunks ▸ hc)) hnext,
    fun c hc => hmem _ (h.owned c (hchunks ▸ hc))⟩

theorem ChunksOwned.filter (h : ChunksOwned db) {p : MemoryChunk → Bool}
    (hchunks : db'.chunks = db.chunks.filter p)
    (hnext : db.nextId ≤ db'.nextId)
    (hown : ∀ c ∈ db.chunks, p c = true →
      (∃ m ∈ db.memories, m.id = c.memoryId) →
      ∃ m ∈ db'.memories, m.id = c.memoryId) : ChunksOwned db' := by
  constructor
  · rw [hchunks]
    exact h.ids.sublist (List.filter_sublist.map _)
  · intro c hc
    rw [hchunks] at hc
    exact Nat.lt_of_lt_of_le (h.fresh c (List.mem_filter.mp hc).1) hnext
  · intro c hc
    rw [hchunks] at hc
    obtain ⟨hc, hp⟩ := List.mem_filter.mp hc
    exact hown c hc hp (h.owned c hc)

-- ====== normalizing

namespace NormalizeMemory

theorem chunkRows_ids (version : String) (memoryId next : Id)
    (cs : List TextChunk) :
    (chunkRows version memoryId next cs).map (·.id)
      = List.range' next cs.length := by
  induction cs generalizing next with
  | nil => rfl
  | cons c rest ih =>
    unfold chunkRows
    rw [List.map_cons, ih, List.length_cons, List.range'_succ]
    rfl

theorem chunkRows_mem {version : String} {memoryId next : Id}
    {cs : List TextChunk} {c : MemoryChunk}
    (hc : c ∈ chunkRows version memoryId next cs) :
    c.memoryId = memoryId ∧ c.chunkerVersion = version
      ∧ c.embedding = none ∧ c.embeddingModel = none
      ∧ next ≤ c.id ∧ c.id < next + cs.length := by
  have hid : c.id ∈ List.range' next cs.length := by
    rw [← chunkRows_ids version memoryId next cs]
    exact List.mem_map_of_mem hc
  rw [List.mem_range'_1] at hid
  refine ⟨?_, ?_, ?_, ?_, hid⟩ <;>
  · clear hid
    induction cs generalizing next with
    | nil => cases hc
    | cons d rest ih =>
      unfold chunkRows at hc
      rcases List.mem_cons.mp hc with rfl | hc
      · rfl
      · exact ih hc

theorem documented_memories_iff (k : Id) :
    (∃ m ∈ (documented db id doc).memories, m.id = k)
      ↔ ∃ m ∈ db.memories, m.id = k := by
  unfold documented
  simp only [List.mem_map]
  constructor
  · rintro ⟨_, ⟨m, hm, rfl⟩, hk⟩
    refine ⟨m, hm, ?_⟩
    rw [← hk]
    split <;> rfl
  · rintro ⟨m, hm, hk⟩
    refine ⟨_, ⟨m, hm, rfl⟩, ?_⟩
    rw [← hk]
    split <;> rfl

theorem call_cases (h : call ports followup blobs db id now = .ok r) :
    ∃ m, db.memory id = some m ∧
      (r.1 = db ∧ (m.deletedAt.isSome = true ∨
          ∃ doc, parse ports blobs m = .ok doc
            ∧ isCurrent ports db m doc = true)
        ∨ m.deletedAt = none ∧ ∃ doc, parse ports blobs m = .ok doc
          ∧ isCurrent ports db m doc = false
          ∧ ((∃ previous, previousVersion db m doc = some previous
              ∧ only ports.chunker.version (chunkVersions db previous.id) = true
              ∧ ordinalsClash db m.id previous.id = false
              ∧ r.1 = documented (moveChunks db previous.id m.id) m.id doc)
            ∨ (∀ previous, previousVersion db m doc = some previous →
                only ports.chunker.version (chunkVersions db previous.id)
                  = false)
              ∧ r.1 = store ports followup db m doc
                  (ports.chunker.chunk doc) now)) := by
  unfold call at h
  split at h
  case h_1 => cases h
  case h_2 m hm =>
    refine ⟨m, hm, ?_⟩
    split at h
    case isTrue hdel =>
      cases h
      exact .inl ⟨rfl, .inl hdel⟩
    case isFalse hdel =>
      split at h
      case h_1 => cases h
      case h_2 doc hdoc =>
        split at h
        case isTrue hcur =>
          cases h
          exact .inl ⟨rfl, .inr ⟨doc, hdoc, hcur⟩⟩
        case isFalse hcur =>
          refine .inr ⟨by simpa using hdel, doc, hdoc, by simpa using hcur, ?_⟩
          split at h
          case h_1 => cases h
          case h_2 db' hadopt =>
            cases h
            unfold adopt at hadopt
            split at hadopt
            case h_1 => cases hadopt
            case h_2 previous hp =>
              split at hadopt
              case isTrue => cases hadopt
              case isFalse honly =>
                split at hadopt
                case isTrue => cases hadopt
                case isFalse hclash =>
                  cases hadopt
                  exact .inl ⟨previous, hp, by simpa using honly,
                    by simpa using hclash, rfl⟩
          case h_3 hadopt =>
            cases h
            refine .inr ⟨fun previous hp => ?_, rfl⟩
            unfold adopt at hadopt
            simp only [hp] at hadopt
            split at hadopt
            case isTrue honly => simpa using honly
            case isFalse =>
              split at hadopt
              case isTrue => cases hadopt
              case isFalse => cases hadopt

theorem call_deleted_iff (h : call ports followup blobs db id now = .ok r)
    (hm : db.memory id = some m) :
    r.2 = .deleted ↔ m.deletedAt.isSome = true := by
  unfold call at h
  simp only [hm] at h
  split at h
  case isTrue hdel =>
    cases h
    simp [hdel]
  case isFalse hdel =>
    have hother : r.2 ≠ .deleted := by
      split at h
      case h_1 => cases h
      case h_2 doc hdoc =>
        split at h
        case isTrue =>
          cases h
          exact nofun
        case isFalse =>
          split at h
          case h_1 => cases h
          case h_2 =>
            cases h
            exact nofun
          case h_3 =>
            cases h
            exact nofun
    exact ⟨fun hd => absurd hd hother, fun hd => absurd hd hdel⟩

theorem call_ok (followup : Bool) (now : Timestamp)
    (hm : db.memory id = some m) (hdel : m.deletedAt = none)
    (hdoc : parse ports blobs m = .ok doc)
    (hnone : ∀ c ∈ db.chunks, c.memoryId ≠ m.id) :
    ∃ r, call ports followup blobs db id now = .ok r := by
  unfold call
  simp only [hm, hdel, Option.isSome_none, Bool.false_eq_true, ↓reduceIte,
    hdoc]
  split
  case isTrue => exact ⟨_, rfl⟩
  case isFalse =>
    have hclash : ∀ k, ordinalsClash db m.id k = false := by
      intro k
      unfold ordinalsClash
      rw [List.any_eq_false]
      intro c hc
      simp [hnone c hc]
    cases hadopt : adopt ports db m doc with
    | ok o => cases o <;> exact ⟨_, rfl⟩
    | error e =>
      unfold adopt at hadopt
      split at hadopt
      case h_1 => cases hadopt
      case h_2 previous hp =>
        simp only [hclash, Bool.false_eq_true, ↓reduceIte] at hadopt
        split at hadopt <;> cases hadopt

theorem call_error {e : Failure} (followup : Bool) (now : Timestamp)
    (hm : db.memory id = some m) (hdel : m.deletedAt = none)
    (hdoc : parse ports blobs m = .error e) :
    call ports followup blobs db id now = .error e := by
  unfold call
  simp [hm, hdel, hdoc]

theorem store_owned {cs : List TextChunk}
    (h : ChunksOwned db) (hm : m ∈ db.memories) :
    ChunksOwned (store ports followup db m doc cs now) := by
  have hstored : ChunksOwned (store ports false db m doc cs now) := by
    constructor
    · show ((db.chunks.filter _ ++ chunkRows _ m.id db.nextId cs).map
        (·.id)).Nodup
      rw [List.map_append, chunkRows_ids, List.nodup_append]
      refine ⟨h.ids.sublist (List.filter_sublist.map _), List.nodup_range' ..,
        fun a ha b hb => ?_⟩
      obtain ⟨c, hc, rfl⟩ := List.mem_map.mp ha
      exact Nat.ne_of_lt (Nat.lt_of_lt_of_le
        (h.fresh c (List.mem_filter.mp hc).1) (List.mem_range'_1.mp hb).1)
    · intro c hc
      rcases List.mem_append.mp hc with hc | hc
      · exact Nat.lt_of_lt_of_le (h.fresh c (List.mem_filter.mp hc).1)
          (Nat.le_add_right _ _)
      · exact (chunkRows_mem hc).2.2.2.2.2
    · intro c hc
      rcases List.mem_append.mp hc with hc | hc
      · exact (documented_memories_iff _).mpr
          (h.owned c (List.mem_filter.mp hc).1)
      · rw [(chunkRows_mem hc).1]
        exact (documented_memories_iff _).mpr ⟨m, hm, rfl⟩
  cases followup with
  | false => exact hstored
  | true => exact hstored.keep rfl (Nat.le_succ _) fun _ hk => hk

theorem call_owned (h : ChunksOwned db)
    (hr : call ports followup blobs db id now = .ok r) : ChunksOwned r.1 := by
  obtain ⟨m, hm, ⟨heq, -⟩ | ⟨-, doc, -, -, ⟨previous, -, -, -, heq⟩ | ⟨-, heq⟩⟩⟩ :=
    call_cases hr
  · exact heq ▸ h
  · rw [heq]
    refine h.map rfl (fun c => by split <;> rfl) (Nat.le_refl _)
      fun c _ hown => ?_
    rw [documented_memories_iff]
    split
    · exact ⟨m, (Db.memory_mem hm).1, rfl⟩
    · exact hown
  · rw [heq]
    exact store_owned h (Db.memory_mem hm).1

end NormalizeMemory

-- ======= embedding

namespace EmbedMemory

/-- What a write leaves of one chunk. -/
def vectored (embedder : Embedder) (vectors : Text → Embedding)
    (pending : List (Id × Text)) (now : Timestamp) (c : MemoryChunk) :
    MemoryChunk :=
  pending.foldl (fun c p => if c.id = p.1 then
    withVector embedder.modelId (vectors p.2) now c else c) c

section Vectored

variable {embedder : Embedder} {vectors : Text → Embedding}
  {pending : List (Id × Text)} {now : Timestamp}

theorem write_eq (db : Db) :
    write embedder vectors pending db now
      = { db with chunks :=
          db.chunks.map (vectored embedder vectors pending now) } := by
  unfold write
  induction pending generalizing db with
  | nil =>
    show db = { db with chunks := db.chunks.map id }
    rw [List.map_id]
  | cons p rest ih =>
    rw [List.foldl_cons, ih]
    unfold writeOne
    simp only [List.map_map]
    rfl

theorem vectored_columns (c : MemoryChunk) :
    ∃ v m t, vectored embedder vectors pending now c
      = { c with embedding := v, embeddingModel := m, embeddedAt := t } := by
  unfold vectored
  induction pending generalizing c with
  | nil => exact ⟨_, _, _, rfl⟩
  | cons p rest ih =>
    rw [List.foldl_cons]
    split
    · obtain ⟨v, m, t, h⟩ :=
        ih (withVector embedder.modelId (vectors p.2) now c)
      exact ⟨v, m, t, h⟩
    · exact ih c

@[simp] theorem vectored_id (c : MemoryChunk) :
    (vectored embedder vectors pending now c).id = c.id := by
  obtain ⟨v, m, t, h⟩ := @vectored_columns embedder vectors pending now c
  rw [h]

@[simp] theorem vectored_memoryId (c : MemoryChunk) :
    (vectored embedder vectors pending now c).memoryId = c.memoryId := by
  obtain ⟨v, m, t, h⟩ := @vectored_columns embedder vectors pending now c
  rw [h]

end Vectored

theorem embedChunks_eq {embedder : Embedder} {pending : List (Id × Text)}
    {now : Timestamp} (db : Db) :
    ∃ cache, embedChunks embedder db pending now
      = { db with
          chunks := db.chunks.map
            (vectored embedder (vectorOf embedder db) pending now)
          embeddingCache := cache } := by
  unfold embedChunks
  rw [write_eq]
  exact ⟨_, rfl⟩

theorem finish_owned (embedder : Embedder) (followup : Bool) (id : Id)
    (pending : List (Id × Text)) (now : Timestamp) (h : ChunksOwned db) :
    ChunksOwned (finish embedder followup db id pending now) := by
  have hw : ChunksOwned (embedChunks embedder db pending now) := by
    obtain ⟨cache, heq⟩ := @embedChunks_eq embedder pending now db
    rw [heq]
    refine h.map rfl vectored_id (Nat.le_refl _) fun c _ hown => ?_
    rw [vectored_memoryId]
    exact hown
  unfold finish
  cases followup with
  | false => exact hw
  | true => exact hw.keep rfl (Nat.le_succ _) fun _ hk => hk

theorem call_owned {embedder : Embedder} (h : ChunksOwned db)
    (hr : call embedder followup db id now = .ok r) : ChunksOwned r.1 := by
  obtain heq | ⟨pending, -, heq⟩ := call_cases hr
  · exact heq ▸ h
  · rw [heq]
    exact finish_owned embedder followup id pending now h

theorem call_ok (embedder : Embedder)
    (followup : Bool) (now : Timestamp) (hm : db.memory id = some m) :
    ∃ r, call embedder followup db id now = .ok r := by
  unfold call
  split
  case h_1 e hread =>
    unfold read at hread
    simp only [hm] at hread
    split at hread
    case isTrue => cases hread
    case isFalse => split at hread <;> cases hread
  case h_2 => exact ⟨_, rfl⟩
  case h_3 => exact ⟨_, rfl⟩

end EmbedMemory

-- ====== every writer

theorem recordVersion_owned {item : ObservedItem} (h : ChunksOwned db) :
    ChunksOwned (recordVersion db sourceId item now).1 := by
  unfold recordVersion appendEvent
  simp only
  split
  case h_1 => exact h.keep rfl (Nat.le_succ _) fun _ hk => hk
  case h_2 m hm =>
    refine h.keep ?_ ?_ ?_
    · rw [Db.enqueue_chunks, Db.enqueue_chunks, addVersion_chunks]
    · rw [Db.enqueue_nextId, Db.enqueue_nextId, addVersion_nextId]
      exact Nat.le_add_right _ 3
    · rintro k ⟨x, hx, rfl⟩
      rw [Db.enqueue_memories, Db.enqueue_memories]
      unfold addVersion
      split
      case h_1 => exact ⟨x, List.mem_append_left _ hx, rfl⟩
      case h_2 c hc =>
        refine ⟨_, List.mem_append_left _ (List.mem_map_of_mem hx), ?_⟩
        split <;> rfl

theorem ingestItem_owned {s s' : Store}
    {item : ObservedItem} {out : Option Ingested}
    (h : ChunksOwned s.db)
    (hin : ingestItem s sourceId item now = .ok (s', out)) :
    ChunksOwned s'.db := by
  obtain ⟨-, rfl, -⟩ | ⟨-, artifacts, blobs, -, rfl, -⟩ := ingestItem_cases hin
  · exact h
  · exact recordVersion_owned (h.keep rfl (Nat.le_refl _) fun _ hk => hk)

theorem markDeleted_owned {i : Item}
    (h : ChunksOwned db) : ChunksOwned (Deletion.markDeleted db i id now) := by
  refine h.keep rfl (Nat.le_succ _) ?_
  rintro k ⟨x, hx, rfl⟩
  refine ⟨_, List.mem_map_of_mem hx, ?_⟩
  split <;> rfl

theorem detectDeletions_owned {observed : List String}
    {clock : String → Timestamp} (h : ChunksOwned db) :
    ChunksOwned (Deletion.detectDeletions db sourceId observed clock) := by
  unfold Deletion.detectDeletions
  simp only
  generalize List.mergeSort _ _ = missing
  generalize Deletion.knownOf db sourceId = known
  induction missing generalizing db with
  | nil => exact h
  | cons k rest ih =>
    rw [List.foldl_cons]
    refine ih ?_
    unfold Deletion.sweepOne
    split
    case h_1 => exact h
    case h_2 => exact markDeleted_owned h

theorem deleteMemories_owned {p : Memory → Bool} (h : ChunksOwned db) :
    ChunksOwned (db.deleteMemories p) := by
  refine h.filter rfl (Nat.le_refl _) ?_
  rintro c hc hkeep ⟨m, hm, hid⟩
  refine ⟨m, ?_, hid⟩
  rw [Db.deleteMemories_memories, List.mem_filter]
  refine ⟨hm, ?_⟩
  cases hp : p m with
  | false => rfl
  | true =>
    have hgone : c.memoryId ∈ (db.memories.filter p).map (·.id) := by
      rw [← hid]
      exact List.mem_map_of_mem (List.mem_filter.mpr ⟨hm, hp⟩)
    simp [hgone] at hkeep

theorem purgeOne_owned {i : Item}
    {r : Db × List ContentHash} (h : ChunksOwned db)
    (hp : Deletion.purgeOne db i now = .ok r) : ChunksOwned r.1 := by
  unfold Deletion.purgeOne at hp
  simp only at hp
  split at hp
  case isTrue => cases hp
  case isFalse =>
    cases hp
    exact (deleteMemories_owned (h.keep rfl (Nat.le_refl _)
      fun _ hk => hk)).keep rfl (Nat.le_succ _) fun _ hk => hk

theorem purgeLoop_owned {items : List (Item × Timestamp)}
    (h : ChunksOwned db) : ChunksOwned (Deletion.purgeLoop db items).1 := by
  induction items generalizing db with
  | nil => exact h
  | cons x rest ih =>
    obtain ⟨i, now⟩ := x
    unfold Deletion.purgeLoop
    split
    case h_1 => exact h
    case h_2 db₁ hashes hp => exact ih (purgeOne_owned h hp)

theorem step_owned {s : Store} {op : Live.Op}
    (h : ChunksOwned s.db) : ChunksOwned (Live.step ports s op).db := by
  unfold Live.step
  cases op with
  | upload hash data => exact h
  | ingest sourceId item now =>
    simp only
    split
    case h_1 => exact h
    case h_2 r hr => exact ingestItem_owned h hr
  | detectDeletions sourceId observed clock => exact detectDeletions_owned h
  | tombstone memoryId now =>
    simp only
    split
    case h_1 => exact h
    case h_2 db hdb =>
      obtain rfl | ⟨i, c, -, rfl⟩ := tombstone_cases hdb
      · exact h
      · exact markDeleted_owned h
  | restore memoryId now =>
    simp only
    split
    case h_1 => exact h
    case h_2 s' hs' =>
      obtain ⟨_, _, _, hin⟩ := restore_cases hs'
      exact ingestItem_owned h hin
  | purge items =>
    simp only
    unfold Deletion.purge
    simp only
    split
    · exact purgeLoop_owned h
    · exact purgeLoop_owned h
  | normalize memoryId now =>
    simp only
    split
    case h_1 => exact h
    case h_2 r hr => exact NormalizeMemory.call_owned h hr
  | embed memoryId now =>
    simp only
    split
    case h_1 => exact h
    case h_2 r hr => exact EmbedMemory.call_owned h hr

end MemoryOS
