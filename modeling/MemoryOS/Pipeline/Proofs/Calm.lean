/-
The work that is owed to the embedder, and what leaves it alone.

An operation that normalizes nothing asks for no embedding: it adds no
chunk without a vector to a current, undeleted memory, and queues no
`EMBED_MEMORY` job. `Calm` says so of two databases, and composes.
-/
import MemoryOS.Pipeline.Proofs.Chunks

namespace MemoryOS.Pipeline

/-- A chunk without a vector, of a memory that is current and not
deleted. -/
structure Unembedded (db : Db) (c : MemoryChunk) (m : Memory) : Prop where
  chunk : c ∈ db.chunks
  vector : c.embedding = none
  memory : m ∈ db.memories
  owner : m.id = c.memoryId
  current : m.isCurrent = true
  alive : m.deletedAt = none

/-- An `EMBED_MEMORY` job whose payload names a memory. -/
def EmbedJob (j : Job) (memoryId : Id) : Prop :=
  j.jobType = .embedMemory ∧ j.payload.memoryId = some memoryId

/-- Two databases between which nothing was normalized and no embed job
queued. -/
structure Queued (db db' : Db) : Prop where
  next : db.nextId ≤ db'.nextId
  rows : ∀ r' ∈ db'.memories, r'.normalizedHash = none →
    db.nextId ≤ r'.id
      ∨ ∃ r ∈ db.memories, r.id = r'.id ∧ r.normalizedHash = none
  jobs : ∃ extra, db'.jobs = db.jobs ++ extra
    ∧ (∀ j ∈ extra, j.jobType ≠ .embedMemory ∧ db.nextId ≤ j.id
        ∧ j.id < db'.nextId)
    ∧ (extra.map (·.id)).Nodup

variable {now : Timestamp} {pending : List (Id × Text)} {item : ObservedItem}
  {sourceId : Id}

theorem noJobs {db db' : Db} (h : db'.jobs = db.jobs) :
    ∃ extra, db'.jobs = db.jobs ++ extra
      ∧ (∀ j ∈ extra, j.jobType ≠ .embedMemory ∧ db.nextId ≤ j.id
          ∧ j.id < db'.nextId)
      ∧ (extra.map (·.id)).Nodup := by
  refine ⟨[], by rw [h, List.append_nil], fun j hj => ?_, List.nodup_nil⟩
  cases hj

/-- And between which no chunk began to wait for a vector. -/
structure Calm (db db' : Db) : Prop extends Queued db db' where
  chunks : ∀ c' m', Unembedded db' c' m' →
    ∃ c m, Unembedded db c m ∧ c.id = c'.id ∧ m.id = m'.id

variable {a b c db db' db₁ : Db}

theorem Calm.trans (h : Calm a b) (h' : Calm b c) : Calm a c := by
  refine .mk (.mk ?next ?rows ?jobs) ?chunks
  case next => exact Nat.le_trans h.next h'.next
  case rows =>
    intro r₂ hr₂ hnone
    rcases h'.rows r₂ hr₂ hnone with hle | ⟨r₁, hr₁, hid, hnone₁⟩
    · exact .inl (Nat.le_trans h.next hle)
    · rw [← hid]
      exact h.rows r₁ hr₁ hnone₁
  case jobs =>
    obtain ⟨e, hj, he, hn⟩ := h.jobs
    obtain ⟨e', hj', he', hn'⟩ := h'.jobs
    refine ⟨e ++ e', by rw [hj', hj, List.append_assoc], ?_, ?_⟩
    · intro j hmem
      rcases List.mem_append.mp hmem with hmem | hmem
      · obtain ⟨ht, hle, hlt⟩ := he j hmem
        exact ⟨ht, hle, Nat.lt_of_lt_of_le hlt h'.next⟩
      · obtain ⟨ht, hle, hlt⟩ := he' j hmem
        exact ⟨ht, Nat.le_trans h.next hle, hlt⟩
    · rw [List.map_append, List.nodup_append]
      refine ⟨hn, hn', fun x hx y hy => ?_⟩
      obtain ⟨j, hjm, rfl⟩ := List.mem_map.mp hx
      obtain ⟨k, hkm, rfl⟩ := List.mem_map.mp hy
      -- the ids of the second lot are minted after the first
      exact Nat.ne_of_lt (Nat.lt_of_lt_of_le (he j hjm).2.2 (he' k hkm).2.1)
  case chunks =>
    intro c₂ m₂ hu₂
    obtain ⟨c₁, m₁, hu₁, hc₁, hm₁⟩ := h'.chunks c₂ m₂ hu₂
    obtain ⟨c₀, m₀, hu₀, hc₀, hm₀⟩ := h.chunks c₁ m₁ hu₁
    exact ⟨c₀, m₀, hu₀, hc₀.trans hc₁, hm₀.trans hm₁⟩

/-- What a row may become: a superseded one stays so, a deleted one too,
and a hash is not taken back. -/
structure RowFrom (r r' : Memory) : Prop where
  id : r.id = r'.id
  hash : r'.normalizedHash = none → r.normalizedHash = none
  current : r'.isCurrent = true → r.isCurrent = true
  alive : r'.deletedAt = none → r.deletedAt = none

theorem RowFrom.refl (r : Memory) : RowFrom r r :=
  ⟨rfl, fun h => h, fun h => h, fun h => h⟩

theorem calm_of_rows
    (hmem : ∀ r' ∈ db'.memories, ∃ r ∈ db.memories, RowFrom r r')
    (hchunks : ∀ c' ∈ db'.chunks, c'.embedding = none →
      ∃ c ∈ db.chunks, c.id = c'.id ∧ c.memoryId = c'.memoryId
        ∧ c.embedding = none)
    (hjobs : db'.jobs = db.jobs) (hnext : db.nextId ≤ db'.nextId) :
    Calm db db' := by
  refine .mk (.mk ?next ?rows ?jobs) ?chunks
  case next => exact hnext
  case rows =>
    intro r' hr' hnone
    obtain ⟨r, hr, hfrom⟩ := hmem r' hr'
    exact .inr ⟨r, hr, hfrom.id, hfrom.hash hnone⟩
  case jobs => exact noJobs hjobs
  case chunks =>
    intro c' m' hu
    obtain ⟨m, hm, hfrom⟩ := hmem m' hu.memory
    obtain ⟨c, hc, hid, howner, hvec⟩ := hchunks c' hu.chunk hu.vector
    refine ⟨c, m, ⟨hc, hvec, hm, ?_, hfrom.current hu.current,
      hfrom.alive hu.alive⟩, hid, hfrom.id⟩
    rw [hfrom.id, hu.owner, howner]

theorem calm_of_same (hmem : db'.memories = db.memories)
    (hchunks : db'.chunks = db.chunks) (hjobs : db'.jobs = db.jobs)
    (hnext : db.nextId ≤ db'.nextId) : Calm db db' := by
  refine calm_of_rows (fun r hr => ?_) (fun k hk hvec => ?_) hjobs hnext
  · exact ⟨r, hmem ▸ hr, .refl r⟩
  · exact ⟨k, hchunks ▸ hk, rfl, rfl, hvec⟩

theorem Calm.refl (db : Db) : Calm db db :=
  calm_of_same rfl rfl rfl (Nat.le_refl _)

-- ======== queueing

theorem enqueue_jobs (db : Db) (spec : JobSpec) (now : Timestamp) :
    (db.enqueue spec now).jobs = db.jobs
        ∧ db.jobs.any (Queue.dedupes spec) = true
      ∨ (db.enqueue spec now).jobs
        = db.jobs ++ [Queue.pendingJob spec db.nextId now] := by
  show (Queue.enqueueIn db.jobs spec db.nextId now).1 = db.jobs ∧ _
    ∨ (Queue.enqueueIn db.jobs spec db.nextId now).1 = _
  unfold Queue.enqueueIn
  split
  case isTrue h => exact .inl ⟨rfl, h⟩
  case isFalse => exact .inr rfl

theorem calm_enqueue (db : Db) (spec : JobSpec) (now : Timestamp)
    (hspec : spec.jobType ≠ .embedMemory) : Calm db (db.enqueue spec now) := by
  refine .mk (.mk ?next ?rows ?jobs) ?chunks
  case next => exact Nat.le_succ _
  case rows => exact fun r hr hnone => .inr ⟨r, hr, rfl, hnone⟩
  case jobs =>
    rcases enqueue_jobs db spec now with ⟨heq, -⟩ | heq
    · exact noJobs heq
    · refine ⟨_, heq, fun j hj => ?_, List.nodup_singleton _⟩
      rw [List.mem_singleton.mp hj]
      exact ⟨hspec, Nat.le_refl _, Nat.lt_succ_self _⟩
  case chunks =>
    exact fun k m hu => ⟨k, m, ⟨hu.chunk, hu.vector, hu.memory, hu.owner,
      hu.current, hu.alive⟩, rfl, rfl⟩

-- ======= observing

theorem addVersion_mem {m r' : Memory} (h : r' ∈ (addVersion db m).memories) :
    r'.id = m.id ∨ ∃ r ∈ db.memories, RowFrom r r' := by
  unfold addVersion at h
  split at h
  case h_1 =>
    rcases List.mem_append.mp h with h | h
    · exact .inr ⟨r', h, .refl r'⟩
    · rw [List.mem_singleton.mp h]
      exact .inl rfl
  case h_2 current _ =>
    rcases List.mem_append.mp h with h | h
    · obtain ⟨r, hr, rfl⟩ := List.mem_map.mp h
      refine .inr ⟨r, hr, ?_⟩
      split
      case isTrue => exact ⟨rfl, fun h => h, nofun, fun h => h⟩
      case isFalse => exact .refl r
    · rw [List.mem_singleton.mp h]
      exact .inl rfl

theorem addVersion_calm {m : Memory} (hmem : db₁.memories = db.memories)
    (hchunks : db₁.chunks = db.chunks) (hjobs : db₁.jobs = db.jobs)
    (hnext : db.nextId ≤ db₁.nextId) (hid : db.nextId ≤ m.id)
    (hnew : ∀ k ∈ db.chunks, k.memoryId ≠ m.id) :
    Calm db (addVersion db₁ m) := by
  refine .mk (.mk ?next ?rows ?jobs) ?chunks
  case next =>
    rw [addVersion_nextId]
    exact hnext
  case rows =>
    intro r' hr' hnone
    rcases addVersion_mem hr' with hid' | ⟨r, hr, hfrom⟩
    · rw [hid']
      exact .inl hid
    · exact .inr ⟨r, hmem ▸ hr, hfrom.id, hfrom.hash hnone⟩
  case jobs =>
    exact noJobs (by rw [addVersion_jobs, hjobs])
  case chunks =>
    intro k m' hu
    have hk : k ∈ db.chunks := by
      rw [← hchunks, ← addVersion_chunks db₁ m]
      exact hu.chunk
    rcases addVersion_mem hu.memory with hid' | ⟨r, hr, hfrom⟩
    · exact absurd (hu.owner.symm.trans hid') (hnew k hk)
    · exact ⟨k, r, ⟨hk, hu.vector, hmem ▸ hr, hfrom.id.trans hu.owner,
        hfrom.current hu.current, hfrom.alive hu.alive⟩, rfl, hfrom.id⟩

theorem recordVersion_calm (hv : Versions (keyed db) db.nextId)
    (hc : ChunksOwned db) : Calm db (recordVersion db sourceId item now).1 := by
  unfold recordVersion appendEvent
  simp only
  cases hm : memoryFromEvent
      ((observation sourceId item).event db.nextSeq now) db.nextId with
  | none => cases hm
  | some m =>
    have hid : m.id = db.nextId := by
      cases hm
      rfl
    simp only
    have hadd : Calm db (addVersion { db with
        events := db.events ++ [(observation sourceId item).event db.nextSeq now]
        nextSeq := db.nextSeq + 1, nextId := db.nextId + 1 } m) := by
      refine addVersion_calm rfl rfl rfl (Nat.le_succ _)
        (Nat.le_of_eq hid.symm) fun k hk => ?_
      obtain ⟨x, hx, howner⟩ := hc.owned k hk
      rw [← howner, hid]
      exact Nat.ne_of_lt (hv.fresh (x.id, x.view) (List.mem_map_of_mem hx))
    have hnormalize := hadd.trans
      (calm_enqueue _ (normalizeSpec db.nextId) now nofun)
    exact hnormalize.trans
      (calm_enqueue _ (graphSyncSpec [db.nextId] []) now nofun)

theorem ingestItem_calm {s s' : Store} {out : Option Ingested}
    (hv : Versions (keyed s.db) s.db.nextId) (hc : ChunksOwned s.db)
    (hin : ingestItem s sourceId item now = .ok (s', out)) :
    Calm s.db s'.db := by
  obtain ⟨-, rfl, -⟩ | ⟨-, artifacts, blobs, -, rfl, -⟩ := ingestItem_cases hin
  · exact .refl _
  · have hstored : Calm s.db { s.db with artifacts := artifacts } :=
      calm_of_same rfl rfl rfl (Nat.le_refl _)
    exact hstored.trans (recordVersion_calm hv
      (hc.keep rfl (Nat.le_refl _) fun _ hk => hk))

-- ======== deleting

theorem markDeleted_calm (i : Item) (id : Id) (now : Timestamp) :
    Calm db (Deletion.markDeleted db i id now) := by
  refine Calm.trans ?_ (calm_enqueue _ _ now nofun)
  refine calm_of_rows (fun r' hr' => ?_)
    (fun k hk hvec => ⟨k, hk, rfl, rfl, hvec⟩) rfl (Nat.le_refl _)
  obtain ⟨r, hr, rfl⟩ := List.mem_map.mp hr'
  refine ⟨r, hr, ?_⟩
  split
  case isTrue => exact ⟨rfl, fun h => h, fun h => h, nofun⟩
  case isFalse => exact .refl r

theorem detectDeletions_calm {observed : List String}
    {clock : String → Timestamp} :
    Calm db (Deletion.detectDeletions db sourceId observed clock) := by
  unfold Deletion.detectDeletions
  simp only
  generalize List.mergeSort _ _ = missing
  generalize Deletion.knownOf db sourceId = known
  induction missing generalizing db with
  | nil => exact .refl db
  | cons k rest ih =>
    rw [List.foldl_cons]
    refine Calm.trans ?_ ih
    unfold Deletion.sweepOne
    split
    case h_1 => exact .refl db
    case h_2 => exact markDeleted_calm _ _ _

theorem purgeOne_calm {i : Item}
    {r : Db × List ContentHash} (hp : Deletion.purgeOne db i now = .ok r) :
    Calm db r.1 := by
  unfold Deletion.purgeOne at hp
  simp only at hp
  split at hp
  case isTrue => cases hp
  case isFalse =>
    cases hp
    refine Calm.trans ?_ (calm_enqueue _ _ now nofun)
    refine calm_of_rows (fun r hr => ?_) (fun k hk hvec => ?_) rfl
      (Nat.le_refl _)
    · exact ⟨r, (List.mem_filter.mp hr).1, .refl r⟩
    · exact ⟨k, (List.mem_filter.mp hk).1, rfl, rfl, hvec⟩

theorem purgeLoop_calm {items : List (Item × Timestamp)} :
    Calm db (Deletion.purgeLoop db items).1 := by
  induction items generalizing db with
  | nil => exact .refl db
  | cons x rest ih =>
    obtain ⟨i, now⟩ := x
    unfold Deletion.purgeLoop
    split
    case h_1 => exact .refl db
    case h_2 db₁ hashes hp => exact (purgeOne_calm hp).trans ih

-- ======= embedding

theorem vectored_none {embedder : Embedder} {vectors : Text → Embedding} {k : MemoryChunk}
    (h : (EmbedMemory.vectored embedder vectors pending now k).embedding
      = none) : k.embedding = none ∧ k.id ∉ pending.map (·.1) := by
  unfold EmbedMemory.vectored at h
  induction pending generalizing k with
  | nil => exact ⟨h, nofun⟩
  | cons p rest ih =>
    rw [List.foldl_cons] at h
    obtain ⟨hvec, hid⟩ := ih h
    split at hvec
    case isTrue => cases hvec
    case isFalse hp =>
      rw [if_neg hp] at hid
      refine ⟨hvec, ?_⟩
      rw [List.map_cons, List.mem_cons, not_or]
      exact ⟨hp, hid⟩

theorem finish_chunks {embedder : Embedder} {followup : Bool} {id : Id} {c' : MemoryChunk}
    (hc' : c' ∈
      (EmbedMemory.finish embedder followup db id pending now).chunks)
    (hvec : c'.embedding = none) :
    ∃ c ∈ db.chunks, c.id = c'.id ∧ c.memoryId = c'.memoryId
      ∧ c.embedding = none ∧ c.id ∉ pending.map (·.1) := by
  obtain ⟨cache, heq⟩ := @EmbedMemory.embedChunks_eq embedder pending now db
  have hchunks : (EmbedMemory.finish embedder followup db id pending
      now).chunks = (EmbedMemory.embedChunks embedder db pending now).chunks := by
    cases followup <;> rfl
  rw [hchunks, heq] at hc'
  obtain ⟨k, hk, rfl⟩ := List.mem_map.mp hc'
  obtain ⟨hnone, hid⟩ := vectored_none hvec
  exact ⟨k, hk, (EmbedMemory.vectored_id k).symm,
    (EmbedMemory.vectored_memoryId k).symm, hnone, hid⟩

theorem finish_memories (embedder : Embedder) (id : Id)
    (pending : List (Id × Text)) (now : Timestamp) :
    (EmbedMemory.finish embedder true db id pending now).memories
      = db.memories := by
  obtain ⟨cache, heq⟩ := @EmbedMemory.embedChunks_eq embedder pending now db
  show (EmbedMemory.embedChunks embedder db pending now).memories = _
  rw [heq]

theorem finish_calm (embedder : Embedder) (id : Id)
    (pending : List (Id × Text)) (now : Timestamp) :
    Calm db (EmbedMemory.finish embedder true db id pending now) := by
  have hwrite : Calm db (EmbedMemory.embedChunks embedder db pending now) := by
    obtain ⟨cache, heq⟩ := @EmbedMemory.embedChunks_eq embedder pending now db
    rw [heq]
    refine calm_of_rows (fun r hr => ⟨r, hr, .refl r⟩) (fun c' hc' hvec => ?_)
      rfl (Nat.le_refl _)
    obtain ⟨k, hk, rfl⟩ := List.mem_map.mp hc'
    exact ⟨k, hk, (EmbedMemory.vectored_id k).symm,
      (EmbedMemory.vectored_memoryId k).symm, (vectored_none hvec).1⟩
  exact hwrite.trans (calm_enqueue _ _ now nofun)

-- ====== every operation

theorem step_calm (ports : Ports) {s : Store} (h : Faithful s.db)
    (hc : ChunksOwned s.db) (op : Live.Op)
    (hop : ∀ id now, op ≠ .normalize id now) :
    Calm s.db (Live.step ports s op).db := by
  cases op with
  | upload hash data => exact .refl _
  | ingest sourceId item now =>
    unfold Live.step
    simp only
    split
    case h_1 => exact .refl _
    case h_2 r hr => exact ingestItem_calm h.versions hc hr
  | detectDeletions sourceId observed clock => exact detectDeletions_calm
  | tombstone memoryId now =>
    unfold Live.step
    simp only
    split
    case h_1 => exact .refl _
    case h_2 db hdb =>
      obtain rfl | ⟨i, k, -, rfl⟩ := tombstone_cases hdb
      · exact .refl _
      · exact markDeleted_calm i k.id now
  | restore memoryId now =>
    unfold Live.step
    simp only
    split
    case h_1 => exact .refl _
    case h_2 s' hs' =>
      obtain ⟨_, _, _, hin⟩ := restore_cases hs'
      exact ingestItem_calm h.versions hc hin
  | purge items =>
    have hdb : (Deletion.purge s items).db
        = (Deletion.purgeLoop s.db items).1 := by
      unfold Deletion.purge
      simp only
      split <;> rfl
    show Calm s.db (Deletion.purge s items).db
    rw [hdb]
    exact purgeLoop_calm
  | normalize memoryId now => exact absurd rfl (hop memoryId now)
  | embed memoryId now =>
    unfold Live.step
    simp only
    split
    case h_1 => exact .refl _
    case h_2 r hr =>
      obtain heq | ⟨pending, -, heq⟩ := EmbedMemory.call_cases hr
      · rw [heq]
        exact .refl _
      · rw [heq]
        exact finish_calm ports.embedder memoryId pending now

end MemoryOS.Pipeline
