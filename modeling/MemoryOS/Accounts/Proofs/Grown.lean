/-
What the program writes: rows under new ids that refer to rows it sees.

Every transaction is `Grown` in the database it sees, whoever else's rows
there are beside them. Each operation of the corpus has its lemma here;
`written` and `narrowed` are what they come down to.
-/
import MemoryOS.Accounts.Proofs.Scoping
import MemoryOS.Corpus.Proofs.Purge
import MemoryOS.Pipeline.Proofs.Calm

namespace MemoryOS.Accounts

variable {db db₁ db₂ left : Db} {w : Accounts} {u v : UserId}

-- ====== what a step writes

namespace Grown

theorem refl (db : Db) : Grown db db where
  keyed _ h := .inl h
  hung _ h := h
  refers _ _ h := .inl h
  seqs _ h := .inl h
  sources := rfl
  merges := rfl
  evidence _ h := h
  nextId := Nat.le_refl _
  nextSeq := Nat.le_refl _

theorem known (h₁ : Grown db db₁) {next : Id} (hnext : db₁.nextId ≤ next)
    {i : Id} (hi : Known db₁ next i) : Known db next i := by
  rcases hi with hi | hi
  · exact (h₁.keyed i hi).imp_right fun hi =>
      ⟨hi.1, Nat.lt_of_lt_of_le hi.2 hnext⟩
  · exact .inr ⟨Nat.le_trans h₁.nextId hi.1, hi.2⟩

theorem trans (h₁ : Grown db db₁) (h₂ : Grown db₁ db₂) : Grown db db₂ where
  keyed i hi := h₁.known h₂.nextId (h₂.keyed i hi)
  hung i hi := h₁.hung i (h₂.hung i hi)
  refers i j h := by
    have hlater : ∀ {k}, Known db db₁.nextId k → Known db db₂.nextId k :=
      fun hk => hk.imp_right fun hk => ⟨hk.1, Nat.lt_of_lt_of_le hk.2 h₂.nextId⟩
    rcases h₂.refers i j h with h | ⟨hi, hj⟩
    · exact (h₁.refers i j h).imp_right fun ⟨hi, hj⟩ => ⟨hlater hi, hlater hj⟩
    · exact .inr ⟨h₁.known h₂.nextId hi, h₁.known h₂.nextId hj⟩
  seqs e he := by
    rcases h₂.seqs e he with he | he
    · exact (h₁.seqs e he).imp_right fun he =>
        ⟨he.1, Nat.lt_of_lt_of_le he.2 h₂.nextSeq⟩
    · exact .inr ⟨Nat.le_trans h₁.nextSeq he.1, he.2⟩
  sources := h₂.sources.trans h₁.sources
  merges := h₂.merges.trans h₁.merges
  evidence _ he := h₁.evidence (h₂.evidence he)
  nextId := Nat.le_trans h₁.nextId h₂.nextId
  nextSeq := Nat.le_trans h₁.nextSeq h₂.nextSeq

theorem narrowed (h : left.Fewer db)
    (hsources : left.sources = db.sources) (hmerges : left.merges = db.merges)
    (hevents : left.events = db.events) (hid : left.nextId = db.nextId)
    (hseq : left.nextSeq = db.nextSeq) : Grown db left where
  keyed _ hi := .inl (h.keyed hi)
  hung _ := h.hung
  refers _ _ hij := .inl (h.refers hij)
  seqs _ he := .inl (hevents ▸ he)
  sources := hsources
  merges := hmerges
  evidence := h.evidence
  nextId := Nat.le_of_eq hid.symm
  nextSeq := Nat.le_of_eq hseq.symm

theorem written {memories : List Memory} {chunks : List MemoryChunk}
    {jobs : List Job} {events : List IngestionEvent} {next nextSeq : Nat}
    (artifacts : List RawArtifact) (cache : List EmbeddingCacheEntry)
    (hnext : db.nextId ≤ next) (hseq : db.nextSeq ≤ nextSeq)
    (hmemories : ∀ x ∈ memories,
      (∃ y ∈ db.memories, y.id = x.id ∧ y.sourceId = x.sourceId)
        ∨ Known db next x.id ∧ Known db next x.sourceId)
    (hchunks : ∀ x ∈ chunks,
      (∃ y ∈ db.chunks, y.id = x.id ∧ y.memoryId = x.memoryId)
        ∨ Known db next x.id ∧ Known db next x.memoryId)
    (hjobs : ∀ x ∈ jobs, x ∈ db.jobs ∨ db.nextId ≤ x.id ∧ x.id < next)
    (hevents : ∀ x ∈ events,
      x ∈ db.events ∨ db.nextSeq ≤ x.seq ∧ x.seq < nextSeq) :
    Grown db { db with
      memories := memories, chunks := chunks, jobs := jobs, events := events
      artifacts := artifacts, embeddingCache := cache
      nextId := next, nextSeq := nextSeq } where
  keyed i hi := by
    cases hi with
    | memory hx =>
      rcases hmemories _ hx with ⟨y, hy, hid, -⟩ | ⟨hknown, -⟩
      · exact .inl (hid ▸ .memory hy)
      · exact hknown
    | chunk hx =>
      rcases hchunks _ hx with ⟨y, hy, hid, -⟩ | ⟨hknown, -⟩
      · exact .inl (hid ▸ .chunk hy)
      · exact hknown
    | job hx => exact (hjobs _ hx).imp_left .job
    | source hx => exact .inl (.source hx)
    | entity hx => exact .inl (.entity hx)
    | mention hx => exact .inl (.mention hx)
    | relationship hx => exact .inl (.relationship hx)
    | session hx => exact .inl (.session hx)
    | turn hx => exact .inl (.turn hx)
  hung i hi := by
    cases hi with
    | merge hx => exact .merge hx
    | evidence hx => exact .evidence hx
    | tag hx => exact .tag hx
    | attachment hx => exact .attachment hx
  refers i j h := by
    cases h with
    | memory hx =>
      rcases hmemories _ hx with ⟨y, hy, hid, hsource⟩ | hknown
      · exact .inl (hid ▸ hsource ▸ .memory hy)
      · exact .inr hknown
    | chunk hx =>
      rcases hchunks _ hx with ⟨y, hy, hid, hmemory⟩ | hknown
      · exact .inl (hid ▸ hmemory ▸ .chunk hy)
      · exact .inr hknown
    | mention hx => exact .inl (.mention hx)
    | mentionChunk hx => exact .inl (.mentionChunk hx)
    | relationship hx => exact .inl (.relationship hx)
    | relationshipChunk hx => exact .inl (.relationshipChunk hx)
    | evidence hx => exact .inl (.evidence hx)
    | evidenceChunk hx hc => exact .inl (.evidenceChunk hx hc)
    | turn hx hc => exact .inl (.turn hx hc)
  seqs := hevents
  sources := rfl
  merges := rfl
  evidence _ he := he
  nextId := hnext
  nextSeq := hseq

theorem appendEvent (e : EventDraft) (now : Timestamp) :
    Grown db (MemoryOS.appendEvent db e now).1 := by
  refine @written db _ _ _ _ _ _ db.artifacts db.embeddingCache (Nat.le_refl _)
    (Nat.le_succ _) (fun x hx => .inl ⟨x, hx, rfl, rfl⟩)
    (fun x hx => .inl ⟨x, hx, rfl, rfl⟩) (fun x hx => .inl hx)
    fun x hx => ?_
  rcases List.mem_append.mp hx with hx | hx
  · exact .inl hx
  · rw [List.mem_singleton.mp hx]
    exact .inr ⟨Nat.le_refl _, Nat.lt_succ_self _⟩

theorem enqueue (spec : JobSpec) (now : Timestamp) :
    Grown db (db.enqueue spec now) := by
  refine @written db _ _ _ _ _ _ db.artifacts db.embeddingCache (Nat.le_succ _)
    (Nat.le_refl _) (fun x hx => .inl ⟨x, hx, rfl, rfl⟩)
    (fun x hx => .inl ⟨x, hx, rfl, rfl⟩) (fun x hx => ?_)
    fun x hx => .inl hx
  rcases Pipeline.enqueue_jobs db spec now with ⟨heq, -⟩ | heq
  · exact .inl (heq ▸ hx)
  · have hx' := hx
    rw [show (Queue.enqueueIn db.jobs spec db.nextId now).1
      = db.jobs ++ [Queue.pendingJob spec db.nextId now] from heq] at hx'
    rcases List.mem_append.mp hx' with hx' | hx'
    · exact .inl hx'
    · rw [List.mem_singleton.mp hx']
      exact .inr ⟨Nat.le_refl _, Nat.lt_succ_self _⟩

theorem addVersion {m : Memory} (hid : m.id = db.nextId)
    (hsource : db.Keyed m.sourceId) :
    Grown db (MemoryOS.addVersion { db with nextId := db.nextId + 1 } m) := by
  unfold MemoryOS.addVersion
  have hnew : Known db (db.nextId + 1) m.id
      ∧ Known db (db.nextId + 1) m.sourceId :=
    ⟨.inr ⟨Nat.le_of_eq hid.symm, Nat.lt_succ_of_le (Nat.le_of_eq hid)⟩,
      .inl hsource⟩
  split
  case h_1 =>
    refine @written db _ _ _ _ _ _ db.artifacts db.embeddingCache
      (Nat.le_succ _) (Nat.le_refl _) (fun x hx => ?_)
      (fun x hx => .inl ⟨x, hx, rfl, rfl⟩) (fun x hx => .inl hx)
      fun x hx => .inl hx
    rcases List.mem_append.mp hx with hx | hx
    · exact .inl ⟨x, hx, rfl, rfl⟩
    · rw [List.mem_singleton.mp hx]
      exact .inr hnew
  case h_2 current _ =>
    refine @written db _ _ _ _ _ _ db.artifacts db.embeddingCache
      (Nat.le_succ _) (Nat.le_refl _) (fun x hx => ?_)
      (fun x hx => .inl ⟨x, hx, rfl, rfl⟩) (fun x hx => .inl hx)
      fun x hx => .inl hx
    rcases List.mem_append.mp hx with hx | hx
    · obtain ⟨y, hy, rfl⟩ := List.mem_map.mp hx
      refine .inl ⟨y, hy, ?_⟩
      split
      case isTrue => exact ⟨rfl, rfl⟩
      case isFalse => exact ⟨rfl, rfl⟩
    · rw [List.mem_singleton.mp hx]
      exact .inr hnew

theorem deleteChunks (p : MemoryChunk → Bool) :
    Grown db (db.deleteChunks p) :=
  .narrowed
    { Db.Fewer.refl db with
      chunks := fun _ => List.mem_of_mem_filter
      mentions := fun _ => List.mem_of_mem_filter
      relationships := fun _ => List.mem_of_mem_filter
      evidence := fun _ => List.mem_of_mem_filter }
    rfl rfl rfl rfl rfl

theorem deleteMemories (p : Memory → Bool) :
    Grown db (db.deleteMemories p) :=
  .trans (deleteChunks _) (.narrowed
    { Db.Fewer.refl (db.deleteChunks _) with
      memories := fun _ => List.mem_of_mem_filter
      mentions := fun _ => List.mem_of_mem_filter
      relationships := fun _ => List.mem_of_mem_filter
      evidence := fun _ => List.mem_of_mem_filter }
    rfl rfl rfl rfl rfl)

theorem unlink_link {gone : List Id} {x : ChatMessage} {c : Id}
    (h : (Deletion.unlink gone x).correctsMessageId = some c) :
    x.correctsMessageId = some c := by
  unfold Deletion.unlink at h
  split at h
  case isTrue => cases h
  case isFalse => exact h

theorem unfiled {p : ChatMessage → Bool} {q : ChatAttachment → Bool}
    {r : MemoryTag → Bool} (gone : List Id) :
    Grown db { db with
      chatMessages := (db.chatMessages.filter p).map (Deletion.unlink gone)
      chatAttachments := db.chatAttachments.filter q
      tags := db.tags.filter r } := by
  refine .narrowed
    { Db.Fewer.refl db with
      turns := fun x hx => ?_
      tags := fun _ => List.mem_of_mem_filter
      attachments := fun _ => List.mem_of_mem_filter }
    rfl rfl rfl rfl rfl
  obtain ⟨y, hy, rfl⟩ := List.mem_map.mp hx
  exact ⟨y, List.mem_of_mem_filter hy, (Deletion.unlink_fields _ y).1.symm,
    fun _ => unlink_link⟩

theorem purgeOne {i : Item} {now : Timestamp} {r : Db × List ContentHash}
    (hp : Deletion.purgeOne db i now = .ok r) : Grown db r.1 := by
  unfold Deletion.purgeOne at hp
  simp only at hp
  split at hp
  case isTrue => cases hp
  case isFalse =>
    cases hp
    have hmarked : Grown db (MemoryOS.appendEvent db
        { eventType := .itemPurged, sourceId := i.sourceId
          externalKey := i.externalKey } now).1 := appendEvent _ now
    exact .trans (.trans (hmarked.trans (unfiled _)) (deleteMemories _))
      (enqueue _ now)

theorem recordVersion {source : Source} (hsource : source ∈ db.sources)
    (item : ObservedItem) (now : Timestamp) :
    Grown db (MemoryOS.recordVersion db source.id item now).1 := by
  have hobserved : Grown db
      (MemoryOS.appendEvent db (observation source.id item) now).1 :=
    appendEvent _ now
  unfold MemoryOS.recordVersion
  simp only
  cases hm : memoryFromEvent (MemoryOS.appendEvent db
      (observation source.id item) now).2
      (MemoryOS.appendEvent db (observation source.id item) now).1.nextId with
  | none => cases hm
  | some m =>
    have hid : m.id = db.nextId ∧ m.sourceId = source.id := by
      cases hm
      exact ⟨rfl, rfl⟩
    refine hobserved.trans (.trans (.trans (addVersion hid.1 ?_)
      (enqueue _ now)) (enqueue _ now))
    rw [hid.2]
    exact .source hsource

theorem ingestItem {s : Store} {source : Source} {item : ObservedItem}
    {now : Timestamp} {r : Store × Option Ingested}
    (hsource : source ∈ s.db.sources)
    (hin : MemoryOS.ingestItem s source.id item now = .ok r) :
    Grown s.db r.1.db := by
  obtain ⟨s', out⟩ := r
  rcases ingestItem_cases hin with ⟨-, rfl, -⟩ | ⟨-, as, blobs, -, rfl, -⟩
  · exact .refl _
  · have hstored : Grown s.db { s.db with artifacts := as } :=
      written as s.db.embeddingCache (Nat.le_refl _) (Nat.le_refl _)
        (fun x hx => .inl ⟨x, hx, rfl, rfl⟩)
        (fun x hx => .inl ⟨x, hx, rfl, rfl⟩) (fun _ hx => .inl hx)
        fun _ hx => .inl hx
    exact hstored.trans
      (@recordVersion { s.db with artifacts := as } source hsource item now)

end Grown

end MemoryOS.Accounts
