/-
When the extraction markers tell the truth.

A run of extraction that stores makes its memory's mentions those of its
chunks, and marks it. A run of normalization that replaces a memory's
chunks takes its mentions with them and leaves the mark, and one that
moves another version's chunks leaves the mentions on them behind. So the
markers tell the truth throughout a run exactly when no normalization
replaces the chunks of a marked memory or moves mentioned ones, but where
extraction finds nothing.
-/
import MemoryOS.Entities.Extraction
import MemoryOS.Pipeline.Proofs.Chunks

namespace MemoryOS

open Lib

namespace Marks

open ExtractEntities

variable {casefold : Text → Text} {extractor : Extractor} {db db' : Db}
  {s s' : Store} {now : Timestamp} {version : String}

/-- The keys of entities and mentions, where nothing has been merged. -/
structure Linked (db : Db) : Prop where
  ids : (db.entities.map (·.id)).Nodup
  fresh : ∀ e ∈ db.entities, e.id < db.nextId
  names : (db.entities.map fun e => (e.canonicalName, e.type)).Nodup
  unmerged : ∀ e ∈ db.entities, e.mergedIntoId = none
  entity : ∀ x ∈ db.mentions, ∃ e ∈ db.entities, e.id = x.entityId
  chunk : ∀ x ∈ db.mentions, ∃ c ∈ db.chunks, c.id = x.chunkId

theorem linked_start (sources : List Source) :
    Linked (Live.start sources).db where
  ids := List.nodup_nil
  fresh := List.forall_mem_nil _
  names := List.nodup_nil
  unmerged := List.forall_mem_nil _
  entity := List.forall_mem_nil _
  chunk := List.forall_mem_nil _

theorem truthful_start (sources : List Source) :
    Truthful casefold extractor (Live.start sources).db where
  marked := List.forall_mem_nil _
  owner := List.forall_mem_nil _

theorem described_congr (h : db'.entities = db.entities) (x : EntityMention) :
    described db' x = described db x := by
  unfold described Db.entity
  rw [h]

theorem described_chunk {x : EntityMention} {f : Found}
    (h : described db x = some f) : f.chunkId = x.chunkId := by
  unfold described at h
  obtain ⟨e, -, rfl⟩ := Option.map_eq_some_iff.mp h
  rfl

theorem produced_chunk {chunkId : Id} {text : Text} {f : Found}
    (h : f ∈ produced casefold extractor version chunkId text) :
    f.chunkId = chunkId := by
  obtain ⟨c, -, rfl⟩ := List.mem_map.mp
    (DistinctOn.mem_of_mem_distinctOn h)
  rfl

theorem findsNothing_iff (casefold : Text → Text) (m : Memory)
    (chunkId : Id) (text : Text) :
    findsNothing extractor m text = true
      ↔ ∀ v ∈ m.entityExtractorVersion,
        produced casefold extractor v chunkId text = [] := by
  unfold findsNothing
  cases m.entityExtractorVersion with
  | none => simp
  | some v =>
    simp only [Option.mem_def, Option.some.injEq, forall_eq']
    unfold produced
    rw [DistinctOn.distinctOn_eq_nil, List.map_eq_nil_iff,
      List.isEmpty_iff]

-- ====== what leaves them be

/-- What a chunk is cut from. -/
def cut (c : MemoryChunk) : Id × Id × Text := (c.id, c.memoryId, c.content)

/-- Every mark of a memory is one it had, and chunks, mentions and entities
are as they were. -/
structure Marked (db db' : Db) : Prop where
  marks : ∀ m' ∈ db'.memories, ∀ v ∈ m'.entityExtractorVersion,
    ∃ m ∈ db.memories, m.id = m'.id ∧ m.entityExtractorVersion = some v
  chunks : db'.chunks.map cut = db.chunks.map cut
  mentions : db'.mentions = db.mentions
  entities : db'.entities = db.entities

/-- And ids are minted from where they were on. -/
structure Untouched (db db' : Db) : Prop extends Marked db db' where
  nextId : db.nextId ≤ db'.nextId

theorem Untouched.refl (db : Db) : Untouched db db where
  marks m hm _ hv := ⟨m, hm, rfl, hv⟩
  chunks := rfl
  mentions := rfl
  entities := rfl
  nextId := Nat.le_refl _

theorem Untouched.trans {a b c : Db} (h : Untouched a b)
    (h' : Untouched b c) : Untouched a c where
  marks m hm v hv := by
    obtain ⟨m₁, hm₁, hid₁, hv₁⟩ := h'.marks m hm v hv
    obtain ⟨m₀, hm₀, hid₀, hv₀⟩ := h.marks m₁ hm₁ v hv₁
    exact ⟨m₀, hm₀, hid₀.trans hid₁, hv₀⟩
  chunks := h'.chunks.trans h.chunks
  mentions := h'.mentions.trans h.mentions
  entities := h'.entities.trans h.entities
  nextId := Nat.le_trans h.nextId h'.nextId

theorem Untouched.rewritten {f : Memory → Memory}
    (hmem : db'.memories = db.memories.map f) (hid : ∀ m, (f m).id = m.id)
    (hmark : ∀ m, (f m).entityExtractorVersion = m.entityExtractorVersion)
    (hchunks : db'.chunks = db.chunks) (hmentions : db'.mentions = db.mentions)
    (hentities : db'.entities = db.entities)
    (hnext : db.nextId ≤ db'.nextId) : Untouched db db' where
  marks m' hm' v hv := by
    rw [hmem] at hm'
    obtain ⟨m, hm, rfl⟩ := List.mem_map.mp hm'
    exact ⟨m, hm, (hid m).symm, (hmark m).symm.trans hv⟩
  chunks := congrArg _ hchunks
  mentions := hmentions
  entities := hentities
  nextId := hnext

theorem mem_cut (h : db'.chunks.map cut = db.chunks.map cut)
    {P : Id × Id × Text → Prop} :
    (∃ c ∈ db'.chunks, P (cut c)) ↔ ∃ c ∈ db.chunks, P (cut c) := by
  have hiff : ∀ cs : List MemoryChunk,
      (∃ c ∈ cs, P (cut c)) ↔ ∃ k ∈ cs.map cut, P k := by
    intro cs
    simp only [List.mem_map, exists_exists_and_eq_and]
  rw [hiff, hiff, h]

theorem Marked.truthful (h : Marked db db')
    (ht : Truthful casefold extractor db) :
    Truthful casefold extractor db' where
  marked m' hm' v hv f := by
    obtain ⟨m, hm, hid, hm_v⟩ := h.marks m' hm' v hv
    have hold := ht.marked m hm v hm_v f
    rw [h.mentions, ← hid]
    simp only [described_congr h.entities]
    exact hold.trans (mem_cut h.chunks (P := fun k => k.2.1 = m.id
      ∧ f ∈ produced casefold extractor v k.1 k.2.2)).symm
  owner x hx c hc hid := by
    rw [h.mentions] at hx
    obtain ⟨c₀, hc₀, heq⟩ := List.mem_map.mp
      (h.chunks ▸ List.mem_map_of_mem hc : cut c ∈ db.chunks.map cut)
    unfold cut at heq
    rw [Prod.mk.injEq, Prod.mk.injEq] at heq
    rw [← heq.2.1]
    exact ht.owner x hx c₀ hc₀ (heq.1.trans hid)

theorem Untouched.linked (h : Untouched db db') (hl : Linked db) :
    Linked db' where
  ids := h.entities ▸ hl.ids
  fresh e he := Nat.lt_of_lt_of_le (hl.fresh e (h.entities ▸ he)) h.nextId
  names := h.entities ▸ hl.names
  unmerged := h.entities ▸ hl.unmerged
  entity := by
    rw [h.mentions, h.entities]
    exact hl.entity
  chunk x hx := by
    rw [h.mentions] at hx
    exact (mem_cut h.chunks (P := fun k => k.1 = x.chunkId)).mpr
      (hl.chunk x hx)

theorem addVersion_untouched {m : Memory}
    (hm : m.entityExtractorVersion = none) :
    Untouched db (addVersion db m) := by
  have hold : ∀ {rows : List Memory} {n : Nat} {f : Memory → Memory},
      (∀ x, (f x).id = x.id) →
      (∀ x, (f x).entityExtractorVersion = x.entityExtractorVersion) →
      ∀ m' ∈ rows.map f ++ [{ m with version := n, isCurrent := true }],
        ∀ v ∈ m'.entityExtractorVersion, ∃ x ∈ rows, x.id = m'.id
          ∧ x.entityExtractorVersion = some v := by
    intro rows n f hid hmark m' hm' v hv
    rcases List.mem_append.mp hm' with hm' | hm'
    · obtain ⟨x, hx, rfl⟩ := List.mem_map.mp hm'
      exact ⟨x, hx, (hid x).symm, (hmark x).symm.trans hv⟩
    · rw [List.mem_singleton.mp hm'] at hv
      rw [show _ = none from hm] at hv
      cases hv
  unfold addVersion
  cases hc : currentRow db m.sourceId m.externalKey with
  | none =>
    refine ⟨⟨?_, rfl, rfl, rfl⟩, Nat.le_refl _⟩
    have h := @hold db.memories 1 id (fun _ => rfl) fun _ => rfl
    rwa [List.map_id] at h
  | some c =>
    refine ⟨⟨hold ?_ ?_, rfl, rfl, rfl⟩, Nat.le_refl _⟩
    · intro x
      split
      · rfl
      · rfl
    · intro x
      split
      · rfl
      · rfl

theorem ingestItem_untouched {sourceId : Id} {item : ObservedItem}
    {out : Option Ingested}
    (hin : ingestItem s sourceId item now = .ok (s', out)) :
    Untouched s.db s'.db := by
  obtain ⟨-, rfl, -⟩ | ⟨-, artifacts, blobs, -, rfl, -⟩ := ingestItem_cases hin
  · exact .refl _
  · unfold recordVersion appendEvent
    simp only
    cases hm : memoryFromEvent
        ((observation sourceId item).event s.db.nextSeq now) s.db.nextId with
    | none => cases hm
    | some m =>
      have hmark : m.entityExtractorVersion = none := by
        cases hm
        rfl
      obtain ⟨⟨hmarks, hchunks, hmentions, hentities⟩, hnext⟩ :=
        @addVersion_untouched { s.db with
          artifacts := artifacts
          events := s.db.events
            ++ [(observation sourceId item).event s.db.nextSeq now]
          nextSeq := s.db.nextSeq + 1
          nextId := s.db.nextId + 1 } m hmark
      exact ⟨⟨hmarks, hchunks, hmentions, hentities⟩,
        Nat.le_trans (Nat.le_add_right _ 1) (Nat.le_trans hnext
          (Nat.le_add_right _ 2))⟩

theorem markDeleted_untouched (i : Item) (id : Id) (now : Timestamp) :
    Untouched db (Deletion.markDeleted db i id now) := by
  refine .rewritten rfl ?_ ?_ rfl rfl rfl (Nat.le_succ _)
  · intro m
    split
    · rfl
    · rfl
  · intro m
    split
    · rfl
    · rfl

theorem detectDeletions_untouched (sourceId : Id) (observed : List String)
    (clock : String → Timestamp) :
    Untouched db (Deletion.detectDeletions db sourceId observed clock) := by
  unfold Deletion.detectDeletions
  simp only
  generalize List.mergeSort _ _ = missing
  generalize Deletion.knownOf db sourceId = known
  induction missing generalizing db with
  | nil => exact .refl db
  | cons k rest ih =>
    rw [List.foldl_cons]
    refine .trans ?_ ih
    unfold Deletion.sweepOne
    split
    case h_1 => exact .refl db
    case h_2 => exact markDeleted_untouched _ _ _

theorem embed_untouched {embedder : Embedder} {followup : Bool} {id : Id}
    {r : Db × EmbedMemory.Outcome}
    (hr : EmbedMemory.call embedder followup db id now = .ok r) :
    Untouched db r.1 := by
  obtain heq | ⟨pending, -, heq⟩ := EmbedMemory.call_cases hr
  · exact heq ▸ .refl db
  · have hwrite : Untouched db (EmbedMemory.embedChunks embedder db pending
        now) := by
      obtain ⟨cache, hwrite⟩ := @EmbedMemory.embedChunks_eq embedder pending
        now db
      rw [hwrite]
      refine ⟨⟨fun m hm _ hv => ⟨m, hm, rfl, hv⟩, ?_, rfl, rfl⟩,
        Nat.le_refl _⟩
      rw [List.map_map]
      refine List.map_congr_left fun c _ => ?_
      obtain ⟨v, model, t, hc⟩ := @EmbedMemory.vectored_columns embedder
        (EmbedMemory.vectorOf embedder db) pending now c
      rw [Function.comp_apply, hc]
      rfl
    rw [heq]
    unfold EmbedMemory.finish
    cases followup with
    | false => exact hwrite
    | true =>
      exact hwrite.trans ⟨⟨fun m hm _ hv => ⟨m, hm, rfl, hv⟩, rfl, rfl,
        rfl⟩, Nat.le_succ _⟩

-- ====== taking chunks out

theorem mem_deleteChunks {p : MemoryChunk → Bool} {x : EntityMention} :
    x ∈ (db.deleteChunks p).mentions
      ↔ x ∈ db.mentions ∧ ∀ c ∈ db.chunks, c.id = x.chunkId → p c = false := by
  unfold Db.deleteChunks
  simp only [List.mem_filter, decide_eq_true_eq, List.mem_map, not_exists,
    not_and]
  refine and_congr_right fun _ => ⟨fun h c hc hid => ?_, fun h c hc hid => ?_⟩
  · cases hp : p c with
    | false => rfl
    | true => exact absurd hid (h c ⟨hc, hp⟩)
  · rw [h c hc.1 hid] at hc
    cases hc.2

theorem linked_deleteChunks (p : MemoryChunk → Bool) (h : Linked db) :
    Linked (db.deleteChunks p) where
  ids := h.ids
  fresh := h.fresh
  names := h.names
  unmerged := h.unmerged
  entity x hx := h.entity x (mem_deleteChunks.mp hx).1
  chunk x hx := by
    obtain ⟨hx, hkept⟩ := mem_deleteChunks.mp hx
    obtain ⟨c, hc, hid⟩ := h.chunk x hx
    refine ⟨c, List.mem_filter.mpr ⟨hc, ?_⟩, hid⟩
    rw [hkept c hc hid]
    rfl

theorem truthful_deleteChunks (gone : Id → Bool) (hl : Linked db)
    (ht : Truthful casefold extractor db) :
    Truthful casefold extractor (db.deleteChunks fun c => gone c.memoryId) where
  marked m hm v hv f := by
    have hold := ht.marked m hm v hv f
    cases hg : gone m.id with
    | true =>
      constructor
      · rintro ⟨x, hx, hmem, -⟩
        obtain ⟨hx, hkept⟩ := mem_deleteChunks.mp hx
        obtain ⟨c, hc, hid⟩ := hl.chunk x hx
        have hgone := hkept c hc hid
        rw [← ht.owner x hx c hc hid, hmem, hg] at hgone
        cases hgone
      · rintro ⟨c, hc, hmem, -⟩
        have hkept : (!gone c.memoryId) = true := (List.mem_filter.mp hc).2
        rw [hmem, hg] at hkept
        cases hkept
    | false =>
      constructor
      · rintro ⟨x, hx, hmem, hf⟩
        obtain ⟨c, hc, hcm, hcf⟩ := hold.mp
          ⟨x, (mem_deleteChunks.mp hx).1, hmem, hf⟩
        refine ⟨c, List.mem_filter.mpr ⟨hc, ?_⟩, hcm, hcf⟩
        show (!gone c.memoryId) = true
        rw [hcm, hg]
        rfl
      · rintro ⟨c, hc, hcm, hcf⟩
        obtain ⟨x, hx, hmem, hf⟩ := hold.mpr
          ⟨c, (List.mem_filter.mp hc).1, hcm, hcf⟩
        refine ⟨x, mem_deleteChunks.mpr ⟨hx, fun k hk hid => ?_⟩, hmem, hf⟩
        rw [← ht.owner x hx k hk hid, hmem, hg]
  owner x hx c hc hid :=
    ht.owner x (mem_deleteChunks.mp hx).1 c (List.mem_filter.mp hc).1 hid

theorem truthful_deleteMemories (p : Memory → Bool) (hl : Linked db)
    (hids : (db.memories.map (·.id)).Nodup)
    (ht : Truthful casefold extractor db) :
    Truthful casefold extractor (db.deleteMemories p) := by
  have hchunks := truthful_deleteChunks
    (fun id => decide (id ∈ (db.memories.filter p).map (·.id))) hl ht
  constructor
  · intro m hm v hv f
    obtain ⟨hm, hp⟩ := List.mem_filter.mp hm
    have hkept : m.id ∉ (db.memories.filter p).map (·.id) := by
      intro hgone
      obtain ⟨m₂, hm₂, hid⟩ := List.mem_map.mp hgone
      obtain ⟨hm₂, hp₂⟩ := List.mem_filter.mp hm₂
      rw [List.inj_on_of_nodup_map hids hm₂ hm hid] at hp₂
      rw [hp₂] at hp
      cases hp
    refine Iff.trans ?_ (hchunks.marked m hm v hv f)
    constructor
    · rintro ⟨x, hx, hmem, hf⟩
      exact ⟨x, (List.mem_filter.mp hx).1, hmem, hf⟩
    · rintro ⟨x, hx, hmem, hf⟩
      refine ⟨x, List.mem_filter.mpr ⟨hx, ?_⟩, hmem, hf⟩
      rw [decide_eq_true_eq, hmem]
      exact hkept
  · exact fun x hx => hchunks.owner x (List.mem_filter.mp hx).1

theorem linked_deleteMemories (p : Memory → Bool) (h : Linked db) :
    Linked (db.deleteMemories p) where
  ids := h.ids
  fresh := h.fresh
  names := h.names
  unmerged := h.unmerged
  entity x hx :=
    (linked_deleteChunks _ h).entity x (List.mem_filter.mp hx).1
  chunk x hx := (linked_deleteChunks _ h).chunk x (List.mem_filter.mp hx).1

-- ====== putting chunks there

theorem truthful_append_iff {m : Memory} {rows : List MemoryChunk}
    (hm : m ∈ db.memories) (hids : (db.memories.map (·.id)).Nodup)
    (hrows : ∀ c ∈ rows, c.memoryId = m.id)
    (hfresh : ∀ c ∈ rows, ∀ x ∈ db.mentions, x.chunkId ≠ c.id)
    (ht : Truthful casefold extractor db) (next : Id) :
    Truthful casefold extractor
        { db with chunks := db.chunks ++ rows, nextId := next }
      ↔ ∀ c ∈ rows, findsNothing extractor m c.content = true := by
  constructor
  · intro h c hc
    rw [findsNothing_iff casefold m c.id]
    intro v hv
    rw [List.eq_nil_iff_forall_not_mem]
    intro f hf
    obtain ⟨x, hx, -, hxf⟩ := (h.marked m hm v hv f).mpr
      ⟨c, List.mem_append_right _ hc, hrows c hc, hf⟩
    exact hfresh c hc x hx ((described_chunk hxf).symm.trans
      (produced_chunk hf))
  · intro h
    constructor
    · intro m' hm' v hv f
      refine (ht.marked m' hm' v hv f).trans ⟨?_, ?_⟩
      · rintro ⟨c, hc, hcf⟩
        exact ⟨c, List.mem_append_left _ hc, hcf⟩
      · rintro ⟨c, hc, hcm, hcf⟩
        rcases List.mem_append.mp hc with hc | hc
        · exact ⟨c, hc, hcm, hcf⟩
        · obtain rfl : m = m' := List.inj_on_of_nodup_map hids hm hm'
            ((hrows c hc).symm.trans hcm)
          have hnone := (findsNothing_iff casefold m c.id c.content).mp
            (h c hc) v hv
          rw [hnone] at hcf
          exact absurd hcf List.not_mem_nil
    · intro x hx c hc hid
      rcases List.mem_append.mp hc with hc | hc
      · exact ht.owner x hx c hc hid
      · exact absurd hid.symm (hfresh c hc x hx)

theorem truthful_moveChunks_iff {m previous : Memory}
    (hm : m ∈ db.memories) (hids : (db.memories.map (·.id)).Nodup)
    (hne : previous.id ≠ m.id) (ht : Truthful casefold extractor db) :
    Truthful casefold extractor
        (NormalizeMemory.moveChunks db previous.id m.id)
      ↔ adoptable extractor db m previous = true := by
  have hmoved : ∀ c ∈ db.chunks, c.memoryId = previous.id →
      { c with memoryId := m.id }
        ∈ (NormalizeMemory.moveChunks db previous.id m.id).chunks := by
    intro c hc hown
    refine List.mem_map.mpr ⟨c, hc, ?_⟩
    rw [if_pos hown]
  have hstays : ∀ c ∈ db.chunks, c.memoryId ≠ previous.id →
      c ∈ (NormalizeMemory.moveChunks db previous.id m.id).chunks := by
    intro c hc hown
    refine List.mem_map.mpr ⟨c, hc, ?_⟩
    rw [if_neg hown]
  have hadoptable : adoptable extractor db m previous = true
      ↔ ∀ c ∈ db.chunks, c.memoryId = previous.id →
        (∀ x ∈ db.mentions, x.chunkId ≠ c.id)
          ∧ findsNothing extractor m c.content = true := by
    unfold adoptable mentioned
    simp only [List.all_eq_true, Bool.or_eq_true, Bool.not_eq_true',
      decide_eq_false_iff_not, Bool.and_eq_true, List.any_eq_false,
      decide_eq_true_eq, ← imp_iff_not_or]
  rw [hadoptable]
  constructor
  · intro h c hc hown
    have hunmentioned : ∀ x ∈ db.mentions, x.chunkId ≠ c.id := by
      intro x hx hid
      have hold := ht.owner x hx c hc hid.symm
      have hnew := h.owner x hx _ (hmoved c hc hown) hid.symm
      exact hne (hown.symm.trans (hold.symm.trans hnew))
    refine ⟨hunmentioned, ?_⟩
    rw [findsNothing_iff casefold m c.id]
    intro v hv
    rw [List.eq_nil_iff_forall_not_mem]
    intro f hf
    obtain ⟨x, hx, -, hxf⟩ := (h.marked m hm v hv f).mpr
      ⟨_, hmoved c hc hown, rfl, hf⟩
    exact hunmentioned x hx ((described_chunk hxf).symm.trans
      (produced_chunk hf))
  · intro h
    constructor
    · intro m' hm' v hv f
      refine (ht.marked m' hm' v hv f).trans ⟨?_, ?_⟩
      · rintro ⟨c, hc, hcm, hcf⟩
        by_cases hown : c.memoryId = previous.id
        · -- a chunk that moves says nothing its old owner was marked for
          obtain ⟨x, hx, -, hxf⟩ := (ht.marked m' hm' v hv f).mpr
            ⟨c, hc, hcm, hcf⟩
          exact absurd ((described_chunk hxf).symm.trans (produced_chunk hcf))
            ((h c hc hown).1 x hx)
        · exact ⟨c, hstays c hc hown, hcm, hcf⟩
      · rintro ⟨c', hc', hcm, hcf⟩
        obtain ⟨c, hc, rfl⟩ := List.mem_map.mp hc'
        by_cases hown : c.memoryId = previous.id
        · rw [if_pos hown] at hcm hcf
          obtain rfl : m = m' := List.inj_on_of_nodup_map hids hm hm' hcm
          have hnone := (findsNothing_iff casefold m c.id c.content).mp
            (h c hc hown).2 v hv
          rw [hnone] at hcf
          exact absurd hcf List.not_mem_nil
        · rw [if_neg hown] at hcm hcf
          exact ⟨c, hc, hcm, hcf⟩
    · intro x hx c' hc' hid
      obtain ⟨c, hc, rfl⟩ := List.mem_map.mp hc'
      by_cases hown : c.memoryId = previous.id
      · rw [if_pos hown] at hid
        exact absurd hid.symm ((h c hc hown).1 x hx)
      · rw [if_neg hown] at hid ⊢
        exact ht.owner x hx c hc hid

end Marks

end MemoryOS
