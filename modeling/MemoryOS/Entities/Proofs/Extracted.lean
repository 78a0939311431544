/-
What a run of extraction stores.

`Filled` is the invariant of `_store`'s loop: the memory's mentions are
those of the candidates processed so far, one for each entity at each
offset, and every other memory's are as they were. A candidate whose span
is taken was processed before, since only the memory's own mentions point
at its chunks.
-/
import MemoryOS.Entities.Proofs.Marks
import MemoryOS.Entities.Proofs.Merges

namespace MemoryOS

open Lib

namespace Marks

open ExtractEntities

variable {casefold : Text → Text} {extractor : Extractor} {db db₀ db' : Db}
  {now : Timestamp} {version : String} {memoryId chunkId : Id}
  {done : List Found} {c : ExtractedEntity}

/-- The candidates processed so far are the memory's mentions. -/
structure Filled (db₀ db : Db) (memoryId : Id) (done : List Found) :
    Prop where
  linked : Linked db
  memories : db.memories = db₀.memories
  chunks : db.chunks = db₀.chunks
  nextId : db₀.nextId ≤ db.nextId
  log : db.events = db₀.events ∧ db.nextSeq = db₀.nextSeq
  /-- Other memories' mentions are as they were. -/
  others : ∀ x, x.memoryId ≠ memoryId → (x ∈ db.mentions ↔ x ∈ db₀.mentions)
  /-- And they say what they said. -/
  stays : ∀ x ∈ db₀.mentions, x.memoryId ≠ memoryId →
    described db x = described db₀ x
  own : ∀ f, (∃ x ∈ db.mentions, x.memoryId = memoryId
    ∧ described db x = some f) ↔ f ∈ DistinctOn.distinctOn Found.span done
  placed : ∀ x ∈ db.mentions, x.memoryId = memoryId →
    ∃ k ∈ db.chunks, k.id = x.chunkId ∧ k.memoryId = memoryId

theorem upsertEntity_spec {r : Db × Id × Bool} (h : Linked db)
    (hr : upsertEntity casefold db c now = .ok r) :
    Linked r.1
      ∧ (∃ e ∈ r.1.entities, e.id = r.2.1 ∧ e.type = c.type
        ∧ e.canonicalName = canonicalEntityName casefold c.name)
      ∧ r.1.memories = db.memories ∧ r.1.chunks = db.chunks
      ∧ r.1.mentions = db.mentions ∧ db.nextId ≤ r.1.nextId
      ∧ (r.1.events = db.events ∧ r.1.nextSeq = db.nextSeq)
      ∧ ∀ x ∈ db.mentions, described r.1 x = described db x := by
  unfold upsertEntity at hr
  simp only at hr
  split at hr
  case h_1 hnone =>
    split at hr
    case isTrue => cases hr
    case isFalse =>
      cases hr
      have hnew : ∀ e ∈ db.entities, e.id ≠ db.nextId := fun e he =>
        Nat.ne_of_lt (h.fresh e he)
      refine ⟨?_, ⟨_, List.mem_append_right _ List.mem_cons_self, rfl, rfl,
        rfl⟩, rfl, rfl, rfl, Nat.le_succ _, ⟨rfl, rfl⟩, ?_⟩
      · constructor
        case ids =>
          rw [List.map_append]
          refine List.nodup_append.mpr ⟨h.ids, List.nodup_singleton _, ?_⟩
          intro a ha b hb
          obtain ⟨e, he, rfl⟩ := List.mem_map.mp ha
          rw [List.mem_singleton.mp hb]
          exact hnew e he
        case fresh =>
          intro e he
          rcases List.mem_append.mp he with he | he
          · exact Nat.lt_succ_of_lt (h.fresh e he)
          · rw [List.mem_singleton.mp he]
            exact Nat.lt_succ_self _
        case names =>
          rw [List.map_append]
          refine List.nodup_append.mpr ⟨h.names, List.nodup_singleton _, ?_⟩
          intro a ha b hb
          obtain ⟨e, he, rfl⟩ := List.mem_map.mp ha
          rw [List.mem_singleton.mp hb]
          intro heq
          rw [Prod.mk.injEq] at heq
          have hno := List.find?_eq_none.mp hnone e he
          simp [heq.1, heq.2] at hno
        case unmerged =>
          intro e he
          rcases List.mem_append.mp he with he | he
          · exact h.unmerged e he
          · rw [List.mem_singleton.mp he]
        case entity =>
          intro x hx
          obtain ⟨e, he, hid⟩ := h.entity x hx
          exact ⟨e, List.mem_append_left _ he, hid⟩
        case chunk => exact h.chunk
      · -- a mention's entity was there before, under its own id
        intro x hx
        obtain ⟨e, he, hid⟩ := h.entity x hx
        unfold described Db.entity
        rw [List.find?_append]
        have hfind : db.entities.find? (fun e => decide (e.id = x.entityId))
            = some e := by
          rw [← hid]
          exact Entities.entity_of_mem h.ids he
        rw [hfind]
        rfl
  case h_2 e hfind =>
    have he := List.mem_of_find?_eq_some hfind
    have hkey := List.find?_some hfind
    simp only [Bool.and_eq_true, decide_eq_true_eq] at hkey
    split at hr
    case h_1 =>
      cases hr
      exact ⟨h, ⟨e, he, rfl, hkey.2, hkey.1⟩, rfl, rfl, rfl, Nat.le_refl _,
        ⟨rfl, rfl⟩, fun _ _ => rfl⟩
    case h_2 winner hmerged =>
      rw [h.unmerged e he] at hmerged
      cases hmerged

theorem insertMention_cases {entityId : Id}
    (hr : insertMention db entityId memoryId chunkId c version now = .ok db') :
    (db' = db ∧ ∃ x ∈ db.mentions, x.entityId = entityId
        ∧ x.chunkId = chunkId ∧ x.charStart = c.charStart.toNat)
      ∨ (∀ x ∈ db.mentions, x.entityId = entityId → x.chunkId = chunkId →
          x.charStart ≠ c.charStart.toNat)
        ∧ db' = { db with
          mentions := db.mentions ++ [{
            id := db.nextId
            entityId := entityId
            memoryId := memoryId
            chunkId := chunkId
            charStart := c.charStart.toNat
            charEnd := c.charEnd.toNat
            confidence := some c.confidence
            extractorVersion := version
            extractedAt := now }]
          nextId := db.nextId + 1 } := by
  unfold insertMention at hr
  split at hr
  case isTrue => cases hr
  case isFalse =>
    split at hr
    case isTrue htaken =>
      cases hr
      simp only [List.any_eq_true, Bool.and_eq_true, decide_eq_true_eq]
        at htaken
      obtain ⟨x, hx, ⟨he, hc⟩, hs⟩ := htaken
      exact .inl ⟨rfl, x, hx, he, hc, hs⟩
    case isFalse hfree =>
      split at hr
      case isTrue => cases hr
      case isFalse =>
        cases hr
        refine .inr ⟨fun x hx he hc hs => hfree ?_, rfl⟩
        simp only [List.any_eq_true, Bool.and_eq_true, decide_eq_true_eq]
        exact ⟨x, hx, ⟨he, hc⟩, hs⟩

theorem Filled.upsertEntity (h : Filled db₀ db memoryId done)
    {r : Db × Id × Bool}
    (hr : ExtractEntities.upsertEntity casefold db c now = .ok r) :
    Filled db₀ r.1 memoryId done := by
  obtain ⟨hlinked, -, hmem, hchunks, hmentions, hnext, hlog, hsame⟩ :=
    upsertEntity_spec h.linked hr
  constructor
  case linked => exact hlinked
  case memories => exact hmem.trans h.memories
  case chunks => exact hchunks.trans h.chunks
  case nextId => exact Nat.le_trans h.nextId hnext
  case log => exact ⟨hlog.1.trans h.log.1, hlog.2.trans h.log.2⟩
  case others =>
    rw [hmentions]
    exact h.others
  case stays =>
    intro x hx hne
    rw [hsame x ((h.others x hne).mpr hx)]
    exact h.stays x hx hne
  case own =>
    intro f
    rw [hmentions, ← h.own f]
    constructor
    · rintro ⟨x, hx, hm, hf⟩
      exact ⟨x, hx, hm, (hsame x hx).symm.trans hf⟩
    · rintro ⟨x, hx, hm, hf⟩
      exact ⟨x, hx, hm, (hsame x hx).trans hf⟩
  case placed =>
    rw [hmentions, hchunks]
    exact h.placed

theorem Filled.insertMention (h : Filled db₀ db memoryId done) {e : Entity}
    (howner : ∀ x ∈ db₀.mentions, ∀ k ∈ db₀.chunks, k.id = x.chunkId →
      x.memoryId = k.memoryId)
    (hchunk : ∃ k ∈ db₀.chunks, k.id = chunkId ∧ k.memoryId = memoryId)
    (he : e ∈ db.entities) (htype : e.type = c.type)
    (hname : e.canonicalName = canonicalEntityName casefold c.name)
    (hr : ExtractEntities.insertMention db e.id memoryId chunkId c version now
      = .ok db') :
    Filled db₀ db' memoryId (done ++ [found casefold version chunkId c]) := by
  -- every mention at the chunk is the memory's own
  have hsame : ∀ x ∈ db.mentions, x.chunkId = chunkId →
      x.memoryId = memoryId := by
    intro x hx hk
    by_contra hne
    obtain ⟨k, hk₀, hid, hmem⟩ := hchunk
    exact hne ((howner x ((h.others x hne).mp hx) k hk₀
      (hid.trans hk.symm)).trans hmem)
  have hdescribed : ∀ {x : EntityMention}, x.entityId = e.id →
      described db x = some {
        chunkId := x.chunkId, canonicalName := e.canonicalName, type := e.type
        charStart := x.charStart, charEnd := x.charEnd
        confidence := x.confidence
        extractorVersion := x.extractorVersion } := by
    intro x hx
    unfold described
    rw [hx, Entities.entity_of_mem h.linked.ids he, Option.map_some]
  obtain ⟨rfl, x, hx, hxe, hxk, hxs⟩ | ⟨hfree, rfl⟩ := insertMention_cases hr
  · -- the span is taken, by a candidate processed before
    obtain ⟨y, hy, hspan⟩ : ∃ y ∈ done,
        (found casefold version chunkId c).span = y.span := by
      refine ⟨_, DistinctOn.mem_of_mem_distinctOn ((h.own _).mp
        ⟨x, hx, hsame x hx hxk, hdescribed hxe⟩), ?_⟩
      unfold Found.span found
      simp only
      rw [hxk, hxs, htype, hname]
    refine { h with own := fun f => (h.own f).trans ?_ }
    rw [DistinctOn.mem_distinctOn_concat]
    refine ⟨.inl, fun hf => hf.resolve_right fun hnew => ?_⟩
    exact hnew.2 y hy hspan
  · -- the span is free: no candidate processed before has it
    have hnew : ∀ y ∈ done,
        (found casefold version chunkId c).span ≠ y.span := by
      intro y hy hspan
      obtain ⟨z, hz, hzy⟩ :=
        @DistinctOn.exists_mem_distinctOn _ _ _ Found.span _ _ hy
      obtain ⟨x, hx, hxm, hxz⟩ := (h.own z).mpr hz
      obtain ⟨e', he', heid⟩ := h.linked.entity x hx
      unfold described at hxz
      rw [← heid, Entities.entity_of_mem h.linked.ids he', Option.map_some,
        Option.some.injEq] at hxz
      rw [← hspan, ← hxz] at hzy
      unfold Found.span found at hzy
      simp only [Prod.mk.injEq] at hzy
      have hee : e' = e := List.inj_on_of_nodup_map h.linked.names he' he
        (Prod.ext (hzy.2.1.trans hname.symm) (hzy.2.2.1.trans htype.symm))
      exact hfree x hx (heid.symm.trans (congrArg _ hee)) hzy.1 hzy.2.2.2
    obtain ⟨k, hk₀, hid, hmem⟩ := hchunk
    have hk : k ∈ db.chunks := h.chunks ▸ hk₀
    constructor
    case linked =>
      refine { h.linked with
        fresh := fun e he => Nat.lt_succ_of_lt (h.linked.fresh e he)
        entity := fun x hx => ?_
        chunk := fun x hx => ?_ }
      · rcases List.mem_append.mp hx with hx | hx
        · exact h.linked.entity x hx
        · rw [List.mem_singleton.mp hx]
          exact ⟨e, he, rfl⟩
      · rcases List.mem_append.mp hx with hx | hx
        · exact h.linked.chunk x hx
        · rw [List.mem_singleton.mp hx]
          exact ⟨k, hk, hid⟩
    case memories => exact h.memories
    case chunks => exact h.chunks
    case nextId => exact Nat.le_succ_of_le h.nextId
    case log => exact h.log
    case others =>
      intro x hne
      rw [← h.others x hne]
      refine ⟨fun hx => ?_, List.mem_append_left _⟩
      rcases List.mem_append.mp hx with hx | hx
      · exact hx
      · rw [List.mem_singleton.mp hx] at hne
        exact absurd rfl hne
    case stays => exact h.stays
    case own =>
      intro f
      rw [DistinctOn.mem_distinctOn_concat, ← h.own f]
      constructor
      · rintro ⟨x, hx, hxm, hxf⟩
        rcases List.mem_append.mp hx with hx | hx
        · exact .inl ⟨x, hx, hxm, hxf⟩
        · refine .inr ⟨?_, hnew⟩
          have hxf' : described db x = some f := hxf
          rw [List.mem_singleton.mp hx, hdescribed rfl,
            Option.some.injEq] at hxf'
          rw [← hxf']
          unfold found
          rw [htype, hname]
      · rintro (⟨x, hx, hxm, hxf⟩ | ⟨rfl, -⟩)
        · exact ⟨x, List.mem_append_left _ hx, hxm, hxf⟩
        · refine ⟨_, List.mem_append_right _ List.mem_cons_self, rfl, ?_⟩
          refine (hdescribed rfl).trans ?_
          unfold found
          rw [htype, hname]
    case placed =>
      intro x hx hxm
      rcases List.mem_append.mp hx with hx | hx
      · exact h.placed x hx hxm
      · rw [List.mem_singleton.mp hx]
        exact ⟨k, hk, hid, hmem⟩

theorem storeLoop_filled {report : ExtractReport}
    {cs : List ((Id × Text) × ExtractedEntity)} {r : Db × ExtractReport}
    (h : Filled db₀ db memoryId done)
    (howner : ∀ x ∈ db₀.mentions, ∀ k ∈ db₀.chunks, k.id = x.chunkId →
      x.memoryId = k.memoryId)
    (hcs : ∀ p ∈ cs, ∃ k ∈ db₀.chunks, k.id = p.1.1 ∧ k.memoryId = memoryId)
    (hr : storeLoop casefold memoryId version now db report cs = .ok r) :
    Filled db₀ r.1 memoryId (done
      ++ (cs.filter fun p => offsetsHold p.1.2 p.2).map fun p =>
        found casefold version p.1.1 p.2) := by
  induction cs generalizing db report done with
  | nil =>
    cases hr
    simpa using h
  | cons p rest ih =>
    obtain ⟨⟨chunkId, text⟩, c⟩ := p
    have hrest := fun p hp => hcs p (List.mem_cons_of_mem _ hp)
    unfold storeLoop at hr
    cases hold : offsetsHold text c with
    | false =>
      simp only [hold, Bool.not_false, ↓reduceIte] at hr
      rw [List.filter_cons_of_neg (by simp [hold])]
      exact ih h hrest hr
    | true =>
      simp only [hold, Bool.not_true, Bool.false_eq_true, ↓reduceIte] at hr
      rw [List.filter_cons_of_pos (by simp [hold]), List.map_cons,
        List.append_cons]
      cases hu : ExtractEntities.upsertEntity casefold db c now with
      | error e => simp [hu] at hr
      | ok u =>
        obtain ⟨-, ⟨e, he, hid, htype, hname⟩, -⟩ :=
          upsertEntity_spec h.linked hu
        have h₁ := h.upsertEntity hu
        obtain ⟨db₁, entityId, created⟩ := u
        obtain rfl : e.id = entityId := hid
        simp only [hu] at hr
        cases hi : ExtractEntities.insertMention db₁ e.id memoryId
            chunkId c version now with
        | error e => simp [hi] at hr
        | ok db₂ =>
          simp only [hi] at hr
          exact ih (h₁.insertMention howner
            (hcs _ List.mem_cons_self) he htype hname hi) hrest hr

-- ====== a whole run

theorem mem_chunksOf {k : Id × Text} : k ∈ chunksOf db memoryId
    ↔ ∃ c ∈ db.chunks, c.memoryId = memoryId ∧ (c.id, c.content) = k := by
  unfold chunksOf
  simp only [List.mem_map, List.mem_insertionSort, List.mem_filter,
    decide_eq_true_eq, and_assoc]

theorem chunksOf_ids (h : ChunksOwned db) :
    (chunksOf db memoryId).Pairwise fun a b => a.1 ≠ b.1 := by
  unfold chunksOf
  rw [List.pairwise_map]
  have hids : ((db.chunks.filter fun c =>
      decide (c.memoryId = memoryId)).map (·.id)).Nodup :=
    h.ids.sublist (List.filter_sublist.map _)
  have hsorted := ((List.perm_insertionSort (fun a b : MemoryChunk =>
    a.ordinal ≤ b.ordinal) _).map (·.id)).nodup_iff.mpr hids
  exact List.pairwise_map.mp hsorted

theorem candidates_produced (hchunks : ChunksOwned db) (f : Found) :
    f ∈ DistinctOn.distinctOn Found.span
        (((((chunksOf db memoryId).zip ((chunksOf db memoryId).map fun k =>
          extractor version k.2)).flatMap fun p =>
            p.2.map fun c => (p.1, c)).filter fun p =>
              offsetsHold p.1.2 p.2).map fun p =>
                found casefold version p.1.1 p.2)
      ↔ ∃ c ∈ db.chunks, c.memoryId = memoryId
        ∧ f ∈ produced casefold extractor version c.id c.content := by
  have hflat : (((((chunksOf db memoryId).zip ((chunksOf db memoryId).map
      fun k => extractor version k.2)).flatMap fun p =>
        p.2.map fun c => (p.1, c)).filter fun p =>
          offsetsHold p.1.2 p.2).map fun p =>
            found casefold version p.1.1 p.2)
      = (chunksOf db memoryId).flatMap fun k =>
        (holding extractor version k.2).map (found casefold version k.1) := by
    generalize chunksOf db memoryId = ks
    induction ks with
    | nil => rfl
    | cons k rest ih =>
      rw [List.map_cons, List.zip_cons_cons, List.flatMap_cons,
        List.filter_append, List.map_append, ih, List.flatMap_cons]
      congr 1
      unfold holding
      rw [List.filter_map, List.map_map]
      rfl
  rw [hflat, DistinctOn.mem_distinctOn_flatMap]
  · constructor
    · rintro ⟨k, hk, hf⟩
      obtain ⟨c, hc, hown, rfl⟩ := mem_chunksOf.mp hk
      exact ⟨c, hc, hown, hf⟩
    · rintro ⟨c, hc, hown, hf⟩
      exact ⟨_, mem_chunksOf.mpr ⟨c, hc, hown, rfl⟩, hf⟩
  · refine (chunksOf_ids hchunks).imp fun hne x hx y hy heq => ?_
    obtain ⟨c, -, rfl⟩ := List.mem_map.mp hx
    obtain ⟨c', -, rfl⟩ := List.mem_map.mp hy
    exact hne (congrArg Prod.fst heq).symm

/-- What `_store` starts from: the memory marked, its mentions gone. -/
def marking (db : Db) (memoryId : Id) (version : String) : Db :=
  { db with
    mentions := db.mentions.filter fun m => decide (m.memoryId ≠ memoryId)
    memories := db.memories.map fun m =>
      if m.id = memoryId then { m with entityExtractorVersion := some version }
      else m }

theorem filled_marking (h : Linked db) :
    Filled (marking db memoryId version) (marking db memoryId version)
      memoryId [] := by
  have hnone : ∀ x ∈ (marking db memoryId version).mentions,
      x.memoryId ≠ memoryId := fun x hx =>
    of_decide_eq_true (List.mem_filter.mp hx).2
  constructor
  case linked =>
    exact { h with
      entity := fun x hx => h.entity x (List.mem_filter.mp hx).1
      chunk := fun x hx => h.chunk x (List.mem_filter.mp hx).1 }
  case memories => rfl
  case chunks => rfl
  case nextId => exact Nat.le_refl _
  case log => exact ⟨rfl, rfl⟩
  case others => exact fun _ _ => Iff.rfl
  case stays => exact fun _ _ _ => rfl
  case own =>
    refine fun f => ⟨?_, fun hf => absurd hf List.not_mem_nil⟩
    rintro ⟨x, hx, hm, -⟩
    exact absurd hm (hnone x hx)
  case placed => exact fun x hx hm => absurd hm (hnone x hx)

theorem store_truthful {r : Db × ExtractReport} (hl : Linked db)
    (hchunks : ChunksOwned db) (ht : Truthful casefold extractor db)
    (hr : store casefold db memoryId (chunksOf db memoryId)
      ((chunksOf db memoryId).map fun k => extractor version k.2) version now
        = .ok r) :
    Linked r.1 ∧ Truthful casefold extractor r.1
      ∧ r.1.memories = (marking db memoryId version).memories
      ∧ r.1.chunks = db.chunks ∧ db.nextId ≤ r.1.nextId
      ∧ r.1.events = db.events ∧ r.1.nextSeq = db.nextSeq := by
  unfold store at hr
  split at hr
  case isTrue => cases hr
  case isFalse =>
    have hfilled := storeLoop_filled (filled_marking hl)
      (fun x hx => ht.owner x (List.mem_filter.mp hx).1) (fun p hp => by
        obtain ⟨⟨k, cs⟩, hk, hp⟩ := List.mem_flatMap.mp hp
        obtain ⟨c, -, rfl⟩ := List.mem_map.mp hp
        obtain ⟨c, hc, hown, rfl⟩ := mem_chunksOf.mp (List.of_mem_zip hk).1
        exact ⟨c, hc, rfl, hown⟩) hr
    rw [List.nil_append] at hfilled
    have hother : ∀ x, x.memoryId ≠ memoryId →
        (x ∈ r.1.mentions ↔ x ∈ db.mentions) := by
      intro x hne
      refine (hfilled.others x hne).trans ?_
      unfold marking
      rw [List.mem_filter, decide_eq_true_eq]
      exact and_iff_left hne
    refine ⟨hfilled.linked, ⟨?_, ?_⟩, hfilled.memories, hfilled.chunks,
      hfilled.nextId, hfilled.log⟩
    · intro m hm v hv f
      rw [hfilled.memories] at hm
      obtain ⟨m₀, hm₀, rfl⟩ := List.mem_map.mp hm
      rw [show r.1.chunks = db.chunks from hfilled.chunks]
      by_cases hid : m₀.id = memoryId
      · simp only [if_pos hid] at hv ⊢
        obtain rfl : version = v := Option.some.inj hv
        rw [hid]
        exact (hfilled.own f).trans (candidates_produced hchunks f)
      · simp only [if_neg hid] at hv ⊢
        refine Iff.trans ?_ (ht.marked m₀ hm₀ v hv f)
        constructor
        · rintro ⟨x, hx, hm, hf⟩
          have hne : x.memoryId ≠ memoryId := fun h => hid (hm.symm.trans h)
          have hx₀ := (hother x hne).mp hx
          refine ⟨x, hx₀, hm, (hfilled.stays x ?_ hne).symm.trans hf⟩
          exact List.mem_filter.mpr ⟨hx₀, decide_eq_true hne⟩
        · rintro ⟨x, hx, hm, hf⟩
          have hne : x.memoryId ≠ memoryId := fun h => hid (hm.symm.trans h)
          refine ⟨x, (hother x hne).mpr hx, hm,
            (hfilled.stays x ?_ hne).trans hf⟩
          exact List.mem_filter.mpr ⟨hx, decide_eq_true hne⟩
    · intro x hx c hc hid
      rw [show r.1.chunks = db.chunks from hfilled.chunks] at hc
      by_cases hown : x.memoryId = memoryId
      · obtain ⟨k, hk, hkid, hkown⟩ := hfilled.placed x hx hown
        rw [show r.1.chunks = db.chunks from hfilled.chunks] at hk
        rw [List.inj_on_of_nodup_map hchunks.ids hc hk (hid.trans hkid.symm),
          hkown, hown]
      · exact ht.owner x ((hother x hown).mp hx) c hc hid

end Marks

end MemoryOS
