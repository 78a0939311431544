/-
The markers along a run: they tell the truth in every state exactly when
every normalization leaves them true.

`Inv` is what every run keeps: the corpus is what its log says, and the
keys of chunks, entities and mentions hold. Under it a step that meets the
condition keeps the markers true and one that does not makes one of them
false, which `Machine.always_iff_everyStep` turns into the statement about
runs.
-/
import MemoryOS.Entities.Proofs.Extracted
import MemoryOS.Pipeline.Proofs.ItemView

namespace MemoryOS

open Lib

namespace Marks

open ExtractEntities

variable {casefold : Text → Text} {extractor : Extractor} {db db' : Db}
  {s s' : Store} {now : Timestamp} {version : String} {memoryId : Id}

/-- What every run keeps, as long as the markers are true. -/
structure Inv (casefold : Text → Text) (extractor : Extractor) (s : Store) :
    Prop where
  faithful : Faithful s.db
  owned : ChunksOwned s.db
  linked : Linked s.db
  truthful : Truthful casefold extractor s.db

theorem inv_start (sources : List Source) :
    Inv casefold extractor (Live.start sources) where
  faithful := faithful_start sources
  owned := .empty rfl
  linked := linked_start sources
  truthful := truthful_start sources

theorem memory_ids (h : Faithful db) : (db.memories.map (·.id)).Nodup := by
  have hids := h.versions.ids
  unfold keyed at hids
  rwa [List.map_map] at hids

theorem untouched_same (hmem : db'.memories = db.memories)
    (hchunks : db'.chunks = db.chunks) (hmentions : db'.mentions = db.mentions)
    (hentities : db'.entities = db.entities)
    (hnext : db.nextId ≤ db'.nextId) : Untouched db db' where
  marks m hm _ hv := ⟨m, hmem ▸ hm, rfl, hv⟩
  chunks := congrArg _ hchunks
  mentions := hmentions
  entities := hentities
  nextId := hnext

-- ========= purging

theorem purgeOne_eq {i : Item} {r : Db × List ContentHash}
    (hp : Deletion.purgeOne db i now = .ok r) :
    ∃ db₂ spec, Untouched db db₂ ∧ db₂.memories = db.memories
      ∧ r.1 = (db₂.deleteMemories fun m => decide (m.item = i)).enqueue spec
        now := by
  unfold Deletion.purgeOne at hp
  simp only at hp
  split at hp
  case isTrue => cases hp
  case isFalse =>
    cases hp
    refine ⟨_, _, ?_, ?_, rfl⟩
    · exact untouched_same rfl rfl rfl rfl (Nat.le_refl _)
    · rfl

theorem enqueue_untouched (spec : JobSpec) (now : Timestamp) :
    Untouched db (db.enqueue spec now) :=
  untouched_same rfl rfl rfl rfl (Nat.le_succ _)

theorem purgeOne_truthful {i : Item} {r : Db × List ContentHash}
    (h : Faithful db) (hl : Linked db) (ht : Truthful casefold extractor db)
    (hp : Deletion.purgeOne db i now = .ok r) :
    Linked r.1 ∧ Truthful casefold extractor r.1 := by
  obtain ⟨db₂, spec, hsame, hmem, heq⟩ := purgeOne_eq hp
  have hl₂ := hsame.linked hl
  have ht₂ := truthful_deleteMemories (fun m => decide (m.item = i)) hl₂
    (by rw [hmem]; exact memory_ids h) (hsame.truthful ht)
  rw [heq]
  exact ⟨(enqueue_untouched spec now).linked (linked_deleteMemories _ hl₂),
    (enqueue_untouched spec now).truthful ht₂⟩

theorem purgeLoop_truthful {items : List (Item × Timestamp)}
    (h : Faithful db) (hl : Linked db)
    (ht : Truthful casefold extractor db) :
    Linked (Deletion.purgeLoop db items).1
      ∧ Truthful casefold extractor (Deletion.purgeLoop db items).1 := by
  induction items generalizing db with
  | nil => exact ⟨hl, ht⟩
  | cons x rest ih =>
    obtain ⟨i, now⟩ := x
    unfold Deletion.purgeLoop
    split
    case h_1 => exact ⟨hl, ht⟩
    case h_2 db₁ hashes hp =>
      obtain ⟨hl₁, ht₁⟩ := purgeOne_truthful h hl ht hp
      exact ih (purgeOne_faithful h hp) hl₁ ht₁

-- ====== normalizing

theorem documented_untouched (id : Id) (doc : ParsedDocument) :
    Untouched db (NormalizeMemory.documented db id doc) := by
  refine .rewritten rfl ?_ ?_ rfl rfl rfl (Nat.le_refl _)
  · intro m
    split
    · rfl
    · rfl
  · intro m
    split
    · rfl
    · rfl

theorem documented_marked (id : Id) (doc : ParsedDocument) :
    Marked (NormalizeMemory.documented db id doc) db where
  marks m hm v hv := by
    refine ⟨_, List.mem_map_of_mem hm, ?_, ?_⟩
    · split
      · rfl
      · rfl
    · split
      · exact hv
      · exact hv
  chunks := rfl
  mentions := rfl
  entities := rfl

theorem linked_moveChunks (h : Linked db) (source target : Id) :
    Linked (NormalizeMemory.moveChunks db source target) :=
  { h with
    chunk := fun x hx => by
      obtain ⟨c, hc, hid⟩ := h.chunk x hx
      refine ⟨_, List.mem_map_of_mem hc, ?_⟩
      split
      · exact hid
      · exact hid }

theorem chunkRows_texts {next : Id} {cs : List TextChunk} {P : Text → Prop} :
    (∀ c ∈ NormalizeMemory.chunkRows version memoryId next cs, P c.content)
      ↔ ∀ c ∈ cs, P c.text := by
  induction cs generalizing next with
  | nil => simp [NormalizeMemory.chunkRows]
  | cons c rest ih =>
    unfold NormalizeMemory.chunkRows
    rw [List.forall_mem_cons, List.forall_mem_cons, ih]
    rfl

theorem linked_store {ports : Ports} {followup : Bool} {m : Memory}
    {doc : ParsedDocument} {chunks : List TextChunk} (h : Linked db) :
    Linked (NormalizeMemory.store ports followup db m doc chunks now) := by
  have hcleared := linked_deleteChunks (NormalizeMemory.ofItem
    (NormalizeMemory.documented db m.id doc) (m.sourceId, m.externalKey))
    ((documented_untouched m.id doc).linked h)
  have hcut : Linked (NormalizeMemory.store ports false db m doc chunks
      now) := {
    hcleared with
    fresh := fun e he =>
      Nat.lt_of_lt_of_le (hcleared.fresh e he) (Nat.le_add_right _ _)
    chunk := fun x hx => by
      obtain ⟨c, hc, hid⟩ := hcleared.chunk x hx
      exact ⟨c, List.mem_append_left _ hc, hid⟩ }
  cases followup with
  | false => exact hcut
  | true => exact (enqueue_untouched _ now).linked hcut

theorem truthful_store_iff {ports : Ports} {followup : Bool} {m : Memory}
    {doc : ParsedDocument} {chunks : List TextChunk} (hf : Faithful db)
    (hc : ChunksOwned db) (hl : Linked db)
    (ht : Truthful casefold extractor db) (hm : m ∈ db.memories) :
    Truthful casefold extractor
        (NormalizeMemory.store ports followup db m doc chunks now)
      ↔ (chunks.all fun c => findsNothing extractor m c.text) = true := by
  have hqueued : Truthful casefold extractor
      (NormalizeMemory.store ports followup db m doc chunks now)
      ↔ Truthful casefold extractor
        (NormalizeMemory.store ports false db m doc chunks now) := by
    cases followup with
    | false => exact Iff.rfl
    | true =>
      exact ⟨Marked.truthful ⟨fun m hm _ hv => ⟨m, hm, rfl, hv⟩, rfl, rfl,
          rfl⟩, (enqueue_untouched _ now).truthful⟩
  rw [hqueued]
  -- the memory's row, as the document leaves it
  obtain ⟨m', hm', hid', hmark'⟩ : ∃ m' ∈ (NormalizeMemory.documented db m.id
      doc).memories, m'.id = m.id
        ∧ m'.entityExtractorVersion = m.entityExtractorVersion := by
    refine ⟨_, List.mem_map_of_mem hm, ?_, ?_⟩
    · rw [if_pos rfl]
      rfl
    · rw [if_pos rfl]
      rfl
  have hids : ((NormalizeMemory.documented db m.id doc).memories.map
      (·.id)).Nodup := by
    have heq : (NormalizeMemory.documented db m.id doc).memories.map (·.id)
        = db.memories.map (·.id) := by
      unfold NormalizeMemory.documented
      rw [List.map_map]
      refine List.map_congr_left fun x _ => ?_
      rw [Function.comp_apply]
      split
      · rfl
      · rfl
    rw [heq]
    exact memory_ids hf
  have hdocumented := @documented_untouched db m.id doc
  have hcleared := truthful_deleteChunks (fun id =>
      (NormalizeMemory.documented db m.id doc).memories.any fun x =>
        decide (x.id = id) && decide (x.sourceId = m.sourceId)
          && decide (x.externalKey = m.externalKey))
    (hdocumented.linked hl) (hdocumented.truthful ht)
  have hkept : m' ∈ ((NormalizeMemory.documented db m.id doc).deleteChunks
      fun c => (NormalizeMemory.documented db m.id doc).memories.any fun x =>
        decide (x.id = c.memoryId) && decide (x.sourceId = m.sourceId)
          && decide (x.externalKey = m.externalKey)).memories := hm'
  refine (truthful_append_iff hkept hids (fun c hc => ?_)
    (fun c hcr x hx => ?_) hcleared _).trans ?_
  · exact (NormalizeMemory.chunkRows_mem hc).1.trans hid'.symm
  · -- the new chunks' ids are fresh, and a mention's is not
    obtain ⟨k, hk, hid⟩ := hl.chunk x (mem_deleteChunks.mp hx).1
    have hlt := hc.fresh k hk
    have hge := (NormalizeMemory.chunkRows_mem hcr).2.2.2.2.1
    rw [← hid]
    exact Nat.ne_of_lt (Nat.lt_of_lt_of_le hlt hge)
  · have hsame : ∀ text, findsNothing extractor m' text
        = findsNothing extractor m text := by
      intro text
      unfold findsNothing
      rw [hmark']
    simp only [hsame, List.all_eq_true]
    exact chunkRows_texts (P := fun text => findsNothing extractor m text
      = true)

theorem replaced_spec (ports : Ports) {m : Memory} {doc : ParsedDocument}
    (h : Inv casefold extractor s) (hm : m ∈ s.db.memories) :
    match NormalizeMemory.adopt ports s.db m doc with
    | .error _ => True
    | .ok (some db') => Linked db' ∧ (Truthful casefold extractor db'
        ↔ keepsMark extractor ports s.db m doc = true)
    | .ok none => Linked (NormalizeMemory.store ports true s.db m doc
          (ports.chunker.chunk doc) now)
        ∧ (Truthful casefold extractor (NormalizeMemory.store ports true s.db m
            doc (ports.chunker.chunk doc) now)
          ↔ keepsMark extractor ports s.db m doc = true) := by
  unfold keepsMark
  cases hadopt : NormalizeMemory.adopt ports s.db m doc with
  | error e => trivial
  | ok r =>
    cases r with
    | none =>
      exact ⟨linked_store h.linked,
        truthful_store_iff h.faithful h.owned h.linked h.truthful hm⟩
    | some db' =>
      unfold NormalizeMemory.adopt at hadopt
      split at hadopt
      case h_1 => cases hadopt
      case h_2 previous hp =>
        split at hadopt
        case isTrue => cases hadopt
        case isFalse =>
          split at hadopt
          case isTrue => cases hadopt
          case isFalse =>
            cases hadopt
            have hne : previous.id ≠ m.id := by
              have hmem := highestVersion_mem hp
              have hcond := (List.mem_filter.mp hmem).2
              simp only [Bool.and_eq_true, decide_eq_true_eq] at hcond
              exact hcond.1.2
            have hmoved := truthful_moveChunks_iff hm
              (memory_ids h.faithful) hne h.truthful
            rw [hp, Option.all_some, ← hmoved]
            exact ⟨(documented_untouched m.id doc).linked
                (linked_moveChunks h.linked previous.id m.id),
              (documented_marked m.id doc).truthful,
              (documented_untouched m.id doc).truthful⟩

theorem normalize_spec (ports : Ports) (h : Inv casefold extractor s)
    (id : Id) (now : Timestamp) :
    Linked (Live.step ports s (.normalize id now)).db
      ∧ (Truthful casefold extractor (Live.step ports s (.normalize id now)).db
        ↔ Keeps extractor s (.corpus ports (.normalize id now))) := by
  have hidle : (∀ m ∈ s.db.memory id, m.deletedAt = none → ∀ doc,
      NormalizeMemory.parse ports s.blobs m = .ok doc →
        NormalizeMemory.isCurrent ports s.db m doc = false →
          keepsMark extractor ports s.db m doc = true) →
      Linked s.db ∧ (Truthful casefold extractor s.db
        ↔ Keeps extractor s (.corpus ports (.normalize id now))) := fun hk =>
    ⟨h.linked, fun _ => hk, fun _ => h.truthful⟩
  unfold Live.step NormalizeMemory.call
  simp only
  cases hm : s.db.memory id with
  | none => exact hidle (fun m hm' => by rw [hm] at hm'; cases hm')
  | some m =>
    have hmem := (Db.memory_mem hm).1
    have honly : ∀ m' ∈ s.db.memory id, m' = m := fun m' hm' =>
      Option.some.inj (hm'.symm.trans hm)
    simp only
    split
    case h_1 e he =>
      refine hidle fun m' hm' hdel doc hdoc hcur => ?_
      obtain rfl := honly m' hm'
      simp only [hdel, Option.isSome_none, Bool.false_eq_true, ↓reduceIte,
        hdoc, hcur] at he
      unfold keepsMark
      cases ha : NormalizeMemory.adopt ports s.db m' doc with
      | error e => rfl
      | ok r =>
        rw [ha] at he
        cases r with
        | none => cases he
        | some db' => cases he
    case h_2 r hr =>
      split at hr
      case isTrue hdel =>
        cases hr
        refine hidle fun m' hm' hnone => ?_
        rw [honly m' hm'] at hnone
        rw [hnone] at hdel
        cases hdel
      case isFalse hdel =>
        split at hr
        case h_1 => cases hr
        case h_2 doc hdoc =>
          split at hr
          case isTrue hcur =>
            cases hr
            refine hidle fun m' hm' _ doc' hdoc' hno => ?_
            obtain rfl := honly m' hm'
            obtain rfl : doc = doc' := Except.ok.inj (hdoc.symm.trans hdoc')
            rw [hcur] at hno
            cases hno
          case isFalse hcur =>
            have hkeeps : Keeps extractor s (.corpus ports
                (.normalize id now))
                ↔ keepsMark extractor ports s.db m doc = true := by
              constructor
              · exact fun hk => hk m hm (by simpa using hdel) doc hdoc
                  (by simpa using hcur)
              · intro hk m' hm' _ doc' hdoc' _
                obtain rfl := honly m' hm'
                obtain rfl : doc = doc' :=
                  Except.ok.inj (hdoc.symm.trans hdoc')
                exact hk
            have hspec := @replaced_spec casefold extractor s now ports m doc
              h hmem
            rw [hkeeps]
            split at hr
            case h_1 => cases hr
            case h_2 db' ha =>
              cases hr
              rw [ha] at hspec
              exact hspec
            case h_3 ha =>
              cases hr
              rw [ha] at hspec
              exact hspec

-- ====== extracting

theorem keyed_marking : keyed (marking db memoryId version) = keyed db := by
  unfold keyed marking
  rw [List.map_map]
  refine List.map_congr_left fun m _ => ?_
  by_cases hid : m.id = memoryId <;> simp [hid, Memory.view]

theorem extract_inv (h : Inv casefold extractor s) (version : String)
    (queued : Bool) (id : Id) (now : Timestamp) :
    Inv casefold extractor
      (step casefold extractor s (.extract version queued id now)) := by
  unfold step
  simp only
  split
  case h_1 => exact h
  case h_2 r hr =>
    unfold call at hr
    split at hr
    case h_1 => cases hr
    case h_2 m hm =>
      split at hr
      case isTrue =>
        cases hr
        exact h
      case isFalse =>
        split at hr
        case isTrue =>
          cases hr
          exact h
        case isFalse =>
          simp only at hr
          split at hr
          case isTrue =>
            cases hr
            exact h
          case isFalse =>
            split at hr
            case h_1 => cases hr
            case h_2 r' hr' =>
              obtain ⟨hlinked, htruthful, hmem, hchunks, hnext, hevents,
                hseq⟩ := store_truthful h.linked h.owned h.truthful hr'
              have hkeyed : keyed r'.1 = keyed s.db := by
                unfold keyed
                rw [hmem]
                exact keyed_marking
              have hstored : Inv casefold extractor { s with db := r'.1 } := {
                faithful := h.faithful.same ⟨hkeyed, hevents, hseq, hnext⟩
                owned := h.owned.keep hchunks hnext fun k hk => by
                  obtain ⟨x, hx, rfl⟩ := hk
                  simp only [hmem]
                  refine ⟨_, List.mem_map_of_mem hx, ?_⟩
                  split
                  · rfl
                  · rfl
                linked := hlinked
                truthful := htruthful }
              cases hr
              cases queued with
              | false => exact hstored
              | true =>
                have hqueued := @enqueue_untouched r'.1
                  (graphSyncSpec [id] []) now
                exact {
                  faithful := hstored.faithful.same (enqueue_same _ _ _)
                  owned := hstored.owned.keep rfl (Nat.le_succ _)
                    fun _ hk => hk
                  linked := hqueued.linked hlinked
                  truthful := hqueued.truthful htruthful }

-- ========= the run

theorem corpus_truthful (ports : Ports) (h : Inv casefold extractor s)
    (op : Live.Op) (hop : ∀ id now, op ≠ .normalize id now) :
    Linked (Live.step ports s op).db
      ∧ Truthful casefold extractor (Live.step ports s op).db := by
  have hof : ∀ {s' : Store}, Untouched s.db s'.db →
      Linked s'.db ∧ Truthful casefold extractor s'.db := fun hu =>
    ⟨hu.linked h.linked, hu.truthful h.truthful⟩
  unfold Live.step
  cases op with
  | upload hash data => exact hof (.refl s.db)
  | ingest sourceId item now =>
    simp only
    split
    case h_1 => exact hof (.refl s.db)
    case h_2 r hr => exact hof (ingestItem_untouched hr)
  | detectDeletions sourceId observed clock =>
    exact @hof { s with db := _ } (detectDeletions_untouched _ _ _)
  | tombstone id now =>
    simp only
    split
    case h_1 => exact hof (.refl s.db)
    case h_2 db hdb =>
      obtain rfl | ⟨i, c, -, rfl⟩ := tombstone_cases hdb
      · exact hof (.refl s.db)
      · exact @hof { s with db := _ } (markDeleted_untouched _ _ _)
  | restore id now =>
    simp only
    split
    case h_1 => exact hof (.refl s.db)
    case h_2 s' hs' =>
      obtain ⟨_, _, _, hin⟩ := restore_cases hs'
      exact hof (ingestItem_untouched hin)
  | purge items =>
    simp only
    unfold Deletion.purge
    simp only
    split
    · exact purgeLoop_truthful h.faithful h.linked h.truthful
    · exact purgeLoop_truthful h.faithful h.linked h.truthful
  | normalize id now => exact absurd rfl (hop id now)
  | embed id now =>
    simp only
    split
    case h_1 => exact hof (.refl s.db)
    case h_2 r hr => exact @hof { s with db := _ } (embed_untouched hr)

theorem step_spec (h : Inv casefold extractor s) (op : Op) :
    (Truthful casefold extractor (step casefold extractor s op).db
        ↔ Keeps extractor s op)
      ∧ (Keeps extractor s op →
        Inv casefold extractor (step casefold extractor s op)) := by
  cases op with
  | corpus ports op =>
    have hof : ∀ (hspec : Linked (Live.step ports s op).db)
        (hiff : Truthful casefold extractor (Live.step ports s op).db
          ↔ Keeps extractor s (.corpus ports op)),
        Keeps extractor s (.corpus ports op) →
        Inv casefold extractor (Live.step ports s op) :=
      fun hspec hiff hkeeps =>
        ⟨step_faithful h.faithful, step_owned h.owned, hspec,
          hiff.mpr hkeeps⟩
    by_cases hop : ∃ id now, op = .normalize id now
    · obtain ⟨id, now, rfl⟩ := hop
      obtain ⟨hlinked, hiff⟩ := normalize_spec ports h id now
      exact ⟨hiff, hof hlinked hiff⟩
    · have hother : ∀ id now, op ≠ .normalize id now :=
        fun id now heq => hop ⟨id, now, heq⟩
      obtain ⟨hlinked, htruthful⟩ := corpus_truthful ports h op hother
      have hkeeps : Keeps extractor s (.corpus ports op) := by
        cases op with
        | normalize id now => exact absurd rfl (hother id now)
        | upload hash data => trivial
        | ingest sourceId item now => trivial
        | detectDeletions sourceId observed clock => trivial
        | tombstone id now => trivial
        | restore id now => trivial
        | purge items => trivial
        | embed id now => trivial
      have hiff := iff_of_true htruthful hkeeps
      exact ⟨hiff, hof hlinked hiff⟩
  | extract version queued id now =>
    have hinv := extract_inv h version queued id now
    exact ⟨iff_of_true hinv.truthful trivial, fun _ => hinv⟩

/-- In every state of a run the markers tell the truth exactly when no
normalization replaces the chunks of a marked memory, or moves chunks that
are mentioned, but where extraction finds nothing. -/
theorem marks_truthful_iff (casefold : Text → Text) (extractor : Extractor)
    (sources : List Source) (ops : List Op) :
    (machine casefold extractor).Always
        (fun s => Truthful casefold extractor s.db) (Live.start sources) ops
      ↔ (machine casefold extractor).EveryStep (Keeps extractor)
        (Live.start sources) ops := by
  refine Machine.always_iff_everyStep (Inv casefold extractor)
    (fun s h => h.truthful) ?_ ?_ (inv_start sources)
  · intro s op s' es h hs hkeeps
    cases hs
    exact (step_spec h op).2 hkeeps
  · intro s op s' es h hs ht
    cases hs
    exact (step_spec h op).1.mp ht

-- ------ a note cut twice

/-- The plain chunker, released again. -/
def releasedAgain : Ports :=
  { Ports.plain with chunker := { Ports.plain.chunker with
      version := "plain again" } }

/-- An extractor that finds one name at the start of every text. -/
def oneName : Extractor := fun _ _ => [⟨['h', 'i'], .concept, 1, 0, 2⟩]

/-- A note is normalized and extracted; a new chunker cuts it again, and
extraction runs again. -/
def cutTwice : List Op := [
  .corpus .plain (.ingest 1 (Live.note "a.md" "h1" [104, 105]) 0),
  .corpus .plain (.normalize 1 1),
  .extract "v1" false 1 2,
  .corpus releasedAgain (.normalize 1 3),
  .extract "v1" false 1 4]

/-- The note is marked, its chunk has a name in it, and it has no
mention. -/
theorem not_marks_truthful :
    ¬ ∀ (casefold : Text → Text) (extractor : Extractor)
        (sources : List Source) (ops : List Op),
      (machine casefold extractor).Always
        (fun s => Truthful casefold extractor s.db) (Live.start sources)
        ops := by
  intro hclaim
  have hend : Truthful id oneName
      (cutTwice.foldl (step id oneName) (Live.start [])).db :=
    (((((hclaim id oneName [] cutTwice).2 _ _ rfl).2 _ _ rfl).2 _ _ rfl).2
      _ _ rfl).2 _ _ rfl
  obtain ⟨m, hm, hmark, hid⟩ : ∃ m ∈ (cutTwice.foldl (step id oneName)
      (Live.start [])).db.memories,
        m.entityExtractorVersion = some "v1" ∧ m.id = 1 := by decide +kernel
  obtain ⟨c, hc, hown, hcontent⟩ : ∃ c ∈ (cutTwice.foldl (step id oneName)
      (Live.start [])).db.chunks,
        c.memoryId = 1 ∧ c.content = ['h', 'i'] := by decide +kernel
  have hnone : (cutTwice.foldl (step id oneName)
      (Live.start [])).db.mentions = [] := by decide +kernel
  have hsome : produced id oneName "v1" c.id ['h', 'i'] ≠ [] := by
    unfold produced
    rw [ne_eq, DistinctOn.distinctOn_eq_nil, List.map_eq_nil_iff]
    decide +kernel
  obtain ⟨f, hf⟩ := List.exists_mem_of_ne_nil _ hsome
  obtain ⟨x, hx, -⟩ := (hend.marked m hm "v1" hmark f).mpr
    ⟨c, hc, hown.trans hid.symm, hcontent ▸ hf⟩
  rw [hnone] at hx
  exact absurd hx List.not_mem_nil

end Marks

end MemoryOS
