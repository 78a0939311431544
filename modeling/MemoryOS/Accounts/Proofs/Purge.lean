/-
The stages of a replay, and what one account's purge takes from the others.

The stages, and the pipeline they run, are transactions of one account: what each
writes is `Grown`. A rebuild adds versions for events, so an event's source has
to be there (`Grown.rebuild`); the stages after it work on rows that are.

The rows of an account are its own, and nobody's purge reaches another's
(`step_own`). The bytes are everybody's: they go when the purging account sees no
memory that needs them, and it sees only its own. `purges_apart_iff` says which
purges take nothing that is needed.
-/
import MemoryOS.Accounts.Proofs.Grown

namespace MemoryOS

namespace Accounts

namespace Grown

variable {db db₁ left : Db}

-- ====== one statement

theorem memories {memories : List Memory}
    (h : ∀ x ∈ memories, ∃ y ∈ db.memories, y.id = x.id
      ∧ y.sourceId = x.sourceId) :
    Grown db { db with memories := memories } :=
  written db.artifacts db.embeddingCache (Nat.le_refl _) (Nat.le_refl _)
    (fun x hx => .inl (h x hx)) (fun x hx => .inl ⟨x, hx, rfl, rfl⟩)
    (fun _ hx => .inl hx) fun _ hx => .inl hx

theorem chunks {chunks : List MemoryChunk} {next : Nat}
    (cache : List EmbeddingCacheEntry) (hnext : db.nextId ≤ next)
    (h : ∀ x ∈ chunks, (∃ y ∈ db.chunks, y.id = x.id
        ∧ y.memoryId = x.memoryId)
      ∨ Known db next x.id ∧ Known db next x.memoryId) :
    Grown db { db with
      chunks := chunks, embeddingCache := cache, nextId := next } :=
  written db.artifacts cache hnext (Nat.le_refl _)
    (fun x hx => .inl ⟨x, hx, rfl, rfl⟩) h (fun _ hx => .inl hx)
    fun _ hx => .inl hx

theorem tombstoneRow (id : Id) (deletedAt : Timestamp) :
    Grown db (MemoryOS.tombstoneRow db id deletedAt) := by
  refine memories fun x hx => ?_
  obtain ⟨y, hy, rfl⟩ := List.mem_map.mp hx
  refine ⟨y, hy, ?_⟩
  split
  case isTrue => exact ⟨rfl, rfl⟩
  case isFalse => exact ⟨rfl, rfl⟩

theorem documented (id : Id) (doc : ParsedDocument) :
    Grown db (NormalizeMemory.documented db id doc) := by
  refine memories fun x hx => ?_
  obtain ⟨y, hy, rfl⟩ := List.mem_map.mp hx
  refine ⟨y, hy, ?_⟩
  split
  case isTrue => exact ⟨rfl, rfl⟩
  case isFalse => exact ⟨rfl, rfl⟩

theorem moveChunks {m : Memory} (hm : m ∈ db.memories) (source : Id) :
    Grown db (NormalizeMemory.moveChunks db source m.id) := by
  refine chunks db.embeddingCache (Nat.le_refl _) fun x hx => ?_
  obtain ⟨y, hy, rfl⟩ := List.mem_map.mp hx
  split
  case isTrue =>
    have hknown : db.Keyed y.id := .chunk hy
    exact .inr ⟨.inl hknown, .inl (.memory hm)⟩
  case isFalse => exact .inl ⟨y, hy, rfl, rfl⟩

-- ====== the pipeline

theorem store {m : Memory} (hm : m ∈ db.memories) (ports : Ports)
    (followup : Bool) (doc : ParsedDocument) (cs : List TextChunk)
    (now : Timestamp) :
    Grown db (NormalizeMemory.store ports followup db m doc cs now) := by
  let cleared := (NormalizeMemory.documented db m.id doc).deleteChunks
    (NormalizeMemory.ofItem (NormalizeMemory.documented db m.id doc)
      (m.sourceId, m.externalKey))
  have hcleared : Grown db cleared :=
    (documented m.id doc).trans (deleteChunks _)
  have hkeyed : cleared.Keyed m.id := by
    obtain ⟨x, hx, hid⟩ :=
      (NormalizeMemory.documented_memories_iff m.id).mpr ⟨m, hm, rfl⟩
    have hthere : cleared.Keyed x.id := .memory hx
    rw [hid] at hthere
    exact hthere
  have hcut : Grown cleared { cleared with
      chunks := cleared.chunks ++ NormalizeMemory.chunkRows
        ports.chunker.version m.id cleared.nextId cs
      nextId := cleared.nextId + cs.length } := by
    refine chunks cleared.embeddingCache (Nat.le_add_right _ _) fun x hx => ?_
    rcases List.mem_append.mp hx with hx | hx
    · exact .inl ⟨x, hx, rfl, rfl⟩
    · obtain ⟨hmemory, -, -, -, hid⟩ := NormalizeMemory.chunkRows_mem hx
      rw [hmemory]
      exact .inr ⟨.inr hid, .inl hkeyed⟩
  cases followup with
  | false => exact hcleared.trans hcut
  | true => exact (hcleared.trans hcut).trans (enqueue _ now)

theorem normalize {ports : Ports} {followup : Bool} {blobs : Blobs} {id : Id}
    {now : Timestamp} {r : Db × NormalizeMemory.Outcome}
    (h : NormalizeMemory.call ports followup blobs db id now = .ok r) :
    Grown db r.1 := by
  obtain ⟨m, hm, hdone | ⟨-, doc, -, -, hadopted | hstored⟩⟩ :=
    NormalizeMemory.call_cases h
  · rw [hdone.1]
    exact .refl db
  · obtain ⟨previous, -, -, -, hr⟩ := hadopted
    rw [hr]
    exact (moveChunks (Db.memory_mem hm).1 previous.id).trans
      (documented m.id doc)
  · rw [hstored.2]
    exact store (Db.memory_mem hm).1 ports followup doc _ now

theorem embed {embedder : Embedder} {followup : Bool} {id : Id}
    {now : Timestamp} {r : Db × EmbedMemory.Outcome}
    (h : EmbedMemory.call embedder followup db id now = .ok r) :
    Grown db r.1 := by
  obtain heq | ⟨pending, -, heq⟩ := EmbedMemory.call_cases h
  · rw [heq]
    exact .refl db
  · rw [heq]
    obtain ⟨cache, hembedded⟩ :=
      @EmbedMemory.embedChunks_eq embedder pending now db
    have hwritten : Grown db
        (EmbedMemory.embedChunks embedder db pending now) := by
      rw [hembedded]
      refine chunks cache (Nat.le_refl _) fun x hx => ?_
      obtain ⟨y, hy, rfl⟩ := List.mem_map.mp hx
      exact .inl ⟨y, hy, (EmbedMemory.vectored_id y).symm,
        (EmbedMemory.vectored_memoryId y).symm⟩
    unfold EmbedMemory.finish
    cases followup with
    | false => exact hwritten
    | true => exact hwritten.trans (enqueue _ now)

-- ====== the stages

theorem forEach {α : Type} {f : Db → α → ReplayCorpus.Progress} {xs : List α}
    (h : ∀ db₁, Grown db db₁ → ∀ x ∈ xs, Grown db₁ (f db₁ x).1) :
    Grown db (ReplayCorpus.forEach f db xs).1 := by
  have hfrom : ∀ db₁, Grown db db₁ →
      Grown db₁ (ReplayCorpus.forEach f db₁ xs).1 := by
    induction xs with
    | nil => exact fun db₁ _ => .refl db₁
    | cons x rest ih =>
      intro db₁ hg
      have hfirst := h db₁ hg x List.mem_cons_self
      have hrest := ih fun db₂ hg₂ y hy => h db₂ hg₂ y (.tail x hy)
      unfold ReplayCorpus.forEach ReplayCorpus.Progress.andThen
      split
      case h_1 => exact hfirst.trans (hrest _ (hg.trans hfirst))
      case h_2 => exact hfirst
  exact hfrom db (.refl db)

theorem andThen {p : ReplayCorpus.Progress} {f : Db → ReplayCorpus.Progress}
    (hp : Grown db p.1) (hf : ∀ db₁, Grown db db₁ → Grown db₁ (f db₁).1) :
    Grown db (p.andThen f).1 := by
  unfold ReplayCorpus.Progress.andThen
  split
  case h_1 => exact hp.trans (hf _ hp)
  case h_2 => exact hp

theorem normalizeOne (ports : Ports) (blobs : Blobs) (now : Timestamp)
    (db : Db) (id : Id) :
    Grown db (ReplayCorpus.normalizeOne ports blobs now db id).1 := by
  unfold ReplayCorpus.normalizeOne
  split
  case h_1 => exact .refl db
  case h_2 hr => exact normalize hr

theorem embedOne (ports : Ports) (now : Timestamp) (db : Db) (id : Id) :
    Grown db (ReplayCorpus.embedOne ports now db id).1 := by
  unfold ReplayCorpus.embedOne
  split
  case h_1 => exact .refl db
  case h_2 hr => exact embed hr

theorem rebuildEvent {e : IngestionEvent} (hsource : db.Keyed e.sourceId)
    (ports : Ports) (blobs : Blobs) (purged : List Item) (now : Timestamp) :
    Grown db (ReplayCorpus.rebuildEvent ports blobs purged now db e).1 := by
  unfold ReplayCorpus.rebuildEvent
  split
  case isTrue => exact .refl db
  case isFalse =>
    cases e.eventType with
    | artifactObserved =>
      simp only
      split
      case h_1 => exact .refl db
      case h_2 m hm =>
        have hrow : m.id = db.nextId ∧ m.sourceId = e.sourceId := by
          unfold memoryFromEvent at hm
          obtain ⟨hash, -, rfl⟩ := Option.map_eq_some_iff.mp hm
          exact ⟨rfl, rfl⟩
        have hadded := addVersion hrow.1 (hrow.2 ▸ hsource)
        refine hadded.trans (andThen (normalizeOne ports blobs now _ _) ?_)
        exact fun db₂ _ => embedOne ports now db₂ _
    | itemDeleted =>
      simp only
      split
      case h_1 => exact .refl db
      case h_2 => exact tombstoneRow _ _
    | itemPurged => exact .refl db

theorem rewrite (hlogged : ∀ e ∈ db.events,
      ∃ s ∈ db.sources, s.id = e.sourceId)
    (ports : Ports) (blobs : Blobs) (scope : ReplayScope)
    (sourceId : Option Id) (now : Timestamp) :
    Grown db (ReplayCorpus.rewrite ports blobs scope sourceId now db).1 := by
  unfold ReplayCorpus.rewrite
  split
  case isTrue =>
    refine forEach fun db₁ hg e he => rebuildEvent ?_ _ _ _ _
    obtain ⟨s, hs, hid⟩ := hlogged e (List.mem_of_mem_filter he)
    rw [← hg.sources] at hs
    exact hid ▸ .source hs
  case isFalse =>
    refine andThen ?_ fun db₁ _ =>
      forEach fun db₂ _ id _ => embedOne ports now db₂ id
    split
    case isTrue => exact forEach fun db₁ _ id _ => normalizeOne _ _ _ db₁ id
    case isFalse => exact .refl db

theorem deleteJobs (sourceId : Option Id) :
    Grown db (ReplayCorpus.deleteJobs sourceId db) :=
  written db.artifacts db.embeddingCache (Nat.le_refl _) (Nat.le_refl _)
    (fun x hx => .inl ⟨x, hx, rfl, rfl⟩) (fun x hx => .inl ⟨x, hx, rfl, rfl⟩)
    (fun _ hx => .inl (List.mem_of_mem_filter hx)) fun _ hx => .inl hx

theorem clear {scope : ReplayScope} {sourceId : Option Id}
    (hpart : ¬ (scope.stage = .all ∧ sourceId = none)) (clearCache : Bool) :
    Grown db (ReplayCorpus.clear scope sourceId clearCache db) := by
  have hjobs : Grown db (if scope.rechunks then
      ReplayCorpus.deleteJobs sourceId db else db) := by
    split
    case isTrue => exact deleteJobs sourceId
    case isFalse => exact .refl db
  have hcache : ∀ db₁, Grown db db₁ →
      Grown db (if clearCache then { db₁ with embeddingCache := [] } else db₁) := by
    intro db₁ hg
    split
    case isTrue =>
      exact hg.trans (chunks [] (Nat.le_refl _) fun x hx => .inl ⟨x, hx, rfl, rfl⟩)
    case isFalse => exact hg
  unfold ReplayCorpus.clear
  rw [if_neg hpart]
  clear hpart
  refine hcache _ (hjobs.trans ?_)
  generalize (if scope.rechunks then
    ReplayCorpus.deleteJobs sourceId db else db) = db₁
  cases scope.stage with
  | embed =>
    refine chunks _ (Nat.le_refl _) fun x hx => ?_
    obtain ⟨y, hy, rfl⟩ := List.mem_map.mp hx
    refine .inl ⟨y, hy, ?_⟩
    split
    case isTrue => exact ⟨rfl, rfl⟩
    case isFalse => exact ⟨rfl, rfl⟩
  | normalize => exact deleteChunks _
  | all => exact (deleteChunks _).trans (deleteMemories _)

end Grown

end Accounts

end MemoryOS

namespace MemoryOS

-- ====== statement vocabulary

namespace Vault

open Accounts

/-- The database in full, with the blobs. -/
def store (s : Vault) : Store := ⟨s.accounts.db, s.blobs⟩

/-- What an account takes for the whole store. -/
def storeOf (s : Vault) (u : UserId) : Store := ⟨s.accounts.view u, s.blobs⟩

/-- A step deletes no bytes that a memory of any account or an attachment
still needs, and changes no row of another account. -/
def Held (s : Vault) (op : Op) : Prop :=
  Deletion.Spared s.store (s.step op).store
    ∧ ∀ v, v ≠ op.user → Same s.accounts (s.step op).accounts v

/-- A purge that gets to all of its items comes to delete these bytes: they
are a purged version's, and nothing that is left in sight needs them. -/
def Doomed (raises : ContentHash → Bool) (s : Store) (items : List Item)
    (hash : ContentHash) : Prop :=
  s.blobs.holds hash = true ∧ Deletion.reached s.db.memories items = items
    ∧ (∃ m ∈ s.db.memories, m.item ∈ items ∧ m.contentHash = hash)
    ∧ Deletion.survives s.db items hash = false ∧ raises hash = false

/-- No memory of another account has content that the purge comes to
delete. -/
def Unshared (s : Vault) : Op → Prop
  | .ingest _ _ _ _ => True
  | .purge u raises items => ∀ hash,
      Doomed raises (s.storeOf u) (items.map (·.1)) hash →
        ∀ m ∈ s.accounts.db.memories, m.contentHash = hash →
          s.accounts.userOf m.id = u

/-- Operations, one after another. -/
def machine : Lib.Machine Vault Op Unit where
  step s op := some (s.step op, [])

end Vault

namespace Accounts

variable {w : Accounts} {u v : UserId}

-- ====== the other rows

theorem filter_filter_keep {α : Type} {p q : α → Bool} {l : List α}
    (h : ∀ x ∈ l, p x = true → q x = true) :
    (l.filter q).filter p = l.filter p := by
  rw [List.filter_filter]
  refine List.filter_congr fun x hx => ?_
  rw [Bool.eq_iff_iff, Bool.and_eq_true]
  exact and_iff_left_of_imp (h x hx)

theorem Apart.purgeOne_sameHung (hw : Apart w) (hv : v ≠ u) {i : Item}
    {now : Timestamp} {r : Db × List ContentHash}
    (hp : Deletion.purgeOne (w.view u) i now = .ok r) : SameHung w v r.1 := by
  unfold Deletion.purgeOne at hp
  simp only at hp
  split at hp
  case isTrue => cases hp
  case isFalse hsome =>
    cases hp
    -- the item's source is the account's, as its versions are
    rw [List.isEmpty_iff] at hsome
    obtain ⟨m, hm⟩ := List.exists_mem_of_ne_nil _ hsome
    unfold Deletion.versionsOf at hm
    obtain ⟨hm, hitem⟩ := List.mem_filter.mp hm
    have hsource : w.userOf i.sourceId = u := by
      rw [← of_decide_eq_true hitem]
      have hrefers := (hw.refers _ _ (fewer_view.refers (.memory hm))).2
      exact hrefers.symm.trans (keyed_view (.memory hm)).1
    constructor
    case merges => rfl
    case tags =>
      refine filter_filter_keep fun t _ ht => decide_eq_true fun hboth => ?_
      rw [decide_eq_true_eq, hboth.1, hsource] at ht
      exact hv ht.symm
    case attachments =>
      refine filter_filter_keep fun a _ ha => decide_eq_true fun hgone => ?_
      obtain ⟨x, hx, hid⟩ := List.mem_map.mp hgone
      have hu := (keyed_view (w := w) (u := u)
        (.turn (List.mem_of_mem_filter hx))).1
      rw [decide_eq_true_eq, ← hid, hu] at ha
      exact hv ha.symm
    case evidence =>
      refine (filter_filter_keep fun e he hown => ?_).trans
        (filter_filter_keep fun e he hown => ?_)
      · refine decide_eq_true fun hgone => ?_
        obtain ⟨x, hx, hid⟩ := List.mem_map.mp hgone
        have hu := (keyed_view (w := w) (u := u)
          (.memory (List.mem_of_mem_filter hx))).1
        have hsame := (hw.refers _ _ (.evidence (List.mem_of_mem_filter he))).2
        rw [decide_eq_true_eq, hsame, ← hid, hu] at hown
        exact hv hown.symm
      · cases hc : e.chunkId with
        | none => rfl
        | some c =>
          refine decide_eq_true fun hgone => ?_
          obtain ⟨x, hx, hid⟩ := List.mem_map.mp hgone
          have hu := (keyed_view (w := w) (u := u)
            (.chunk (List.mem_of_mem_filter hx))).1
          have hsame := (hw.refers _ _ (.evidenceChunk he hc)).2
          rw [decide_eq_true_eq, hsame, ← hid, hu] at hown
          exact hv hown.symm

theorem recordVersion_hung (db : Db) (sourceId : Id) (item : ObservedItem)
    (now : Timestamp) :
    (recordVersion db sourceId item now).1.merges = db.merges
      ∧ (recordVersion db sourceId item now).1.evidence = db.evidence
      ∧ (recordVersion db sourceId item now).1.tags = db.tags
      ∧ (recordVersion db sourceId item now).1.chatAttachments
        = db.chatAttachments := by
  have hadd : ∀ (db : Db) (m : Memory),
      (addVersion db m).merges = db.merges
        ∧ (addVersion db m).evidence = db.evidence
        ∧ (addVersion db m).tags = db.tags
        ∧ (addVersion db m).chatAttachments = db.chatAttachments := by
    intro db m
    unfold addVersion
    split
    case h_1 => exact ⟨rfl, rfl, rfl, rfl⟩
    case h_2 => exact ⟨rfl, rfl, rfl, rfl⟩
  exact hadd _ _

theorem ingestItem_sameHung {blobs : Blobs} {sourceId : Id}
    {item : ObservedItem} {now : Timestamp} {r : Store × Option Ingested}
    (hin : ingestItem ⟨w.view u, blobs⟩ sourceId item now = .ok r) :
    SameHung w v r.1.db := by
  obtain ⟨s', out⟩ := r
  rcases ingestItem_cases hin with ⟨-, rfl, -⟩ | ⟨-, as, blobs, -, rfl, -⟩
  · exact ⟨rfl, rfl, rfl, rfl⟩
  · obtain ⟨hmerges, hevidence, htags, hattachments⟩ :=
      recordVersion_hung { w.view u with artifacts := as } sourceId item now
    exact ⟨congrArg _ hmerges, congrArg _ hevidence, congrArg _ htags,
      congrArg _ hattachments⟩

end Accounts

-- ======= the vault

namespace Vault

open Accounts

variable {w : Accounts} {u v : UserId} {s : Vault} {hash : ContentHash}
  {raises : ContentHash → Bool} {items : List (Item × Timestamp)}

theorem purgeLoop_spec (hw : Apart w) (items : List (Item × Timestamp)) :
    Apart (purgeLoop u w items).1
      ∧ (purgeLoop u w items).1.view u
        = (Deletion.purgeLoop (w.view u) items).1
      ∧ (purgeLoop u w items).2 = (Deletion.purgeLoop (w.view u) items).2
      ∧ ∀ v, v ≠ u → Same w (purgeLoop u w items).1 v := by
  induction items generalizing w with
  | nil => exact ⟨hw, rfl, rfl, fun v _ => .refl w v⟩
  | cons x rest ih =>
    obtain ⟨i, now⟩ := x
    unfold purgeLoop Deletion.purgeLoop
    cases hp : Deletion.purgeOne (w.view u) i now with
    | error e => exact ⟨hw, rfl, rfl, fun v _ => .refl w v⟩
    | ok r =>
      obtain ⟨left, hashes⟩ := r
      have hg : Grown (w.view u) left := .purgeOne hp
      obtain ⟨hapart, hview, hout, hown⟩ := ih (hg.apart hw)
      rw [hg.view_commit hw] at hview hout
      refine ⟨hapart, hview, ?_, fun v hv => ?_⟩
      · simp only [hout]
      · exact (hg.same hw hv (hw.purgeOne_sameHung hv hp)).trans (hown v hv)

theorem purge_spec (hs : Apart s.accounts) (u : UserId)
    (raises : ContentHash → Bool) (items : List (Item × Timestamp)) :
    Apart (s.purge u raises items).accounts
      ∧ (s.purge u raises items).accounts.view u
        = (Deletion.purgeCall raises (s.storeOf u) items).1.db
      ∧ (s.purge u raises items).blobs
        = (Deletion.purgeCall raises (s.storeOf u) items).1.blobs
      ∧ ∀ v, v ≠ u → Same s.accounts (s.purge u raises items).accounts v := by
  obtain ⟨hapart, hview, hout, hown⟩ := purgeLoop_spec hs (u := u) items
  unfold purge Deletion.purgeCall
  simp only [hout, hview]
  unfold storeOf
  split
  case isTrue => exact ⟨hapart, hview, rfl, hown⟩
  case isFalse => exact ⟨hapart, hview, rfl, hown⟩

theorem ingest_spec (hs : Apart s.accounts) (u : UserId) (sourceId : Id)
    (item : ObservedItem) (now : Timestamp) :
    Apart (s.ingest u sourceId item now).accounts
      ∧ (∀ h, s.blobs.holds h = true →
        (s.ingest u sourceId item now).blobs.holds h = true)
      ∧ ∀ v, v ≠ u →
        Same s.accounts (s.ingest u sourceId item now).accounts v := by
  unfold ingest
  split
  case isFalse => exact ⟨hs, fun _ h => h, fun v _ => .refl _ v⟩
  case isTrue hsees =>
    split
    case h_1 => exact ⟨hs, fun _ h => h, fun v _ => .refl _ v⟩
    case h_2 r hin =>
      rw [List.any_eq_true] at hsees
      obtain ⟨source, hsource, hid⟩ := hsees
      rw [← of_decide_eq_true hid] at hin
      have hg : Grown (s.accounts.view u) r.1.db := .ingestItem hsource hin
      refine ⟨hg.apart hs, fun h hh => ?_, fun v hv => ?_⟩
      · obtain ⟨s', out⟩ := r
        rcases ingestItem_cases hin with ⟨-, rfl, -⟩ | ⟨-, as, blobs, hb, rfl, -⟩
        · exact hh
        · rcases hb with rfl | ⟨data, rfl⟩
          · exact hh
          · exact Blobs.holds_put.mpr (.inl hh)
      · exact hg.same hs hv (ingestItem_sameHung hin)

-- ======= the bytes

theorem mem_own {m : Memory} : m ∈ (w.own v).memories
    ↔ m ∈ w.db.memories ∧ w.userOf m.id = v := by
  unfold own view
  rw [List.mem_filter, decide_eq_true_eq]

theorem stillReferenced_iff (w : Accounts) (u : UserId) (hash : ContentHash) :
    Deletion.stillReferenced w.db hash = true
      ↔ Deletion.stillReferenced (w.view u) hash = true
        ∨ ∃ v, v ≠ u ∧ ∃ m ∈ (w.own v).memories, m.contentHash = hash := by
  unfold Deletion.stillReferenced
  simp only [Bool.or_eq_true, List.any_eq_true, decide_eq_true_eq]
  constructor
  · rintro (⟨m, hm, hh⟩ | hatt)
    · by_cases hu : w.userOf m.id = u
      · exact .inl (.inl ⟨m, List.mem_filter.mpr ⟨hm, decide_eq_true hu⟩, hh⟩)
      · exact .inr ⟨w.userOf m.id, hu, m, mem_own.mpr ⟨hm, rfl⟩, hh⟩
    · exact .inl (.inr hatt)
  · rintro ((⟨m, hm, hh⟩ | hatt) | ⟨v, -, m, hm, hh⟩)
    · exact .inl ⟨m, List.mem_of_mem_filter hm, hh⟩
    · exact .inr hatt
    · exact .inl ⟨m, (mem_own.mp hm).1, hh⟩

theorem doomed_iff {s : Store} (hholds : s.blobs.holds hash = true) :
    (Deletion.purgeCall raises s items).1.blobs.holds hash = false
      ↔ Doomed raises s (items.map (·.1)) hash := by
  obtain ⟨-, -, hended, hhashes⟩ := Deletion.purgeLoop_inv s.db items
  rw [← Bool.not_eq_true, Deletion.purgeCall_holds, and_iff_right hholds,
    not_not, Deletion.stillReferenced_purgeLoop, hended]
  unfold Doomed
  rw [and_iff_right hholds]
  refine and_congr_right fun hall => ?_
  rw [hhashes (hended.mpr hall), hall]

theorem held_iff (hs : Apart s.accounts) (op : Op) :
    Held s op ↔ Unshared s op := by
  cases op with
  | ingest u sourceId item now =>
    obtain ⟨-, hblobs, hown⟩ := ingest_spec hs u sourceId item now
    exact iff_of_true ⟨fun h hh _ => hblobs h hh, hown⟩ trivial
  | purge u raises items =>
    obtain ⟨-, hview, hblobs, hown⟩ := purge_spec hs u raises items
    have hneeded := stillReferenced_iff (s.purge u raises items).accounts u
    refine (and_iff_left hown).trans ?_
    show Deletion.Spared s.store (s.purge u raises items).store ↔ ∀ hash, _
    constructor
    · intro hspared hash hdoomed m hm hh
      by_contra hu
      have href := (hneeded hash).mpr (.inr ⟨s.accounts.userOf m.id, hu, m,
        (hown _ hu).own.symm ▸ mem_own.mpr ⟨hm, rfl⟩, hh⟩)
      have hkept := hspared hash hdoomed.1 href
      rw [show (s.purge u raises items).store.blobs = _ from hblobs,
        (doomed_iff hdoomed.1).mpr hdoomed] at hkept
      cases hkept
    · intro hunshared hash hholds href
      by_contra hgone
      rw [Bool.not_eq_true,
        show (s.purge u raises items).store.blobs = _ from hblobs]
        at hgone
      have hdoomed := (doomed_iff (s := s.storeOf u) hholds).mp hgone
      rcases (hneeded hash).mp href with hseen | ⟨v, hv, m, hm, hh⟩
      · -- what the account sees does not need them
        rw [hview, Deletion.purgeCall_db, Deletion.stillReferenced_purgeLoop,
          hdoomed.2.1, hdoomed.2.2.2.1] at hseen
        cases hseen
      · rw [(hown v hv).own] at hm
        obtain ⟨hm, hmv⟩ := mem_own.mp hm
        exact hv (hmv.symm.trans (hunshared hash hdoomed m hm hh))

theorem step_apart (s : Vault) (op : Op) (s' : Vault) (es : List Unit)
    (hs : Apart s.accounts) (hstep : machine.step s op = some (s', es)) :
    Apart s'.accounts := by
  cases hstep
  cases op with
  | ingest u sourceId item now => exact (ingest_spec hs u sourceId item now).1
  | purge u raises items => exact (purge_spec hs u raises items).1

/-- Of accounts that share a blob store, every operation keeps to its own
account and deletes no bytes that are needed, exactly when no purge deletes
content of another account's memory. -/
theorem purges_apart_iff (s : Vault) (hs : Apart s.accounts) (ops : List Op) :
    machine.EveryStep Held s ops ↔ machine.EveryStep Unshared s ops :=
  Lib.Machine.everyStep_congr (fun s => Apart s.accounts) step_apart
    (fun _ op hs => held_iff hs op) hs

-- ------ two accounts, one note

/-- Two accounts with a folder each. -/
def twoAccounts : Vault where
  accounts := {
    db := { sources := [⟨1, .filesystem, "notes"⟩, ⟨2, .filesystem, "notes"⟩]
            nextId := 3 }
    userOf := id
    userOfEvent := fun _ => 0 }

theorem twoAccounts_apart : Apart twoAccounts.accounts where
  keyed i hi := by
    cases hi with
    | source hx =>
      rcases List.mem_pair.mp hx with rfl | rfl
      · decide
      · decide
    | memory hx => exact absurd hx List.not_mem_nil
    | chunk hx => exact absurd hx List.not_mem_nil
    | entity hx => exact absurd hx List.not_mem_nil
    | mention hx => exact absurd hx List.not_mem_nil
    | relationship hx => exact absurd hx List.not_mem_nil
    | session hx => exact absurd hx List.not_mem_nil
    | turn hx => exact absurd hx List.not_mem_nil
    | job hx => exact absurd hx List.not_mem_nil
  hung i hi := by
    cases hi with
    | merge hx => exact absurd hx List.not_mem_nil
    | evidence hx => exact absurd hx List.not_mem_nil
    | tag hx => exact absurd hx List.not_mem_nil
    | attachment hx => exact absurd hx List.not_mem_nil
  seqs e he := absurd he List.not_mem_nil
  refers i j h := by
    cases h with
    | memory hx => exact absurd hx List.not_mem_nil
    | chunk hx => exact absurd hx List.not_mem_nil
    | mention hx => exact absurd hx List.not_mem_nil
    | mentionChunk hx => exact absurd hx List.not_mem_nil
    | relationship hx => exact absurd hx List.not_mem_nil
    | relationshipChunk hx => exact absurd hx List.not_mem_nil
    | evidence hx => exact absurd hx List.not_mem_nil
    | evidenceChunk hx _ => exact absurd hx List.not_mem_nil
    | turn hx _ => exact absurd hx List.not_mem_nil
  keys k hk := absurd hk List.not_mem_nil

/-- Each keeps the same note, and the first deletes its own. -/
def oneNoteTwice : List Op := [
  .ingest 1 1 (Live.note "a.md" "h1" [104, 105]) 1,
  .ingest 2 2 (Live.note "a.md" "h1" [104, 105]) 2,
  .purge 1 (fun _ => false) [(⟨1, "a.md"⟩, 3)]]

/-- The exact form, for the two accounts. -/
theorem purges_apart_iff_twoAccounts :
    machine.EveryStep Held twoAccounts oneNoteTwice
      ↔ machine.EveryStep Unshared twoAccounts oneNoteTwice :=
  purges_apart_iff twoAccounts twoAccounts_apart oneNoteTwice

/-- The second account's note has no bytes any more. -/
theorem not_purges_apart : ¬ ∀ (s : Vault), Apart s.accounts →
    ∀ ops : List Op, machine.EveryStep Held s ops := by
  intro hclaim
  have hheld := ((((hclaim twoAccounts twoAccounts_apart oneNoteTwice _ _
    rfl).2 _ _ rfl).2 _ _ rfl).1).1
  exact absurd (hheld "h1" (by decide +kernel) (by decide +kernel))
    (by decide +kernel)

end Vault

end MemoryOS
