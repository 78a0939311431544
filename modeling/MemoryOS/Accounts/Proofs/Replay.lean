/-
What one account's replay does to the others.

Three of its steps reach further than the log it reads: the evidence
tables are emptied for everybody and written back to the memories the
account sees; `TRUNCATE` empties the derived tables of everybody; the swap
replaces them. `replay_apart_iff` says when no other account notices: when
none has evidence, and none has derived rows if tables are emptied whole.
-/
import MemoryOS.Accounts.Proofs.Purge
import MemoryOS.Replay.Proofs.Cleared
import MemoryOS.Replay.Proofs.Evidence

namespace MemoryOS.Accounts

-- ====== statement vocabulary

/-- What the derived tables hold of an account. -/
@[ext] structure Derived where
  memories : List Memory := []
  chunks : List MemoryChunk := []
  mentions : List EntityMention := []
  relationships : List EntityRelationship := []
  entities : List Entity := []
  merges : List EntityMerge := []
  keys : List MemoryKey := []

/-- Of `v`. -/
def derived (w : Accounts) (v : UserId) : Derived where
  memories := (w.own v).memories
  chunks := (w.own v).chunks
  mentions := (w.own v).mentions
  relationships := (w.own v).relationships
  entities := (w.own v).entities
  merges := (w.own v).merges
  keys := w.ownKeys v

/-- Every other account's derived rows and evidence are what they were. -/
def OthersKept (w w' : Accounts) (u : UserId) : Prop :=
  ∀ v, v ≠ u →
    w'.derived v = w.derived v ∧ (w'.own v).evidence = (w.own v).evidence

/-- Every event is about a source of its account. -/
def Logged (w : Accounts) : Prop :=
  ∀ e ∈ w.db.events, ∃ s ∈ w.db.sources,
    s.id = e.sourceId ∧ w.userOf s.id = w.userOfEvent e.seq

/-- The replay gets to empty or replace whole tables: in place, once its
bytes are found to be there; through a workspace, once the log has been
rebuilt in it. -/
def EmptiesTables (w : Accounts) (u : UserId) (ports : Ports) (blobs : Blobs)
    (request : ReplayRequest) (now : Timestamp) : Prop :=
  request.scope.stage = .all ∧ request.scope.sourceName = none
    ∧ ReplayCorpus.preflightBlobs blobs (w.view u) request.scope none = true
    ∧ (request.intoShadow = true → request.scope.afterSeq = 0
      ∧ (ReplayCorpus.rewrite ports blobs request.scope none now
        (ReplayCorpus.truncateDerived request.clearCache (w.view u))).2 = none)

variable {w : Accounts} {u v : UserId} {left db : Db} {ports : Ports}
  {blobs : Blobs} {request : ReplayRequest} {scope : ReplayScope}
  {now : Timestamp}

-- ====== one commit

theorem Apart.derived_commit (hw : Apart w)
    (hkeyed : ∀ i, left.Keyed i → Known (w.view u) left.nextId i)
    (hmerges : left.merges = w.db.merges) (hv : v ≠ u) :
    (w.commit u left).derived v = w.derived v := by
  have hmerge : ((w.commit u left).own v).merges = (w.own v).merges := by
    show left.merges.filter _ = w.db.merges.filter _
    rw [hmerges]
    refine List.filter_congr fun x hx => ?_
    rw [commit_userOf_old (hw.hung _ (.merge hx))]
  refine Derived.ext ?memories ?chunks ?mentions ?relationships ?entities
    hmerge (hw.ownKeys_commit hv)
  case memories =>
    exact hw.rows_other hkeyed hv Memory.id (fun _ => .memory) (fun _ => .memory)
  case chunks =>
    refine (congrArg _ hw.commit_chunks).trans ?_
    exact hw.rows_other hkeyed hv MemoryChunk.id (fun _ => .chunk)
      (fun _ => .chunk)
  case mentions =>
    refine (congrArg _ hw.commit_mentions).trans ?_
    exact hw.rows_other hkeyed hv EntityMention.id (fun _ => .mention)
      (fun _ => .mention)
  case relationships =>
    refine (congrArg _ hw.commit_relationships).trans ?_
    exact hw.rows_other hkeyed hv EntityRelationship.id
      (fun _ => .relationship) (fun _ => .relationship)
  case entities =>
    exact hw.rows_other hkeyed hv Entity.id (fun _ => .entity) (fun _ => .entity)

/-- What a stage leaves: the accounts apart, and the others' derived rows
as they were. Its writer's is what it wrote. -/
structure Stage (u : UserId) (w w' : Accounts) : Prop where
  apart : Apart w'
  derived : ∀ v, v ≠ u → w'.derived v = w.derived v
  userOf : ∀ i, i < w.db.nextId → w'.userOf i = w.userOf i
  nextId : w.db.nextId ≤ w'.db.nextId
  evidence : w.db.evidence = [] → w'.db.evidence = []

theorem Grown.stage (hw : Apart w) (hg : Grown (w.view u) left) :
    Stage u w (w.commit u left) where
  apart := hg.apart hw
  derived _ hv := hw.derived_commit hg.keyed hg.merges hv
  userOf _ hi := commit_userOf_old hi
  nextId := hg.nextId
  evidence hnone := by
    rw [hw.commit_evidence]
    exact List.eq_nil_of_subset_nil (hnone ▸ hg.evidence)

theorem Stage.trans {w₁ w₂ : Accounts} (h₁ : Stage u w w₁)
    (h₂ : Stage u w₁ w₂) : Stage u w w₂ where
  apart := h₂.apart
  derived v hv := (h₂.derived v hv).trans (h₁.derived v hv)
  userOf i hi :=
    (h₂.userOf i (Nat.lt_of_lt_of_le hi h₁.nextId)).trans (h₁.userOf i hi)
  nextId := Nat.le_trans h₁.nextId h₂.nextId
  evidence hnone := h₂.evidence (h₁.evidence hnone)

-- ======== clearing

theorem Apart.truncate (hw : Apart w) (clearCache : Bool) :
    Apart (w.truncate clearCache) := by
  have hfewer : (w.truncate clearCache).db.Fewer w.db :=
    { Db.Fewer.refl w.db with
      memories := List.nil_subset _
      chunks := List.nil_subset _
      entities := List.nil_subset _
      mentions := List.nil_subset _
      relationships := List.nil_subset _
      jobs := List.nil_subset _
      merges := List.nil_subset _
      evidence := List.nil_subset _ }
  exact {
    keyed := fun i hi => hw.keyed i (hfewer.keyed hi)
    hung := fun i hi => hw.hung i (hfewer.hung hi)
    seqs := hw.seqs
    refers := fun i j h => hw.refers i j (hfewer.refers h)
    keys := fun k hk => absurd hk List.not_mem_nil }

theorem view_truncate (clearCache : Bool) (u : UserId) :
    (w.truncate clearCache).view u
      = ReplayCorpus.truncateDerived clearCache (w.view u) := rfl

theorem Logged.view (hlogged : Logged w) (u : UserId) :
    ∀ e ∈ (w.view u).events, ∃ s ∈ (w.view u).sources, s.id = e.sourceId := by
  intro e he
  obtain ⟨he, hu⟩ := List.mem_filter.mp he
  obtain ⟨s, hs, hid, hsame⟩ := hlogged e he
  refine ⟨s, List.mem_filter.mpr ⟨hs, decide_eq_true ?_⟩, hid⟩
  exact hsame.trans (of_decide_eq_true hu)

theorem Apart.rewrite_stage (hw : Apart w) (u : UserId)
    (hlogged : ∀ e ∈ (w.view u).events,
      ∃ s ∈ (w.view u).sources, s.id = e.sourceId)
    (ports : Ports) (blobs : Blobs) (scope : ReplayScope)
    (sourceId : Option Id) (now : Timestamp) :
    Stage u w (w.rewrite u ports blobs scope sourceId now).1 :=
  (Grown.rewrite hlogged ports blobs scope sourceId now).stage hw

/-- The attempt keeps the others' derived rows, or empties them with the
tables. -/
structure Attempted (u : UserId) (w w' : Accounts) (empties : Prop) : Prop where
  apart : Apart w'
  derived : ∀ v, v ≠ u →
    (empties → w'.derived v = {}) ∧ (¬ empties → w'.derived v = w.derived v)
  userOf : ∀ i, i < w.db.nextId → w'.userOf i = w.userOf i
  nextId : w.db.nextId ≤ w'.db.nextId
  evidence : w.db.evidence = [] → w'.db.evidence = []

theorem Stage.attempted {w' : Accounts} (h : Stage u w w') {empties : Prop}
    (hno : ¬ empties) : Attempted u w w' empties :=
  ⟨h.apart, fun v hv => ⟨fun h => absurd h hno, fun _ => h.derived v hv⟩,
    h.userOf, h.nextId, h.evidence⟩

theorem Stage.refl (hw : Apart w) : Stage u w w :=
  ⟨hw, fun _ _ => rfl, fun _ _ => rfl, Nat.le_refl _, fun h => h⟩

theorem Stage.emptied {w' : Accounts} {clearCache : Bool}
    (h : Stage u (w.truncate clearCache) w') {empties : Prop}
    (hyes : empties) : Attempted u w w' empties :=
  ⟨h.apart, fun v hv => ⟨fun _ => h.derived v hv, fun hno => absurd hyes hno⟩,
    h.userOf, h.nextId, fun _ => h.evidence rfl⟩

theorem resolveSource_none {name : Option String}
    (h : ReplayCorpus.resolveSource db name = .ok none) : name = none := by
  unfold ReplayCorpus.resolveSource at h
  cases name with
  | none => rfl
  | some n =>
    simp only at h
    split at h
    case h_1 => cases h
    case h_2 => cases h
    case h_3 => cases h

theorem inPlace_attempted (hw : Apart w) (hlogged : Logged w)
    (hplace : request.intoShadow = false) :
    Attempted u w
      (w.inPlace u ports blobs request.scope request.clearCache now).1
      (EmptiesTables w u ports blobs request now) := by
  unfold inPlace
  cases hsource : ReplayCorpus.resolveSource (w.view u)
      request.scope.sourceName with
  | error e =>
    refine (Stage.refl hw).attempted fun hyes => ?_
    rw [hyes.2.1] at hsource
    cases hsource
  | ok sourceId =>
    -- a scope of every source is one without a name
    have hwhole : EmptiesTables w u ports blobs request now →
        request.scope.stage = .all ∧ sourceId = none := by
      intro hyes
      rw [hyes.2.1] at hsource
      cases hsource
      exact ⟨hyes.1, rfl⟩
    simp only
    split
    case isTrue hmissing =>
      refine (Stage.refl hw).attempted fun hyes => ?_
      obtain ⟨-, rfl⟩ := hwhole hyes
      rw [hyes.2.2.1, Bool.not_true, Bool.and_false] at hmissing
      cases hmissing
    case isFalse hthere =>
      unfold clear
      split
      case isTrue hall =>
        obtain ⟨hstage, rfl⟩ := hall
        refine Stage.emptied ((hw.truncate _).rewrite_stage u (hlogged.view u)
          ports blobs request.scope none now) ?_
        refine ⟨hstage, resolveSource_none hsource, ?_, fun h => ?_⟩
        · unfold ReplayScope.rebuildsMemories at hthere
          rw [hstage] at hthere
          simpa using hthere
        · rw [hplace] at h
          cases h
      case isFalse hpart =>
        have hg := @Grown.clear (w.view u) _ _ hpart request.clearCache
        have hcleared := hg.stage hw
        refine (hcleared.trans ?_).attempted fun hyes => hpart (hwhole hyes)
        refine hcleared.apart.rewrite_stage u ?_ ports blobs request.scope
          sourceId now
        rw [hg.view_commit hw, hg.sources, ReplayCorpus.clear_events]
        exact hlogged.view u

theorem Apart.minted (hw : Apart w) {next : Nat} (hnext : w.db.nextId ≤ next)
    (cache : List EmbeddingCacheEntry) :
    Apart { w with db := { w.db with
      embeddingCache := cache, nextId := next } } := by
  have hfewer : Db.Fewer { w.db with
      embeddingCache := cache, nextId := next } w.db :=
    { Db.Fewer.refl w.db with sources := List.Subset.refl _ }
  exact {
    keyed := fun i hi => Nat.lt_of_lt_of_le (hw.keyed i (hfewer.keyed hi)) hnext
    hung := fun i hi => Nat.lt_of_lt_of_le (hw.hung i (hfewer.hung hi)) hnext
    seqs := hw.seqs
    refers := fun i j h => (hw.refers i j (hfewer.refers h)).imp_left fun hj =>
      Nat.lt_of_lt_of_le hj hnext
    keys := fun k hk => Nat.lt_of_lt_of_le (hw.keys k hk) hnext }

theorem intoShadow_attempted (hw : Apart w) (hlogged : Logged w)
    (hshadow : request.intoShadow = true) :
    Attempted u w
      (w.intoShadow u ports blobs request.scope request.clearCache now).1
      (EmptiesTables w u ports blobs request now) := by
  unfold intoShadow
  split
  case isTrue hpartial =>
    refine (Stage.refl hw).attempted fun ⟨hstage, hname, _, hrebuilt⟩ => ?_
    unfold ReplayScope.isComplete at hpartial
    rw [hstage, hname, (hrebuilt hshadow).1] at hpartial
    cases hpartial
  case isFalse hcomplete =>
    have hscope : request.scope.stage = .all
        ∧ request.scope.sourceName = none ∧ request.scope.afterSeq = 0 := by
      unfold ReplayScope.isComplete at hcomplete
      simpa [and_assoc] using hcomplete
    split
    case isTrue hmissing =>
      refine (Stage.refl hw).attempted fun hyes => ?_
      rw [hyes.2.2.1] at hmissing
      cases hmissing
    case isFalse hthere =>
      have hstage := (hw.truncate request.clearCache).rewrite_stage u
        (hlogged.view u) ports blobs request.scope none now
      have hview := view_truncate (w := w) request.clearCache u
      cases hended : (ReplayCorpus.rewrite ports blobs request.scope none now
          ((w.truncate request.clearCache).view u)).2 with
      | none =>
        unfold rewrite
        simp only [hended]
        refine hstage.emptied ⟨hscope.1, hscope.2.1, ?_, fun _ =>
          ⟨hscope.2.2, hview ▸ hended⟩⟩
        simpa using hthere
      | some e =>
        unfold rewrite
        simp only [hended]
        have hnext : w.db.nextId ≤ _ := hstage.nextId
        constructor
        case apart => exact hw.minted hnext _
        case derived =>
          refine fun v hv => ⟨fun hyes => ?_, fun _ => rfl⟩
          rw [view_truncate, (hyes.2.2.2 hshadow).2] at hended
          cases hended
        case userOf => exact fun _ _ => rfl
        case nextId => exact hnext
        case evidence => exact fun h => h

theorem attempt_attempted (hw : Apart w) (hlogged : Logged w) :
    Attempted u w (w.attempt u ports blobs request now).1
      (EmptiesTables w u ports blobs request now) := by
  unfold attempt
  split
  case isTrue hshadow => exact intoShadow_attempted hw hlogged hshadow
  case isFalse hplace =>
    exact inPlace_attempted hw hlogged (Bool.eq_false_iff.mpr hplace)

-- ======== evidence

theorem relink_memory {link : EvidenceLink} {memoryId : Id}
    {chunkId : Option Id}
    (h : ReplayCorpus.relink db link = some (memoryId, chunkId)) :
    ∃ m ∈ db.memories, m.id = memoryId := by
  unfold ReplayCorpus.relink at h
  split at h
  case h_1 => cases h
  case h_2 id hid =>
    unfold ReplayCorpus.memoryOf at hid
    obtain ⟨m, hlast, rfl⟩ := Option.map_eq_some_iff.mp hid
    have hm := List.mem_of_mem_filter (List.mem_of_getLast? hlast)
    split at h
    case h_1 =>
      cases h
      exact ⟨m, hm, rfl⟩
    case h_2 =>
      split at h
      case h_1 => cases h
      case h_2 =>
        cases h
        exact ⟨m, hm, rfl⟩

theorem restoreLoop_rows {links : List EvidenceLink} {n : Nat} {r : Db × Nat}
    (h : ReplayCorpus.restoreLoop db links n = .ok r) :
    ∃ rows, r.1 = { db with
        evidence := db.evidence ++ rows, nextId := r.1.nextId }
      ∧ db.nextId ≤ r.1.nextId
      ∧ ∀ e ∈ rows, (∃ m ∈ db.memories, m.id = e.memoryId)
        ∧ ∃ l ∈ links, l.owner = e.owner := by
  induction links generalizing db n with
  | nil =>
    cases h
    exact ⟨[], by rw [List.append_nil], Nat.le_refl _, List.forall_mem_nil _⟩
  | cons link rest ih =>
    unfold ReplayCorpus.restoreLoop at h
    split at h
    case h_1 =>
      obtain ⟨rows, heq, hnext, hrows⟩ := ih h
      exact ⟨rows, heq, hnext, fun e he => ⟨(hrows e he).1,
        (hrows e he).2.imp fun l hl => ⟨.tail link hl.1, hl.2⟩⟩⟩
    case h_2 memoryId chunkId hlink =>
      simp only at h
      split at h
      case isTrue => cases h
      case isFalse =>
        obtain ⟨rows, heq, hnext, hrows⟩ := ih h
        refine ⟨_ :: rows, heq.trans (by rw [List.append_assoc]; rfl),
          Nat.le_of_succ_le hnext, fun e he => ?_⟩
        rcases List.mem_cons.mp he with rfl | he
        · exact ⟨relink_memory hlink, link, List.mem_cons_self, rfl⟩
        · exact ⟨(hrows e he).1,
            (hrows e he).2.imp fun l hl => ⟨.tail link hl.1, hl.2⟩⟩

theorem restore_spec (hw : Apart w) (hnone : w.db.evidence = [])
    {links : List EvidenceLink} {r : Db × Nat}
    (h : ReplayCorpus.restoreEvidence (w.view u) links = .ok r) :
    (∀ v, v ≠ u → (w.commit u r.1).derived v = w.derived v)
      ∧ ∀ e ∈ (w.commit u r.1).db.evidence,
        (w.userOf e.memoryId = u ∧ e.memoryId < w.db.nextId)
          ∧ ∃ l ∈ links, l.owner = e.owner := by
  obtain ⟨rows, heq, hnext, hrows⟩ := restoreLoop_rows h
  have hkeyed : ∀ i, r.1.Keyed i → Known (w.view u) r.1.nextId i := by
    rw [heq]
    intro i hi
    refine .inl ?_
    cases hi with
    | source hx => exact .source hx
    | memory hx => exact .memory hx
    | chunk hx => exact .chunk hx
    | entity hx => exact .entity hx
    | mention hx => exact .mention hx
    | relationship hx => exact .relationship hx
    | session hx => exact .session hx
    | turn hx => exact .turn hx
    | job hx => exact .job hx
  refine ⟨fun v hv => hw.derived_commit hkeyed (by rw [heq]; rfl) hv,
    fun e he => ?_⟩
  rw [hw.commit_evidence, heq] at he
  have he' : e ∈ w.db.evidence ++ rows := he
  rw [hnone, List.nil_append] at he'
  obtain ⟨⟨m, hm, hid⟩, hlink⟩ := hrows e he'
  obtain ⟨hu, hthere⟩ := keyed_view (.memory hm)
  rw [hid] at hu hthere
  exact ⟨⟨hu, hw.keyed _ hthere⟩, hlink⟩

theorem Grown.preserved :
    Grown db (ReplayCorpus.preserveEvidence db).1 :=
  .narrowed { Db.Fewer.refl db with evidence := List.nil_subset _ }
    rfl rfl rfl rfl rfl

theorem Logged.commit (hw : Apart w) (hlogged : Logged w)
    (hevents : left.events = (w.view u).events)
    (hsources : left.sources = (w.view u).sources) :
    Logged (w.commit u left) := by
  intro e he
  have hold : e ∈ w.db.events := by
    rcases mem_rows he with he | he
    · exact he
    · exact List.mem_of_mem_filter (hevents ▸ he)
  obtain ⟨s, hs, hid, hsame⟩ := hlogged e hold
  refine ⟨s, ?_, hid, ?_⟩
  · by_cases hu : w.userOf s.id = u
    · refine List.mem_append_right _ ?_
      rw [hsources]
      exact List.mem_filter.mpr ⟨hs, decide_eq_true hu⟩
    · exact List.mem_append_left _
        (List.mem_filter.mpr ⟨hs, decide_eq_true hu⟩)
  · rw [commit_userOf_old (hw.keyed _ (.source hs)), hw.userOfEvent hold]
    exact hsame

theorem link_mem {l : EvidenceLink}
    (hl : l ∈ (ReplayCorpus.preserveEvidence db).2) :
    ∃ x ∈ db.evidence, x.owner = l.owner := by
  obtain ⟨table, -, hl⟩ := List.mem_flatMap.mp hl
  obtain ⟨x, hx, rfl⟩ := List.mem_map.mp hl
  exact ⟨x, List.mem_of_mem_filter hx, rfl⟩

/-- What a replay leaves: the others' derived rows, or none, and links to
the account's own memories only. -/
structure Replayed (u : UserId) (w w' : Accounts) (empties : Prop) : Prop where
  derived : ∀ v, v ≠ u →
    (empties → w'.derived v = {}) ∧ (¬ empties → w'.derived v = w.derived v)
  userOf : ∀ i, i < w.db.nextId → w'.userOf i = w.userOf i
  evidence : ∀ e ∈ w'.db.evidence,
    (e.memoryId < w.db.nextId → w.userOf e.memoryId = u)
      ∧ ∃ x ∈ w.db.evidence, x.owner = e.owner

theorem replay_replayed (hw : Apart w) (hlogged : Logged w) :
    Replayed u w (w.replay u ports blobs request now).1
      (EmptiesTables w u ports blobs request now) := by
  let preserved := ReplayCorpus.preserveEvidence (w.view u)
  have hg : Grown (w.view u) preserved.1 := .preserved
  have hfirst := hg.stage hw
  have hview : (w.commit u preserved.1).view u = preserved.1 :=
    hg.view_commit hw
  -- neither the log nor what is emptied depends on the evidence
  have hempties : EmptiesTables (w.commit u preserved.1) u ports blobs request
      now ↔ EmptiesTables w u ports blobs request now := by
    unfold EmptiesTables
    rw [hview]
    exact Iff.rfl
  have hattempted : Attempted u (w.commit u preserved.1) _
      (EmptiesTables (w.commit u preserved.1) u ports blobs request now) :=
    attempt_attempted hfirst.apart (hlogged.commit hw rfl rfl)
  rw [hempties] at hattempted
  have hnone : (w.commit u preserved.1).db.evidence = [] := hw.commit_evidence
  have hderived : ∀ w' : Accounts, (∀ v, v ≠ u → w'.derived v
      = ((w.commit u preserved.1).attempt u ports blobs request
        now).1.derived v) → ∀ v, v ≠ u →
      (EmptiesTables w u ports blobs request now → w'.derived v = {})
        ∧ (¬ EmptiesTables w u ports blobs request now →
          w'.derived v = w.derived v) := by
    intro w' hsame v hv
    rw [hsame v hv]
    refine (hattempted.derived v hv).imp_right fun hkept hno => ?_
    exact (hkept hno).trans (hfirst.derived v hv)
  have huser : ∀ i, i < w.db.nextId → ((w.commit u preserved.1).attempt u
      ports blobs request now).1.userOf i = w.userOf i := fun i hi =>
    (hattempted.userOf i (Nat.lt_of_lt_of_le hi hfirst.nextId)).trans
      (hfirst.userOf i hi)
  have hlast := Nat.le_trans hfirst.nextId hattempted.nextId
  unfold replay
  simp only
  split
  case h_2 =>
    refine ⟨hderived _ fun _ _ => rfl, huser, ?_⟩
    rw [hattempted.evidence hnone]
    exact List.forall_mem_nil _
  case h_1 restored hrestored =>
    obtain ⟨hsame, hrows⟩ := restore_spec hattempted.apart
      (hattempted.evidence hnone) hrestored
    refine ⟨hderived _ hsame, fun i hi => ?_, fun e he => ?_⟩
    · exact (commit_userOf_old (Nat.lt_of_lt_of_le hi hlast)).trans (huser i hi)
    · obtain ⟨⟨hu, -⟩, l, hl, howner⟩ := hrows e he
      refine ⟨fun hold => (huser _ hold).symm.trans hu, ?_⟩
      obtain ⟨x, hx, hxl⟩ := link_mem hl
      exact ⟨x, hx, hxl.trans howner⟩

-- ======= the claim

theorem mem_own_evidence {e : EvidenceRow} : e ∈ (w.own v).evidence
    ↔ e ∈ w.db.evidence ∧ w.userOf e.owner = v := by
  show e ∈ w.db.evidence.filter _ ↔ _
  rw [List.mem_filter, decide_eq_true_eq]

theorem Replayed.evidence_iff {w' : Accounts} {empties : Prop} (hw : Apart w)
    (h : Replayed u w w' empties) (hv : v ≠ u) :
    (w'.own v).evidence = (w.own v).evidence ↔ (w.own v).evidence = [] := by
  constructor
  · intro hkept
    refine List.eq_nil_iff_forall_not_mem.mpr fun e he => hv ?_
    obtain ⟨hold, howner⟩ := mem_own_evidence.mp he
    rw [← hkept] at he
    have hseen := (h.evidence e (mem_own_evidence.mp he).1).1
    -- it is about a memory of its own account, and was written to one of `u`'s
    obtain ⟨hlt, hsame⟩ := hw.refers _ _ (.evidence hold)
    exact howner.symm.trans (hsame.trans (hseen hlt))
  · intro hnone
    rw [hnone]
    refine List.eq_nil_iff_forall_not_mem.mpr fun e he => ?_
    obtain ⟨hnew, howner⟩ := mem_own_evidence.mp he
    obtain ⟨-, x, hx, hsame⟩ := h.evidence e hnew
    refine List.eq_nil_iff_forall_not_mem.mp hnone x
      (mem_own_evidence.mpr ⟨hx, ?_⟩)
    rw [← h.userOf _ (hw.hung _ (.evidence hx)), hsame, howner]

/-- A replay in the scope of `u` leaves what every other account has of
memories, chunks, mentions, relationships, entities, merges, keys and
evidence exactly when none has evidence, and none has any of the others if
the replay empties tables. -/
theorem replay_apart_iff (w : Accounts) (hw : Apart w) (hlogged : Logged w)
    (u : UserId) (ports : Ports) (blobs : Blobs) (request : ReplayRequest)
    (now : Timestamp) :
    OthersKept w (w.replay u ports blobs request now).1 u
      ↔ ∀ v, v ≠ u → (w.own v).evidence = []
        ∧ (EmptiesTables w u ports blobs request now → w.derived v = {}) := by
  have hreplayed : Replayed u w (w.replay u ports blobs request now).1 _ :=
    replay_replayed hw hlogged
  refine forall_congr' fun v => forall_congr' fun hv => ?_
  rw [hreplayed.evidence_iff hw hv, and_comm]
  refine and_congr_right fun _ => ?_
  obtain ⟨hemptied, hkept⟩ := hreplayed.derived v hv
  constructor
  · exact fun hsame hyes => hsame.symm.trans (hemptied hyes)
  · intro hnone
    by_cases hyes : EmptiesTables w u ports blobs request now
    · exact (hemptied hyes).trans (hnone hyes).symm
    · exact hkept hyes

-- ------ two accounts, two notes

/-- Two accounts with a note each. -/
def twoNotes : Vault :=
  (Vault.twoAccounts.ingest 1 1 (Live.note "a.md" "h1" [104, 105]) 1).ingest 2 2
    (Live.note "b.md" "h2" [106]) 2

theorem twoNotes_apart : Apart twoNotes.accounts :=
  (Vault.ingest_spec (Vault.ingest_spec Vault.twoAccounts_apart 1 1
    (Live.note "a.md" "h1" [104, 105]) 1).1 2 2
    (Live.note "b.md" "h2" [106]) 2).1

theorem twoNotes_logged : Logged twoNotes.accounts := by
  unfold Logged
  decide +kernel

/-- The exact form, for the two notes. -/
theorem replay_apart_iff_twoNotes :
    OthersKept twoNotes.accounts (twoNotes.accounts.replay 1 .plain
        twoNotes.blobs {} 3).1 1
      ↔ ∀ v, v ≠ 1 → (twoNotes.accounts.own v).evidence = []
        ∧ (EmptiesTables twoNotes.accounts 1 .plain twoNotes.blobs {} 3 →
          twoNotes.accounts.derived v = {}) :=
  replay_apart_iff twoNotes.accounts twoNotes_apart twoNotes_logged 1 .plain
    twoNotes.blobs {} 3

/-- The first account replays its log, and the second has no memory left. -/
theorem not_replay_apart : ¬ ∀ (w : Accounts), Apart w → Logged w →
    ∀ (u : UserId) (ports : Ports) (blobs : Blobs) (request : ReplayRequest)
      (now : Timestamp),
      OthersKept w (w.replay u ports blobs request now).1 u := by
  intro hclaim
  have hkept := (hclaim twoNotes.accounts twoNotes_apart twoNotes_logged 1
    .plain twoNotes.blobs {} 3 2 (by decide)).1
  have hmemories := congrArg (fun d => d.memories.length) hkept
  exact absurd hmemories (by decide +kernel)

end MemoryOS.Accounts
