/-
What a purge takes, beside what its confirmation says.

The rows of an item go by its key and its source, but its turns by the key
alone; the confirmation counts its tags by keys and sources separately, its
mentions as if no earlier item's chunks took any, and bytes as shared that
only an attachment of a turn that goes has. `purge_told_iff` says when none
of this shows.
-/
import MemoryOS.Corpus.Proofs.Purge
import MemoryOS.Corpus.Scope
import MemoryOS.Lib.DistinctOn

namespace MemoryOS.Deletion

-- ====== statement vocabulary

/-- What the chat stored under the item's key. -/
def TurnOf (db : Db) (i : Item) (x : ChatMessage) : Prop :=
  x.externalKey = some i.externalKey ∧ ∃ source ∈ db.sources,
    source.id = i.sourceId ∧ source.kind = .chat ∧ source.name = "chat"

/-- A turn of none of the items. -/
def Other (db : Db) (items : List Item) (x : ChatMessage) : Prop :=
  ∀ i ∈ items, ¬ TurnOf db i x

/-- Every row of any other item is what it was. An attachment goes with its
turn. -/
structure Untouched (items : List Item) (db db' : Db) : Prop where
  memories : ∀ m ∈ db.memories, m.item ∉ items → m ∈ db'.memories
  chunks : ∀ c ∈ db.chunks,
    (∀ m ∈ db.memories, m.id = c.memoryId → m.item ∉ items) → c ∈ db'.chunks
  tags : ∀ t ∈ db.tags, t.item ∉ items → t ∈ db'.tags
  turns : ∀ x ∈ db.chatMessages, Other db items x → x ∈ db'.chatMessages
  attachments : ∀ a ∈ db.chatAttachments,
    (∀ x ∈ db.chatMessages, x.id = a.messageId → Other db items x) →
      a ∈ db'.chatAttachments

/-- The confirmation's counts are the report's. -/
structure Truthful (scope : PurgeScope) (report : PurgeReport) : Prop where
  memories : scope.memories = report.memories
  chunks : scope.chunks = report.chunks
  mentions : scope.mentions = report.mentions
  tags : scope.tags = report.tags
  turns : scope.turns = report.turns
  blobs : scope.blobs = report.blobsShredded

/-- A purge touches only its items, and does what was confirmed. -/
def AsTold (raises : ContentHash → Bool) (s : Store)
    (items : List (Item × Timestamp)) : Prop :=
  Untouched (items.map (·.1)) s.db (purgeCall raises s items).1.db
    ∧ ∀ report, purgeReport raises s items = some report →
      Truthful (scopeOf s.db (items.map (·.1))) report

/-- The ids of the items' versions. -/
def memoryIdsOf (db : Db) (items : List Item) : List Id :=
  (versionsOfAll db items).map fun m => m.id

/-- The ids of an item's chunks. -/
def chunkIdsOf (db : Db) (i : Item) : List Id :=
  (db.chunks.filter fun c => decide (c.memoryId ∈ memoryIdsOf db [i])).map
    fun c => c.id

/-- No turn of another item has the key of one the purge gets to, or corrects
a turn that does. -/
def TurnsApart (db : Db) (items : List Item) : Prop :=
  ∀ x ∈ db.chatMessages, Other db items x →
    turnOf (reached db.memories items) x = false
      ∧ ∀ y ∈ db.chatMessages, x.correctsMessageId = some y.id →
        turnOf (reached db.memories items) y = false

/-- The purge returns: no item is missing, and no bytes survive. -/
def Returns (raises : ContentHash → Bool) (db : Db) (items : List Item) :
    Prop :=
  reached db.memories items = items
    ∧ ∀ m ∈ db.memories, m.item ∈ items → raises m.contentHash = true →
      survives db items m.contentHash = true

/-- A mention of the second item does not hang on a chunk of the first. -/
def MentionsApart (db : Db) (i j : Item) : Prop :=
  ∀ m ∈ db.mentions, m.memoryId ∈ memoryIdsOf db [j] →
    m.chunkId ∉ chunkIdsOf db i

/-- The confirmation's queries select what the purge's do. -/
structure CountsApart (db : Db) (items : List Item) : Prop where
  tags : ∀ t ∈ db.tags, t.externalKey ∈ items.map (·.externalKey) →
    t.sourceId ∈ items.map (·.sourceId) → t.item ∈ items
  mentions : items.Pairwise (MentionsApart db)
  /-- Bytes an attachment has are still needed afterwards. -/
  blobs : ∀ m ∈ db.memories, m.item ∈ items →
    (∃ a ∈ db.chatAttachments, a.contentHash = m.contentHash) →
      survives db items m.contentHash = true

/-- Primary keys. -/
structure Keyed (db : Db) : Prop where
  memories : (db.memories.map (·.id)).Nodup
  turns : (db.chatMessages.map (·.id)).Nodup

variable {db : Db} {s : Store} {raises : ContentHash → Bool}
  {items : List (Item × Timestamp)}

-- ======== the rows

variable {r : Db × List ContentHash} {is : List Item} {now : Timestamp}
  {i j : Item} {id : Id}

theorem unlink_unlink (gone gone' : List Id) (x : ChatMessage) :
    unlink gone' (unlink gone x) = unlink (gone ++ gone') x := by
  cases hx : x.correctsMessageId with
  | none => simp [unlink, hx]
  | some c =>
    by_cases h : c ∈ gone
    · simp [unlink, hx, h]
    · by_cases h' : c ∈ gone' <;> simp [unlink, hx, h, h']

theorem mem_memoryIdsOf :
    id ∈ memoryIdsOf db is
      ↔ ∃ m ∈ db.memories, m.item ∈ is ∧ m.id = id := by
  unfold memoryIdsOf versionsOfAll
  simp only [List.mem_map, List.mem_filter, decide_eq_true_eq, and_assoc]

theorem purgeOne_rows (hp : purgeOne db i now = .ok r) :
    r.1.tags = db.tags.filter (fun t => decide (t.item ≠ i))
      ∧ r.1.chunks = db.chunks.filter (fun c =>
        !decide (c.memoryId ∈ memoryIdsOf db [i]))
      ∧ r.1.mentions = db.mentions.filter (fun m =>
        !decide (m.memoryId ∈ memoryIdsOf db [i])
          && decide (m.chunkId ∉ chunkIdsOf db i))
      ∧ r.1.chatMessages = (db.chatMessages.filter fun x =>
        !turnOf [i] x).map (unlink ((db.chatMessages.filter fun x =>
          turnOf [i] x).map (·.id))) := by
  have hids : (db.memories.filter fun m => decide (m.item = i)).map (·.id)
      = memoryIdsOf db [i] := by
    unfold memoryIdsOf versionsOfAll
    simp only [List.mem_singleton]
  have hturn : ∀ x, turnOf [i] x
      = decide (x.externalKey = some i.externalKey) := fun x => by
    unfold turnOf
    simp
  unfold purgeOne at hp
  simp only at hp
  split at hp
  case isTrue => cases hp
  case isFalse =>
    cases hp
    refine ⟨?_, ?_, ?_, ?_⟩
    · refine List.filter_congr fun t _ => ?_
      unfold MemoryTag.item
      obtain ⟨source, key⟩ := i
      simp
    · exact congrArg (fun ids : List Id => db.chunks.filter fun c =>
        !decide (c.memoryId ∈ ids)) hids
    · have hmentions (ids : List Id) (chunks : List Id) :
          (db.mentions.filter fun m => decide (m.chunkId ∉ chunks)).filter
              (fun m => decide (m.memoryId ∉ ids))
            = db.mentions.filter fun m => !decide (m.memoryId ∈ ids)
              && decide (m.chunkId ∉ chunks) := by
        rw [List.filter_filter]
        simp only [decide_not]
      unfold chunkIdsOf
      rw [← hids]
      exact hmentions _ _
    · simp only [hturn]
      show (db.chatMessages.filter _).map _ = _
      simp only [decide_not, ne_eq]
      rfl

theorem turnOf_unlink (gone : List Item) (links : List Id) (x : ChatMessage) :
    turnOf gone (unlink links x) = turnOf gone x := by
  unfold turnOf
  rw [(unlink_fields links x).2]

theorem memoryIdsOf_purged (hp : purgeOne db i now = .ok r) : id ∈ memoryIdsOf r.1 is
      ↔ ∃ m ∈ db.memories, m.item ≠ i ∧ m.item ∈ is ∧ m.id = id := by
  rw [mem_memoryIdsOf, (purgeOne_inv hp).1]
  simp only [List.mem_filter, Bool.not_eq_true', decide_eq_false_iff_not,
    and_assoc]

/-- What is left of the other tables without some items. -/
structure Left (gone : List Item) (db db' : Db) : Prop where
  tags : db'.tags = db.tags.filter fun t => decide (t.item ∉ gone)
  chunks : db'.chunks = db.chunks.filter fun c =>
    decide (c.memoryId ∉ memoryIdsOf db gone)
  turns : ∃ links, (∀ c, c ∈ links ↔ ∃ y ∈ db.chatMessages,
      turnOf gone y = true ∧ y.id = c)
    ∧ db'.chatMessages = (db.chatMessages.filter fun x =>
      !turnOf gone x).map (unlink links)

theorem Left.none (db : Db) : Left [] db db := by
  refine ⟨?_, ?_, [], fun c => ?_, ?_⟩
  · exact (List.filter_eq_self.mpr fun t _ => by simp).symm
  · refine (List.filter_eq_self.mpr fun c _ => ?_).symm
    simp [mem_memoryIdsOf]
  · simp [turnOf]
  · rw [List.filter_eq_self.mpr fun x _ => by simp [turnOf]]
    refine ((List.map_congr_left fun x _ => ?_).trans (List.map_id _)).symm
    simp [unlink]

theorem Left.cons {i : Item} {now : Timestamp} {r : Db × List ContentHash}
    {gone : List Item} {db' : Db} (hp : purgeOne db i now = .ok r)
    (h : Left gone r.1 db') : Left (i :: gone) db db' := by
  obtain ⟨htags, hchunks, -, hturns⟩ := purgeOne_rows hp
  obtain ⟨htags', hchunks', links, hlinks, hturns'⟩ := h
  refine ⟨?_, ?_, (db.chatMessages.filter fun x =>
    turnOf [i] x).map (·.id) ++ links, fun c => ?_, ?_⟩
  · rw [htags', htags, List.filter_filter]
    refine List.filter_congr fun t _ => ?_
    by_cases ht : t.item = i <;> simp [ht]
  · rw [hchunks', hchunks, List.filter_filter]
    refine List.filter_congr fun c _ => ?_
    rw [Bool.eq_iff_iff, Bool.and_eq_true, decide_eq_true_iff,
      Bool.not_eq_true', decide_eq_false_iff_not, decide_eq_true_iff,
      memoryIdsOf_purged hp, mem_memoryIdsOf, mem_memoryIdsOf, ← not_or]
    refine not_congr ?_
    simp only [List.mem_cons, List.not_mem_nil, or_false]
    constructor
    · rintro (⟨m, hm, -, hmi, hid⟩ | ⟨m, hm, hmi, hid⟩)
      · exact ⟨m, hm, .inr hmi, hid⟩
      · exact ⟨m, hm, .inl hmi, hid⟩
    · rintro ⟨m, hm, hmi, hid⟩
      by_cases hi : m.item = i
      · exact .inr ⟨m, hm, hi, hid⟩
      · exact .inl ⟨m, hm, hi, hmi.resolve_left hi, hid⟩
  · rw [List.mem_append, hlinks, hturns]
    simp only [List.mem_map, List.mem_filter, turnOf_cons i gone,
      Bool.or_eq_true]
    constructor
    · rintro (⟨y, ⟨hy, hyi⟩, rfl⟩ | ⟨_, ⟨y, ⟨hy, -⟩, rfl⟩, hgone, rfl⟩)
      · exact ⟨y, hy, .inl hyi, rfl⟩
      · rw [turnOf_unlink] at hgone
        exact ⟨y, hy, .inr hgone, (unlink_fields _ y).1.symm⟩
    · rintro ⟨y, hy, hor, rfl⟩
      by_cases hyi : turnOf [i] y = true
      · exact .inl ⟨y, ⟨hy, hyi⟩, rfl⟩
      · refine .inr ⟨_, ⟨y, ⟨hy, ?_⟩, rfl⟩, ?_, (unlink_fields _ y).1⟩
        · rw [Bool.not_eq_true', Bool.eq_false_iff]
          exact hyi
        · rw [turnOf_unlink]
          exact hor.resolve_left hyi
  · rw [hturns', hturns, List.filter_map, List.map_map, List.filter_filter]
    have hkept : ∀ x, (((fun x => !turnOf gone x) ∘ unlink
        ((db.chatMessages.filter fun x => turnOf [i] x).map (·.id))) x
          && !turnOf [i] x) = !turnOf (i :: gone) x := fun x => by
      rw [Function.comp_apply, turnOf_unlink, turnOf_cons i gone,
        Bool.not_or, Bool.and_comm]
    simp only [hkept]
    exact List.map_congr_left fun x _ => unlink_unlink _ _ x

theorem purgeLoop_left (db : Db) (items : List (Item × Timestamp)) :
    Left (reached db.memories (items.map (·.1))) db
      (purgeLoop db items).1 := by
  induction items generalizing db with
  | nil => exact .none db
  | cons x rest ih =>
    obtain ⟨i, now⟩ := x
    unfold purgeLoop
    cases hp : purgeOne db i now with
    | error e =>
      rw [List.map_cons, reached_missing hp]
      exact .none db
    | ok r =>
      rw [List.map_cons, reached_purged hp]
      exact .cons hp (ih r.1)

-- ======= the frame

theorem reached_subset (rows : List Memory) (is : List Item) :
    ∀ i ∈ reached rows is, i ∈ is := by
  induction is generalizing rows with
  | nil => exact fun i hi => hi
  | cons i rest ih =>
    intro j hj
    unfold reached at hj
    split at hj
    case isTrue =>
      rcases List.mem_cons.mp hj with rfl | hj
      · exact List.mem_cons_self
      · exact List.mem_cons_of_mem _ (ih _ j hj)
    case isFalse => cases hj

theorem unlink_eq_self {links : List Id} {x : ChatMessage} :
    unlink links x = x ↔ ∀ c, x.correctsMessageId = some c → c ∉ links := by
  cases hx : x.correctsMessageId with
  | none => simp [unlink, hx]
  | some c =>
    by_cases h : c ∈ links
    · refine iff_of_false (fun heq => ?_) fun hno => hno c rfl h
      have hcut := congrArg ChatMessage.correctsMessageId heq
      rw [hx] at hcut
      simp [unlink, hx, h] at hcut
    · simp [unlink, hx, h]

theorem untouched_iff (hkeyed : Keyed s.db) :
    Untouched (items.map (·.1)) s.db (purgeCall raises s items).1.db
      ↔ TurnsApart s.db (items.map (·.1)) := by
  obtain ⟨hmem, hatt, -, -⟩ := purgeLoop_inv s.db items
  obtain ⟨htags, hchunks, links, hlinks, hturns⟩ := purgeLoop_left s.db items
  have hsub := reached_subset s.db.memories (items.map (·.1))
  -- a turn that is there afterwards is one of those before
  have hstays : ∀ x ∈ s.db.chatMessages,
      x ∈ (purgeLoop s.db items).1.chatMessages
        ↔ turnOf (reached s.db.memories (items.map (·.1))) x = false
          ∧ unlink links x = x := by
    intro x hx
    rw [hturns, List.mem_map]
    constructor
    · rintro ⟨y, hy, heq⟩
      obtain ⟨hy, hgone⟩ := List.mem_filter.mp hy
      have hxy : y = x := List.inj_on_of_nodup_map hkeyed.turns hy hx
        ((unlink_fields links y).1.symm.trans (congrArg _ heq))
      subst hxy
      exact ⟨by simpa using hgone, heq⟩
    · rintro ⟨hgone, heq⟩
      exact ⟨x, List.mem_filter.mpr ⟨hx, by simpa using hgone⟩, heq⟩
  rw [purgeCall_db]
  constructor
  · intro h x hx hother
    obtain ⟨hgone, heq⟩ := (hstays x hx).mp (h.turns x hx hother)
    refine ⟨hgone, fun y hy hcorrects => ?_⟩
    rw [Bool.eq_false_iff]
    exact fun hyes => unlink_eq_self.mp heq y.id hcorrects
      ((hlinks y.id).mpr ⟨y, hy, hyes, rfl⟩)
  · intro h
    constructor
    · intro m hm hitem
      rw [hmem]
      exact List.mem_filter.mpr ⟨hm, decide_eq_true fun hin =>
        hitem (hsub _ hin)⟩
    · intro c hc hother
      rw [hchunks]
      refine List.mem_filter.mpr ⟨hc, decide_eq_true fun hin => ?_⟩
      obtain ⟨m, hm, hitem, hid⟩ := mem_memoryIdsOf.mp hin
      exact hother m hm hid (hsub _ hitem)
    · intro t ht hitem
      rw [htags]
      exact List.mem_filter.mpr ⟨ht, decide_eq_true fun hin =>
        hitem (hsub _ hin)⟩
    · intro x hx hother
      obtain ⟨hgone, hcorrects⟩ := h x hx hother
      refine (hstays x hx).mpr ⟨hgone, unlink_eq_self.mpr fun c hc hin => ?_⟩
      obtain ⟨y, hy, hyes, rfl⟩ := (hlinks c).mp hin
      exact Bool.false_ne_true ((hcorrects y hy hc).symm.trans hyes)
    · intro a ha hother
      rw [hatt]
      refine List.mem_filter.mpr ⟨ha, ?_⟩
      rw [Bool.not_eq_true', List.any_eq_false]
      intro x hx hboth
      obtain ⟨hid, hyes⟩ := Bool.and_eq_true_iff.mp hboth
      exact Bool.false_ne_true ((h x hx (hother x hx (of_decide_eq_true
        hid))).1.symm.trans hyes)

-- ====== the counts

theorem length_filter_or {α : Type*} (q r : α → Bool) (l : List α) :
    (l.filter fun x => q x || r x).length = (l.filter q).length
      + ((l.filter fun x => !q x).filter r).length := by
  induction l with
  | nil => rfl
  | cons x rest ih =>
    cases hq : q x <;> cases hr : r x <;> simp [hq, hr, ih] <;> omega

theorem length_filter_eq {α : Type*} {p q : α → Bool} {l : List α}
    (hle : ∀ x ∈ l, p x = true → q x = true) :
    (l.filter p).length = (l.filter q).length
      ↔ ∀ x ∈ l, q x = true → p x = true := by
  have hpq : l.filter p = (l.filter q).filter p := by
    rw [List.filter_filter]
    refine List.filter_congr fun x hx => ?_
    cases hp : p x with
    | false => rfl
    | true => rw [hle x hx hp]; rfl
  rw [hpq, List.length_filter_eq_length_iff]
  simp only [List.mem_filter, and_imp]

theorem mem_memoryIdsOf_cons :
    id ∈ memoryIdsOf db (i :: is)
      ↔ id ∈ memoryIdsOf db [i] ∨ id ∈ memoryIdsOf db is := by
  simp only [mem_memoryIdsOf, List.mem_cons, List.not_mem_nil, or_false]
  constructor
  · rintro ⟨m, hm, hi | his, hid⟩
    · exact .inl ⟨m, hm, hi, hid⟩
    · exact .inr ⟨m, hm, his, hid⟩
  · rintro (⟨m, hm, hi, hid⟩ | ⟨m, hm, his, hid⟩)
    · exact ⟨m, hm, .inl hi, hid⟩
    · exact ⟨m, hm, .inr his, hid⟩

theorem memoryIdsOf_disjoint (hkeyed : Keyed db) (hi : i ∉ is) (h : id ∈ memoryIdsOf db is) :
    id ∉ memoryIdsOf db [i] := by
  rw [mem_memoryIdsOf] at h ⊢
  obtain ⟨m, hm, hitem, rfl⟩ := h
  rintro ⟨m', hm', hitem', hid⟩
  have heq := List.inj_on_of_nodup_map hkeyed.memories hm' hm hid
  rw [List.mem_singleton] at hitem'
  exact hi (hitem' ▸ heq ▸ hitem)

theorem memoryIdsOf_rest (hp : purgeOne db i now = .ok r) (hi : i ∉ is) :
    id ∈ memoryIdsOf r.1 is ↔ id ∈ memoryIdsOf db is := by
  rw [memoryIdsOf_purged hp, mem_memoryIdsOf]
  constructor
  · rintro ⟨m, hm, -, hitem, hid⟩
    exact ⟨m, hm, hitem, hid⟩
  · rintro ⟨m, hm, hitem, hid⟩
    exact ⟨m, hm, fun heq => hi (heq ▸ hitem), hitem, hid⟩

theorem chunkIdsOf_rest (hkeyed : Keyed db) (hp : purgeOne db i now = .ok r)
    (hij : i ≠ j) :
    id ∈ chunkIdsOf r.1 j ↔ id ∈ chunkIdsOf db j := by
  have hi : i ∉ [j] := fun h => hij (List.mem_singleton.mp h)
  unfold chunkIdsOf
  rw [(purgeOne_rows hp).2.1]
  simp only [List.mem_map, List.mem_filter, Bool.not_eq_true',
    decide_eq_false_iff_not, decide_eq_true_eq, memoryIdsOf_rest hp hi]
  constructor
  · rintro ⟨c, ⟨⟨hc, -⟩, hj⟩, hid⟩
    exact ⟨c, ⟨hc, hj⟩, hid⟩
  · rintro ⟨c, ⟨hc, hj⟩, hid⟩
    exact ⟨c, ⟨⟨hc, memoryIdsOf_disjoint hkeyed hi hj⟩, hj⟩, hid⟩

theorem Keyed.purged (hkeyed : Keyed db) (hp : purgeOne db i now = .ok r) :
    Keyed r.1 := by
  refine ⟨?_, ?_⟩
  · rw [(purgeOne_inv hp).1]
    exact hkeyed.memories.sublist (List.filter_sublist.map _)
  · have hid (links : List Id) : (fun x : ChatMessage => x.id) ∘ unlink links
        = fun x => x.id := funext fun x => (unlink_fields links x).1
    rw [(purgeOne_rows hp).2.2.2, List.map_map, hid]
    exact hkeyed.turns.sublist (List.filter_sublist.map _)

/-- The mentions of versions of the items. -/
def mentionsOf (db : Db) (is : List Item) : List EntityMention :=
  db.mentions.filter fun m => decide (m.memoryId ∈ memoryIdsOf db is)

theorem mentionsOf_rest (hkeyed : Keyed db) (hp : purgeOne db i now = .ok r) (hi : i ∉ is) :
    (mentionsOf r.1 is).length ≤ (mentionsOf db is).length
      ∧ ((mentionsOf r.1 is).length = (mentionsOf db is).length
        ↔ ∀ m ∈ db.mentions, m.memoryId ∈ memoryIdsOf db is →
          m.chunkId ∉ chunkIdsOf db i) := by
  have heq : mentionsOf r.1 is = (mentionsOf db is).filter fun m =>
      decide (m.chunkId ∉ chunkIdsOf db i) := by
    unfold mentionsOf
    rw [(purgeOne_rows hp).2.2.1, List.filter_filter, List.filter_filter]
    refine List.filter_congr fun m _ => ?_
    by_cases hm : m.memoryId ∈ memoryIdsOf db is
    · simp [memoryIdsOf_rest hp hi, hm, memoryIdsOf_disjoint hkeyed hi hm]
    · simp [memoryIdsOf_rest hp hi, hm]
  rw [heq]
  refine ⟨List.length_filter_le _ _, ?_⟩
  rw [List.length_filter_eq_length_iff]
  unfold mentionsOf
  simp only [List.mem_filter, decide_eq_true_eq, and_imp]

theorem memoryIdsOf_mem (hj : j ∈ is)
    (h : id ∈ memoryIdsOf db [j]) : id ∈ memoryIdsOf db is := by
  rw [mem_memoryIdsOf] at h ⊢
  obtain ⟨m, hm, hitem, hid⟩ := h
  exact ⟨m, hm, List.mem_singleton.mp hitem ▸ hj, hid⟩

theorem apart_rest (hkeyed : Keyed db) (hp : purgeOne db i now = .ok r) (hi : i ∉ is)
    (hkept : ∀ m ∈ db.mentions, m.memoryId ∈ memoryIdsOf db is →
      m.chunkId ∉ chunkIdsOf db i) {k : Item} (hj : j ∈ is) (hk : k ∈ is) :
    MentionsApart r.1 j k ↔ MentionsApart db j k := by
  have hij : i ≠ j := fun heq => hi (heq ▸ hj)
  have hik : i ∉ [k] := fun h => hi (List.mem_singleton.mp h ▸ hk)
  unfold MentionsApart
  rw [(purgeOne_rows hp).2.2.1]
  simp only [List.mem_filter, memoryIdsOf_rest hp hik,
    chunkIdsOf_rest hkeyed hp hij]
  constructor
  · intro h m hm hmk
    refine h m ⟨hm, ?_⟩ hmk
    simp [memoryIdsOf_disjoint hkeyed hik hmk,
      hkept m hm (memoryIdsOf_mem hk hmk)]
  · exact fun h m hm hmk => h m hm.1 hmk

/-- What the loop reports of some items. -/
structure Reported (db : Db) (is : List Item) (before after : PurgeReport) :
    Prop where
  memories : after.memories = before.memories + (versionsOfAll db is).length
  chunks : after.chunks = before.chunks + (db.chunks.filter fun c =>
    decide (c.memoryId ∈ memoryIdsOf db is)).length
  tags : after.tags = before.tags + (db.tags.filter fun t =>
    decide (t.item ∈ is)).length
  turns : after.turns = before.turns
    + (db.chatMessages.filter fun x => turnOf is x).length
  mentions_le : after.mentions
    ≤ before.mentions + (mentionsOf db is).length
  mentions_iff : after.mentions = before.mentions + (mentionsOf db is).length
    ↔ is.Pairwise (MentionsApart db)

theorem reported_nothing (db : Db) (report : PurgeReport) :
    Reported db [] report report := by
  have hids : memoryIdsOf db [] = [] := by
    unfold memoryIdsOf versionsOfAll
    simp
  have hmentions : mentionsOf db [] = [] := by
    unfold mentionsOf
    rw [hids]
    simp
  constructor
  · simp [versionsOfAll]
  · simp [hids]
  · simp
  · simp [turnOf]
  · exact Nat.le_add_right _ _
  · rw [hmentions]
    exact iff_of_true rfl List.Pairwise.nil

theorem Reported.cons (hkeyed : Keyed db) {i : Item} {now : Timestamp}
    {r : Db × List ContentHash} {is : List Item}
    {before after : PurgeReport} (hp : purgeOne db i now = .ok r)
    (hi : i ∉ is) (h : Reported r.1 is (counted db i before) after) :
    Reported db (i :: is) before after := by
  obtain ⟨htags, hchunks, -, hturns⟩ := purgeOne_rows hp
  have hone : (versionsOf db i).map (fun m => m.id) = memoryIdsOf db [i] := by
    unfold versionsOf memoryIdsOf versionsOfAll
    simp only [List.mem_singleton]
  have hcounted : (counted db i before).mentions
      = before.mentions + (mentionsOf db [i]).length := by
    unfold counted mentionsOf
    rw [← hone]
  have hall : (mentionsOf db (i :: is)).length
      = (mentionsOf db [i]).length + (mentionsOf db is).length := by
    unfold mentionsOf
    have hsplit := length_filter_or
      (fun m : EntityMention => decide (m.memoryId ∈ memoryIdsOf db [i]))
      (fun m => decide (m.memoryId ∈ memoryIdsOf db is)) db.mentions
    rw [List.filter_filter] at hsplit
    rw [List.filter_congr (q := fun m => decide
        (m.memoryId ∈ memoryIdsOf db [i]) || decide
        (m.memoryId ∈ memoryIdsOf db is)) fun m _ => ?_, hsplit]
    · refine congrArg _ (congrArg _ (List.filter_congr fun m _ => ?_))
      by_cases hm : m.memoryId ∈ memoryIdsOf db is
      · simp [hm, memoryIdsOf_disjoint hkeyed hi hm]
      · simp [hm]
    · rw [Bool.eq_iff_iff, Bool.or_eq_true, decide_eq_true_iff,
        decide_eq_true_iff, decide_eq_true_iff]
      exact mem_memoryIdsOf_cons
  constructor
  · rw [h.memories]
    show before.memories + ((versionsOf db i).map _).length + _ = _
    rw [List.length_map, Nat.add_assoc]
    refine congrArg _ ?_
    unfold versionsOf versionsOfAll
    rw [(purgeOne_inv hp).1, ← length_filter_or]
    refine congrArg _ (List.filter_congr fun m _ => ?_)
    simp
  · rw [h.chunks]
    show before.chunks + (db.chunks.filter fun c =>
      decide (c.memoryId ∈ (versionsOf db i).map _)).length + _ = _
    rw [hone, Nat.add_assoc, hchunks]
    refine congrArg _ ?_
    simp only [memoryIdsOf_rest hp hi]
    rw [← length_filter_or]
    refine congrArg _ (List.filter_congr fun c _ => ?_)
    rw [Bool.eq_iff_iff, Bool.or_eq_true, decide_eq_true_iff,
      decide_eq_true_iff, decide_eq_true_iff]
    exact mem_memoryIdsOf_cons.symm
  · rw [h.tags]
    show before.tags + (db.tags.filter fun t => decide (t.item = i)).length
      + _ = _
    rw [Nat.add_assoc, htags]
    refine congrArg _ ?_
    simp only [decide_not, ne_eq]
    rw [← length_filter_or]
    refine congrArg _ (List.filter_congr fun t _ => ?_)
    simp
  · rw [h.turns]
    show before.turns + (db.chatMessages.filter fun x =>
      decide (x.externalKey = some i.externalKey)).length + _ = _
    have hkey : ∀ x : ChatMessage,
        decide (x.externalKey = some i.externalKey) = turnOf [i] x := by
      intro x
      unfold turnOf
      simp
    have hsame (links : List Id) : (fun x => turnOf is x) ∘ unlink links
        = fun x => turnOf is x := funext (turnOf_unlink is links)
    simp only [hkey]
    rw [Nat.add_assoc, hturns, List.filter_map, List.length_map, hsame,
      ← length_filter_or]
    refine congrArg _ (congrArg _ (List.filter_congr fun x _ => ?_))
    exact (turnOf_cons i is x).symm
  · refine Nat.le_trans h.mentions_le ?_
    rw [hcounted, hall]
    have := (mentionsOf_rest hkeyed hp hi).1
    omega
  · rw [hall, List.pairwise_cons]
    obtain ⟨hle, heq⟩ := mentionsOf_rest hkeyed hp hi
    have hle' := h.mentions_le
    have heq' := h.mentions_iff
    rw [hcounted] at hle' heq'
    -- the rest is reported in full, of what is left of it in full
    constructor
    · intro hfull
      have hrest : (mentionsOf r.1 is).length = (mentionsOf db is).length := by
        omega
      have hkept := heq.mp hrest
      refine ⟨fun j hj m hm hmj => hkept m hm ?_, ?_⟩
      · exact memoryIdsOf_mem hj hmj
      · refine (heq'.mp (by omega)).imp_of_mem fun {j k} hj hk hapart => ?_
        exact (apart_rest hkeyed hp hi hkept hj hk).mp hapart
    · rintro ⟨hfirst, hpairs⟩
      have hkept : ∀ m ∈ db.mentions, m.memoryId ∈ memoryIdsOf db is →
          m.chunkId ∉ chunkIdsOf db i := by
        intro m hm hmis
        obtain ⟨m', hm', hitem, hid⟩ := mem_memoryIdsOf.mp hmis
        exact hfirst _ hitem m hm (mem_memoryIdsOf.mpr
          ⟨m', hm', List.mem_singleton_self _, hid⟩)
      have hrest := heq.mpr hkept
      have hdone := heq'.mpr (hpairs.imp_of_mem fun {j k} hj hk hapart =>
        (apart_rest hkeyed hp hi hkept hj hk).mpr hapart)
      omega

theorem reportLoop_reported (hkeyed : Keyed db) (report : PurgeReport)
    (hdistinct : (items.map (·.1)).Nodup)
    (hreached : reached db.memories (items.map (·.1)) = items.map (·.1)) :
    Reported db (items.map (·.1)) report (reportLoop report db items) := by
  induction items generalizing db report with
  | nil => exact reported_nothing db report
  | cons x rest ih =>
    obtain ⟨i, now⟩ := x
    rw [List.map_cons] at hdistinct hreached
    obtain ⟨hi, hrest⟩ := List.nodup_cons.mp hdistinct
    unfold reportLoop
    cases hp : purgeOne db i now with
    | error e =>
      rw [reached_missing hp] at hreached
      cases hreached
    | ok r =>
      rw [reached_purged hp] at hreached
      exact .cons hkeyed hp hi (ih (hkeyed.purged hp) _ hrest
        (List.cons.inj hreached).2)

-- ======= the bytes

theorem length_selected (l l' : List ContentHash) (p q : ContentHash → Bool)
    (hmem : ∀ h, h ∈ l ↔ h ∈ l') (hle : ∀ h ∈ l, p h = true → q h = true) :
    (l.eraseDups.filter p).length = (l'.eraseDups.filter q).length
      ↔ ∀ h ∈ l, q h = true → p h = true := by
  have hperm : l.eraseDups.Perm l'.eraseDups :=
    (List.perm_ext_iff_of_nodup (Lib.DistinctOn.nodup_eraseDups l)
      (Lib.DistinctOn.nodup_eraseDups l')).mpr
      fun h => by rw [List.mem_eraseDups, List.mem_eraseDups, hmem]
  rw [← (hperm.filter q).length_eq, length_filter_eq fun h hin hp =>
    hle h (List.mem_eraseDups.mp hin) hp]
  simp only [List.mem_eraseDups]

theorem isShared_iff (hkeyed : Keyed db) (is : List Item)
    (hash : ContentHash) :
    isShared db (memoryIdsOf db is) hash = true
      ↔ survives db is hash = true
        ∨ ∃ a ∈ db.chatAttachments, a.contentHash = hash := by
  have hothers : (∃ m ∈ db.memories, m.contentHash = hash
      ∧ m.id ∉ memoryIdsOf db is)
        ↔ ∃ m ∈ db.memories, m.item ∉ is ∧ m.contentHash = hash := by
    refine exists_congr fun m => and_congr_right fun hm => ?_
    rw [and_comm]
    refine and_congr_left fun _ => not_congr ?_
    rw [mem_memoryIdsOf]
    constructor
    · rintro ⟨m', hm', hitem, hid⟩
      exact List.inj_on_of_nodup_map hkeyed.memories hm' hm hid ▸ hitem
    · exact fun hitem => ⟨m, hm, hitem, rfl⟩
  unfold isShared survives
  simp only [Bool.or_eq_true, List.any_eq_true, Bool.and_eq_true,
    decide_eq_true_eq, hothers]
  constructor
  · rintro (hm | ha)
    · exact .inl (.inl hm)
    · exact .inr ha
  · rintro ((hm | ⟨a, ha, hhash, -⟩) | ha)
    · exact .inl hm
    · exact .inr ⟨a, ha, hhash⟩
    · exact .inr ha

-- ====== what is told

theorem purgeReport_isSome : (purgeReport raises s items).isSome = true
    ↔ Returns raises s.db (items.map (·.1)) := by
  obtain ⟨-, -, hok, hhashes⟩ := purgeLoop_inv s.db items
  unfold purgeReport Returns
  simp only
  by_cases hended : (purgeLoop s.db items).2.2 = true
  · have hreached := hok.mp hended
    have hdue : ((((purgeLoop s.db items).2.1.eraseDups.filter fun h =>
        !stillReferenced (purgeLoop s.db items).1 h).filter raises).isEmpty
          = true) ↔ ∀ m ∈ s.db.memories, m.item ∈ items.map (·.1) →
            raises m.contentHash = true →
              survives s.db (items.map (·.1)) m.contentHash = true := by
      rw [List.isEmpty_iff, List.filter_eq_nil_iff]
      simp only [List.mem_filter, List.mem_eraseDups, hhashes hended,
        stillReferenced_purgeLoop, hreached]
      constructor
      · intro h m hm hitem hraises
        by_contra hlost
        exact h m.contentHash ⟨⟨m, hm, hitem, rfl⟩, by simpa using hlost⟩
          hraises
      · rintro h hash ⟨⟨m, hm, hitem, rfl⟩, hlost⟩ hraises
        rw [h m hm hitem hraises] at hlost
        cases hlost
    rw [if_pos hended]
    simp only [hreached, true_and]
    rw [← hdue]
    split
    case isTrue h => exact iff_of_true rfl h
    case isFalse h => exact iff_of_false nofun h
  · rw [if_neg hended]
    exact iff_of_false nofun fun h => hended (hok.mpr h.1)

theorem scopeOf_counts (db : Db) (is : List Item) :
    (scopeOf db is).memories = (versionsOfAll db is).length
      ∧ (scopeOf db is).chunks = (db.chunks.filter fun c =>
        decide (c.memoryId ∈ memoryIdsOf db is)).length
      ∧ (scopeOf db is).mentions = (mentionsOf db is).length
      ∧ (scopeOf db is).tags = (db.tags.filter fun t =>
        decide (t.externalKey ∈ is.map (·.externalKey))
          && decide (t.sourceId ∈ is.map (·.sourceId))).length
      ∧ (scopeOf db is).turns
        = (db.chatMessages.filter fun x => turnOf is x).length
      ∧ (scopeOf db is).blobs
        = (((versionsOfAll db is).map (·.contentHash)).eraseDups.filter
          fun h => !isShared db (memoryIdsOf db is) h).length := by
  unfold scopeOf
  split
  case isTrue hnil =>
    rw [List.isEmpty_iff.mp hnil]
    simp [versionsOfAll, memoryIdsOf, mentionsOf, turnOf]
  case isFalse =>
    refine ⟨List.length_map _, rfl, rfl, rfl, ?_, rfl⟩
    show ((db.chatMessages.filter _).map _).length = _
    rw [List.length_map]
    refine congrArg _ (List.filter_congr fun x _ => ?_)
    unfold turnOf
    rw [Bool.eq_iff_iff, List.any_eq_true, Option.any_eq_true]
    simp only [decide_eq_true_eq, List.mem_map]
    constructor
    · rintro ⟨k, hk, i, hi, rfl⟩
      exact ⟨i, hi, hk⟩
    · rintro ⟨i, hi, hk⟩
      exact ⟨_, hk, i, hi, rfl⟩

theorem truthful_iff (hkeyed : Keyed s.db)
    (hdistinct : (items.map (·.1)).Nodup)
    (hreturns : Returns raises s.db (items.map (·.1))) {report : PurgeReport}
    (hreport : purgeReport raises s items = some report) :
    Truthful (scopeOf s.db (items.map (·.1))) report
      ↔ CountsApart s.db (items.map (·.1)) := by
  obtain ⟨hreached, hraises⟩ := hreturns
  obtain ⟨-, -, hok, hhashes⟩ := purgeLoop_inv s.db items
  have hended := hok.mpr hreached
  have hloop := reportLoop_reported hkeyed {} hdistinct hreached
  obtain ⟨hmemories, hchunks, hmentions, htags, hturns, hblobs⟩ :=
    scopeOf_counts s.db (items.map (·.1))
  unfold purgeReport at hreport
  simp only [if_pos hended] at hreport
  split at hreport
  case isFalse => cases hreport
  case isTrue =>
    cases hreport
    have hdigests : ∀ h, h ∈ (versionsOfAll s.db (items.map (·.1))).map
        (·.contentHash) ↔ ∃ m ∈ s.db.memories, m.item ∈ items.map (·.1)
          ∧ m.contentHash = h := fun h => by
      unfold versionsOfAll
      simp only [List.mem_map, List.mem_filter, decide_eq_true_eq, and_assoc]
    have htold := length_selected
      ((versionsOfAll s.db (items.map (·.1))).map (·.contentHash))
      (purgeLoop s.db items).2.1
      (fun h => !isShared s.db (memoryIdsOf s.db (items.map (·.1))) h)
      (fun h => !stillReferenced (purgeLoop s.db items).1 h)
      (fun h => (hdigests h).trans (hhashes hended h).symm) ?_
    · have hbytes : (scopeOf s.db (items.map (·.1))).blobs
          = ((purgeLoop s.db items).2.1.eraseDups.filter fun h =>
            !stillReferenced (purgeLoop s.db items).1 h).length
          ↔ ∀ m ∈ s.db.memories, m.item ∈ items.map (·.1) →
            (∃ a ∈ s.db.chatAttachments, a.contentHash = m.contentHash) →
              survives s.db (items.map (·.1)) m.contentHash = true := by
        rw [hblobs, htold]
        simp only [hdigests, stillReferenced_purgeLoop, hreached,
          Bool.not_eq_true', ← Bool.not_eq_true, isShared_iff hkeyed]
        constructor
        · intro h m hm hitem ha
          by_contra hlost
          exact h m.contentHash ⟨m, hm, hitem, rfl⟩ hlost (.inr ha)
        · rintro h hash ⟨m, hm, hitem, rfl⟩ hlost (hkept | ha)
          · exact hlost hkept
          · exact hlost (h m hm hitem ha)
      have htags' : (scopeOf s.db (items.map (·.1))).tags
          = (reportLoop {} s.db items).tags
          ↔ ∀ t ∈ s.db.tags,
            t.externalKey ∈ (items.map (·.1)).map (·.externalKey) →
            t.sourceId ∈ (items.map (·.1)).map (·.sourceId) →
              t.item ∈ items.map (·.1) := by
        rw [htags, hloop.tags, Nat.zero_add, eq_comm, length_filter_eq]
        · simp only [Bool.and_eq_true, decide_eq_true_eq, and_imp]
        · intro t _ hitem
          have hin := of_decide_eq_true hitem
          exact Bool.and_eq_true_iff.mpr
            ⟨decide_eq_true (List.mem_map.mpr ⟨_, hin, rfl⟩),
              decide_eq_true (List.mem_map.mpr ⟨_, hin, rfl⟩)⟩
      constructor
      · intro h
        refine ⟨htags'.mp h.tags, hloop.mentions_iff.mp ?_,
          hbytes.mp h.blobs⟩
        exact (h.mentions.symm.trans hmentions).trans (Nat.zero_add _).symm
      · intro h
        refine ⟨?_, ?_, ?_, htags'.mpr h.tags, ?_, hbytes.mpr h.blobs⟩
        · exact hmemories.trans ((Nat.zero_add _).symm.trans
            hloop.memories.symm)
        · exact hchunks.trans ((Nat.zero_add _).symm.trans hloop.chunks.symm)
        · exact hmentions.trans ((Nat.zero_add _).symm.trans
            (hloop.mentions_iff.mpr h.mentions).symm)
        · exact hturns.trans ((Nat.zero_add _).symm.trans hloop.turns.symm)
    · intro h _ hp
      rw [Bool.not_eq_true', ← Bool.not_eq_true, isShared_iff hkeyed,
        not_or] at hp
      rw [stillReferenced_purgeLoop, hreached]
      simpa using hp.1

/-- A purge touches only its items and takes what its confirmation says
exactly when the turns it goes by are its items', and, where it returns, the
confirmation's queries select what the purge's do. -/
theorem purge_told_iff (raises : ContentHash → Bool) (s : Store)
    (items : List (Item × Timestamp)) (hkeyed : Keyed s.db)
    (hdistinct : (items.map (·.1)).Nodup) :
    AsTold raises s items ↔ TurnsApart s.db (items.map (·.1))
      ∧ (Returns raises s.db (items.map (·.1)) →
        CountsApart s.db (items.map (·.1))) := by
  unfold AsTold
  rw [untouched_iff hkeyed]
  refine and_congr_right fun _ => ?_
  constructor
  · intro h hreturns
    obtain ⟨report, hreport⟩ := Option.isSome_iff_exists.mp
      (purgeReport_isSome.mpr hreturns)
    exact (truthful_iff hkeyed hdistinct hreturns hreport).mp (h report hreport)
  · intro h report hreport
    have hreturns := purgeReport_isSome.mp (Option.isSome_iff_exists.mpr
      ⟨report, hreport⟩)
    exact (truthful_iff hkeyed hdistinct hreturns hreport).mpr (h hreturns)

-- ------ two vaults with one name

/-- `a.md` and `b.md` in one vault, a `b.md` in another, and a tag on the
first vault's `b.md`. -/
def twoVaults : Store :=
  let s := Live.run .plain
    [⟨1, .filesystem, "notes"⟩, ⟨2, .filesystem, "archive"⟩] [
      .ingest 1 (Live.note "a.md" "h1" [97]) 0,
      .ingest 1 (Live.note "b.md" "h2" [98]) 0,
      .ingest 2 (Live.note "b.md" "h3" [99]) 0]
  { s with db := { s.db with tags := [⟨1, "b.md", "rent".toList⟩] } }

theorem keyed_twoVaults : Keyed twoVaults.db :=
  ⟨by decide +kernel, by decide +kernel⟩

theorem purge_told_iff_twoVaults :
    AsTold (fun _ => false) twoVaults [(⟨1, "a.md"⟩, 1)]
      ↔ TurnsApart twoVaults.db [⟨1, "a.md"⟩]
        ∧ (Returns (fun _ => false) twoVaults.db [⟨1, "a.md"⟩] →
          CountsApart twoVaults.db [⟨1, "a.md"⟩]) :=
  purge_told_iff (fun _ => false) twoVaults [(⟨1, "a.md"⟩, 1)]
    keyed_twoVaults (by decide +kernel)

/-- The first vault's `a.md` and the second's `b.md` are purged: the tag is
counted, and stays. -/
theorem purge_not_as_told :
    ¬ ∀ (raises : ContentHash → Bool) (s : Store)
        (items : List (Item × Timestamp)), Keyed s.db →
      (items.map (·.1)).Nodup → AsTold raises s items := by
  intro hclaim
  obtain ⟨-, htold⟩ := hclaim (fun _ => false) twoVaults
    [(⟨1, "a.md"⟩, 1), (⟨2, "b.md"⟩, 2)] keyed_twoVaults (by decide +kernel)
  have htags := (htold ⟨2, 2, 0, 0, 0, 0, 2, [], 2⟩ (by decide +kernel)).tags
  revert htags
  decide +kernel

end MemoryOS.Deletion
