/-
What one account's transaction does to the others.

`Apart` says that ids are minted in order and that a row's references stay
within its account. A transaction that only mints, and refers to what it
saw, is seen by its own account as it was written (`Grown.view_commit`),
leaves every other account's rows alone (`Grown.own_commit`: no cascade
crosses from one account to another), and keeps `Apart` (`Grown.apart`).
-/
import MemoryOS.Accounts.Scoping

namespace MemoryOS

-- ====== statement vocabulary

attribute [ext] Db

namespace Db

/-- A scoped table has a row under the id. -/
inductive Keyed (db : Db) : Id → Prop
  | source {x : Source} : x ∈ db.sources → Keyed db x.id
  | memory {x : Memory} : x ∈ db.memories → Keyed db x.id
  | chunk {x : MemoryChunk} : x ∈ db.chunks → Keyed db x.id
  | entity {x : Entity} : x ∈ db.entities → Keyed db x.id
  | mention {x : EntityMention} : x ∈ db.mentions → Keyed db x.id
  | relationship {x : EntityRelationship} :
      x ∈ db.relationships → Keyed db x.id
  | session {x : ChatSession} : x ∈ db.chatSessions → Keyed db x.id
  | turn {x : ChatMessage} : x ∈ db.chatMessages → Keyed db x.id
  | job {x : Job} : x ∈ db.jobs → Keyed db x.id

/-- A row of a table without owners hangs off the id. -/
inductive Hung (db : Db) : Id → Prop
  | merge {x : EntityMerge} : x ∈ db.merges → Hung db x.winnerId
  | evidence {x : EvidenceRow} : x ∈ db.evidence → Hung db x.owner
  | tag {x : MemoryTag} : x ∈ db.tags → Hung db x.sourceId
  | attachment {x : ChatAttachment} :
      x ∈ db.chatAttachments → Hung db x.messageId

/-- The row under the first id, or hanging off it, refers to the second. -/
inductive Refers (db : Db) : Id → Id → Prop
  | memory {x : Memory} : x ∈ db.memories → Refers db x.id x.sourceId
  | chunk {x : MemoryChunk} : x ∈ db.chunks → Refers db x.id x.memoryId
  | mention {x : EntityMention} : x ∈ db.mentions → Refers db x.id x.memoryId
  | mentionChunk {x : EntityMention} :
      x ∈ db.mentions → Refers db x.id x.chunkId
  | relationship {x : EntityRelationship} :
      x ∈ db.relationships → Refers db x.id x.memoryId
  | relationshipChunk {x : EntityRelationship} :
      x ∈ db.relationships → Refers db x.id x.chunkId
  | evidence {x : EvidenceRow} : x ∈ db.evidence → Refers db x.owner x.memoryId
  | evidenceChunk {x : EvidenceRow} {c : Id} :
      x ∈ db.evidence → x.chunkId = some c → Refers db x.owner c
  | turn {x : ChatMessage} {c : Id} :
      x ∈ db.chatMessages → x.correctsMessageId = some c → Refers db x.id c

/-- The rows of each table of the first are rows of the second; a turn may
have lost what it corrects. -/
structure Fewer (left db : Db) : Prop where
  sources : left.sources ⊆ db.sources
  memories : left.memories ⊆ db.memories
  chunks : left.chunks ⊆ db.chunks
  entities : left.entities ⊆ db.entities
  mentions : left.mentions ⊆ db.mentions
  relationships : left.relationships ⊆ db.relationships
  sessions : left.chatSessions ⊆ db.chatSessions
  turns : ∀ x ∈ left.chatMessages, ∃ y ∈ db.chatMessages, y.id = x.id
    ∧ ∀ c, x.correctsMessageId = some c → y.correctsMessageId = some c
  jobs : left.jobs ⊆ db.jobs
  merges : left.merges ⊆ db.merges
  evidence : left.evidence ⊆ db.evidence
  tags : left.tags ⊆ db.tags
  attachments : left.chatAttachments ⊆ db.chatAttachments

namespace Fewer

variable {left db : Db} {i j : Id}

theorem refl (db : Db) : Fewer db db where
  sources := List.Subset.refl _
  memories := List.Subset.refl _
  chunks := List.Subset.refl _
  entities := List.Subset.refl _
  mentions := List.Subset.refl _
  relationships := List.Subset.refl _
  sessions := List.Subset.refl _
  turns x hx := ⟨x, hx, rfl, fun _ hc => hc⟩
  jobs := List.Subset.refl _
  merges := List.Subset.refl _
  evidence := List.Subset.refl _
  tags := List.Subset.refl _
  attachments := List.Subset.refl _

theorem keyed (h : Fewer left db) (hi : left.Keyed i) : db.Keyed i := by
  cases hi with
  | source hx => exact .source (h.sources hx)
  | memory hx => exact .memory (h.memories hx)
  | chunk hx => exact .chunk (h.chunks hx)
  | entity hx => exact .entity (h.entities hx)
  | mention hx => exact .mention (h.mentions hx)
  | relationship hx => exact .relationship (h.relationships hx)
  | session hx => exact .session (h.sessions hx)
  | turn hx =>
    obtain ⟨y, hy, hid, -⟩ := h.turns _ hx
    exact hid ▸ .turn hy
  | job hx => exact .job (h.jobs hx)

theorem hung (h : Fewer left db) (hi : left.Hung i) : db.Hung i := by
  cases hi with
  | merge hx => exact .merge (h.merges hx)
  | evidence hx => exact .evidence (h.evidence hx)
  | tag hx => exact .tag (h.tags hx)
  | attachment hx => exact .attachment (h.attachments hx)

theorem refers (h : Fewer left db) (hij : left.Refers i j) :
    db.Refers i j := by
  cases hij with
  | memory hx => exact .memory (h.memories hx)
  | chunk hx => exact .chunk (h.chunks hx)
  | mention hx => exact .mention (h.mentions hx)
  | mentionChunk hx => exact .mentionChunk (h.mentions hx)
  | relationship hx => exact .relationship (h.relationships hx)
  | relationshipChunk hx => exact .relationshipChunk (h.relationships hx)
  | evidence hx => exact .evidence (h.evidence hx)
  | evidenceChunk hx hc => exact .evidenceChunk (h.evidence hx) hc
  | turn hx hc =>
    obtain ⟨y, hy, hid, hcorrects⟩ := h.turns _ hx
    exact hid ▸ .turn hy (hcorrects _ hc)

end Fewer

end Db

namespace Accounts

/-- Ids are minted in order, and no row refers to another account's. -/
structure Apart (w : Accounts) : Prop where
  keyed : ∀ i, w.db.Keyed i → i < w.db.nextId
  hung : ∀ i, w.db.Hung i → i < w.db.nextId
  seqs : ∀ e ∈ w.db.events, e.seq < w.db.nextSeq
  refers : ∀ i j, w.db.Refers i j →
    j < w.db.nextId ∧ w.userOf i = w.userOf j
  keys : ∀ k ∈ w.keys, k.memoryId < w.db.nextId

/-- A row a transaction saw, or wrote under an id before `next`. -/
def Known (db : Db) (next i : Id) : Prop :=
  db.Keyed i ∨ db.nextId ≤ i ∧ i < next

/-- What a transaction may leave of what it saw: rows that refer to rows it
saw or wrote, and the rest as it was or gone. -/
structure Grown (db left : Db) : Prop where
  keyed : ∀ i, left.Keyed i → Known db left.nextId i
  hung : ∀ i, left.Hung i → db.Hung i
  refers : ∀ i j, left.Refers i j →
    db.Refers i j ∨ Known db left.nextId i ∧ Known db left.nextId j
  seqs : ∀ e ∈ left.events,
    e ∈ db.events ∨ db.nextSeq ≤ e.seq ∧ e.seq < left.nextSeq
  sources : left.sources = db.sources
  merges : left.merges = db.merges
  evidence : left.evidence ⊆ db.evidence
  nextId : db.nextId ≤ left.nextId
  nextSeq : db.nextSeq ≤ left.nextSeq

/-- What is `v`'s is the same in both. -/
structure Same (w w' : Accounts) (v : UserId) : Prop where
  own : w'.own v = w.own v
  keys : w'.ownKeys v = w.ownKeys v

variable {w : Accounts} {u v : UserId} {left : Db}

variable {i : Id}

theorem Same.refl (w : Accounts) (v : UserId) : Same w w v := ⟨rfl, rfl⟩

theorem Same.trans {w₁ w₂ : Accounts} (h₁ : Same w w₁ v) (h₂ : Same w₁ w₂ v) :
    Same w w₂ v :=
  ⟨h₂.own.trans h₁.own, h₂.keys.trans h₁.keys⟩

-- ======== the view

theorem keyed_view (hi : (w.view u).Keyed i) :
    w.userOf i = u ∧ w.db.Keyed i := by
  cases hi with
  | source hx =>
    obtain ⟨hx, hu⟩ := List.mem_filter.mp hx
    exact ⟨of_decide_eq_true hu, .source hx⟩
  | memory hx =>
    obtain ⟨hx, hu⟩ := List.mem_filter.mp hx
    exact ⟨of_decide_eq_true hu, .memory hx⟩
  | chunk hx =>
    obtain ⟨hx, hu⟩ := List.mem_filter.mp hx
    exact ⟨of_decide_eq_true hu, .chunk hx⟩
  | entity hx =>
    obtain ⟨hx, hu⟩ := List.mem_filter.mp hx
    exact ⟨of_decide_eq_true hu, .entity hx⟩
  | mention hx =>
    obtain ⟨hx, hu⟩ := List.mem_filter.mp hx
    exact ⟨of_decide_eq_true hu, .mention hx⟩
  | relationship hx =>
    obtain ⟨hx, hu⟩ := List.mem_filter.mp hx
    exact ⟨of_decide_eq_true hu, .relationship hx⟩
  | session hx =>
    obtain ⟨hx, hu⟩ := List.mem_filter.mp hx
    exact ⟨of_decide_eq_true hu, .session hx⟩
  | turn hx =>
    obtain ⟨hx, hu⟩ := List.mem_filter.mp hx
    exact ⟨of_decide_eq_true hu, .turn hx⟩
  | job hx =>
    obtain ⟨hx, hu⟩ := List.mem_filter.mp hx
    exact ⟨of_decide_eq_true hu, .job hx⟩

theorem fewer_view : (w.view u).Fewer w.db :=
  { Db.Fewer.refl w.db with
    sources := fun _ => List.mem_of_mem_filter
    memories := fun _ => List.mem_of_mem_filter
    chunks := fun _ => List.mem_of_mem_filter
    entities := fun _ => List.mem_of_mem_filter
    mentions := fun _ => List.mem_of_mem_filter
    relationships := fun _ => List.mem_of_mem_filter
    sessions := fun _ => List.mem_of_mem_filter
    turns := fun x hx => ⟨x, List.mem_of_mem_filter hx, rfl, fun _ hc => hc⟩
    jobs := fun _ => List.mem_of_mem_filter }

-- ====== what is gone

theorem userOf_goneMemories (hi : i ∈ w.goneMemories u left) :
    w.userOf i = u := by
  unfold goneMemories at hi
  obtain ⟨m, hm, rfl⟩ := List.mem_map.mp hi
  exact (keyed_view (.memory (List.mem_of_mem_filter hm))).1

theorem userOf_goneChunks (hi : i ∈ w.goneChunks u left) :
    w.userOf i = u := by
  unfold goneChunks at hi
  obtain ⟨c, hc, rfl⟩ := List.mem_map.mp hi
  exact (keyed_view (.chunk (List.mem_of_mem_filter hc))).1

theorem userOf_goneTurns (hi : i ∈ w.goneTurns u left) :
    w.userOf i = u := by
  unfold goneTurns at hi
  obtain ⟨x, hx, rfl⟩ := List.mem_map.mp hi
  exact (keyed_view (.turn (List.mem_of_mem_filter hx))).1

theorem Apart.adrift_eq (hw : Apart w) : w.adrift u left = [] := by
  unfold adrift
  rw [List.map_eq_nil_iff, List.filter_eq_nil_iff]
  intro c hc hgone
  rw [Bool.and_eq_true, decide_eq_true_eq, decide_eq_true_eq] at hgone
  refine hgone.1 ?_
  rw [(hw.refers _ _ (.chunk hc)).2]
  exact userOf_goneMemories hgone.2

theorem Apart.stands_eq {m c : Id} (hw : Apart w) (hi : w.userOf i ≠ u)
    (hm : w.db.Refers i m) (hc : w.db.Refers i c) :
    w.stands u left m c = true := by
  unfold stands
  rw [hw.adrift_eq]
  simp only [List.not_mem_nil, not_false_eq_true, decide_true, Bool.and_true,
    Bool.and_eq_true, decide_eq_true_eq]
  constructor
  · intro hgone
    exact hi ((hw.refers _ _ hm).2.trans (userOf_goneMemories hgone))
  · intro hgone
    exact hi ((hw.refers _ _ hc).2.trans (userOf_goneChunks hgone))

theorem Apart.unlink_eq {x : ChatMessage} (hw : Apart w)
    (hx : x ∈ w.db.chatMessages) (hu : w.userOf x.id ≠ u) :
    Deletion.unlink (w.goneTurns u left) x = x := by
  unfold Deletion.unlink
  rw [if_neg]
  intro hgone
  rw [Option.any_eq_true] at hgone
  obtain ⟨c, hc, hmem⟩ := hgone
  refine hu ((hw.refers _ _ (.turn hx hc)).2.trans ?_)
  exact userOf_goneTurns (of_decide_eq_true hmem)

-- ====== committing

theorem filter_rows_same {α : Type} (f f' : α → UserId) {rows new : List α}
    (hold : ∀ x ∈ rows, f' x = f x) (hnew : ∀ x ∈ new, f' x = u) :
    ((rows.filter fun x => decide (f x ≠ u)) ++ new).filter
      (fun x => decide (f' x = u)) = new := by
  rw [List.filter_append, List.filter_filter, List.filter_eq_nil_iff.mpr,
    List.filter_eq_self.mpr, List.nil_append]
  · exact fun x hx => decide_eq_true (hnew x hx)
  · intro x hx hno
    rw [Bool.and_eq_true, decide_eq_true_eq, decide_eq_true_eq, hold x hx]
      at hno
    exact hno.2 hno.1

theorem filter_rows_other {α : Type} (f f' : α → UserId) {rows new : List α}
    (hv : v ≠ u) (hold : ∀ x ∈ rows, f' x = f x)
    (hnew : ∀ x ∈ new, f' x = u) :
    ((rows.filter fun x => decide (f x ≠ u)) ++ new).filter
      (fun x => decide (f' x = v)) = rows.filter fun x => decide (f x = v) := by
  rw [List.filter_append, List.filter_filter,
    List.filter_eq_nil_iff (l := new) |>.mpr, List.append_nil]
  · refine List.filter_congr fun x hx => ?_
    rw [hold x hx, Bool.eq_iff_iff, Bool.and_eq_true, decide_eq_true_eq,
      decide_eq_true_eq]
    exact and_iff_left_of_imp fun hx => hx ▸ hv
  · intro x hx hno
    rw [decide_eq_true_eq, hnew x hx] at hno
    exact hv hno.symm

theorem commit_userOf_old (hi : i < w.db.nextId) :
    (w.commit u left).userOf i = w.userOf i := if_pos hi

theorem commit_userOf_new (hi : w.db.nextId ≤ i) :
    (w.commit u left).userOf i = u := if_neg (Nat.not_lt.mpr hi)

theorem Apart.commit_chunks (hw : Apart w) : (w.commit u left).db.chunks
    = (w.db.chunks.filter fun x => decide (w.userOf x.id ≠ u))
      ++ left.chunks := by
  refine congrArg (· ++ left.chunks) (List.filter_congr fun c hc => ?_)
  rw [Bool.eq_iff_iff, Bool.and_eq_true]
  refine and_iff_left_of_imp fun hu => decide_eq_true fun hgone => ?_
  refine of_decide_eq_true hu ((hw.refers _ _ (.chunk hc)).2.trans ?_)
  exact userOf_goneMemories hgone

theorem Apart.commit_mentions (hw : Apart w) : (w.commit u left).db.mentions
    = (w.db.mentions.filter fun x => decide (w.userOf x.id ≠ u))
      ++ left.mentions := by
  refine congrArg (· ++ left.mentions) (List.filter_congr fun x hx => ?_)
  rw [Bool.eq_iff_iff, Bool.and_eq_true]
  exact and_iff_left_of_imp fun hu => hw.stands_eq (of_decide_eq_true hu)
    (.mention hx) (.mentionChunk hx)

theorem Apart.commit_relationships (hw : Apart w) :
    (w.commit u left).db.relationships
      = (w.db.relationships.filter fun x => decide (w.userOf x.id ≠ u))
        ++ left.relationships := by
  refine congrArg (· ++ left.relationships) (List.filter_congr fun x hx => ?_)
  rw [Bool.eq_iff_iff, Bool.and_eq_true]
  exact and_iff_left_of_imp fun hu => hw.stands_eq (of_decide_eq_true hu)
    (.relationship hx) (.relationshipChunk hx)

theorem Apart.commit_evidence (hw : Apart w) :
    (w.commit u left).db.evidence = left.evidence := by
  refine List.filter_eq_self.mpr fun e _ => ?_
  rw [hw.adrift_eq]
  cases e.chunkId <;> rfl

theorem Apart.commit_chatMessages (hw : Apart w) :
    (w.commit u left).db.chatMessages
      = (w.db.chatMessages.filter fun x => decide (w.userOf x.id ≠ u))
        ++ left.chatMessages := by
  refine congrArg (· ++ left.chatMessages) ?_
  refine (List.map_congr_left fun x hx => ?_).trans (List.map_id _)
  obtain ⟨hx, hu⟩ := List.mem_filter.mp hx
  exact hw.unlink_eq hx (of_decide_eq_true hu)

theorem Apart.userOf_known (hw : Apart w) {next : Id}
    (hi : Known (w.view u) next i) : (w.commit u left).userOf i = u := by
  rcases hi with hold | hnew
  · obtain ⟨hu, hi⟩ := keyed_view hold
    exact (commit_userOf_old (hw.keyed i hi)).trans hu
  · exact commit_userOf_new hnew.1

theorem Grown.userOfEvent (hw : Apart w) (hg : Grown (w.view u) left)
    {e : IngestionEvent} (he : e ∈ left.events) :
    (w.commit u left).userOfEvent e.seq = u := by
  rcases hg.seqs e he with hold | hnew
  · obtain ⟨he, hu⟩ := List.mem_filter.mp hold
    exact (if_pos (hw.seqs e he)).trans (of_decide_eq_true hu)
  · exact if_neg (Nat.not_lt.mpr hnew.1)

theorem Apart.userOfEvent (hw : Apart w) {e : IngestionEvent}
    (he : e ∈ w.db.events) :
    (w.commit u left).userOfEvent e.seq = w.userOfEvent e.seq :=
  if_pos (hw.seqs e he)

theorem Apart.rows_same (hw : Apart w)
    (hkeyed : ∀ i, left.Keyed i → Known (w.view u) left.nextId i)
    {α : Type} (key : α → Id) {rows new : List α}
    (hold : ∀ x, x ∈ rows → w.db.Keyed (key x))
    (hnew : ∀ x, x ∈ new → left.Keyed (key x)) :
    ((rows.filter fun x => decide (w.userOf (key x) ≠ u)) ++ new).filter
      (fun x => decide ((w.commit u left).userOf (key x) = u)) = new :=
  filter_rows_same (fun x => w.userOf (key x))
    (fun x => (w.commit u left).userOf (key x))
    (fun x hx => commit_userOf_old (hw.keyed _ (hold x hx)))
    (fun x hx => hw.userOf_known (hkeyed _ (hnew x hx)))

theorem Apart.rows_other (hw : Apart w)
    (hkeyed : ∀ i, left.Keyed i → Known (w.view u) left.nextId i)
    (hv : v ≠ u) {α : Type} (key : α → Id) {rows new : List α}
    (hold : ∀ x, x ∈ rows → w.db.Keyed (key x))
    (hnew : ∀ x, x ∈ new → left.Keyed (key x)) :
    ((rows.filter fun x => decide (w.userOf (key x) ≠ u)) ++ new).filter
        (fun x => decide ((w.commit u left).userOf (key x) = v))
      = rows.filter fun x => decide (w.userOf (key x) = v) :=
  filter_rows_other (fun x => w.userOf (key x))
    (fun x => (w.commit u left).userOf (key x)) hv
    (fun x hx => commit_userOf_old (hw.keyed _ (hold x hx)))
    (fun x hx => hw.userOf_known (hkeyed _ (hnew x hx)))

theorem Grown.view_commit (hw : Apart w) (hg : Grown (w.view u) left) :
    (w.commit u left).view u = left := by
  refine Db.ext ?sources rfl ?events ?memories ?chunks ?entities ?mentions rfl
    ?relationships hw.commit_evidence rfl rfl ?sessions ?turns rfl ?jobs rfl
    rfl
  case sources =>
    exact hw.rows_same hg.keyed Source.id (fun _ => .source) (fun _ => .source)
  case memories =>
    exact hw.rows_same hg.keyed Memory.id (fun _ => .memory) (fun _ => .memory)
  case chunks =>
    refine (congrArg _ hw.commit_chunks).trans ?_
    exact hw.rows_same hg.keyed MemoryChunk.id (fun _ => .chunk)
      (fun _ => .chunk)
  case entities =>
    exact hw.rows_same hg.keyed Entity.id (fun _ => .entity) (fun _ => .entity)
  case mentions =>
    refine (congrArg _ hw.commit_mentions).trans ?_
    exact hw.rows_same hg.keyed EntityMention.id (fun _ => .mention)
      (fun _ => .mention)
  case relationships =>
    refine (congrArg _ hw.commit_relationships).trans ?_
    exact hw.rows_same hg.keyed EntityRelationship.id (fun _ => .relationship)
      (fun _ => .relationship)
  case sessions =>
    exact hw.rows_same hg.keyed ChatSession.id (fun _ => .session)
      (fun _ => .session)
  case turns =>
    refine (congrArg _ hw.commit_chatMessages).trans ?_
    exact hw.rows_same hg.keyed ChatMessage.id (fun _ => .turn) (fun _ => .turn)
  case jobs =>
    exact hw.rows_same hg.keyed Job.id (fun _ => .job) (fun _ => .job)
  case events =>
    exact filter_rows_same (fun e => w.userOfEvent e.seq)
      (fun e => (w.commit u left).userOfEvent e.seq)
      (fun e he => hw.userOfEvent he) (fun e he => hg.userOfEvent hw he)

theorem Apart.ownKeys_commit (hw : Apart w) (hv : v ≠ u) :
    (w.commit u left).ownKeys v = w.ownKeys v := by
  unfold ownKeys
  refine (List.filter_filter).trans (List.filter_congr fun k hk => ?_)
  rw [commit_userOf_old (hw.keys k hk), Bool.eq_iff_iff, Bool.and_eq_true,
    decide_eq_true_eq, decide_eq_true_eq]
  refine and_iff_left_of_imp fun hown hgone => hv ?_
  exact hown.symm.trans (userOf_goneMemories hgone)

/-- The rows of `v` in the tables without owners are the same in both. -/
structure SameHung (w : Accounts) (v : UserId) (left : Db) : Prop where
  merges : (left.merges.filter fun x => decide (w.userOf x.winnerId = v))
    = w.db.merges.filter fun x => decide (w.userOf x.winnerId = v)
  evidence : (left.evidence.filter fun x => decide (w.userOf x.owner = v))
    = w.db.evidence.filter fun x => decide (w.userOf x.owner = v)
  tags : (left.tags.filter fun x => decide (w.userOf x.sourceId = v))
    = w.db.tags.filter fun x => decide (w.userOf x.sourceId = v)
  attachments :
    (left.chatAttachments.filter fun x => decide (w.userOf x.messageId = v))
      = w.db.chatAttachments.filter fun x => decide (w.userOf x.messageId = v)

theorem Grown.own_commit (hw : Apart w) (hg : Grown (w.view u) left)
    (hv : v ≠ u) (hsame : SameHung w v left) :
    (w.commit u left).own v = w.own v := by
  have hhung : ∀ i, left.Hung i → (w.commit u left).userOf i = w.userOf i :=
    fun i hi => commit_userOf_old (hw.hung i (fewer_view.hung (hg.hung i hi)))
  refine Db.ext ?sources rfl ?events ?memories ?chunks ?entities ?mentions
    ?merges ?relationships ?evidence rfl ?tags ?sessions ?turns ?attachments
    ?jobs rfl rfl
  case sources =>
    exact hw.rows_other hg.keyed hv Source.id (fun _ => .source)
      (fun _ => .source)
  case memories =>
    exact hw.rows_other hg.keyed hv Memory.id (fun _ => .memory)
      (fun _ => .memory)
  case chunks =>
    refine (congrArg _ hw.commit_chunks).trans ?_
    exact hw.rows_other hg.keyed hv MemoryChunk.id (fun _ => .chunk)
      (fun _ => .chunk)
  case entities =>
    exact hw.rows_other hg.keyed hv Entity.id (fun _ => .entity)
      (fun _ => .entity)
  case mentions =>
    refine (congrArg _ hw.commit_mentions).trans ?_
    exact hw.rows_other hg.keyed hv EntityMention.id (fun _ => .mention)
      (fun _ => .mention)
  case relationships =>
    refine (congrArg _ hw.commit_relationships).trans ?_
    exact hw.rows_other hg.keyed hv EntityRelationship.id
      (fun _ => .relationship) (fun _ => .relationship)
  case sessions =>
    exact hw.rows_other hg.keyed hv ChatSession.id (fun _ => .session)
      (fun _ => .session)
  case turns =>
    refine (congrArg _ hw.commit_chatMessages).trans ?_
    exact hw.rows_other hg.keyed hv ChatMessage.id (fun _ => .turn)
      (fun _ => .turn)
  case jobs =>
    exact hw.rows_other hg.keyed hv Job.id (fun _ => .job) (fun _ => .job)
  case events =>
    exact filter_rows_other (fun e => w.userOfEvent e.seq)
      (fun e => (w.commit u left).userOfEvent e.seq) hv
      (fun e he => hw.userOfEvent he) (fun e he => hg.userOfEvent hw he)
  case merges =>
    refine (List.filter_congr fun x hx => ?_).trans hsame.merges
    rw [hhung _ (.merge hx)]
  case evidence =>
    refine (congrArg _ hw.commit_evidence).trans
      ((List.filter_congr fun x hx => ?_).trans hsame.evidence)
    rw [hhung _ (.evidence hx)]
  case tags =>
    refine (List.filter_congr fun x hx => ?_).trans hsame.tags
    rw [hhung _ (.tag hx)]
  case attachments =>
    refine (List.filter_congr fun x hx => ?_).trans hsame.attachments
    rw [hhung _ (.attachment hx)]

theorem Grown.same (hw : Apart w) (hg : Grown (w.view u) left) (hv : v ≠ u)
    (hsame : SameHung w v left) : Same w (w.commit u left) v :=
  ⟨hg.own_commit hw hv hsame, hw.ownKeys_commit hv⟩

-- ====== staying apart

theorem refers_keyed {db : Db} {j : Id} (h : db.Refers i j) :
    db.Keyed i ∨ db.Hung i := by
  cases h with
  | memory hx => exact .inl (.memory hx)
  | chunk hx => exact .inl (.chunk hx)
  | mention hx => exact .inl (.mention hx)
  | mentionChunk hx => exact .inl (.mention hx)
  | relationship hx => exact .inl (.relationship hx)
  | relationshipChunk hx => exact .inl (.relationship hx)
  | evidence hx => exact .inr (.evidence hx)
  | evidenceChunk hx _ => exact .inr (.evidence hx)
  | turn hx _ => exact .inl (.turn hx)

theorem Apart.lt (hw : Apart w) {j : Id} (h : w.db.Refers i j) :
    i < w.db.nextId :=
  (refers_keyed h).elim (hw.keyed i) (hw.hung i)

theorem mem_rows {α : Type} {p : α → Bool} {rows new : List α} {x : α}
    (hx : x ∈ rows.filter p ++ new) : x ∈ rows ∨ x ∈ new :=
  (List.mem_append.mp hx).imp_left List.mem_of_mem_filter

theorem Apart.keyed_commit (hw : Apart w)
    (hi : (w.commit u left).db.Keyed i) : w.db.Keyed i ∨ left.Keyed i := by
  cases hi with
  | source hx => exact (mem_rows hx).imp .source .source
  | memory hx => exact (mem_rows hx).imp .memory .memory
  | chunk hx => exact (mem_rows hx).imp .chunk .chunk
  | entity hx => exact (mem_rows hx).imp .entity .entity
  | mention hx => exact (mem_rows hx).imp .mention .mention
  | relationship hx => exact (mem_rows hx).imp .relationship .relationship
  | session hx => exact (mem_rows hx).imp .session .session
  | turn hx =>
    rw [hw.commit_chatMessages] at hx
    exact (mem_rows hx).imp .turn .turn
  | job hx => exact (mem_rows hx).imp .job .job

theorem hung_commit (hi : (w.commit u left).db.Hung i) :
    left.Hung i := by
  cases hi with
  | merge hx => exact .merge hx
  | evidence hx => exact .evidence (List.mem_of_mem_filter hx)
  | tag hx => exact .tag hx
  | attachment hx => exact .attachment hx

theorem Apart.refers_commit (hw : Apart w) {j : Id}
    (h : (w.commit u left).db.Refers i j) :
    w.db.Refers i j ∨ left.Refers i j := by
  cases h with
  | memory hx => exact (mem_rows hx).imp .memory .memory
  | chunk hx => exact (mem_rows hx).imp .chunk .chunk
  | mention hx => exact (mem_rows hx).imp .mention .mention
  | mentionChunk hx => exact (mem_rows hx).imp .mentionChunk .mentionChunk
  | relationship hx => exact (mem_rows hx).imp .relationship .relationship
  | relationshipChunk hx =>
    exact (mem_rows hx).imp .relationshipChunk .relationshipChunk
  | evidence hx => exact .inr (.evidence (List.mem_of_mem_filter hx))
  | evidenceChunk hx hc =>
    exact .inr (.evidenceChunk (List.mem_of_mem_filter hx) hc)
  | turn hx hc =>
    rw [hw.commit_chatMessages] at hx
    exact (mem_rows hx).imp (.turn · hc) (.turn · hc)

theorem Apart.known_lt (hw : Apart w) {next : Id}
    (hnext : w.db.nextId ≤ next) (hi : Known (w.view u) next i) : i < next := by
  rcases hi with hold | hnew
  · exact Nat.lt_of_lt_of_le (hw.keyed i (keyed_view hold).2) hnext
  · exact hnew.2

theorem Grown.apart (hw : Apart w) (hg : Grown (w.view u) left) :
    Apart (w.commit u left) where
  keyed i hi := by
    rcases hw.keyed_commit hi with hold | hleft
    · exact Nat.lt_of_lt_of_le (hw.keyed i hold) hg.nextId
    · exact hw.known_lt hg.nextId (hg.keyed i hleft)
  hung i hi :=
    Nat.lt_of_lt_of_le (hw.hung i (fewer_view.hung (hg.hung i (hung_commit hi))))
      hg.nextId
  seqs e he := by
    rcases mem_rows he with hold | hleft
    · exact Nat.lt_of_lt_of_le (hw.seqs e hold) hg.nextSeq
    · rcases hg.seqs e hleft with hold | hnew
      · exact Nat.lt_of_lt_of_le (hw.seqs e (List.mem_of_mem_filter hold))
          hg.nextSeq
      · exact hnew.2
  refers i j h := by
    have hstays : w.db.Refers i j → j < (w.commit u left).db.nextId
        ∧ (w.commit u left).userOf i = (w.commit u left).userOf j := by
      intro hold
      obtain ⟨hj, hsame⟩ := hw.refers i j hold
      refine ⟨Nat.lt_of_lt_of_le hj hg.nextId, ?_⟩
      rw [commit_userOf_old (hw.lt hold), commit_userOf_old hj, hsame]
    rcases hw.refers_commit h with hold | hleft
    · exact hstays hold
    · rcases hg.refers i j hleft with hold | ⟨hi, hj⟩
      · exact hstays (fewer_view.refers hold)
      · refine ⟨hw.known_lt hg.nextId hj, ?_⟩
        rw [hw.userOf_known hi, hw.userOf_known hj]
  keys k hk :=
    Nat.lt_of_lt_of_le (hw.keys k (List.mem_of_mem_filter hk)) hg.nextId

end Accounts

end MemoryOS
