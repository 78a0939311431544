/-
What `_history` reads off the turns of a session in which every answer
comes right after its question: the newest questions, each with its answer.

`_history` takes twice as many rows as it wants turns, and pairs each
question with the row after it; both are right as long as no question has
more than one answer and nothing stands between the two.

# A purge

Of two runs that differ in the text of one message a purge drops the item's rows,
its turns and its tags, which is all the two databases differ in
(`purged_text_gone`), unless the text went into the title of a session
(`purge_keeps_title`).
-/
import MemoryOS.Chat.Conversation
import MemoryOS.Chat.Proofs.Told

namespace MemoryOS

namespace Chat

/-- The answer that was generated for a question, among these rows. -/
def answerTo (answers : List (Id × Id)) (rows : List ChatMessage)
    (question : ChatMessage) : Option Text :=
  (rows.find? fun a => decide ((a.id, question.id) ∈ answers)).map (·.content)

/-- The user's turns. -/
def questions (rows : List ChatMessage) : List ChatMessage :=
  rows.filter fun m => decide (m.role = .user)

/-- The last `turns` of the user's turns, oldest first, each with the answer
that was generated for it. -/
def recalled (answers : List (Id × Id)) (rows : List ChatMessage)
    (turns : Nat) : List ConversationTurn :=
  ((questions rows).drop ((questions rows).length - turns)).map fun q =>
    ⟨q.content, answerTo answers rows q⟩

/-- A user's turn, which is no answer, and which nothing has answered. -/
def Unanswered (answers : List (Id × Id)) (rows : List ChatMessage)
    (q : ChatMessage) : Prop :=
  q.role = .user ∧ (∀ x, (q.id, x) ∉ answers)
    ∧ ∀ a ∈ rows, (a.id, q.id) ∉ answers

/-- Every answer comes right after its question, and once. What stands
before the first question answers none of these. -/
inductive Threaded (answers : List (Id × Id)) : List ChatMessage → Prop
  | lead {rows} (h : ∀ a ∈ rows, a.role = .assistant) : Threaded answers rows
  | said {rows q} (h : Threaded answers rows)
      (hq : Unanswered answers rows q) : Threaded answers (rows ++ [q])
  | answered {rows q a} (h : Threaded answers rows)
      (hq : Unanswered answers rows q)
      (ha : a.role = .assistant) (hfor : (a.id, q.id) ∈ answers)
      (honly : ∀ x ∈ rows, (a.id, x.id) ∉ answers) :
      Threaded answers (rows ++ [q, a])

variable {q : ChatMessage} {rows : List ChatMessage} {answers : List (Id × Id)}

theorem Threaded.congr {answers' : List (Id × Id)} (h : Threaded answers rows)
    (hsame : ∀ a ∈ rows, ∀ x, (a.id, x) ∈ answers' ↔ (a.id, x) ∈ answers) :
    Threaded answers' rows := by
  have hun {rows more : List ChatMessage} {q : ChatMessage}
      (hq : Unanswered answers rows q)
      (hsame : ∀ a ∈ rows ++ q :: more, ∀ x,
        (a.id, x) ∈ answers' ↔ (a.id, x) ∈ answers) :
      Unanswered answers' rows q := by
    refine ⟨hq.1, fun x hx => hq.2.1 x ?_, fun a ha hx => hq.2.2 a ha ?_⟩
    · exact (hsame q (by simp) x).mp hx
    · exact (hsame a (List.mem_append_left _ ha) q.id).mp hx
  induction h with
  | lead hall => exact .lead hall
  | said h hq ih =>
    exact .said (ih fun a ha => hsame a (List.mem_append_left _ ha))
      (hun hq hsame)
  | @answered rows q a h hq ha hfor honly ih =>
    have hmem : a ∈ rows ++ [q, a] := by simp
    exact .answered (ih fun b hb => hsame b (List.mem_append_left _ hb))
      (hun hq hsame) ha ((hsame a hmem q.id).mpr hfor)
      fun x hx hin => honly x hx ((hsame a hmem x.id).mp hin)

theorem Threaded.ends (h : Threaded answers rows) :
    (∀ m ∈ rows, m.role = .assistant)
      ∨ (∃ before q, rows = before ++ [q] ∧ Threaded answers before
        ∧ Unanswered answers before q)
      ∨ ∃ before q a, rows = before ++ [q, a] ∧ Threaded answers before
        ∧ Unanswered answers before q ∧ a.role = .assistant := by
  cases h with
  | lead hall => exact .inl hall
  | said h hq => exact .inr (.inl ⟨_, _, rfl, h, hq⟩)
  | answered h hq ha => exact .inr (.inr ⟨_, _, _, rfl, h, hq, ha⟩)

-- ======== the fold

theorem fold_assistants
    (h : ∀ a ∈ rows, a.role = .assistant) (answer : Option Text) :
    fold answer rows = [] := by
  induction rows generalizing answer with
  | nil => rfl
  | cons a rest ih =>
    unfold fold
    rw [if_pos (h a List.mem_cons_self)]
    exact ih (fun b hb => h b (List.mem_cons_of_mem _ hb)) _

theorem fold_said (hq : q.role = .user)
    (answer : Option Text) (rows : List ChatMessage) :
    fold answer (q :: rows) = ⟨q.content, answer⟩ :: fold none rows := by
  rw [fold, if_neg (by rw [hq]; decide)]

theorem fold_answered {a : ChatMessage} (ha : a.role = .assistant)
    (hq : q.role = .user) (rows : List ChatMessage) :
    fold none (a :: q :: rows)
      = ⟨q.content, some a.content⟩ :: fold none rows := by
  rw [fold, if_pos ha, fold_said hq]

variable {answers : List (Id × Id)} {rows : List ChatMessage}

theorem Threaded.enough (h : Threaded answers rows) {turns limit : Nat}
    (hlimit : turns * 2 ≤ limit) :
    (fold none (rows.reverse.take limit)).take turns
      = (fold none rows.reverse).take turns := by
  induction h generalizing turns limit with
  | lead hall =>
    rw [fold_assistants, fold_assistants]
    · exact fun a ha => hall a (List.mem_reverse.mp ha)
    · exact fun a ha =>
        hall a (List.mem_reverse.mp (List.mem_of_mem_take ha))
  | @said rows q h hq ih =>
    rw [List.reverse_append, List.reverse_singleton, List.singleton_append]
    cases turns with
    | zero => rw [List.take_zero, List.take_zero]
    | succ n =>
      obtain ⟨k, rfl⟩ : ∃ k, limit = k + 1 := ⟨limit - 1, by omega⟩
      rw [List.take_succ_cons, fold_said hq.1, fold_said hq.1,
        List.take_succ_cons, List.take_succ_cons, ih (by omega)]
  | @answered rows q a h hq ha hfor honly ih =>
    rw [List.reverse_append, show [q, a].reverse = [a, q] from rfl]
    cases turns with
    | zero => rw [List.take_zero, List.take_zero]
    | succ n =>
      obtain ⟨k, rfl⟩ : ∃ k, limit = k + 2 := ⟨limit - 2, by omega⟩
      show (fold none (a :: q :: rows.reverse.take k)).take (n + 1)
        = (fold none (a :: q :: rows.reverse)).take (n + 1)
      rw [fold_answered ha hq.1, fold_answered ha hq.1,
        List.take_succ_cons, List.take_succ_cons, ih (by omega)]

-- ====== the answers

theorem answerTo_append (rows more : List ChatMessage) (q : ChatMessage) :
    answerTo answers (rows ++ more) q
      = (answerTo answers rows q).or (answerTo answers more q) := by
  unfold answerTo
  rw [List.find?_append, Option.map_or]

theorem answerTo_none (h : ∀ a ∈ rows, (a.id, q.id) ∉ answers) :
    answerTo answers rows q = none := by
  unfold answerTo
  rw [List.find?_eq_none.mpr fun a ha => by simpa using h a ha]
  rfl

theorem questions_append (rows more : List ChatMessage) :
    questions (rows ++ more) = questions rows ++ questions more :=
  List.filter_append ..

theorem answers_keep {more : List ChatMessage}
    (h : ∀ a ∈ more, ∀ x ∈ rows, (a.id, x.id) ∉ answers) :
    ((questions rows).reverse.map fun q =>
        (⟨q.content, answerTo answers (rows ++ more) q⟩ : ConversationTurn))
      = (questions rows).reverse.map fun q =>
        ⟨q.content, answerTo answers rows q⟩ := by
  refine List.map_congr_left fun q hq => ?_
  have hmem : q ∈ rows := (List.mem_filter.mp (List.mem_reverse.mp hq)).1
  have hmore : answerTo answers more q = none :=
    answerTo_none fun a ha => h a ha q hmem
  rw [answerTo_append, hmore, Option.or_none]

theorem Threaded.fold_eq (h : Threaded answers rows) :
    fold none rows.reverse = (questions rows).reverse.map fun q =>
      ⟨q.content, answerTo answers rows q⟩ := by
  induction h with
  | @lead rows hall =>
    have hnone : questions rows = [] :=
      List.filter_eq_nil_iff.mpr fun a ha => by simp [hall a ha]
    rw [fold_assistants fun a ha => hall a (List.mem_reverse.mp ha), hnone]
    rfl
  | @said rows q h hq ih =>
    obtain ⟨huser, hkey, hun⟩ := hq
    have hone : questions [q] = [q] :=
      List.filter_eq_self.mpr fun m hm => by
        rw [List.mem_singleton.mp hm, huser]
        rfl
    rw [List.reverse_append, List.reverse_singleton, List.singleton_append,
      fold_said huser, ih, questions_append, hone, List.reverse_append,
      List.reverse_singleton, List.singleton_append, List.map_cons,
      answers_keep fun a ha x _ => (List.mem_singleton.mp ha) ▸ hkey x.id,
      answerTo_none]
    intro a ha
    rcases List.mem_append.mp ha with ha | ha
    · exact hun a ha
    · exact (List.mem_singleton.mp ha) ▸ hkey q.id
  | @answered rows q a h hq ha hfor honly ih =>
    obtain ⟨huser, hkey, hun⟩ := hq
    have hone : questions [q, a] = [q] := by
      unfold questions
      rw [List.filter_cons_of_pos (by simpa using huser),
        List.filter_cons_of_neg (by simp [ha]), List.filter_nil]
    have hanswer : answerTo answers (rows ++ [q, a]) q = some a.content := by
      rw [answerTo_append, answerTo_none hun, Option.none_or]
      unfold answerTo
      rw [List.find?_cons_of_neg (by simpa using hkey q.id),
        List.find?_cons_of_pos (by simpa using hfor)]
      rfl
    rw [List.reverse_append, show [q, a].reverse = [a, q] from rfl]
    show fold none (a :: q :: rows.reverse) = _
    rw [fold_answered ha huser, ih, questions_append, hone,
      List.reverse_append, List.reverse_singleton, List.singleton_append,
      List.map_cons, hanswer, answers_keep]
    intro b hb x hx
    rcases List.mem_cons.mp hb with rfl | hb
    · exact hkey x.id
    · rw [List.mem_singleton.mp hb]
      exact honly x hx

-- ====== the history

/-- Ordinals order the turns, as they were committed. -/
def InOrder (rows : List ChatMessage) : Prop :=
  rows.Pairwise fun m m' => m.ordinal < m'.ordinal

theorem orderedInsert_last {m : ChatMessage}
    (h : ∀ x ∈ rows, m.ordinal < x.ordinal) :
    rows.orderedInsert (fun a b => b.ordinal ≤ a.ordinal) m = rows ++ [m] := by
  induction rows with
  | nil => rfl
  | cons x rest ih =>
    rw [List.orderedInsert_cons,
      if_neg (Nat.not_le.mpr (h x List.mem_cons_self)),
      ih fun y hy => h y (List.mem_cons_of_mem _ hy), List.cons_append]

theorem newestFirst_eq (h : InOrder rows) :
    newestFirst rows = rows.reverse := by
  unfold newestFirst
  induction rows with
  | nil => rfl
  | cons m rest ih =>
    obtain ⟨hm, hrest⟩ := List.pairwise_cons.mp h
    rw [List.insertionSort_cons, ih hrest,
      orderedInsert_last fun x hx => hm x (List.mem_reverse.mp hx),
      List.reverse_cons]

theorem Unanswered.sublist {less : List ChatMessage}
    (h : Unanswered answers rows q) (hless : less.Sublist rows) :
    Unanswered answers less q :=
  ⟨h.1, h.2.1, fun a ha => h.2.2 a (hless.subset ha)⟩

theorem Threaded.before (h : Threaded answers rows) (hord : InOrder rows)
    (before : Nat) :
    Threaded answers (rows.filter fun m => decide (m.ordinal < before)) := by
  induction h with
  | lead hall => exact .lead fun a ha => hall a (List.mem_filter.mp ha).1
  | @said rows q h hq ih =>
    have hrows := ih (List.pairwise_append.mp hord).1
    rw [List.filter_append]
    by_cases hlt : q.ordinal < before
    · rw [List.filter_cons_of_pos (by simpa using hlt), List.filter_nil]
      exact .said hrows (hq.sublist List.filter_sublist)
    · rw [List.filter_cons_of_neg (by simpa using hlt), List.filter_nil,
        List.append_nil]
      exact hrows
  | @answered rows q a h hq ha hfor honly ih =>
    obtain ⟨hleft, hright, -⟩ := List.pairwise_append.mp hord
    have hrows := ih hleft
    have hqa : q.ordinal < a.ordinal :=
      (List.pairwise_cons.mp hright).1 a (List.mem_singleton_self a)
    have hq' := hq.sublist (List.filter_sublist
      (p := fun m => decide (m.ordinal < before)))
    rw [List.filter_append]
    by_cases hlt : q.ordinal < before
    · rw [List.filter_cons_of_pos (by simpa using hlt)]
      by_cases hlta : a.ordinal < before
      · rw [List.filter_cons_of_pos (by simpa using hlta), List.filter_nil]
        exact .answered hrows hq' ha hfor fun x hx =>
          honly x (List.mem_filter.mp hx).1
      · rw [List.filter_cons_of_neg (by simpa using hlta), List.filter_nil]
        exact .said hrows hq'
    · have hlta : ¬ a.ordinal < before := fun h =>
        hlt (Nat.lt_trans hqa h)
      rw [List.filter_cons_of_neg (by simpa using hlt),
        List.filter_cons_of_neg (by simpa using hlta), List.filter_nil,
        List.append_nil]
      exact hrows

theorem drop_eq_reverse_take {α : Type} (l : List α) (n : Nat) :
    l.drop (l.length - n) = (l.reverse.take n).reverse := by
  rw [List.take_reverse, List.reverse_reverse]

theorem history_eq {db : Db} {sessionId : Id}
    (h : Threaded answers (turnsOf db sessionId))
    (hord : InOrder (turnsOf db sessionId)) (before turns : Nat) :
    history db sessionId before turns
      = recalled answers (turnsBefore db sessionId before) turns := by
  have hbefore : Threaded answers (turnsBefore db sessionId before) :=
    h.before hord before
  have hord' : InOrder (turnsBefore db sessionId before) := hord.filter _
  unfold history recalled
  simp only
  rw [newestFirst_eq hord', drop_eq_reverse_take, List.reverse_reverse,
    hbefore.enough (Nat.le_refl _), hbefore.fold_eq, drop_eq_reverse_take,
    ← List.map_take, List.map_reverse]

end Chat

end MemoryOS

namespace MemoryOS

namespace Chat

open Lib Uploads

-- ====== statement vocabulary

/-- What is read: every table but the artifacts, and the log without the
hashes of the item. -/
def served (i : Item) (db : Db) : Db :=
  { db with artifacts := [], events := db.events.map (blankEvent i) }

variable {ports : ChatPorts} {i : Item} {s t : Store}

-- ======= the purge

/-- What a purge of the item leaves of a database. -/
structure Purged (i : Item) (now : Timestamp) (db db' : Db) : Prop where
  sources : db'.sources = db.sources
  events : db'.events = db.events ++ [(EventDraft.event {
    eventType := .itemPurged, sourceId := i.sourceId
    externalKey := i.externalKey } db.nextSeq now)]
  memories : db'.memories = db.memories.filter fun m => !decide (m.item = i)
  rows : db'.rows = db.rows.drop (versionIds i db)
  entities : db'.entities = db.entities
  merges : db'.merges = db.merges
  cache : db'.embeddingCache = db.embeddingCache
  tags : db'.tags = db.tags.filter fun t =>
    decide (¬ (t.sourceId = i.sourceId ∧ t.externalKey = i.externalKey))
  sessions : db'.chatSessions = db.chatSessions
  turns : db'.chatMessages = (db.chatMessages.filter fun m =>
    decide (m.externalKey ≠ some i.externalKey)).map
      (Deletion.unlink (turnIds i db))
  attachments : db'.chatAttachments = db.chatAttachments.filter fun a =>
    decide (a.messageId ∉ turnIds i db)
  jobs : db'.jobs = (Queue.enqueueIn db.jobs
    (graphSyncSpec (versionIds i db) []) db.nextId now).1
  nextId : db'.nextId = db.nextId + 1
  nextSeq : db'.nextSeq = db.nextSeq + 1

theorem purge_purged (hstored : Deletion.versionsOf s.db i ≠ [])
    (now : Timestamp) :
    Purged i now s.db (Deletion.purge s [(i, now)]).db := by
  cases hone : Deletion.purgeOne s.db i now with
  | error e =>
    unfold Deletion.purgeOne at hone
    simp only at hone
    rw [if_neg fun he => hstored (List.isEmpty_iff.mp he)] at hone
    cases hone
  | ok r =>
    have hpurge : (Deletion.purge s [(i, now)]).db = r.1 := by
      unfold Deletion.purge Deletion.purgeLoop Deletion.purgeLoop
      simp only [hone]
      rfl
    rw [hpurge]
    unfold Deletion.purgeOne at hone
    simp only at hone
    rw [if_neg fun he => hstored (List.isEmpty_iff.mp he)] at hone
    cases hone
    exact {
      sources := rfl, events := rfl, memories := rfl
      rows := rows_deleteMemories _ _
      entities := rfl, merges := rfl, cache := rfl, tags := rfl
      sessions := rfl, turns := rfl, attachments := rfl, jobs := rfl
      nextId := rfl, nextSeq := rfl }

theorem filter_blanked {α : Type*} {f : α → α} {p : α → Bool}
    (hp : ∀ x, p (f x) = p x) (hf : ∀ x, p x = true → f x = x) (l : List α) :
    (l.map f).filter p = l.filter p := by
  induction l with
  | nil => rfl
  | cons x rest ih =>
    rw [List.map_cons, List.filter_cons, List.filter_cons, hp, ih]
    cases hx : p x with
    | false => rfl
    | true => rw [if_pos rfl, if_pos rfl, hf x hx]

theorem Alike.served {db db' p p' : Db} {now : Timestamp} (h : Alike i db db')
    (hp : Purged i now db p) (hp' : Purged i now db' p') :
    Chat.served i p = Chat.served i p' := by
  have hmemories : p.memories = p'.memories := by
    have hkept := filter_blanked (p := fun m : Memory => !decide (m.item = i))
      (f := blankMemory i) (fun m => by simp) fun m hm => blankMemory_of_ne
        (of_decide_eq_false ((Bool.not_eq_true' _).mp hm))
    rw [hp.memories, hp'.memories, ← hkept, ← hkept db'.memories, h.memories]
  have hturns : p.chatMessages = p'.chatMessages := by
    have hkept := filter_blanked
      (p := fun m : ChatMessage => decide (m.externalKey ≠ some i.externalKey))
      (f := blankTurn i) (fun m => by simp) fun m hm => blankTurn_of_ne
        (of_decide_eq_true hm)
    rw [hp.turns, hp'.turns, ← hkept, ← hkept db'.chatMessages, h.turns,
      h.turnIds]
  have hrows : p.rows = p'.rows := by
    rw [hp.rows, hp'.rows, h.rows]
  have hevents : p.events.map (blankEvent i)
      = p'.events.map (blankEvent i) := by
    rw [hp.events, hp'.events, List.map_append, List.map_append, h.events,
      h.nextSeq]
  show Db.mk _ _ _ _ _ _ _ _ _ _ _ _ _ _ _ _ _ _
    = Db.mk _ _ _ _ _ _ _ _ _ _ _ _ _ _ _ _ _ _
  rw [Db.mk.injEq]
  refine ⟨?_, rfl, hevents, hmemories, congrArg Rows.chunks hrows, ?_,
    congrArg Rows.mentions hrows, ?_, congrArg Rows.relationships hrows,
    congrArg Rows.evidence hrows, ?_, ?_, ?_, hturns, ?_, ?_, ?_, ?_⟩
  · rw [hp.sources, hp'.sources, h.sources]
  · rw [hp.entities, hp'.entities, h.entities]
  · rw [hp.merges, hp'.merges, h.merges]
  · rw [hp.cache, hp'.cache, h.cache]
  · rw [hp.tags, hp'.tags, h.tags]
  · rw [hp.sessions, hp'.sessions, h.sessions]
  · rw [hp.attachments, hp'.attachments, h.attachments]
  · rw [hp.jobs, hp'.jobs, h.jobs, h.versionIds, h.nextId]
  · rw [hp.nextId, hp'.nextId, h.nextId]
  · rw [hp.nextSeq, hp'.nextSeq, h.nextSeq]

/-- After two runs that differ in the text of one stored message, and a purge
of its item, everything that is read is the same. -/
theorem purged_text_gone
    (hitem : ∃ now turnId, i.externalKey = messageKey ports now turnId)
    (hrun : Runs ports i (Spared ports i) s t)
    (hstored : Deletion.versionsOf s.db i ≠ []) (now : Timestamp) :
    served i (Deletion.purge s [(i, now)]).db
      = served i (Deletion.purge t [(i, now)]).db := by
  have h := run_same hitem hrun
  have hids : versionIds i t.db ≠ [] := by
    rw [← h.alike.versionIds]
    exact fun heq => hstored (List.map_eq_nil_iff.mp heq)
  have hstored' : Deletion.versionsOf t.db i ≠ [] := fun heq =>
    hids (List.map_eq_nil_iff.mpr heq)
  exact h.alike.served (purge_purged hstored now) (purge_purged hstored' now)

/-- A platform whose dates and ids are tallies, and whose digests are the
bytes. -/
def tallies : ChatPorts where
  day now := String.ofList (List.replicate (now.toNat / 86400000000) '0')
  uuid id := String.ofList (List.replicate id 'a')
  digest data := String.ofList (data.map fun b => Char.ofNat b.toNat)
  day_plain now := by simp
  uuid_plain id := by simp

/-- A message, into whichever session is open. -/
def say (text : String) (now : Timestamp) : Op :=
  .send text.toList none false false none now now

theorem referenced_empty : Referenced ({} : Store).db := List.forall_mem_nil _

/-- A message after the first, told twice, and purged. -/
theorem purged_text_gone_second :
    served ⟨1, "/aaaaaaaa.md"⟩ (Deletion.purge (step tallies
        (step tallies {} (say "The rent went up" 1))
          (say "I earn 100k" 2)) [(⟨1, "/aaaaaaaa.md"⟩, 9)]).db
      = served ⟨1, "/aaaaaaaa.md"⟩ (Deletion.purge (step tallies
        (step tallies {} (say "The rent went up" 1))
          (say "I earn 90k" 2)) [(⟨1, "/aaaaaaaa.md"⟩, 9)]).db := by
  refine @purged_text_gone tallies _ _ _ ⟨2, 8, rfl⟩ ?_ (by decide +kernel) 9
  refine .step (.step (.start ⟨rfl, referenced_empty⟩)
    (.same _ ⟨fun _ _ => rfl, fun _ => ⟨rfl, .inl rfl⟩,
      fun _ _ _ => rfl⟩))
    (.retold (.send (by decide +kernel) (by decide +kernel) (by decide +kernel))
      (by decide +kernel) ⟨?_, ?_, ?_⟩)
  · intro _ htitles
    exact absurd htitles (by decide +kernel)
  · exact fun _ => ⟨by decide +kernel, .inl rfl⟩
  · exact fun _ => List.forall_mem_nil _

/-- The first message of a session leaves its title. -/
theorem purge_keeps_title :
    ¬ ∀ s t : Store, Runs tallies ⟨1, "/aa.md"⟩ (fun _ _ _ _ => True) s t →
      Deletion.versionsOf s.db ⟨1, "/aa.md"⟩ ≠ [] → ∀ now,
        served ⟨1, "/aa.md"⟩ (Deletion.purge s [(⟨1, "/aa.md"⟩, now)]).db
          = served ⟨1, "/aa.md"⟩
            (Deletion.purge t [(⟨1, "/aa.md"⟩, now)]).db := by
  intro hclaim
  have hgone := hclaim (step tallies {} (say "I earn 100k" 1))
    (step tallies {} (say "I earn 90k" 1))
    (.step (.start ⟨rfl, referenced_empty⟩)
      (.retold (.send (by decide +kernel) (by decide +kernel)
        (by decide +kernel)) (by decide +kernel) trivial))
    (by decide +kernel) 9
  have hsessions := congrArg Db.chatSessions hgone
  exact absurd hsessions (by decide +kernel)

end Chat

end MemoryOS
