/-
Conversation state along every run of a conversation: ordinals, the count of
a session's turns, and what `_history` remembers.

Ordinals always order the turns. The count and the pairing hold as long as no
purge removes a turn, which leaves the count too high, and every answer is
recorded right after its question, which `_history` takes for granted
(`conversation_exact_iff`).
-/
import MemoryOS.Chat.Proofs.Recall
import MemoryOS.Chat.Proofs.Turned

namespace MemoryOS.Chat

open Lib Uploads

-- ====== statement vocabulary

/-- Ordinals within a session are unique and increase with commit order. -/
def Ordered (db : Db) : Prop :=
  ∀ sessionId, InOrder (turnsOf db sessionId)

/-- `message_count` is the number of turns of the session. -/
def Counted (db : Db) : Prop :=
  ∀ s ∈ db.chatSessions, s.messageCount = (turnsOf db s.id).length

/-- `_history` and `history_for` are the newest of the user's turns, each with
the answer that was generated for it. -/
def Remembers (c : Conversation) : Prop :=
  ∀ sessionId turns,
    (∀ before, history c.store.db sessionId before turns
      = recalled c.answers (turnsBefore c.store.db sessionId before) turns)
    ∧ ((sessionOf c.store.db sessionId).isSome →
      historyFor c.store.db (some sessionId) turns
        = recalled c.answers (turnsOf c.store.db sessionId) turns)

/-- The state of the conversation is exact. -/
structure Exact (c : Conversation) : Prop where
  ordered : Ordered c.store.db
  counted : Counted c.store.db
  remembers : Remembers c

/-- What the model is asked in a call: the question, its session and time. -/
def Call.asked : Call → Option (Id × Id × Timestamp)
  | .asking turn => some (turn.id, turn.sessionId, turn.createdAt)
  | _ => none

/-- The answer a step would record: its question, session and time. -/
def due (c : Conversation) : Act → Option (Id × Id × Timestamp)
  | .advance i (some _) _ => c.calls[i]?.bind Call.asked
  | .recordAnswer question sessionId _ now => some (question, sessionId, now)
  | _ => none

/-- The answer's row is accepted. -/
def Lands (db : Db) (sessionId : Id) (now : Timestamp) : Prop :=
  ∃ record, sessionOf db sessionId = some record ∧ ¬ now < record.startedAt

/-- The last turn of the session is the question, or nobody has asked
anything in it. -/
def AnswersNext (db : Db) (question sessionId : Id) : Prop :=
  (∀ m ∈ turnsOf db sessionId, m.role = .assistant)
    ∨ ∃ q, (turnsOf db sessionId).getLast? = some q ∧ q.role = .user
      ∧ q.id = question

/-- No turn goes with the item. -/
def KeepsTurns (db : Db) (item : Item) : Prop :=
  Deletion.versionsOf db item ≠ [] →
    ∀ m ∈ db.chatMessages, m.externalKey ≠ some item.externalKey

/-- A purge removes no turn, and an answer comes right after its question. -/
def OnTime (c : Conversation) (a : Act) : Prop :=
  (∀ question sessionId now, due c a = some (question, sessionId, now) →
    Lands c.store.db sessionId now →
      AnswersNext c.store.db question sessionId)
  ∧ ∀ item now, a = .purge item now → KeepsTurns c.store.db item

/-- A conversation in which nothing has been said. -/
structure Unopened (c : Conversation) : Prop where
  sessions : c.store.db.chatSessions = []
  messages : c.store.db.chatMessages = []
  calls : c.calls = []
  answers : c.answers = []

/-- The transactions of any calls, in any order. -/
def talk (ports : ChatPorts) : Machine Conversation Act Unit where
  step c a := some (act ports c a, [])

-- ====== what moves

variable {ports : ChatPorts} {c c' : Conversation} {db db' : Db}

/-- What a step does to the turns, and when the step is on time. -/
inductive Moved (c c' : Conversation) (onTime : Prop) : Prop
  | same (h : SameChat c.store.db c'.store.db)
      (answers : c'.answers = c.answers) (hon : onTime)
  | said (turn : ChatMessage) (h : Turned c.store.db c'.store.db turn)
      (role : turn.role = .user) (answers : c'.answers = c.answers)
      (hon : onTime)
  | answered (turn : ChatMessage) (question : Id)
      (h : Turned c.store.db c'.store.db turn) (role : turn.role = .assistant)
      (id : turn.id = c.store.db.nextId)
      (answers : c'.answers = c.answered question)
      (hon : onTime ↔ AnswersNext c.store.db question turn.sessionId)
  | purged (key : String) (gone : List Id)
      (messages : c'.store.db.chatMessages = (c.store.db.chatMessages.filter
        fun m => decide (m.externalKey ≠ some key)).map (Deletion.unlink gone))
      (links : (∀ m ∈ c.store.db.chatMessages, m.externalKey ≠ some key) →
        gone = [])
      (sessions : c'.store.db.chatSessions = c.store.db.chatSessions)
      (nextId : c.store.db.nextId ≤ c'.store.db.nextId)
      (answers : c'.answers = c.answers)
      (hon : onTime ↔ ∀ m ∈ c.store.db.chatMessages,
        m.externalKey ≠ some key)

variable {sessionId question : Id} {turn : ChatMessage} {now : Timestamp}
  {a : Act}

theorem onTime_of (hdue : due c a = none)
    (hpurge : ∀ item now, a ≠ .purge item now) : OnTime c a := by
  refine ⟨fun q sid now h => ?_, fun item now h => absurd h (hpurge item now)⟩
  rw [hdue] at h
  cases h

theorem onTime_answer (hdue : due c a = some (question, sessionId, now))
    (hpurge : ∀ item now, a ≠ .purge item now) :
    OnTime c a ↔ (Lands c.store.db sessionId now →
      AnswersNext c.store.db question sessionId) := by
  constructor
  · exact fun h => h.1 question sessionId now hdue
  · intro h
    refine ⟨fun q sid at' h' => ?_, fun item now h =>
      absurd h (hpurge item now)⟩
    rw [hdue] at h'
    cases h'
    exact h

theorem recordAnswer_lands (answer : Answer) (h : Lands db sessionId now) :
    ∃ db', recordAnswer db sessionId answer now = .ok db' := by
  obtain ⟨record, hrecord, hlate⟩ := h
  unfold recordAnswer addTurn
  simp only [hrecord]
  exact ⟨_, if_neg hlate⟩

theorem recordAnswer_moved {answer : Answer}
    (hdue : due c a = some (question, sessionId, now))
    (hpurge : ∀ item now, a ≠ .purge item now)
    (h : recordAnswer c.store.db sessionId answer now = .ok db')
    (hdb : c'.store.db = db') (hanswers : c'.answers = c.answered question) :
    Moved c c' (OnTime c a) := by
  obtain ⟨turn, record, hturn, hrole, hid, hsession, hrecord, hlate⟩ :=
    recordAnswer_turned h
  refine .answered turn question (hdb ▸ hturn) hrole hid hanswers ?_
  rw [onTime_answer hdue hpurge, hsession]
  exact ⟨fun h => h ⟨record, hrecord, hlate⟩, fun h _ => h⟩

theorem recordAnswer_refused {answer : Answer} {e : ChatFailure}
    (hdue : due c a = some (question, sessionId, now))
    (hpurge : ∀ item now, a ≠ .purge item now)
    (h : recordAnswer c.store.db sessionId answer now = .error e) :
    OnTime c a := by
  rw [onTime_answer hdue hpurge]
  intro hlands
  obtain ⟨db', hok⟩ := recordAnswer_lands answer hlands
  rw [h] at hok
  cases hok

theorem advance_moved {i : Nat} {answer : Option Answer} {clock : Timestamp}
    {call : Call} (hcall : c.calls[i]? = some call)
    (hstore : c'.store = (advanceCall ports c answer clock call).1.store)
    (hanswers : c'.answers
      = (advanceCall ports c answer clock call).1.answers) :
    Moved c c' (OnTime c (.advance i answer clock)) := by
  have hpurge : ∀ item now, Act.advance i answer clock ≠ .purge item now :=
    fun _ _ h => nomatch h
  have hidle (h : ∀ turn, call ≠ .asking turn) :
      OnTime c (.advance i answer clock) := by
    refine onTime_of ?_ hpurge
    cases answer with
    | none => rfl
    | some answer =>
      show c.calls[i]?.bind Call.asked = none
      rw [hcall]
      cases call with
      | asking turn => exact absurd rfl (h turn)
      | _ => rfl
  have hstay (h : (advanceCall ports c answer clock call).1 = c)
      (hon : OnTime c (.advance i answer clock)) :
      Moved c c' (OnTime c (.advance i answer clock)) := by
    rw [h] at hstore hanswers
    exact .same (hstore ▸ .refl _) hanswers hon
  cases call with
  | sending message intent stored sessionId newSession deferAnswer now =>
    cases hrun : appendUser c.store message intent stored sessionId
        newSession now clock with
    | error e =>
      refine hstay ?_ (hidle (by simp))
      simp only [advanceCall, hrun]
    | ok r =>
      obtain ⟨s, turn⟩ := r
      simp only [advanceCall, hrun] at hstore hanswers
      obtain ⟨hturn, hrole⟩ := appendUser_turned hrun
      exact .said turn (hstore ▸ hturn) hrole hanswers (hidle (by simp))
  | attaching sourceId staged message intent stored sessionId newSession now =>
    cases hrun : attachTurn ports c.store sourceId staged message intent
        stored sessionId newSession now clock with
    | error e =>
      refine hstay ?_ (hidle (by simp))
      simp only [advanceCall, hrun]
    | ok r =>
      obtain ⟨s, turn⟩ := r
      simp only [advanceCall, hrun] at hstore hanswers
      obtain ⟨hturn, hrole⟩ := attachTurn_turned hrun
      exact .said turn (hstore ▸ hturn) hrole hanswers (hidle (by simp))
  | correcting original source item corrected now =>
    by_cases hgone : (messageOf c.store.db original.id).isNone
    · refine hstay ?_ (hidle (by simp))
      simp only [advanceCall, if_pos hgone]
    · cases hrun : correctTurn c.store original source item corrected now
          clock with
      | error e =>
        refine hstay ?_ (hidle (by simp))
        simp only [advanceCall, if_neg hgone, hrun]
      | ok s =>
        simp only [advanceCall, if_neg hgone, hrun] at hstore hanswers
        obtain ⟨turn, hturn, hrole⟩ := correctTurn_turned hrun
        exact .said turn (hstore ▸ hturn) hrole hanswers (hidle (by simp))
  | asking turn =>
    cases answer with
    | none => exact hstay rfl (onTime_of rfl hpurge)
    | some answer =>
      have hdue : due c (.advance i (some answer) clock)
          = some (turn.id, turn.sessionId, turn.createdAt) := by
        show c.calls[i]?.bind Call.asked = _
        rw [hcall]
        rfl
      cases hrun : recordAnswer c.store.db turn.sessionId answer
          turn.createdAt with
      | error e =>
        refine hstay ?_ (recordAnswer_refused hdue hpurge hrun)
        simp only [advanceCall, hrun]
      | ok db =>
        simp only [advanceCall, hrun] at hstore hanswers
        exact recordAnswer_moved hdue hpurge hrun (hstore ▸ rfl) hanswers
  | done => exact hstay rfl (hidle (by simp))

theorem purge_moved (item : Item) (now : Timestamp) :
    Moved c (act ports c (.purge item now)) (OnTime c (.purge item now)) := by
  have hon : OnTime c (.purge item now) ↔ KeepsTurns c.store.db item := by
    refine ⟨fun h => h.2 item now rfl, fun h => ⟨nofun, ?_⟩⟩
    intro item' now' heq
    cases heq
    exact h
  by_cases hstored : Deletion.versionsOf c.store.db item = []
  · have hact : act ports c (.purge item now) = c := by
      simp only [act, Deletion.purgeOne, hstored, List.isEmpty_nil, if_true]
    rw [hact]
    exact .same (.refl _) rfl (hon.mpr fun h => absurd hstored h)
  · have hkept : OnTime c (.purge item now) ↔ ∀ m ∈ c.store.db.chatMessages,
        m.externalKey ≠ some item.externalKey :=
      hon.trans ⟨fun h => h hstored, fun h _ => h⟩
    have hne : ¬ (Deletion.versionsOf c.store.db item).isEmpty = true :=
      fun h => hstored (List.isEmpty_iff.mp h)
    simp only [act, Deletion.purgeOne, if_neg hne]
    refine .purged item.externalKey _ rfl (fun hnone => ?_) rfl
      (Nat.le_succ _) rfl hkept
    rw [List.map_eq_nil_iff, List.filter_eq_nil_iff]
    exact fun m hm => by simpa using hnone m hm

theorem act_moved (c : Conversation) (a : Act) :
    Moved c (act ports c a) (OnTime c a) := by
  have hsame {c' : Conversation} (h : SameChat c.store.db c'.store.db)
      (hanswers : c'.answers = c.answers) (hon : OnTime c a) :
      Moved c c' (OnTime c a) := .same h hanswers hon
  cases a with
  | send text sessionId newSession deferAnswer now =>
    have hon := onTime_of (c := c)
      (a := .send text sessionId newSession deferAnswer now) rfl
      fun _ _ h => nomatch h
    unfold act
    simp only
    split
    case isTrue => exact hsame (.refl _) rfl hon
    case isFalse => exact hsame (storedAs_chat _ _ _ _) rfl hon
  | attach uploads note sessionId newSession now =>
    have hon := onTime_of (c := c)
      (a := .attach uploads note sessionId newSession now) rfl
      fun _ _ h => nomatch h
    have hsource : SameChat c.store.db (uploadSource c.store.db).1 :=
      ensureSource_chat ..
    unfold act
    simp only
    split
    case isTrue => exact hsame (.refl _) rfl hon
    case isFalse =>
      split
      case h_1 => exact hsame hsource rfl hon
      case h_2 =>
        refine hsame (hsource.trans ?_) rfl hon
        simp only
        split
        case isTrue => exact .refl _
        case isFalse => exact storedAs_chat _ _ _ _
  | correct messageId text now =>
    have hon := onTime_of (c := c) (a := .correct messageId text now) rfl
      fun _ _ h => nomatch h
    unfold act
    simp only
    split
    case h_1 => exact hsame (.refl _) rfl hon
    case h_2 => exact hsame (ensureSource_chat ..) rfl hon
  | advance i answer clock =>
    cases hcall : c.calls[i]? with
    | none =>
      refine hsame ?_ ?_ (onTime_of ?_ fun _ _ h => nomatch h)
      · simp only [act, hcall]
        exact .refl _
      · simp only [act, hcall]
      · cases answer with
        | none => rfl
        | some answer =>
          show c.calls[i]?.bind Call.asked = none
          rw [hcall]
          rfl
    | some call =>
      apply @advance_moved ports c _ i answer clock call hcall
      · simp only [act, hcall]
      · simp only [act, hcall]
  | recordAnswer question sessionId answer now =>
    cases hrun : recordAnswer c.store.db sessionId answer now with
    | error e =>
      have hact : act ports c (.recordAnswer question sessionId answer now)
          = c := by simp only [act, hrun]
      rw [hact]
      exact hsame (.refl _) rfl
        (recordAnswer_refused rfl (fun _ _ h => nomatch h) hrun)
    | ok db =>
      refine recordAnswer_moved rfl (fun _ _ h => nomatch h) hrun ?_ ?_
      · simp only [act, hrun]
      · simp only [act, hrun]
  | purge item now => exact purge_moved item now
  | shred hash =>
    have hon := onTime_of (c := c) (a := .shred hash) rfl
      fun _ _ h => nomatch h
    unfold act
    simp only
    split
    case isTrue => exact hsame (.refl _) rfl hon
    case isFalse => exact hsame (.refl _) rfl hon

-- ====== the invariant

/-- What the schema and the locks keep of the sessions and their turns. -/
structure Sound (db : Db) : Prop where
  known : ∀ m ∈ db.chatMessages, m.sessionId ∈ db.chatSessions.map (·.id)
  sessionIds : (db.chatSessions.map (·.id)).Nodup
  sessionsBelow : ∀ s ∈ db.chatSessions, s.id < db.nextId
  turnIds : (db.chatMessages.map (·.id)).Nodup
  turnsBelow : ∀ m ∈ db.chatMessages, m.id < db.nextId
  ordered : Ordered db
  /-- `history_for` cuts at the count. -/
  cut : ∀ s ∈ db.chatSessions, ∀ m ∈ turnsOf db s.id,
    m.ordinal < s.messageCount

theorem mem_turnsOf {m : ChatMessage} :
    m ∈ turnsOf db sessionId ↔ m ∈ db.chatMessages
      ∧ m.sessionId = sessionId := by
  unfold turnsOf
  rw [List.mem_filter, decide_eq_true_iff]

theorem ordinal_lt_next {m : ChatMessage}
    (hm : m ∈ turnsOf db sessionId) : m.ordinal < nextOrdinal db sessionId := by
  unfold nextOrdinal
  split
  case h_1 hnone =>
    rw [List.max?_eq_none_iff, List.map_eq_nil_iff] at hnone
    have hm' : m ∈ db.chatMessages.filter fun m =>
      decide (m.sessionId = sessionId) := hm
    rw [hnone] at hm'
    cases hm'
  case h_2 highest hmax =>
    exact Nat.lt_succ_of_le ((List.max?_eq_some_iff.mp hmax).2 _
      (List.mem_map_of_mem hm))

theorem nextOrdinal_le {n : Nat}
    (h : ∀ m ∈ turnsOf db sessionId, m.ordinal < n) :
    nextOrdinal db sessionId ≤ n := by
  unfold nextOrdinal
  split
  case h_1 => exact Nat.zero_le n
  case h_2 highest hmax =>
    obtain ⟨m, hm, rfl⟩ := List.mem_map.mp (List.max?_eq_some_iff.mp hmax).1
    exact h m hm

theorem moved_id (turn : ChatMessage) (cutTitle : Bool) (s : ChatSession) :
    (moved turn cutTitle s).id = s.id := by
  unfold moved
  split <;> rfl

theorem moved_count (turn : ChatMessage) (cutTitle : Bool) (s : ChatSession) :
    (moved turn cutTitle s).messageCount = s.messageCount
      + (if s.id = turn.sessionId then 1 else 0) := by
  unfold moved
  split <;> rfl

theorem Turned.turnsOf (h : Turned db db' turn)
    (sessionId : Id) : Chat.turnsOf db' sessionId = Chat.turnsOf db sessionId
      ++ if turn.sessionId = sessionId then [turn] else [] := by
  unfold Chat.turnsOf
  rw [h.messages, List.filter_append]
  congr 1
  by_cases heq : turn.sessionId = sessionId
  · rw [if_pos heq, List.filter_cons_of_pos (by simpa using heq),
      List.filter_nil]
  · rw [if_neg heq, List.filter_cons_of_neg (by simpa using heq),
      List.filter_nil]

theorem Sound.turnsOf_fresh (h : Sound db)
    (hle : db.nextId ≤ sessionId) : turnsOf db sessionId = [] := by
  refine List.filter_eq_nil_iff.mpr fun m hm => ?_
  obtain ⟨s, hs, hid⟩ := List.mem_map.mp (h.known m hm)
  have hlt := h.sessionsBelow s hs
  rw [decide_eq_true_iff]
  intro heq
  exact absurd (hid.trans heq ▸ hlt) (Nat.not_lt.mpr hle)

theorem Sound.opened (h : Sound db) {sessions : List ChatSession}
    (hopened : Opened db db' sessions) (hle : db.nextId ≤ db'.nextId) :
    Sound { db with chatSessions := sessions, nextId := db'.nextId } := by
  have hbelow : ∀ m ∈ db.chatMessages, m.id < db'.nextId := fun m hm =>
    Nat.lt_of_lt_of_le (h.turnsBelow m hm) hle
  obtain rfl | ⟨fresh, rfl, hzero, hfresh, hlt⟩ := hopened
  · exact {
      known := h.known, sessionIds := h.sessionIds
      sessionsBelow := fun s hs => Nat.lt_of_lt_of_le (h.sessionsBelow s hs) hle
      turnIds := h.turnIds, turnsBelow := hbelow
      ordered := h.ordered, cut := h.cut }
  · constructor
    · intro m hm
      rw [List.map_append]
      exact List.mem_append_left _ (h.known m hm)
    · rw [List.map_append, List.nodup_append]
      refine ⟨h.sessionIds, List.nodup_singleton _, fun id hid id' hid' => ?_⟩
      obtain ⟨s, hs, rfl⟩ := List.mem_map.mp hid
      rw [List.mem_singleton.mp hid']
      exact Nat.ne_of_lt (Nat.lt_of_lt_of_le (h.sessionsBelow s hs) hfresh)
    · intro s hs
      rcases List.mem_append.mp hs with hs | hs
      · exact Nat.lt_of_lt_of_le (h.sessionsBelow s hs) hle
      · rw [List.mem_singleton.mp hs]
        exact hlt
    · exact h.turnIds
    · exact hbelow
    · exact h.ordered
    · intro s hs m hm
      rcases List.mem_append.mp hs with hs | hs
      · exact h.cut s hs m hm
      · rw [List.mem_singleton.mp hs] at hm
        have hm' : m ∈ turnsOf db fresh.id := hm
        rw [h.turnsOf_fresh hfresh] at hm'
        cases hm'

theorem Counted.opened (hs : Sound db) (h : Counted db)
    {sessions : List ChatSession} (hopened : Opened db db' sessions) :
    ∀ s ∈ sessions, s.messageCount = (turnsOf db s.id).length := by
  obtain rfl | ⟨fresh, rfl, hzero, hfresh, -⟩ := hopened
  · exact h
  · intro s hmem
    rcases List.mem_append.mp hmem with hmem | hmem
    · exact h s hmem
    · rw [List.mem_singleton.mp hmem, hs.turnsOf_fresh hfresh, hzero]
      rfl

theorem Sound.turned (h : Sound db)
    (ht : Turned db db' turn) : Sound db' := by
  obtain ⟨sessions, cutTitle, hopened, hmoved, hmem⟩ := ht.sessions
  have hle : db.nextId ≤ db'.nextId :=
    Nat.le_of_lt (Nat.lt_of_le_of_lt ht.fresh ht.minted)
  have hseen := h.opened hopened hle
  have hids : db'.chatSessions.map (·.id) = sessions.map (·.id) := by
    rw [hmoved, List.map_map]
    exact List.map_congr_left fun s _ => moved_id turn cutTitle s
  constructor
  · intro m hm
    rw [hids]
    rw [ht.messages] at hm
    rcases List.mem_append.mp hm with hm | hm
    · exact hseen.known m hm
    · rw [List.mem_singleton.mp hm]
      exact hmem
  · rw [hids]
    exact hseen.sessionIds
  · intro s hs
    rw [hmoved] at hs
    obtain ⟨s₀, hs₀, rfl⟩ := List.mem_map.mp hs
    rw [moved_id]
    exact hseen.sessionsBelow s₀ hs₀
  · rw [ht.messages, List.map_append, List.nodup_append]
    refine ⟨h.turnIds, List.nodup_singleton _, fun id hid id' hid' => ?_⟩
    obtain ⟨m, hm, rfl⟩ := List.mem_map.mp hid
    rw [List.mem_singleton.mp hid']
    exact Nat.ne_of_lt (Nat.lt_of_lt_of_le (h.turnsBelow m hm) ht.fresh)
  · intro m hm
    rw [ht.messages] at hm
    rcases List.mem_append.mp hm with hm | hm
    · exact hseen.turnsBelow m hm
    · rw [List.mem_singleton.mp hm]
      exact ht.minted
  · intro sessionId
    rw [ht.turnsOf]
    split
    case isTrue heq =>
      refine List.pairwise_append.mpr ⟨h.ordered sessionId,
        List.pairwise_singleton _ _, fun m hm m' hm' => ?_⟩
      rw [List.mem_singleton.mp hm', ht.ordinal, heq]
      exact ordinal_lt_next hm
    case isFalse =>
      rw [List.append_nil]
      exact h.ordered sessionId
  · intro s hs m hm
    rw [hmoved] at hs
    obtain ⟨s₀, hs₀, rfl⟩ := List.mem_map.mp hs
    rw [moved_id, ht.turnsOf] at hm
    have hcut : ∀ m ∈ turnsOf db s₀.id, m.ordinal < s₀.messageCount :=
      hseen.cut s₀ hs₀
    rw [moved_count]
    rcases List.mem_append.mp hm with hm | hm
    · exact Nat.lt_of_lt_of_le (hcut m hm) (Nat.le_add_right _ _)
    · split at hm
      case isTrue heq =>
        rw [List.mem_singleton.mp hm, if_pos heq.symm, ht.ordinal, heq]
        exact Nat.lt_succ_of_le (nextOrdinal_le hcut)
      case isFalse => cases hm

theorem Counted.turned (hs : Sound db) (h : Counted db)
    (ht : Turned db db' turn) : Counted db' := by
  obtain ⟨sessions, cutTitle, hopened, hmoved, -⟩ := ht.sessions
  intro s hmem
  rw [hmoved] at hmem
  obtain ⟨s₀, hs₀, rfl⟩ := List.mem_map.mp hmem
  rw [moved_count, moved_id, ht.turnsOf, List.length_append,
    h.opened hs hopened s₀ hs₀]
  by_cases heq : turn.sessionId = s₀.id
  · rw [if_pos heq, if_pos heq.symm, List.length_singleton]
  · rw [if_neg heq, if_neg (Ne.symm heq), List.length_nil]

theorem Sound.same (h : Sound db) (hsame : SameChat db db') : Sound db' := by
  have hturns : ∀ id, Chat.turnsOf db' id = Chat.turnsOf db id := fun id => by
    unfold Chat.turnsOf
    rw [hsame.messages]
  constructor
  · rw [hsame.messages, hsame.sessions]
    exact h.known
  · rw [hsame.sessions]
    exact h.sessionIds
  · rw [hsame.sessions]
    exact fun s hs => Nat.lt_of_lt_of_le (h.sessionsBelow s hs) hsame.nextId
  · rw [hsame.messages]
    exact h.turnIds
  · rw [hsame.messages]
    exact fun m hm => Nat.lt_of_lt_of_le (h.turnsBelow m hm) hsame.nextId
  · exact fun id => hturns id ▸ h.ordered id
  · rw [hsame.sessions]
    exact fun s hs => hturns s.id ▸ h.cut s hs

theorem Counted.same (h : Counted db) (hsame : SameChat db db') :
    Counted db' := by
  intro s hs
  unfold Chat.turnsOf
  rw [hsame.messages]
  rw [hsame.sessions] at hs
  exact h s hs

theorem unlink_fields (gone : List Id) (m : ChatMessage) :
    (Deletion.unlink gone m).id = m.id
      ∧ (Deletion.unlink gone m).sessionId = m.sessionId
      ∧ (Deletion.unlink gone m).ordinal = m.ordinal := by
  unfold Deletion.unlink
  split <;> exact ⟨rfl, rfl, rfl⟩

theorem turnsOf_purged {key : String} {gone : List Id}
    (h : db'.chatMessages = (db.chatMessages.filter fun m =>
      decide (m.externalKey ≠ some key)).map (Deletion.unlink gone))
    (sessionId : Id) : turnsOf db' sessionId = ((turnsOf db sessionId).filter
      fun m => decide (m.externalKey ≠ some key)).map
        (Deletion.unlink gone) := by
  unfold turnsOf
  rw [h, List.filter_map, List.filter_filter, List.filter_filter]
  refine congrArg _ (List.filter_congr fun m _ => ?_)
  show (decide ((Deletion.unlink gone m).sessionId = sessionId) && _) = _
  rw [(unlink_fields gone m).2.1, Bool.and_comm]

/-- The conversation is exact, and will stay so while it is on time. -/
structure Steady (c : Conversation) : Prop where
  sound : Sound c.store.db
  counted : Counted c.store.db
  threads : ∀ sessionId, Threaded c.answers (turnsOf c.store.db sessionId)
  below : ∀ p ∈ c.answers, p.1 < c.store.db.nextId ∧ p.2 < c.store.db.nextId

theorem Unopened.steady (h : Unopened c) : Steady c := by
  have hturns : ∀ id, turnsOf c.store.db id = [] := fun id => by
    unfold turnsOf
    rw [h.messages]
    rfl
  refine ⟨?_, ?_, ?_, ?_⟩
  · constructor
    · rw [h.messages]
      exact List.forall_mem_nil _
    · rw [h.sessions]
      exact List.nodup_nil
    · rw [h.sessions]
      exact List.forall_mem_nil _
    · rw [h.messages]
      exact List.nodup_nil
    · rw [h.messages]
      exact List.forall_mem_nil _
    · intro id
      rw [hturns]
      exact List.Pairwise.nil
    · rw [h.sessions]
      exact List.forall_mem_nil _
  · unfold Counted
    rw [h.sessions]
    exact List.forall_mem_nil _
  · intro id
    rw [hturns]
    exact .lead (List.forall_mem_nil _)
  · rw [h.answers]
    exact List.forall_mem_nil _

theorem Steady.exact (h : Steady c) : Exact c := by
  refine ⟨h.sound.ordered, h.counted, fun sessionId turns => ⟨fun before => ?_,
    fun hfound => ?_⟩⟩
  · exact history_eq (h.threads sessionId) (h.sound.ordered sessionId) ..
  · obtain ⟨record, hrecord⟩ := Option.isSome_iff_exists.mp hfound
    obtain ⟨hmem, rfl⟩ := sessionOf_mem hrecord
    unfold historyFor
    simp only [hrecord]
    rw [history_eq (h.threads record.id) (h.sound.ordered record.id)]
    -- every turn is below the count
    have hall : turnsBefore c.store.db record.id record.messageCount
        = turnsOf c.store.db record.id :=
      List.filter_eq_self.mpr fun m hm => by
        simpa using h.sound.cut record hmem m hm
    rw [hall]

theorem Steady.said (h : Steady c) {turn : ChatMessage}
    (ht : Turned c.store.db c'.store.db turn) (hrole : turn.role = .user)
    (hanswers : c'.answers = c.answers) : Steady c' := by
  have hle : c.store.db.nextId ≤ c'.store.db.nextId :=
    Nat.le_of_lt (Nat.lt_of_le_of_lt ht.fresh ht.minted)
  refine ⟨h.sound.turned ht, h.counted.turned h.sound ht, fun id => ?_, ?_⟩
  · rw [hanswers, ht.turnsOf]
    split
    case isTrue =>
      refine .said (h.threads id) ⟨hrole, fun x hx => ?_, fun a _ hx => ?_⟩
      · exact Nat.not_lt.mpr ht.fresh (h.below _ hx).1
      · exact Nat.not_lt.mpr ht.fresh (h.below _ hx).2
    case isFalse =>
      rw [List.append_nil]
      exact h.threads id
  · rw [hanswers]
    exact fun p hp => ⟨Nat.lt_of_lt_of_le (h.below p hp).1 hle,
      Nat.lt_of_lt_of_le (h.below p hp).2 hle⟩

theorem messageOf_isSome {id : Id} :
    (messageOf db id).isSome ↔ ∃ m ∈ db.chatMessages, m.id = id := by
  unfold messageOf
  rw [List.find?_isSome]
  simp only [decide_eq_true_eq]

theorem mem_answered {p : Id × Id} :
    p ∈ c.answered question ↔ p ∈ c.answers
      ∨ (messageOf c.store.db question).isSome
        ∧ p = (c.store.db.nextId, question) := by
  unfold Conversation.answered
  split
  case isTrue h => simp [h]
  case isFalse h => simp [h]

theorem Steady.answered (h : Steady c) {turn : ChatMessage} {question : Id}
    (ht : Turned c.store.db c'.store.db turn) (hrole : turn.role = .assistant)
    (hid : turn.id = c.store.db.nextId)
    (hanswers : c'.answers = c.answered question)
    (hnext : AnswersNext c.store.db question turn.sessionId) : Steady c' := by
  have hle : c.store.db.nextId ≤ c'.store.db.nextId :=
    Nat.le_of_lt (Nat.lt_of_le_of_lt ht.fresh ht.minted)
  -- the turns there were answer what they did
  have hold : ∀ a ∈ c.store.db.chatMessages, ∀ x,
      (a.id, x) ∈ c'.answers ↔ (a.id, x) ∈ c.answers := by
    intro a ha x
    rw [hanswers, mem_answered, or_iff_left]
    rintro ⟨-, heq⟩
    exact Nat.ne_of_lt (h.sound.turnsBelow a ha) (Prod.mk.inj heq).1
  have hrows : ∀ id, ∀ a ∈ turnsOf c.store.db id, a ∈ c.store.db.chatMessages :=
    fun id a ha => (mem_turnsOf.mp ha).1
  have hthreads : ∀ id, Threaded c'.answers (turnsOf c.store.db id) := fun id =>
    (h.threads id).congr fun a ha => hold a (hrows id a ha)
  have hnew : ∀ x, (turn.id, x) ∈ c'.answers → x = question := by
    intro x hx
    rw [hanswers, mem_answered] at hx
    obtain hx | ⟨-, heq⟩ := hx
    · exact absurd (hid ▸ (h.below _ hx).1) (Nat.lt_irrefl _)
    · exact (Prod.mk.inj heq).2
  refine ⟨h.sound.turned ht, h.counted.turned h.sound ht, fun id => ?_, ?_⟩
  · rw [ht.turnsOf]
    split
    case isFalse =>
      rw [List.append_nil]
      exact hthreads id
    case isTrue heq =>
      subst heq
      obtain hall | ⟨q, hlast, huser, hq⟩ := hnext
      · refine .lead fun m hm => ?_
        rcases List.mem_append.mp hm with hm | hm
        · exact hall m hm
        · rw [List.mem_singleton.mp hm]
          exact hrole
      · obtain ⟨before, hbefore⟩ := List.getLast?_eq_some_iff.mp hlast
        have hthread := hthreads turn.sessionId
        have hmem : ∀ a ∈ before ++ [q], a ∈ c.store.db.chatMessages :=
          fun a ha => hrows turn.sessionId a (hbefore ▸ ha)
        have hqmem := hmem q (by simp)
        have hids : ((before ++ [q]).map (·.id)).Nodup := hbefore ▸
          h.sound.turnIds.sublist (List.filter_sublist.map _)
        rw [hbefore] at hthread ⊢
        have hopen : Threaded c'.answers before
            ∧ Unanswered c'.answers before q := by
          rcases hthread.ends with hall | ⟨b, q', heq, hb, hun⟩
              | ⟨b, q', a, heq, -, -, ha⟩
          · have hassistant := hall q (by simp)
            rw [huser] at hassistant
            cases hassistant
          · obtain ⟨rfl, hq'⟩ := List.append_inj' heq rfl
            cases hq'
            exact ⟨hb, hun⟩
          · have hqa : q = a := by
              have := congrArg List.getLast? heq
              simpa using this
            rw [hqa, ha] at huser
            cases huser
        rw [List.append_assoc]
        refine .answered hopen.1 hopen.2 hrole ?_ fun x hx hin => ?_
        · rw [hanswers, mem_answered]
          refine .inr ⟨messageOf_isSome.mpr ⟨q, hqmem, hq⟩, ?_⟩
          rw [hid, hq]
        · rw [List.map_append, List.nodup_append] at hids
          exact hids.2.2 x.id (List.mem_map_of_mem hx) q.id (by simp)
            ((hnew x.id hin).trans hq.symm)
  · intro p hp
    rw [hanswers, mem_answered] at hp
    obtain hp | ⟨hsome, rfl⟩ := hp
    · exact ⟨Nat.lt_of_lt_of_le (h.below p hp).1 hle,
        Nat.lt_of_lt_of_le (h.below p hp).2 hle⟩
    · obtain ⟨m, hm, rfl⟩ := messageOf_isSome.mp hsome
      exact ⟨hid ▸ ht.minted,
        Nat.lt_of_lt_of_le (h.sound.turnsBelow m hm) hle⟩

theorem Steady.same (h : Steady c) (hsame : SameChat c.store.db c'.store.db)
    (hanswers : c'.answers = c.answers) : Steady c' := by
  refine ⟨h.sound.same hsame, h.counted.same hsame, fun id => ?_,
    fun p hp => ?_⟩
  · unfold turnsOf
    rw [hanswers, hsame.messages]
    exact h.threads id
  · rw [hanswers] at hp
    exact ⟨Nat.lt_of_lt_of_le (h.below p hp).1 hsame.nextId,
      Nat.lt_of_lt_of_le (h.below p hp).2 hsame.nextId⟩

theorem Steady.step (h : Steady c) {onTime : Prop} (hmoved : Moved c c' onTime)
    (hon : onTime) : Steady c' := by
  cases hmoved with
  | same hsame hanswers _ => exact h.same hsame hanswers
  | said turn ht hrole hanswers _ => exact h.said ht hrole hanswers
  | answered turn question ht hrole hid hanswers hiff =>
    exact h.answered ht hrole hid hanswers (hiff.mp hon)
  | purged key gone hmessages hlinks hsessions hnext hanswers hiff =>
    have hkeep := hiff.mp hon
    refine h.same ⟨hsessions, ?_, hnext⟩ hanswers
    rw [hmessages, hlinks hkeep, List.filter_eq_self.mpr fun m hm => by
      simpa using hkeep m hm]
    exact (List.map_congr_left fun m _ => by simp [Deletion.unlink]).trans
      (List.map_id _)

-- ====== what goes wrong

theorem keeps_of_counted (h : Steady c) {key : String} {gone : List Id}
    (hmessages : c'.store.db.chatMessages = (c.store.db.chatMessages.filter
      fun m => decide (m.externalKey ≠ some key)).map (Deletion.unlink gone))
    (hsessions : c'.store.db.chatSessions = c.store.db.chatSessions)
    (hcounted : Counted c'.store.db) :
    ∀ m ∈ c.store.db.chatMessages, m.externalKey ≠ some key := by
  intro m hm hkey
  obtain ⟨s, hs, hid⟩ := List.mem_map.mp (h.sound.known m hm)
  have hbefore := h.counted s hs
  have hafter := hcounted s (hsessions ▸ hs)
  rw [turnsOf_purged hmessages, List.length_map] at hafter
  have hless := List.length_filter_lt_length_iff_exists
    (p := fun m : ChatMessage => decide (m.externalKey ≠ some key)).mpr
    ⟨m, mem_turnsOf.mpr ⟨hm, hid.symm⟩, by simpa using hkey⟩
  omega

theorem history_last {before : List ChatMessage}
    {a b : ChatMessage} (hord : InOrder (turnsOf db sessionId))
    (hturns : turnsOf db sessionId = before ++ [a, b]) :
    turnsBefore db sessionId (b.ordinal + 1) = before ++ [a, b]
      ∧ history db sessionId (b.ordinal + 1) 1
        = (fold none [b, a]).reverse.drop ((fold none [b, a]).length - 1) := by
  rw [hturns] at hord
  have hall : turnsBefore db sessionId (b.ordinal + 1) = before ++ [a, b] := by
    unfold turnsBefore
    rw [hturns, List.filter_eq_self]
    intro m hm
    rw [decide_eq_true_iff]
    obtain ⟨-, hab, hlt⟩ := List.pairwise_append.mp hord
    rcases List.mem_append.mp hm with hm | hm
    · exact Nat.lt_succ_of_lt (hlt m hm b (by simp))
    · rcases List.mem_cons.mp hm with rfl | hm
      · exact Nat.lt_succ_of_lt ((List.pairwise_cons.mp hab).1 b (by simp))
      · rw [List.mem_singleton.mp hm]
        exact Nat.lt_succ_self _
  refine ⟨hall, ?_⟩
  unfold history
  simp only
  rw [hall, newestFirst_eq hord, List.reverse_append,
    show [a, b].reverse = [b, a] from rfl, List.length_reverse]
  rfl

theorem length_recalled {answers : List (Id × Id)} (rows : List ChatMessage)
    (turns : Nat) :
    (recalled answers rows turns).length
      = min turns (questions rows).length := by
  unfold recalled
  rw [List.length_map, List.length_drop]
  omega

theorem next_of_remembers (h : Steady c)
    (ht : Turned c.store.db c'.store.db turn) (hrole : turn.role = .assistant)
    (hid : turn.id = c.store.db.nextId)
    (hanswers : c'.answers = c.answered question) (hexact : Exact c') :
    AnswersNext c.store.db question turn.sessionId := by
  have hturns := ht.turnsOf turn.sessionId
  rw [if_pos rfl] at hturns
  have hord := hexact.ordered turn.sessionId
  have hremembers := (hexact.remembers turn.sessionId 1).1 (turn.ordinal + 1)
  rcases (h.threads turn.sessionId).ends with hall | ⟨before, q, heq, -, hun⟩
      | ⟨before, q, a, heq, -, hun, ha⟩
  · exact .inl hall
  · refine .inr ⟨q, by rw [heq, List.getLast?_concat], hun.1, ?_⟩
    rw [heq, List.append_assoc] at hturns
    obtain ⟨hbefore, hhistory⟩ := history_last hord hturns
    rw [hbefore, hhistory, fold_answered hrole hun.1] at hremembers
    -- the last question has this answer
    have hrecalled : recalled c'.answers (before ++ [q, turn]) 1
        = [⟨q.content, answerTo c'.answers (before ++ [q, turn]) q⟩] := by
      have hq : questions (before ++ [q, turn]) = questions before ++ [q] := by
        rw [questions_append]
        simp [questions, hun.1, hrole]
      unfold recalled
      rw [hq, List.length_append, List.length_singleton, Nat.add_sub_cancel,
        List.drop_left]
      rfl
    have hmem : ∀ m ∈ before ++ [q], m ∈ c.store.db.chatMessages := fun m hm =>
      (mem_turnsOf.mp (heq ▸ hm)).1
    have hold : ∀ m ∈ before ++ [q], (m.id, q.id) ∉ c'.answers := by
      intro m hm hin
      rw [hanswers, mem_answered] at hin
      obtain hin | ⟨-, hin⟩ := hin
      · rcases List.mem_append.mp hm with hm | hm
        · exact hun.2.2 m hm hin
        · exact hun.2.1 q.id (List.mem_singleton.mp hm ▸ hin)
      · exact Nat.ne_of_lt (h.sound.turnsBelow m (hmem m hm))
          (Prod.mk.inj hin).1
    rw [hrecalled, show before ++ [q, turn] = before ++ [q] ++ [turn] by simp,
      answerTo_append, answerTo_none hold, Option.none_or] at hremembers
    by_contra hne
    have hnot : (turn.id, q.id) ∉ c'.answers := by
      intro hin
      rw [hanswers, mem_answered] at hin
      obtain hin | ⟨-, hin⟩ := hin
      · exact absurd (hid ▸ (h.below _ hin).1) (Nat.lt_irrefl _)
      · exact hne (Prod.mk.inj hin).2
    rw [answerTo_none fun m hm => List.mem_singleton.mp hm ▸ hnot]
      at hremembers
    cases hremembers
  · -- the answer before it hides the question
    rw [heq, List.append_assoc] at hturns
    have hlast : turnsOf c'.store.db turn.sessionId
        = before ++ [q] ++ [a, turn] := by
      rw [hturns]
      simp
    obtain ⟨hbefore, hhistory⟩ := history_last hord hlast
    rw [hbefore, hhistory, fold_assistants (by simp [hrole, ha])]
      at hremembers
    have hlength := congrArg List.length hremembers
    rw [length_recalled] at hlength
    have hsome : 0 < (questions (before ++ [q] ++ [a, turn])).length :=
      List.length_pos_of_mem (a := q)
        (List.mem_filter.mpr ⟨by simp, by simp [hun.1]⟩)
    simp only [List.reverse_nil, List.drop_nil, List.length_nil] at hlength
    omega

/-- Along every interleaving of calls, answers and purges, ordinals order the
turns of each session, the count is their number, and what `_history`
remembers is each of the newest questions with its own answer, exactly when
no purge removes a turn and every answer comes right after its question. -/
theorem conversation_exact_iff (ports : ChatPorts) (c : Conversation)
    (acts : List Act) (hstart : Unopened c) :
    (talk ports).Always Exact c acts
      ↔ (talk ports).EveryStep OnTime c acts := by
  apply Machine.always_iff_everyStep Steady
  · exact fun c hc => hc.exact
  · intro c a c' es hc hstep hon
    cases hstep
    exact hc.step (act_moved c a) hon
  · intro c a c' es hc hstep hexact
    cases hstep
    cases @act_moved ports c a with
    | same _ _ hon => exact hon
    | said _ _ _ _ hon => exact hon
    | answered turn question ht hrole hid hanswers hiff =>
      exact hiff.mpr (next_of_remembers hc ht hrole hid hanswers hexact)
    | purged key gone hmessages hlinks hsessions hnext hanswers hiff =>
      exact hiff.mpr (keeps_of_counted hc hmessages hsessions hexact.counted)
  · exact hstart.steady

-- ------ a run of each kind

/-- A message, into whichever session is open. -/
def ask (text : String) (now : Timestamp) : Act :=
  .send text.toList none false true now

/-- An answer. -/
def reply (text : String) : Answer := ⟨text.toList, "model", false, []⟩

/-- Two questions, each answered before the next, and a purge of an item
nobody said. -/
def inTurn : List Act := [
  ask "What is due?" 1, .advance 0 none 1,
  .recordAnswer 2 1 (reply "The rent.") 2,
  ask "Since when?" 3, .advance 1 none 3,
  .recordAnswer 4 1 (reply "Monday.") 4, .purge ⟨1, "notes.md"⟩ 5]

theorem empty_unopened : Unopened {} := ⟨rfl, rfl, rfl, rfl⟩

theorem conversation_exact_iff_inTurn :
    (talk tallies).Always Exact {} inTurn
      ↔ (talk tallies).EveryStep OnTime {} inTurn :=
  conversation_exact_iff tallies {} inTurn empty_unopened

/-- Two questions before their answers: the second gets the first's. -/
def crossed : List Act := [
  ask "What is due?" 1, .advance 0 none 1, ask "Who called?" 2,
  .advance 1 none 2, .recordAnswer 2 1 (reply "The rent.") 3]

/-- The answer to one question is remembered as another's. -/
theorem answer_crosses :
    ¬ ∀ (ports : ChatPorts) (c : Conversation) (acts : List Act), Unopened c →
      (talk ports).Always Exact c acts := by
  intro hclaim
  have hall := hclaim tallies {} crossed empty_unopened
  have hlast : Exact (crossed.foldl (act tallies) {}) := hall.last rfl
  have hremembers := (hlast.remembers 1 1).1 3
  revert hremembers
  decide +kernel

end MemoryOS.Chat
