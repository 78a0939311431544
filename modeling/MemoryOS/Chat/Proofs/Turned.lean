/-
What a transaction of the chat does to the sessions and their turns: nothing,
when it fails, or one turn at the end of one session.
-/
import MemoryOS.Chat.Conversation
import MemoryOS.Corpus.Proofs.Live

namespace MemoryOS.Chat

open Uploads

variable {ports : ChatPorts} {s s' : Store} {db db' : Db}

-- ========== frames

/-- The sessions and the turns are the same, and ids have only been minted. -/
structure SameChat (db db' : Db) : Prop where
  sessions : db'.chatSessions = db.chatSessions
  messages : db'.chatMessages = db.chatMessages
  nextId : db.nextId ≤ db'.nextId

variable {stored : Option (Id × ObservedItem)} {clock now : Timestamp}
  {record : ChatSession} {turn : ChatMessage} {sessionId : Option Id}
  {newSession : Bool} {sourceId : Id}

theorem SameChat.refl (db : Db) : SameChat db db := ⟨rfl, rfl, Nat.le_refl _⟩

theorem SameChat.trans {db'' : Db} (h : SameChat db db')
    (h' : SameChat db' db'') : SameChat db db'' :=
  ⟨h'.sessions.trans h.sessions, h'.messages.trans h.messages,
    Nat.le_trans h.nextId h'.nextId⟩

theorem ensureSource_chat (db : Db) (kind : SourceKind) (name : String) :
    SameChat db (ensureSource db kind name).1 := by
  unfold ensureSource
  split
  case h_1 => exact .refl db
  case h_2 => exact ⟨rfl, rfl, Nat.le_succ _⟩

theorem storedAs_chat (db : Db) (message : Text) (intent : MessageIntent)
    (now : Timestamp) :
    SameChat db (storedAs ports db message intent now).1 := by
  unfold storedAs
  split
  case isTrue => exact .refl db
  case isFalse =>
    exact (ensureSource_chat db .chat "chat").trans ⟨rfl, rfl, Nat.le_succ _⟩

theorem addVersion_chat (db : Db) (m : Memory) :
    SameChat db (addVersion db m) := by
  unfold addVersion
  split
  case h_1 => exact ⟨rfl, rfl, Nat.le_refl _⟩
  case h_2 => exact ⟨rfl, rfl, Nat.le_refl _⟩

theorem recordVersion_chat (db : Db) (sourceId : Id) (item : ObservedItem)
    (now : Timestamp) : SameChat db (recordVersion db sourceId item now).1 := by
  unfold recordVersion appendEvent
  simp only
  split
  case h_1 => exact ⟨rfl, rfl, Nat.le_succ _⟩
  case h_2 m _ =>
    obtain ⟨hsessions, hmessages, hnext⟩ := addVersion_chat { db with
      events := db.events ++ [(observation sourceId item).event db.nextSeq now]
      nextSeq := db.nextSeq + 1, nextId := db.nextId + 1 } m
    refine ⟨hsessions, hmessages, ?_⟩
    exact Nat.le_trans (Nat.le_succ _) (Nat.le_trans hnext
      (Nat.le_add_right _ 2))

theorem storeItem_chat {item : ObservedItem}
    {nothing : ChatFailure}
    (h : storeItem s sourceId item nothing clock = .ok s') :
    SameChat s.db s'.db := by
  unfold storeItem at h
  split at h
  case h_1 => cases h
  case h_2 => cases h
  case h_3 s₁ out hin =>
    cases h
    obtain ⟨-, rfl, -⟩ | ⟨-, artifacts, blobs, -, rfl, -⟩ :=
      ingestItem_cases hin
    · exact .refl _
    · obtain ⟨hsessions, hmessages, hnext⟩ := recordVersion_chat
        { s.db with artifacts := artifacts } sourceId item clock
      exact ⟨hsessions, hmessages, hnext⟩

theorem storeText_chat (h : storeText s stored clock = .ok s') :
    SameChat s.db s'.db := by
  unfold storeText at h
  split at h
  case h_1 =>
    cases h
    exact .refl _
  case h_2 => exact storeItem_chat h

theorem recordAll_chat
    {staged : List (Upload × ContentHash × Nat)} {files : List Stored}
    (h : recordAll ports s sourceId now clock staged = .ok (s', files)) :
    SameChat s.db s'.db := by
  induction staged generalizing s files with
  | nil =>
    cases h
    exact .refl _
  | cons x rest ih =>
    obtain ⟨upload, hash, byteSize⟩ := x
    unfold recordAll at h
    split at h
    case h_1 => cases h
    case h_2 s₁ stored hone =>
      split at h
      case h_1 => cases h
      case h_2 s₂ more hrest =>
        cases h
        refine SameChat.trans ?_ (ih hrest)
        unfold record at hone
        simp only at hone
        split at hone
        case h_1 => cases hone
        case h_2 s₀ hstore =>
          cases hone
          obtain ⟨hsessions, hmessages, hnext⟩ := storeItem_chat hstore
          exact ⟨hsessions, hmessages, Nat.le_trans (Nat.le_succ _) hnext⟩

-- ======== one turn

/-- The sessions a turn finds: those there are, or one more, without turns. -/
def Opened (db db' : Db) (sessions : List ChatSession) : Prop :=
  sessions = db.chatSessions ∨ ∃ fresh : ChatSession,
    sessions = db.chatSessions ++ [fresh] ∧ fresh.messageCount = 0
      ∧ db.nextId ≤ fresh.id ∧ fresh.id < db'.nextId

/-- One turn, at the end of one session. -/
structure Turned (db db' : Db) (turn : ChatMessage) : Prop where
  messages : db'.chatMessages = db.chatMessages ++ [turn]
  sessions : ∃ sessions cutTitle, Opened db db' sessions
    ∧ db'.chatSessions = sessions.map (moved turn cutTitle)
    ∧ turn.sessionId ∈ sessions.map (·.id)
  ordinal : turn.ordinal = nextOrdinal db turn.sessionId
  fresh : db.nextId ≤ turn.id
  minted : turn.id < db'.nextId

theorem sessionOf_mem {id : Id}
    (h : sessionOf db id = some record) :
    record ∈ db.chatSessions ∧ record.id = id := by
  refine ⟨List.mem_of_find?_eq_some h, ?_⟩
  simpa using List.find?_some h

theorem latestSession_mem
    (h : latestSession db = some record) : record ∈ db.chatSessions := by
  unfold latestSession at h
  have hfold : ∀ (l : List ChatSession) (best : Option ChatSession),
      (∀ b, best = some b → b ∈ db.chatSessions) →
      (∀ x ∈ l, x ∈ db.chatSessions) → ∀ r,
      l.foldl (fun best s =>
        if best.all fun b => decide (b.lastActivity < s.lastActivity) then
          some s else best) best = some r → r ∈ db.chatSessions := by
    intro l
    induction l with
    | nil => exact fun best hbest _ r hr => hbest r hr
    | cons x rest ih =>
      intro best hbest hl r hr
      rw [List.foldl_cons] at hr
      refine ih _ (fun b hb => ?_)
        (fun y hy => hl y (List.mem_cons_of_mem _ hy)) r hr
      split at hb
      case isTrue =>
        cases hb
        exact hl x List.mem_cons_self
      case isFalse => exact hbest b hb
  exact hfold _ none nofun (fun x hx => (List.mem_filter.mp hx).1) record h

theorem resolveSession_opened
    (h : resolveSession db now sessionId newSession = .ok (db', record)) :
    db'.chatMessages = db.chatMessages ∧ db.nextId ≤ db'.nextId
      ∧ record ∈ db'.chatSessions ∧ Opened db db' db'.chatSessions := by
  unfold resolveSession at h
  split at h
  case h_1 id =>
    split at h
    case h_1 => cases h
    case h_2 found hfound =>
      cases h
      exact ⟨rfl, Nat.le_refl _, (sessionOf_mem hfound).1, .inl rfl⟩
  case h_2 =>
    split at h
    case h_1 latest hlatest =>
      cases h
      refine ⟨rfl, Nat.le_refl _, ?_, .inl rfl⟩
      split at hlatest
      case isTrue => cases hlatest
      case isFalse =>
        obtain ⟨hsome, -⟩ := Option.filter_eq_some_iff.mp hlatest
        exact latestSession_mem hsome
    case h_2 =>
      cases h
      refine ⟨rfl, Nat.le_succ _, ?_, .inr ⟨_, rfl, rfl, Nat.le_refl _, ?_⟩⟩
      · exact List.mem_append_right _ (List.mem_singleton_self _)
      · exact Nat.lt_succ_self _

theorem addTurn_turned {db₀ : Db}
    {attachments : List ChatAttachment} {cutTitle : Bool}
    (h : addTurn db record turn attachments cutTitle = .ok db')
    (hmessages : db.chatMessages = db₀.chatMessages)
    (hnext : db₀.nextId ≤ db.nextId)
    (hopened : Opened db₀ db db.chatSessions)
    (hrecord : turn.sessionId ∈ db.chatSessions.map (·.id))
    (hid : turn.id = db.nextId)
    (hordinal : turn.ordinal = nextOrdinal db turn.sessionId) :
    Turned db₀ db' turn := by
  unfold addTurn at h
  split at h
  case isTrue => cases h
  case isFalse =>
    cases h
    constructor
    · rw [hmessages]
    · refine ⟨db.chatSessions, cutTitle, ?_, rfl, hrecord⟩
      refine hopened.imp_right ?_
      rintro ⟨fresh, heq, hzero, hle, hlt⟩
      exact ⟨fresh, heq, hzero, hle, Nat.lt_of_lt_of_le hlt
        (Nat.le_trans (Nat.le_succ _) (Nat.le_add_right _ _))⟩
    · rw [hordinal]
      unfold nextOrdinal
      rw [hmessages]
    · exact hid.symm ▸ hnext
    · rw [hid]
      exact Nat.lt_of_lt_of_le (Nat.lt_succ_self _) (Nat.le_add_right _ _)

theorem Opened.mono {db₁ : Db} {sessions : List ChatSession}
    (h : Opened db db₁ sessions) (hle : db₁.nextId ≤ db'.nextId) :
    Opened db db' sessions := by
  refine h.imp_right ?_
  rintro ⟨fresh, heq, hzero, hfresh, hlt⟩
  exact ⟨fresh, heq, hzero, hfresh, Nat.lt_of_lt_of_le hlt hle⟩

theorem appendUser_turned {message : Text} {intent : MessageIntent}
    (h : appendUser s message intent stored sessionId newSession now clock
      = .ok (s', turn)) :
    Turned s.db s'.db turn ∧ turn.role = .user := by
  unfold appendUser at h
  split at h
  case h_1 => cases h
  case h_2 db₁ record hresolve =>
    split at h
    case h_1 => cases h
    case h_2 s₂ hstore =>
      simp only at h
      split at h
      case h_1 => cases h
      case h_2 db₃ hadd =>
        cases h
        obtain ⟨hmessages, hnext, hmem, hopened⟩ :=
          resolveSession_opened hresolve
        have hsame : SameChat db₁ s₂.db := storeText_chat hstore
        refine ⟨addTurn_turned hadd (hsame.messages.trans hmessages)
          (Nat.le_trans hnext hsame.nextId) ?_ ?_ rfl rfl, rfl⟩
        · rw [hsame.sessions]
          exact hopened.mono hsame.nextId
        · rw [hsame.sessions]
          exact List.mem_map_of_mem hmem

theorem attachTurn_turned
    {staged : List (Upload × ContentHash × Nat)} {message : Text}
    {intent : MessageIntent}
    (h : attachTurn ports s sourceId staged message intent stored sessionId
      newSession now clock = .ok (s', turn)) :
    Turned s.db s'.db turn ∧ turn.role = .user := by
  unfold attachTurn at h
  split at h
  case h_1 => cases h
  case h_2 db₁ record hresolve =>
    split at h
    case h_1 => cases h
    case h_2 s₂ hstore =>
      split at h
      case h_1 => cases h
      case h_2 s₃ files hrecord =>
        simp only at h
        split at h
        case h_1 => cases h
        case h_2 db₄ hadd =>
          cases h
          obtain ⟨hmessages, hnext, hmem, hopened⟩ :=
            resolveSession_opened hresolve
          have hsame : SameChat db₁ s₃.db :=
            (storeText_chat hstore).trans (recordAll_chat hrecord)
          refine ⟨addTurn_turned hadd (hsame.messages.trans hmessages)
            (Nat.le_trans hnext hsame.nextId) ?_ ?_ rfl rfl, rfl⟩
          · rw [hsame.sessions]
            exact hopened.mono hsame.nextId
          · rw [hsame.sessions]
            exact List.mem_map_of_mem hmem

theorem correctTurn_turned {original : ChatMessage} {source : Id}
    {item : ObservedItem} {corrected : Text}
    (h : correctTurn s original source item corrected now clock = .ok s') :
    ∃ turn, Turned s.db s'.db turn ∧ turn.role = .user := by
  unfold correctTurn at h
  split at h
  case h_1 => cases h
  case h_2 record hrecord =>
    split at h
    case h_1 => cases h
    case h_2 s₁ hstore =>
      simp only at h
      split at h
      case h_1 => cases h
      case h_2 db₂ hadd =>
        cases h
        obtain ⟨hmem, hid⟩ := sessionOf_mem hrecord
        have hsame := storeItem_chat hstore
        refine ⟨_, addTurn_turned hadd hsame.messages hsame.nextId ?_ ?_ rfl
          rfl, rfl⟩
        · exact .inl hsame.sessions
        · rw [hsame.sessions]
          exact List.mem_map.mpr ⟨record, hmem, hid⟩

theorem recordAnswer_turned {sessionId : Id} {answer : Answer} (h : recordAnswer db sessionId answer now = .ok db') :
    ∃ turn record, Turned db db' turn ∧ turn.role = .assistant
      ∧ turn.id = db.nextId ∧ turn.sessionId = sessionId
      ∧ sessionOf db sessionId = some record ∧ ¬ now < record.startedAt := by
  unfold recordAnswer at h
  split at h
  case h_1 => cases h
  case h_2 record hrecord =>
    obtain ⟨hmem, hid⟩ := sessionOf_mem hrecord
    refine ⟨_, record, addTurn_turned h rfl (Nat.le_refl _) (.inl rfl) ?_ rfl
      rfl, rfl, rfl, rfl, hrecord, fun hlt => ?_⟩
    · exact List.mem_map.mpr ⟨record, hmem, hid⟩
    · unfold addTurn at h
      rw [if_pos hlt] at h
      cases h

end MemoryOS.Chat
