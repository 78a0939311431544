/-
The front door (`application/chat.py`): a typed message is classified,
stored like any other item, and written to the transcript. When a conversation
ends, and what to call it, is `domain/sessions.py`.

A question's answer comes from a language model and is an argument; there
is none when the deployment has no model. What a call committed before it
raised stays.
-/
import MemoryOS.Chat.Uploads

namespace MemoryOS

/-- `SESSION_GAP`: thirty minutes. -/
def sessionGap : Timestamp := 30 * 60 * 1000000

/-- `TITLE_CHARS`. -/
def titleChars : Nat := 60

/-- `starts_new_session`. -/
def startsNewSession (now : Timestamp) (lastActivity : Option Timestamp) :
    Bool :=
  match lastActivity with
  | none => true
  | some last => decide (sessionGap ≤ now - last)

/-- `_CLAUSE.search`: where the first match starts. -/
def clauseStart : Nat → Text → Option Nat
  | _, [] => none
  | i, c :: rest =>
    let dashed :=
      match rest with
      | d :: e :: _ =>
        isSpace c && isSpace e
          && (d == Char.ofNat 0x2014 || d == Char.ofNat 0x2013)
      | _ => false
    if c ∈ ".!?;:".toList || dashed then some i else clauseStart (i + 1) rest

/-- `str.rfind(" ")`. -/
def lastSpace (text : Text) : Option Nat :=
  match text.reverse.dropWhile (· ≠ ' ') with
  | [] => none
  | _ :: before => some before.length

/-- `title_for`: a session's name, from the first thing typed into it. -/
def titleFor (text : Text) : Option Text :=
  let collapsed := [' '].intercalate (words text)
  if collapsed.isEmpty then none
  else if collapsed.length ≤ titleChars then some collapsed
  else
    let head := collapsed.take (titleChars + 1)
    match (clauseStart 0 head).filter (20 ≤ ·) with
    | some boundary => some (rstrip (head.take boundary))
    | none =>
      let cut := match (lastSpace head).filter (20 < ·) with
        | some space => head.take space
        | none => collapsed.take titleChars
      some (rstrip cut ++ [Char.ofNat 0x2026])

end MemoryOS

namespace MemoryOS

namespace Chat

open Uploads

/-- `GroundedAnswer`, as far as the transcript keeps it. -/
structure Answer where
  content : Text
  modelId : String
  refused : Bool
  citations : List ChatCitation
deriving DecidableEq, Repr

-- ======== sessions

/-- `session.get(models.ChatSession, id)`. -/
def sessionOf (db : Db) (id : Id) : Option ChatSession :=
  db.chatSessions.find? fun s => decide (s.id = id)

/-- `session.get(models.ChatMessage, id)`. -/
def messageOf (db : Db) (id : Id) : Option ChatMessage :=
  db.chatMessages.find? fun m => decide (m.id = id)

/-- The unarchived session with the newest activity. -/
def latestSession (db : Db) : Option ChatSession :=
  (db.chatSessions.filter fun s => s.archivedAt.isNone).foldl
    (fun best s =>
      if best.all fun b => decide (b.lastActivity < s.lastActivity) then some s
      else best)
    none

/-- `_resolve_session`: an explicit session, a new one because it was asked
for, or what the thirty-minute rule guesses. -/
def resolveSession (db : Db) (now : Timestamp) (sessionId : Option Id)
    (newSession : Bool) : Except ChatFailure (Db × ChatSession) :=
  match sessionId with
  | some id =>
    match sessionOf db id with
    | none => .error .noSuchSession
    | some found => .ok (db, found)
  | none =>
    match if newSession then none else
        (latestSession db).filter fun latest =>
          !startsNewSession now (some latest.lastActivity) with
    | some latest => .ok (db, latest)
    | none =>
      let record : ChatSession :=
        ⟨db.nextId, none, now, now, 0, none⟩
      .ok ({ db with
          chatSessions := db.chatSessions ++ [record]
          nextId := db.nextId + 1 }, record)

/-- `_next_ordinal`: one past the highest in the session. -/
def nextOrdinal (db : Db) (sessionId : Id) : Nat :=
  match ((db.chatMessages.filter fun m =>
      decide (m.sessionId = sessionId)).map (·.ordinal)).max? with
  | none => 0
  | some highest => highest + 1

/-- A session, moved by a turn. The title is cut from the first turn. -/
def moved (turn : ChatMessage) (cutTitle : Bool) (s : ChatSession) :
    ChatSession :=
  if s.id = turn.sessionId then
    { s with
      messageCount := s.messageCount + 1
      lastActivity := turn.createdAt
      title := if cutTitle && turn.ordinal == 0 then titleFor turn.content
        else s.title }
  else s

/-- The turn's row, its attachments, and its session; the activity is
checked to be after the session's start. -/
def addTurn (db : Db) (record : ChatSession) (turn : ChatMessage)
    (attachments : List ChatAttachment) (cutTitle : Bool) :
    Except ChatFailure Db :=
  if turn.createdAt < record.startedAt then
    .error (.database .checkViolation)
  else .ok { db with
    chatMessages := db.chatMessages ++ [turn]
    chatAttachments := db.chatAttachments ++ attachments
    chatSessions := db.chatSessions.map (moved turn cutTitle)
    nextId := db.nextId + 1 + attachments.length }

-- =========== items

/-- `CHAT_SOURCE_NAME`. -/
def chatSource (db : Db) : Db × Id := ensureSource db .chat "chat"

/-- `UPLOAD_SOURCE_NAME`. -/
def uploadSource (db : Db) : Db × Id := ensureSource db .upload "uploads"

/-- `str.encode("utf-8")`. -/
def encode (text : Text) : Bytes := (String.ofList text).toUTF8.toList

variable (ports : ChatPorts)

/-- `_message_item`'s key. -/
def messageKey (now : Timestamp) (turnId : Id) : String :=
  ports.day now ++ "/" ++ ports.uuid turnId ++ ".md"

/-- `_message_item` and `_corrected_item`, which differ in the key. -/
def messageItem (key : String) (message : Text) (now : Timestamp) :
    ObservedItem where
  externalKey := key
  contentHash := ports.digest (encode message)
  byteSize := (encode message).length
  mediaType := some "text/markdown"
  occurredAt := some now
  occurredAtSource := .declared
  readBytes := some (encode message)

/-- What a turn stores: the chat source and the item, with the key minted,
unless it is a question. -/
def storedAs (db : Db) (message : Text) (intent : MessageIntent)
    (now : Timestamp) : Db × Option (Id × ObservedItem) :=
  if intent = .question then (db, none)
  else
    let r := chatSource db
    ({ r.1 with nextId := r.1.nextId + 1 },
      some (r.2,
        messageItem ports (messageKey ports now r.1.nextId) message now))

/-- Store what a turn stores, if anything. -/
def storeText (s : Store) (stored : Option (Id × ObservedItem))
    (clock : Timestamp) : Except ChatFailure Store :=
  match stored with
  | none => .ok s
  | some (sourceId, item) =>
    storeItem s sourceId item .unstorableMessage clock

/-- A user's turn. -/
def userTurn (db : Db) (sessionId : Id) (content : Text)
    (externalKey : Option String) (intent : Option MessageIntent)
    (corrects : Option Id) (now : Timestamp) : ChatMessage where
  id := db.nextId
  sessionId := sessionId
  role := .user
  content := content
  ordinal := nextOrdinal db sessionId
  externalKey := externalKey
  intent := intent
  correctsMessageId := corrects
  answerModel := none
  answerRefused := none
  citations := []
  createdAt := now

-- ========= answers

/-- `record_answer`, and the end of `_answer_exchange`. -/
def recordAnswer (db : Db) (sessionId : Id) (answer : Answer)
    (now : Timestamp) : Except ChatFailure Db :=
  match sessionOf db sessionId with
  | none => .error .noSuchSession
  | some record =>
    addTurn db record {
      id := db.nextId, sessionId := sessionId, role := .assistant
      content := answer.content, ordinal := nextOrdinal db sessionId
      externalKey := none, intent := none, correctsMessageId := none
      answerModel := some answer.modelId
      answerRefused := some answer.refused, citations := answer.citations
      createdAt := now } [] false

/-- What a call leaves, and what it raised. -/
abbrev Outcome := Store × Option ChatFailure

/-- `_answer_exchange`. -/
def answerExchange (s : Store) (turn : ChatMessage) (answer : Option Answer) :
    Outcome :=
  match answer with
  | none => (s, some .noLanguageModel)
  | some answer =>
    match recordAnswer s.db turn.sessionId answer turn.createdAt with
    | .error e => (s, some e)
    | .ok db => ({ s with db := db }, none)

-- =========== turns

/-- The transaction of `_append_user`. -/
def appendUser (s : Store) (message : Text) (intent : MessageIntent)
    (stored : Option (Id × ObservedItem)) (sessionId : Option Id)
    (newSession : Bool) (now clock : Timestamp) :
    Except ChatFailure (Store × ChatMessage) :=
  match resolveSession s.db now sessionId newSession with
  | .error e => .error e
  | .ok (db₁, record) =>
    match storeText { s with db := db₁ } stored clock with
    | .error e => .error e
    | .ok s₂ =>
      let turn := userTurn s₂.db record.id message
        (stored.map (·.2.externalKey)) (some intent) none now
      match addTurn s₂.db record turn [] true with
      | .error e => .error e
      | .ok db₃ => .ok ({ s₂ with db := db₃ }, turn)

/-- `Chat.__call__`: classify, then store or answer. -/
def send (s : Store) (text : Text) (sessionId : Option Id)
    (newSession deferAnswer : Bool) (answer : Option Answer)
    (now clock : Timestamp) : Outcome :=
  let message := strip text
  if message.isEmpty then (s, some .emptyMessage)
  else
    let intent := MessageIntent.classify ports.unicode message
    let r := storedAs ports s.db message intent now
    let s₀ := { s with db := r.1 }
    match appendUser s₀ message intent r.2 sessionId newSession now clock with
    | .error e => (s₀, some e)
    | .ok (s₁, turn) =>
      if intent = .statement ∨ deferAnswer then (s₁, none)
      else answerExchange s₁ turn answer

/-- `_describe`: stand-in content for a message that is files alone. -/
def describe (stored : List Stored) : Text :=
  let names := ", ".toList.intercalate (stored.map (·.filename))
  if names.isEmpty then "an attachment".toList else names

/-- The transaction of `attach`. -/
def attachTurn (s : Store) (sourceId : Id)
    (staged : List (Upload × ContentHash × Nat)) (message : Text)
    (intent : MessageIntent) (stored : Option (Id × ObservedItem))
    (sessionId : Option Id) (newSession : Bool) (now clock : Timestamp) :
    Except ChatFailure (Store × ChatMessage) :=
  match resolveSession s.db now sessionId newSession with
  | .error e => .error e
  | .ok (db₁, record) =>
    match storeText { s with db := db₁ } stored clock with
    | .error e => .error e
    | .ok s₂ =>
      match recordAll ports s₂ sourceId now clock staged with
      | .error e => .error e
      | .ok (s₃, files) =>
        let turn := userTurn s₃.db record.id
          (if message.isEmpty then describe files else message)
          (stored.map (·.2.externalKey)) (some intent) none now
        match addTurn s₃.db record turn
            (attachmentRows turn.id 0 (s₃.db.nextId + 1) files) true with
        | .error e => .error e
        | .ok db₄ => .ok ({ s₃ with db := db₄ }, turn)

/-- `Chat.attach`: files dropped into the chat, optionally with a note. -/
def attach (s : Store) (uploads : List Upload) (note : Option Text)
    (sessionId : Option Id) (newSession : Bool) (answer : Option Answer)
    (now clock : Timestamp) : Outcome :=
  if uploads.isEmpty then (s, some .emptyMessage)
  else
    let source := uploadSource s.db
    match stageAll ports s.blobs uploads with
    | (blobs, .error e) => (⟨source.1, blobs⟩, some e)
    | (blobs, .ok staged) =>
      let message := strip (note.getD [])
      let intent := if message.isEmpty then .statement
        else MessageIntent.classify ports.unicode message
      let r := if message.isEmpty then (source.1, none)
        else storedAs ports source.1 message intent now
      let s₀ : Store := ⟨r.1, blobs⟩
      match attachTurn ports s₀ source.2 staged message intent r.2 sessionId
          newSession now clock with
      | .error e => (s₀, some e)
      | .ok (s₁, turn) =>
        if intent = .statement then (s₁, none)
        else answerExchange s₁ turn answer

/-- The transaction of `correct`. -/
def correctTurn (s : Store) (original : ChatMessage) (source : Id)
    (item : ObservedItem) (corrected : Text) (now clock : Timestamp) :
    Except ChatFailure Store :=
  match sessionOf s.db original.sessionId with
  | none => .error .noSuchSession
  | some record =>
    match storeItem s source item .notCorrectable clock with
    | .error e => .error e
    | .ok s₁ =>
      let turn := userTurn s₁.db original.sessionId corrected
        (some item.externalKey) original.intent (some original.id) now
      match addTurn s₁.db record turn [] false with
      | .error e => .error e
      | .ok db₂ => .ok { s₁ with db := db₂ }

/-- `Chat.correct`: replace what a stored message says, keeping what it
used to say. -/
def correct (s : Store) (messageId : Id) (text : Text)
    (now clock : Timestamp) : Outcome :=
  let corrected := strip text
  if corrected.isEmpty then (s, some .emptyMessage)
  else
    match messageOf s.db messageId with
    | none => (s, some .noSuchMessage)
    | some original =>
      if original.role ≠ .user then (s, some .notCorrectable)
      else
        match original.externalKey with
        | none => (s, some .notCorrectable)
        | some key =>
          if strip original.content = corrected then
            (s, some .notCorrectable)
          else
            let source := chatSource s.db
            let s₀ := { s with db := source.1 }
            match correctTurn s₀ original source.2
                (messageItem ports key corrected now) corrected now
                clock with
            | .error e => (s₀, some e)
            | .ok s₁ => (s₁, none)

-- =========== a run

/-- What is asked of the chat. -/
inductive Op
  | send (text : Text) (sessionId : Option Id) (newSession deferAnswer : Bool)
      (answer : Option Answer) (now clock : Timestamp)
  | attach (uploads : List Upload) (note : Option Text)
      (sessionId : Option Id) (newSession : Bool) (answer : Option Answer)
      (now clock : Timestamp)
  | correct (messageId : Id) (text : Text) (now clock : Timestamp)
  | recordAnswer (sessionId : Id) (answer : Answer) (now : Timestamp)

/-- What an operation leaves. -/
def step (s : Store) : Op → Store
  | .send text sessionId newSession deferAnswer answer now clock =>
    (send ports s text sessionId newSession deferAnswer answer now clock).1
  | .attach uploads note sessionId newSession answer now clock =>
    (attach ports s uploads note sessionId newSession answer now clock).1
  | .correct messageId text now clock =>
    (correct ports s messageId text now clock).1
  | .recordAnswer sessionId answer now =>
    match recordAnswer s.db sessionId answer now with
    | .error _ => s
    | .ok db => { s with db := db }

end Chat

end MemoryOS
