/-
What a conversation remembers (`application/chat.py`, `_history`), and the
conversation with several calls at once.

A call is two or three transactions: what it looks up, its turn's, and the
answer's, with the language model in between. What it looks up writes no row
of a conversation and is one step here. Every other step is a transaction,
so a run is any interleaving of the transactions of any calls.
-/
import MemoryOS.Chat.Turns
import MemoryOS.Corpus.Deletion

namespace MemoryOS.Chat

open Uploads

-- ========= history

/-- `ConversationTurn`. -/
structure ConversationTurn where
  text : Text
  answer : Option Text
deriving DecidableEq, Repr

/-- The turns of a session. -/
def turnsOf (db : Db) (sessionId : Id) : List ChatMessage :=
  db.chatMessages.filter fun m => decide (m.sessionId = sessionId)

/-- The turns of a session before an ordinal. -/
def turnsBefore (db : Db) (sessionId : Id) (before : Nat) : List ChatMessage :=
  (turnsOf db sessionId).filter fun m => decide (m.ordinal < before)

/-- The loop of `_history`, over the newest turn first. -/
def fold : Option Text → List ChatMessage → List ConversationTurn
  | _, [] => []
  | answer, row :: rest =>
    if row.role = .assistant then fold (some row.content) rest
    else ⟨row.content, answer⟩ :: fold none rest

/-- `ORDER BY ordinal DESC`. -/
def newestFirst (rows : List ChatMessage) : List ChatMessage :=
  rows.insertionSort fun a b => b.ordinal ≤ a.ordinal

/-- `_history`. -/
def history (db : Db) (sessionId : Id) (before turns : Nat) :
    List ConversationTurn :=
  let rows := (newestFirst (turnsBefore db sessionId before)).take (turns * 2)
  let folded := (fold none rows).reverse
  folded.drop (folded.length - turns)

/-- `history_for`. -/
def historyFor (db : Db) (sessionId : Option Id) (turns : Nat) :
    List ConversationTurn :=
  match sessionId with
  | none => []
  | some id =>
    match sessionOf db id with
    | none => []
    | some record => history db id record.messageCount turns

-- ====== several calls

/-- How far a call is. -/
inductive Call
  /-- `__call__`, before its turn's transaction. -/
  | sending (message : Text) (intent : MessageIntent)
      (stored : Option (Id × ObservedItem)) (sessionId : Option Id)
      (newSession deferAnswer : Bool) (now : Timestamp)
  /-- `attach`, before its turn's transaction. -/
  | attaching (sourceId : Id) (staged : List (Upload × ContentHash × Nat))
      (message : Text) (intent : MessageIntent)
      (stored : Option (Id × ObservedItem)) (sessionId : Option Id)
      (newSession : Bool) (now : Timestamp)
  /-- `correct`, before its turn's transaction. -/
  | correcting (original : ChatMessage) (source : Id) (item : ObservedItem)
      (corrected : Text) (now : Timestamp)
  /-- Its turn is committed, and the model is asked. -/
  | asking (turn : ChatMessage)
  | done

/-- The store, the calls, and, beside what the code keeps, the question each
answer was generated for. -/
structure Conversation where
  store : Store := {}
  calls : List Call := []
  /-- The answer's turn and the question's. -/
  answers : List (Id × Id) := []

/-- The answers, with the next turn as one to a question. A question that is
not a turn, or is gone, has no answer to mix up. -/
def Conversation.answered (c : Conversation) (question : Id) : List (Id × Id) :=
  if (messageOf c.store.db question).isSome then
    c.answers ++ [(c.store.db.nextId, question)]
  else c.answers

/-- What happens: a call comes in, a call goes on to its next transaction, an
answer generated elsewhere is recorded, an item is purged, or the bytes a
purge left are shredded. -/
inductive Act
  | send (text : Text) (sessionId : Option Id) (newSession deferAnswer : Bool)
      (now : Timestamp)
  | attach (uploads : List Upload) (note : Option Text)
      (sessionId : Option Id) (newSession : Bool) (now : Timestamp)
  | correct (messageId : Id) (text : Text) (now : Timestamp)
  | advance (call : Nat) (answer : Option Answer) (clock : Timestamp)
  | recordAnswer (question sessionId : Id) (answer : Answer) (now : Timestamp)
  | purge (item : Item) (now : Timestamp)
  | shred (hash : ContentHash)

variable (ports : ChatPorts)

/-- `correct`, up to its transaction. -/
def correcting (s : Store) (messageId : Id) (text : Text) (now : Timestamp) :
    Option Call :=
  let corrected := strip text
  if corrected.isEmpty then none
  else
    (messageOf s.db messageId).bind fun original =>
      if original.role ≠ .user then none
      else original.externalKey.bind fun key =>
        if strip original.content = corrected then none
        else some (.correcting original (chatSource s.db).2
          (messageItem ports key corrected now) corrected now)

/-- What a committed turn leaves a call to do. -/
def afterTurn (done : Bool) (turn : ChatMessage) : Call :=
  if done then .done else .asking turn

/-- The next transaction of a call. -/
def advanceCall (c : Conversation) (answer : Option Answer)
    (clock : Timestamp) : Call → Conversation × Call
  | .sending message intent stored sessionId newSession deferAnswer now =>
    match appendUser c.store message intent stored sessionId newSession now
        clock with
    | .error _ => (c, .done)
    | .ok (s, turn) =>
      ({ c with store := s },
        afterTurn (intent = .statement || deferAnswer) turn)
  | .attaching sourceId staged message intent stored sessionId newSession now =>
    match attachTurn ports c.store sourceId staged message intent stored
        sessionId newSession now clock with
    | .error _ => (c, .done)
    | .ok (s, turn) =>
      ({ c with store := s }, afterTurn (intent = .statement) turn)
  | .correcting original source item corrected now =>
    -- `fk_chat_messages_corrects_message_id`
    if (messageOf c.store.db original.id).isNone then (c, .done)
    else
      match correctTurn c.store original source item corrected now clock with
      | .error _ => (c, .done)
      | .ok s => ({ c with store := s }, .done)
  | .asking turn =>
    match answer with
    | none => (c, .done)
    | some answer =>
      match recordAnswer c.store.db turn.sessionId answer
          turn.createdAt with
      | .error _ => (c, .done)
      | .ok db =>
        ({ c with
            store := { c.store with db := db }
            answers := c.answered turn.id },
          .done)
  | .done => (c, .done)

/-- One step. -/
def act (c : Conversation) : Act → Conversation
  | .send text sessionId newSession deferAnswer now =>
    let message := strip text
    if message.isEmpty then c
    else
      let intent := MessageIntent.classify ports.unicode message
      let r := storedAs ports c.store.db message intent now
      { c with
        store := { c.store with db := r.1 }
        calls := c.calls ++ [.sending message intent r.2 sessionId newSession
          deferAnswer now] }
  | .attach uploads note sessionId newSession now =>
    if uploads.isEmpty then c
    else
      let source := uploadSource c.store.db
      match stageAll ports c.store.blobs uploads with
      | (blobs, .error _) => { c with store := ⟨source.1, blobs⟩ }
      | (blobs, .ok staged) =>
        let message := strip (note.getD [])
        let intent := if message.isEmpty then .statement
          else MessageIntent.classify ports.unicode message
        let r := if message.isEmpty then (source.1, none)
          else storedAs ports source.1 message intent now
        { c with
          store := ⟨r.1, blobs⟩
          calls := c.calls ++ [.attaching source.2 staged message intent
            r.2 sessionId newSession now] }
  | .correct messageId text now =>
    match correcting ports c.store messageId text now with
    | none => c
    | some call =>
      { c with
        store := { c.store with db := (chatSource c.store.db).1 }
        calls := c.calls ++ [call] }
  | .advance i answer clock =>
    match c.calls[i]? with
    | none => c
    | some call =>
      let r := advanceCall ports c answer clock call
      { r.1 with calls := r.1.calls.set i r.2 }
  | .recordAnswer question sessionId answer now =>
    match recordAnswer c.store.db sessionId answer now with
    | .error _ => c
    | .ok db =>
      { c with
        store := { c.store with db := db }
        answers := c.answered question }
  | .purge item now =>
    match Deletion.purgeOne c.store.db item now with
    | .error _ => c
    | .ok (db, _) => { c with store := { c.store with db := db } }
  | .shred hash =>
    if Deletion.stillReferenced c.store.db hash then c
    else
      { c with
        store := { c.store with blobs := c.store.blobs.delete hash } }

end MemoryOS.Chat
