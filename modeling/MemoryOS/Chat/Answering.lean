/-
Answers (`application/answering.py`, `application/context.py`), whole and as
a stream, and the two ways a question of the chat gets one
(`application/chat.py`, `api/routes/chat.py`).

`answerQuestion` retrieves, assembles, generates and verifies; `stream` does
the same and yields as it goes. `answerInline` is `_answer_exchange`;
`askRoute` is `/chat/ask`, which hands the end of the stream to
`record_answer`.

# What is a parameter

The search, and the pieces in which the model answers a prompt, with the
error it may stop at. An error of a search or of a model leaves no turn on
either way. Beside what the code returns, both functions here return what
the model was given.
-/
import MemoryOS.Chat.Conversation
import MemoryOS.Domain.Grounding
import MemoryOS.Search.Memories

namespace MemoryOS.Chat

open Grounding

/-- What `AnswerQuestion` is set up with. -/
structure AnswerSetup where
  script : Script
  /-- `SearchMemories`, of so many hits. -/
  search : Nat → Text → Except String (List MemoryHit)
  /-- `TokenCounter.count_tokens`. -/
  countTokens : Text → Nat
  tokenBudget : Nat
  modelId : String
  /-- What the model says to a prompt, in pieces, and how it fails. -/
  reply : Text → List Text × Option String

-- ========= context

/-- `Passage`. -/
structure Passage where
  number : Nat
  hit : MemoryHit
  text : Text
  tokens : Nat
deriving DecidableEq

/-- `AssembledContext`. -/
structure AssembledContext where
  passages : List Passage := []
  dropped : List MemoryHit := []
  tokensUsed : Nat := 0
deriving DecidableEq

/-- `valid_indices`. -/
def AssembledContext.validIndices (context : AssembledContext) : List Nat :=
  context.passages.map Passage.number

/-- `AssembledContext.passage`. -/
def AssembledContext.passage (context : AssembledContext) (number : Nat) :
    Option Passage :=
  context.passages.find? fun p => decide (p.number = number)

/-- The chunk of the highest score, the first of them. -/
def bestChunk (hit : MemoryHit) : Option ScoredChunk :=
  hit.matchedChunks.foldl
    (fun best c => if best.all fun b => decide (b.score < c.score) then some c
      else best)
    none

/-- `_best_text`. -/
def bestText (hit : MemoryHit) : Text :=
  match bestChunk hit with
  | none => []
  | some best => strip (best.text.drop best.prefixChars)

/-- One turn of the loop of `assemble_context`. -/
def assembleHit (s : AnswerSetup) (context : AssembledContext)
    (hit : MemoryHit) : AssembledContext :=
  let text := bestText hit
  if text.isEmpty then { context with dropped := context.dropped ++ [hit] }
  else
    let tokens := s.countTokens text
    if s.tokenBudget < context.tokensUsed + tokens then
      { context with dropped := context.dropped ++ [hit] }
    else
      { context with
        passages := context.passages ++
          [⟨context.passages.length + 1, hit, text, tokens⟩]
        tokensUsed := context.tokensUsed + tokens }

/-- `assemble_context`. -/
def assembleContext (s : AnswerSetup) (hits : List MemoryHit) :
    AssembledContext :=
  hits.foldl (assembleHit s) {}

/-- `Passage.render`. -/
def Passage.render (p : Passage) : Text :=
  ("[" ++ toString p.number ++ "] " ++ p.hit.sourceName ++ "::"
    ++ p.hit.externalKey ++ "\n").toList ++ p.text

/-- `AssembledContext.render`. -/
def AssembledContext.render (context : AssembledContext) : Text :=
  "\n\n".toList.intercalate (context.passages.map Passage.render)

-- ========= prompts

/-- `_TURN_CHARS`. -/
def turnChars : Nat := 400

/-- `DEFAULT_HISTORY_TURNS`. -/
def defaultHistoryTurns : Nat := 3

/-- `_clip`. -/
def clip (text : Text) : Text :=
  let collapsed := [' '].intercalate (words text)
  if collapsed.length ≤ turnChars then collapsed
  else rstrip (collapsed.take turnChars) ++ [Char.ofNat 0x2026]

/-- `ConversationTurn.render`. -/
def ConversationTurn.render (turn : ConversationTurn) : Text :=
  let typed := "- typed: ".toList ++ clip turn.text
  match turn.answer with
  | none => typed
  | some answer =>
    if answer.isEmpty then typed
    else typed ++ "\n  answered: ".toList ++ clip answer

/-- `_asked`, with `CONVERSATION_TEMPLATE`. -/
def asked (question : Text) (history : List ConversationTurn) : Text :=
  if history.isEmpty then question
  else
    ("Earlier in this conversation. This is here so you can work out what " ++
      "the question refers to. It is not evidence, it is not a passage, and " ++
      "nothing in it may be cited:\n\n").toList
      ++ ['\n'].intercalate (history.map ConversationTurn.render)
      ++ "\n\nThe question: ".toList ++ question

/-- `USER_TEMPLATE`. -/
def userPrompt (passages question : Text) : Text :=
  passages
    ++ ("\n\n---\n\nAnswer this question using only the passages above, " ++
      "citing each claim with its passage number: ").toList
    ++ question

/-- `_retrieval_query`. -/
def retrievalQuery (s : AnswerSetup) (question : Text)
    (history : List ConversationTurn) : Text :=
  if history.isEmpty || !MessageIntent.refersBack s.script.toUnicode question
  then question
  else
    [' '].intercalate ((history.map fun turn => clip turn.text) ++ [question])

/-- `tuple(history)[-DEFAULT_HISTORY_TURNS:]`. -/
def recent (history : List ConversationTurn) : List ConversationTurn :=
  history.drop (history.length - defaultHistoryTurns)

/-- Not in the source: what the model was given. -/
structure ModelCall where
  passages : List Passage
  question : Text
  turns : List ConversationTurn
deriving DecidableEq

/-- The prompt of a call. -/
def ModelCall.prompt (call : ModelCall) : Text :=
  userPrompt (AssembledContext.render { passages := call.passages })
    (asked call.question call.turns)

-- ======= citations

/-- `Citation.locator`. -/
def locator (hit : MemoryHit) (chunk : ScoredChunk) (version : Nat) : Text :=
  (hit.sourceName ++ "::" ++ hit.externalKey ++ "#" ++ toString chunk.ordinal
    ++ " @" ++ toString chunk.charStart ++ "-" ++ toString chunk.charEnd
    ++ " (v" ++ toString version ++ ")").toList

/-- The version `_memory_content` finds. -/
def versionOf (db : Db) (memoryId : Id) : Nat :=
  match db.memories.find? fun m => decide (m.id = memoryId) with
  | none => 1
  | some m => m.version

/-- `_citation`, with the blanks of its excerpt collapsed as both ways to
keep one do. -/
def citationOf (db : Db) (hit : MemoryHit) (chunk : ScoredChunk) :
    ChatCitation where
  memoryId := some hit.memoryId
  locator := locator hit chunk (versionOf db hit.memoryId)
  excerpt := [' '].intercalate (words (chunk.text.drop chunk.prefixChars))

/-- `explain_hits`, as far as its citations go. -/
def explainHits (db : Db) (hits : List MemoryHit) : List (List ChatCitation) :=
  hits.map fun hit => hit.matchedChunks.map (citationOf db hit)

/-- `_resolve`. -/
def resolve (db : Db) (context : AssembledContext)
    (verification : VerificationResult) : List (List ChatCitation) :=
  let cited := verification.citedIndices.dedup.insertionSort (· ≤ ·)
  explainHits db ((cited.filterMap context.passage).map Passage.hit)

/-- `_citations_of`. -/
def citationsOf (explained : List (List ChatCitation)) : List ChatCitation :=
  explained.flatMap (List.take 1)

-- ====== a whole answer

/-- `REFUSAL_WITHOUT_CONTEXT`. -/
def refusalWithoutContext : Text :=
  ("The retrieved passages do not contain anything about this, so there is " ++
    "nothing here to answer from.").toList

/-- `GroundedAnswer`. -/
structure GroundedAnswer where
  answer : Text
  modelId : String
  verification : VerificationResult
  citations : List (List ChatCitation)
deriving DecidableEq

/-- What a search leaves for the model. -/
def retrieve (s : AnswerSetup) (k : Nat) (question : Text)
    (turns : List ConversationTurn) : Except String AssembledContext :=
  (s.search k (retrievalQuery s question turns)).map (assembleContext s)

/-- `AnswerQuestion.__call__`. -/
def answerQuestion (s : AnswerSetup) (db : Db) (k : Nat) (question : Text)
    (history : List ConversationTurn) :
    Option ModelCall × Except String GroundedAnswer :=
  let turns := recent history
  match retrieve s k question turns with
  | .error e => (none, .error e)
  | .ok context =>
    if context.passages.isEmpty then
      (none, .ok
        { answer := refusalWithoutContext
          modelId := s.modelId
          verification := verifyCitations s.script refusalWithoutContext []
          citations := [] })
    else
      let call := ⟨context.passages, question, turns⟩
      match s.reply call.prompt with
      | (_, some e) => (some call, .error e)
      | (pieces, none) =>
        let answer := pieces.flatten
        let verification :=
          verifyCitations s.script answer context.validIndices
        (some call, .ok
          { answer := answer
            modelId := s.modelId
            verification := verification
            citations := resolve db context verification })

-- ======== a stream

/-- What `done` carries, as far as the route reads it. -/
structure DonePayload where
  answer : Text
  replacement : Option Text
  modelId : String
  refused : Bool
  hallucinatedIndices : List Nat
  citations : Nat
deriving DecidableEq

/-- `StreamEvent`. -/
inductive StreamEvent
  | retrievalStarted (question : Text) (k : Nat)
  | retrievalDone (passages dropped : Nat)
  | token (text : Text)
  | citation (citation : ChatCitation)
  | done (payload : DonePayload)
  | error (message stage : String)
deriving DecidableEq

/-- What replaces a draft that cites what it was not given. -/
def withdrawal (hallucinated : List Nat) : Text :=
  "This answer cited passages that were never retrieved (".toList
    ++ ", ".toList.intercalate (hallucinated.map fun i => (toString i).toList)
    ++ "), so it has been withdrawn. Nothing here supports it.".toList

/-- `_done_payload`. -/
def donePayload (answer : Text) (verification : VerificationResult)
    (citations : List (List ChatCitation)) (modelId : String) :
    DonePayload where
  answer := answer
  replacement :=
    if verification.hallucinatedIndices.isEmpty then none
    else some (withdrawal verification.hallucinatedIndices)
  modelId := modelId
  refused := verification.isRefusal
  hallucinatedIndices := verification.hallucinatedIndices
  citations := citations.length

/-- `AnswerQuestion.stream`. -/
def stream (s : AnswerSetup) (db : Db) (k : Nat) (question : Text)
    (history : List ConversationTurn) :
    Option ModelCall × List StreamEvent :=
  let turns := recent history
  let started := StreamEvent.retrievalStarted question k
  match retrieve s k question turns with
  | .error e => (none, [started, .error e "retrieval"])
  | .ok context =>
    let found := StreamEvent.retrievalDone context.passages.length
      context.dropped.length
    if context.passages.isEmpty then
      (none, [started, found, .token refusalWithoutContext,
        .done (donePayload refusalWithoutContext
          (verifyCitations s.script refusalWithoutContext []) []
          s.modelId)])
    else
      let call := ⟨context.passages, question, turns⟩
      match s.reply call.prompt with
      | (pieces, some e) =>
        (some call, [started, found] ++ pieces.map .token
          ++ [.error e "generation"])
      | (pieces, none) =>
        let answer := pieces.flatten
        let verification :=
          verifyCitations s.script answer context.validIndices
        let citations := resolve db context verification
        (some call, [started, found] ++ pieces.map .token
          ++ (citationsOf citations).map .citation
          ++ [.done (donePayload answer verification citations
            s.modelId)])

-- ====== the two ways

/-- `k` of `Chat`, and of `AskIn`. -/
def defaultK : Nat := 10

/-- The text and the verdicts an answer arrived with. -/
structure Draft where
  text : Text
  hallucinatedIndices : List Nat
deriving DecidableEq

/-- What came of a question: what the model was given, what it answered, and
the turn that is written. -/
structure Exchanged where
  call : Option ModelCall
  draft : Option Draft
  recorded : Option Answer
deriving DecidableEq

/-- `_answer_exchange`, up to its transaction. -/
def answerInline (s : AnswerSetup) (db : Db) (user : ChatMessage) :
    Exchanged :=
  let history := history db user.sessionId user.ordinal defaultHistoryTurns
  match answerQuestion s db defaultK user.content history with
  | (call, .error _) => ⟨call, none, none⟩
  | (call, .ok result) =>
    { call := call
      draft := some
        ⟨result.answer, result.verification.hallucinatedIndices⟩
      recorded := some
        { content := result.answer
          modelId := result.modelId
          refused := result.verification.isRefusal
          citations := citationsOf result.citations } }

/-- The last `done` of a stream. -/
def finalOf (events : List StreamEvent) : Option DonePayload :=
  events.foldl
    (fun final event =>
      match event with
      | .done payload => some payload
      | _ => final)
    none

/-- `/chat/ask`, up to the transaction of `record_answer`. -/
def askRoute (s : AnswerSetup) (db : Db) (question : Text)
    (sessionId : Option Id) (k : Nat) : Exchanged :=
  let history := historyFor db sessionId defaultHistoryTurns
  let streamed := stream s db (max 1 (min k 50)) question history
  let final := finalOf streamed.2
  { call := streamed.1
    draft := final.map fun done => ⟨done.answer, done.hallucinatedIndices⟩
    recorded :=
      match final, sessionId with
      | some done, some _ => some
          { content := done.replacement.getD done.answer
            modelId := done.modelId
            refused := done.refused
            citations := [] }
      | _, _ => none }

/-- The page's way: the turn was sent with `defer_answer`, and what it says
is asked in its session. -/
def answerStreamed (s : AnswerSetup) (db : Db) (user : ChatMessage) :
    Exchanged :=
  askRoute s db user.content (some user.sessionId) defaultK

variable (ports : ChatPorts)

/-- `Chat.__call__` up to where it answers: the turn of a question. -/
def sendQuestion (s : Store) (text : Text) (sessionId : Option Id)
    (newSession : Bool) (now clock : Timestamp) :
    Option (Store × ChatMessage) :=
  let message := strip text
  let intent := MessageIntent.classify ports.unicode message
  if message.isEmpty ∨ intent = .statement then none
  else
    let r := storedAs ports s.db message intent now
    match appendUser { s with db := r.1 } message intent r.2 sessionId
        newSession now clock with
    | .error _ => none
    | .ok sent => some sent

end MemoryOS.Chat
