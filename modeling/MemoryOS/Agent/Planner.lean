/-
Several dependent retrievals, and what the model sees of them
(`application/agent/planner.py`, `application/agent/compaction.py`,
`domain/backoff.py`).

The model and the tools are whatever they are: what one answers may depend on
everything asked before, so a `World` numbers the calls. An argument of a call is
its name and the `repr` of its value. Durations are left out.
-/
import MemoryOS.Agent.Verify
import MemoryOS.Lib.DistinctOn

namespace MemoryOS.Agent

namespace Planner

open Lib

-- ======= constants

/-- `DEFAULT_MAX_HOPS`. -/
def defaultMaxHops : Int := 6

/-- `DEFAULT_FINDING_BUDGET`. -/
def defaultFindingBudget : Int := 1200

/-- `STALE_LIMIT`. -/
def staleLimit : Nat := 2

/-- `RETRY_ATTEMPTS`. -/
def retryAttempts : Nat := 5

/-- `RETRY_CEILING_SECONDS`. -/
def retryCeilingSeconds : ℚ := 30

/-- `FINDING_CHARS`. -/
def findingChars : Nat := 420

/-- `FINDING_LOCATORS`. -/
def findingLocators : Nat := 4

/-- `MAX_ADVISED_WAIT_SECONDS`. -/
def maxAdvisedWaitSeconds : ℚ := 120

-- ====== what is passed

/-- `Citation`, with what says where it points. -/
structure Citation extends Agent.Citation where
  locator : Text
  memoryId : Id
deriving DecidableEq

/-- `ToolResult`. -/
structure ToolResult where
  content : Text
  citations : List Citation := []
  truncated : Bool := false
deriving DecidableEq

/-- The arguments of a call. -/
abbrev Arguments := List (Text × Text)

/-- `ToolCall`. -/
structure ToolCall where
  id : Text
  name : Text
  arguments : Arguments
deriving DecidableEq

/-- `ToolExchange`. -/
structure ToolExchange where
  call : ToolCall
  result : Text
deriving DecidableEq

/-- `ModelTurn`. -/
structure ModelTurn where
  text : Text := []
  toolCalls : List ToolCall := []
  promptTokens : Nat := 0
  completionTokens : Nat := 0
deriving DecidableEq

/-- What one call of the model is given, its token limit apart. -/
structure Request where
  instructions : Text
  user : Text
  /-- The specs of the registry, or none. -/
  tools : Bool
  exchanges : List ToolExchange
deriving DecidableEq

/-- `TransientError` and `PermanentError` of a model. -/
structure ModelError where
  permanent : Bool
  message : Text
  retryAfter : Option ℚ
deriving DecidableEq

/-- `UnknownTool`, and whatever else a tool raises. -/
inductive ToolError
  | unknownTool (message : Text)
  | raised (type message : Text)
deriving DecidableEq

/-- What a planner runs in. -/
structure World where
  /-- `ToolCallingModel.converse`, at its `n`-th call. -/
  converse : Nat → Request → Except ModelError ModelTurn
  /-- `ToolRegistry.call`, at its `n`-th call. -/
  call : Nat → Text → Arguments → Except ToolError ToolResult
  /-- `random.random()`, before the `n`-th call of the model is tried again. -/
  rand : Nat → ℚ
  /-- `Counter.count_tokens`. -/
  countTokens : Text → Nat
  /-- `sha256`, in hexadecimal. -/
  sha256 : Text → Text
  /-- `system_prompt()`. -/
  instructions : Text

/-- `MultiHopPlanner`, without what is in its world. -/
structure MultiHopPlanner where
  maxHops : Int := defaultMaxHops
  findingBudget : Int := defaultFindingBudget

-- ====== trajectories

/-- `StopReason`. -/
inductive StopReason
  | answered | hopLimit | noNewInformation | confidence | error
deriving DecidableEq, Repr

/-- `Step`. -/
structure Step where
  thought : Text
  tool : Option Text
  args : Arguments
  result : Option ToolResult
  callId : Text := []
  novel : Bool := true
  promptTokens : Nat := 0
  completionTokens : Nat := 0
deriving DecidableEq

/-- A step that called a tool and got a result. -/
def Step.isActed (step : Step) : Bool := step.tool.isSome && step.result.isSome

/-- `Trajectory`. -/
structure Trajectory where
  question : Text
  steps : List Step
  answer : Option Text
  stoppedBecause : StopReason
  citations : List Citation
  modelCalls : Nat
  promptTokens : Nat
  completionTokens : Nat
  error : Option Text
  retryAfter : Option ℚ
deriving DecidableEq

/-- A result, as `verify` reads it. -/
def ToolResult.toVerify (result : ToolResult) : Agent.ToolResult where
  content := result.content
  citations := result.citations.map (·.toCitation)
  truncated := result.truncated

/-- A trajectory, as `verify` reads it. -/
def Trajectory.toVerify (trajectory : Trajectory) : Agent.Trajectory where
  steps := trajectory.steps.map fun step =>
    ⟨step.tool, step.result.map ToolResult.toVerify⟩
  answer := trajectory.answer

-- ========= backoff

/-- `compute_backoff`. -/
def computeBackoff (attempts : Nat) (rand : ℚ) : ℚ :=
  min (2 * 2 ^ attempts) 600 * (1 / 2 + rand * (1 / 2))

/-- `wait_for`. -/
def waitFor (exc : ModelError) (attempts : Nat) (rand : ℚ) : ℚ :=
  match exc.retryAfter with
  | none => computeBackoff attempts rand
  | some advised => min advised maxAdvisedWaitSeconds + 1 / 2 + rand

-- ====== compaction

/-- `text.rfind(c)`, or -1. -/
def rfind (c : Char) (text : Text) : Int :=
  match text.reverse.findIdx? (· == c) with
  | none => -1
  | some i => (text.length : Int) - 1 - i

/-- `_head`. -/
def head (text : Text) (limit : Nat) : Text :=
  let stripped := strip text
  if stripped.length ≤ limit then stripped
  else
    let window := stripped.take limit
    let cut := max (rfind '\n' window) (rfind ' ' window)
    rstrip (if cut > (limit / 2 : Nat) then window.take cut.toNat else window)
      ++ " …".toList

/-- `sep.join(parts)`. -/
def joined (sep : String) (parts : List Text) : Text :=
    sep.toList.intercalate parts

/-- `_args`. -/
def argsText (arguments : Arguments) : Text :=
  joined ", " ((arguments.mergeSort fun a b => decide (a.1 ≤ b.1)).map fun a =>
    a.1 ++ '=' :: a.2)

/-- A number, in an f-string. -/
def shown (n : Nat) : Text := (toString n).toList

/-- `Finding`. -/
structure Finding where
  hop : Nat
  tool : Text
  arguments : Arguments
  thought : Text
  summary : Text
  locators : List Text
  truncated : Bool
deriving DecidableEq

/-- `Finding.render`. -/
def Finding.render (finding : Finding) : Text :=
  joined "\n" (
    ["hop ".toList ++ shown finding.hop ++ " · ".toList ++ finding.tool
      ++ "(".toList
      ++ argsText finding.arguments ++ ")".toList]
    ++ (if finding.thought.isEmpty then []
      else ["    you said: ".toList ++ finding.thought])
    ++ ["    returned: ".toList ++ finding.summary]
    ++ (if finding.truncated then
        ["    (that result was truncated — there was more)".toList] else [])
    ++ (if finding.locators.isEmpty then []
      else ["    sources: ".toList ++ joined "; " finding.locators]))

/-- `Compacted`. -/
structure Compacted where
  findings : List Finding := []
  verbatim : List Step := []
  verbatimFrom : Nat := 1
  dropped : Nat := 0
  tokens : Nat := 0
deriving DecidableEq

/-- `Compacted.render`. -/
def Compacted.render (history : Compacted) : Text :=
  if history.findings.isEmpty && decide (history.dropped = 0) then []
  else
    joined "\n" (history.findings.map Finding.render
      ++ (if history.dropped = 0 then []
        else ["(".toList ++ shown history.dropped
          ++ (" earlier finding(s) dropped for space. What you have here is not "
            ++ "everything you found.)").toList]))

/-- `_finding`, of a step that acted. -/
def findingOf (step : Step) (hop : Nat) : Finding :=
  let result := step.result.getD { content := [] }
  { hop := hop
    tool := step.tool.getD []
    arguments := step.args
    thought := head step.thought 200
    summary := head result.content findingChars
    locators := (result.citations.take findingLocators).map (·.locator)
    truncated := result.truncated }

/-- What the loop of `compact` has kept: the newest first. -/
structure Kept where
  kept : List Finding := []
  used : Nat := 0
  dropped : Nat := 0

/-- The loop of `compact`, at one finding. -/
def keep (countTokens : Text → Nat) (budget : Int) (acc : Kept)
    (finding : Finding) :
    Kept :=
  let cost := countTokens finding.render
  if ((acc.used + cost : Nat) : Int) > budget then
    { acc with dropped := acc.dropped + 1 }
  else
    { acc with kept := acc.kept ++ [finding], used := acc.used + cost }

/-- The `ValueError` of `compact`: "budget must be positive, got …". -/
structure BadBudget where
  budget : Int
deriving DecidableEq

/-- `compact`. -/
def compact (countTokens : Text → Nat) (budget : Int) (keepVerbatim : Nat)
    (steps : List Step) : Except BadBudget Compacted :=
  if budget ≤ 0 then .error ⟨budget⟩
  else
    let acted := steps.filter Step.isActed
    let verbatim := acted.drop (acted.length - keepVerbatim)
    let older := acted.take (acted.length - verbatim.length)
    let candidates := older.mapIdx fun i step => findingOf step (i + 1)
    let kept := candidates.reverse.foldl (keep countTokens budget) {}
    .ok {
      findings := kept.kept.reverse
      verbatim := verbatim
      verbatimFrom := older.length + 1
      dropped := kept.dropped
      tokens := kept.used }

-- ========= prompts

/-- `_exchanges`. -/
def exchangesOf (history : Compacted) : List ToolExchange :=
  history.verbatim.map fun step =>
    { call :=
        { id :=
            if !step.callId.isEmpty then step.callId else step.tool.getD []
          name := step.tool.getD []
          arguments := step.args }
      result := (step.result.map (·.content)).getD [] }

/-- `_verbatim`. -/
def verbatimText (history : Compacted) : Text :=
  joined "\n\n" ((history.verbatim.mapIdx fun i step =>
    step.result.map fun result =>
      "hop ".toList ++ shown (history.verbatimFrom + i) ++ " · ".toList
        ++ step.tool.getD "None".toList ++ ":\n".toList
          ++ result.content).filterMap id)

/-- `_user_message`. -/
def userMessage (question : Text) (history : Compacted) (hop limit : Nat) :
    Text :=
  let remaining := limit - hop + 1
  let block := history.render
  joined "\n\n" (
    [question]
    ++ (if block.isEmpty then []
      else ["What you have found so far:\n\n".toList ++ block])
    ++ (if history.verbatim.isEmpty then []
      else [("The most recent result(s) follow in full below, as tool "
        ++ "messages.").toList])
    ++ ["Hop ".toList ++ shown hop ++ " of ".toList ++ shown limit
      ++ ". ".toList
      ++ (if remaining = 1 then
          "This is your last hop: answer now, from what you have.".toList
        else shown remaining
          ++ " hops remain. Call one tool, or answer if you have enough.".toList)])

/-- `_WHY`. -/
def why : StopReason → Text
  | .hopLimit => "you have used every hop you were given".toList
  | .noNewInformation =>
    "your last two calls returned nothing you had not already seen".toList
  | _ => "the loop has ended".toList

/-- `_FINAL_TEMPLATE`, filled in. -/
def finalMessage (question history : Text) (stop : StopReason) : Text :=
  question ++ "\n\n".toList ++ history ++ "\n\nYou have no more hops: ".toList
    ++ why stop
    ++ (". Answer the question now from what you gathered above, and nothing else, "
      ++ "marking each factual sentence with the hop it came from in brackets. If "
      ++ "what you gathered does not answer it, say exactly that and say what is "
      ++ "missing — an honest \"the corpus does not contain this\" is correct and a "
      ++ "confident synthesis of four weak results is not.").toList

/-- The history of the last call. -/
def finalHistory (history : Compacted) : Text :=
  let rendered := joined "\n\n" ([history.render, verbatimText history].filter
    fun part => !part.isEmpty)
  if rendered.isEmpty then "You gathered nothing.".toList else rendered

-- ======== one call

/-- `_converse`, with how many tries are left after this one: what it returns or
raises, and how many calls have been made then. -/
def converse (w : World) (request : Request) :
    Nat → Nat → Nat → Except ModelError ModelTurn × Nat
  | left, attempt, asked =>
    match w.converse asked request with
    | .ok turn => (.ok turn, asked + 1)
    | .error exc =>
      if exc.permanent then (.error exc, asked + 1)
      else
        match left with
        | 0 => (.error exc, asked + 1)
        | left + 1 =>
          if waitFor exc attempt (w.rand asked) > retryCeilingSeconds then
            (.error exc, asked + 1)
          else converse w request left (attempt + 1) (asked + 1)

/-- The note of `_call` on the calls that are not run. -/
def note (extra : Nat) : Text :=
  if extra = 0 then []
  else "\n\n(You asked for ".toList ++ shown extra
    ++ (" more tool call(s) in the same turn. Only the first runs. Ask for the "
      ++ "others one at a time.)").toList

/-- `_call`. -/
def call (w : World) (invoked : Nat) (toolCall : ToolCall) (extra : Nat) :
    ToolResult :=
  match w.call invoked toolCall.name toolCall.arguments with
  | .error (.unknownTool message) =>
    { content := message ++ ". Call one of those instead.".toList
      ++ note extra }
  | .error (.raised type message) =>
    { content := toolCall.name ++ " failed: ".toList ++ type ++ ": ".toList
      ++ message
        ++ (". That is a fault in the tool rather than in your arguments — use a "
          ++ "different tool, or answer without it.").toList ++ note extra }
  | .ok result =>
    if (note extra).isEmpty then result
    else { result with content := result.content ++ note extra }

/-- `_signature`: the memories of a result, and a digest of its words. -/
def signature (w : World) (result : ToolResult) : List Id × Text :=
  (result.citations.map (·.memoryId),
    w.sha256 (joined " " (words result.content)))

-- ======== the loop

/-- What the model was given after which steps, and what came back. -/
structure Sent where
  steps : List Step
  history : Compacted
  request : Request
  reply : Except ModelError ModelTurn

/-- The local variables of `run`. -/
structure Progress where
  steps : List Step := []
  seenMemories : List Id := []
  seenDigests : List Text := []
  stale : Nat := 0
  calls : Nat := 0
  promptTokens : Nat := 0
  completionTokens : Nat := 0
  /-- How often the model was called, and the tools. -/
  asked : Nat := 0
  invoked : Nat := 0
  /-- Not in the source: what the model was given. -/
  sent : List Sent := []

/-- A reply is counted where it is a turn. -/
def Progress.hear (pr : Progress) (history : Compacted) (request : Request)
    (reply : Except ModelError ModelTurn × Nat) : Progress :=
  let pr := { pr with
    asked := reply.2
    sent := pr.sent ++ [⟨pr.steps, history, request, reply.1⟩] }
  match reply.1 with
  | .error _ => pr
  | .ok turn =>
    { pr with
      calls := pr.calls + 1
      promptTokens := pr.promptTokens + turn.promptTokens
      completionTokens := pr.completionTokens + turn.completionTokens }

/-- The turn that answers, as a step. -/
def answerStep (turn : ModelTurn) : Step where
  thought := turn.text
  tool := none
  args := []
  result := none
  promptTokens := turn.promptTokens
  completionTokens := turn.completionTokens

/-- Whether a result is new. -/
def Progress.isNovel (pr : Progress) (memories : List Id) (digest : Text) :
    Bool :=
  if memories.isEmpty then !pr.seenDigests.contains digest
  else memories.any fun memory => !pr.seenMemories.contains memory

/-- A hop that called its first tool. -/
def Progress.act (pr : Progress) (w : World) (turn : ModelTurn)
    (toolCall : ToolCall)
    (extra : Nat) : Progress :=
  let result := call w pr.invoked toolCall extra
  let found := signature w result
  let novel := pr.isNovel found.1 found.2
  { pr with
    steps := pr.steps ++ [
      { thought := turn.text
        tool := some toolCall.name
        args := toolCall.arguments
        result := some result
        callId := toolCall.id
        novel := novel
        promptTokens := turn.promptTokens
        completionTokens := turn.completionTokens }]
    seenMemories := pr.seenMemories ++ found.1
    seenDigests := pr.seenDigests ++ [found.2]
    stale := if novel then 0 else pr.stale + 1
    invoked := pr.invoked + 1 }

/-- How the loop ends. -/
inductive Ending
  | failed (exc : ModelError)
  | spoke (turn : ModelTurn) (stop : StopReason)
  | bound (stop : StopReason)
deriving DecidableEq

/-- `any(step.tool for step in steps)`. -/
def retrieved (steps : List Step) : Bool :=
  steps.any fun step => step.tool.any fun tool => !tool.isEmpty

variable (w : World) (p : MultiHopPlanner) (question : Text) (limit : Nat)

/-- What `run` asks the model at a hop. -/
def hopRequest (hop : Nat) (history : Compacted) : Request where
  instructions := w.instructions
  user := userMessage question history hop limit
  tools := true
  exchanges := exchangesOf history

/-- What `_final` asks the model. -/
def finalRequest (history : Compacted) (stop : StopReason) : Request where
  instructions := w.instructions
  user := finalMessage question (finalHistory history) stop
  tools := false
  exchanges := []

/-- The loop of `run`, with how many hops are left. -/
def loop : Nat → Progress → Except BadBudget (Progress × Ending)
  | 0, pr => .ok (pr, .bound .hopLimit)
  | left + 1, pr =>
    match compact w.countTokens p.findingBudget 2 pr.steps with
    | .error exc => .error exc
    | .ok history =>
      let request := hopRequest w question limit (limit - left) history
      let reply := converse w request (retryAttempts - 1) 0 pr.asked
      let pr := pr.hear history request reply
      match reply.1 with
      | .error exc => .ok (pr, .failed exc)
      | .ok turn =>
        match turn.toolCalls with
        | [] =>
          .ok ({ pr with steps := pr.steps ++ [answerStep turn] },
            .spoke turn (if retrieved pr.steps then .confidence else .answered))
        | toolCall :: extra =>
          let pr := pr.act w turn toolCall extra.length
          if staleLimit ≤ pr.stale then .ok (pr,
            .bound .noNewInformation)
          else loop left pr

/-- `_finish`. -/
def finish (pr : Progress) (answer : Option Text) (stop : StopReason)
    (error : Option Text) (retryAfter : Option ℚ) : Trajectory where
  question := question
  steps := pr.steps
  answer := answer
  stoppedBecause := stop
  citations := DistinctOn.distinctOn Citation.locator
    (pr.steps.flatMap fun step => (step.result.map (·.citations)).getD [])
  modelCalls := pr.calls
  promptTokens := pr.promptTokens
  completionTokens := pr.completionTokens
  error := error
  retryAfter := retryAfter

/-- `_final`, and what is counted of it. -/
def final (pr : Progress) (stop : StopReason) :
    Except BadBudget (Progress × Option ModelTurn) :=
  match compact w.countTokens p.findingBudget 2 pr.steps with
  | .error exc => .error exc
  | .ok history =>
    let request := finalRequest w question history stop
    let reply := converse w request (retryAttempts - 1) 0 pr.asked
    .ok (pr.hear history request reply, reply.1.toOption)

/-- The limit of `run`: a planner's own is not brought up to one. -/
def MultiHopPlanner.hopLimit (p : MultiHopPlanner) (maxHops : Option Int) :
    Nat :=
  match maxHops with
  | none => p.maxHops.toNat
  | some hops => (max 1 hops).toNat

/-- `MultiHopPlanner.run`: the trajectory, and where its variables end. -/
def run (maxHops : Option Int) : Except BadBudget (Trajectory × Progress) :=
  match loop w p question (p.hopLimit maxHops) (p.hopLimit maxHops) {} with
  | .error exc => .error exc
  | .ok (pr, .failed exc) =>
    .ok (finish question pr none .error (some exc.message) exc.retryAfter, pr)
  | .ok (pr, .spoke turn stop) =>
    .ok (finish question pr (some turn.text) stop none none, pr)
  | .ok (pr, .bound stop) =>
    match final w p question pr stop with
    | .error exc => .error exc
    | .ok (pr, none) =>
      .ok (finish question pr none .error (some "the final answer call failed".toList)
        none, pr)
    | .ok (pr, some turn) =>
      .ok (finish question pr (some turn.text) stop none none, pr)

end Planner

end MemoryOS.Agent
