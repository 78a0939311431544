/-
Whether the claims of a multi-hop answer trace to something retrieved
(`application/agent/verify.py`).

Floats of the source are rationals here, and `** 0.5` is a parameter. The embedder
embeds each text on its own, so the vectors of a list are those of its texts.
-/
import MemoryOS.Decisions.Suggest
import MemoryOS.Domain.Grounding

namespace MemoryOS.Agent

open Lib
open Grounding (space literal number hasLetters splitSentences)

-- ====== a trajectory

/-- `Citation`, its excerpt and the text of its context. -/
structure Citation where
  excerpt : Text
  context : Option Text
deriving DecidableEq

/-- `ToolResult`. -/
structure ToolResult where
  content : Text
  citations : List Citation := []
  truncated : Bool := false
deriving DecidableEq

/-- `Step`. -/
structure Step where
  tool : Option Text
  result : Option ToolResult
deriving DecidableEq

/-- `Trajectory`. -/
structure Trajectory where
  steps : List Step
  answer : Option Text
deriving DecidableEq

/-- The result of a step that called a tool and got one. -/
def Step.acted (step : Step) : Option ToolResult :=
  if step.tool.isSome then step.result else none

/-- `acted`: the results of the hops, in order. -/
def Trajectory.acted (trajectory : Trajectory) : List ToolResult :=
  trajectory.steps.filterMap Step.acted

/-- `trajectory.answer or ""`. -/
def Trajectory.text (trajectory : Trajectory) : Text := trajectory.answer.getD []

/-- `Embedder`. -/
structure Embedder where
  embedQuery : Text → List ℚ
  embedPassage : Text → List ℚ

-- ====== thresholds

/-- `DIRECT`. -/
def direct : ℚ := 31 / 50

/-- `INFERRED`. -/
def inferred : ℚ := 29 / 50

/-- `MIN_SUPPORT`. -/
def minSupport : ℚ := 1 / 2

/-- `GROUNDED`. -/
def grounded : ℚ := 4 / 5

/-- `MAX_UNITS_PER_STEP`. -/
def maxUnitsPerStep : Nat := 48

/-- `UNIT_CHARS`. -/
def unitChars : Nat := 700

/-- `MIN_UNIT_CHARS`. -/
def minUnitChars : Nat := 40

/-- `ABSENCE_WINDOW`. -/
def absenceWindow : Nat := 60

/-- `LEAD_IN_WORDS`. -/
def leadInWords : Nat := 6

-- ======== patterns

/-- `_CITATION`. -/
def citation (script : Script) : Matcher :=
  let digits := Matcher.plus (.char fun c => (script.decimal c).isSome)
  .andThen (.char (· == '[')) (.all [
    digits,
    .star (.all [.star space, .char (· == ','), .star space, digits]),
    .char (· == ']')])

/-- `_CONNECTIVE_PREFIXES`. -/
def connectivePrefixes : List String := [
  "in summary", "in conclusion", "to summarise", "to summarize", "overall",
  "in short", "here are", "here is", "here's", "these are", "this means",
  "looking at", "let me", "i will", "i'll", "i should", "i need to", "first,",
  "next,", "finally,", "based on the above", "based on what", "to answer",
  "note that"]

/-- The last words of `_ABSENCE`. -/
def absent : List String := [
  "contain", "cover", "mention", "describe", "discuss", "address", "specify",
  "answer", "include", "provide", "state", "say", "reference", "detail", "record",
  "find", "found", "available", "evidence", "information", "data", "corpus",
  "memories", "decisions"]

/-- `_ABSENCE`. -/
def absence (script : Script) : Matcher :=
  let word := script.isWord
  let text := literal script.caseless
  let spaces := Matcher.plus space
  let boundary := Matcher.look fun prev next => prev.any word != next.any word
  let gap := Matcher.plus (.char fun c => !word c)
  .all [
    boundary,
    .oneOf [
      .all [text "do", .upTo (text "es") 1, spaces, text "not"],
      .all [text "did", spaces, text "not"],
      .all [text "do", .upTo (text "es") 1, text "n't"],
      text "didn't", text "cannot",
      .all [text "can", .upTo space 1, text "not"],
      text "can't",
      .all [text "could", spaces, text "not"],
      text "couldn't",
      .all [text "unable", spaces, text "to"],
      text "no", text "none", text "nothing", text "not"],
    boundary,
    .upTo (.all [gap, .plus (.char word)]) 4,
    gap,
    .oneOf (absent.map text)]

/-- `[\s\-*#>•]`. -/
def ornamental (c : Char) : Bool :=
  isSpace c || c == '-' || c == '*' || c == '#' || c == '>' || c == Char.ofNat 0x2022

/-- `_ORNAMENT`. -/
def ornament : Matcher := .oneOf [
  .andThen (.look fun prev _ => prev.isNone) (.plus (.char ornamental)),
  .plus (.char (· == '*'))]

-- ========== claims

/-- `Support`. -/
inductive Support
  | direct | inferred | unsupported
deriving DecidableEq, Repr

/-- `Claim`. -/
structure Claim where
  text : Text
  sentenceIndex : Nat
  citedStep : Option Nat
  supported : Bool
  supportExcerpt : Option Text
  citedSteps : List Nat := []
  support : Support := .unsupported
  similarity : ℚ := 0
  steps : List Nat := []
  factual : Bool := true
  fromTruncated : Bool := false
deriving DecidableEq

/-- What `_CITATION` recognises in a text, as numbers. -/
def cited (script : Script) (text : Text) : List Nat :=
  ((citation script).findall text).flatMap fun found =>
    ((found.drop 1).dropLast.splitOn ',').map (number script)

/-- `_cited_steps`. -/
def citedSteps (script : Script) (sentence : Text) : List Nat :=
  (cited script sentence).eraseDups

/-- `_is_factual`. -/
def isFactual (script : Script) (sentence : Text) : Bool :=
  let bare := strip (ornament.split sentence).flatten
  let lowered := script.lower bare
  let leadIn := bare.getLast? == some ':' && decide ((words bare).length ≤ leadInWords)
  let absence := ((absence script).spans bare 0).head?
  hasLetters sentence
    && !connectivePrefixes.any (fun start => start.toList.isPrefixOf lowered)
    && !leadIn
    && absence.all fun span => decide (absenceWindow < span.1)

/-- A sentence, classified. -/
def classified (script : Script) (sentence : Text) (index : Nat) : Claim :=
  let cited := citedSteps script sentence
  let factual := isFactual script sentence
  { text := sentence
    sentenceIndex := index
    citedStep := cited.head?
    citedSteps := cited
    supported := !factual
    supportExcerpt := none
    support := .unsupported
    factual := factual }

/-- `_classify`. -/
def classify (script : Script) (answer : Text) : List Claim :=
  (splitSentences answer).zipIdx.map fun s => classified script s.1 s.2

-- ======== passages

/-- `_clip`. -/
def clip (text : Text) (limit : Nat) : Text :=
  let flat := [' '].intercalate (words text)
  if flat.length ≤ limit then flat else flat.take (limit - 1) ++ [Char.ofNat 0x2026]

/-- `\n\s*\n`. -/
def blankLine : Matcher := .all [.char (· == '\n'), .star space, .char (· == '\n')]

/-- `_blocks`. -/
def blocks (content : Text) : List Text :=
  (((blankLine.split content).map fun raw => [' '].intercalate (words raw)).filter
    fun block => decide (minUnitChars ≤ block.length)).map (clip · unitChars)

/-- `_units`: at most half of the cap from citations, the rest from blocks. -/
def units (result : ToolResult) : List Text :=
  let quoted := (((result.citations.map fun c => c.context.getD c.excerpt).filter
    fun text => decide (minUnitChars ≤ (strip text).length)).map
      (clip · unitChars)).take (maxUnitsPerStep / 2)
  quoted ++ (blocks result.content).take (maxUnitsPerStep - quoted.length)

/-- A unit, and the hop that it is of. -/
structure Passage where
  text : Text
  owner : Nat
deriving DecidableEq

/-- `units`, with `owners`. -/
def passages (results : List ToolResult) : List Passage :=
  (results.zipIdx 1).flatMap fun r => (units r.1).map fun text => ⟨text, r.2⟩

-- ========= support

/-- The `ValueError` of `zip(…, strict=True)` and of `max` of nothing. -/
inductive VerifyError
  | zipLengths
  | emptyMax
deriving DecidableEq, Repr

/-- The sum of products. -/
def dot : List ℚ → List ℚ → ℚ
  | a :: left, b :: right => a * b + dot left right
  | _, _ => 0

/-- `_cosine`. -/
def cosine (sqrt : ℚ → ℚ) (left right : List ℚ) : Except VerifyError ℚ :=
  if left.length ≠ right.length then .error .zipLengths
  else
    let leftNorm := sqrt (dot left left)
    let rightNorm := sqrt (dot right right)
    if leftNorm = 0 ∨ rightNorm = 0 then .ok 0
    else .ok (dot left right / (leftNorm * rightNorm))

/-- The scores of a claim. -/
def scores (sqrt : ℚ → ℚ) (embedder : Embedder) (claim : Claim) :
    List Passage → Except VerifyError (List (Passage × ℚ))
  | [] => .ok []
  | p :: rest =>
    (cosine sqrt (embedder.embedQuery claim.text)
      (embedder.embedPassage p.text)).bind fun score =>
        (scores sqrt embedder claim rest).map fun scored => (p, score) :: scored

/-- `max(…, key=scores.__getitem__)`: the first of the best. -/
def bestOf (best : Passage × ℚ) : List (Passage × ℚ) → Passage × ℚ
  | [] => best
  | s :: rest => bestOf (if best.2 < s.2 then s else best) rest

/-- The hops with a passage that bears on the claim. -/
def bearing (inferred : ℚ) (scored : List (Passage × ℚ)) : List Nat :=
  (((scored.filter fun s => decide (inferred ≤ s.2)).map
    (·.1.owner)).dedup).insertionSort (· ≤ ·)

/-- The level of a claim. -/
def level (direct inferred : ℚ) (best : ℚ) (scored : List (Passage × ℚ)) : Support :=
  if direct ≤ best then .direct
  else if 2 ≤ (bearing inferred scored).length then .inferred
  else .unsupported

/-- A claim that was scored. -/
def judged (results : List ToolResult) (direct inferred : ℚ) (claim : Claim) :
    List (Passage × ℚ) → Except VerifyError Claim
  | [] => .error .emptyMax
  | first :: rest =>
    let best := bestOf first rest
    let level := level direct inferred best.2 (first :: rest)
    .ok
      { text := claim.text
        sentenceIndex := claim.sentenceIndex
        citedStep := claim.citedStep
        citedSteps := claim.citedSteps
        supported := decide (level ≠ .unsupported)
        supportExcerpt :=
          if level = .unsupported then none else some (clip best.1.text 240)
        support := level
        similarity := Decisions.roundHalfEven (best.2 * 10 ^ 4) / 10 ^ 4
        steps := bearing inferred (first :: rest)
        factual := true
        fromTruncated := (results[best.1.owner - 1]?).any (·.truncated) }

/-- A claim over no passages. -/
def unsupportedClaim (claim : Claim) : Claim :=
  { text := claim.text
    sentenceIndex := claim.sentenceIndex
    citedStep := claim.citedStep
    citedSteps := claim.citedSteps
    supported := false
    supportExcerpt := none
    support := .unsupported
    factual := true }

/-- The claims, one after another. -/
def judgeAll (sqrt : ℚ → ℚ) (embedder : Embedder) (results : List ToolResult)
    (direct inferred : ℚ) : List Claim → Except VerifyError (List Claim)
  | [] => .ok []
  | claim :: rest =>
    ((scores sqrt embedder claim (passages results)).bind
      (judged results direct inferred claim)).bind fun checked =>
        (judgeAll sqrt embedder results direct inferred rest).map (checked :: ·)

/-- `_support`. -/
def support (sqrt : ℚ → ℚ) (embedder : Embedder) (claims : List Claim)
    (results : List ToolResult) (direct inferred : ℚ) :
    Except VerifyError (List Claim) :=
  if (passages results).isEmpty then .ok (claims.map unsupportedClaim)
  else judgeAll sqrt embedder results direct inferred claims

-- ========= verdict

/-- `verdict`. -/
inductive Verdict
  | grounded | partially | ungrounded
deriving DecidableEq, Repr

/-- `VerificationResult`. -/
structure VerificationResult where
  supportRate : ℚ := 1
  directRate : ℚ := 1
  unsupported : List Claim := []
  invalidCitations : List Nat := []
  verdict : Verdict := .grounded
  claims : List Claim := []
  truncatedCitations : List Nat := []
  unresolvedCitations : List Text := []
deriving DecidableEq

/-- `_verdict`. -/
def verdictOf (rate : ℚ) (invalid : List Nat) (minSupport : ℚ) : Verdict :=
  if rate < minSupport then .ungrounded
  else if !invalid.isEmpty || decide (rate < grounded) then .partially
  else .grounded

/-- A factual claim that is not supported. -/
def Claim.flagged (claim : Claim) : Bool := claim.factual && !claim.supported

/-- `sorted({hop … if p(hop)})`. -/
def hopsWhere (p : Nat → Bool) (claims : List Claim) : List Nat :=
  (((claims.flatMap (·.citedSteps)).filter p).dedup).insertionSort (· ≤ ·)

/-- `hop in valid_hops`. -/
def validHop (results : List ToolResult) (hop : Nat) : Bool :=
  decide (1 ≤ hop) && decide (hop ≤ results.length)

/-- The claims, with what was found of the factual ones. -/
def merged (claims checked : List Claim) : List Claim :=
  claims.map fun c =>
    (checked.find? fun d => decide (d.sentenceIndex = c.sentenceIndex)).getD c

/-- What is reported of the claims once they were checked. -/
def reported (results : List ToolResult) (total : Nat) (claims : List Claim)
    (minSupport : ℚ) (unresolved : List Text) : VerificationResult :=
  let supported := claims.filter fun c => c.factual && c.supported
  let directCount := (supported.filter fun c => decide (c.support = .direct)).length
  let supportRate : ℚ := if total = 0 then 1 else supported.length / total
  let invalid := hopsWhere (fun hop => !validHop results hop) claims
  { supportRate := supportRate
    directRate :=
      if total = 0 then 1
      else if supported.isEmpty then 0
      else directCount / supported.length
    unsupported := claims.filter Claim.flagged
    invalidCitations := invalid
    verdict := verdictOf supportRate invalid minSupport
    claims := claims
    truncatedCitations := hopsWhere (fun hop =>
      validHop results hop && (results[hop - 1]?).any (·.truncated)) claims
    unresolvedCitations := unresolved }

/-- `verify`. -/
def verify (script : Script) (sqrt : ℚ → ℚ) (trajectory : Trajectory)
    (embedder : Embedder) (direct inferred minSupport : ℚ) (unresolved : List Text) :
    Except VerifyError VerificationResult :=
  let answer := strip trajectory.text
  if answer.isEmpty then .ok { unresolvedCitations := unresolved }
  else
    let claims := classify script answer
    let factual := claims.filter (·.factual)
    (support sqrt embedder factual trajectory.acted direct inferred).map fun checked =>
      reported trajectory.acted factual.length (merged claims checked) minSupport
        unresolved

-- ========= showing

/-- `VerificationResult.returnable`. -/
def VerificationResult.returnable (v : VerificationResult) : Bool :=
  decide (v.verdict ≠ .ungrounded)

/-- A claim, with the marker if it is flagged. -/
def Claim.marked (marker : Text) (claim : Claim) : Text :=
  claim.text ++ if claim.flagged then marker else []

/-- `VerificationResult.marked`. -/
def VerificationResult.marked (v : VerificationResult) (answer marker : Text) : Text :=
  if v.claims.isEmpty then answer
  else [' '].intercalate (v.claims.map (Claim.marked marker))

/-- `REFUSAL`. -/
def refusal : Text :=
  ("I could not answer that from what I retrieved. The searches I ran did not "
    ++ "return material that supports an answer to this question, and the answer I "
    ++ "drafted rested mostly on claims nothing in the corpus backs — so it is not "
    ++ "worth showing. What was retrieved is in the trajectory.").toList

/-- `presented`. -/
def presented (trajectory : Trajectory) (v : VerificationResult) : Text :=
  match trajectory.answer with
  | none => refusal
  | some answer =>
    if v.returnable then v.marked answer " [unsupported]".toList else refusal

end MemoryOS.Agent
