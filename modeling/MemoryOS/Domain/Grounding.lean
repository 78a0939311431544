/-
Whether an answer stayed inside its evidence (`domain/grounding.py`).

`verifyCitations` reads the passage numbers out of an answer, sentence by
sentence, and sorts them into those that were supplied and those that were
not. An answer that reads as a decline and cites nothing is a refusal.
-/
import MemoryOS.Domain.Text
import MemoryOS.Lib.Matcher
import Mathlib.Algebra.Order.Field.Rat
import Mathlib.Data.List.Dedup
import Mathlib.Data.List.Sort

namespace MemoryOS

open Lib

/-- What Python's `re` and `int` know about characters beyond ASCII. -/
structure Script extends Unicode where
  /-- `unicodedata.decimal`. -/
  decimal : Char → Option Nat
  /-- What `re.IGNORECASE` compares. -/
  caseless : Char → Char

/-- ASCII alone. -/
def Script.ascii : Script where
  toUnicode := Unicode.ascii
  decimal c := if c.isDigit then some (c.toNat - '0'.toNat) else none
  caseless := Char.toLower

namespace Grounding

-- ====== the patterns

/-- `\\s`. -/
def space : Matcher := .char isSpace

/-- Literal text. -/
def literal (same : Char → Char) (text : String) : Matcher :=
  .all (text.toList.map fun c => .char fun d => same d == same c)

/-- `[` and its fullwidth sibling. -/
def opensCitation (c : Char) : Bool := c == '[' || c == Char.ofNat 0x3010

/-- `]` and its fullwidth sibling. -/
def closesCitation (c : Char) : Bool := c == ']' || c == Char.ofNat 0x3011

/-- `_CITATION`. -/
def citation (script : Script) : Matcher :=
  let digits := Matcher.plus (.char fun c => (script.decimal c).isSome)
  .andThen (.char opensCitation) (.all [
    digits,
    .star (.all [.star space, .char (· == ','), .star space, digits]),
    .char closesCitation])

/-- `_SENTENCE`. -/
def sentence : Matcher := .oneOf [
  .all [.look fun prev _ => prev.any fun c => c == '.' || c == '!' || c == '?',
    .plus space],
  .plus (.char (· == '\n'))]

/-- `_HAS_LETTERS`. -/
def hasLetters (text : Text) : Bool := text.any Char.isAlpha

/-- `_NON_FACTUAL_PREFIXES`. -/
def nonFactualPrefixes : List String := [
  "i cannot", "i could not", "i don't", "i do not", "the passages do not",
  "the passages don't", "the provided passages", "the retrieved",
  "none of the passages", "no passage", "there is no", "there are no",
  "this is not", "based on the passages provided, i", "unfortunately"]

/-- The verbs of `_REFUSAL_PATTERN`. -/
def verbs : List String := [
  "contain", "cover", "mention", "describe", "discuss", "address", "specify",
  "specified", "answer", "include", "provide", "state", "say", "reference",
  "detail", "found", "available", "information", "passage"]

/-- `_REFUSAL_PATTERN`. -/
def refusal (script : Script) : Matcher :=
  let word := script.isWord
  let text := literal script.caseless
  let spaces := Matcher.plus space
  let boundary := Matcher.look fun prev next => prev.any word != next.any word
  let gap := Matcher.plus (.char fun c => !word c)
  .all [
    boundary,
    .oneOf [
      .all [text "do", .upTo (text "es") 1, spaces, text "not"],
      .all [text "did", spaces, text "not"],
      .all [text "do", .upTo (text "es") 1, text "n't"],
      text "didn't", text "cannot",
      .all [text "can", .upTo space 1, text "not"],
      text "can't",
      .all [text "could", spaces, text "not"],
      text "couldn't",
      .all [text "unable", spaces, text "to"],
      text "no",
      .all [text "none", spaces, text "of"],
      .all [text "nothing", spaces, text "in"],
      text "not"],
    boundary,
    .upTo (.all [gap, .plus (.char word)]) 3,
    gap,
    .oneOf (verbs.map text)]

-- ====== verification

/-- `int` of some digits with blanks around. -/
def number (script : Script) (part : Text) : Nat :=
  (part.filterMap script.decimal).foldl (fun n d => 10 * n + d) 0

/-- `_indices`. -/
def indices (script : Script) (text : Text) : List Nat :=
  ((citation script).findall text).flatMap fun found =>
    ((found.drop 1).dropLast.splitOn ',').map (number script)

/-- `_is_factual`. -/
def isFactual (script : Script) (text : Text) : Bool :=
  let lowered := (script.lower text).dropWhile fun c => c ∈ "-*# ".toList
  hasLetters text
    && !nonFactualPrefixes.any fun start => start.toList.isPrefixOf lowered

/-- `_is_refusal`. -/
def isRefusal (script : Script) (answer : Text) (citesNothing : Bool) : Bool :=
  citesNothing && (refusal script).search none answer

/-- `SentenceCheck`. -/
structure SentenceCheck where
  text : Text
  citations : List Nat
  factual : Bool
  unsupported : Bool
deriving DecidableEq, Repr

/-- `VerificationResult`. -/
structure VerificationResult where
  sentences : List SentenceCheck := []
  hallucinatedIndices : List Nat := []
  citedIndices : List Nat := []
  isRefusal : Bool := false
deriving DecidableEq, Repr

/-- The sentences of an answer. -/
def sentencesOf (answer : Text) : List Text :=
  ((sentence.split (strip answer)).map strip).filter fun s => !s.isEmpty

/-- `VerificationResult.factual_sentences`. -/
def VerificationResult.factualSentences (v : VerificationResult) : Nat :=
  v.sentences.countP (·.factual)

/-- `VerificationResult.supported_sentences`. -/
def VerificationResult.supportedSentences (v : VerificationResult) : Nat :=
  v.sentences.countP fun s => s.factual && !s.unsupported

/-- `VerificationResult.citation_rate`. -/
def VerificationResult.citationRate (v : VerificationResult) : ℚ :=
  if v.factualSentences = 0 then 1
  else v.supportedSentences / v.factualSentences

/-- `VerificationResult.grounded`. -/
def VerificationResult.grounded (v : VerificationResult) : Bool :=
  v.hallucinatedIndices.isEmpty && decide (v.citationRate = 1)

/-- `verify_citations`. -/
def verifyCitations (script : Script) (answer : Text) (valid : List Nat) :
    VerificationResult :=
  let stripped := strip answer
  if stripped.isEmpty then {}
  else
    let declines := isRefusal script stripped (indices script stripped).isEmpty
    let cited := (sentencesOf answer).flatMap (indices script)
    { sentences := (sentencesOf answer).map fun text =>
        let factual := isFactual script text && !declines
        { text := text
          citations := indices script text
          factual := factual
          unsupported := factual && (indices script text).isEmpty }
      hallucinatedIndices := ((cited.filter fun i => decide (i ∉ valid)).dedup
        ).insertionSort (· ≤ ·)
      citedIndices := cited.filter fun i => decide (i ∈ valid)
      isRefusal := declines }

-- ====== reflections

/-- `[A-Z0-9\"'\u201c\u2018]`: what can begin a sentence. -/
def beginsSentence (c : Char) : Bool :=
  c.isUpper || c.isDigit || c == '"' || c == Char.ofNat 0x27
    || c == Char.ofNat 0x201c || c == Char.ofNat 0x2018

/-- `_REFLECTION_SENTENCE`. -/
def reflectionSentence : Matcher := .oneOf [
  .all [.look fun prev _ => prev.any fun c => c == '.' || c == '!' || c == '?',
    .plus space, .look fun _ next => next.any beginsSentence],
  .plus (.char (· == '\n'))]

/-- `split_sentences`. -/
def splitSentences (text : Text) : List Text :=
  ((reflectionSentence.split (strip text)).map strip).filter fun s => !s.isEmpty

/-- `ReflectionCheck`. -/
structure ReflectionCheck where
  sentences : List SentenceCheck := []
  outOfEvidence : List Nat := []
  citedIndices : List Nat := []
deriving DecidableEq, Repr

/-- `ReflectionCheck.claims`. -/
def ReflectionCheck.claims (r : ReflectionCheck) : Nat :=
  r.sentences.countP (·.factual)

/-- `ReflectionCheck.cited_claims`. -/
def ReflectionCheck.citedClaims (r : ReflectionCheck) : Nat :=
  r.sentences.countP fun s => s.factual && !s.unsupported

/-- `ReflectionCheck.citation_rate`. -/
def ReflectionCheck.citationRate (r : ReflectionCheck) : ℚ :=
  if r.claims = 0 then 0 else r.citedClaims / r.claims

/-- `ReflectionCheck.grounded`. -/
def ReflectionCheck.grounded (r : ReflectionCheck) : Bool :=
  r.outOfEvidence.isEmpty && decide (r.citationRate = 1)

/-- `ReflectionCheck.writable`. -/
def ReflectionCheck.writable (r : ReflectionCheck) : Bool :=
  r.outOfEvidence.isEmpty && decide (0 < r.citedClaims)

/-- `check_reflection`. -/
def checkReflection (script : Script) (text : Text) (valid : List Nat) :
    ReflectionCheck :=
  let stripped := strip text
  if stripped.isEmpty then {}
  else
    let sentences := splitSentences stripped
    let cited := sentences.flatMap (indices script)
    { sentences := sentences.map fun sentence =>
        { text := sentence
          citations := indices script sentence
          factual := hasLetters sentence
          unsupported := hasLetters sentence
            && (indices script sentence).isEmpty }
      outOfEvidence := ((cited.filter fun i => decide (i ∉ valid)).dedup
        ).insertionSort (· ≤ ·)
      citedIndices := cited.filter fun i => decide (i ∈ valid) }

end Grounding

end MemoryOS
