/-
Whether what was typed is a claim, a question, or both
(`domain/message_intent.py`).
-/
import MemoryOS.Domain.Text
import MemoryOS.Lib.Matcher

namespace MemoryOS

open Lib

/-- `ChatRole`. -/
inductive ChatRole
  | user | assistant
deriving DecidableEq, Repr

/-- `MessageIntent`. -/
inductive MessageIntent
  | statement | question | both
deriving DecidableEq, Repr

namespace MessageIntent

/-- `_INTERROGATIVE`. -/
def interrogative : List String := [
  "what", "whats", "what's", "why", "whys", "why's", "how", "hows", "how's",
  "when", "whens", "when's", "where", "wheres", "where's", "which", "who",
  "whos", "who's", "whom", "whose"]

/-- `_QUERY_IMPERATIVE`. -/
def queryImperative : List String := [
  "find", "show me", "show the", "list", "search", "look up", "look for",
  "tell me", "remind me", "give me", "pull up", "recall", "summarise",
  "summarize"]

/-- `_AUXILIARY`. -/
def auxiliary : List String := [
  "do", "does", "did", "is", "isnt", "isn't", "are", "arent", "aren't", "was",
  "were", "have", "has", "had", "can", "could", "should", "would", "will",
  "am"]

/-- `_SUBJECT`. -/
def subject : List String := [
  "i", "we", "you", "it", "he", "she", "they", "there", "this", "that",
  "these", "those", "the", "my", "our", "any", "anything", "anyone",
  "something"]

/-- What `_opening` strips from the front. -/
def fillers : List String := [
  "so ", "ok ", "okay ", "hmm ", "well ", "and ", "but ", "also "]

/-- `_SUBSTANTIAL_WORDS`. -/
def substantialWords : Nat := 4

-- ========= clauses

/-- An em or an en dash. -/
def isDash (c : Char) : Bool := c == Char.ofNat 0x2014 || c == Char.ofNat 0x2013

/-- What comes after a run of spaces that is not empty, and how long the
run is. -/
def spaces (text : Text) : Option (Nat × Text) :=
  match text.takeWhile isSpace with
  | [] => none
  | run => some (run.length, text.dropWhile isSpace)

/-- The length of what `_BOUNDARY` matches at the head of a text, after
`previous`. -/
@[irreducible]
def boundaryLength (previous : Option Char) (rest : Text) : Option Nat :=
  let spaced : Option Nat :=
    match spaces rest with
    | none => none
    | some (before, after) =>
      if previous.any (· ∈ ".!?".toList) then some before
      else
        match after with
        | '-' :: '-' :: more =>
          (spaces more).map fun r => before + 2 + r.1
        | c :: more =>
          if isDash c then (spaces more).map fun r => before + 1 + r.1
          else none
        | [] => none
  match spaced with
  | some n => some n
  | none =>
    match rest.takeWhile fun c => c == ';' || c == '\n' with
    | [] => none
    | run => some run.length

/-- The loop of `_BOUNDARY.split`: the clause read so far, the last
character first, and what is left of the last match. -/
def clausesFrom : Text → Option Char → Nat → Text → List Text
  | clause, _, _, [] => [clause.reverse]
  | clause, _, skip + 1, c :: rest => clausesFrom clause (some c) skip rest
  | clause, previous, 0, c :: rest =>
    match boundaryLength previous (c :: rest) with
    | some n => clause.reverse :: clausesFrom [] (some c) (n - 1) rest
    | none => clausesFrom (c :: clause) (some c) 0 rest

-- ======= questions

variable (unicode : Unicode)

/-- The word a text begins with, in lower case, and what comes after it. -/
def leadingWord (text : Text) : String × Text :=
  (String.ofList ((text.takeWhile unicode.isWord).map Char.toLower),
    text.dropWhile unicode.isWord)

/-- `_EXCLAMATORY.match`. -/
def exclamatory (text : Text) : Bool :=
  let first := leadingWord unicode text
  match spaces first.2 with
  | none => false
  | some (_, after) =>
    let second := leadingWord unicode after
    ((first.1 == "what" || first.1 == "how")
        && (second.1 == "a" || second.1 == "an"))
      || (first.1 == "how" && second.1 != ""
        && match spaces second.2 with
          | none => false
          | some (_, last) => (leadingWord unicode last).1 == "that")

/-- `_opening`: the clause in lower case, without leading punctuation and
filler. -/
def opening (clause : Text) : Text :=
  let dropPunctuation := List.dropWhile fun c => !unicode.isWord c
  let lowered := dropPunctuation (unicode.lower (strip clause))
  dropPunctuation (fillers.foldl (fun text filler =>
    if filler.toList.isPrefixOf text then text.drop filler.length
    else text) lowered)

/-- `_is_question`. -/
def isQuestion (clause : Text) : Bool :=
  let stripped := strip clause
  if stripped.isEmpty then false
  else if stripped.getLast? == some '?' then true
  else if exclamatory unicode stripped then false
  else
    let lowered := opening unicode stripped
    match (words lowered).map String.ofList with
    | [] => false
    | first :: rest =>
      decide (first ∈ interrogative)
        || queryImperative.any (·.toList.isPrefixOf lowered)
        || (decide (first ∈ auxiliary)
          && (rest.head?).any fun second => decide (second ∈ subject))

/-- `_is_substantial`. -/
def isSubstantial (clause : Text) : Bool :=
  decide (substantialWords ≤ (words clause).length)

/-- `classify`. -/
def classify (text : Text) : MessageIntent :=
  let clauses := (clausesFrom [] none 0 text).filter fun c => !isBlank c
  if !clauses.any (isQuestion unicode) then .statement
  else if clauses.any fun c => !isQuestion unicode c && isSubstantial c then
    .both
  else .question

example : classify .ascii "I finally worked out how leases work".toList
    = .statement := by decide +kernel

example : classify .ascii "I think it is fine -- does that match?".toList
    = .both := by decide +kernel

-- ====== referring back

/-- `_DEICTIC`. -/
def deictic : List String := [
  "it", "its", "that", "this", "those", "these", "them", "they", "one",
  "ones", "other", "others", "another", "same", "previous", "latter",
  "former", "second", "third", "last", "next", "above", "below", "instead",
  "again", "more", "else"]

/-- `_FUNCTION`. -/
def function : List String := interrogative ++ auxiliary ++ [
  "a", "an", "and", "about", "at", "be", "been", "but", "by", "for", "from",
  "i", "if", "in", "into", "me", "my", "no", "not", "of", "on", "or", "our",
  "so", "than", "the", "then", "there", "to", "too", "us", "was", "we",
  "with", "you", "your"]

/-- `_STANDALONE_WORDS`. -/
def standaloneWords : Nat := 2

/-- `_WORD`. -/
def word : Matcher := .plus (.char fun c => c.isLower || c.isDigit || c == '_')

/-- `refers_back`. -/
def refersBack (text : Text) : Bool :=
  let named := ((word.findall (unicode.lower text)).map String.ofList).filter
    fun w => decide (w ∉ function) && decide (w ∉ deictic)
  decide (named.length < standaloneWords)

example : refersBack .ascii "what about the other one?".toList = true := by
  decide +kernel

end MessageIntent

end MemoryOS
