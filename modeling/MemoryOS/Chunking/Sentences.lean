/-
Sentence splitting (`adapters/chunking/sentences.py`).

A sentence is a pair of offsets into the text. Unicode's tables only
decide which periods end an abbreviation.
-/
import MemoryOS.Domain.Text

namespace MemoryOS

/-- A `(start, end)` pair of offsets. -/
abbrev Span := Nat × Nat

/-- `text[start:end]` with `0 <= start <= end`. -/
def between (text : Text) (start stop : Nat) : Text :=
  (text.take stop).drop start

namespace Sentences

/-- `_ABBREVIATIONS`. -/
def abbreviations : List String := [
  "mr", "mrs", "ms", "dr", "prof", "sr", "jr", "st", "rev", "hon",
  "inc", "ltd", "co", "corp", "dept", "univ",
  "e.g", "i.e", "etc", "vs", "cf", "al", "viz", "approx",
  "fig", "eq", "ref", "sec", "ch", "vol", "no", "p", "pp",
  "jan", "feb", "mar", "apr", "jun", "jul", "aug", "sept", "sep",
  "oct", "nov", "dec",
  "mon", "tue", "wed", "thu", "fri", "sat", "sun",
  "a.m", "p.m", "u.s", "u.k", "e.u"]

/-- `[.!?]`. -/
def isTerminator (c : Char) : Bool := c ∈ ".!?".toList

/-- `["')\]]`. -/
def isCloser (c : Char) : Bool := c ∈ "\"')]".toList

/-- `[A-Z0-9"'(\[]`. -/
def startsSentence (c : Char) : Bool :=
  c.isUpper || c.isDigit || c ∈ "\"'([".toList

/-- What `_BOUNDARY` matches at the head of a text that a terminator comes
before: the length of its first group, and of the whole. -/
def boundaryAt (rest : Text) : Option (Nat × Nat) :=
  let closers := rest.takeWhile isCloser
  let after := rest.dropWhile isCloser
  let spaces := after.takeWhile isSpace
  match spaces, after.dropWhile isSpace with
  | _ :: _, c :: _ =>
    if startsSentence c then
      some (closers.length, closers.length + spaces.length)
    else none
  | _, _ => none

/-- `_BOUNDARY.finditer`: the end of the first group and of the match, for
each. `i` is the offset of `rest`, `skip` what is left of the last match. -/
def boundaries : Option Char → Nat → Nat → Text → List (Nat × Nat)
  | _, _, _, [] => []
  | _, i, skip + 1, c :: rest => boundaries (some c) (i + 1) skip rest
  | previous, i, 0, c :: rest =>
    if previous.any isTerminator then
      match boundaryAt (c :: rest) with
      | some (closers, length) =>
        (i + closers, i + length)
          :: boundaries (some c) (i + 1) (length - 1) rest
      | none => boundaries (some c) (i + 1) 0 rest
    else boundaries (some c) (i + 1) 0 rest

/-- `str.strip(".")`. -/
def stripDots (word : Text) : Text :=
  ((word.dropWhile (· = '.')).reverse.dropWhile (· = '.')).reverse

/-- `_ends_with_abbreviation`. -/
def endsWithAbbreviation (unicode : Unicode) (text : Text) (stop : Nat) :
    Bool :=
  match (text.take stop).reverse with
  | '.' :: before =>
    let word := stripDots (unicode.lower
      (before.takeWhile fun c => unicode.isAlnum c || c = '.').reverse)
    !word.isEmpty
      && (String.ofList word ∈ abbreviations || word.length == 1)
  | _ => false

/-- The loop of `split_sentences`, from `start`. -/
def sentencesFrom (unicode : Unicode) (text : Text) :
    Nat → List (Nat × Nat) → List Span
  | start, [] =>
    if start < text.length then [(start, text.length)] else []
  | start, (stop, next) :: rest =>
    if endsWithAbbreviation unicode text stop then
      sentencesFrom unicode text start rest
    else (start, stop) :: sentencesFrom unicode text next rest

/-- `split_sentences`. -/
def splitSentences (unicode : Unicode) (text : Text) : List Span :=
  if text.isEmpty then []
  else sentencesFrom unicode text 0 (boundaries none 0 0 text)

-- ====== where they start

theorem boundaryAt_bounds {rest : Text} {closers length : Nat}
    (h : boundaryAt rest = some (closers, length)) :
    0 < length ∧ length < rest.length := by
  unfold boundaryAt at h
  simp only at h
  split at h
  case h_1 s ss c cs hspaces hnext =>
    split at h
    case isFalse => cases h
    case isTrue =>
      cases h
      have hsplit : rest.length = (rest.takeWhile isCloser).length
          + ((s :: ss).length + (c :: cs).length) := by
        rw [← hspaces, ← hnext, ← List.length_append,
          List.takeWhile_append_dropWhile, ← List.length_append,
          List.takeWhile_append_dropWhile]
      rw [hspaces, hsplit]
      simp only [List.length_cons]
      omega
  case h_2 => cases h

theorem boundaries_sorted {previous : Option Char} {i skip : Nat}
    {rest : Text} :
    (boundaries previous i skip rest).Pairwise (fun p q => p.2 < q.2)
      ∧ ∀ p ∈ boundaries previous i skip rest,
        i + skip < p.2 ∧ p.2 < i + rest.length := by
  induction rest generalizing previous i skip with
  | nil =>
    unfold boundaries
    exact ⟨List.Pairwise.nil, nofun⟩
  | cons c rest ih =>
    cases skip with
    | succ skip =>
      unfold boundaries
      refine ⟨ih.1, fun p hp => ?_⟩
      obtain ⟨h1, h2⟩ := ih.2 p hp
      rw [List.length_cons]
      omega
    | zero =>
      have hlater : ∀ skip, ∀ p ∈ boundaries (some c) (i + 1) skip rest,
          i + 1 + skip < p.2 ∧ p.2 < i + (c :: rest).length := by
        intro skip p hp
        obtain ⟨h1, h2⟩ := (@ih (some c) (i + 1) skip).2 p hp
        rw [List.length_cons]
        omega
      unfold boundaries
      split
      case isTrue =>
        split
        case h_1 closers length hb =>
          obtain ⟨hpos, hlen⟩ := boundaryAt_bounds hb
          refine ⟨List.Pairwise.cons (fun p hp => ?_) ih.1, ?_⟩
          · have := (hlater _ p hp).1
            simp only
            omega
          · intro p hp
            rcases List.mem_cons.mp hp with rfl | hp
            · simp only
              omega
            · have := hlater _ p hp
              omega
        case h_2 =>
          refine ⟨ih.1, fun p hp => ?_⟩
          have := hlater _ p hp
          omega
      case isFalse =>
        refine ⟨ih.1, fun p hp => ?_⟩
        have := hlater _ p hp
        omega

theorem sentencesFrom_starts {unicode : Unicode} {text : Text} {start : Nat}
    {matches_ : List (Nat × Nat)}
    (hsorted : matches_.Pairwise fun p q => p.2 < q.2)
    (hin : ∀ p ∈ matches_, start < p.2 ∧ p.2 < text.length) :
    (sentencesFrom unicode text start matches_).Pairwise
        (fun s t => s.1 < t.1)
      ∧ ∀ s ∈ sentencesFrom unicode text start matches_,
        start ≤ s.1 ∧ s.1 < text.length := by
  induction matches_ generalizing start with
  | nil =>
    unfold sentencesFrom
    split
    case isTrue hlt => simpa using hlt
    case isFalse => simp
  | cons p rest ih =>
    obtain ⟨stop, next⟩ := p
    obtain ⟨hfirst, hrest⟩ := List.pairwise_cons.mp hsorted
    have hnext := hin _ List.mem_cons_self
    unfold sentencesFrom
    split
    case isTrue =>
      exact ih hrest fun p hp => hin p (List.mem_cons_of_mem _ hp)
    case isFalse =>
      obtain ⟨hs, hb⟩ := @ih next hrest fun p hp =>
        ⟨hfirst p hp, (hin p (List.mem_cons_of_mem _ hp)).2⟩
      refine ⟨List.Pairwise.cons (fun s hs' => ?_) hs, fun s hs' => ?_⟩
      · have := (hb s hs').1
        simp only at hnext ⊢
        omega
      · rcases List.mem_cons.mp hs' with rfl | hs'
        · simp only at hnext ⊢
          omega
        · have := hb s hs'
          simp only at hnext
          omega

theorem splitSentences_starts (unicode : Unicode) (text : Text) :
    (splitSentences unicode text).Pairwise (fun s t => s.1 < t.1)
      ∧ ∀ s ∈ splitSentences unicode text, s.1 < text.length := by
  unfold splitSentences
  split
  case isTrue => exact ⟨List.Pairwise.nil, nofun⟩
  case isFalse =>
    obtain ⟨hsorted, hin⟩ := @boundaries_sorted none 0 0 text
    obtain ⟨hs, hb⟩ := @sentencesFrom_starts unicode text 0 _ hsorted
      fun p hp => by simpa using hin p hp
    exact ⟨hs, fun s hs' => (hb s hs').2⟩

example : splitSentences .ascii "Hi there. Yes e.g. This \"ok.\" Go".toList
    = [(0, 9), (10, 29), (30, 32)] := by decide +kernel

end Sentences

end MemoryOS
