/-
Structure-aware chunking (`adapters/chunking/structural.py`): split on
boundaries the author marked, then fill at sentences, then repair sections
that are too small, then add overlap.

Sizes are integers, as the dataclass takes any. How a model counts tokens
is a parameter.

# Loops

A loop whose progress is not plain is given a number of turns; running out
of them is `outOfTurns`. `zeroDivision` is Python's `ZeroDivisionError`.
-/
import Mathlib.Data.List.Dedup
import Mathlib.Data.List.Sort
import MemoryOS.Chunking.Code
import MemoryOS.Corpus.Ports
import MemoryOS.Lib.Tiling

namespace MemoryOS

/-- `ChunkerConfig`. -/
structure ChunkerConfig where
  modelWindow : Int := 512
  /-- The hard ceiling. -/
  maximum : Int := 496
  target : Int := 396
  overlap : Int := 47
  /-- Below this a chunk is a fragment. -/
  minimum : Int := 79
deriving DecidableEq, Repr

/-- `ChunkerConfig`, the counter, and the tables that sentences are split
with. -/
structure StructuralChunker where
  /-- `count_tokens`. -/
  count : Text → Nat
  config : ChunkerConfig := {}
  unicode : Unicode := .ascii

/-- Why a chunker produced nothing. -/
inductive ChunkerStop
  | outOfTurns
  | zeroDivision
deriving DecidableEq, Repr

namespace StructuralChunker

open Lib Sentences CodeBoundaries

/-- What a pass over spans returns. -/
abbrev Cuts := Except ChunkerStop (List Span)

variable (sc : StructuralChunker) (text : Text)

/-- `self._count(text[start:end]) <= limit`. -/
def within (limit : Int) (s : Span) : Bool :=
  decide ((sc.count (between text s.1 s.2) : Int) ≤ limit)

/-- `version`: the algorithm and its parameters. -/
def version : String :=
  "structural-v3:model_window=" ++ toString sc.config.modelWindow
    ++ ":target=" ++ toString sc.config.target
    ++ ":overlap=" ++ toString sc.config.overlap
    ++ ":min=" ++ toString sc.config.minimum
    ++ ":max=" ++ toString sc.config.maximum

-- ======== sections

/-- `_sections`: cut at the offsets the parser marked. -/
def sections (doc : ParsedDocument) : List Span :=
  let length := doc.text.length
  let offsets := (((doc.structure_.map (·.charOffset)).filter fun o =>
    decide (0 < o ∧ o < length)).dedup).insertionSort (· ≤ ·)
  let bounds := 0 :: offsets ++ [length]
  (bounds.zip bounds.tail).filter fun s => decide (s.1 < s.2)

-- ====== last resorts

/-- The inner loop of `_character_split`: halve until it fits. -/
def halve : Nat → Nat → Nat → Except ChunkerStop Nat
  | 0, _, _ => .error .outOfTurns
  | turns + 1, cursor, stop =>
    if stop - cursor > 1 ∧ !sc.within text sc.config.maximum (cursor, stop)
    then halve turns cursor (cursor + max 1 ((stop - cursor) / 2))
    else .ok stop

/-- The loop of `_character_split`: cut on character counts, each cut
estimated in proportion. -/
def characterSplit (stop : Nat) : Nat → Nat → Cuts
  | 0, _ => .error .outOfTurns
  | turns + 1, cursor =>
    if cursor < stop then
      let tokens := sc.count (between text cursor stop)
      if (tokens : Int) ≤ sc.config.maximum then .ok [(cursor, stop)]
      else if tokens = 0 then .error .zeroDivision
      else
        let remaining : Int := (stop - cursor : Nat)
        let estimate := max 1 (remaining * sc.config.target / tokens)
        match sc.halve text (stop - cursor + 1) cursor
          (min stop (cursor + estimate.toNat)) with
        | .error e => .error e
        | .ok cut =>
          match characterSplit stop turns cut with
          | .error e => .error e
          | .ok spans => .ok ((cursor, cut) :: spans)
    else .ok []

/-- Skip the characters of one kind before `stop`. -/
def skipWhile (p : Char → Bool) (index stop : Nat) : Nat :=
  index + ((between text index stop).takeWhile p).length

/-- The loop of `_hard_split`: break after whitespace once the target is
reached. -/
def hardSplitLoop (stop : Nat) : Nat → Nat → Nat → Cuts
  | 0, _, _ => .error .outOfTurns
  | turns + 1, cursor, index =>
    if index < stop then
      let word := skipWhile text (fun c => !isSpace c) index stop
      let next := skipWhile text isSpace word stop
      if sc.config.target ≤ (sc.count (between text cursor next) : Int)
          ∧ next < stop then
        match hardSplitLoop stop turns next next with
        | .error e => .error e
        | .ok spans => .ok ((cursor, next) :: spans)
      else hardSplitLoop stop turns cursor next
    else .ok (if cursor < stop then [(cursor, stop)] else [])

/-- Keep what is within the ceiling, and cut the rest with `f`. -/
def ceiling (f : Span → Cuts) (spans : List Span) : Cuts :=
  recut (fun s =>
    if sc.within text sc.config.maximum s then .ok [s] else f s) spans

/-- `_character_split`. -/
def characterCut (s : Span) : Cuts :=
  sc.characterSplit text s.2 (s.2 - s.1 + 1) s.1

/-- `_hard_split`: last resort, break on whitespace to stay under the
ceiling. -/
def hardSplit (s : Span) : Cuts :=
  match sc.hardSplitLoop text s.2 (s.2 - s.1 + 1) s.1 s.1 with
  | .error e => .error e
  | .ok spans => sc.ceiling text (sc.characterCut text) spans

-- =========== prose

/-- The loop of `_fill` over the sentences: break before the one that goes
past the target. -/
def fillLoop (start stop : Nat) : Nat → Nat → List Span → List Span
  | cursor, _, [] => [(cursor, stop)]
  | cursor, accumulated, s :: rest =>
    let tokens := sc.count (between text (start + s.1) (start + s.2))
    if accumulated ≠ 0
        ∧ sc.config.target < ((accumulated + tokens : Nat) : Int) then
      (cursor, start + s.1) :: fillLoop start stop (start + s.1) tokens rest
    else fillLoop start stop cursor (accumulated + tokens) rest

/-- `_fill`: break an oversized section at sentence boundaries. -/
def fill (s : Span) : Cuts :=
  if sc.within text sc.config.target s then .ok [s]
  else
    let sentences := splitSentences sc.unicode (between text s.1 s.2)
    if sentences.isEmpty then sc.hardSplit text s
    else
      sc.ceiling text (sc.hardSplit text)
        (sc.fillLoop text s.1 s.2 s.1 0 sentences)

-- ============ code

/-- The loop of `_fill_between`: extend to the furthest boundary that still
fits, cut there, and carry on. -/
def fillBetweenLoop (stop : Nat) :
    Nat → List Nat → Nat → Option Nat → Cuts
  | _, [], cursor, _ => .ok (if cursor < stop then [(cursor, stop)] else [])
  | 0, _ :: _, _, _ => .error .outOfTurns
  | turns + 1, boundary :: rest, cursor, furthest =>
    if boundary ≤ cursor then
      fillBetweenLoop stop turns rest cursor furthest
    else if sc.within text sc.config.target (cursor, boundary) then
      fillBetweenLoop stop turns rest cursor (some boundary)
    else
      let chosen := furthest.getD boundary
      -- a candidate that was not consumed is tried from the new cursor
      match fillBetweenLoop stop turns
          (if chosen = boundary then rest else boundary :: rest) chosen
          none with
      | .error e => .error e
      | .ok spans => .ok ((cursor, chosen) :: spans)

/-- `_fill_between`: group candidate boundaries into spans. -/
def fillBetween (s : Span) (boundaries : List Nat) : Cuts :=
  match sc.fillBetweenLoop text s.2 (2 * (boundaries.length + 1))
    (boundaries ++ [s.2]) s.1 none with
  | .error e => .error e
  | .ok spans => .ok (if spans.isEmpty then [s] else spans)

/-- The loop of `_split_definition` over the sets of boundaries. -/
def splitAt (s : Span) : List (List Nat) → Cuts
  | [] => sc.hardSplit text s
  | boundaries :: rest =>
    if boundaries.isEmpty then splitAt s rest
    else
      match sc.fillBetween text s boundaries with
      | .error e => .error e
      | .ok spans =>
        if spans.all (sc.within text sc.config.maximum) then .ok spans
        else splitAt s rest

/-- `_split_definition`: break one oversized definition at the safest
boundaries it offers. -/
def splitDefinition (s : Span) : Cuts :=
  let depths := bracketDepths text s.2 (s.2 - s.1) s.1 0
  let lines := lineStartOffsets text s
  sc.splitAt text s [
    balanced (blankLineOffsets text s) depths s.1,
    balanced (outermostStatementOffsets text s) depths s.1,
    balanced lines depths s.1,
    lines]

-- ========= merging

/-- A fragment, which `_merge_undersized` joins to a neighbour. -/
def undersized (s : Span) : Bool :=
  decide ((sc.count (between text s.1 s.2) : Int) < sc.config.minimum)

/-- The first loop of `_merge_undersized`, at the span it is extending. -/
def mergeForward (s : Span) : List Span → List Span
  | [] => [s]
  | next :: rest =>
    if sc.undersized text s
        && sc.within text sc.config.target (s.1, next.2) then
      mergeForward (s.1, next.2) rest
    else s :: mergeForward next rest

/-- The last section merges backwards or not at all. -/
def mergeLast : List Span → List Span
  | [] => []
  | [s] => [s]
  | [previous, s] =>
    if sc.undersized text s
        && sc.within text sc.config.target (previous.1, s.2) then
      [(previous.1, s.2)]
    else [previous, s]
  | s :: t :: u :: rest => s :: mergeLast (t :: u :: rest)

/-- `_merge_undersized`. -/
def mergeUndersized : List Span → List Span
  | [] => []
  | s :: rest => sc.mergeLast text (sc.mergeForward text s rest)

-- ========= overlap

/-- The loop of `_overlap_start` over the sentences, the last one first. -/
def overlapLoop (previous : Span) (chosen : Nat) : List Span → Nat
  | [] => chosen
  | s :: rest =>
    let candidate := previous.1 + s.1
    if sc.config.overlap
        ≤ (sc.count (between text candidate previous.2) : Int) then
      candidate
    else overlapLoop previous candidate rest

/-- `_overlap_start`: where the overlap prefix begins. -/
def overlapStart (previous : Span) (stop : Nat) : Nat :=
  if sc.config.overlap ≤ 0 then previous.2
  else
    let sentences :=
      splitSentences sc.unicode (between text previous.1 previous.2)
    let chosen := sc.overlapLoop text previous previous.2 sentences.reverse
    if sc.within text sc.config.maximum (chosen, stop) then chosen
    else previous.2

/-- Where the stored text of a span begins. -/
def bodyStart (previous : Option Span) (s : Span) : Nat :=
  match previous with
  | none => s.1
  | some p => sc.overlapStart text p s.2

/-- `tokens == 0 or not content.strip()`: the span is left out. -/
def leftOut (previous : Option Span) (s : Span) : Bool :=
  let content := between text (sc.bodyStart text previous s) s.2
  decide (sc.count content = 0) || isBlank content

/-- `_definition_metadata`: name the definition a span falls inside. -/
def definitionMetadata (definitions : List StructureMarker) (start : Nat) :
    Meta :=
  let enclosing := definitions.filter fun m => decide (m.charOffset ≤ start)
  -- `max` returns the first of the furthest
  let innermost := enclosing.find? fun m =>
    enclosing.all fun n => decide (n.charOffset ≤ m.charOffset)
  match innermost.bind (·.label) with
  | none => []
  | some label =>
    if label.isEmpty then []
    else [("definition", String.ofList label)]

/-- The chunk of a span. -/
def chunkOf (definitions : List StructureMarker) (ordinal : Nat)
    (previous : Option Span) (s : Span) : TextChunk :=
  let start := sc.bodyStart text previous s
  let content := between text start s.2
  { ordinal := ordinal
    text := content
    charStart := s.1
    charEnd := s.2
    tokenCount := sc.count content
    prefixChars := s.1 - start
    metadata := definitionMetadata definitions s.1 }

/-- `_to_chunks`, from an ordinal and the span of the chunk before it. -/
def toChunks (definitions : List StructureMarker) :
    Nat → Option Span → List Span → List TextChunk
  | _, _, [] => []
  | ordinal, previous, s :: rest =>
    if sc.leftOut text previous s then
      toChunks definitions ordinal previous rest
    else
      sc.chunkOf text definitions ordinal previous s
        :: toChunks definitions (ordinal + 1) (some s) rest

-- ======== chunking

/-- The spans a document is cut into. -/
def spansOf (doc : ParsedDocument) : Cuts :=
  let sections := sections doc
  let cut (s : Span) : Cuts :=
    if doc.kind = .code then
      if sc.within doc.text sc.config.maximum s then .ok [s]
      else sc.splitDefinition doc.text s
    else sc.fill doc.text s
  match recut cut sections with
  | .error e => .error e
  | .ok spans => .ok (sc.mergeUndersized doc.text spans)

/-- `chunk`. -/
def chunk (doc : ParsedDocument) : Except ChunkerStop (List TextChunk) :=
  if isBlank doc.text then .ok []
  else
    match sc.spansOf doc with
    | .error e => .error e
    | .ok spans =>
      .ok (sc.toChunks doc.text
        (doc.structure_.filter fun m => decide (m.kind = "definition")) 0
        none spans)

end StructuralChunker

end MemoryOS
