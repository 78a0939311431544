/-
The readable window around a matched span (`domain/citation.py`).
-/
import MemoryOS.Domain.Text
import MemoryOS.Lib.Matcher

namespace MemoryOS.Citation

open Lib

/-- `_BOUNDARY`. -/
def boundary : Matcher :=
  let newline := Matcher.char (· == '\n')
  let ended := Matcher.look fun prev _ =>
    prev.any fun c => c == '.' || c == '!' || c == '?'
  .oneOf [.andThen newline newline, newline, .andThen ended (.char isSpace)]

/-- `_BOUNDARY_SEARCH`. -/
def boundarySearch : Nat := 120

/-- `Excerpt`. -/
structure Excerpt where
  text : Text
  spanStart : Int
  spanEnd : Int
  truncatedStart : Bool
  truncatedEnd : Bool
deriving DecidableEq, Repr

/-- `span`. -/
def Excerpt.span (e : Excerpt) : Text := slice e.text e.spanStart.toNat e.spanEnd

/-- `region.find(" ")`. -/
def find (region : Text) : Option Nat := region.findIdx? (· == ' ')

/-- `region.rfind(" ")`. -/
def rfind (region : Text) : Option Nat :=
  (region.reverse.findIdx? (· == ' ')).map fun i => region.length - 1 - i

/-- `_snap_start`. -/
def snapStart (text : Text) (windowStart spanStart : Nat) : Nat :=
  if windowStart = 0 then 0
  else
    let region := slice text windowStart spanStart
    let reach := max 1 (region.length / 2)
    match (boundary.spans (slice region 0 reach) 0).head? with
    | some found => windowStart + found.2
    | none =>
      match find region with
      | some space =>
        if space ≤ boundarySearch then windowStart + space + 1
        else windowStart
      | none => windowStart

/-- `_snap_end`. -/
def snapEnd (text : Text) (spanEnd windowEnd : Nat) : Nat :=
  if text.length ≤ windowEnd then text.length
  else
    let region := slice text spanEnd windowEnd
    let reach := max 1 (region.length / 2)
    match (boundary.spans region reach).getLast? with
    | some found => spanEnd + found.1
    | none =>
      match rfind region with
      | some space => spanEnd + space
      | none => windowEnd

/-- The `ValueError` of `build_excerpt`: "invalid span …". -/
structure InvalidSpan where
  charStart : Int
  charEnd : Int
deriving DecidableEq, Repr

/-- `build_excerpt`. -/
def buildExcerpt (memoryText : Text) (charStart charEnd : Int)
    (contextChars : Nat) : Except InvalidSpan Excerpt :=
  if charStart < 0 || charEnd < charStart then .error ⟨charStart, charEnd⟩
  else
    let length := memoryText.length
    let start := min charStart.toNat length
    let stop := max start (min charEnd.toNat length)
    let windowStart := snapStart memoryText (start - contextChars) start
    let windowEnd := snapEnd memoryText stop (min length (stop + contextChars))
    .ok {
      text := slice memoryText windowStart windowEnd
      spanStart := (start : Int) - windowStart
      spanEnd := (stop : Int) - windowStart
      truncatedStart := decide (0 < windowStart)
      truncatedEnd := decide (windowEnd < length) }

end MemoryOS.Citation
