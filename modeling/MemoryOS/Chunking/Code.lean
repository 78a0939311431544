/-
Where a definition may be cut (`adapters/chunking/structural.py`, the
functions below the class).

Offsets are absolute. Which of them a section offers decides how good a
boundary is, never whether text is lost.
-/
import MemoryOS.Chunking.Sentences

namespace MemoryOS.CodeBoundaries

-- =========== lines

/-- What `str.splitlines` breaks at, besides a `\r\n`. -/
def isLineBreak (c : Char) : Bool :=
  let n := c.toNat
  (0x0A ≤ n && n ≤ 0x0D) || (0x1C ≤ n && n ≤ 0x1E) || n == 0x85
    || n == 0x2028 || n == 0x2029

/-- `str.splitlines(keepends=True)`; `line` is the line so far. -/
def splitLinesFrom (line : Text) : Text → List Text
  | [] => if line.isEmpty then [] else [line]
  | c :: rest =>
    -- a carriage return waits for the line feed after it
    if isLineBreak c && !(c = '\r' && rest.head? = some '\n') then
      (line ++ [c]) :: splitLinesFrom [] rest
    else splitLinesFrom (line ++ [c]) rest

/-- The lines that are not blank, as `(offset, indentation)`. -/
def nonBlankLines : Nat → List Text → List (Nat × Nat)
  | _, [] => []
  | offset, line :: rest =>
    let later := nonBlankLines (offset + line.length) rest
    if isBlank line then later
    else (offset, (line.takeWhile isSpace).length) :: later

/-- `_body_lines`: each non-blank line after the first. -/
def bodyLines (text : Text) (section_ : Span) : List (Nat × Nat) :=
  let found := nonBlankLines 0
    (splitLinesFrom [] (between text section_.1 section_.2))
  (found.tail.filter fun l => decide (0 < l.1)).map fun l =>
    (section_.1 + l.1, l.2)

/-- `_line_start_offsets`. -/
def lineStartOffsets (text : Text) (section_ : Span) : List Nat :=
  (bodyLines text section_).map (·.1)

/-- `_outermost_statement_offsets`: line starts at the shallowest
indentation the body uses. -/
def outermostStatementOffsets (text : Text) (section_ : Span) : List Nat :=
  let lines := bodyLines text section_
  match (lines.map (·.2)).min? with
  | none => []
  | some shallowest =>
    (lines.filter fun l => decide (l.2 = shallowest)).map (·.1)

/-- `re.finditer(r"\n[ \t]*\n", text)`: the ends of the matches. `skip` is
what is left of the last one. -/
def blankLineEnds : Nat → Nat → Text → List Nat
  | _, _, [] => []
  | i, skip + 1, _ :: rest => blankLineEnds (i + 1) skip rest
  | i, 0, c :: rest =>
    let blanks := rest.takeWhile fun d => d = ' ' || d = '\t'
    if c = '\n' && (rest.drop blanks.length).head? = some '\n' then
      (i + blanks.length + 2)
        :: blankLineEnds (i + 1) (blanks.length + 1) rest
    else blankLineEnds (i + 1) 0 rest

/-- `_blank_line_offsets`. -/
def blankLineOffsets (text : Text) (section_ : Span) : List Nat :=
  (blankLineEnds section_.1 0 (between text section_.1 section_.2)).filter
    fun offset => decide (section_.1 < offset ∧ offset < section_.2)

-- ======== brackets

/-- `text.startswith(prefix, index)`. -/
def startsAt (text prefix_ : Text) (index : Nat) : Bool :=
  prefix_.isPrefixOf (text.drop index)

/-- The loop of `_skip_string`: where the literal that `closer` closes
ends. The first number bounds the turns. -/
def stringEnd (text closer : Text) (stop : Nat) : Nat → Nat → Nat
  | 0, cursor => cursor
  | fuel + 1, cursor =>
    if cursor < stop then
      if text[cursor]? = some '\\' then
        stringEnd text closer stop fuel (cursor + 2)
      else if startsAt text closer cursor then cursor + closer.length
      -- an unterminated single-quoted string ends at the newline
      else if closer.length = 1 ∧ text[cursor]? = some '\n' then cursor
      else stringEnd text closer stop fuel (cursor + 1)
    else cursor

/-- `_skip_string`: the length of the literal at `index`, closers
included. -/
def skipString (text : Text) (index stop : Nat) : Nat :=
  let triple := between text index (index + 3)
  let closer :=
    if triple = "\"\"\"".toList || triple = "'''".toList then triple
    else between text index (index + 1)
  let cursor := index + closer.length
  min (stringEnd text closer stop (stop - cursor) cursor) stop - index

/-- `text.find("*/", index + 2, end) + 2 - index`, or the rest of the
section. -/
def commentLength (text : Text) (index stop : Nat) : Nat :=
  let inside := between text (index + 2) stop
  match (List.range inside.length).find? fun i =>
      startsAt inside "*/".toList i with
  | none => stop - index
  | some i => i + 4

/-- One turn of the loop of `_bracket_depths`: how many characters it
passes at this depth, and the depth after them. -/
def scanStep (text : Text) (index stop depth : Nat) : Nat × Nat :=
  match text.drop index with
  | [] => (1, depth)
  | c :: rest =>
    if c = '#' || startsAt text "//".toList index then
      (((c :: rest).take (stop - index)).takeWhile (· ≠ '\n') |>.length,
        depth)
    else if startsAt text "/*".toList index then
      (commentLength text index stop, depth)
    else if c = '"' || c = '\'' || c = '\x60' then
      (skipString text index stop, depth)
    else if c = '(' || c = '[' || c = '\x7b' then (1, depth + 1)
    else if c = ')' || c = ']' || c = '\x7d' then (1, depth - 1)
    else (1, depth)

/-- `_bracket_depths`: the depth immediately before each offset of the
section, its end included. Each turn passes a character at least. -/
def bracketDepths (text : Text) (stop : Nat) : Nat → Nat → Nat → List Nat
  | 0, _, depth => [depth]
  | fuel + 1, index, depth =>
    if index < stop then
      let turn := scanStep text index stop depth
      List.replicate (min turn.1 (stop - index)) depth
        ++ bracketDepths text stop fuel (index + max 1 turn.1) turn.2
    else [depth]

/-- `_balanced`: only the offsets where no bracket is open. -/
def balanced (offsets depths : List Nat) (start : Nat) : List Nat :=
  offsets.filter fun offset => decide (depths[offset - start]? = some 0)

-- ====== inside the section

theorem splitLinesFrom_flatten (line text : Text) :
    (splitLinesFrom line text).flatten = line ++ text := by
  induction text generalizing line with
  | nil =>
    unfold splitLinesFrom
    split
    case isTrue h => simp [List.isEmpty_iff.mp h]
    case isFalse => simp
  | cons c rest ih =>
    unfold splitLinesFrom
    split
    case isTrue => simp [ih]
    case isFalse => simp [ih]

theorem nonBlankLines_lt {offset : Nat} {lines : List Text} :
    ∀ l ∈ nonBlankLines offset lines,
      l.1 < offset + lines.flatten.length := by
  induction lines generalizing offset with
  | nil => exact nofun
  | cons line rest ih =>
    have hlater : ∀ l ∈ nonBlankLines (offset + line.length) rest,
        l.1 < offset + (line :: rest).flatten.length := by
      intro l hl
      have := ih l hl
      rw [List.flatten_cons, List.length_append]
      omega
    unfold nonBlankLines
    simp only
    split
    case isTrue => exact hlater
    case isFalse hblank =>
      intro l hl
      rcases List.mem_cons.mp hl with rfl | hl
      · have hne : line ≠ [] := by
          rintro rfl
          exact hblank rfl
        have := List.length_pos_iff.mpr hne
        rw [List.flatten_cons, List.length_append]
        simp only
        omega
      · exact hlater l hl

theorem bodyLines_lt {text : Text} {section_ : Span}
    (hle : section_.2 ≤ text.length) :
    ∀ l ∈ bodyLines text section_, l.1 < section_.2 := by
  intro l hl
  unfold bodyLines at hl
  obtain ⟨l₀, hl₀, rfl⟩ := List.mem_map.mp hl
  have hmem := List.mem_of_mem_tail (List.mem_filter.mp hl₀).1
  have hlt := nonBlankLines_lt l₀ hmem
  rw [splitLinesFrom_flatten, List.nil_append, Nat.zero_add] at hlt
  unfold between at hlt
  rw [List.length_drop, List.length_take, Nat.min_eq_left hle] at hlt
  simp only
  omega

theorem lineStartOffsets_lt {text : Text} {section_ : Span}
    (hle : section_.2 ≤ text.length) :
    ∀ o ∈ lineStartOffsets text section_, o < section_.2 := by
  intro o ho
  obtain ⟨l, hl, rfl⟩ := List.mem_map.mp ho
  exact bodyLines_lt hle l hl

theorem outermostStatementOffsets_lt {text : Text} {section_ : Span}
    (hle : section_.2 ≤ text.length) :
    ∀ o ∈ outermostStatementOffsets text section_, o < section_.2 := by
  intro o ho
  unfold outermostStatementOffsets at ho
  simp only at ho
  split at ho
  case h_1 => cases ho
  case h_2 =>
    obtain ⟨l, hl, rfl⟩ := List.mem_map.mp ho
    exact bodyLines_lt hle l (List.mem_filter.mp hl).1

theorem blankLineOffsets_lt {text : Text} {section_ : Span} :
    ∀ o ∈ blankLineOffsets text section_, o < section_.2 := by
  intro o ho
  have h := (List.mem_filter.mp ho).2
  rw [decide_eq_true_eq] at h
  exact h.2

theorem mem_of_mem_balanced {offsets depths : List Nat} {start o : Nat}
    (ho : o ∈ balanced offsets depths start) : o ∈ offsets :=
  (List.mem_filter.mp ho).1

end MemoryOS.CodeBoundaries
