/-
Python text, as far as the program looks into it (`str.strip`,
`str.split`), and its normalization (`domain/normalization.py`): six rewrites,
each applied once and in this order. Unicode's tables and its composition are
parameters.
-/
import Mathlib.Data.List.TakeWhile
import MemoryOS.Domain.Values

namespace MemoryOS

/-- `str.isspace` of one character, which is also what `\\s` matches. -/
def isSpace (c : Char) : Bool :=
  let n := c.toNat
  (0x09 ≤ n && n ≤ 0x0D) || (0x1C ≤ n && n ≤ 0x20) || n == 0x85
    || n == 0xA0 || n == 0x1680 || (0x2000 ≤ n && n ≤ 0x200A)
    || n == 0x2028 || n == 0x2029 || n == 0x202F || n == 0x205F
    || n == 0x3000

/-- `str.strip()`. -/
def strip (text : Text) : Text :=
  ((text.dropWhile isSpace).reverse.dropWhile isSpace).reverse

/-- `not text.strip()`. -/
def isBlank (text : Text) : Bool := (strip text).isEmpty

theorem isBlank_iff {text : Text} :
    isBlank text = true ↔ ∀ c ∈ text, isSpace c = true := by
  unfold isBlank strip
  rw [List.isEmpty_iff, List.reverse_eq_nil_iff, List.dropWhile_eq_nil_iff]
  simp only [List.mem_reverse]
  constructor
  · intro h c hc
    rw [← List.takeWhile_append_dropWhile (p := isSpace) (l := text),
      List.mem_append] at hc
    rcases hc with hc | hc
    · exact List.mem_takeWhile_imp hc
    · exact h c hc
  · exact fun h c hc => h c ((List.dropWhile_sublist _).mem hc)

theorem mem_of_mem_strip {text : Text} {c : Char} (h : c ∈ strip text) :
    c ∈ text := by
  unfold strip at h
  exact (List.dropWhile_sublist _).mem
    (List.mem_reverse.1 ((List.dropWhile_sublist _).mem (List.mem_reverse.1 h)))

section
variable {text u v w : Text}

/-- Whitespace only. -/
def Whitespace (text : Text) : Prop := ∀ c ∈ text, isSpace c = true

theorem dropWhile_whitespace (hw : Whitespace w) :
    (w ++ u).dropWhile isSpace = u.dropWhile isSpace := by
  rw [List.dropWhile_append, List.dropWhile_eq_nil_iff.2 hw]
  rfl

theorem whitespace_reverse (hv : Whitespace v) : Whitespace v.reverse :=
  fun c hc => hv c (List.mem_reverse.1 hc)

theorem strip_around (hw : Whitespace w) (hv : Whitespace v) :
    strip (w ++ u ++ v) = strip u := by
  unfold strip
  rw [List.append_assoc, dropWhile_whitespace hw, List.dropWhile_append]
  split
  case isTrue h =>
    rw [List.isEmpty_iff.1 h, List.dropWhile_eq_nil_iff.2 hv]
  case isFalse h =>
    rw [List.reverse_append, dropWhile_whitespace (whitespace_reverse hv)]

theorem exists_around (text : Text) :
    ∃ w v, Whitespace w ∧ Whitespace v ∧ text = w ++ strip text ++ v := by
  have hlead := @List.takeWhile_append_dropWhile _ isSpace text
  have htrail := @List.takeWhile_append_dropWhile _ isSpace
    (text.dropWhile isSpace).reverse
  refine ⟨text.takeWhile isSpace,
    ((text.dropWhile isSpace).reverse.takeWhile isSpace).reverse, ?_, ?_, ?_⟩
  · exact fun c hc => List.mem_takeWhile_imp hc
  · exact whitespace_reverse fun c hc => List.mem_takeWhile_imp hc
  · unfold strip
    rw [List.append_assoc, ← List.reverse_append, htrail, List.reverse_reverse,
      hlead]

theorem strip_strip (text : Text) : strip (strip text) = strip text := by
  obtain ⟨w, v, hw, hv, htext⟩ := exists_around text
  conv_rhs => rw [htext]
  exact (strip_around hw hv).symm

end

/-- `_WHITESPACE.sub(" ", text)`: each run of whitespace becomes one
space. -/
def collapseWhitespace : Text → Text
  | [] => []
  | c :: rest =>
    if isSpace c then
      match rest with
      | [] => [' ']
      | d :: _ =>
        if isSpace d then collapseWhitespace rest
        else ' ' :: collapseWhitespace rest
    else c :: collapseWhitespace rest

/-- What Python knows about characters beyond ASCII. -/
structure Unicode where
  /-- `str.isalnum` of one character. -/
  isAlnum : Char → Bool
  /-- `str.lower`. -/
  lower : Text → Text

/-- ASCII alone. -/
def Unicode.ascii : Unicode where
  isAlnum := Char.isAlphanum
  lower := List.map Char.toLower

/-- `\\w` of one character. -/
def Unicode.isWord (unicode : Unicode) (c : Char) : Bool :=
  unicode.isAlnum c || c == '_'

/-- `str.rstrip()`. -/
def rstrip (text : Text) : Text := (text.reverse.dropWhile isSpace).reverse

/-- The loop of `str.split()`: the word read so far, the last character
first. -/
def wordsFrom : Text → Text → List Text
  | word, [] => if word.isEmpty then [] else [word.reverse]
  | word, c :: rest =>
    if isSpace c then
      if word.isEmpty then wordsFrom [] rest
      else word.reverse :: wordsFrom [] rest
    else wordsFrom (c :: word) rest

/-- `str.split()`. -/
def words (text : Text) : List Text := wordsFrom [] text

/-- `canonical_entity_name`. `casefold` is `str.casefold`, Unicode's full
case folding. -/
def canonicalEntityName (casefold : Text → Text) (name : Text) : Text :=
  casefold (strip (collapseWhitespace name))

/-- `text[i:j]` with `i` not negative. A negative `j` counts from the end. -/
def slice (text : Text) (i : Nat) (j : Int) : Text :=
  let stop := if j < 0 then (j + text.length).toNat else j.toNat
  (text.take stop).drop i

end MemoryOS

namespace MemoryOS

/-- `_BOM`. -/
def byteOrderMark : Char := Char.ofNat 0xFEFF

/-- `text[len(_BOM):]` where the text starts with the mark. -/
def dropMark : Text → Text
  | [] => []
  | c :: rest => if c = byteOrderMark then rest else c :: rest

/-- `text.replace("\r\n", "\n")`: a CR before a LF goes. -/
def replaceCrlf : Text → Text
  | [] => []
  | c :: rest =>
    if c = '\r' ∧ rest.head? = some '\n' then replaceCrlf rest
    else c :: replaceCrlf rest

/-- `text.replace("\r", "\n")`. -/
def replaceCr (text : Text) : Text :=
  text.map fun c => if c = '\r' then '\n' else c

/-- `"\n".join(line.rstrip() for line in text.split("\n"))`. -/
def rstripLines (text : Text) : Text :=
  ['\n'].intercalate ((text.splitOn '\n').map rstrip)

/-- `_THREE_OR_MORE_BLANK_LINES.sub("\n\n", text)`: a break with two more
right after it goes, so two are left of a longer run. -/
def collapseBreaks : Text → Text
  | [] => []
  | c :: rest =>
    if c = '\n' ∧ ['\n', '\n'].isPrefixOf rest = true then collapseBreaks rest
    else c :: collapseBreaks rest

/-- `text.strip("\n")`. -/
def stripBreaks (text : Text) : Text :=
  (text.reverse.dropWhile (· == '\n')).reverse.dropWhile (· == '\n')

/-- `normalize_text`. -/
def normalizeText (nfc : Text → Text) (text : Text) : Text :=
  let text := nfc text
  let text := dropMark text
  let text := replaceCr (replaceCrlf text)
  let text := rstripLines text
  let text := collapseBreaks text
  stripBreaks text

end MemoryOS
