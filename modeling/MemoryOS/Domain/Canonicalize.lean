/-
One canonical form per entity name (`domain/canonicalize.py`).

The functions that strip words look at them through `_bare`, which keeps the
characters of one class. The class is an argument here; the program's is
`isPlain`, the letters and digits of ASCII in lower case.
-/
import MemoryOS.Domain.Text

namespace MemoryOS

/-- What Python knows about Unicode, with compatibility characters folded
(`unicodedata.normalize("NFKC", ·)`). -/
structure UnicodeData extends Unicode where
  nfkc : Text → Text

namespace Canonicalize

/-- `_TITLES`. -/
def titles : List Text :=
  ["mr", "mrs", "ms", "miss", "mx", "dr", "prof", "professor", "sir", "dame",
    "lord", "lady", "rev", "fr", "st"].map String.toList

/-- `_SUFFIXES`. -/
def suffixes : List Text :=
  ["jr", "sr", "phd", "md", "esq", "ii", "iii", "iv"].map String.toList

/-- `_TECH_SUFFIXES`. -/
def techSuffixes : List Text :=
  ["js", "javascript", "lang", "db"].map String.toList

/-- `_TECH_NOUNS`. -/
def techNouns : List Text :=
  ["library", "framework", "package", "module", "tool", "toolkit"].map
    String.toList

/-- `_FILE_EXTENSIONS`. -/
def fileExtensions : List Text :=
  ["py", "md", "txt", "json", "yml", "yaml", "toml", "ini", "cfg", "js", "ts",
    "tsx", "jsx", "html", "css", "sh", "sql", "rs", "go"].map String.toList

/-- `_ARTICLES`. -/
def articles : List Text := ["the", "a", "an"].map String.toList

/-- `[a-z0-9]`, what `_NOT_ALNUM` leaves. -/
def isPlain (c : Char) : Bool := c.isLower || c.isDigit

/-- `_bare`. -/
def bare (alnum : Char → Bool) (word : Text) : Text := word.filter alnum

/-- `_strip_articles`. -/
def stripArticles : List Text → List Text
  | word :: next :: rest =>
    if articles.contains word then next :: rest else word :: next :: rest
  | words => words

/-- `while len(result) > 1 and _bare(result[0]) in decorations`. -/
def dropLeading (alnum : Char → Bool) (decorations : List Text) :
    List Text → List Text
  | word :: next :: rest =>
    if decorations.contains (bare alnum word) then
      dropLeading alnum decorations (next :: rest)
    else word :: next :: rest
  | words => words

/-- `while len(result) > 1 and _bare(result[-1]) in decorations`. -/
def dropTrailing (alnum : Char → Bool) (decorations : List Text)
    (words : List Text) : List Text :=
  (dropLeading alnum decorations words.reverse).reverse

/-- `_strip_person`. -/
def stripPerson (alnum : Char → Bool) (words : List Text) : List Text :=
  dropTrailing alnum suffixes (dropLeading alnum titles words)

/-- The decoration glued to a word's end, if enough is left without it. -/
def gluedSuffix (last : Text) : Option Text :=
  techSuffixes.find? fun suffix =>
    suffix.isSuffixOf last && decide (suffix.length + 3 ≤ last.length)

/-- The `for` loop of `_strip_tech`. -/
def unglue (alnum : Char → Bool) (words : List Text) : List Text :=
  let last := (words.getLast?.map (bare alnum)).getD []
  match gluedSuffix last with
  | some suffix => words.dropLast ++ [last.take (last.length - suffix.length)]
  | none => words

/-- `_strip_tech`. -/
def stripTech (alnum : Char → Bool) (words : List Text) : List Text :=
  let result := dropTrailing alnum techNouns words
  let result :=
    if 1 < result.length
        && techSuffixes.contains (bare alnum (result.getLast?.getD [])) then
      result.dropLast
    else result
  unglue alnum result

/-- `word.rpartition(".")`, without the separator. -/
def rpartition (word : Text) : Text × Text :=
  let tail := word.reverse.takeWhile fun c => c != '.'
  (((word.reverse.drop tail.length).drop 1).reverse, tail.reverse)

/-- `_strip_file`. -/
def stripFile (unicode : Unicode) (words : List Text) : List Text :=
  match words.getLast? with
  | none => words
  | some last =>
    let parts := rpartition last
    if !parts.1.isEmpty
        && fileExtensions.contains (unicode.lower parts.2) then
      words.dropLast ++ [parts.1]
    else words

/-- `_strip_for_type`. -/
def stripForType (alnum : Char → Bool) (unicode : Unicode) :
    EntityType → List Text → List Text
  | .person, words => stripPerson alnum words
  | .technology, words => stripTech alnum words
  | .file, words => stripFile unicode words
  | _, words => words

/-- `_WHITESPACE.sub(" ", folded).strip().lower()`. -/
def lowered (data : UnicodeData) (name : Text) : Text :=
  data.lower (strip (collapseWhitespace (data.nfkc name)))

/-- The words of a name that are left when articles and the decorations of
its type are stripped. -/
def survivors (alnum : Char → Bool) (data : UnicodeData) (type : EntityType)
    (name : Text) : List Text :=
  stripForType alnum data.toUnicode type
    (stripArticles ((lowered data name).splitOn ' '))

/-- `canonicalize`. -/
def canonicalize (data : UnicodeData) (name : Text) (type : EntityType) :
    Text :=
  if (lowered data name).isEmpty then []
  else
    let stripped := bare isPlain
      ([' '].intercalate (survivors isPlain data type name))
    if !stripped.isEmpty then stripped
    else
      -- everything was decoration
      let whole := bare isPlain (lowered data name)
      if !whole.isEmpty then whole else lowered data name

end Canonicalize

end MemoryOS
