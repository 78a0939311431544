/-
What the corpus is read and written through (`application/ports.py`): the blob
store, the parsers, the chunker and the embedder; and PDF text extraction
(`adapters/parsers/pdf.py`).

The parsers, the chunker's cutting and the model rest on third-party code. They
are parameters, and a structure's fields say what the program relies on them
for. So is what the PDF library makes of the bytes, and the text form of the
document's own metadata.
-/
import MemoryOS.Db.Tables

namespace MemoryOS

/-- The blob store: bytes by their hash. -/
abbrev Blobs := List (ContentHash × Bytes)

namespace Blobs

/-- `exists`. -/
def holds (blobs : Blobs) (hash : ContentHash) : Bool :=
  blobs.any fun b => decide (b.1 = hash)

/-- `get`. -/
def get (blobs : Blobs) (hash : ContentHash) : Option Bytes :=
  (blobs.find? fun b => decide (b.1 = hash)).map (·.2)

/-- `put`: bytes already there are left alone. -/
def put (blobs : Blobs) (hash : ContentHash) (data : Bytes) : Blobs :=
  if blobs.holds hash then blobs else blobs ++ [(hash, data)]

/-- `delete`. -/
def delete (blobs : Blobs) (hash : ContentHash) : Blobs :=
  blobs.filter fun b => decide (b.1 ≠ hash)

variable {h h' : ContentHash} {blobs : Blobs}

theorem get_put {data data' : Bytes}
    (hget : blobs.get h = some data) :
    (blobs.put h' data').get h = some data := by
  unfold put
  split
  case isTrue => exact hget
  case isFalse =>
    unfold get at hget ⊢
    obtain ⟨b, hb, hd⟩ := Option.map_eq_some_iff.mp hget
    rw [List.find?_append, hb]
    exact congrArg some hd

theorem get_foldl_delete {hashes : List ContentHash} (hno : h ∉ hashes) :
    (hashes.foldl delete blobs).get h = blobs.get h := by
  induction hashes generalizing blobs with
  | nil => rfl
  | cons x rest ih =>
    rw [List.mem_cons, not_or] at hno
    rw [List.foldl_cons, ih hno.2]
    unfold get delete
    rw [List.find?_filter]
    congr 2
    funext b
    by_cases hb : b.1 = h
    · simp [hb, hno.1]
    · simp [hb]

theorem holds_iff :
    blobs.holds h = true ↔ ∃ b ∈ blobs, b.1 = h := by
  unfold holds
  simp only [List.any_eq_true, decide_eq_true_eq]

theorem holds_put {data : Bytes} :
    (blobs.put h' data).holds h = true ↔ blobs.holds h = true ∨ h = h' := by
  unfold put
  split
  case isTrue hh =>
    refine ⟨.inl, fun hor => hor.elim id ?_⟩
    rintro rfl
    exact hh
  case isFalse =>
    rw [holds_iff, holds_iff]
    simp only [List.mem_append, List.mem_singleton, or_and_right, exists_or,
      exists_eq_left]
    exact or_congr_right eq_comm

theorem holds_foldl_delete {blobs : Blobs} {hashes : List ContentHash}
    {h : ContentHash} : (hashes.foldl delete blobs).holds h = true
      ↔ blobs.holds h = true ∧ h ∉ hashes := by
  induction hashes generalizing blobs with
  | nil => simp
  | cons x rest ih =>
    rw [List.foldl_cons, ih, List.mem_cons, not_or, ← and_assoc]
    refine and_congr_left fun _ => ?_
    unfold delete
    rw [holds_iff, holds_iff]
    simp only [List.mem_filter, decide_eq_true_eq]
    constructor
    · rintro ⟨b, ⟨hb, hne⟩, rfl⟩
      exact ⟨⟨b, hb, rfl⟩, hne⟩
    · rintro ⟨⟨b, hb, rfl⟩, hne⟩
      exact ⟨b, ⟨hb, hne⟩, rfl⟩

end Blobs

/-- `StructureMarker`: where a parser saw a topic change. -/
structure StructureMarker where
  kind : String
  level : Nat
  charOffset : Nat
  label : Option Text
deriving DecidableEq, Repr

/-- `ParsedDocument`. -/
structure ParsedDocument where
  text : Text
  title : Option Text
  metadata : Meta
  structure_ : List StructureMarker
  kind : MemoryKind
deriving DecidableEq, Repr

/-- `TextChunk`: a retrievable span, with offsets into its document. -/
structure TextChunk where
  ordinal : Nat
  text : Text
  charStart : Nat
  charEnd : Nat
  tokenCount : Nat
  prefixChars : Nat
  metadata : Meta
deriving DecidableEq, Repr

/-- `ParserRegistry.parse`: the document the bytes hold, or the parser's
`PermanentError`. -/
abbrev Parse := Bytes → Option String → String → Option ParsedDocument

/-- `Chunker`. -/
structure Chunker where
  /-- Identifies the algorithm and its parameters. -/
  version : String
  /-- How a document that is not blank is cut. -/
  cut : ParsedDocument → List TextChunk
  /-- Text that is not blank lies in some chunk. -/
  cut_ne_nil : ∀ doc, isBlank doc.text = false → cut doc ≠ []
  /-- Ordinals number the chunks. -/
  cut_ordinals : ∀ doc, ((cut doc).map (·.ordinal)).Nodup

/-- `chunk`. -/
def Chunker.chunk (chunker : Chunker) (doc : ParsedDocument) : List TextChunk :=
  if isBlank doc.text then [] else chunker.cut doc

theorem Chunker.chunk_eq_nil_iff (chunker : Chunker) (doc : ParsedDocument) :
    chunker.chunk doc = [] ↔ isBlank doc.text = true := by
  unfold Chunker.chunk
  cases hb : isBlank doc.text with
  | true => simp
  | false => simpa using chunker.cut_ne_nil doc hb

/-- `Embedder`: a passage's vector is a function of its text, and of the
width the model declares. -/
structure Embedder where
  modelId : String
  dimension : Nat
  embedPassage : Text → Embedding
  width : ∀ text, (embedPassage text).length = dimension

/-- The parameters of the pipeline. -/
structure Ports where
  parse : Parse
  chunker : Chunker
  embedder : Embedder

/-- Plain text, a chunk for each document, and one vector for all. -/
def Ports.plain : Ports where
  parse data _ _ := some {
    text := data.map fun b => Char.ofNat b.toNat
    title := none, metadata := [], structure_ := [], kind := .note }
  chunker := {
    version := "plain"
    cut := fun doc => [⟨0, doc.text, 0, doc.text.length, 1, 0, []⟩]
    cut_ne_nil := by simp
    cut_ordinals := by simp }
  embedder := {
    modelId := "plain", dimension := 384
    embedPassage := fun _ => List.replicate 384 0
    width := fun _ => List.length_replicate }

end MemoryOS

namespace MemoryOS

/-- `PdfReader`, as far as the parser reads it: the text of each page, where
the library finds one, and `_document_info`. -/
structure PdfReader where
  pages : List (Option Text)
  info : List (String × String)

/-- What `parse` raises: a `PermanentError` either way. -/
inductive PdfError where
  /-- "cannot read PDF {external_key!r}: {exc}" -/
  | unreadable (externalKey reason : Text)
  /-- "PDF {external_key!r} yielded {len(text)} characters across
  {len(pages)} page(s); it is almost certainly scanned and needs OCR" -/
  | scanned (externalKey : Text) (characters pages : Nat)
deriving DecidableEq, Repr

namespace PdfParser

/-- `MIN_EXTRACTED_CHARS`. -/
def minExtractedChars : Nat := 50

/-- `PAGE_BREAK`, the form feed. -/
def pageBreak : Char := Char.ofNat 0x0C

/-- The loop of `page_markers`, from a page number and an offset. -/
def markersFrom (number offset : Nat) : List Text → List StructureMarker
  | [] => []
  | page :: pages =>
    { kind := "heading"
      level := 1
      charOffset := offset
      label := some ("page ".toList ++ (toString number).toList) }
      :: markersFrom (number + 1) (offset + page.length + 1) pages

/-- `page_markers`: one marker for each page. -/
def pageMarkers (pages : List Text) : List StructureMarker :=
  markersFrom 1 0 pages

/-- `PAGE_BREAK.join(pages)`. -/
def joinPages (pages : List Text) : Text := [pageBreak].intercalate pages

/-- `external_key.rsplit("/", 1)[-1]`. -/
def fileName (externalKey : Text) : Text :=
  (externalKey.reverse.takeWhile (· != '/')).reverse

/-- `info.get("title") or external_key.rsplit("/", 1)[-1]`. -/
def titleOf (info : List (String × String)) (externalKey : Text) : Text :=
  match info.lookup "title" with
  | none => fileName externalKey
  | some title => if title.isEmpty then fileName externalKey else title.toList

/-- `parse`. `open_` is the PDF library's reading of the bytes, or what it
raises. -/
def parse (nfc : Text → Text) (written : List (String × String) → String)
    (open_ : Bytes → Except Text PdfReader) (data : Bytes) (externalKey : Text) :
    Except PdfError ParsedDocument :=
  match open_ data with
  | .error reason => .error (.unreadable externalKey reason)
  | .ok reader =>
    let pages := reader.pages.map (·.getD [])
    let text := normalizeText nfc (joinPages pages)
    if (strip (text.filter (· != pageBreak))).length < minExtractedChars then
      .error (.scanned externalKey text.length pages.length)
    else
      .ok
        { text := text
          title := some (titleOf reader.info externalKey)
          metadata := ("pages", toString pages.length)
            :: (if reader.info.isEmpty then []
              else [("pdf_info", written reader.info)])
          structure_ := pageMarkers pages
          kind := .document }

end PdfParser

end MemoryOS
