/-
A file dropped into the chat (`application/attachments.py`).

An upload's stream is the bytes it carries. They are in the blob store
before any transaction opens, and stay there when a later step fails.
-/
import MemoryOS.Corpus.Ingest

namespace MemoryOS

/-- What the chat is told by the platform: Unicode's tables, how a day and
a `UUID` are written, and `ContentHash.of`. -/
structure ChatPorts where
  unicode : Unicode := .ascii
  /-- `f"{at:%Y-%m-%d}"`. -/
  day : Timestamp → String
  /-- `str` of a `UUID`. -/
  uuid : Id → String
  digest : Bytes → ContentHash
  /-- A date is digits and dashes. -/
  day_plain : ∀ now, '#' ∉ (day now).toList
  /-- A `UUID` is hexadecimal digits and dashes. -/
  uuid_plain : ∀ id, '#' ∉ (uuid id).toList

/-- Why the chat turned something down. -/
inductive ChatFailure
  | emptyMessage | noSuchSession | noSuchMessage | notCorrectable
  | unstorableMessage | noLanguageModel
  | unsupportedMediaType | fileTooLarge | emptyFile | unstorableUpload
  | database (failure : Failure)
deriving DecidableEq, Repr

/-- A source that is a singleton by name, created on first use. -/
def ensureSource (db : Db) (kind : SourceKind) (name : String) : Db × Id :=
  match db.sources.find? fun s => decide (s.kind = kind ∧ s.name = name) with
  | some source => (db, source.id)
  | none =>
    ({ db with
        sources := db.sources ++ [⟨db.nextId, kind, name⟩]
        nextId := db.nextId + 1 },
      db.nextId)

/-- `ingest_item` in a turn's transaction, where recording nothing is an
error. -/
def storeItem (s : Store) (sourceId : Id) (item : ObservedItem)
    (nothing : ChatFailure) (clock : Timestamp) : Except ChatFailure Store :=
  match ingestItem s sourceId item clock with
  | .error e => .error (.database e)
  | .ok (_, none) => .error nothing
  | .ok (s', some _) => .ok s'

namespace Uploads

/-- `markdown.SUFFIXES`. -/
def markdownSuffixes : List String := [".md", ".markdown", ".mdown", ".mkd"]

/-- `code.SUFFIXES`. -/
def codeSuffixes : List String := [
  ".py", ".js", ".jsx", ".ts", ".tsx", ".go", ".rs", ".java", ".kt", ".rb",
  ".c", ".h", ".cc", ".cpp", ".hpp", ".cs", ".swift", ".php", ".sh", ".sql"]

/-- `ALLOWED_SUFFIXES`. -/
def allowedSuffixes : List String :=
  markdownSuffixes ++ codeSuffixes ++ [".pdf"] ++ [".txt", ".text", ".log"]

/-- `ALLOWED_MEDIA_TYPES`. -/
def allowedMediaTypes : List String := [
  "text/markdown", "text/x-markdown", "application/pdf", "text/plain"]

/-- `MAX_FILE_BYTES`. -/
def maxFileBytes : Nat := 50 * 1024 * 1024

/-- `Upload`. -/
structure Upload where
  filename : Text
  mediaType : Option String
  data : Bytes
deriving DecidableEq, Repr

/-- `Stored`: what one upload became. -/
structure Stored where
  filename : Text
  externalKey : String
  contentHash : ContentHash
  byteSize : Nat
  mediaType : Option String
  deduplicated : Bool
deriving DecidableEq, Repr

variable (ports : ChatPorts)

/-- `supported`: whether any parser claims this file. -/
def supported (filename : Text) (mediaType : Option String) : Bool :=
  allowedSuffixes.any (fun suffix =>
      suffix.toList.isSuffixOf (ports.unicode.lower filename))
    || allowedMediaTypes.any fun known => decide (known.toList
        = ports.unicode.lower
          (strip (((mediaType.getD "").toList).takeWhile (· ≠ ';'))))

/-- `[A-Za-z0-9._-]`. -/
def isSafe (c : Char) : Bool := c.isAlphanum || c ∈ "._-".toList

/-- `_UNSAFE.sub("_", text)`. -/
def subUnsafe : Text → Text
  | [] => []
  | c :: rest =>
    if isSafe c then c :: subUnsafe rest
    else
      match rest with
      | [] => ['_']
      | d :: _ => if isSafe d then '_' :: subUnsafe rest else subUnsafe rest

/-- `external_key_for`. -/
def externalKeyFor (filename : Text) (now : Timestamp) (uploadId : Id) :
    String :=
  let safe := subUnsafe (strip filename)
  ports.day now ++ "/" ++ (if safe.isEmpty then "file" else String.ofList safe)
    ++ "#" ++ ports.uuid uploadId

/-- `stage`: stream the bytes in, before any transaction. -/
def stage (blobs : Blobs) (upload : Upload) :
    Blobs × Except ChatFailure (ContentHash × Nat) :=
  if !supported ports upload.filename upload.mediaType then
    (blobs, .error .unsupportedMediaType)
  else if maxFileBytes < upload.data.length then
    (blobs, .error .fileTooLarge)
  else
    let hash := ports.digest upload.data
    let staged := blobs.put hash upload.data
    if upload.data.isEmpty then (staged, .error .emptyFile)
    else (staged, .ok (hash, upload.data.length))

/-- Stage every upload, until one fails. -/
def stageAll : Blobs → List Upload →
    Blobs × Except ChatFailure (List (Upload × ContentHash × Nat))
  | blobs, [] => (blobs, .ok [])
  | blobs, upload :: rest =>
    match stage ports blobs upload with
    | (staged, .error e) => (staged, .error e)
    | (staged, .ok r) =>
      match stageAll staged rest with
      | (after, .error e) => (after, .error e)
      | (after, .ok more) => (after, .ok ((upload, r) :: more))

/-- The item an upload is observed as. -/
def uploadItem (upload : Upload) (key : String) (hash : ContentHash)
    (byteSize : Nat) (now : Timestamp) : ObservedItem where
  externalKey := key
  contentHash := hash
  byteSize := byteSize
  mediaType := upload.mediaType
  occurredAt := some now
  occurredAtSource := .declared
  -- `stage` has stored the bytes
  readBytes := none

/-- `record`: record one staged file in the caller's transaction. -/
def record (s : Store) (sourceId : Id) (upload : Upload)
    (hash : ContentHash) (byteSize : Nat) (now clock : Timestamp) :
    Except ChatFailure (Store × Stored) :=
  let known := artifactKnown s.db hash
  let key := externalKeyFor ports upload.filename now s.db.nextId
  let s₀ := { s with db := { s.db with nextId := s.db.nextId + 1 } }
  match storeItem s₀ sourceId (uploadItem upload key hash byteSize now)
      .unstorableUpload clock with
  | .error e => .error e
  | .ok s₁ =>
    .ok (s₁, ⟨upload.filename, key, hash, byteSize, upload.mediaType, known⟩)

/-- Record every staged file. -/
def recordAll (s : Store) (sourceId : Id) (now clock : Timestamp) :
    List (Upload × ContentHash × Nat) → Except ChatFailure (Store × List Stored)
  | [] => .ok (s, [])
  | (upload, hash, byteSize) :: rest =>
    match record ports s sourceId upload hash byteSize now clock with
    | .error e => .error e
    | .ok (s₁, stored) =>
      match recordAll s₁ sourceId now clock rest with
      | .error e => .error e
      | .ok (s₂, more) => .ok (s₂, stored :: more)

/-- `attachment_rows`, from an ordinal and an id. -/
def attachmentRows (messageId : Id) : Nat → Id → List Stored →
    List ChatAttachment
  | _, _, [] => []
  | ordinal, newId, item :: rest =>
    { id := newId, messageId := messageId, ordinal := ordinal
      filename := item.filename, externalKey := item.externalKey
      contentHash := item.contentHash, byteSize := item.byteSize
      mediaType := item.mediaType, deduplicated := item.deduplicated }
      :: attachmentRows messageId (ordinal + 1) (newId + 1) rest

end Uploads

end MemoryOS
