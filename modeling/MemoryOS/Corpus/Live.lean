/-
The live system as a sequence of operations.

Each operation runs to completion before the next. One that raises rolls
its transaction back; bytes it had already put stay in the blob store,
which is what `upload` also does, so nothing is lost by leaving them out.
-/
import MemoryOS.Corpus.Deletion
import MemoryOS.Pipeline.Normalize

namespace MemoryOS.Live

/-- An operation on the corpus. -/
inductive Op
  /-- A connector streams bytes into the blob store. -/
  | upload (hash : ContentHash) (data : Bytes)
  | ingest (sourceId : Id) (item : ObservedItem) (now : Timestamp)
  | detectDeletions (sourceId : Id) (observed : List String)
      (clock : String → Timestamp)
  | tombstone (memoryId : Id) (now : Timestamp)
  | restore (memoryId : Id) (now : Timestamp)
  | purge (items : List (Item × Timestamp))
  | normalize (memoryId : Id) (now : Timestamp)
  | embed (memoryId : Id) (now : Timestamp)

/-- What an operation leaves behind. -/
def step (ports : Ports) (s : Store) : Op → Store
  | .upload hash data => { s with blobs := s.blobs.put hash data }
  | .ingest sourceId item now =>
    match ingestItem s sourceId item now with
    | .error _ => s
    | .ok r => r.1
  | .detectDeletions sourceId observed clock =>
    { s with db := Deletion.detectDeletions s.db sourceId observed clock }
  | .tombstone memoryId now =>
    match Deletion.tombstone s.db memoryId now with
    | .error _ => s
    | .ok db => { s with db := db }
  | .restore memoryId now =>
    match Deletion.restore s memoryId now with
    | .error _ => s
    | .ok s' => s'
  | .purge items => Deletion.purge s items
  | .normalize memoryId now =>
    match NormalizeMemory.call ports true s.blobs s.db memoryId now with
    | .error _ => s
    | .ok r => { s with db := r.1 }
  | .embed memoryId now =>
    match EmbedMemory.call ports.embedder true s.db memoryId now with
    | .error _ => s
    | .ok r => { s with db := r.1 }

/-- The version an operation's run normalized: the run completed, and did
not find the version deleted. -/
def normalized (ports : Ports) (s : Store) : Op → Option Id
  | .normalize memoryId now =>
    match NormalizeMemory.call ports true s.blobs s.db memoryId now with
    | .error _ => none
    | .ok (_, .deleted) => none
    | .ok _ => some memoryId
  | _ => none

/-- The completed runs of a sequence of operations, the newest first. -/
def completions (ports : Ports) : Store → List Op → List Id
  | _, [] => []
  | s, op :: rest =>
    completions ports (step ports s op) rest ++ (normalized ports s op).toList

/-- A corpus that holds nothing yet. -/
def start (sources : List Source) : Store := ⟨{ sources := sources }, []⟩

/-- A run of operations. -/
def run (ports : Ports) (sources : List Source) (ops : List Op) : Store :=
  ops.foldl (step ports) (start sources)

/-- A Markdown file as a connector finds it. -/
def note (key : String) (hash : ContentHash) (data : Bytes) :
    ObservedItem where
  externalKey := key
  contentHash := hash
  byteSize := data.length
  mediaType := none
  occurredAt := none
  occurredAtSource := .unknown
  readBytes := some data

end MemoryOS.Live
