/-
Files attached and synced while others are purged (`Chat.attach`,
`SyncSource`, `deletion.purge`).

Whoever records content puts its bytes in the blob store first and writes
the rows in a transaction later; whoever purges removes the rows in
transactions and then, one digest after another, asks whether anything
still refers to the bytes, and deletes them. Each of these is a step here,
and the steps of different calls come in any order.

A note that comes with the files is stored as `Chat.send` stores one, which
does not put its bytes first; the turns here are of files alone.
-/
import MemoryOS.Chat.Turns
import MemoryOS.Corpus.Deletion
import MemoryOS.Corpus.Filesystem

namespace MemoryOS.Shredding

open Chat Uploads
open Filesystem (Found Fingerprint observeFile)

-- ======= the calls

/-- An upload that is staged, with its digest and size. -/
abbrev Staged := Upload × ContentHash × Nat

/-- How far a writer has got. -/
inductive Ingestion
  /-- A turn of files under the upload source, and those that are staged. -/
  | turn (sourceId : Id) (staged : List Staged)
  /-- A file a connector has yielded to a sync. -/
  | file (sourceId : Id) (item : ObservedItem)
  | ended
deriving DecidableEq

/-- The content a writer has put in the blob store and not recorded. -/
def Ingestion.hashes : Ingestion → List ContentHash
  | .turn _ staged => staged.map (·.2.1)
  | .file _ item => [item.contentHash]
  | .ended => []

/-- How far a call of `purge` has got. -/
inductive Purge
  /-- The items left, and the artifacts of those that are gone. -/
  | removing (left : List Item) (shred : List ContentHash)
  /-- The digests left to ask about. -/
  | asking (left : List ContentHash)
  /-- A digest nothing referred to when it was asked about. -/
  | shredding (hash : ContentHash) (left : List ContentHash)
  | ended
deriving DecidableEq

/-- On to the next digest. -/
def Purge.next (left : List ContentHash) : Purge :=
  if left.isEmpty then .ended else .asking left

/-- The corpus, and who is at work on it. -/
structure System where
  store : Store
  ingestions : List Ingestion
  purges : List Purge

/-- A corpus that holds nothing yet. -/
def init (sources : List Source) : System := ⟨⟨{ sources := sources }, []⟩, [], []⟩

/-- A step. -/
inductive Action
  /-- `attach` begins, with the upload source at hand. -/
  | attach
  | stage (i : Nat) (upload : Upload)
  | recordTurn (i : Nat) (sessionId : Option Id) (newSession : Bool)
      (now clock : Timestamp)
  /-- The connector's loop at one file. -/
  | observe (sourceId : Id) (full : Bool) (seen : List (String × Fingerprint))
      (found : Found)
  | recordFile (i : Nat) (clock : Timestamp)
  /-- A writer is cancelled, or fails outside its transaction. -/
  | abandon (i : Nat)
  | purge (items : List Item)
  /-- `_purge_one`. -/
  | purgeOne (k : Nat) (clock : Timestamp)
  /-- `_still_referenced`. -/
  | ask (k : Nat)
  /-- `blobs.delete`, which may raise. -/
  | shred (k : Nat) (raises : Bool)

/-- A writer moves on. -/
def System.setIngestion (s : System) (i : Nat) (x : Ingestion) : System :=
  { s with ingestions := s.ingestions.set i x }

/-- A purge moves on. -/
def System.setPurge (s : System) (k : Nat) (p : Purge) : System :=
  { s with purges := s.purges.set k p }

/-- Change the database. -/
def System.withDb (s : System) (db : Db) : System :=
  { s with store := { s.store with db := db } }

/-- Change the blob store. -/
def System.withBlobs (s : System) (blobs : Blobs) : System :=
  { s with store := { s.store with blobs := blobs } }

/-- What a transaction leaves: everything it wrote, or nothing. -/
def System.commit (s : System) : Option Store → System
  | none => s
  | some store => { s with store := store }

variable (ports : ChatPorts) (guessType : String → Option String)

/-- One step. -/
def step (s : System) : Action → Option System
  | .attach =>
    let source := uploadSource s.store.db
    some { s.withDb source.1 with
      ingestions := s.ingestions ++ [.turn source.2 []] }
  | .stage i upload =>
    match s.ingestions[i]? with
    | some (.turn sourceId staged) =>
      let r := stage ports s.store.blobs upload
      some <| (s.withBlobs r.1).setIngestion i <|
        match r.2 with
        | .error _ => .ended
        | .ok file => .turn sourceId (staged ++ [(upload, file)])
    | _ => none
  | .recordTurn i sessionId newSession now clock =>
    match s.ingestions[i]? with
    | some (.turn sourceId staged) =>
      let r := attachTurn ports s.store sourceId staged [] .statement none
        sessionId newSession now clock
      some ((s.commit (r.toOption.map (·.1))).setIngestion i .ended)
    | _ => none
  | .observe sourceId full seen found =>
    let r := observeFile ⟨ports.digest, guessType⟩ full seen s.store.blobs found
    let s₁ := s.withBlobs r.1
    some { s₁ with ingestions :=
      s₁.ingestions ++ r.2.toList.map (Ingestion.file sourceId) }
  | .recordFile i clock =>
    match s.ingestions[i]? with
    | some (.file sourceId item) =>
      let r := ingestItem s.store sourceId item clock
      some ((s.commit (r.toOption.map (·.1))).setIngestion i .ended)
    | _ => none
  | .abandon i => some (s.setIngestion i .ended)
  | .purge items =>
    some { s with purges := s.purges ++
      [if items.isEmpty then .ended else .removing items []] }
  | .purgeOne k clock =>
    match s.purges[k]? with
    | some (.removing (item :: left) shred) =>
      match Deletion.purgeOne s.store.db item clock with
      -- `NoSuchMemory` ends the call before anything is shredded
      | .error _ => some (s.setPurge k .ended)
      | .ok (db, hashes) =>
        some <| (s.withDb db).setPurge k <|
          if left.isEmpty then .next (shred ++ hashes).eraseDups
          else .removing left (shred ++ hashes)
    | _ => none
  | .ask k =>
    match s.purges[k]? with
    | some (.asking (hash :: left)) =>
      some <| s.setPurge k <|
        if Deletion.stillReferenced s.store.db hash then .next left
        else .shredding hash left
    | _ => none
  | .shred k raises =>
    match s.purges[k]? with
    | some (.shredding hash left) =>
      let blobs := if raises then s.store.blobs
        else s.store.blobs.delete hash
      some ((s.withBlobs blobs).setPurge k (.next left))
    | _ => none

/-- The system as a machine. -/
def machine : Lib.Machine System Action Unit where
  step s a := (step ports guessType s a).map fun s' => (s', [])

-- ====== statement vocabulary

/-- The complete bytes of some content are in the blob store. -/
def Complete (blobs : Blobs) (hash : ContentHash) : Prop :=
  ∃ data, blobs.get hash = some data ∧ ports.digest data = hash

/-- Every memory that is recorded and not purged has its bytes. -/
def Recorded (s : System) : Prop :=
  ∀ m ∈ s.store.db.memories, Complete ports s.store.blobs m.contentHash

/-- And so has everything that is staged to be recorded. -/
def NothingLost (s : System) : Prop :=
  Recorded ports s ∧ ∀ i ∈ s.ingestions, ∀ hash ∈ i.hashes,
    Complete ports s.store.blobs hash

/-- Every call has come to its end. -/
def Finished (s : System) : Prop :=
  (∀ i ∈ s.ingestions, i = .ended) ∧ ∀ p ∈ s.purges, p = .ended

instance (s : System) : Decidable (Finished s) :=
  inferInstanceAs (Decidable (_ ∧ _))

/-- Whether a memory has this content, or a writer has staged it and not
recorded it. -/
def wanted (s : System) (hash : ContentHash) : Bool :=
  s.store.db.memories.any (fun m => decide (m.contentHash = hash))
    || s.ingestions.any fun i => decide (hash ∈ i.hashes)

/-- The condition on a step: bytes are deleted while nobody wants them. They
were asked about before that, and a writer may have come in between. -/
def unwanted (s : System) : Action → Bool
  | .shred k false =>
    match s.purges[k]? with
    | some (.shredding hash _) => !wanted s hash
    | _ => true
  | _ => true

end MemoryOS.Shredding
