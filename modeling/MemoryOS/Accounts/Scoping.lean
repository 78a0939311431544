/-
Several accounts in one database (`adapters/db/scoping.py`, and the
policies migration 0032 puts on `SCOPED_TABLES`).

A transaction is run in the scope of one account. Its statements see that
account's rows of the scoped tables and every row of the others, so it is
the single-account program run on that view; `commit` puts back what it
left. A foreign key's action is not a statement of anybody's: it reaches
the rows of every account.

# Whose a row is

The scoped tables' rows are few columns short here: `user_id` is
`userOf` of the row's id, or `userOfEvent` of the event's number. An id is
one row's in the whole database. A row without a column of its own is
whoever's the row it hangs off is.

# A replay

In the scope of one account (`application/replay.py`: `ReplayCorpus.__call__`,
`_clear`, `truncate_derived`; `adapters/db/shadow.py`: `swap_in`), row statements
are filtered by the policies, so each stage is the single-account one on what the
account sees. A `TRUNCATE`, a `DROP TABLE` and a `SET SCHEMA` are not: they empty
or replace the tables of everybody. The transactions of a stage follow one
another, and what they leave together is committed as one.
-/
import MemoryOS.Replay.Rebuild

namespace MemoryOS

/-- An account. -/
abbrev UserId := Nat

/-- A row of `memory_keys`. -/
structure MemoryKey where
  memoryId : Id
  /-- `none` once it is destroyed. -/
  wrappedKey : Option Bytes
deriving DecidableEq, Repr

/-- The database of every account, with whose each row is. -/
structure Accounts where
  db : Db := {}
  keys : List MemoryKey := []
  /-- `user_id` of the row with this id; of a decision, an assumption or an
  outcome too, whose tables are not modelled. -/
  userOf : Id → UserId
  /-- `user_id` of the event with this `seq`. -/
  userOfEvent : Nat → UserId

namespace Accounts

variable (w : Accounts) (u : UserId)

/-- What a query in the scope of `u` sees: the scoped tables through their
policies, the others in full. -/
def view : Db :=
  { w.db with
    sources := w.db.sources.filter fun x => decide (w.userOf x.id = u)
    events := w.db.events.filter fun x => decide (w.userOfEvent x.seq = u)
    memories := w.db.memories.filter fun x => decide (w.userOf x.id = u)
    chunks := w.db.chunks.filter fun x => decide (w.userOf x.id = u)
    entities := w.db.entities.filter fun x => decide (w.userOf x.id = u)
    mentions := w.db.mentions.filter fun x => decide (w.userOf x.id = u)
    relationships :=
      w.db.relationships.filter fun x => decide (w.userOf x.id = u)
    chatSessions := w.db.chatSessions.filter fun x => decide (w.userOf x.id = u)
    chatMessages := w.db.chatMessages.filter fun x => decide (w.userOf x.id = u)
    jobs := w.db.jobs.filter fun x => decide (w.userOf x.id = u) }

-- ====== committing

section Commit

variable (left : Db)

/-- The memories a transaction deleted, `left` being what it left of its
view. -/
def goneMemories : List Id :=
  ((w.view u).memories.filter fun m =>
    decide (m.id ∉ left.memories.map (·.id))).map (·.id)

/-- The chunks it deleted, by a statement or by a cascade within its
view. -/
def goneChunks : List Id :=
  ((w.view u).chunks.filter fun c =>
    decide (c.id ∉ left.chunks.map (·.id))).map (·.id)

/-- The turns it deleted. -/
def goneTurns : List Id :=
  ((w.view u).chatMessages.filter fun x =>
    decide (x.id ∉ left.chatMessages.map (·.id))).map (·.id)

/-- Other accounts' chunks that a cascade takes. -/
def adrift : List Id :=
  (w.db.chunks.filter fun c => decide (w.userOf c.id ≠ u)
    && decide (c.memoryId ∈ w.goneMemories u left)).map (·.id)

/-- Whether the rows another account's row is about are still there. -/
def stands (memoryId chunkId : Id) : Bool :=
  decide (memoryId ∉ w.goneMemories u left)
    && decide (chunkId ∉ w.goneChunks u left)
    && decide (chunkId ∉ w.adrift u left)

/-- A transaction of `u` commits: other accounts' rows are what they were,
but for the actions of foreign keys, and a new row is `u`'s. -/
def commit : Accounts where
  db := { left with
    sources := (w.db.sources.filter fun x => decide (w.userOf x.id ≠ u))
      ++ left.sources
    events := (w.db.events.filter fun x => decide (w.userOfEvent x.seq ≠ u))
      ++ left.events
    memories := (w.db.memories.filter fun x => decide (w.userOf x.id ≠ u))
      ++ left.memories
    chunks := (w.db.chunks.filter fun x => decide (w.userOf x.id ≠ u)
        && decide (x.memoryId ∉ w.goneMemories u left))
      ++ left.chunks
    entities := (w.db.entities.filter fun x => decide (w.userOf x.id ≠ u))
      ++ left.entities
    mentions := (w.db.mentions.filter fun x => decide (w.userOf x.id ≠ u)
        && w.stands u left x.memoryId x.chunkId)
      ++ left.mentions
    relationships :=
      (w.db.relationships.filter fun x => decide (w.userOf x.id ≠ u)
        && w.stands u left x.memoryId x.chunkId)
      ++ left.relationships
    evidence := left.evidence.filter fun e =>
      (e.chunkId.map fun c => decide (c ∉ w.adrift u left)).getD true
    chatSessions :=
      (w.db.chatSessions.filter fun x => decide (w.userOf x.id ≠ u))
      ++ left.chatSessions
    chatMessages :=
      ((w.db.chatMessages.filter fun x => decide (w.userOf x.id ≠ u)).map
        (Deletion.unlink (w.goneTurns u left)))
      ++ left.chatMessages
    jobs := (w.db.jobs.filter fun x => decide (w.userOf x.id ≠ u))
      ++ left.jobs }
  keys := w.keys.filter fun k => decide (k.memoryId ∉ w.goneMemories u left)
  userOf id := if id < w.db.nextId then w.userOf id else u
  userOfEvent seq := if seq < w.db.nextSeq then w.userOfEvent seq else u

end Commit

-- ======= ownership

/-- What is `u`'s, directly or through the row it hangs off. -/
def own : Db :=
  { w.view u with
    artifacts := []
    merges := w.db.merges.filter fun x => decide (w.userOf x.winnerId = u)
    evidence := w.db.evidence.filter fun x => decide (w.userOf x.owner = u)
    embeddingCache := []
    tags := w.db.tags.filter fun x => decide (w.userOf x.sourceId = u)
    chatAttachments :=
      w.db.chatAttachments.filter fun x => decide (w.userOf x.messageId = u)
    nextId := 0
    nextSeq := 0 }

/-- The data keys of `u`'s memories. -/
def ownKeys : List MemoryKey :=
  w.keys.filter fun k => decide (w.userOf k.memoryId = u)

end Accounts

-- ======= the vault

/-- The database of every account, and the one blob store beside it. -/
structure Vault where
  accounts : Accounts
  blobs : Blobs := []

namespace Vault

/-- `ingest_item` in the scope of an account that sees the source. -/
def ingest (s : Vault) (u : UserId) (sourceId : Id) (item : ObservedItem)
    (now : Timestamp) : Vault :=
  if (s.accounts.view u).sources.any fun x => decide (x.id = sourceId) then
    match ingestItem ⟨s.accounts.view u, s.blobs⟩ sourceId item now with
    | .error _ => s
    | .ok r => ⟨s.accounts.commit u r.1.db, r.1.blobs⟩
  else s

/-- The loop of `purge`, each item a transaction in the scope of `u`. -/
def purgeLoop (u : UserId) : Accounts → List (Item × Timestamp) →
    Accounts × List ContentHash × Bool
  | w, [] => (w, [], true)
  | w, (item, now) :: rest =>
    match Deletion.purgeOne (w.view u) item now with
    | .error _ => (w, [], false)
    | .ok (left, hashes) =>
      let r := purgeLoop u (w.commit u left) rest
      (r.1, hashes ++ r.2.1, r.2.2)

/-- `purge` in the scope of `u`. `_still_referenced` is a query like any
other: of `memories` it sees the account's own. -/
def purge (s : Vault) (u : UserId) (raises : ContentHash → Bool)
    (items : List (Item × Timestamp)) : Vault :=
  let r := purgeLoop u s.accounts items
  if r.2.2 then
    let due := r.2.1.eraseDups.filter fun h =>
      !Deletion.stillReferenced (r.1.view u) h
    ⟨r.1, (due.filter fun h => !raises h).foldl Blobs.delete s.blobs⟩
  else ⟨r.1, s.blobs⟩

/-- An operation, in the scope of an account. -/
inductive Op
  | ingest (u : UserId) (sourceId : Id) (item : ObservedItem) (now : Timestamp)
  /-- `raises` says for which bytes the blob store fails to delete. -/
  | purge (u : UserId) (raises : ContentHash → Bool)
      (items : List (Item × Timestamp))

/-- Whose scope an operation is run in. -/
def Op.user : Op → UserId
  | .ingest u _ _ _ => u
  | .purge u _ _ => u

/-- What an operation leaves behind. -/
def step (s : Vault) : Op → Vault
  | .ingest u sourceId item now => s.ingest u sourceId item now
  | .purge u raises items => s.purge u raises items

end Vault

end MemoryOS

namespace MemoryOS

/-- `is_complete`: whether a scope rebuilds the entire derived corpus. -/
def ReplayScope.isComplete (scope : ReplayScope) : Bool :=
  decide (scope.stage = .all) && scope.sourceName.isNone
    && decide (scope.afterSeq = 0)

/-- How a replay is asked for. -/
structure ReplayRequest where
  scope : ReplayScope := {}
  intoShadow : Bool := false
  clearCache : Bool := false
deriving DecidableEq, Repr

namespace Accounts

/-- What a replay got to, and what it raised. -/
abbrev Progress := Accounts × Option Failure

variable (w : Accounts) (u : UserId)

/-- `truncate_derived`. The keys go with the memories. -/
def truncate (clearCache : Bool) : Accounts :=
  { w with db := ReplayCorpus.truncateDerived clearCache w.db, keys := [] }

/-- `_clear`. -/
def clear (scope : ReplayScope) (sourceId : Option Id) (clearCache : Bool) :
    Accounts :=
  if scope.stage = .all ∧ sourceId = none then w.truncate clearCache
  else w.commit u (ReplayCorpus.clear scope sourceId clearCache (w.view u))

/-- What follows `_clear`. -/
def rewrite (ports : Ports) (blobs : Blobs) (scope : ReplayScope)
    (sourceId : Option Id) (now : Timestamp) : Progress :=
  let r := ReplayCorpus.rewrite ports blobs scope sourceId now (w.view u)
  (w.commit u r.1, r.2)

/-- `_in_place`, on the live tables. -/
def inPlace (ports : Ports) (blobs : Blobs) (scope : ReplayScope)
    (clearCache : Bool) (now : Timestamp) : Progress :=
  match ReplayCorpus.resolveSource (w.view u) scope.sourceName with
  | .error e => (w, some e)
  | .ok sourceId =>
    if scope.rebuildsMemories
        && !ReplayCorpus.preflightBlobs blobs (w.view u) scope sourceId then
      (w, some .missingBlob)
    else
      (w.clear u scope sourceId clearCache).rewrite u ports blobs scope
        sourceId now

/-- `_into_shadow`. The workspace is the database with its derived tables
empty; `swap_in` makes those tables the live ones. A rebuild that raises is
thrown away, but for the cache, which is shared. -/
def intoShadow (ports : Ports) (blobs : Blobs) (scope : ReplayScope)
    (clearCache : Bool) (now : Timestamp) : Progress :=
  if !scope.isComplete then (w, some .refused)
  else if !ReplayCorpus.preflightBlobs blobs (w.view u) scope none then
    (w, some .missingBlob)
  else
    let r := (w.truncate clearCache).rewrite u ports blobs scope none now
    match r.2 with
    | none => r
    | some e =>
      ({ w with db := { w.db with
        embeddingCache := r.1.db.embeddingCache
        nextId := r.1.db.nextId } }, some e)

/-- The rebuild, and the swap. -/
def attempt (ports : Ports) (blobs : Blobs) (request : ReplayRequest)
    (now : Timestamp) : Progress :=
  if request.intoShadow then
    w.intoShadow u ports blobs request.scope request.clearCache now
  else w.inPlace u ports blobs request.scope request.clearCache now

/-- `__call__`. The evidence tables have no policies: the links of every
account are read out, and emptied; they are written back to the memories
that the account sees. -/
def replay (ports : Ports) (blobs : Blobs) (request : ReplayRequest)
    (now : Timestamp) : Progress :=
  let p := ReplayCorpus.preserveEvidence (w.view u)
  let r := (w.commit u p.1).attempt u ports blobs request now
  match ReplayCorpus.restoreEvidence (r.1.view u) p.2 with
  | .ok restored => (r.1.commit u restored.1, r.2)
  | .error raised => (r.1, some raised)

end Accounts

end MemoryOS
