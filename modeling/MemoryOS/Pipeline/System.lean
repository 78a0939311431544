/-
The pipeline on its queue.

`Sys` is the store with the workers that run its jobs. Live operations
and runs of `NormalizeMemory` are single steps; a run of `EmbedMemory`
reads in one step and writes in another, inside a job that a worker
claimed, and anything may come between the two. A worker reports success
for an embed job once its handler has come to its end, and may report a
failure at any time.

# The order of versions

Ids are minted in log order. A run of a version is a step while no later
version of the item has been normalized; runs in another order are
`Live`'s.
-/
import MemoryOS.Corpus.Live
import MemoryOS.Jobs.Worker

namespace MemoryOS.Pipeline

/-- How far a worker's run of `EmbedMemory` has got. -/
inductive Phase
  | reading
  | writing (pending : List (Id × Text))
  | finished
deriving DecidableEq

/-- The store, its workers, and where their handlers are. -/
structure Sys where
  store : Store
  workers : String → Worker.WorkerState
  phase : String → Phase

/-- Nothing stored, every worker idle. -/
def init (sources : List Source) : Sys :=
  ⟨Live.start sources, fun _ => .idle, fun _ => .reading⟩

/-- One move. -/
inductive Action
  | op (op : Live.Op)
  | queue (a : Worker.Action)
  | embedRead (worker : String)
  | embedWrite (worker : String) (now : Timestamp)

/-- Whether no later version of the memory's item has been normalized. -/
def inLogOrder (db : Db) (memoryId : Id) : Bool :=
  match db.memory memoryId with
  | none => true
  | some m => db.memories.all fun x =>
    !(decide (x.item = m.item) && decide (m.id < x.id))
      || x.normalizedHash.isNone

/-- The queue and its workers. -/
def Sys.queue (s : Sys) : Worker.Sys := ⟨s.store.db.jobs, s.workers⟩

/-- Change the store. -/
def Sys.withStore (s : Sys) (store : Store) : Sys := { s with store := store }

/-- Change the database. -/
def Sys.withDb (s : Sys) (db : Db) : Sys := s.withStore { s.store with db := db }

/-- Move a worker's handler. -/
def Sys.withPhase (s : Sys) (w : String) (p : Phase) : Sys :=
  { s with phase := fun v => if v = w then p else s.phase v }

/-- What a queue action leaves. -/
def Sys.withQueue (s : Sys) (q : Worker.Sys) : Sys :=
  { s.withDb { s.store.db with jobs := q.jobs } with workers := q.workers }

/-- Whether a worker's handler can have ended so. -/
def mayReport (s : Sys) (w : String) (outcome : Worker.Outcome) : Bool :=
  match s.workers w, outcome with
  | .busy j _ _, .success =>
    decide (j.jobType ≠ .embedMemory) || decide (s.phase w = .finished)
  | _, _ => true

/-- An action of the queue's own. -/
def queueStep (s : Sys) (a : Worker.Action) : Option Sys :=
  (Worker.step s.queue a).map fun r => s.withQueue r.1

/-- One step. -/
def step (ports : Ports) (s : Sys) : Action → Option Sys
  -- embed jobs run on the workers, and use cases are what enqueues
  | .op (.embed _ _) => none
  | .queue (.enqueue _ _ _) => none
  | .op (.normalize memoryId now) =>
    if inLogOrder s.store.db memoryId then
      some (s.withStore (Live.step ports s.store (.normalize memoryId now)))
    else none
  | .op op => some (s.withStore (Live.step ports s.store op))
  | .queue (.start w) =>
    (queueStep s (.start w)).map fun s' => s'.withPhase w .reading
  | .queue (.settle w outcome runAfter error tb now) =>
    if mayReport s w outcome then
      queueStep s (.settle w outcome runAfter error tb now)
    else none
  | .queue a => queueStep s a
  | .embedRead w =>
    match s.workers w, s.phase w with
    | .busy j true _, .reading =>
      if j.jobType = .embedMemory then
        match j.payload.memoryId.map
            (EmbedMemory.read ports.embedder s.store.db) with
        | some (.ok (.embedded, pending)) =>
          some (s.withPhase w (.writing pending))
        | some (.ok _) => some (s.withPhase w .finished)
        | _ => none
      else none
    | _, _ => none
  | .embedWrite w now =>
    match s.workers w, s.phase w with
    | .busy j true _, .writing pending =>
      j.payload.memoryId.map fun memoryId =>
        (s.withDb (EmbedMemory.finish ports.embedder true s.store.db
          memoryId pending now)).withPhase w .finished
    | _, _ => none

/-- The pipeline as a machine. -/
def machine (ports : Ports) : Lib.Machine Sys Action Unit where
  step s a := (step ports s a).map fun s' => (s', [])

end MemoryOS.Pipeline
