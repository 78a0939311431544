/-
Workers and the queue they share (`application/worker.py`).

A worker runs one job at a time: it claims a row, starts the handler,
renews the lease while the handler runs, and settles the outcome with
one fenced write. `Sys` is the table together with what each worker
holds; `step` is one transaction, one handler start or one local
transition of one worker, so a list of actions is one interleaving.

# What a worker remembers

`_run_job` works from the `Job` that `claim` returned. That snapshot is
never refreshed: `attempts_exhausted` is read from it, and every fenced
write names its id. `heartbeat` returning false sets `leaseLost`, after
which the worker either stops without a write (`abandon`) or, when the
handler finished first, settles with a write the fence refuses.

A crash, or a forced shutdown, loses the worker for good: a new process
takes a new worker id (`default_worker_id`).
-/
import MemoryOS.Lib.Machine
import MemoryOS.Jobs.Queue

namespace MemoryOS.Worker

/-- What one worker is doing. -/
inductive WorkerState
  | idle
  | busy (job : Job) (started leaseLost : Bool)
  | stopped
deriving DecidableEq

/-- The table and its workers. -/
structure Sys where
  jobs : List Job
  workers : String → WorkerState

/-- The empty queue, every worker idle. -/
def init : Sys := ⟨[], fun _ => .idle⟩

/-- How a handler ended, as `_settle` tells them apart. -/
inductive Outcome
  | success
  | permanentError
  | transientError
  | otherError
deriving DecidableEq, Repr

/-- The fenced statements. -/
inductive Write
  | heartbeat | complete | reschedule | deadLetter
deriving DecidableEq, Repr

/-- What a step shows the outside. `attempt` is the row's `attempts`
when the event happened: a job's id and its attempt name one claim. -/
inductive Event
  | enqueued (id : Id)
  | collapsed (jobType : JobType) (key : Option DedupeKey)
  | claimed (id : Id) (attempt : Nat) (worker : String)
      (jobType : JobType) (key : Option DedupeKey)
  | started (id : Id) (attempt : Nat) (worker : String)
  | wrote (id : Id) (attempt : Nat) (worker : String) (write : Write)
deriving DecidableEq

/-- One move of the system, with everything the code does not decide. -/
inductive Action
  | enqueue (spec : JobSpec) (newId : Id) (now : Timestamp)
  | claim (worker : String) (now lease : Timestamp)
      (only : Option (List JobType)) (locked : List Id)
  | start (worker : String)
  | heartbeat (worker : String) (now lease : Timestamp)
  | noHandler (worker : String) (error tb : String) (now : Timestamp)
  | settle (worker : String) (outcome : Outcome) (runAfter : Timestamp)
      (error tb : String) (now : Timestamp)
  | abandon (worker : String)
  | crash (worker : String)
  | reclaim (now : Timestamp) (limit : Nat) (locked : List Id)

/-- Replace one worker's state. -/
def setWorker (ws : String → WorkerState) (w : String) (x : WorkerState) :
    String → WorkerState :=
  fun v => if v = w then x else ws v

/-- The statement `_settle` issues. `_retry_or_dead_letter` reads the
snapshot's `attempts_exhausted`, not the row's. -/
def settlement (job : Job) (outcome : Outcome) : Write :=
  match outcome with
  | .success => .complete
  | .permanentError => .deadLetter
  | .transientError | .otherError =>
    if job.attemptsExhausted then .deadLetter else .reschedule

/-- The columns a fenced statement sets. -/
def written (write : Write) (runAfter : Timestamp) (error tb : String)
    (now lease : Timestamp) : Job → Job :=
  match write with
  | .heartbeat => Queue.extended now lease
  | .complete => Queue.completed now
  | .reschedule => Queue.rescheduled runAfter error tb now
  | .deadLetter => Queue.deadLettered error tb now

/-- The successful write of a fenced statement, as an event. -/
def writeEvents (jobs : List Job) (id : Id) (w : String) (write : Write) :
    List Event :=
  (jobs.filter (Queue.ownedBy id w)).map fun j =>
    .wrote j.id j.attempts w write

/-- A terminal write of a busy worker, which ends its run of the job. -/
def finish (s : Sys) (w : String) (job : Job) (write : Write)
    (runAfter : Timestamp) (error tb : String) (now : Timestamp) :
    Sys × List Event :=
  ({ jobs := (Queue.fencedUpdate s.jobs job.id w
        (written write runAfter error tb now 0)).1
     workers := setWorker s.workers w .idle },
    writeEvents s.jobs job.id w write)

/-- One step. -/
def step (s : Sys) : Action → Option (Sys × List Event)
  | .enqueue spec newId now =>
    -- a fresh id: the primary key refuses one in use
    if s.jobs.any fun j => decide (j.id = newId) then none
    else
      match Queue.enqueueIn s.jobs spec newId now with
      | (_, none) => some (s, [.collapsed spec.jobType spec.dedupeKey])
      | (jobs, some id) => some ({ s with jobs := jobs }, [.enqueued id])
  | .claim w now lease only locked =>
    match s.workers w with
    | .idle =>
      match Queue.claim s.jobs w now lease only locked with
      | (_, none) => some (s, [])
      | (jobs, some j) =>
        some (⟨jobs, setWorker s.workers w (.busy j false false)⟩,
          [.claimed j.id j.attempts w j.jobType j.dedupeKey])
    | _ => none
  | .start w =>
    match s.workers w with
    | .busy j false lost =>
      some ({ s with workers := setWorker s.workers w (.busy j true lost) },
        [.started j.id j.attempts w])
    | _ => none
  | .heartbeat w now lease =>
    match s.workers w with
    | .busy j true false =>
      let r := Queue.heartbeat s.jobs j.id w now lease
      some (⟨r.1, setWorker s.workers w (.busy j true (!r.2))⟩,
        writeEvents s.jobs j.id w .heartbeat)
    | _ => none
  | .noHandler w error tb now =>
    match s.workers w with
    | .busy j false _ => some (finish s w j .deadLetter now error tb now)
    | _ => none
  | .settle w outcome runAfter error tb now =>
    match s.workers w with
    | .busy j true _ =>
      some (finish s w j (settlement j outcome) runAfter error tb now)
    | _ => none
  | .abandon w =>
    match s.workers w with
    | .busy _ true true =>
      some ({ s with workers := setWorker s.workers w .idle }, [])
    | _ => none
  | .crash w =>
    some ({ s with workers := setWorker s.workers w .stopped }, [])
  | .reclaim now limit locked =>
    some ({ s with jobs := (Queue.reclaimExpired s.jobs now limit locked).1 },
      [])

/-- The queue and its workers as a machine. -/
def machine : Lib.Machine Sys Action Event := ⟨step⟩

@[simp] theorem machine_step (s : Sys) (a : Action) :
    machine.step s a = step s a := rfl

@[simp] theorem setWorker_same (ws : String → WorkerState) (w : String)
    (x : WorkerState) : setWorker ws w x w = x := by
  simp [setWorker]

theorem setWorker_other (ws : String → WorkerState) {w v : String}
    (x : WorkerState) (h : v ≠ w) : setWorker ws w x v = ws v := by
  simp [setWorker, h]

-- ====== what one step can do

/-- The effect of one step, said once: the table rows it rewrites, the
worker it moves and the events it emits. -/
inductive Effect (s : Sys) : Sys → List Event → Prop
  /-- An enqueue that collapsed, or a claim that found nothing. -/
  | quiet (es : List Event)
      (hes : es = [] ∨ ∃ t k, es = [.collapsed t k]) : Effect s s es
  | insert (spec : JobSpec) (newId : Id) (now : Timestamp)
      (hfresh : ∀ j ∈ s.jobs, j.id ≠ newId) :
      Effect s { s with jobs := s.jobs ++ [Queue.pendingJob spec newId now] }
        [.enqueued newId]
  | claim (w : String) (j : Job) (now lease : Timestamp)
      (hidle : s.workers w = .idle) (hmem : j ∈ s.jobs)
      (hpending : j.status = .pending) :
      Effect s
        ⟨Queue.updateId s.jobs j.id (Queue.claimed w now lease),
          setWorker s.workers w (.busy (Queue.claimed w now lease j) false false)⟩
        [.claimed j.id (j.attempts + 1) w j.jobType j.dedupeKey]
  | start (w : String) (j : Job) (lost : Bool)
      (hbusy : s.workers w = .busy j false lost) :
      Effect s { s with workers := setWorker s.workers w (.busy j true lost) }
        [.started j.id j.attempts w]
  | write (w : String) (j : Job) (started lost : Bool) (x : WorkerState)
      (write : Write) (runAfter : Timestamp) (error tb : String)
      (now lease : Timestamp)
      (hbusy : s.workers w = .busy j started lost)
      (hx : x = .idle ∨ ∃ lost', x = .busy j true lost')
      (hstarted : (∃ lost', x = .busy j true lost') → started = true)
      (hbudget : write = .reschedule → j.attemptsExhausted = false) :
      Effect s
        ⟨(Queue.fencedUpdate s.jobs j.id w
            (written write runAfter error tb now lease)).1,
          setWorker s.workers w x⟩
        (writeEvents s.jobs j.id w write)
  | leave (w : String) (x : WorkerState) (hx : x = .idle ∨ x = .stopped) :
      Effect s { s with workers := setWorker s.workers w x } []
  | reclaim (now : Timestamp) (limit : Nat) (locked : List Id) :
      Effect s
        { s with jobs := (Queue.reclaimExpired s.jobs now limit locked).1 } []

theorem settlement_budget {j : Job} {o : Outcome}
    (h : settlement j o = .reschedule) : j.attemptsExhausted = false := by
  unfold settlement at h
  cases o with
  | success => cases h
  | permanentError => cases h
  | transientError =>
    cases he : j.attemptsExhausted with
    | false => rfl
    | true => simp [he] at h
  | otherError =>
    cases he : j.attemptsExhausted with
    | false => rfl
    | true => simp [he] at h

theorem step_effect {s s' : Sys} {a : Action} {es : List Event}
    (h : step s a = some (s', es)) : Effect s s' es := by
  cases a with
  | enqueue spec newId now =>
    simp only [step] at h
    split at h
    case isTrue => cases h
    case isFalse hfresh =>
      have hfresh' : ∀ j ∈ s.jobs, j.id ≠ newId := by
        simpa using hfresh
      unfold Queue.enqueueIn at h
      cases hd : s.jobs.any (Queue.dedupes spec) with
      | true =>
        simp only [hd, ↓reduceIte, Option.some.injEq, Prod.mk.injEq] at h
        obtain ⟨rfl, rfl⟩ := h
        exact .quiet _ (.inr ⟨_, _, rfl⟩)
      | false =>
        simp only [hd, Bool.false_eq_true, ↓reduceIte, Option.some.injEq,
          Prod.mk.injEq] at h
        obtain ⟨rfl, rfl⟩ := h
        exact .insert spec newId now hfresh'
  | claim w now lease only locked =>
    simp only [step] at h
    split at h
    case h_1 hidle =>
      unfold Queue.claim at h
      cases hc : Queue.candidate s.jobs now only locked with
      | none =>
        simp only [hc, Option.some.injEq, Prod.mk.injEq] at h
        obtain ⟨rfl, rfl⟩ := h
        exact .quiet _ (.inl rfl)
      | some j =>
        simp only [hc, Option.some.injEq, Prod.mk.injEq] at h
        obtain ⟨rfl, rfl⟩ := h
        obtain ⟨hmem, hp⟩ := Queue.candidate_mem hc
        exact .claim w j now lease hidle hmem hp
    case h_2 => cases h
  | start w =>
    simp only [step] at h
    split at h
    case h_1 j lost hb =>
      cases h
      exact .start w j lost hb
    case h_2 => cases h
  | heartbeat w now lease =>
    simp only [step] at h
    split at h
    case h_1 j hb =>
      cases h
      exact .write w j true false _ .heartbeat 0 "" "" now lease hb
        (.inr ⟨_, rfl⟩) (fun _ => rfl) (fun hc => by cases hc)
    case h_2 => cases h
  | noHandler w error tb now =>
    simp only [step] at h
    split at h
    case h_1 j lost hb =>
      cases h
      exact .write w j false lost .idle .deadLetter now error tb now 0 hb
        (.inl rfl) (fun ⟨_, hx⟩ => by cases hx) (fun hc => by cases hc)
    case h_2 => cases h
  | settle w outcome runAfter error tb now =>
    simp only [step] at h
    split at h
    case h_1 j lost hb =>
      cases h
      exact .write w j true lost .idle (settlement j outcome) runAfter error
        tb now 0 hb (.inl rfl) (fun _ => rfl) settlement_budget
    case h_2 => cases h
  | abandon w =>
    simp only [step] at h
    split at h
    case h_1 =>
      cases h
      exact .leave w .idle (.inl rfl)
    case h_2 => cases h
  | crash w =>
    cases h
    exact .leave w .stopped (.inr rfl)
  | reclaim now limit locked =>
    cases h
    exact .reclaim now limit locked

end MemoryOS.Worker
