/-
The Postgres job queue (`adapters/db/job_queue.py`, `domain/jobs.py`).

A table of job rows and the seven statements that write it. Every
statement is one transaction, so each is one function from the table to
the table; the clock it reads (`now()` in the database) and the ids it
mints are arguments. Row-level security scopes the table to one user, so
`user_id`, the first column of the dedupe index, is constant here.

# Locks

`claim` and `reclaim_expired` select `FOR UPDATE SKIP LOCKED`: a row
another transaction holds locked is stepped over. Which rows those are
is an argument too (`locked`), so a caller of these functions ranges
over every outcome the locks allow.
-/
import MemoryOS.Domain.Values

namespace MemoryOS

/-- `DEFAULT_MAX_ATTEMPTS`. -/
def defaultMaxAttempts : Nat := 5

/-- The fields of a job's JSON payload that the handlers read. -/
structure Payload where
  /-- `memory_id`, for the per-memory stages. -/
  memoryId : Option Id := none
  /-- `memory_ids`, for a graph sync. -/
  memoryIds : List Id := []
  /-- `entity_ids`, for a graph sync. -/
  entityIds : List Id := []
  /-- `event_id`, for an event's handler. -/
  eventId : Option Id := none
  /-- `handler`, the name of that handler. -/
  handler : Option String := none
deriving DecidableEq, Repr

/-- A `dedupe_key`. The pipeline's keys are a prefix and an id's text;
an id's text is of fixed width, so the parts are kept apart here. Any
other caller's key is its text. -/
inductive DedupeKey
  | text (key : String)
  | memory (memoryId : Id)
  | embed (memoryId : Id)
  | extract (memoryId : Id)
  | syncGraph (ids : List Id)
  | event (eventId : Id) (handler : String)
deriving DecidableEq, Repr

theorem defaultMaxAttempts_pos : 1 ≤ defaultMaxAttempts := by decide

theorem noKey_nonempty : (none : Option DedupeKey) ≠ some (.text "") := nofun

/-- `JobSpec`: what an enqueuer supplies. The two checks of
`__post_init__` are fields. -/
structure JobSpec where
  jobType : JobType
  payload : Payload := {}
  dedupeKey : Option DedupeKey := none
  priority : Int := 0
  maxAttempts : Nat := defaultMaxAttempts
  runAfter : Option Timestamp := none
  maxAttempts_pos : 1 ≤ maxAttempts := by exact defaultMaxAttempts_pos
  dedupeKey_nonempty : dedupeKey ≠ some (.text "") := by exact noKey_nonempty

/-- A row of `jobs`. -/
structure Job where
  id : Id
  jobType : JobType
  payload : Payload
  status : JobStatus
  attempts : Nat
  maxAttempts : Nat
  runAfter : Timestamp
  priority : Int
  dedupeKey : Option DedupeKey
  lockedBy : Option String
  lockedAt : Option Timestamp
  leaseExpiresAt : Option Timestamp
  lastError : Option String
  lastTraceback : Option String
  createdAt : Timestamp
  updatedAt : Timestamp
  completedAt : Option Timestamp
deriving DecidableEq, Repr

/-- `Job.attempts_exhausted`: whether this job has used its budget. -/
def Job.attemptsExhausted (j : Job) : Bool :=
  decide (j.maxAttempts ≤ j.attempts)

/-- The states `_DEDUPE_INDEX_WHERE` covers. -/
def JobStatus.inFlight : JobStatus → Bool
  | .pending | .running => true
  | .succeeded | .failed | .cancelled => false

/-- The states no statement leaves. -/
def JobStatus.terminal : JobStatus → Bool
  | .succeeded | .failed | .cancelled => true
  | .pending | .running => false

namespace Queue

/-- The partial unique index `uq_jobs_dedupe`: the row of `jobs` that an
insert of `spec` would collide with. -/
def dedupes (spec : JobSpec) (j : Job) : Bool :=
  spec.dedupeKey.isSome && decide (j.dedupeKey = spec.dedupeKey)
    && decide (j.jobType = spec.jobType) && j.status.inFlight

/-- The row `enqueue_in` inserts. -/
def pendingJob (spec : JobSpec) (newId : Id) (now : Timestamp) : Job where
  id := newId
  jobType := spec.jobType
  payload := spec.payload
  status := .pending
  attempts := 0
  maxAttempts := spec.maxAttempts
  runAfter := spec.runAfter.getD now
  priority := spec.priority
  dedupeKey := spec.dedupeKey
  lockedBy := none
  lockedAt := none
  leaseExpiresAt := none
  lastError := none
  lastTraceback := none
  createdAt := now
  updatedAt := now
  completedAt := none

/-- `enqueue_in`: insert a pending job, or do nothing and return `none`
when a job with the same type and key is already pending or running. -/
def enqueueIn (jobs : List Job) (spec : JobSpec) (newId : Id)
    (now : Timestamp) : List Job × Option Id :=
  if jobs.any (dedupes spec) then (jobs, none)
  else (jobs ++ [pendingJob spec newId now], some newId)

/-- `ORDER BY priority DESC, run_after`: whether `a` is claimed in
preference to `b`. -/
def claimedBefore (a b : Job) : Bool :=
  decide (b.priority < a.priority)
    || (decide (a.priority = b.priority) && decide (a.runAfter < b.runAfter))

/-- The head of the candidate order; rows that tie are taken in table
order. -/
def firstInOrder : List Job → Option Job
  | [] => none
  | j :: rest =>
    match firstInOrder rest with
    | none => some j
    | some k => if claimedBefore k j then some k else some j

/-- The candidate `claim` selects: the best ready row not locked by
another transaction, among the types the worker takes. -/
def candidate (jobs : List Job) (now : Timestamp)
    (only : Option (List JobType)) (locked : List Id) : Option Job :=
  firstInOrder <| jobs.filter fun j =>
    decide (j.status = .pending) && decide (j.runAfter ≤ now)
      && (only.map fun types => decide (j.jobType ∈ types)).getD true
      && decide (j.id ∉ locked)

/-- The row `claim` leaves: running, leased, one attempt more. -/
def claimed (worker : String) (now lease : Timestamp) (j : Job) : Job :=
  { j with
    status := .running
    lockedBy := some worker
    lockedAt := some now
    leaseExpiresAt := some (now + lease)
    attempts := j.attempts + 1
    updatedAt := now }

/-- Apply `f` to the rows with a given id. -/
def updateId (jobs : List Job) (id : Id) (f : Job → Job) : List Job :=
  jobs.map fun j => if j.id = id then f j else j

/-- `claim`: take the candidate and return it as claimed. -/
def claim (jobs : List Job) (worker : String) (now lease : Timestamp)
    (only : Option (List JobType)) (locked : List Id) :
    List Job × Option Job :=
  match candidate jobs now only locked with
  | none => (jobs, none)
  | some j =>
    (updateId jobs j.id (claimed worker now lease),
      some (claimed worker now lease j))

/-- `_owned_by`: the fencing predicate. -/
def ownedBy (id : Id) (worker : String) (j : Job) : Bool :=
  decide (j.id = id) && decide (j.lockedBy = some worker)
    && decide (j.status = .running)

/-- `_fenced_update`: write the owned row; `true` when exactly one row
was written. -/
def fencedUpdate (jobs : List Job) (id : Id) (worker : String)
    (f : Job → Job) : List Job × Bool :=
  (jobs.map fun j => if ownedBy id worker j then f j else j,
    decide (jobs.countP (ownedBy id worker) = 1))

/-- The columns `heartbeat` sets. -/
def extended (now lease : Timestamp) (j : Job) : Job :=
  { j with leaseExpiresAt := some (now + lease), updatedAt := now }

/-- The columns `complete` sets. -/
def completed (now : Timestamp) (j : Job) : Job :=
  { j with
    status := .succeeded
    lockedBy := none
    lockedAt := none
    leaseExpiresAt := none
    completedAt := some now
    updatedAt := now }

/-- The columns `reschedule` sets. -/
def rescheduled (runAfter : Timestamp) (error tb : String)
    (now : Timestamp) (j : Job) : Job :=
  { j with
    status := .pending
    runAfter := runAfter
    lockedBy := none
    lockedAt := none
    leaseExpiresAt := none
    lastError := some error
    lastTraceback := some tb
    updatedAt := now }

/-- The columns `dead_letter` sets. -/
def deadLettered (error tb : String) (now : Timestamp) (j : Job) : Job :=
  { j with
    status := .failed
    lockedBy := none
    lockedAt := none
    leaseExpiresAt := none
    lastError := some error
    lastTraceback := some tb
    completedAt := some now
    updatedAt := now }

/-- The columns `reclaim_expired` sets: back to `pending`, or `failed`
when the budget is spent. -/
def reclaimed (now : Timestamp) (j : Job) : Job :=
  { j with
    status := if j.maxAttempts ≤ j.attempts then .failed else .pending
    lockedBy := none
    lockedAt := none
    leaseExpiresAt := none
    lastError := some (j.lastError.getD "lease expired")
    updatedAt := now
    completedAt := if j.maxAttempts ≤ j.attempts then some now else none }

/-- `heartbeat`: extend the lease. -/
def heartbeat (jobs : List Job) (id : Id) (worker : String)
    (now lease : Timestamp) : List Job × Bool :=
  fencedUpdate jobs id worker (extended now lease)

/-- `complete`. -/
def complete (jobs : List Job) (id : Id) (worker : String)
    (now : Timestamp) : List Job × Bool :=
  fencedUpdate jobs id worker (completed now)

/-- `reschedule`. -/
def reschedule (jobs : List Job) (id : Id) (worker : String)
    (runAfter : Timestamp) (error tb : String) (now : Timestamp) :
    List Job × Bool :=
  fencedUpdate jobs id worker (rescheduled runAfter error tb now)

/-- `dead_letter`. -/
def deadLetter (jobs : List Job) (id : Id) (worker : String)
    (error tb : String) (now : Timestamp) : List Job × Bool :=
  fencedUpdate jobs id worker (deadLettered error tb now)

/-- A running row whose lease has run out. -/
def expired (now : Timestamp) (j : Job) : Bool :=
  decide (j.status = .running)
    && (j.leaseExpiresAt.map fun t => decide (t < now)).getD false

/-- Insert by lease expiry, after its equals: one step of the sort. -/
def insertByLease (j : Job) : List Job → List Job
  | [] => [j]
  | k :: rest =>
    if j.leaseExpiresAt.getD 0 < k.leaseExpiresAt.getD 0 then j :: k :: rest
    else k :: insertByLease j rest

/-- The ids `reclaim_expired` reads: expired, unlocked, by lease expiry,
at most `limit` of them. -/
def expiredIds (jobs : List Job) (now : Timestamp) (limit : Nat)
    (locked : List Id) : List Id :=
  (((jobs.filter fun j => expired now j && decide (j.id ∉ locked)).foldr
    insertByLease []).take limit).map (·.id)

/-- `reclaim_expired`: return expired jobs to the queue; the count of
rows written. -/
def reclaimExpired (jobs : List Job) (now : Timestamp) (limit : Nat)
    (locked : List Id) : List Job × Nat :=
  let ids := expiredIds jobs now limit locked
  (jobs.map fun j => if j.id ∈ ids then reclaimed now j else j,
    jobs.countP fun j => decide (j.id ∈ ids))

-- ====== what a statement leaves

section Facts

variable {jobs : List Job} {j j' : Job} {id : Id} {worker : String}
  {now lease : Timestamp}

@[simp] theorem claimed_id : (claimed worker now lease j).id = j.id := rfl
@[simp] theorem extended_id : (extended now lease j).id = j.id := rfl
@[simp] theorem completed_id : (completed now j).id = j.id := rfl
@[simp] theorem reclaimed_id : (reclaimed now j).id = j.id := rfl
@[simp] theorem rescheduled_id {t : Timestamp} {e tb : String} :
    (rescheduled t e tb now j).id = j.id := rfl
@[simp] theorem deadLettered_id {e tb : String} :
    (deadLettered e tb now j).id = j.id := rfl

theorem ownedBy_iff : ownedBy id worker j = true ↔
    j.id = id ∧ j.lockedBy = some worker ∧ j.status = .running := by
  simp [ownedBy, and_assoc]

theorem expired_running (h : expired now j = true) :
    j.status = .running := by
  simp only [expired, Bool.and_eq_true, decide_eq_true_eq] at h
  exact h.1

theorem firstInOrder_mem :
    ∀ {l : List Job} {j : Job}, firstInOrder l = some j → j ∈ l := by
  intro l
  induction l with
  | nil => intro j h; cases h
  | cons a rest ih =>
    intro j h
    unfold firstInOrder at h
    cases hr : firstInOrder rest with
    | none =>
      simp only [hr, Option.some.injEq] at h
      exact h ▸ List.mem_cons_self
    | some k =>
      simp only [hr] at h
      split at h
      · cases h
        exact List.mem_cons_of_mem a (ih hr)
      · cases h
        exact List.mem_cons_self

theorem candidate_mem {only : Option (List JobType)} {locked : List Id}
    (h : candidate jobs now only locked = some j) :
    j ∈ jobs ∧ j.status = .pending := by
  obtain ⟨hmem, hready⟩ := List.mem_filter.mp (firstInOrder_mem h)
  simp only [Bool.and_eq_true, decide_eq_true_eq] at hready
  exact ⟨hmem, hready.1.1.1⟩

theorem mem_insertByLease {a x : Job} {l : List Job}
    (h : x ∈ insertByLease a l) : x = a ∨ x ∈ l := by
  induction l with
  | nil => exact .inl (by simpa [insertByLease] using h)
  | cons k rest ih =>
    unfold insertByLease at h
    split at h
    · exact List.mem_cons.mp h
    · rcases List.mem_cons.mp h with rfl | h'
      · exact .inr List.mem_cons_self
      · rcases ih h' with rfl | hr
        · exact .inl rfl
        · exact .inr (List.mem_cons_of_mem k hr)

theorem mem_sortByLease {x : Job} {l : List Job}
    (h : x ∈ l.foldr insertByLease []) : x ∈ l := by
  induction l with
  | nil => exact h
  | cons k rest ih =>
    rcases mem_insertByLease h with rfl | h'
    · exact List.mem_cons_self
    · exact List.mem_cons_of_mem k (ih h')

theorem mem_expiredIds {limit : Nat} {locked : List Id}
    (h : id ∈ expiredIds jobs now limit locked) :
    ∃ j ∈ jobs, j.id = id ∧ j.status = .running := by
  unfold expiredIds at h
  obtain ⟨x, hx, rfl⟩ := List.mem_map.mp h
  obtain ⟨hmem, hexp⟩ :=
    List.mem_filter.mp (mem_sortByLease (List.mem_of_mem_take hx))
  simp only [Bool.and_eq_true] at hexp
  exact ⟨x, hmem, rfl, expired_running hexp.1⟩

end Facts

end Queue

end MemoryOS
