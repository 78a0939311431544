/-
Receiving external events (`application/events.py`, `domain/events.py`).

`receive` is two transactions: the count that enforces the rate limit, and
the insert that stores the event and enqueues its handlers' jobs. A third
one looks up the pending duplicate when the insert collides. Each is one
function here, and the rows it reads are its argument; `Intake.step` is
what one client's call does next.
-/
import MemoryOS.Jobs.Queue

namespace MemoryOS

/-- A row of `events`, and `Event`. -/
structure ExternalEvent where
  id : Id
  kind : EventKind
  source : String
  payload : List (String × String)
  occurredAt : Timestamp
  receivedAt : Timestamp
  processedAt : Option Timestamp
  dedupeKey : Option String
deriving DecidableEq, Repr

/-- `RateLimit`: how many events one source may deliver in a window. -/
structure RateLimit where
  limit : Int
  window : Timestamp
deriving DecidableEq, Repr

/-- `RateLimit.exceeded`. -/
def RateLimit.exceeded (l : RateLimit) (receivedInWindow : Nat) : Bool :=
  decide (l.limit ≤ receivedInWindow)

/-- `RateLimit.retry_after`, in seconds. -/
def RateLimit.retryAfter (l : RateLimit) : Int :=
  max 1 (l.window.tdiv 1000000)

/-- `EventRateLimited`. -/
structure EventRateLimited where
  source : String
  retryAfter : Int
deriving DecidableEq, Repr

/-- A subscribed `EventHandler`: its name and the kinds it cares about. -/
structure EventHandler where
  name : String
  kinds : List EventKind
deriving DecidableEq, Repr

/-- `EventBus`: its handlers, in the order they subscribed. -/
abbrev EventBus := List EventHandler

/-- `EventBus.subscribe`: a name that is taken is refused. -/
def EventBus.subscribe (bus : EventBus) (handler : EventHandler) :
    Option EventBus :=
  if bus.any fun h => decide (h.name = handler.name) then none
  else some (bus ++ [handler])

/-- `EventBus.subscribers`. -/
def EventBus.subscribers (bus : EventBus) (kind : EventKind) :
    List EventHandler :=
  bus.filter fun h => decide (kind ∈ h.kinds)

theorem eventKey_nonempty (id : Id) (handler : String) :
    some (DedupeKey.event id handler) ≠ some (.text "") :=
  fun h => by cases h

/-- The job of one handler. -/
def handlerJob (eventId : Id) (handler : String) : JobSpec where
  jobType := .handleEvent
  payload := { eventId := some eventId, handler := some handler }
  dedupeKey := some (.event eventId handler)
  dedupeKey_nonempty := eventKey_nonempty eventId handler

/-- `EventBus.dispatch`: one job a handler, and the ids of those that were
enqueued. -/
def dispatch (eventId : Id) (now : Timestamp) :
    List Job → Id → List EventHandler → List Job × Id × List Id
  | jobs, nextId, [] => (jobs, nextId, [])
  | jobs, nextId, h :: rest =>
    let r := Queue.enqueueIn jobs (handlerJob eventId h.name) nextId now
    let r' := dispatch eventId now r.1 (nextId + 1) rest
    (r'.1, r'.2.1, r.2.toList ++ r'.2.2)

-- ====== the transactions

/-- The count of `_enforce_rate_limit`. -/
def deliveredSince (events : List ExternalEvent) (source : String)
    (since : Timestamp) : Nat :=
  events.countP fun e =>
    decide (e.source = source) && decide (since < e.receivedAt)

/-- `_enforce_rate_limit`. -/
def enforceRateLimit (limit : RateLimit) (events : List ExternalEvent)
    (source : String) (now : Timestamp) : Except EventRateLimited Unit :=
  if limit.exceeded (deliveredSince events source (now - limit.window)) then
    .error ⟨source, limit.retryAfter⟩
  else .ok ()

/-- `uq_events_pending_dedupe`: the rows an event would collide with. -/
def pendingTwin (kind : EventKind) (dedupeKey : Option String)
    (e : ExternalEvent) : Bool :=
  dedupeKey.isSome && decide (e.dedupeKey = dedupeKey)
    && decide (e.kind = kind) && e.processedAt.isNone

/-- Whether the insert passes `ck_events_source` and the unique index. -/
def storable (events : List ExternalEvent) (e : ExternalEvent) : Bool :=
  (e.source.toList.any fun c => c != ' ')
    && !events.any (pendingTwin e.kind e.dedupeKey)

/-- `_pending_with_key`. -/
def pendingWithKey (events : List ExternalEvent) (kind : EventKind)
    (dedupeKey : Option String) : Option ExternalEvent :=
  events.find? (pendingTwin kind dedupeKey)

-- ====== the deliveries

/-- What a client delivers. -/
structure Delivery where
  kind : EventKind
  source : String
  payload : List (String × String) := []
  occurredAt : Option Timestamp := none
  dedupeKey : Option String := none
deriving DecidableEq, Repr

/-- What `receive` returned or raised. -/
inductive Receipt
  | received (event : ExternalEvent) (created : Bool) (jobs : List Id)
  /-- Beside the error, the call's clock and the rows its count read. -/
  | rateLimited (error : EventRateLimited) (now : Timestamp)
      (counted : List ExternalEvent)
  | integrityError
deriving DecidableEq, Repr

/-- How far one call of `receive` is. -/
inductive Reception
  /-- It has read the clock. -/
  | arrived (d : Delivery) (now : Timestamp)
  /-- The limit let it pass, on a count of so many rows of the table. -/
  | admitted (d : Delivery) (now : Timestamp) (counted : Nat)
  /-- Its insert was refused. -/
  | collided (e : ExternalEvent)
  | done (r : Receipt)
deriving DecidableEq, Repr

/-- The tables, and the calls made so far. -/
structure Intake where
  events : List ExternalEvent := []
  jobs : List Job := []
  nextId : Id := 1
  calls : List Reception := []

/-- The event a delivery becomes. -/
def Delivery.event (d : Delivery) (id : Id) (now : Timestamp) :
    ExternalEvent where
  id := id
  kind := d.kind
  source := d.source
  payload := d.payload
  occurredAt := d.occurredAt.getD now
  receivedAt := now
  processedAt := none
  dedupeKey := d.dedupeKey

/-- One step of a call: its next transaction. -/
def advance (limit : RateLimit) (bus : EventBus) (s : Intake) (i : Nat)
    (dbNow : Timestamp) : Intake :=
  match s.calls[i]? with
  | some (.arrived d now) =>
    match enforceRateLimit limit s.events d.source now with
    | .error e =>
      { s with calls := s.calls.set i (.done (.rateLimited e now s.events)) }
    | .ok _ =>
      { s with
        calls := s.calls.set i (.admitted d now s.events.length) }
  | some (.admitted d now _) =>
    let e := d.event s.nextId now
    -- the collision rolls the transaction back
    if !storable s.events e then
      { s with
        nextId := s.nextId + 1
        calls := s.calls.set i (.collided e) }
    else
      let r := dispatch e.id dbNow s.jobs (s.nextId + 1)
        (EventBus.subscribers bus e.kind)
      { events := s.events ++ [e]
        jobs := r.1
        nextId := r.2.1
        calls := s.calls.set i (.done (.received e true r.2.2)) }
  | some (.collided e) =>
    match pendingWithKey s.events e.kind e.dedupeKey with
    | none => { s with calls := s.calls.set i (.done .integrityError) }
    | some old =>
      { s with calls := s.calls.set i (.done (.received old false [])) }
  | _ => s

/-- `mark_processed`. -/
def markProcessed (events : List ExternalEvent) (id : Id) (now : Timestamp) :
    List ExternalEvent :=
  events.map fun e => if e.id = id then { e with processedAt := some now } else e

end MemoryOS
