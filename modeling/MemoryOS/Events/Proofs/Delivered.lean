/-
No event lost, none stored twice, with any number of clients and handlers.

A call's insert stores its event and one job for each subscribed handler, in
one transaction, or is refused for an unprocessed event of the same kind and
key. The lookup of that event is another transaction: a handler's stamp in
between takes the event out of the index, and the call raises the violation
it caught.

# The condition

`intake_exact_iff`: every call is answered as it should be exactly when each
lookup after a refused insert finds an event to return.
-/
import MemoryOS.Events.Proofs.RateLimit

namespace MemoryOS.Intake

open Lib

-- ====== the system

/-- The tables and the calls, with what each call delivered. -/
structure Watched where
  intake : Intake
  asked : List Delivery := []

/-- One step, and what it asks. -/
def watchStep (limit : RateLimit) (bus : EventBus) (w : Watched) (a : Action) :
    Watched where
  intake := step limit bus w.intake a
  asked :=
    match a with
    | .receive d _ => w.asked ++ [d]
    | _ => w.asked

/-- The steps as a machine. -/
def watch (limit : RateLimit) (bus : EventBus) :
    Machine Watched Action Unit :=
  ⟨fun w a => some (watchStep limit bus w a, [])⟩

-- ====== statement vocabulary

/-- A row, before any handler stamped it. -/
def unstamped (e : ExternalEvent) : ExternalEvent :=
  { e with processedAt := none }

/-- The jobs of an event. -/
def jobsOf (jobs : List Job) (id : Id) : List Job :=
  jobs.filter fun j => decide (j.payload.eventId = some id)

/-- `ck_events_source` refuses a source that is blank. -/
def named (source : String) : Bool := source.toList.any fun c => c != ' '

/-- What a call that returns is to return: a new event, its row and its jobs,
one a handler; or the row of an unprocessed event of the same kind and key. -/
structure Honest (bus : EventBus) (s : Intake) (d : Delivery) (r : Receipt) :
    Prop where
  stored : ∀ e ids, r = .received e true ids →
    (∃ now, e = d.event e.id now)
      ∧ (s.events.filter fun x => decide (x.id = e.id)).map unstamped = [e]
      ∧ (jobsOf s.jobs e.id).map (·.payload.handler)
        = (EventBus.subscribers bus d.kind).map (some ·.name)
      ∧ (jobsOf s.jobs e.id).map (·.id) = ids
  duplicate : ∀ e ids, r = .received e false ids →
    e.kind = d.kind ∧ e.dedupeKey = d.dedupeKey ∧ d.dedupeKey.isSome = true
      ∧ e.processedAt = none ∧ ids = []
      ∧ ∃ x ∈ s.events, unstamped x = e

/-- How a call is to end: what it raises is no violation of a unique index. -/
structure Answered (bus : EventBus) (s : Intake) (d : Delivery) (r : Receipt) :
    Prop extends Honest bus s d r where
  raised : r = .integrityError → named d.source = false

/-- Every call is answered so, no two are answered with one new event, and no
two unprocessed events share a kind and a key. -/
structure Exact (bus : EventBus) (w : Watched) : Prop where
  answered : ∀ (i : Nat) d r, w.asked[i]? = some d →
    w.intake.calls[i]? = some (Reception.done r) → Answered bus w.intake d r
  once : ∀ (i j : Nat) e e' ids ids',
    w.intake.calls[i]? = some (Reception.done (.received e true ids)) →
    w.intake.calls[j]? = some (Reception.done (.received e' true ids')) →
    e.id = e'.id → i = j
  pending : ∀ kind key,
    w.intake.events.countP (pendingTwin kind (some key)) ≤ 1

/-- The condition on one step: the lookup of a call whose insert was refused,
for another reason than its source, finds an unprocessed event of its kind
and key. -/
def Found (w : Watched) : Action → Prop
  | .advance i _ => ∀ e, w.intake.calls[i]? = some (Reception.collided e) →
      named e.source = true →
      ∃ x ∈ w.intake.events, pendingTwin e.kind e.dedupeKey x = true
  | _ => True

/-- A start: no calls yet, ids not yet in use, and the index satisfied. -/
structure Fresh (w : Watched) : Prop where
  calls : w.intake.calls = []
  asked : w.asked = []
  ids : ∀ e ∈ w.intake.events, e.id < w.intake.nextId
  payloads : ∀ j ∈ w.intake.jobs, ∀ id, j.payload.eventId = some id →
    id < w.intake.nextId
  keys : ∀ j ∈ w.intake.jobs, ∀ id handler,
    j.dedupeKey = some (.event id handler) → id < w.intake.nextId
  pending : ∀ kind key,
    w.intake.events.countP (pendingTwin kind (some key)) ≤ 1

-- ======== dispatch

/-- The jobs of an event, one a handler. -/
def handlerJobs (eventId : Id) (now : Timestamp) :
    Id → List EventHandler → List Job
  | _, [] => []
  | newId, h :: rest =>
    Queue.pendingJob (handlerJob eventId h.name) newId now
      :: handlerJobs eventId now (newId + 1) rest

variable {events : List ExternalEvent} {now : Timestamp} {p : Reception}
  {d : Delivery} {i : Nat}

theorem handlerJobs_keys {eventId newId : Id}
    {handlers : List EventHandler} :
    ∀ j ∈ handlerJobs eventId now newId handlers,
      j.payload.eventId = some eventId
        ∧ ∃ h ∈ handlers, j.dedupeKey = some (.event eventId h.name) := by
  induction handlers generalizing newId with
  | nil => exact List.forall_mem_nil _
  | cons h rest ih =>
    refine List.forall_mem_cons.mpr
      ⟨⟨rfl, h, List.mem_cons_self, rfl⟩, fun j hj => ?_⟩
    obtain ⟨hid, h', hmem, hkey⟩ := ih j hj
    exact ⟨hid, h', List.mem_cons_of_mem _ hmem, hkey⟩

theorem handlerJobs_handlers {eventId newId : Id}
    {handlers : List EventHandler} :
    (handlerJobs eventId now newId handlers).map (·.payload.handler)
      = handlers.map (some ·.name) := by
  induction handlers generalizing newId with
  | nil => rfl
  | cons h rest ih =>
    unfold handlerJobs
    rw [List.map_cons, List.map_cons, ih]
    rfl

theorem dispatch_eq {eventId newId : Id} {now : Timestamp} {jobs : List Job}
    {handlers : List EventHandler}
    (hfresh : ∀ j ∈ jobs, ∀ h ∈ handlers,
      j.dedupeKey ≠ some (.event eventId h.name))
    (hnames : (handlers.map (·.name)).Nodup) :
    dispatch eventId now jobs newId handlers
      = (jobs ++ handlerJobs eventId now newId handlers,
        newId + handlers.length,
        (handlerJobs eventId now newId handlers).map (·.id)) := by
  induction handlers generalizing jobs newId with
  | nil => simp [dispatch, handlerJobs]
  | cons h rest ih =>
    rw [List.map_cons, List.nodup_cons] at hnames
    have hnone : (jobs.any (Queue.dedupes (handlerJob eventId h.name)))
        = false := by
      rw [List.any_eq_false]
      intro j hj hdup
      unfold Queue.dedupes handlerJob at hdup
      simp only [Bool.and_eq_true, decide_eq_true_eq] at hdup
      exact hfresh j hj h List.mem_cons_self hdup.1.1.2
    have hone : Queue.enqueueIn jobs (handlerJob eventId h.name) newId now
        = (jobs ++ [Queue.pendingJob (handlerJob eventId h.name) newId now],
          some newId) := by
      unfold Queue.enqueueIn
      rw [hnone]
      rfl
    have hrest := @ih (newId + 1)
      (jobs ++ [Queue.pendingJob (handlerJob eventId h.name) newId now])
      (fun j hj h' hh' => by
        rcases List.mem_append.mp hj with hj | hj
        · exact hfresh j hj h' (List.mem_cons_of_mem _ hh')
        · rw [List.mem_singleton.mp hj]
          intro heq
          have hname : h.name = h'.name := by
            injection heq with heq
            injection heq
          exact hnames.1 (hname ▸ List.mem_map_of_mem hh'))
      hnames.2
    unfold dispatch
    simp only [hone, hrest]
    rw [List.append_assoc, List.length_cons, Nat.add_right_comm,
      Nat.add_assoc]
    rfl

-- ====== the invariant

/-- What each stage of a call says of what it delivered. -/
def Asks (bus : EventBus) (s : Intake) (d : Delivery) : Reception → Prop
  | .arrived d' _ => d' = d
  | .admitted d' _ _ => d' = d
  | .collided e => ∃ id now, e = d.event id now
  | .done r => Honest bus s d r

/-- What every step keeps. -/
structure Kept (bus : EventBus) (w : Watched) : Prop where
  length : w.intake.calls.length = w.asked.length
  asks : ∀ (i : Nat) d p, w.asked[i]? = some d → w.intake.calls[i]? = some p →
    Asks bus w.intake d p
  once : ∀ (i j : Nat) e e' ids ids',
    w.intake.calls[i]? = some (Reception.done (.received e true ids)) →
    w.intake.calls[j]? = some (Reception.done (.received e' true ids')) →
    e.id = e'.id → i = j
  ids : ∀ e ∈ w.intake.events, e.id < w.intake.nextId
  payloads : ∀ j ∈ w.intake.jobs, ∀ id, j.payload.eventId = some id →
    id < w.intake.nextId
  keys : ∀ j ∈ w.intake.jobs, ∀ id handler,
    j.dedupeKey = some (.event id handler) → id < w.intake.nextId
  pending : ∀ kind key,
    w.intake.events.countP (pendingTwin kind (some key)) ≤ 1

/-- What later steps do to the tables: stamps, and rows of new ids. -/
structure Grown (s s' : Intake) : Prop where
  events : ∃ more, s'.events.map unstamped = s.events.map unstamped ++ more
    ∧ ∀ e ∈ more, s.nextId ≤ e.id
  jobs : ∃ more, s'.jobs = s.jobs ++ more
    ∧ ∀ j ∈ more, ∀ id, j.payload.eventId = some id → s.nextId ≤ id

variable {bus : EventBus} {limit : RateLimit} {s s' : Intake} {w : Watched}

theorem Grown.same (hevents : s'.events = s.events)
    (hjobs : s'.jobs = s.jobs) : Grown s s' :=
  ⟨⟨[], by rw [List.append_nil, hevents], List.forall_mem_nil _⟩,
    ⟨[], by rw [List.append_nil, hjobs], List.forall_mem_nil _⟩⟩

theorem rows_unstamped (events : List ExternalEvent) (id : Id) :
    (events.filter fun x => decide (x.id = id)).map unstamped
      = (events.map unstamped).filter fun x => decide (x.id = id) := by
  rw [List.filter_map]
  rfl

theorem Honest.grown {r : Receipt} (h : Honest bus s d r)
    (hids : ∀ e ∈ s.events, e.id < s.nextId) (hg : Grown s s') :
    Honest bus s' d r := by
  obtain ⟨⟨events, hevents, hnew⟩, ⟨jobs, hjobs, hnewjobs⟩⟩ := hg
  refine ⟨fun e ids hr => ?_, fun e ids hr => ?_⟩
  · obtain ⟨hd, hrow, hhandlers, hjobids⟩ := h.stored e ids hr
    have hold : e.id < s.nextId := by
      have hmem : e ∈ (s.events.filter fun x => decide (x.id = e.id)).map
          unstamped := by
        rw [hrow]
        exact List.mem_singleton_self e
      obtain ⟨x, hx, hxe⟩ := List.mem_map.mp hmem
      have hlt := hids x (List.mem_filter.mp hx).1
      rwa [of_decide_eq_true (List.mem_filter.mp hx).2] at hlt
    have hsame : jobsOf s'.jobs e.id = jobsOf s.jobs e.id := by
      have hnone : jobsOf jobs e.id = [] := by
        refine List.filter_eq_nil_iff.mpr fun j hj heq => ?_
        exact absurd (hnewjobs j hj e.id (of_decide_eq_true heq))
          (Nat.not_le.mpr hold)
      unfold jobsOf at hnone ⊢
      rw [hjobs, List.filter_append, hnone, List.append_nil]
    refine ⟨hd, ?_, by rw [hsame]; exact hhandlers,
      by rw [hsame]; exact hjobids⟩
    rw [rows_unstamped] at hrow ⊢
    have hnone : (events.filter fun x => decide (x.id = e.id)) = [] := by
      refine List.filter_eq_nil_iff.mpr fun x hx heq => ?_
      have hle := hnew x hx
      rw [of_decide_eq_true heq] at hle
      exact absurd hle (Nat.not_le.mpr hold)
    rw [hevents, List.filter_append, hrow, hnone, List.append_nil]
  · obtain ⟨hkind, hkey, hsome, hopen, hnil, x, hx, hxe⟩ := h.duplicate e ids hr
    refine ⟨hkind, hkey, hsome, hopen, hnil, ?_⟩
    have hmem : e ∈ s'.events.map unstamped := by
      rw [hevents]
      exact List.mem_append_left _ (List.mem_map.mpr ⟨x, hx, hxe⟩)
    exact List.mem_map.mp hmem

theorem Asks.grown (h : Asks bus s d p)
    (hids : ∀ e ∈ s.events, e.id < s.nextId) (hg : Grown s s') :
    Asks bus s' d p := by
  cases p with
  | arrived d' now => exact h
  | admitted d' now counted => exact h
  | collided e => exact h
  | done r => exact Honest.grown h hids hg

theorem Kept.set (h : Kept bus w) {s' : Intake}
    (hcalls : s'.calls = w.intake.calls.set i p) (hg : Grown w.intake s')
    (hids : ∀ e ∈ s'.events, e.id < s'.nextId)
    (hpayloads : ∀ j ∈ s'.jobs, ∀ id, j.payload.eventId = some id →
      id < s'.nextId)
    (hkeys : ∀ j ∈ s'.jobs, ∀ id handler,
      j.dedupeKey = some (.event id handler) → id < s'.nextId)
    (hpending : ∀ kind key,
      s'.events.countP (pendingTwin kind (some key)) ≤ 1)
    (hp : ∀ d, w.asked[i]? = some d → Asks bus s' d p)
    (hnew : ∀ e ids, p = .done (.received e true ids) →
      w.intake.nextId ≤ e.id) :
    Kept bus ⟨s', w.asked⟩ := by
  have hold : ∀ (j : Nat) e ids, w.intake.calls[j]?
      = some (Reception.done (.received e true ids)) →
      e.id < w.intake.nextId := by
    intro j e ids hj
    have hlt : j < w.asked.length := by
      rw [← h.length]
      exact (List.getElem?_eq_some_iff.mp hj).1
    have hhonest : Honest bus w.intake w.asked[j] (.received e true ids) :=
      h.asks j _ _ (List.getElem?_eq_getElem hlt) hj
    obtain ⟨-, hrow, -, -⟩ := hhonest.stored e ids rfl
    have hmem : e ∈ (w.intake.events.filter fun x =>
        decide (x.id = e.id)).map unstamped := by
      rw [hrow]
      exact List.mem_singleton_self e
    obtain ⟨x, hx, -⟩ := List.mem_map.mp hmem
    have hlt := h.ids x (List.mem_filter.mp hx).1
    rwa [of_decide_eq_true (List.mem_filter.mp hx).2] at hlt
  refine ⟨?_, fun j d q hd hq => ?_,
    fun j k e e' ids ids' hj hk heq => ?_, hids,
    hpayloads, hkeys, hpending⟩
  · show s'.calls.length = w.asked.length
    rw [hcalls, List.length_set, h.length]
  · change s'.calls[j]? = some q at hq
    rw [hcalls, List.getElem?_set] at hq
    split at hq
    case isTrue hij =>
      subst hij
      split at hq
      case isTrue =>
        cases hq
        exact hp d hd
      case isFalse => cases hq
    case isFalse => exact (h.asks j d q hd hq).grown h.ids hg
  · change s'.calls[j]? = _ at hj
    change s'.calls[k]? = _ at hk
    rw [hcalls, List.getElem?_set] at hj hk
    split at hj
    case isTrue hij =>
      split at hk
      case isTrue hik => rw [← hij, ← hik]
      case isFalse =>
        split at hj
        case isTrue =>
          cases hj
          exact absurd (heq ▸ hold k e' ids' hk)
            (Nat.not_lt.mpr (hnew e ids rfl))
        case isFalse => cases hj
    case isFalse =>
      split at hk
      case isTrue =>
        split at hk
        case isTrue =>
          cases hk
          exact absurd (heq ▸ hold j e ids hj)
            (Nat.not_lt.mpr (hnew e' ids' rfl))
        case isFalse => cases hk
      case isFalse => exact h.once j k e e' ids ids' hj hk heq

-- ======= the steps

theorem Kept.receive (h : Kept bus w) (d : Delivery) (now : Timestamp) :
    Kept bus (watchStep limit bus w (.receive d now)) := by
  have hcases : ∀ {i : Nat} {p : Reception},
      (w.intake.calls ++ [.arrived d now])[i]? = some p →
      w.intake.calls[i]? = some p
        ∨ i = w.intake.calls.length ∧ p = .arrived d now := by
    intro i p hi
    rw [List.getElem?_append] at hi
    split at hi
    case isTrue => exact .inl hi
    case isFalse hlt =>
      obtain ⟨hzero, hp⟩ := List.getElem?_eq_some_iff.mp hi
      rw [List.length_singleton] at hzero
      refine .inr ⟨by omega, ?_⟩
      rw [← hp, List.getElem_singleton]
  refine ⟨?_, fun i d' p hd hp => ?_, fun i j e e' ids ids' hi hj heq => ?_,
    h.ids, h.payloads, h.keys, h.pending⟩
  · show (w.intake.calls ++ [_]).length = (w.asked ++ [_]).length
    rw [List.length_append, List.length_append, h.length]
    rfl
  · change (w.asked ++ [d])[i]? = some d' at hd
    rcases hcases hp with hp | ⟨hi, rfl⟩
    · have hlt : i < w.asked.length := by
        rw [← h.length]
        exact (List.getElem?_eq_some_iff.mp hp).1
      rw [List.getElem?_append_left hlt] at hd
      exact (h.asks i d' p hd hp).grown h.ids (.same rfl rfl)
    · rw [hi, h.length, List.getElem?_concat_length] at hd
      exact Option.some.inj hd
  · rcases hcases hi with hi | ⟨-, hp⟩
    · rcases hcases hj with hj | ⟨-, hp⟩
      · exact h.once i j e e' ids ids' hi hj heq
      · cases hp
    · cases hp

theorem Kept.processed (h : Kept bus w) (id : Id) (now : Timestamp) :
    Kept bus (watchStep limit bus w (.processed id now)) := by
  have hblank : (markProcessed w.intake.events id now).map unstamped
      = w.intake.events.map unstamped := by
    unfold markProcessed
    rw [List.map_map]
    refine List.map_congr_left fun e _ => ?_
    show unstamped (if e.id = id then _ else _) = _
    split
    case isTrue => rfl
    case isFalse => rfl
  have hg : Grown w.intake
      { w.intake with events := markProcessed w.intake.events id now } :=
    ⟨⟨[], by rw [List.append_nil]; exact hblank, List.forall_mem_nil _⟩,
      ⟨[], (List.append_nil _).symm, List.forall_mem_nil _⟩⟩
  refine ⟨h.length, fun i d p hd hp => (h.asks i d p hd hp).grown h.ids hg,
    h.once, fun e he => ?_, h.payloads, h.keys, fun kind key => ?_⟩
  · have hmem : e.id ∈ (w.intake.events.map unstamped).map (·.id) := by
      rw [← hblank, List.map_map]
      exact List.mem_map.mpr ⟨e, he, rfl⟩
    rw [List.map_map] at hmem
    obtain ⟨x, hx, hxe⟩ := List.mem_map.mp hmem
    exact hxe ▸ h.ids x hx
  · refine Nat.le_trans ?_ (h.pending kind key)
    show (markProcessed w.intake.events id now).countP _ ≤ _
    unfold markProcessed
    rw [List.countP_map]
    refine List.countP_mono_left fun e _ he => ?_
    change pendingTwin kind (some key) (if e.id = id then _ else e) = true at he
    split at he
    case isTrue =>
      unfold pendingTwin at he
      simp at he
    case isFalse => exact he

theorem countP_twin_append {e : ExternalEvent}
    (hs : storable events e = true)
    (h : ∀ kind key, events.countP (pendingTwin kind (some key)) ≤ 1)
    (kind : EventKind) (key : String) :
    (events ++ [e]).countP (pendingTwin kind (some key)) ≤ 1 := by
  rw [List.countP_append, List.countP_singleton]
  split
  case isTrue htwin =>
    unfold storable at hs
    rw [Bool.and_eq_true, Bool.not_eq_true'] at hs
    unfold pendingTwin at htwin
    simp only [Bool.and_eq_true, decide_eq_true_eq] at htwin
    have hnone : events.countP (pendingTwin kind (some key)) = 0 := by
      rw [List.countP_eq_zero]
      intro x hx hx'
      have hfree := List.any_eq_false.mp hs.2 x hx
      rw [htwin.1.1.2, htwin.1.2] at hfree
      exact hfree hx'
    omega
  case isFalse => exact h kind key

theorem Kept.inserted (hbus : (bus.map (·.name)).Nodup) (h : Kept bus w) {dbNow : Timestamp} {counted : Nat}
    (hi : w.intake.calls[i]? = some (.admitted d now counted))
    (hs : storable w.intake.events (d.event w.intake.nextId now) = true) :
    Kept bus (watchStep limit bus w (.advance i dbNow)) := by
  have hnames : ((EventBus.subscribers bus d.kind).map (·.name)).Nodup :=
    hbus.sublist (List.filter_sublist.map _)
  have hdispatch := @dispatch_eq w.intake.nextId (w.intake.nextId + 1) dbNow
    w.intake.jobs (EventBus.subscribers bus d.kind)
    (fun j hj x _ heq => absurd (h.keys j hj _ _ heq) (Nat.lt_irrefl _)) hnames
  have hstep : step limit bus w.intake (.advance i dbNow)
      = { events := w.intake.events ++ [d.event w.intake.nextId now]
          jobs := w.intake.jobs ++ handlerJobs w.intake.nextId dbNow
            (w.intake.nextId + 1) (EventBus.subscribers bus d.kind)
          nextId := w.intake.nextId + 1
            + (EventBus.subscribers bus d.kind).length
          calls := w.intake.calls.set i (.done (.received
            (d.event w.intake.nextId now) true
            ((handlerJobs w.intake.nextId dbNow (w.intake.nextId + 1)
              (EventBus.subscribers bus d.kind)).map (·.id)))) } := by
    show MemoryOS.advance limit bus w.intake i dbNow = _
    unfold MemoryOS.advance
    simp only [hi, hs, Bool.not_true, Bool.false_eq_true, ↓reduceIte]
    rw [show (d.event w.intake.nextId now).id = w.intake.nextId from rfl,
      show (d.event w.intake.nextId now).kind = d.kind from rfl, hdispatch]
  show Kept bus ⟨step limit bus w.intake (.advance i dbNow), w.asked⟩
  rw [hstep]
  have hjobs : ∀ j ∈ handlerJobs w.intake.nextId dbNow (w.intake.nextId + 1)
      (EventBus.subscribers bus d.kind),
      j.payload.eventId = some w.intake.nextId
        ∧ ∀ id handler, j.dedupeKey = some (.event id handler) →
          id = w.intake.nextId := by
    intro j hj
    obtain ⟨hid, x, -, hkey⟩ := handlerJobs_keys j hj
    refine ⟨hid, fun id handler heq => ?_⟩
    rw [hkey] at heq
    injection heq with heq
    injection heq with heq
    exact heq.symm
  have hnone : (w.intake.events.filter fun x =>
      decide (x.id = w.intake.nextId)) = [] := by
    refine List.filter_eq_nil_iff.mpr fun x hx heq => ?_
    have hlt := h.ids x hx
    rw [of_decide_eq_true heq] at hlt
    exact absurd hlt (Nat.lt_irrefl _)
  have hnojobs : jobsOf w.intake.jobs w.intake.nextId = [] := by
    refine List.filter_eq_nil_iff.mpr fun j hj heq => ?_
    exact absurd (h.payloads j hj _ (of_decide_eq_true heq))
      (Nat.lt_irrefl _)
  have hown : jobsOf (w.intake.jobs ++ handlerJobs w.intake.nextId dbNow
      (w.intake.nextId + 1) (EventBus.subscribers bus d.kind))
        w.intake.nextId
      = handlerJobs w.intake.nextId dbNow (w.intake.nextId + 1)
        (EventBus.subscribers bus d.kind) := by
    unfold jobsOf at hnojobs ⊢
    rw [List.filter_append, hnojobs, List.nil_append, List.filter_eq_self]
    exact fun j hj => decide_eq_true (hjobs j hj).1
  have hlater : w.intake.nextId < w.intake.nextId + 1
      + (EventBus.subscribers bus d.kind).length := by
    rw [Nat.add_assoc]
    exact Nat.lt_add_of_pos_right (by rw [Nat.add_comm]; exact Nat.succ_pos _)
  refine h.set rfl ?_ ?_ ?_ ?_ ?_ (fun d' hd => ?_) fun e ids hp => ?_
  · refine ⟨⟨[d.event w.intake.nextId now], ?_, ?_⟩,
      ⟨_, rfl, fun j hj id hid => ?_⟩⟩
    · rw [List.map_append]
      rfl
    · intro e he
      rw [List.mem_singleton.mp he]
      exact Nat.le_refl _
    · rw [(hjobs j hj).1] at hid
      exact Nat.le_of_eq (Option.some.inj hid)
  · intro e he
    rcases List.mem_append.mp he with he | he
    · exact Nat.lt_trans (h.ids e he) hlater
    · rw [List.mem_singleton.mp he]
      exact hlater
  · intro j hj id hid
    rcases List.mem_append.mp hj with hj | hj
    · exact Nat.lt_trans (h.payloads j hj id hid) hlater
    · rw [(hjobs j hj).1] at hid
      rw [← Option.some.inj hid]
      exact hlater
  · intro j hj id handler hkey
    rcases List.mem_append.mp hj with hj | hj
    · exact Nat.lt_trans (h.keys j hj id handler hkey) hlater
    · rw [(hjobs j hj).2 id handler hkey]
      exact hlater
  · exact countP_twin_append hs h.pending
  · -- the call was admitted with what it delivered
    have hd' : d = d' := h.asks i d' _ hd hi
    subst hd'
    refine ⟨fun e ids heq => ?_, fun e ids heq => ?_⟩
    · injection heq with he _ hids
      subst he hids
      refine ⟨⟨now, rfl⟩, ?_, ?_, ?_⟩
      · show ((w.intake.events ++ [d.event w.intake.nextId now]).filter fun x =>
          decide (x.id = w.intake.nextId)).map unstamped = _
        have hself : ([d.event w.intake.nextId now].filter fun x =>
            decide (x.id = w.intake.nextId)) = [d.event w.intake.nextId now] :=
          List.filter_eq_self.mpr fun x hx => by
            rw [List.mem_singleton.mp hx]
            exact decide_eq_true rfl
        rw [List.filter_append, hnone, List.nil_append, hself]
        rfl
      · show (jobsOf (_ ++ _) w.intake.nextId).map _ = _
        rw [hown, handlerJobs_handlers]
      · show (jobsOf (_ ++ _) w.intake.nextId).map _ = _
        rw [hown]
    · injection heq with _ hfalse
      cases hfalse
  · injection hp with hp
    injection hp with he
    rw [← he]
    exact Nat.le_refl _

theorem Kept.goes (h : Kept bus w)
    (nextId : Id) (hnext : w.intake.nextId ≤ nextId)
    (hp : ∀ d, w.asked[i]? = some d → Asks bus
      { w.intake with nextId := nextId, calls := w.intake.calls.set i p } d p)
    (hnew : ∀ e ids, p ≠ .done (.received e true ids)) :
    Kept bus ⟨{ w.intake with
      nextId := nextId, calls := w.intake.calls.set i p }, w.asked⟩ :=
  h.set rfl (.same rfl rfl)
    (fun e he => Nat.lt_of_lt_of_le (h.ids e he) hnext)
    (fun j hj id hid => Nat.lt_of_lt_of_le (h.payloads j hj id hid) hnext)
    (fun j hj id handler hkey =>
      Nat.lt_of_lt_of_le (h.keys j hj id handler hkey) hnext)
    h.pending hp fun e ids heq => absurd heq (hnew e ids)

theorem pendingWithKey_spec {kind : EventKind}
    {key : Option String} {old : ExternalEvent}
    (h : pendingWithKey events kind key = some old) :
    old ∈ events ∧ old.kind = kind ∧ old.dedupeKey = key ∧ key.isSome = true
      ∧ old.processedAt = none := by
  have htwin := List.find?_some h
  unfold pendingTwin at htwin
  simp only [Bool.and_eq_true, decide_eq_true_eq,
    Option.isNone_iff_eq_none] at htwin
  exact ⟨List.mem_of_find?_eq_some h, htwin.1.2, htwin.1.1.2, htwin.1.1.1,
    htwin.2⟩

theorem Kept.step (hbus : (bus.map (·.name)).Nodup) (h : Kept bus w)
    (a : Action) : Kept bus (watchStep limit bus w a) := by
  cases a with
  | receive d now => exact h.receive d now
  | processed id now => exact h.processed id now
  | advance i dbNow =>
    cases hi : w.intake.calls[i]? with
    | none =>
      have hsame : Intake.step limit bus w.intake (.advance i dbNow)
          = w.intake := by
        show MemoryOS.advance limit bus w.intake i dbNow = _
        unfold MemoryOS.advance
        rw [hi]
      unfold watchStep
      rw [hsame]
      exact h
    | some p =>
      cases p with
      | arrived d now =>
        have hasks := fun d' hd => h.asks i d' _ hd hi
        show Kept bus ⟨MemoryOS.advance limit bus w.intake i dbNow, _⟩
        unfold MemoryOS.advance
        simp only [hi]
        split
        case h_1 e _ =>
          exact h.goes w.intake.nextId (Nat.le_refl _)
            (fun d' _ => ⟨fun _ _ => nofun, fun _ _ => nofun⟩)
            fun _ _ => nofun
        case h_2 =>
          exact h.goes w.intake.nextId (Nat.le_refl _) hasks
            fun _ _ => nofun
      | admitted d now counted =>
        have hasks := fun d' hd => h.asks i d' _ hd hi
        by_cases hs : storable w.intake.events
            (d.event w.intake.nextId now) = true
        · exact h.inserted hbus hi hs
        · show Kept bus ⟨MemoryOS.advance limit bus w.intake i dbNow, _⟩
          unfold MemoryOS.advance
          simp only [hi, hs, Bool.not_false, ↓reduceIte]
          exact h.goes (w.intake.nextId + 1) (Nat.le_succ _)
            (fun d' hd => ⟨w.intake.nextId, now, by rw [hasks d' hd]⟩)
            fun _ _ => nofun
      | collided e =>
        have hasks := fun d' hd => h.asks i d' _ hd hi
        show Kept bus ⟨MemoryOS.advance limit bus w.intake i dbNow, _⟩
        unfold MemoryOS.advance
        simp only [hi]
        split
        case h_1 =>
          exact h.goes w.intake.nextId (Nat.le_refl _)
            (fun d' _ => ⟨fun _ _ => nofun, fun _ _ => nofun⟩)
            fun _ _ => nofun
        case h_2 old hold =>
          obtain ⟨hmem, hkind, hkey, hsome, hopen⟩ :=
            pendingWithKey_spec hold
          refine h.goes w.intake.nextId (Nat.le_refl _)
            (fun d' hd => ⟨fun _ _ => nofun, fun x ids heq => ?_⟩)
            fun _ _ => nofun
          obtain ⟨id, now, rfl⟩ := hasks d' hd
          injection heq with hx _ hids
          subst hx hids
          refine ⟨hkind, hkey, hsome, hopen, rfl, old, hmem, ?_⟩
          unfold unstamped
          rw [← hopen]
      | done r =>
        have hsame : Intake.step limit bus w.intake (.advance i dbNow)
            = w.intake := by
          show MemoryOS.advance limit bus w.intake i dbNow = _
          unfold MemoryOS.advance
          rw [hi]
        unfold watchStep
        rw [hsame]
        exact h

-- ======= the claim

/-- What is raised so far is no violation of a unique index. -/
def Unviolated (w : Watched) : Prop :=
  ∀ (i : Nat) d, w.asked[i]? = some d →
    w.intake.calls[i]? = some (Reception.done .integrityError) →
    named d.source = false

theorem exact_iff (h : Kept bus w) : Exact bus w ↔ Unviolated w := by
  constructor
  · exact fun hexact i d hd hi => (hexact.answered i d _ hd hi).raised rfl
  · intro hraised
    refine ⟨fun i d r hd hi => ⟨h.asks i d _ hd hi, fun hr => ?_⟩, h.once,
      h.pending⟩
    exact hraised i d hd (hr ▸ hi)

theorem pendingWithKey_isSome {kind : EventKind}
    {key : Option String} : pendingWithKey events kind key = none
      ↔ ¬ ∃ x ∈ events, pendingTwin kind key x = true := by
  unfold pendingWithKey
  rw [List.find?_eq_none]
  push Not
  rfl

theorem advance_calls {j : Nat} {dbNow : Timestamp} {r : Receipt}
    (hj : (MemoryOS.advance limit bus s i dbNow).calls[j]?
      = some (.done r)) :
    s.calls[j]? = some (.done r)
      ∨ j = i ∧ (r = .integrityError → ∃ e, s.calls[i]? = some (.collided e)
        ∧ pendingWithKey s.events e.kind e.dedupeKey = none) := by
  have hset : ∀ {p : Reception}, (s.calls.set i p)[j]? = some (.done r) →
      s.calls[j]? = some (.done r) ∨ j = i ∧ p = .done r := by
    intro p hp
    rw [List.getElem?_set] at hp
    split at hp
    case isTrue hij =>
      split at hp
      case isTrue => exact .inr ⟨hij.symm, Option.some.inj hp⟩
      case isFalse => cases hp
    case isFalse => exact .inl hp
  unfold MemoryOS.advance at hj
  cases hi : s.calls[i]? with
  | none =>
    rw [hi] at hj
    exact .inl hj
  | some p =>
    simp only [hi] at hj
    cases p with
    | arrived d now =>
      simp only at hj
      split at hj
      case h_1 =>
        rcases hset hj with hj | ⟨hji, hp⟩
        · exact .inl hj
        · exact .inr ⟨hji, fun hr => by rw [hr] at hp; cases hp⟩
      case h_2 =>
        rcases hset hj with hj | ⟨hji, hp⟩
        · exact .inl hj
        · cases hp
    | admitted d now counted =>
      simp only at hj
      split at hj
      case isTrue =>
        rcases hset hj with hj | ⟨hji, hp⟩
        · exact .inl hj
        · cases hp
      case isFalse =>
        rcases hset hj with hj | ⟨hji, hp⟩
        · exact .inl hj
        · exact .inr ⟨hji, fun hr => by rw [hr] at hp; cases hp⟩
    | collided e =>
      simp only at hj
      split at hj
      case h_1 hnone =>
        rcases hset hj with hj | ⟨hji, -⟩
        · exact .inl hj
        · exact .inr ⟨hji, fun _ => ⟨e, rfl, hnone⟩⟩
      case h_2 =>
        rcases hset hj with hj | ⟨hji, hp⟩
        · exact .inl hj
        · exact .inr ⟨hji, fun hr => by rw [hr] at hp; cases hp⟩
    | done r' => exact .inl hj

theorem Unviolated.step (h : Kept bus w) (hraised : Unviolated w) {a : Action}
    (hf : Found w a) : Unviolated (watchStep limit bus w a) := by
  intro i d hd hi
  cases a with
  | receive d' now =>
    change (w.intake.calls ++ [Reception.arrived d' now])[i]? = _ at hi
    rw [List.getElem?_append] at hi
    split at hi
    case isTrue hlt =>
      change (w.asked ++ [d'])[i]? = some d at hd
      rw [List.getElem?_append_left (by rw [← h.length]; exact hlt)] at hd
      exact hraised i d hd hi
    case isFalse =>
      obtain ⟨hzero, hp⟩ := List.getElem?_eq_some_iff.mp hi
      rw [List.getElem_singleton] at hp
      cases hp
  | processed id now => exact hraised i d hd hi
  | advance j dbNow =>
    rcases advance_calls hi with hi | ⟨rfl, hcollided⟩
    · exact hraised i d hd hi
    · obtain ⟨e, he, hnone⟩ := hcollided rfl
      obtain ⟨id, now, rfl⟩ : ∃ id now, e = d.event id now :=
        h.asks i d _ hd he
      refine Bool.eq_false_iff.mpr fun hnamed => ?_
      exact pendingWithKey_isSome.mp hnone (hf _ he hnamed)

theorem found_of_unviolated (h : Kept bus w) {a : Action}
    (hraised : Unviolated (watchStep limit bus w a)) : Found w a := by
  cases a with
  | receive d now => trivial
  | processed id now => trivial
  | advance i dbNow =>
    intro e he hnamed
    refine Classical.byContradiction fun hnone => ?_
    have hlt := (List.getElem?_eq_some_iff.mp he).1
    obtain ⟨d, hasked⟩ : ∃ d, w.asked[i]? = some d :=
      ⟨_, List.getElem?_eq_getElem (h.length ▸ hlt)⟩
    obtain ⟨id, now, rfl⟩ := h.asks i _ _ hasked he
    have hcalls : (MemoryOS.advance limit bus w.intake i dbNow).calls[i]?
        = some (.done .integrityError) := by
      unfold MemoryOS.advance
      simp only [he, pendingWithKey_isSome.mpr hnone]
      rw [List.getElem?_set_self hlt]
    have hblank := hraised i d hasked hcalls
    exact Bool.false_ne_true (hblank.symm.trans hnamed)

/-- Along every interleaving of calls and handlers, every call is answered
with a new event and its jobs, or with the unprocessed event that was there,
exactly when each lookup after a refused insert finds one. -/
theorem intake_exact_iff (limit : RateLimit) (bus : EventBus)
    (hbus : (bus.map (·.name)).Nodup) (w : Watched) (acts : List Action)
    (hstart : Fresh w) :
    (watch limit bus).Always (Exact bus) w acts
      ↔ (watch limit bus).EveryStep Found w acts := by
  have hkept : Kept bus w := by
    refine ⟨by rw [hstart.calls, hstart.asked]; rfl, fun i d p hd _ => ?_,
      fun i j e e' ids ids' hi _ _ => ?_, hstart.ids, hstart.payloads,
      hstart.keys, hstart.pending⟩
    · rw [hstart.asked] at hd
      cases hd
    · rw [hstart.calls] at hi
      cases hi
  apply Machine.always_iff_everyStep fun w => Kept bus w ∧ Unviolated w
  · exact fun w hw => (exact_iff hw.1).mpr hw.2
  · intro w a w' es hw hstep hf
    cases hstep
    exact ⟨hw.1.step hbus a, hw.2.step hw.1 hf⟩
  · intro w a w' es hw hstep hexact
    cases hstep
    exact found_of_unviolated hw.1 ((exact_iff (hw.1.step hbus a)).mp hexact)
  · refine ⟨hkept, fun i d hd _ => ?_⟩
    rw [hstart.asked] at hd
    cases hd

-- ------ a stamp in between

/-- `DEFAULT_RATE_LIMIT`. -/
def defaultRateLimit : RateLimit := ⟨60, 60000000⟩

/-- `LogEventHandler`, and nothing else. -/
def logOnly : EventBus :=
  [⟨"log", [.editorOpened, .fileFocused, .meetingUpcoming, .manual]⟩]

/-- A file is focused. -/
def focus : Delivery :=
  { kind := .fileFocused, source := "editor", dedupeKey := some "notes.md" }

/-- The second delivery's insert is refused, and the first is processed before
the second looks it up. -/
def stampedBetween : List Action :=
  [.receive focus 0, .advance 0 1, .advance 0 2, .receive focus 3,
    .advance 1 4, .advance 1 5, .processed 1 6, .advance 1 7]

theorem empty_fresh : Fresh ⟨{}, []⟩ where
  calls := rfl
  asked := rfl
  ids := List.forall_mem_nil _
  payloads := List.forall_mem_nil _
  keys := List.forall_mem_nil _
  pending _ _ := Nat.zero_le 1

theorem intake_exact_iff_stampedBetween :
    (watch defaultRateLimit logOnly).Always (Exact logOnly) ⟨{}, []⟩
        stampedBetween
      ↔ (watch defaultRateLimit logOnly).EveryStep Found ⟨{}, []⟩
        stampedBetween :=
  intake_exact_iff defaultRateLimit logOnly (by decide +kernel) ⟨{}, []⟩
    stampedBetween empty_fresh

/-- The second delivery raises the violation it caught. -/
theorem intake_raises_violation :
    ¬ ∀ (limit : RateLimit) (bus : EventBus) (w : Watched)
      (acts : List Action), (bus.map (·.name)).Nodup → Fresh w →
      (watch limit bus).Always (Exact bus) w acts := by
  intro hclaim
  have hall := hclaim defaultRateLimit logOnly ⟨{}, []⟩ stampedBetween
    (by decide +kernel) empty_fresh
  have hlast : Exact logOnly
      (stampedBetween.foldl (watchStep defaultRateLimit logOnly) ⟨{}, []⟩) :=
    hall.last rfl
  have hraised := (hlast.answered 1 focus .integrityError (by decide +kernel)
    (by decide +kernel)).raised rfl
  revert hraised
  decide +kernel

end MemoryOS.Intake
