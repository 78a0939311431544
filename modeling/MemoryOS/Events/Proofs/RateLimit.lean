/-
The rate limit, with any number of clients.

The count and the insert are two transactions, so two calls may both count
before either inserts. What a count says of a window still holds at the
insert unless another call of the source has stored an event of that window
in between.

# The condition

`rate_limit_iff`: no window ever holds more events of one source than the
limit exactly when every insert made after another call's, between its count
and itself, still finds room in the windows that one is in. That a refused
call counted a full window holds of every run.
-/
import MemoryOS.Lib.Machine
import MemoryOS.Events.Intake

namespace MemoryOS.Intake

open Lib

-- ====== the system

/-- What happens: a client calls `receive`, a call goes on to its next
transaction, or a handler's job stamps an event. -/
inductive Action
  | receive (d : Delivery) (now : Timestamp)
  | advance (call : Nat) (dbNow : Timestamp)
  | processed (id : Id) (now : Timestamp)

variable (limit : RateLimit) (bus : EventBus)

/-- One step. -/
def step (s : Intake) : Action → Intake
  | .receive d now => { s with calls := s.calls ++ [.arrived d now] }
  | .advance i dbNow => MemoryOS.advance limit bus s i dbNow
  | .processed id now => { s with events := markProcessed s.events id now }

/-- The steps as a machine. -/
def machine : Machine Intake Action Unit :=
  ⟨fun s a => some (step limit bus s a, [])⟩

-- ====== what is meant

/-- The events of one source in the rate window that starts after `start`. -/
def inWindow (source : String) (start : Timestamp) (e : ExternalEvent) :
    Bool :=
  decide (e.source = source) && decide (start < e.receivedAt)
    && decide (e.receivedAt ≤ start + limit.window)

/-- No window holds more than the limit, and whoever was refused counted at
least that many in the window before its call. -/
structure Limited (s : Intake) : Prop where
  within : ∀ source start,
    (s.events.countP (inWindow limit source start) : Int) ≤ limit.limit
  refused : ∀ e now counted,
    Reception.done (.rateLimited e now counted) ∈ s.calls →
    limit.limit ≤ deliveredSince counted e.source (now - limit.window)

/-- The condition on one step: where another call of the source has stored
an event of a window since this one counted, an insert into that window
finds room. -/
def Roomy (s : Intake) : Action → Prop
  | .advance i _ => ∀ d now counted,
      s.calls[i]? = some (.admitted d now counted) →
      storable s.events (d.event s.nextId now) = true →
      ∀ start, start < now → now ≤ start + limit.window →
      (∃ e ∈ s.events.drop counted, inWindow limit d.source start e = true) →
      (s.events.countP (inWindow limit d.source start) : Int) < limit.limit
  | _ => True

/-- What holds whatever the calls do: a refused call counted a full window,
and an admitted one a window with room. -/
structure Counted (s : Intake) : Prop where
  refused : ∀ e now counted,
    Reception.done (.rateLimited e now counted) ∈ s.calls →
    limit.limit ≤ deliveredSince counted e.source (now - limit.window)
  admitted : ∀ d now counted, Reception.admitted d now counted ∈ s.calls →
    counted ≤ s.events.length ∧
    (deliveredSince (s.events.take counted) d.source (now - limit.window)
      : Int) < limit.limit

section Steps

variable {limit bus} {s : Intake}

theorem Counted.calls (h : Counted limit s) {p : Reception} {i : Nat}
    (hr : ∀ e now counted, p ≠ .done (.rateLimited e now counted))
    (ha : ∀ d now counted, p ≠ .admitted d now counted)
    {jobs : List Job} {nextId : Id} :
    Counted limit { s with
      jobs := jobs, nextId := nextId, calls := s.calls.set i p } := by
  constructor
  case refused =>
    intro e now counted hmem
    rcases List.mem_or_eq_of_mem_set hmem with hmem | hp
    · exact h.refused e now counted hmem
    · exact absurd hp.symm (hr e now counted)
  case admitted =>
    intro d now counted hmem
    rcases List.mem_or_eq_of_mem_set hmem with hmem | hp
    · exact h.admitted d now counted hmem
    · exact absurd hp.symm (ha d now counted)

theorem Counted.append (h : Counted limit s) (e : ExternalEvent) :
    Counted limit { s with events := s.events ++ [e] } := by
  refine ⟨h.refused, fun d now counted hmem => ?_⟩
  obtain ⟨hle, hlt⟩ := h.admitted d now counted hmem
  refine ⟨?_, ?_⟩
  · show counted ≤ (s.events ++ [e]).length
    rw [List.length_append]
    omega
  · show (deliveredSince ((s.events ++ [e]).take counted) _ _ : Int) < _
    rw [List.take_append_of_le_length hle]
    exact hlt

theorem markProcessed_countP {events : List ExternalEvent} {id : Id}
    {now : Timestamp} {p : ExternalEvent → Bool}
    (hp : ∀ e t, p { e with processedAt := t } = p e) :
    (markProcessed events id now).countP p = events.countP p := by
  unfold markProcessed
  rw [List.countP_map]
  refine List.countP_congr fun e _ => ?_
  show p (if e.id = id then { e with processedAt := some now } else e) = true
    ↔ p e = true
  by_cases hid : e.id = id
  · rw [if_pos hid, hp]
  · rw [if_neg hid]

theorem Counted.step (h : Counted limit s) (a : Action) :
    Counted limit (step limit bus s a) := by
  cases a with
  | receive d now =>
    constructor
    case refused =>
      intro e t counted hmem
      rcases List.mem_append.mp hmem with hmem | hmem
      · exact h.refused e t counted hmem
      · cases List.mem_singleton.mp hmem
    case admitted =>
      intro d' t counted hmem
      rcases List.mem_append.mp hmem with hmem | hmem
      · exact h.admitted d' t counted hmem
      · cases List.mem_singleton.mp hmem
  | processed id now =>
    refine ⟨h.refused, fun d t counted hmem => ?_⟩
    obtain ⟨hle, hlt⟩ := h.admitted d t counted hmem
    have hlen : (markProcessed s.events id now).length = s.events.length :=
      List.length_map _
    have htake : (markProcessed s.events id now).take counted
        = markProcessed (s.events.take counted) id now :=
      List.map_take.symm
    refine ⟨?_, ?_⟩
    · show counted ≤ (markProcessed s.events id now).length
      omega
    · show (deliveredSince ((markProcessed s.events id now).take counted)
        d.source (t - limit.window) : Int) < limit.limit
      unfold deliveredSince
      rw [htake, markProcessed_countP fun e t => rfl]
      exact hlt
  | advance i dbNow =>
    show Counted limit (MemoryOS.advance limit bus s i dbNow)
    unfold MemoryOS.advance
    cases hi : s.calls[i]? with
    | none => exact h
    | some p =>
      have hmem : p ∈ s.calls := List.mem_of_getElem? hi
      cases p with
      | arrived d now =>
        unfold enforceRateLimit RateLimit.exceeded
        by_cases hfull : limit.limit
            ≤ deliveredSince s.events d.source (now - limit.window)
        · simp only [hfull, decide_true, ↓reduceIte]
          refine ⟨fun e t counted hc => ?_, fun d' t counted hc => ?_⟩
          · rcases List.mem_or_eq_of_mem_set hc with hc | hc
            · exact h.refused e t counted hc
            · cases hc
              exact hfull
          · rcases List.mem_or_eq_of_mem_set hc with hc | hc
            · exact h.admitted d' t counted hc
            · cases hc
        · simp only [hfull, decide_false, Bool.false_eq_true, ↓reduceIte]
          refine ⟨fun e t counted hc => ?_, fun d' t counted hc => ?_⟩
          · rcases List.mem_or_eq_of_mem_set hc with hc | hc
            · exact h.refused e t counted hc
            · cases hc
          · rcases List.mem_or_eq_of_mem_set hc with hc | hc
            · exact h.admitted d' t counted hc
            · cases hc
              rw [List.take_length]
              exact ⟨Nat.le_refl _, Int.not_le.mp hfull⟩
      | admitted d now counted =>
        by_cases hs : storable s.events (d.event s.nextId now) = true
        · simp only [hs, Bool.not_true, Bool.false_eq_true, ↓reduceIte]
          exact (h.append _).calls (fun _ _ _ hp => by cases hp)
            (fun _ _ _ hp => by cases hp)
        · simp only [hs, Bool.not_false, ↓reduceIte]
          exact h.calls (fun _ _ _ hp => by cases hp)
            (fun _ _ _ hp => by cases hp)
      | collided e =>
        simp only
        cases pendingWithKey s.events e.kind e.dedupeKey with
        | none =>
          exact h.calls (p := .done .integrityError)
            (fun _ _ _ hp => by cases hp) (fun _ _ _ hp => by cases hp)
        | some old =>
          exact h.calls (p := .done (.received old false []))
            (fun _ _ _ hp => by cases hp) (fun _ _ _ hp => by cases hp)
      | done r => exact h

theorem advance_insert {i : Nat} {dbNow : Timestamp} {d : Delivery}
    {now : Timestamp} {counted : Nat}
    (hi : s.calls[i]? = some (.admitted d now counted))
    (hs : storable s.events (d.event s.nextId now) = true) :
    (MemoryOS.advance limit bus s i dbNow).events
      = s.events ++ [d.event s.nextId now] := by
  unfold MemoryOS.advance
  simp only [hi, hs, Bool.not_true, Bool.false_eq_true, ↓reduceIte]

theorem step_inWindow (a : Action) :
    (∀ source start, (step limit bus s a).events.countP
        (inWindow limit source start)
      = s.events.countP (inWindow limit source start))
    ∨ ∃ i dbNow d now counted, a = .advance i dbNow
        ∧ s.calls[i]? = some (.admitted d now counted)
        ∧ storable s.events (d.event s.nextId now) = true
        ∧ (step limit bus s a).events = s.events ++ [d.event s.nextId now] := by
  cases a with
  | receive d now => exact .inl fun _ _ => rfl
  | processed id now =>
    exact .inl fun source start => markProcessed_countP fun e t => rfl
  | advance i dbNow =>
    cases hi : s.calls[i]? with
    | none =>
      refine .inl fun source start => ?_
      show (MemoryOS.advance limit bus s i dbNow).events.countP _ = _
      unfold MemoryOS.advance
      rw [hi]
    | some p =>
      have hframe : (∀ d now counted, p = .admitted d now counted →
          storable s.events (d.event s.nextId now) = false) →
          (MemoryOS.advance limit bus s i dbNow).events = s.events := by
        intro hp
        unfold MemoryOS.advance
        rw [hi]
        cases p with
        | arrived d now =>
          simp only
          cases enforceRateLimit limit s.events d.source now <;> rfl
        | admitted d now counted =>
          simp only [hp d now counted rfl, Bool.not_false, ↓reduceIte]
        | collided e =>
          simp only
          cases pendingWithKey s.events e.kind e.dedupeKey <;> rfl
        | done r => rfl
      by_cases hins : ∃ d now counted, p = .admitted d now counted
          ∧ storable s.events (d.event s.nextId now) = true
      · obtain ⟨d, now, counted, rfl, hs⟩ := hins
        exact .inr ⟨i, dbNow, d, now, counted, rfl, hi, hs,
          advance_insert hi hs⟩
      · refine .inl fun source start => ?_
        show (MemoryOS.advance limit bus s i dbNow).events.countP _ = _
        rw [hframe fun d now counted hp => Bool.eq_false_iff.mpr
          fun hs => hins ⟨d, now, counted, hp, hs⟩]

end Steps

-- ======= the claim

variable {limit bus}

theorem countP_insert {events : List ExternalEvent} {e : ExternalEvent}
    {source : String} {start : Timestamp} :
    (events ++ [e]).countP (inWindow limit source start)
      = events.countP (inWindow limit source start)
        + (if inWindow limit source start e then 1 else 0) := by
  rw [List.countP_append, List.countP_singleton]

theorem countP_le_deliveredSince {events : List ExternalEvent}
    {source : String} {start now : Timestamp}
    (hnow : now ≤ start + limit.window) :
    events.countP (inWindow limit source start)
      ≤ deliveredSince events source (now - limit.window) := by
  unfold deliveredSince
  refine List.countP_mono_left fun e _ he => ?_
  unfold inWindow at he
  simp only [Bool.and_eq_true, decide_eq_true_eq] at he ⊢
  obtain ⟨⟨hs, hlo⟩, -⟩ := he
  exact ⟨hs, Int.lt_of_le_of_lt (Int.sub_right_le_of_le_add hnow) hlo⟩

theorem Limited.step {s : Intake} {a : Action} (h : Limited limit s)
    (hc : Counted limit s) (hr : Roomy limit s a) :
    Limited limit (step limit bus s a) := by
  refine ⟨fun source start => ?_, (hc.step a).refused⟩
  rcases @step_inWindow limit bus s a with
    hsame | ⟨i, dbNow, d, now, counted, rfl, hi, hs, hins⟩
  · rw [hsame]
    exact h.within source start
  · rw [hins, countP_insert]
    by_cases hin : inWindow limit source start (d.event s.nextId now) = true
    · rw [if_pos hin]
      have hin' := hin
      unfold inWindow at hin'
      simp only [Bool.and_eq_true, decide_eq_true_eq] at hin'
      obtain ⟨⟨hsrc, hlo⟩, hhi⟩ := hin'
      obtain rfl : d.source = source := hsrc
      by_cases hother : ∃ e ∈ s.events.drop counted,
          inWindow limit d.source start e = true
      · have hroom := hr d now counted hi hs start hlo hhi hother
        omega
      · -- what the window holds was there when this call counted
        obtain ⟨-, hlt⟩ := hc.admitted d now counted (List.mem_of_getElem? hi)
        have hdrop : (s.events.drop counted).countP
            (inWindow limit d.source start) = 0 := by
          rw [List.countP_eq_zero]
          exact fun e he hw => hother ⟨e, he, hw⟩
        have htake : s.events.countP (inWindow limit d.source start)
            = (s.events.take counted).countP
              (inWindow limit d.source start) := by
          conv_lhs => rw [← List.take_append_drop counted s.events]
          rw [List.countP_append, hdrop, Nat.add_zero]
        have hle := @countP_le_deliveredSince limit
          (s.events.take counted) d.source start now hhi
        omega
    · rw [if_neg hin]
      exact h.within source start

theorem roomy_of_limited {s : Intake} {a : Action}
    (h : Limited limit (step limit bus s a)) : Roomy limit s a := by
  cases a with
  | receive d now => trivial
  | processed id now => trivial
  | advance i dbNow =>
    intro d now counted hi hs start hlo hhi _
    have hin : inWindow limit d.source start (d.event s.nextId now)
        = true := by
      unfold inWindow
      simp only [Bool.and_eq_true, decide_eq_true_eq]
      exact ⟨⟨rfl, hlo⟩, hhi⟩
    have hle := h.within d.source start
    change ((MemoryOS.advance limit bus s i dbNow).events.countP _ : Int)
      ≤ _ at hle
    rw [advance_insert hi hs, countP_insert, if_pos hin] at hle
    omega

/-- Every window stays within the limit, along every interleaving of calls,
exactly when each insert made after another call's finds room. -/
theorem rate_limit_iff (limit : RateLimit) (bus : EventBus) (s : Intake)
    (acts : List Action) (hcalls : s.calls = []) (hstart : Limited limit s) :
    (machine limit bus).Always (Limited limit) s acts
      ↔ (machine limit bus).EveryStep (Roomy limit) s acts := by
  apply Machine.always_iff_everyStep fun s => Limited limit s ∧ Counted limit s
  · exact fun s hs => hs.1
  · intro s a s' es hs hstep hr
    cases hstep
    exact ⟨hs.1.step hs.2 hr, hs.2.step a⟩
  · intro s a s' es hs hstep hl
    cases hstep
    exact roomy_of_limited hl
  · refine ⟨hstart, hstart.refused, fun d now counted hmem => ?_⟩
    rw [hcalls] at hmem
    cases hmem

-- ------ two counts, two inserts

/-- One event a minute. -/
def oneAMinute : RateLimit := ⟨1, 60000000⟩

/-- A delivery without a dedupe key. -/
def keystroke : Delivery := { kind := .fileFocused, source := "editor" }

/-- Two calls count before either inserts. -/
def twoAtOnce : List Action :=
  [.receive keystroke 0, .receive keystroke 1, .advance 0 2, .advance 1 3,
    .advance 0 4, .advance 1 5]

theorem empty_limited : Limited oneAMinute {} :=
  ⟨fun _ _ => show (0 : Int) ≤ 1 by decide, fun _ _ _ h => absurd h List.not_mem_nil⟩

theorem rate_limit_iff_twoAtOnce :
    (machine oneAMinute []).Always (Limited oneAMinute) {} twoAtOnce
      ↔ (machine oneAMinute []).EveryStep (Roomy oneAMinute) {} twoAtOnce :=
  rate_limit_iff oneAMinute [] {} twoAtOnce rfl empty_limited

/-- Both are stored, one microsecond apart. -/
theorem rate_limit_exceeded :
    ¬ ∀ (limit : RateLimit) (bus : EventBus) (s : Intake)
      (acts : List Action), s.calls = [] → Limited limit s →
      (machine limit bus).Always (Limited limit) s acts := by
  intro hclaim
  have hall := hclaim oneAMinute [] {} twoAtOnce rfl empty_limited
  have hlast : Limited oneAMinute (twoAtOnce.foldl (step oneAMinute []) {}) :=
    hall.last rfl
  have hwithin := hlast.within "editor" (-1)
  revert hwithin
  decide +kernel

end MemoryOS.Intake
