/-
Period arithmetic and the activity histogram (`application/temporal.py`:
`truncate`, `advance`, `bucket_starts`, `memories_in_range`,
`activity_by_period`).

A period is a run of days. By day numbers, `truncate` gives the first day of
a moment's period and `advance` the first after it, where the calendar has
that (`truncateUtc_eq`, `advance_eq_ok`).

The database counts by truncated moment, and the code generates the buckets
that the counts are placed into. `dateTrunc` is the database's `date_trunc`
in UTC.
-/
import Mathlib.Data.Char
import Mathlib.Data.Int.ConditionallyCompleteOrder
import Mathlib.Data.List.Dedup
import Mathlib.Data.List.Lex
import Mathlib.Data.List.Sort
import Mathlib.Data.Prod.Lex
import Mathlib.Data.String.Basic
import MemoryOS.Domain.Datetime
import MemoryOS.Graph.Projection
import MemoryOS.Temporal.AsOf

namespace MemoryOS

open Lib

namespace Temporal

/-- `Period`. -/
inductive Period
  | day | week | month
deriving DecidableEq, Repr

/-- `Period.value`, a field name of `date_trunc`. -/
def Period.value : Period → String
  | .day => "day"
  | .week => "week"
  | .month => "month"

/-- `_require_aware`. -/
def requireAware (moment : Moment) (name : String) :
    Except DatetimeError Aware :=
  match moment.tz with
  | none => .error (.naive name)
  | some tz => .ok ⟨moment.wall, tz⟩

/-- What `truncate` does to a moment that is in UTC. -/
def truncateUtc (utc : Datetime) : Period → Except DatetimeError Datetime
  | .day => .ok utc.midnight
  | .week => utc.midnight.addDays (-(utc.midnight.weekday : Int))
  | .month => utc.midnight.replace utc.date.year utc.date.month 1

/-- `truncate`. -/
def truncate (moment : Moment) (period : Period) :
    Except DatetimeError Aware :=
  match requireAware moment "moment" with
  | .error e => .error e
  | .ok aware =>
    match aware.astimezone with
    | .error e => .error e
    | .ok utc => (truncateUtc utc period).map Aware.utc

/-- What `advance` does to the start of a period, in UTC. -/
def advanceStart (start : Datetime) : Period → Except DatetimeError Datetime
  | .day => start.addDays 1
  | .week => start.addDays 7
  | .month => start.replace (start.date.year + start.date.month / 12)
      (start.date.month % 12 + 1) start.date.day

/-- `advance`. -/
def advance (moment : Moment) (period : Period) :
    Except DatetimeError Aware :=
  match truncate moment period with
  | .error e => .error e
  | .ok start => (advanceStart start.wall period).map Aware.utc

-- ====== periods as runs of days

namespace Period

/-- The number of days that the period of a day has. -/
def length (period : Period) (n : Nat) : Nat :=
  match period with
  | .day => 1
  | .week => 7
  | .month => Calendar.daysInMonth (Calendar.Date.ofDays n).year
      (Calendar.Date.ofDays n).month

/-- The first day of the period of a day. -/
def first (period : Period) (n : Nat) : Nat :=
  match period with
  | .day => n
  | .week => n - n % 7
  | .month => (Calendar.Date.ofDays n).monthStart.days

/-- The first day of the period after a day's. -/
def next (period : Period) (n : Nat) : Nat :=
  period.first n + period.length n

/-- The first day of the last period that the calendar has a day of. -/
def last : Period → Nat
  | .day => 3652058
  | .week => 3652054
  | .month => 3652028

variable {period : Period} {n k : Nat}

theorem first_le (period : Period) (n : Nat) : period.first n ≤ n := by
  cases period with
  | day => exact Nat.le_refl n
  | week => exact Nat.sub_le n _
  | month =>
    have h := (Calendar.Date.ofDays n).monthStart_le
    rw [Calendar.Date.days_ofDays] at h
    exact h

theorem lt_next (period : Period) (n : Nat) : n < period.next n := by
  cases period with
  | day => exact Nat.lt_succ_self n
  | week =>
    show n < n - n % 7 + 7
    omega
  | month =>
    have h := (Calendar.Date.ofDays n).lt_monthEnd
    rw [Calendar.Date.days_ofDays] at h
    exact h

theorem first_eq (h : period.first n ≤ k) (h' : k < period.next n) :
    period.first k = period.first n := by
  cases period with
  | day =>
    have hlt : k < n + 1 := h'
    exact Nat.le_antisymm (Nat.lt_succ_iff.1 hlt) h
  | week =>
    have hle : n - n % 7 ≤ k := h
    have hlt : k < n - n % 7 + 7 := h'
    show k - k % 7 = n - n % 7
    omega
  | month =>
    have hmonth := Calendar.Date.monthStart_eq (a := Calendar.Date.ofDays n)
      (b := Calendar.Date.ofDays k) (by rw [Calendar.Date.days_ofDays]; exact h)
      (by rw [Calendar.Date.days_ofDays]; exact h')
    exact congrArg Calendar.Date.days hmonth

theorem first_first (period : Period) (n : Nat) :
    period.first (period.first n) = period.first n :=
  first_eq (Nat.le_refl _)
    (Nat.lt_of_le_of_lt (first_le period n) (lt_next period n))

theorem next_eq (h : period.first k = period.first n) :
    period.next k = period.next n := by
  unfold next
  rw [h]
  cases period with
  | day => rfl
  | week => rfl
  | month =>
    have hstart := Calendar.Date.days_injective h
    show _ + Calendar.daysInMonth (Calendar.Date.ofDays k).monthStart.year
        (Calendar.Date.ofDays k).monthStart.month = _
    rw [hstart]
    rfl

theorem first_next (period : Period) (n : Nat) :
    period.first (period.next n) = period.next n := by
  cases period with
  | day => rfl
  | week =>
    show n - n % 7 + 7 - (n - n % 7 + 7) % 7 = n - n % 7 + 7
    omega
  | month =>
    show (Calendar.Date.ofDays ((Calendar.Date.ofDays n).monthStart.days
      + Calendar.daysInMonth (Calendar.Date.ofDays n).year
        (Calendar.Date.ofDays n).month)).monthStart.days
      = (Calendar.Date.ofDays n).monthStart.days
        + Calendar.daysInMonth (Calendar.Date.ofDays n).year
          (Calendar.Date.ofDays n).month
    rw [← Calendar.Date.days_nextMonth, Calendar.Date.ofDays_days]
    rfl

theorem first_last (period : Period) : period.first period.last = period.last := by
  cases period <;> decide +kernel

theorem maxDays_lt_next_last (period : Period) :
    maxDays < period.next period.last := by
  cases period <;> decide +kernel

theorem last_le (period : Period) : period.last ≤ maxDays := by
  cases period <;> decide

theorem next_le_iff (hn : n ≤ maxDays) :
    period.next n ≤ maxDays ↔ period.first n < period.last := by
  have hnext := maxDays_lt_next_last period
  have hfirst := first_last period
  constructor
  · intro h
    by_contra hnot
    have hsame : period.first n = period.first period.last := by
      apply first_eq
      · have hle := first_le period n
        omega
      · omega
    rw [next_eq hsame] at h
    omega
  · intro h
    by_contra hnot
    have hsame : period.first period.last = period.first n := by
      have hle := last_le period
      apply first_eq <;> omega
    omega

theorem first_le_last (hn : n ≤ maxDays) : period.first n ≤ period.last := by
  by_contra hnot
  have hle := first_le period n
  have hnext := maxDays_lt_next_last period
  have hlast := first_last period
  have hsame : period.first n = period.first period.last := by
    apply first_eq <;> omega
  omega

theorem next_le_last (h : period.next n ≤ maxDays) :
    period.next n ≤ period.last := by
  by_contra hnot
  have hlt := lt_next period n
  have hfirst := (next_le_iff (by omega)).1 h
  have hsame : period.first period.last = period.first n := by
    apply first_eq <;> omega
  rw [first_last] at hsame
  omega

end Period

-- ====== what they compute

variable {d e : Datetime} {period : Period}

theorem truncateUtc_ok (d : Datetime) (period : Period) :
    ∃ s, truncateUtc d period = .ok s ∧ s.date.days = period.first d.date.days
      ∧ s.micros = 0 := by
  cases period with
  | day => exact ⟨d.midnight, rfl, rfl, rfl⟩
  | week =>
    have hle : d.date.days - d.date.days % 7 ≤ maxDays :=
      Nat.le_trans (Nat.sub_le _ _) d.days_le
    obtain ⟨s, hs, hdays, hmicros⟩ := d.midnight.exists_addDays hle
    refine ⟨s, ?_, hdays, hmicros⟩
    rw [← hs]
    show d.midnight.addDays (-((d.date.days % 7 : Nat) : Int)) = _
    congr 1
    show _ = ((d.date.days - d.date.days % 7 : Nat) : Int) - (d.date.days : Int)
    omega
  | month =>
    obtain ⟨s, hs, hdate, hmicros⟩ := d.midnight.exists_replace
      d.date.monthStart d.year_le
    refine ⟨s, hs, ?_, hmicros⟩
    rw [hdate]
    show _ = (Calendar.Date.ofDays d.date.days).monthStart.days
    rw [Calendar.Date.ofDays_days]

theorem advanceStart_eq_ok {s : Datetime}
    (hs : truncateUtc d period = .ok s) :
    advanceStart s period = .ok e
      ↔ e.date.days = period.next d.date.days ∧ e.micros = 0 := by
  obtain ⟨s', hs', hfirst, hmicros⟩ := truncateUtc_ok d period
  rw [hs] at hs'
  obtain rfl := Except.ok.inj hs'
  rw [Period.next, ← hfirst, ← hmicros]
  cases period with
  | day =>
    show s.addDays 1 = .ok e ↔ _
    rw [Datetime.addDays_eq_ok]
    show _ ↔ e.date.days = s.date.days + 1 ∧ _
    omega
  | week =>
    show s.addDays 7 = .ok e ↔ _
    rw [Datetime.addDays_eq_ok]
    show _ ↔ e.date.days = s.date.days + 7 ∧ _
    omega
  | month =>
    have hdate : s.date = d.date.monthStart := by
      apply Calendar.Date.days_injective
      rw [hfirst]
      show (Calendar.Date.ofDays d.date.days).monthStart.days = _
      rw [Calendar.Date.ofDays_days]
    have hday : s.date.day = s.date.nextMonth.day := by
      rw [hdate]
      rfl
    have hlength : s.date.nextMonth.days
        = s.date.days + Period.length .month d.date.days := by
      show _ = _ + Calendar.daysInMonth (Calendar.Date.ofDays d.date.days).year
        (Calendar.Date.ofDays d.date.days).month
      rw [Calendar.Date.days_nextMonth, Calendar.Date.ofDays_days, hdate]
      rfl
    show s.replace s.date.nextMonth.year s.date.nextMonth.month s.date.day = .ok e
      ↔ _
    rw [hday, Datetime.replace_eq_ok, ← hlength]
    exact and_congr_left' ⟨congrArg _, Calendar.Date.days_injective⟩

-- ====== at instants

/-- The start of the period of an instant. -/
def Period.startOf (period : Period) (t : Int) : Int :=
  period.first (t.toNat / dayMicros) * dayMicros

/-- The start of the period after an instant's. -/
def Period.nextOf (period : Period) (t : Int) : Int :=
  period.next (t.toNat / dayMicros) * dayMicros

/-- The start of the calendar's last period. -/
def Period.lastStart (period : Period) : Int := period.last * dayMicros

theorem Period.lastStart_le (period : Period) :
    period.lastStart ≤ maxDays * dayMicros := by
  unfold Period.lastStart
  exact Int.mul_le_mul_of_nonneg_right (Int.ofNat_le.2 period.last_le)
    (Int.natCast_nonneg _)

section
variable {t k : Int} {m s : Aware}

theorem startOf_le (period : Period) (ht : 0 ≤ t) : period.startOf t ≤ t := by
  have hle := period.first_le (t.toNat / dayMicros)
  have hday : dayMicros = 86400000000 := rfl
  unfold Period.startOf
  rw [hday] at hle ⊢
  omega

theorem lt_nextOf (period : Period) (t : Int) : t < period.nextOf t := by
  have hlt := period.lt_next (t.toNat / dayMicros)
  have hday : dayMicros = 86400000000 := rfl
  unfold Period.nextOf
  rw [hday] at hlt ⊢
  omega

theorem startOf_startOf (period : Period) (t : Int) :
    period.startOf (period.startOf t) = period.startOf t := by
  have hday : (period.startOf t).toNat / dayMicros
      = period.first (t.toNat / dayMicros) := by
    unfold Period.startOf
    rw [← Nat.cast_mul, Int.toNat_natCast]
    exact Nat.mul_div_left _ (by decide)
  show (period.first ((period.startOf t).toNat / dayMicros) : Int) * dayMicros = _
  rw [hday, Period.first_first]
  rfl

theorem startOf_nextOf (period : Period) (t : Int) :
    period.startOf (period.nextOf t) = period.nextOf t := by
  have hday : (period.nextOf t).toNat / dayMicros
      = period.next (t.toNat / dayMicros) := by
    unfold Period.nextOf
    rw [← Nat.cast_mul, Int.toNat_natCast]
    exact Nat.mul_div_left _ (by decide)
  show (period.first ((period.nextOf t).toNat / dayMicros) : Int) * dayMicros = _
  rw [hday, Period.first_next]
  rfl

theorem nextOf_startOf (period : Period) (t : Int) :
    period.nextOf (period.startOf t) = period.nextOf t := by
  have hday : (period.startOf t).toNat / dayMicros
      = period.first (t.toNat / dayMicros) := by
    unfold Period.startOf
    rw [← Nat.cast_mul, Int.toNat_natCast]
    exact Nat.mul_div_left _ (by decide)
  unfold Period.nextOf
  rw [hday, Period.next_eq (period.first_first _)]

theorem startOf_nonneg (period : Period) (t : Int) : 0 ≤ period.startOf t :=
  Int.mul_nonneg (Int.natCast_nonneg _) (Int.natCast_nonneg _)

theorem startOf_eq (h : period.startOf t ≤ k) (h' : k < period.nextOf t) :
    period.startOf k = period.startOf t := by
  have hk := Int.le_trans (startOf_nonneg period t) h
  have hday : dayMicros = 86400000000 := rfl
  have hsame : period.first (k.toNat / dayMicros)
      = period.first (t.toNat / dayMicros) := by
    unfold Period.startOf at h
    unfold Period.nextOf at h'
    rw [hday] at h h' ⊢
    apply Period.first_eq <;> omega
  unfold Period.startOf
  rw [hsame]

theorem nextOf_le_iff (ht : t.toNat / dayMicros ≤ maxDays) :
    period.next (t.toNat / dayMicros) ≤ maxDays
      ↔ period.startOf t < period.lastStart := by
  rw [Period.next_le_iff ht]
  have hday : dayMicros = 86400000000 := rfl
  unfold Period.startOf Period.lastStart
  rw [hday]
  omega

theorem of_astimezone {d : Datetime} (h : m.astimezone = .ok d) :
    d.instant = m.instant ∧ 0 ≤ m.instant
      ∧ d.date.days = m.instant.toNat / dayMicros := by
  have hinstant := Datetime.ofInstant_eq_ok.1 h
  have hmicros := d.micros_lt
  have hday : dayMicros = 86400000000 := rfl
  refine ⟨hinstant, ?_⟩
  rw [← hinstant, Datetime.instant]
  rw [hday] at hmicros ⊢
  omega

theorem instant_of_days {d : Datetime} {n : Nat} (hdays : d.date.days = n)
    (hmicros : d.micros = 0) : (Aware.utc d).instant = n * dayMicros := by
  rw [Aware.instant_utc, Datetime.instant, hdays, hmicros]
  exact Int.add_zero _

theorem truncate_of {d : Datetime} (h : m.astimezone = .ok d) :
    ∃ start, truncateUtc d period = .ok start
      ∧ truncate m.moment period = .ok (Aware.utc start)
      ∧ (Aware.utc start).instant = period.startOf m.instant := by
  have haware : requireAware m.moment "moment" = .ok m := rfl
  obtain ⟨start, hstart, hdays, hmicros⟩ := truncateUtc_ok d period
  refine ⟨start, hstart, ?_, ?_⟩
  · unfold truncate
    rw [haware]
    simp only [h, hstart]
    rfl
  · rw [instant_of_days hdays hmicros, (of_astimezone h).2.2]
    rfl

theorem truncate_error {e : DatetimeError} (h : m.astimezone = .error e) :
    truncate m.moment period = .error e := by
  have haware : requireAware m.moment "moment" = .ok m := rfl
  unfold truncate
  rw [haware]
  simp only [h]

theorem truncate_eq_ok (h : truncate m.moment period = .ok s) :
    s.instant = period.startOf m.instant ∧ s.instant ≤ period.lastStart
      ∧ ∃ d, s = Aware.utc d := by
  cases hutc : m.astimezone with
  | error e =>
    rw [truncate_error hutc] at h
    cases h
  | ok d =>
    obtain ⟨start, -, htruncate, hinstant⟩ := @truncate_of period _ _ hutc
    obtain ⟨-, -, hdays⟩ := of_astimezone hutc
    rw [htruncate] at h
    rw [← Except.ok.inj h, hinstant]
    refine ⟨rfl, ?_, start, rfl⟩
    have hle := @Period.first_le_last period _ (hdays ▸ d.days_le)
    unfold Period.startOf Period.lastStart
    exact Int.mul_le_mul_of_nonneg_right (Int.ofNat_le.2 hle)
      (Int.natCast_nonneg _)

theorem calendar_of_truncate (h : truncate m.moment period = .ok s) :
    0 ≤ m.instant ∧ m.instant.toNat / dayMicros ≤ maxDays := by
  cases hutc : m.astimezone with
  | error e =>
    rw [truncate_error hutc] at h
    cases h
  | ok d =>
    obtain ⟨-, hnonneg, hdays⟩ := of_astimezone hutc
    exact ⟨hnonneg, hdays ▸ d.days_le⟩

theorem exists_truncate (period : Period) (h : 0 ≤ m.instant)
    (h' : m.instant.toNat / dayMicros ≤ maxDays) :
    ∃ s, truncate m.moment period = .ok s := by
  have hutc : ∃ d, m.astimezone = .ok d := by
    unfold Aware.astimezone Datetime.ofInstant
    rw [dif_pos ⟨h, h'⟩]
    exact ⟨_, rfl⟩
  obtain ⟨d, hd⟩ := hutc
  obtain ⟨start, -, htruncate, -⟩ := @truncate_of period _ _ hd
  exact ⟨_, htruncate⟩

theorem advance_of {d start : Datetime} (h : m.astimezone = .ok d)
    (hstart : truncateUtc d period = .ok start) :
    advance m.moment period = (advanceStart start period).map Aware.utc := by
  obtain ⟨start', hstart', htruncate, -⟩ := @truncate_of period _ _ h
  rw [hstart] at hstart'
  obtain rfl := Except.ok.inj hstart'
  unfold advance
  rw [htruncate]
  rfl

theorem advance_eq_ok (h : advance m.moment period = .ok s) :
    s.instant = period.nextOf m.instant ∧ s.instant ≤ period.lastStart
      ∧ ∃ d, s = Aware.utc d := by
  cases hutc : m.astimezone with
  | error e =>
    unfold advance at h
    rw [truncate_error hutc] at h
    cases h
  | ok d =>
    obtain ⟨start, hstart, -, -⟩ := @truncate_of period _ _ hutc
    rw [advance_of hutc hstart] at h
    cases hnext : advanceStart start period with
    | error e =>
      rw [hnext] at h
      cases h
    | ok e =>
      rw [hnext] at h
      rw [← Except.ok.inj h]
      obtain ⟨hdays, hmicros⟩ := (advanceStart_eq_ok hstart).1 hnext
      rw [instant_of_days hdays hmicros]
      have hle := Period.next_le_last (hdays ▸ e.days_le)
      refine ⟨by rw [(of_astimezone hutc).2.2]; rfl, ?_, e, rfl⟩
      unfold Period.lastStart
      exact Int.mul_le_mul_of_nonneg_right (Int.ofNat_le.2 hle)
        (Int.natCast_nonneg _)

theorem exists_advance (h : 0 ≤ m.instant)
    (h' : m.instant.toNat / dayMicros ≤ maxDays)
    (hlast : period.startOf m.instant < period.lastStart) :
    ∃ s, advance m.moment period = .ok s := by
  have hutc : m.astimezone = .ok (Datetime.ofDays (m.instant.toNat / dayMicros)
      (m.instant.toNat % dayMicros) h' (Nat.mod_lt _ (by decide))) := by
    unfold Aware.astimezone Datetime.ofInstant
    rw [dif_pos ⟨h, h'⟩]
  obtain ⟨start, hstart, -, -⟩ := @truncate_of period _ _ hutc
  have hnext := (nextOf_le_iff h').2 hlast
  have hdays := Calendar.Date.days_ofDays
    (period.next (m.instant.toNat / dayMicros))
  have hok : advanceStart start period
      = .ok (Datetime.ofDays (period.next (m.instant.toNat / dayMicros)) 0 hnext
        (by decide)) := by
    rw [advanceStart_eq_ok hstart, (of_astimezone hutc).2.2]
    exact ⟨hdays, rfl⟩
  rw [advance_of hutc hstart, hok]
  exact ⟨_, rfl⟩

end

end Temporal

end MemoryOS

namespace MemoryOS

namespace Temporal

/-- `Bucket`. -/
structure Bucket where
  start : Aware
  stop : Aware
  count : Nat
  byKind : List (MemoryKind × Nat)
deriving DecidableEq, Repr

-- ====== bucket starts

theorem advance_lt {cursor next : Aware} {period : Period}
    (h : advance cursor.moment period = .ok next) :
    cursor.instant < next.instant ∧ next.instant ≤ maxDays * dayMicros := by
  obtain ⟨hnext, hlast, -⟩ := advance_eq_ok h
  have hlt := lt_nextOf period cursor.instant
  rw [← hnext] at hlt
  exact ⟨hlt, Int.le_trans hlast period.lastStart_le⟩

/-- The loop of `bucket_starts`. -/
def bucketStartsFrom (stop : Aware) (period : Period) (cursor : Aware) :
    Except DatetimeError (List Aware) :=
  if cursor.lt stop then
    match _h : advance cursor.moment period with
    | .error e => .error e
    | .ok next =>
      match bucketStartsFrom stop period next with
      | .error e => .error e
      | .ok starts => .ok (cursor :: starts)
  else .ok []
termination_by (maxDays * dayMicros - cursor.instant).toNat
decreasing_by
  obtain ⟨hlt, hle⟩ := advance_lt ‹_›
  omega

/-- `bucket_starts`. -/
def bucketStarts (start stop : Aware) (period : Period) :
    Except DatetimeError (List Aware) :=
  if stop.le start then .ok []
  else
    match truncate start.moment period with
    | .error e => .error e
    | .ok cursor => bucketStartsFrom stop period cursor

-- ========= queries

/-- `_in_range`: `[start, end)`, and dated. -/
def happenedIn (start stop : Timestamp) (m : Memory) : Bool :=
  match m.occurredAt with
  | none => false
  | some t => decide (start ≤ t) && decide (t < stop)

/-- The `source_id` that a query may name. -/
def ofSource (sourceId : Option Id) (m : Memory) : Bool :=
  match sourceId with
  | none => true
  | some s => decide (m.sourceId = s)

/-- What both queries are over: current memories of the range and the source. -/
def inRange (db : Db) (start stop : Timestamp) (sourceId : Option Id) :
    List Memory :=
  ((live db).filter (happenedIn start stop)).filter (ofSource sourceId)

/-- The order of `memories_in_range`. -/
def rangeOrder (m : Memory) : WithTop Timestamp ×ₗ String :=
  toLex (m.occurredAt.elim ⊤ (↑·), m.externalKey)

/-- `memories_in_range`; no kinds, or an empty list of them, is every kind. -/
def memoriesInRange (db : Db) (start stop : Moment) (sourceId : Option Id)
    (kinds : List MemoryKind) : Except DatetimeError (List Memory) :=
  match requireAware start "start" with
  | .error e => .error e
  | .ok start =>
    match requireAware stop "end" with
    | .error e => .error e
    | .ok stop =>
      let found := inRange db start.instant stop.instant sourceId
      .ok ((if kinds.isEmpty then found
        else found.filter fun m => kinds.contains m.kind).insertionSort
          fun a b => rangeOrder a ≤ rangeOrder b)

/-- Where the database puts a memory. -/
def rowKey (dateTrunc : String → Timestamp → Timestamp) (period : Period)
    (m : Memory) : Option Timestamp × MemoryKind :=
  (m.occurredAt.map (dateTrunc period.value), m.kind)

/-- The rows of the histogram: one for each moment and kind, with its count. -/
def activityRows (dateTrunc : String → Timestamp → Timestamp) (period : Period)
    (found : List Memory) : List ((Option Timestamp × MemoryKind) × Nat) :=
  ((found.map (rowKey dateTrunc period)).dedup).map fun key =>
    (key, (found.filter fun m => decide (rowKey dateTrunc period m = key)).length)

/-- `by_kind.get(moment, {})`. -/
def byKind (rows : List ((Option Timestamp × MemoryKind) × Nat))
    (moment : Timestamp) : List (MemoryKind × Nat) :=
  (rows.filter fun r => decide (r.1.1 = some moment)).map fun r => (r.1.2, r.2)

/-- `sum(….values())`. -/
def total (counts : List (MemoryKind × Nat)) : Nat :=
  counts.foldr (fun c n => c.2 + n) 0

/-- The order of a bucket's kinds: the most first. -/
def kindOrder (c : MemoryKind × Nat) : Natᵒᵈ ×ₗ List Char :=
  toLex (OrderDual.toDual c.2, c.1.value)

/-- The bucket of a period: the rows at its start. -/
def bucketOf (rows : List ((Option Timestamp × MemoryKind) × Nat))
    (moment stop : Aware) : Bucket where
  start := moment
  stop := stop
  count := total (byKind rows moment.instant)
  byKind := (byKind rows moment.instant).insertionSort fun a b =>
    kindOrder a ≤ kindOrder b

/-- The buckets, one for each start. -/
def densify (rows : List ((Option Timestamp × MemoryKind) × Nat))
    (period : Period) : List Aware → Except DatetimeError (List Bucket)
  | [] => .ok []
  | moment :: rest =>
    match advance moment.moment period with
    | .error e => .error e
    | .ok stop =>
      match densify rows period rest with
      | .error e => .error e
      | .ok buckets => .ok (bucketOf rows moment stop :: buckets)

/-- `activity_by_period`. -/
def activityByPeriod (dateTrunc : String → Timestamp → Timestamp) (db : Db)
    (start stop : Moment) (period : Period) (sourceId : Option Id) :
    Except DatetimeError (List Bucket) :=
  match requireAware start "start" with
  | .error e => .error e
  | .ok start =>
    match requireAware stop "end" with
    | .error e => .error e
    | .ok stop =>
      match bucketStarts start stop period with
      | .error e => .error e
      | .ok starts =>
        densify (activityRows dateTrunc period
          (inRange db start.instant stop.instant sourceId)) period starts

end Temporal

end MemoryOS
