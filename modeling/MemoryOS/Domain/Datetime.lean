/-
`datetime`: a wall clock on a calendar that ends with the year 9999, and
moments, which have a time zone or have none.

An aware moment is a wall clock and the offset its zone has there; two in
different zones compare by the instant, two in one zone by the wall clock.
An instant is counted in microseconds from the calendar's first, in UTC.
-/
import MemoryOS.Domain.Values
import MemoryOS.Lib.Calendar

namespace MemoryOS

open Lib

-- ====== wall clocks

/-- `MAXYEAR`. -/
def maxYear : Nat := 9999

/-- The day number of the calendar's last day. -/
def maxDays : Nat := 3652058

/-- The microseconds of a day. -/
def dayMicros : Nat := 86400000000

/-- What the arithmetic of dates raises: `OverflowError`, "date value out of
range", or a `ValueError` about one field. -/
inductive DatetimeError
  | overflow
  | year (year : Nat)
  | month
  | day
  | naive (name : String)
deriving DecidableEq, Repr

/-- A `datetime` without its zone. -/
structure Datetime where
  date : Calendar.Date
  micros : Nat
  year_le : date.year ≤ maxYear
  micros_lt : micros < dayMicros
deriving DecidableEq, Repr

namespace Datetime

/-- The microseconds since the calendar's first instant, as UTC. -/
def instant (d : Datetime) : Int :=
  d.date.days * dayMicros + d.micros

variable {d e : Datetime} {n : Nat}

theorem days_le (d : Datetime) : d.date.days ≤ maxDays := by
  have hyear : d.date.year + 1 ≤ 10000 := Nat.succ_le_succ d.year_le
  have hlast := d.date.days_year.2
  have hle := Calendar.daysBeforeYear_le (Nat.le_add_left 1 d.date.year) hyear
  have hmax : Calendar.daysBeforeYear 10000 = maxDays + 1 := by decide
  omega

theorem year_le_maxYear {d : Calendar.Date} (h : d.days ≤ maxDays) :
    d.year ≤ maxYear := by
  by_contra hnot
  have hyear : 10000 ≤ d.year := by
    unfold maxYear at hnot
    omega
  have hfirst := d.days_year.1
  have hle := Calendar.daysBeforeYear_le (by decide) hyear
  have hmax : Calendar.daysBeforeYear 10000 = maxDays + 1 := by decide
  omega

theorem ofDays_year_le (h : n ≤ maxDays) :
    (Calendar.Date.ofDays n).year ≤ maxYear := by
  apply year_le_maxYear
  rw [Calendar.Date.days_ofDays]
  exact h

/-- The wall clock of a day number and a time. -/
def ofDays (n micros : Nat) (hn : n ≤ maxDays) (hm : micros < dayMicros) :
    Datetime where
  date := .ofDays n
  micros := micros
  year_le := ofDays_year_le hn
  micros_lt := hm

/-- The wall clock that UTC has at an instant, if the calendar has it. -/
def ofInstant (t : Int) : Except DatetimeError Datetime :=
  if h : 0 ≤ t ∧ t.toNat / dayMicros ≤ maxDays then
    .ok (ofDays (t.toNat / dayMicros) (t.toNat % dayMicros) h.2
      (Nat.mod_lt _ (by decide)))
  else .error .overflow

theorem lt_end_iff {t : Int} : t < ((maxDays + 1 : Nat) : Int) * dayMicros
    ↔ t.toNat / dayMicros ≤ maxDays := by
  have hday : dayMicros = 86400000000 := rfl
  rw [hday]
  omega

theorem ofInstant_eq_ok {t : Int} :
    ofInstant t = .ok d ↔ d.instant = t := by
  have hday : dayMicros = 86400000000 := rfl
  constructor
  · intro h
    unfold ofInstant at h
    split at h
    case isTrue hin =>
      rw [← Except.ok.inj h]
      show ((Calendar.Date.ofDays (t.toNat / dayMicros)).days * dayMicros : Int)
        + (t.toNat % dayMicros : Nat) = t
      rw [Calendar.Date.days_ofDays]
      have hdiv := Nat.div_add_mod t.toNat dayMicros
      rw [hday] at hdiv ⊢
      omega
    case isFalse => cases h
  · intro h
    have hmicros := d.micros_lt
    have hnat : t.toNat = d.micros + dayMicros * d.date.days := by
      rw [← h, instant]
      rw [hday]
      omega
    have hdiv : t.toNat / dayMicros = d.date.days := by
      rw [hnat, Nat.add_mul_div_left _ _ (by decide), Nat.div_eq_of_lt hmicros,
        Nat.zero_add]
    have hmod : t.toNat % dayMicros = d.micros := by
      rw [hnat, Nat.add_mul_mod_self_left, Nat.mod_eq_of_lt hmicros]
    have hnonneg : 0 ≤ t := by
      rw [← h, instant]
      exact Int.add_nonneg (Int.mul_nonneg (Int.natCast_nonneg _)
        (Int.natCast_nonneg _)) (Int.natCast_nonneg _)
    unfold ofInstant
    rw [dif_pos ⟨hnonneg, hdiv ▸ d.days_le⟩]
    congr 1
    unfold ofDays
    simp only [hdiv, hmod, Calendar.Date.ofDays_days]

@[simp] theorem ofInstant_instant (d : Datetime) : ofInstant d.instant = .ok d :=
  ofInstant_eq_ok.2 rfl

/-- `d + timedelta(days=n)`. -/
def addDays (d : Datetime) (n : Int) : Except DatetimeError Datetime :=
  ofInstant (d.instant + n * dayMicros)

theorem instant_eq_iff {n : Int} {m : Nat} (hm : m < dayMicros) :
    d.instant = n * dayMicros + m ↔ (d.date.days : Int) = n ∧ d.micros = m := by
  have hmicros := d.micros_lt
  unfold instant
  unfold dayMicros at hm hmicros ⊢
  omega

theorem addDays_eq_ok {n : Int} : d.addDays n = .ok e
    ↔ (e.date.days : Int) = d.date.days + n ∧ e.micros = d.micros := by
  have hsum : d.instant + n * dayMicros
      = (d.date.days + n) * dayMicros + d.micros := by
    unfold instant
    rw [Int.add_mul, Int.add_right_comm]
  unfold addDays
  rw [ofInstant_eq_ok, ← instant_eq_iff d.micros_lt, hsum]

theorem exists_addDays (d : Datetime) (hn : n ≤ maxDays) :
    ∃ e, d.addDays (n - d.date.days) = .ok e ∧ e.date.days = n
      ∧ e.micros = d.micros := by
  have hdays := Calendar.Date.days_ofDays n
  refine ⟨ofDays n d.micros hn d.micros_lt, addDays_eq_ok.2 ⟨?_, rfl⟩, hdays, rfl⟩
  show ((Calendar.Date.ofDays n).days : Int) = _
  rw [hdays]
  omega

/-- `d.weekday()`: Monday is 0. -/
def weekday (d : Datetime) : Nat := d.date.days % 7

/-- `d.replace(year=…, month=…, day=…)`. -/
def replace (d : Datetime) (year month day : Nat) :
    Except DatetimeError Datetime :=
  if hyear : 1 ≤ year ∧ year ≤ maxYear then
    if hmonth : 1 ≤ month ∧ month ≤ 12 then
      if hday : 1 ≤ day ∧ day ≤ Calendar.daysInMonth year month then
        .ok
          { d with
            date := ⟨year, month, day, hyear.1, hmonth.1, hmonth.2, hday.1, hday.2⟩
            year_le := hyear.2 }
      else .error .day
    else .error .month
  else .error (.year year)

theorem eq_of_parts (hdate : d.date = e.date)
    (hmicros : d.micros = e.micros) : d = e := by
  cases d
  cases e
  cases hdate
  cases hmicros
  rfl

theorem fields_of_replace {y m : Nat}
    (h : d.replace y m n = .ok e) :
    e.date.year = y ∧ e.date.month = m ∧ e.date.day = n ∧ e.micros = d.micros := by
  unfold replace at h
  split at h
  case isTrue =>
    split at h
    case isTrue =>
      split at h
      case isTrue =>
        rw [← Except.ok.inj h]
        exact ⟨rfl, rfl, rfl, rfl⟩
      case isFalse => cases h
    case isFalse => cases h
  case isFalse => cases h

theorem exists_replace (d : Datetime) (date : Calendar.Date)
    (h : date.year ≤ maxYear) :
    ∃ e, d.replace date.year date.month date.day = .ok e ∧ e.date = date
      ∧ e.micros = d.micros := by
  unfold replace
  rw [dif_pos ⟨date.year_pos, h⟩, dif_pos ⟨date.month_pos, date.month_le⟩,
    dif_pos ⟨date.day_pos, date.day_le⟩]
  exact ⟨_, rfl, rfl, rfl⟩

theorem replace_eq_ok {date : Calendar.Date} :
    d.replace date.year date.month date.day = .ok e
      ↔ e.date = date ∧ e.micros = d.micros := by
  constructor
  · intro h
    obtain ⟨hyear, hmonth, hday, hmicros⟩ := fields_of_replace h
    exact ⟨Calendar.Date.eq_of_fields hyear hmonth hday, hmicros⟩
  · intro h
    obtain ⟨e', he', hdate, hmicros⟩ := d.exists_replace date (h.1 ▸ e.year_le)
    rw [he', eq_of_parts (hdate.trans h.1.symm) (hmicros.trans h.2.symm)]

/-- `d.replace(hour=0, minute=0, second=0, microsecond=0)`. -/
def midnight (d : Datetime) : Datetime :=
  { d with micros := 0, micros_lt := by decide }

end Datetime

-- ========= moments

/-- A `tzinfo`: UTC, or another object. -/
inductive Zone
  | utc
  | other (id : Id)
deriving DecidableEq, Repr

/-- A zone, and the offset it has at a moment. -/
structure Tz where
  zone : Zone
  offset : Int
  utc : zone = .utc → offset = 0
deriving DecidableEq, Repr

/-- A `datetime`, naive or aware. -/
structure Moment where
  wall : Datetime
  tz : Option Tz
deriving DecidableEq, Repr

/-- An aware one. -/
structure Aware where
  wall : Datetime
  tz : Tz
deriving DecidableEq, Repr

namespace Aware

/-- The instant of a moment: its wall clock less its offset. -/
def instant (m : Aware) : Int := m.wall.instant - m.tz.offset

/-- A wall clock in UTC. -/
def utc (d : Datetime) : Aware := ⟨d, .utc, 0, fun _ => rfl⟩

/-- `a < b`. In one zone the wall clocks are compared. -/
def lt (a b : Aware) : Bool :=
  if a.tz.zone = b.tz.zone then decide (a.wall.instant < b.wall.instant)
  else decide (a.instant < b.instant)

/-- `a <= b`. -/
def le (a b : Aware) : Bool :=
  if a.tz.zone = b.tz.zone then decide (a.wall.instant ≤ b.wall.instant)
  else decide (a.instant ≤ b.instant)

/-- An aware moment, as a `datetime`. -/
def moment (m : Aware) : Moment := ⟨m.wall, some m.tz⟩

/-- `m.astimezone(UTC)`. -/
def astimezone (m : Aware) : Except DatetimeError Datetime :=
  Datetime.ofInstant m.instant

@[simp] theorem instant_utc (d : Datetime) : (utc d).instant = d.instant :=
  Int.sub_zero _

theorem le_eq_not_lt (a b : Aware) : b.le a = !(a.lt b) := by
  unfold le lt
  by_cases h : a.tz.zone = b.tz.zone
  · rw [if_pos h, if_pos h.symm, ← decide_not]
    exact decide_eq_decide.2 Int.not_lt.symm
  · rw [if_neg h, if_neg (Ne.symm h), ← decide_not]
    exact decide_eq_decide.2 Int.not_lt.symm

theorem utc_lt (d : Datetime) (m : Aware) :
    (utc d).lt m = decide (d.instant < m.instant) := by
  unfold lt
  split
  case isTrue h =>
    have hzero : m.tz.offset = 0 := m.tz.utc h.symm
    unfold instant
    rw [hzero, Int.sub_zero]
    rfl
  case isFalse => rw [instant_utc]

end Aware

end MemoryOS
