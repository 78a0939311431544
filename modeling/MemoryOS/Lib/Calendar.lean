/-
The proleptic Gregorian calendar: the dates from year 1 on, and the days
between them.

A date carries that it exists. Its day number counts from the first day of
year 1, which was a Monday; `Date.ofDays` is its inverse, and the order of
the numbers is that of year, month and day (`Date.days_lt_iff`).
-/
import Mathlib.Data.Nat.Find
import Mathlib.Tactic.IntervalCases

namespace MemoryOS.Lib

namespace Calendar

-- ====== the lengths

/-- A leap year. -/
def isLeap (y : Nat) : Bool :=
  decide (y % 4 = 0) && (decide (y % 100 ≠ 0) || decide (y % 400 = 0))

/-- The days of a year. -/
def daysInYear (y : Nat) : Nat :=
  if isLeap y then 366 else 365

/-- The days of a month; none where there is no such month. -/
def daysInMonth (y : Nat) : Nat → Nat
  | 2 => if isLeap y then 29 else 28
  | 4 | 6 | 9 | 11 => 30
  | 1 | 3 | 5 | 7 | 8 | 10 | 12 => 31
  | _ => 0

/-- The days of a year before a month. -/
def daysBeforeMonth (y : Nat) : Nat → Nat
  | 0 => 0
  | m + 1 => daysBeforeMonth y m + daysInMonth y m

/-- The days before a year. -/
def daysBeforeYear (y : Nat) : Nat :=
  365 * (y - 1) + (y - 1) / 4 + (y - 1) / 400 - (y - 1) / 100

theorem isLeap_iff {y : Nat} :
    isLeap y = true ↔ y % 4 = 0 ∧ (y % 100 ≠ 0 ∨ y % 400 = 0) := by
  simp [isLeap]

theorem div_succ (n k : Nat) :
    (n + 1) / k = n / k + if (n + 1) % k = 0 then 1 else 0 := by
  rw [Nat.succ_div]
  simp only [Nat.dvd_iff_mod_eq_zero]

theorem daysBeforeYear_succ {y : Nat} (hy : 1 ≤ y) :
    daysBeforeYear (y + 1) = daysBeforeYear y + daysInYear y := by
  obtain ⟨n, rfl⟩ := Nat.exists_eq_add_of_le' hy
  have hleap := isLeap_iff (y := n + 1)
  have hmod : (n + 1) % 400 = 0 → (n + 1) % 100 = 0 := by omega
  have hmod' : (n + 1) % 100 = 0 → (n + 1) % 4 = 0 := by omega
  have hle : n / 100 ≤ n := Nat.div_le_self n 100
  unfold daysBeforeYear daysInYear
  rw [Nat.add_sub_cancel, Nat.add_sub_cancel, div_succ n 4,
    div_succ n 100, div_succ n 400]
  generalize n / 4 = a, n / 100 = b, n / 400 = c at hle ⊢
  split <;> split <;> split <;> split <;> simp_all <;> omega

theorem daysBeforeMonth_end (y : Nat) :
    daysBeforeMonth y 13 = daysInYear y := by
  unfold daysInYear
  cases h : isLeap y <;> simp [daysBeforeMonth, daysInMonth, h]

theorem daysBeforeMonth_le (y : Nat) {m m' : Nat} (h : m ≤ m') :
    daysBeforeMonth y m ≤ daysBeforeMonth y m' := by
  induction h with
  | refl => exact Nat.le_refl _
  | step _ ih => exact Nat.le_trans ih (Nat.le_add_right _ _)

theorem daysBeforeMonth_add_le (y : Nat) {m : Nat} (h : m ≤ 12) :
    daysBeforeMonth y m + daysInMonth y m ≤ daysInYear y := by
  rw [← daysBeforeMonth_end]
  exact daysBeforeMonth_le y (Nat.succ_le_succ h)

theorem daysBeforeYear_le {y y' : Nat} (hy : 1 ≤ y) (h : y ≤ y') :
    daysBeforeYear y ≤ daysBeforeYear y' := by
  induction h with
  | refl => exact Nat.le_refl _
  | @step n hle ih =>
    rw [Nat.succ_eq_add_one, daysBeforeYear_succ (Nat.le_trans hy hle)]
    omega

theorem le_daysInMonth (y : Nat) {m : Nat} (hm : 1 ≤ m) (hm' : m ≤ 12) :
    28 ≤ daysInMonth y m ∧ daysInMonth y m ≤ 31 := by
  unfold daysInMonth
  interval_cases m <;> simp only <;> first | omega | (split <;> omega)

-- =========== dates

/-- A date that exists. -/
structure Date where
  year : Nat
  month : Nat
  day : Nat
  year_pos : 1 ≤ year
  month_pos : 1 ≤ month
  month_le : month ≤ 12
  day_pos : 1 ≤ day
  day_le : day ≤ daysInMonth year month
deriving DecidableEq, Repr

namespace Date

variable {a b : Date}

/-- The days before a date. -/
def days (d : Date) : Nat :=
  daysBeforeYear d.year + daysBeforeMonth d.year d.month + (d.day - 1)

/-- The first day of a date's month. -/
def monthStart (d : Date) : Date where
  year := d.year
  month := d.month
  day := 1
  year_pos := d.year_pos
  month_pos := d.month_pos
  month_le := d.month_le
  day_pos := Nat.le_refl 1
  day_le := Nat.le_trans (by decide) (le_daysInMonth d.year d.month_pos d.month_le).1

theorem days_month (d : Date) :
    daysBeforeYear d.year + daysBeforeMonth d.year d.month ≤ d.days
      ∧ d.days < daysBeforeYear d.year + daysBeforeMonth d.year (d.month + 1) := by
  have hpos := d.day_pos
  have hle := d.day_le
  unfold days
  rw [daysBeforeMonth]
  omega

theorem days_year (d : Date) :
    daysBeforeYear d.year ≤ d.days ∧ d.days < daysBeforeYear (d.year + 1) := by
  have hmonth := d.days_month
  have hend := daysBeforeMonth_add_le d.year d.month_le
  rw [daysBeforeMonth] at hmonth
  rw [daysBeforeYear_succ d.year_pos]
  omega

theorem days_lt_of (h : a.year < b.year ∨ a.year = b.year
      ∧ (a.month < b.month ∨ a.month = b.month ∧ a.day < b.day)) :
    a.days < b.days := by
  rcases h with hyear | ⟨hyear, hmonth | ⟨hmonth, hday⟩⟩
  · have hle : daysBeforeYear (a.year + 1) ≤ daysBeforeYear b.year :=
      daysBeforeYear_le (Nat.le_add_left 1 _) hyear
    have ha := a.days_year
    have hb := b.days_year
    omega
  · have hle : daysBeforeMonth a.year (a.month + 1)
        ≤ daysBeforeMonth a.year b.month :=
      daysBeforeMonth_le a.year hmonth
    have ha := a.days_month
    have hb := b.days_month
    rw [← hyear] at hb
    omega
  · have ha := a.day_pos
    unfold days
    rw [hyear, hmonth]
    omega

theorem days_lt_iff : a.days < b.days
    ↔ a.year < b.year ∨ a.year = b.year
      ∧ (a.month < b.month ∨ a.month = b.month ∧ a.day < b.day) := by
  constructor
  · intro h
    by_contra hnot
    have hback : a.days = b.days ∨ b.days < a.days := by
      by_cases hsame : a.year = b.year ∧ a.month = b.month ∧ a.day = b.day
      · left
        unfold days
        rw [hsame.1, hsame.2.1, hsame.2.2]
      · right
        exact days_lt_of (by omega)
    omega
  · exact days_lt_of

theorem eq_of_fields (hyear : a.year = b.year) (hmonth : a.month = b.month)
    (hday : a.day = b.day) : a = b := by
  cases a
  cases b
  cases hyear
  cases hmonth
  cases hday
  rfl

theorem days_injective (h : a.days = b.days) : a = b := by
  have hab := mt days_lt_iff.2 (Nat.not_lt.2 (Nat.le_of_eq h.symm))
  have hba := mt days_lt_iff.2 (Nat.not_lt.2 (Nat.le_of_eq h))
  apply eq_of_fields <;> omega

-- ------ months of dates

/-- The last day of a date's month. -/
def monthEnd (d : Date) : Date :=
  { d with
    day := daysInMonth d.year d.month
    day_pos := d.monthStart.day_le
    day_le := Nat.le_refl _ }

theorem days_monthStart (d : Date) : d.monthStart.days
    = daysBeforeYear d.year + daysBeforeMonth d.year d.month := rfl

theorem days_monthEnd (d : Date) :
    d.monthEnd.days + 1 = d.monthStart.days + daysInMonth d.year d.month := by
  have hpos : 1 ≤ daysInMonth d.year d.month := d.monthStart.day_le
  rw [days_monthStart]
  show daysBeforeYear d.year + daysBeforeMonth d.year d.month
      + (daysInMonth d.year d.month - 1) + 1 = _
  omega

theorem monthStart_le (d : Date) : d.monthStart.days ≤ d.days :=
  Nat.le_add_right _ _

theorem lt_monthEnd (d : Date) :
    d.days < d.monthStart.days + daysInMonth d.year d.month := by
  have hmonth := d.days_month
  rw [daysBeforeMonth] at hmonth
  rw [days_monthStart]
  omega

theorem monthStart_eq (h : a.monthStart.days ≤ b.days)
    (h' : b.days < a.monthStart.days + daysInMonth a.year a.month) :
    b.monthStart = a.monthStart := by
  have hlow := mt days_lt_iff.2 (Nat.not_lt.2 h)
  have hle : b.days ≤ a.monthEnd.days := by
    have hend := a.days_monthEnd
    omega
  have hhigh := mt days_lt_iff.2 (Nat.not_lt.2 hle)
  have hyear : b.year = a.year := by
    simp only [monthStart, monthEnd] at hlow hhigh
    omega
  have hmonth : b.month = a.month := by
    have hpos := b.day_pos
    simp only [monthStart, monthEnd] at hlow hhigh
    omega
  apply days_injective
  rw [days_monthStart, days_monthStart, hyear, hmonth]

/-- The first day of the next month. -/
def nextMonth (d : Date) : Date where
  year := d.year + d.month / 12
  month := d.month % 12 + 1
  day := 1
  year_pos := Nat.le_trans d.year_pos (Nat.le_add_right _ _)
  month_pos := Nat.le_add_left 1 _
  month_le := Nat.mod_lt d.month (by decide)
  day_pos := Nat.le_refl 1
  day_le := Nat.le_trans (by decide) (le_daysInMonth _ (Nat.le_add_left 1 _)
    (Nat.mod_lt d.month (by decide))).1

theorem days_nextMonth (d : Date) :
    d.nextMonth.days = d.monthStart.days + daysInMonth d.year d.month := by
  have hpos := d.month_pos
  have hle := d.month_le
  rw [days_monthStart]
  show daysBeforeYear (d.year + d.month / 12)
    + daysBeforeMonth (d.year + d.month / 12) (d.month % 12 + 1) + 0 = _
  by_cases hend : d.month = 12
  · have hyears := daysBeforeYear_succ d.year_pos
    rw [← daysBeforeMonth_end, daysBeforeMonth] at hyears
    rw [hend, Nat.div_self (by decide), Nat.mod_self, hyears, Nat.zero_add]
    show _ + 0 + 0 = _
    omega
  · have hsame : d.year + d.month / 12 = d.year := by omega
    have hnext : d.month % 12 = d.month := by omega
    rw [hsame, hnext, daysBeforeMonth]
    omega

end Date

-- ====== the date of a day number

/-- The year that a day is in, by cycles of 400, 100, 4 and 1 years. -/
def yearOf (n : Nat) : Nat :=
  let n₁ := n % 146097
  let n₂ := n₁ - min (n₁ / 36524) 3 * 36524
  let n₃ := n₂ % 1461
  400 * (n / 146097) + 100 * min (n₁ / 36524) 3 + 4 * (n₂ / 1461)
    + min (n₃ / 365) 3 + 1

theorem yearOf_pos (n : Nat) : 1 ≤ yearOf n := Nat.le_add_left 1 _

theorem daysBeforeYear_cycles {a b c d : Nat} (hb : b ≤ 3) (hc : c ≤ 24)
    (hd : d ≤ 3) :
    daysBeforeYear (400 * a + 100 * b + 4 * c + d + 1)
      = 146097 * a + 36524 * b + 1461 * c + 365 * d := by
  unfold daysBeforeYear
  omega

theorem year_cycles {n a b c d r : Nat} (hb : b ≤ 3) (hc : c ≤ 24) (hd : d ≤ 3)
    (hn : n = 146097 * a + 36524 * b + 1461 * c + 365 * d + r) (hr : r ≤ 365)
    (hyear : r = 365 → d = 3) (hcentury : c = 24 → d = 3 → r = 365 → b = 3) :
    daysBeforeYear (400 * a + 100 * b + 4 * c + d + 1) ≤ n
      ∧ n < daysBeforeYear (400 * a + 100 * b + 4 * c + d + 1 + 1) := by
  rw [daysBeforeYear_succ (Nat.le_add_left 1 _), daysBeforeYear_cycles hb hc hd]
  refine ⟨by omega, ?_⟩
  unfold daysInYear
  split
  case isTrue => omega
  case isFalse hleap =>
    -- the last day of a year of 365 days is not missed
    rw [isLeap_iff] at hleap
    have hshort : r ≠ 365 := by
      intro h
      have hlast := hyear h
      subst hlast
      apply hleap
      by_cases hend : c = 24
      · have hcycle := hcentury hend rfl h
        omega
      · omega
    omega

theorem min_div_mul_le (n k m : Nat) : min (n / k) m * k ≤ n :=
  Nat.le_trans (Nat.mul_le_mul_right k (Nat.min_le_left _ _)) (Nat.div_mul_le_self n k)

theorem yearOf_spec (n : Nat) :
    daysBeforeYear (yearOf n) ≤ n ∧ n < daysBeforeYear (yearOf n + 1) := by
  have hn := Nat.div_add_mod n 146097
  have hn₁ := Nat.mod_lt n (show 0 < 146097 by omega)
  generalize ha : n / 146097 = a, h₁ : n % 146097 = n₁ at hn hn₁
  have hb : min (n₁ / 36524) 3 ≤ 3 := Nat.min_le_right _ _
  have hb' : min (n₁ / 36524) 3 * 36524 ≤ n₁ := min_div_mul_le n₁ 36524 3
  have hn₂ : n₁ - min (n₁ / 36524) 3 * 36524 < 36525
      ∧ (n₁ - min (n₁ / 36524) 3 * 36524 = 36524 → min (n₁ / 36524) 3 = 3) := by
    omega
  generalize hbdef : min (n₁ / 36524) 3 = b at hb hb' hn₂
  generalize hn₂def : n₁ - b * 36524 = n₂ at hn₂
  have hn₃ := Nat.mod_lt n₂ (show 0 < 1461 by omega)
  have hdiv := Nat.div_add_mod n₂ 1461
  generalize hcdef : n₂ / 1461 = c, hn₃def : n₂ % 1461 = n₃ at hdiv hn₃
  have hd : min (n₃ / 365) 3 ≤ 3 := by omega
  have hd' : min (n₃ / 365) 3 * 365 ≤ n₃ := min_div_mul_le n₃ 365 3
  have hlast : n₃ - min (n₃ / 365) 3 * 365 ≤ 365
      ∧ (n₃ - min (n₃ / 365) 3 * 365 = 365 → min (n₃ / 365) 3 = 3) := by
    omega
  have hyear : yearOf n = 400 * a + 100 * b + 4 * c + min (n₃ / 365) 3 + 1 := by
    simp only [yearOf, ha, h₁, hbdef, hn₂def, hcdef, hn₃def]
  rw [hyear]
  generalize min (n₃ / 365) 3 = d at hd hd' hlast
  apply year_cycles (r := n₃ - d * 365) hb (by omega) hd (by omega) hlast.1 hlast.2
  intro hc hd hr
  omega

theorem dayOfYear_lt (n : Nat) :
    n - daysBeforeYear (yearOf n) < daysInYear (yearOf n) := by
  have hspec := yearOf_spec n
  rw [daysBeforeYear_succ (yearOf_pos n)] at hspec
  omega

/-- The month that a day of a year is in. -/
def monthOf (y k : Nat) : Nat :=
  Nat.findGreatest (fun m => daysBeforeMonth y m ≤ k) 12

theorem monthOf_spec {y k : Nat} (hk : k < daysInYear y) :
    1 ≤ monthOf y k ∧ monthOf y k ≤ 12 ∧ daysBeforeMonth y (monthOf y k) ≤ k
      ∧ k < daysBeforeMonth y (monthOf y k + 1) := by
  have hfirst : daysBeforeMonth y 1 ≤ k := Nat.zero_le k
  have hle : monthOf y k ≤ 12 := Nat.findGreatest_le 12
  refine ⟨Nat.le_findGreatest (by decide) hfirst, hle,
    Nat.findGreatest_spec (P := fun m => daysBeforeMonth y m ≤ k)
      (show 1 ≤ 12 by decide) hfirst, ?_⟩
  by_cases hlast : monthOf y k = 12
  · rw [hlast, daysBeforeMonth_end]
    exact hk
  · have hlt : monthOf y k + 1 ≤ 12 := by omega
    have hnext : ¬ daysBeforeMonth y (monthOf y k + 1) ≤ k :=
      Nat.findGreatest_is_greatest (P := fun m => daysBeforeMonth y m ≤ k)
        (n := 12) (Nat.lt_succ_self (monthOf y k)) hlt
    exact Nat.not_le.1 hnext

namespace Date

/-- The date of a day number. -/
def ofDays (n : Nat) : Date where
  year := yearOf n
  month := monthOf (yearOf n) (n - daysBeforeYear (yearOf n))
  day := n - daysBeforeYear (yearOf n) - daysBeforeMonth (yearOf n)
    (monthOf (yearOf n) (n - daysBeforeYear (yearOf n))) + 1
  year_pos := yearOf_pos n
  month_pos := (monthOf_spec (dayOfYear_lt n)).1
  month_le := (monthOf_spec (dayOfYear_lt n)).2.1
  day_pos := Nat.le_add_left 1 _
  day_le := by
    have hmonth := monthOf_spec (dayOfYear_lt n)
    rw [daysBeforeMonth] at hmonth
    omega

@[simp] theorem days_ofDays (n : Nat) : (ofDays n).days = n := by
  have hspec := yearOf_spec n
  have hmonth := (monthOf_spec (dayOfYear_lt n)).2.2.1
  show daysBeforeYear (yearOf n)
      + daysBeforeMonth (yearOf n) (monthOf (yearOf n) (n - daysBeforeYear (yearOf n)))
      + (n - daysBeforeYear (yearOf n) - daysBeforeMonth (yearOf n)
        (monthOf (yearOf n) (n - daysBeforeYear (yearOf n))) + 1 - 1) = n
  omega

@[simp] theorem ofDays_days (d : Date) : ofDays d.days = d :=
  days_injective (days_ofDays d.days)

end Date

end Calendar

end MemoryOS.Lib
