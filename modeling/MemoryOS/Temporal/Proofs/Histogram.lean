/-
The activity histogram counts every memory of its range once, where the range
ends before the calendar's last period does not.

The loop's cursor is always the start of a period (`Starts`), which the next
one follows: the buckets tile the range (`walk_tiles`), and a moment truncates
to the start of the bucket it is in, so that the database's counts are counts
of the buckets (`count_eq`). The loop asks for the period after the last, and
raises there (`walk_error`): the histogram is drawn exactly when the range
reaches no moment of it (`activity_iff`).
-/
import MemoryOS.Lib.Tiling
import MemoryOS.Temporal.Histogram

namespace MemoryOS

open Lib

namespace Temporal

-- ====== statement vocabulary

/-- The stretch of time of a bucket. -/
def Bucket.span (b : Bucket) : Int × Int := (b.start.instant, b.stop.instant)

/-- A memory happened in a bucket. -/
def Bucket.holds (b : Bucket) (m : Memory) : Bool :=
  happenedIn b.start.instant b.stop.instant m

/-- The database truncates as the code does. -/
def TruncatesAlike (dateTrunc : String → Timestamp → Timestamp)
    (period : Period) : Prop :=
  ∀ m s, truncate (Aware.moment m) period = .ok s →
    dateTrunc period.value m.instant = s.instant

/-- The buckets tile a stretch around the range, each memory of the range is in
one, and they count the memories. -/
structure Drawn (found : List Memory) (start stop : Int) (buckets : List Bucket) :
    Prop where
  tiles : ∃ a b, a ≤ start ∧ stop ≤ b ∧ Tiles a b (buckets.map Bucket.span)
  once : ∀ m ∈ found, (buckets.filter fun b => b.holds m).length = 1
  counts : ∀ b ∈ buckets, b.count = (found.filter b.holds).length
  sum : buckets.foldr (fun b n => b.count + n) 0 = found.length

/-- The range starts in the calendar, and ends before the calendar's last
period begins or as it does. -/
def InCalendar (start stop : Aware) (period : Period) : Prop :=
  0 ≤ start.instant ∧ start.instant < ((maxDays + 1 : Nat) : Int) * dayMicros
    ∧ stop.instant ≤ period.lastStart

variable {period : Period} {start stop cursor next : Aware} {starts : List Aware}
  {t : Int}

-- ====== starts of periods

/-- The start of a period, in UTC. -/
structure Starts (period : Period) (cursor : Aware) : Prop where
  utc : ∃ d, cursor = Aware.utc d
  start : period.startOf cursor.instant = cursor.instant
  le_last : cursor.instant ≤ period.lastStart

theorem Starts.lt (h : Starts period cursor) :
    cursor.lt stop = decide (cursor.instant < stop.instant) := by
  obtain ⟨d, rfl⟩ := h.utc
  rw [Aware.utc_lt, Aware.instant_utc]

theorem Starts.nonneg (h : Starts period cursor) : 0 ≤ cursor.instant := by
  rw [← h.start]
  exact startOf_nonneg period _

theorem Starts.days_le (h : Starts period cursor) :
    cursor.instant.toNat / dayMicros ≤ maxDays := by
  have hle := Int.le_trans h.le_last period.lastStart_le
  have hday : dayMicros = 86400000000 := rfl
  rw [hday] at hle ⊢
  omega

theorem Starts.of_truncate {m : Aware} (h : truncate m.moment period = .ok cursor) :
    Starts period cursor := by
  obtain ⟨hstart, hle, hutc⟩ := truncate_eq_ok h
  refine ⟨hutc, ?_, hle⟩
  rw [hstart, startOf_startOf]

theorem Starts.advance (h : advance cursor.moment period = .ok next) :
    Starts period next := by
  obtain ⟨hnext, hle, hutc⟩ := advance_eq_ok h
  refine ⟨hutc, ?_, hle⟩
  rw [hnext, startOf_nextOf]

theorem Starts.startOf_iff (h : Starts period cursor) (ht : 0 ≤ t) :
    period.startOf t = cursor.instant
      ↔ cursor.instant ≤ t ∧ t < period.nextOf cursor.instant := by
  constructor
  · intro hstart
    rw [← hstart, nextOf_startOf]
    exact ⟨startOf_le period ht, lt_nextOf period t⟩
  · intro hin
    have hsame := startOf_eq (h.start.symm ▸ hin.1) hin.2
    rw [hsame, h.start]

-- ======== the loop

theorem walk_stop (h : ¬ cursor.lt stop = true) :
    bucketStartsFrom stop period cursor = .ok [] := by
  rw [bucketStartsFrom, if_neg h]

theorem walk_next (h : cursor.lt stop = true)
    (hnext : advance cursor.moment period = .ok next) :
    bucketStartsFrom stop period cursor
      = (bucketStartsFrom stop period next).map (cursor :: ·) := by
  rw [bucketStartsFrom, if_pos h]
  split
  case h_1 e he =>
    rw [hnext] at he
    cases he
  case h_2 next' he =>
    rw [hnext] at he
    obtain rfl := Except.ok.inj he
    cases bucketStartsFrom stop period next <;> rfl

theorem walk_raises {e : DatetimeError} (h : cursor.lt stop = true)
    (hnext : advance cursor.moment period = .error e) :
    bucketStartsFrom stop period cursor = .error e := by
  rw [bucketStartsFrom, if_pos h]
  split
  case h_1 e' he =>
    rw [hnext] at he
    rw [Except.error.inj he]
  case h_2 next' he =>
    rw [hnext] at he
    cases he

theorem walk_ind (stop : Aware) (period : Period) {P : Aware → Prop}
    (ends : ∀ c, ¬ Aware.lt c stop = true → P c)
    (raises : ∀ c e, Aware.lt c stop = true → advance c.moment period = .error e → P c)
    (step : ∀ c next, Aware.lt c stop = true → advance c.moment period = .ok next →
      P next → P c) (cursor : Aware) : P cursor := by
  by_cases h : cursor.lt stop = true
  · cases hnext : advance cursor.moment period with
    | error e => exact raises cursor e h hnext
    | ok next => exact step cursor next h hnext (walk_ind stop period ends raises step next)
  · exact ends cursor h
termination_by (maxDays * dayMicros - cursor.instant).toNat
decreasing_by
  obtain ⟨hlt, hle⟩ := advance_lt hnext
  omega

theorem walk_ok (hstop : stop.instant ≤ period.lastStart)
    (hcursor : Starts period cursor) :
    ∃ starts, bucketStartsFrom stop period cursor = .ok starts := by
  induction cursor using walk_ind stop period with
  | ends c h => exact ⟨[], walk_stop h⟩
  | raises c e h hraises =>
    rw [hcursor.lt, decide_eq_true_eq] at h
    obtain ⟨next, hnext⟩ := exists_advance hcursor.nonneg hcursor.days_le
      (by rw [hcursor.start]; omega)
    rw [hnext] at hraises
    cases hraises
  | step c next h hnext ih =>
    obtain ⟨starts, hstarts⟩ := ih (.advance hnext)
    rw [walk_next h hnext, hstarts]
    exact ⟨c :: starts, rfl⟩

theorem walk_error (hstop : period.lastStart < stop.instant)
    (hcursor : Starts period cursor) :
    bucketStartsFrom stop period cursor ≠ .ok starts := by
  induction cursor using walk_ind stop period generalizing starts with
  | ends c h =>
    rw [hcursor.lt, decide_eq_true_eq] at h
    have hle := hcursor.le_last
    omega
  | raises c e h hraises =>
    rw [walk_raises h hraises]
    intro hok
    cases hok
  | step c next h hnext ih =>
    rw [walk_next h hnext]
    intro hok
    cases hrest : bucketStartsFrom stop period next with
    | error e =>
      rw [hrest] at hok
      cases hok
    | ok rest => exact ih (.advance hnext) hrest

/-- What a bucket is of: a period of the calendar, and the rows at its start. -/
structure Filled (rows : List ((Option Timestamp × MemoryKind) × Nat))
    (period : Period) (b : Bucket) : Prop where
  start : Starts period b.start
  stop : b.stop.instant = period.nextOf b.start.instant
  count : b.count = total (byKind rows b.start.instant)

theorem walk_tiles (rows : List ((Option Timestamp × MemoryKind) × Nat))
    (hcursor : Starts period cursor)
    (h : bucketStartsFrom stop period cursor = .ok starts) :
    ∃ buckets b, densify rows period starts = .ok buckets ∧ stop.instant ≤ b
      ∧ Tiles cursor.instant b (buckets.map Bucket.span)
      ∧ ∀ bucket ∈ buckets, Filled rows period bucket := by
  induction cursor using walk_ind stop period generalizing starts with
  | ends c hends =>
    rw [walk_stop hends] at h
    obtain rfl := Except.ok.inj h
    rw [hcursor.lt, decide_eq_true_eq] at hends
    exact ⟨[], c.instant, rfl, Int.not_lt.1 hends, .nil _, by simp⟩
  | raises c e hlt hraises =>
    rw [walk_raises hlt hraises] at h
    cases h
  | step c next hlt hnext ih =>
    rw [walk_next hlt hnext] at h
    cases hrest : bucketStartsFrom stop period next with
    | error e =>
      rw [hrest] at h
      cases h
    | ok rest =>
      rw [hrest] at h
      obtain rfl := Except.ok.inj h
      obtain ⟨buckets, b, hbuckets, hstop, htiles, hfilled⟩ :=
        ih (.advance hnext) hrest
      refine ⟨bucketOf rows c next :: buckets, b, ?_, hstop, ?_, ?_⟩
      · rw [densify, hnext]
        simp only [hbuckets]
      · exact .cons (advance_lt hnext).1 htiles
      · intro bucket hbucket
        rcases List.mem_cons.1 hbucket with rfl | hbucket
        · exact ⟨hcursor, (advance_eq_ok hnext).1, rfl⟩
        · exact hfilled bucket hbucket

-- ========== counts

section
variable {dateTrunc : String → Timestamp → Timestamp} {db : Db} {m : Memory}
  {found : List Memory} {sourceId : Option Id} {moment : Timestamp} {b : Bucket}

theorem total_map {κ : Type} (counts : κ → MemoryKind × Nat) (keys : List κ) :
    total (keys.map counts) = keys.foldr (fun k n => (counts k).2 + n) 0 := by
  unfold total
  rw [List.foldr_map]

theorem total_byKind (moment : Timestamp) :
    total (byKind (activityRows dateTrunc period found) moment)
      = (found.filter fun m =>
        decide ((rowKey dateTrunc period m).1 = some moment)).length := by
  have hkeys : ((found.map (rowKey dateTrunc period)).dedup.filter
      fun key => decide (key.1 = some moment)).Nodup :=
    (List.nodup_dedup _).filter _
  have hrows : byKind (activityRows dateTrunc period found) moment
      = ((found.map (rowKey dateTrunc period)).dedup.filter
        fun key => decide (key.1 = some moment)).map fun key =>
          (key.2, (found.filter fun m =>
            decide (rowKey dateTrunc period m = key)).length) := by
    unfold byKind activityRows
    rw [List.filter_map, List.map_map]
    rfl
  rw [hrows, total_map]
  apply Tally.tally_keys hkeys
  intro m hm
  rw [List.mem_filter, List.mem_dedup]
  exact (and_iff_right (List.mem_map_of_mem hm)).symm

/-- The times of the memories are in the calendar. -/
def Datable (found : List Memory) : Prop :=
  ∀ m ∈ found, ∃ t : Int, m.occurredAt = some t ∧ 0 ≤ t
    ∧ t.toNat / dayMicros ≤ maxDays

theorem dateTrunc_eq (halike : TruncatesAlike dateTrunc period) (h : 0 ≤ t)
    (h' : t.toNat / dayMicros ≤ maxDays) :
    dateTrunc period.value t = period.startOf t := by
  have hutc : Datetime.ofInstant t = .ok (Datetime.ofDays (t.toNat / dayMicros)
      (t.toNat % dayMicros) h' (Nat.mod_lt _ (by decide))) := by
    unfold Datetime.ofInstant
    rw [dif_pos ⟨h, h'⟩]
  have hinstant := Datetime.ofInstant_eq_ok.1 hutc
  rw [← Aware.instant_utc] at hinstant
  obtain ⟨s, hs⟩ := exists_truncate period (by rw [hinstant]; exact h)
    (by rw [hinstant]; exact h')
  have hstart := (truncate_eq_ok hs).1
  rw [← hinstant, halike _ s hs, hstart]

theorem count_eq (halike : TruncatesAlike dateTrunc period) (hfound : Datable found)
    (hb : Filled (activityRows dateTrunc period found) period b) :
    b.count = (found.filter b.holds).length := by
  rw [hb.count, total_byKind]
  congr 1
  apply List.filter_congr
  intro m hm
  obtain ⟨t, ht, hnonneg, hdays⟩ := hfound m hm
  unfold rowKey Bucket.holds happenedIn
  rw [ht, hb.stop]
  show decide (some (dateTrunc period.value t) = some b.start.instant)
    = (decide (b.start.instant ≤ t) && decide (t < period.nextOf b.start.instant))
  rw [dateTrunc_eq halike hnonneg hdays, Bool.eq_iff_iff, decide_eq_true_eq,
    Option.some_inj, hb.start.startOf_iff hnonneg, Bool.and_eq_true,
    decide_eq_true_eq, decide_eq_true_eq]

-- ======= the claim

theorem occurred_of_mem {s e : Timestamp} (h : m ∈ inRange db s e sourceId) :
    ∃ t, m.occurredAt = some t ∧ s ≤ t ∧ t < e := by
  have hin := (List.mem_filter.1 (List.mem_filter.1 h).1).2
  unfold happenedIn at hin
  split at hin
  case h_1 => cases hin
  case h_2 t ht =>
    simp only [Bool.and_eq_true, decide_eq_true_eq] at hin
    exact ⟨t, ht, hin.1, hin.2⟩

theorem before_end {t : Int} (h : t < maxDays * dayMicros) :
    t < ((maxDays + 1 : Nat) : Int) * dayMicros := by
  have hday : dayMicros = 86400000000 := rfl
  rw [hday] at h ⊢
  omega

theorem datable_inRange (h : InCalendar start stop period) :
    Datable (inRange db start.instant stop.instant sourceId) := by
  intro m hm
  obtain ⟨t, ht, hlow, hhigh⟩ := occurred_of_mem hm
  obtain ⟨hnonneg, -, hlast⟩ := h
  have hle := Int.le_trans hlast period.lastStart_le
  exact ⟨t, ht, Int.le_trans hnonneg hlow,
    Datetime.lt_end_iff.1 (before_end (Int.lt_of_lt_of_le hhigh hle))⟩

theorem Drawn.perm {found' : List Memory} {s e : Int} {buckets : List Bucket}
    (h : Drawn found s e buckets) (hperm : found.Perm found') :
    Drawn found' s e buckets where
  tiles := h.tiles
  once := fun m hm => h.once m (hperm.mem_iff.2 hm)
  counts := fun b hb => (h.counts b hb).trans (hperm.filter _).length_eq
  sum := h.sum.trans hperm.length_eq

theorem drawn_of_tiles (halike : TruncatesAlike dateTrunc period)
    (hfound : Datable found) {s e a z : Int} {buckets : List Bucket} (ha : a ≤ s)
    (hz : e ≤ z) (htiles : Tiles a z (buckets.map Bucket.span))
    (hfilled : ∀ b ∈ buckets, Filled (activityRows dateTrunc period found) period b)
    (hin : ∀ m ∈ found, ∃ t : Int, m.occurredAt = some t ∧ s ≤ t ∧ t < e) :
    Drawn found s e buckets := by
  have honce : ∀ m ∈ found, (buckets.filter fun b => b.holds m).length = 1 := by
    intro m hm
    obtain ⟨t, ht, hlow, hhigh⟩ := hin m hm
    have hone := htiles.length_filter_eq_one (Int.le_trans ha hlow)
      (Int.lt_of_lt_of_le hhigh hz)
    unfold Bucket.holds happenedIn
    rw [ht]
    exact hone
  have hcounts : ∀ b ∈ buckets, b.count = (found.filter b.holds).length :=
    fun b hb => count_eq halike hfound (hfilled b hb)
  refine ⟨⟨a, z, ha, hz, htiles⟩, honce, hcounts, ?_⟩
  have hsum : buckets.foldr (fun b n => b.count + n) 0
      = Tally.tally Bucket.holds buckets found := by
    unfold Tally.tally
    exact List.foldr_ext _ _ _ fun b hb n => congrArg (· + n) (hcounts b hb)
  rw [hsum]
  exact Tally.tally_eq_length honce

theorem bucketStarts_of_lt (hlt : start.lt stop = true) :
    bucketStarts start stop period
      = match truncate start.moment period with
        | .error e => .error e
        | .ok cursor => bucketStartsFrom stop period cursor := by
  unfold bucketStarts
  rw [Aware.le_eq_not_lt, hlt]
  rfl

theorem activity_eq_ok {buckets : List Bucket} (hlt : start.lt stop = true) :
    activityByPeriod dateTrunc db start.moment stop.moment period sourceId
        = .ok buckets
      ↔ ∃ cursor starts, truncate start.moment period = .ok cursor
        ∧ bucketStartsFrom stop period cursor = .ok starts
        ∧ densify (activityRows dateTrunc period
          (inRange db start.instant stop.instant sourceId)) period starts
            = .ok buckets := by
  have hstart : requireAware start.moment "start" = .ok start := rfl
  have hstop : requireAware stop.moment "end" = .ok stop := rfl
  unfold activityByPeriod
  rw [hstart, hstop]
  simp only [bucketStarts_of_lt hlt]
  cases truncate start.moment period with
  | error e => simp
  | ok cursor =>
    cases hstarts : bucketStartsFrom stop period cursor with
    | error e => simp [hstarts]
    | ok starts => simp [hstarts]

theorem memoriesInRange_all : ∃ found,
    memoriesInRange db start.moment stop.moment sourceId [] = .ok found
      ∧ (inRange db start.instant stop.instant sourceId).Perm found := by
  have hstart : requireAware start.moment "start" = .ok start := rfl
  have hstop : requireAware stop.moment "end" = .ok stop := rfl
  unfold memoriesInRange
  rw [hstart, hstop]
  exact ⟨_, rfl, (List.perm_insertionSort _ _).symm⟩

theorem inCalendar_of_activity {buckets : List Bucket}
    (hlt : start.lt stop = true)
    (h : activityByPeriod dateTrunc db start.moment stop.moment period sourceId
      = .ok buckets) : InCalendar start stop period := by
  obtain ⟨cursor, starts, hcursor, hstarts, -⟩ := (activity_eq_ok hlt).1 h
  obtain ⟨hnonneg, hdays⟩ := calendar_of_truncate hcursor
  refine ⟨hnonneg, Datetime.lt_end_iff.2 hdays, ?_⟩
  by_contra hlate
  exact walk_error (Int.not_le.1 hlate) (.of_truncate hcursor) hstarts

theorem exists_drawn (hlt : start.lt stop = true)
    (halike : TruncatesAlike dateTrunc period)
    (h : InCalendar start stop period) :
    ∃ buckets,
      activityByPeriod dateTrunc db start.moment stop.moment period sourceId
        = .ok buckets
      ∧ Drawn (inRange db start.instant stop.instant sourceId) start.instant
        stop.instant buckets := by
  obtain ⟨cursor, hcursor⟩ := exists_truncate period h.1
    (Datetime.lt_end_iff.1 h.2.1)
  have hfirst := Starts.of_truncate hcursor
  obtain ⟨starts, hstarts⟩ := walk_ok h.2.2 hfirst
  obtain ⟨buckets, z, hbuckets, hz, htiles, hfilled⟩ :=
    walk_tiles (activityRows dateTrunc period
      (inRange db start.instant stop.instant sourceId)) hfirst hstarts
  have hstart : cursor.instant ≤ start.instant := by
    rw [(truncate_eq_ok hcursor).1]
    exact startOf_le period h.1
  refine ⟨buckets, (activity_eq_ok hlt).2 ⟨cursor, starts, hcursor, hstarts,
    hbuckets⟩, ?_⟩
  exact drawn_of_tiles halike (datable_inRange h) hstart hz htiles hfilled
    fun m hm => occurred_of_mem hm

/-- The activity histogram is drawn, and counts every memory of its range once,
exactly when the range starts in the calendar and ends no later than the
calendar's last period begins. -/
theorem activity_iff (dateTrunc : String → Timestamp → Timestamp) (db : Db)
    (start stop : Aware) (period : Period) (sourceId : Option Id)
    (hlt : start.lt stop = true) (halike : TruncatesAlike dateTrunc period) :
    (∃ buckets found,
      activityByPeriod dateTrunc db start.moment stop.moment period sourceId
        = .ok buckets
      ∧ memoriesInRange db start.moment stop.moment sourceId [] = .ok found
      ∧ Drawn found start.instant stop.instant buckets)
    ↔ InCalendar start stop period := by
  constructor
  · intro h
    obtain ⟨buckets, found, hactivity, -, -⟩ := h
    exact inCalendar_of_activity hlt hactivity
  · intro h
    obtain ⟨buckets, hactivity, hdrawn⟩ := exists_drawn hlt halike h
    obtain ⟨found, hfound, hperm⟩ :=
      @memoriesInRange_all start stop db sourceId
    exact ⟨buckets, found, hactivity, hfound, hdrawn.perm hperm⟩

end

-- ------ a range over two months, and one on the last day of the calendar

/-- A `date_trunc` that truncates as the code does. -/
def codeTrunc (field : String) (t : Timestamp) : Timestamp :=
  if field = "day" then Period.day.startOf t
  else if field = "week" then Period.week.startOf t
  else Period.month.startOf t

theorem codeTrunc_alike (period : Period) : TruncatesAlike codeTrunc period := by
  intro m s h
  rw [(truncate_eq_ok h).1]
  cases period <;> rfl

theorem midnight_lt : 0 < dayMicros := by decide

/-- The 31st of January 2026, and the 2nd of February. -/
def lateJanuary : Aware := .utc (.ofDays 739646 0 (by decide) midnight_lt)

def earlyFebruary : Aware := .utc (.ofDays 739648 0 (by decide) midnight_lt)

/-- One memory, of the 1st of February. -/
def dated : Db :=
  { memories :=
      [{ id := 1
         sourceId := 1
         externalKey := "a"
         version := 1
         isCurrent := true
         contentHash := "h"
         normalizedHash := none
         kind := .note
         title := none
         content := none
         occurredAt := some (739647 * dayMicros)
         occurredAtSource := .declared
         ingestedAt := 739647 * dayMicros
         mediaType := none
         parsed := none
         deletedAt := none
         entityExtractorVersion := none
         relationshipExtractorVersion := none }] }

theorem activity_iff_months :
    ∃ buckets found,
      activityByPeriod codeTrunc dated lateJanuary.moment earlyFebruary.moment
        .month none = .ok buckets
      ∧ memoriesInRange dated lateJanuary.moment earlyFebruary.moment none []
        = .ok found
      ∧ Drawn found lateJanuary.instant earlyFebruary.instant buckets :=
  (activity_iff codeTrunc dated lateJanuary earlyFebruary .month none
    (by decide +kernel) (codeTrunc_alike .month)).2
    ⟨by decide +kernel, by decide +kernel, by decide +kernel⟩

/-- The calendar's last day, and a second later. -/
def lastDay : Aware := .utc (.ofDays 3652058 0 (by decide) midnight_lt)

def lastSecond : Aware := .utc (.ofDays 3652058 1000000 (by decide) (by decide))

/-- The histogram of the calendar's last day is not drawn. -/
theorem not_activity :
    lastDay.lt lastSecond = true ∧ TruncatesAlike codeTrunc .day
      ∧ ∀ buckets, activityByPeriod codeTrunc dated lastDay.moment lastSecond.moment
        .day none ≠ .ok buckets := by
  have hlt : lastDay.lt lastSecond = true := by decide +kernel
  refine ⟨hlt, codeTrunc_alike .day, fun buckets hactivity => ?_⟩
  obtain ⟨cursor, starts, hcursor, hstarts, -⟩ := (activity_eq_ok hlt).1 hactivity
  exact walk_error (by decide +kernel) (.of_truncate hcursor) hstarts

end Temporal

end MemoryOS
