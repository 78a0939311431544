/-
When the timeline endpoint answers (`api/routes/timeline.py`).

# The result

`timeline_iff`: a timeline or one of the handler's own refusals is the answer,
and the default window counts every dated memory of the scope once, exactly when
a scope without dates is not given both bounds, and a window with dates ends no
later than the calendar's last period begins.

The profile's groups have every date of the scope, so the bounds are the first
and the last of them (`observedBounds_eq`). A bound that is absent is computed
from these (`windowEnd_spec`), and the histogram of the window is the one of
`activity_by_period`.
-/
import MemoryOS.Lib.Best
import MemoryOS.Temporal.Proofs.Histogram
import MemoryOS.Temporal.Timeline

namespace MemoryOS.Temporal

open Lib

-- ====== statement vocabulary

/-- The dates of the corpus are `datetime`s. -/
def Dates (db : Db) : Prop :=
  ∀ m ∈ db.memories, ∀ t, m.occurredAt = some t →
    0 ≤ t ∧ t.toNat / dayMicros ≤ maxDays

/-- The dated memories of a scope. -/
def datedIn (db : Db) (sourceId : Option Id) : List Memory :=
  (scopeOf db sourceId).filter fun m => m.occurredAt.isSome

/-- The buckets of a timeline have every memory once and count them, and its
total is the number of the memories. -/
structure Covers (found : List Memory) (out : TimelineOut) : Prop where
  once : ∀ m ∈ found, (out.buckets.filter fun b => b.holds m).length = 1
  counts : ∀ b ∈ out.buckets, b.count = (found.filter b.holds).length
  sum : out.buckets.foldr (fun b n => b.count + n) 0 = found.length
  total : out.total = found.length

/-- The handler answers, and without bounds it answers with a timeline that
covers the dated memories of the scope. -/
def Answers (dateTrunc : String → Timestamp → Timestamp) (db : Db)
    (now : Moment) (period : Period) (start stop : Option Moment)
    (source : Option String) : Prop :=
  ∃ reply, getTimeline dateTrunc db now period start stop source = .ok reply
    ∧ (start = none → stop = none → ∀ sourceId,
      resolve db source = .ok sourceId →
      ∃ out, reply = .timeline out ∧ Covers (datedIn db sourceId) out)

/-- The first and the last date of some memories. -/
structure Spans (found : List Memory) (earliest latest : Timestamp) :
    Prop where
  earliest_mem : earliest ∈ datesOf found
  latest_mem : latest ∈ datesOf found
  between : ∀ t ∈ datesOf found, earliest ≤ t ∧ t ≤ latest

/-- A bound of the window: the one that is given, or else this instant. -/
def Bounds (bound : Option Moment) (otherwise : Int) (m : Aware) : Prop :=
  match bound with
  | some moment => m = aware moment
  | none => m.instant = otherwise ∧ ∃ d, m = Aware.utc d

/-- A scope that a timeline can be drawn of: without dates, not both bounds are
given; with dates, the calendar has a period after the last one where no end is
given, and it has the window where that is not empty. -/
structure Answerable (db : Db) (period : Period) (start stop : Option Moment)
    (sourceId : Option Id) : Prop where
  undated : datedIn db sourceId = [] → start = none ∨ stop = none
  later : ∀ earliest latest, Spans (datedIn db sourceId) earliest latest →
    stop = none → period.startOf latest < period.lastStart
  window : ∀ earliest latest, Spans (datedIn db sourceId) earliest latest →
    ∀ first last, Bounds start earliest first →
      Bounds stop (period.nextOf latest) last → first.lt last = true →
        InCalendar first last period

-- ====== the profile

section
variable {db : Db} {sourceId : Option Id} {rows : List Memory} {m : Memory}
  {b : ProvenanceBand} {earliest latest t : Timestamp}

theorem mem_datesOf : t ∈ datesOf rows ↔ ∃ m ∈ rows, m.occurredAt = some t :=
  List.mem_filterMap

theorem band_eq (h : b ∈ provenanceProfile db sourceId) :
    b = bandOf (scopeOf db sourceId) b.provenance := by
  have hgroup : ∀ b ∈ ((scopeOf db sourceId).map (·.occurredAtSource)).dedup.map
      (bandOf (scopeOf db sourceId)),
        b = bandOf (scopeOf db sourceId) b.provenance := by
    intro b hb
    obtain ⟨p, -, rfl⟩ := List.mem_map.1 hb
    rfl
  unfold provenanceProfile at h
  rcases List.mem_append.1 h with hdated | hunknown
  · rw [List.mem_insertionSort] at hdated
    exact hgroup b (List.mem_filter.1 hdated).1
  · rw [List.mem_singleton.1 hunknown]
    cases hfind : (((scopeOf db sourceId).map
        (·.occurredAtSource)).dedup.map (bandOf (scopeOf db sourceId))).find?
          fun b => decide (b.provenance = .unknown) with
    | some found => exact hgroup found (List.mem_of_find?_eq_some hfind)
    | none =>
      have hnone : (scopeOf db sourceId).filter
          (fun m => decide (m.occurredAtSource = .unknown)) = [] := by
        rw [List.filter_eq_nil_iff]
        intro m hm hunknown
        have hmem := List.mem_map_of_mem (f := bandOf (scopeOf db sourceId))
          (List.mem_dedup.2 (List.mem_map_of_mem
            (f := fun m : Memory => m.occurredAtSource) hm))
        exact List.find?_eq_none.1 hfind _ hmem hunknown
      show _ = bandOf (scopeOf db sourceId) .unknown
      unfold bandOf
      rw [hnone]
      rfl

theorem mem_provenanceProfile (hm : m ∈ scopeOf db sourceId) :
    ∃ b ∈ provenanceProfile db sourceId, b.provenance = m.occurredAtSource := by
  have hmem : bandOf (scopeOf db sourceId) m.occurredAtSource
      ∈ ((scopeOf db sourceId).map (·.occurredAtSource)).dedup.map
        (bandOf (scopeOf db sourceId)) :=
    List.mem_map_of_mem (List.mem_dedup.2 (List.mem_map_of_mem hm))
  unfold provenanceProfile
  by_cases hunknown : m.occurredAtSource = .unknown
  · refine ⟨_, List.mem_append_right _ (List.mem_singleton_self _), ?_⟩
    rw [hunknown]
    cases hfind : (((scopeOf db sourceId).map
        (·.occurredAtSource)).dedup.map (bandOf (scopeOf db sourceId))).find?
          fun b => decide (b.provenance = .unknown) with
    | none => rfl
    | some found =>
      have hfound := List.find?_some hfind
      exact of_decide_eq_true hfound
  · refine ⟨_, List.mem_append_left _ ((List.mem_insertionSort _).2
      (List.mem_filter.2 ⟨hmem, decide_eq_true hunknown⟩)), rfl⟩

theorem mem_dates_bands :
    t ∈ ((provenanceProfile db sourceId).map fun b =>
        datesOf ((scopeOf db sourceId).filter fun m =>
          decide (m.occurredAtSource = b.provenance))).flatten
      ↔ t ∈ datesOf (scopeOf db sourceId) := by
  rw [List.mem_flatten, mem_datesOf]
  constructor
  · intro h
    obtain ⟨dates, hdates, ht⟩ := h
    obtain ⟨b, -, rfl⟩ := List.mem_map.1 hdates
    obtain ⟨m, hm, hat⟩ := mem_datesOf.1 ht
    exact ⟨m, (List.mem_filter.1 hm).1, hat⟩
  · intro h
    obtain ⟨m, hm, hat⟩ := h
    obtain ⟨b, hb, hsame⟩ := mem_provenanceProfile hm
    exact ⟨_, List.mem_map_of_mem hb, mem_datesOf.2
      ⟨m, List.mem_filter.2 ⟨hm, decide_eq_true hsame.symm⟩, hat⟩⟩

theorem pick_bands {r : Timestamp → Timestamp → Prop}
    {pick : List Timestamp → Option Timestamp} (hpick : Best.Picks r pick)
    (htrans : ∀ a b c, r a b → r b c → r a c)
    (hantisymm : ∀ a b, r a b → r b a → a = b)
    {bound : ProvenanceBand → Option Timestamp}
    (hbound : ∀ p, bound (bandOf (scopeOf db sourceId) p)
      = pick (datesOf ((scopeOf db sourceId).filter fun m =>
        decide (m.occurredAtSource = p)))) :
    pick ((provenanceProfile db sourceId).filterMap bound)
      = pick (datesOf (scopeOf db sourceId)) := by
  have hparts : (provenanceProfile db sourceId).filterMap bound
      = ((provenanceProfile db sourceId).map fun b =>
        datesOf ((scopeOf db sourceId).filter fun m =>
          decide (m.occurredAtSource = b.provenance))).filterMap pick := by
    rw [List.filterMap_map]
    apply List.filterMap_congr
    intro b hb
    rw [band_eq hb]
    exact hbound b.provenance
  rw [hparts, hpick.flatten htrans hantisymm]
  exact hpick.congr fun t => mem_dates_bands

theorem datesOf_datedIn :
    datesOf (datedIn db sourceId) = datesOf (scopeOf db sourceId) := by
  unfold datesOf datedIn
  rw [List.filterMap_filter]
  apply List.filterMap_congr
  intro m _
  cases m.occurredAt <;> rfl

theorem observedBounds_eq :
    observedBounds (provenanceProfile db sourceId) = some (earliest, latest)
      ↔ Spans (datedIn db sourceId) earliest latest := by
  have hmin := @pick_bands db sourceId _ _ Best.picks_min
    (fun _ _ _ => Int.le_trans) (fun _ _ => Int.le_antisymm)
    (fun b => b.earliest) fun _ => rfl
  have hmax := @pick_bands db sourceId _ _ Best.picks_max
    (fun _ _ _ hab hbc => Int.le_trans hbc hab)
    (fun _ _ hab hba => Int.le_antisymm hba hab) (fun b => b.latest)
    fun _ => rfl
  have hspans : Spans (datedIn db sourceId) earliest latest
      ↔ (datesOf (scopeOf db sourceId)).min? = some earliest
        ∧ (datesOf (scopeOf db sourceId)).max? = some latest := by
    rw [Best.picks_min.eq_some, Best.picks_max.eq_some]
    constructor
    · intro h
      obtain ⟨hfirst, hlast, hbetween⟩ := h
      rw [datesOf_datedIn] at hfirst hlast hbetween
      exact ⟨⟨hfirst, fun t ht => (hbetween t ht).1⟩, hlast,
        fun t ht => (hbetween t ht).2⟩
    · intro h
      obtain ⟨⟨hfirst, hlow⟩, hlast, hhigh⟩ := h
      refine ⟨?_, ?_, ?_⟩
      · rw [datesOf_datedIn]
        exact hfirst
      · rw [datesOf_datedIn]
        exact hlast
      · rw [datesOf_datedIn]
        exact fun t ht => ⟨hlow t ht, hhigh t ht⟩
  rw [hspans, ← hmin, ← hmax]
  unfold observedBounds
  split
  case h_1 lo hi hlo hhi =>
    rw [hlo, hhi, Option.some_inj, Option.some_inj, Option.some_inj,
      Prod.mk.injEq]
  case h_2 hno =>
    refine iff_of_false (Option.some_ne_none _).symm fun h => ?_
    exact hno _ _ h.1 h.2

theorem observedBounds_none :
    observedBounds (provenanceProfile db sourceId) = none
      ↔ datedIn db sourceId = [] := by
  constructor
  · intro hnone
    by_contra hne
    obtain ⟨m, hm⟩ := List.exists_mem_of_ne_nil _ hne
    obtain ⟨t, ht⟩ := Option.isSome_iff_exists.1 (List.mem_filter.1 hm).2
    have hdates : datesOf (datedIn db sourceId) ≠ [] :=
      List.ne_nil_of_mem (mem_datesOf.2 ⟨m, hm, ht⟩)
    obtain ⟨lo, hlo⟩ := Option.isSome_iff_exists.1
      (Best.picks_min.isSome _ hdates)
    obtain ⟨hi, hhi⟩ := Option.isSome_iff_exists.1
      (Best.picks_max.isSome _ hdates)
    rw [Best.picks_min.eq_some] at hlo
    rw [Best.picks_max.eq_some] at hhi
    have hsome := observedBounds_eq.2 ⟨hlo.1, hhi.1,
      fun t ht => ⟨hlo.2 t ht, hhi.2 t ht⟩⟩
    rw [hnone] at hsome
    cases hsome
  · intro hnil
    cases hobserved : observedBounds (provenanceProfile db sourceId) with
    | none => rfl
    | some bounds =>
      obtain ⟨lo, hi⟩ := bounds
      have hmem := (observedBounds_eq.1 hobserved).earliest_mem
      rw [hnil] at hmem
      cases hmem

theorem Spans.unique {found : List Memory} {lo hi : Timestamp}
    (h : Spans found earliest latest) (h' : Spans found lo hi) :
    lo = earliest ∧ hi = latest :=
  ⟨Int.le_antisymm (h'.between _ h.earliest_mem).1
      (h.between _ h'.earliest_mem).1,
    Int.le_antisymm (h.between _ h'.latest_mem).2
      (h'.between _ h.latest_mem).2⟩

theorem Dates.of_mem (h : Dates db) (ht : t ∈ datesOf (datedIn db sourceId)) :
    0 ≤ t ∧ t.toNat / dayMicros ≤ maxDays := by
  obtain ⟨m, hm, hat⟩ := mem_datesOf.1 ht
  have hlive := (List.mem_filter.1 (List.mem_filter.1 hm).1).1
  exact h m (List.mem_filter.1 hlive).1 t hat

end

-- ====== the window

section
variable {dateTrunc : String → Timestamp → Timestamp} {db : Db}
  {sourceId : Option Id} {period : Period} {start stop : Option Moment}
  {first last m : Aware} {earliest latest t : Timestamp}
  {bands : List ProvenanceBand}

theorem ofTimestamp_ok (h : 0 ≤ t ∧ t.toNat / dayMicros ≤ maxDays) :
    ∃ d, ofTimestamp t = .ok (.utc d) ∧ d.instant = t := by
  obtain ⟨d, hd⟩ : ∃ d, Datetime.ofInstant t = .ok d := by
    unfold Datetime.ofInstant
    rw [dif_pos h]
    exact ⟨_, rfl⟩
  refine ⟨d, ?_, Datetime.ofInstant_eq_ok.1 hd⟩
  unfold ofTimestamp
  rw [hd]
  rfl

theorem bounds_none_iff {d : Datetime} (hd : d.instant = t) :
    Bounds none t m ↔ m = .utc d := by
  constructor
  · intro h
    obtain ⟨hinstant, e, rfl⟩ := h
    rw [Aware.instant_utc, ← hd] at hinstant
    have hsame := Datetime.ofInstant_instant e
    rw [hinstant, Datetime.ofInstant_instant] at hsame
    rw [Except.ok.inj hsame]
  · intro h
    rw [h]
    exact ⟨by rw [Aware.instant_utc, hd], d, rfl⟩

theorem windowStart_spec
    (h : 0 ≤ earliest ∧ earliest.toNat / dayMicros ≤ maxDays) :
    ∃ first, windowStart start earliest = .ok first
      ∧ ∀ m, Bounds start earliest m ↔ m = first := by
  cases start with
  | some moment => exact ⟨aware moment, rfl, fun m => Iff.rfl⟩
  | none =>
    obtain ⟨d, hd, hinstant⟩ := ofTimestamp_ok h
    exact ⟨.utc d, hd, fun m => bounds_none_iff hinstant⟩

theorem windowEnd_none {moment : Aware} (h : ofTimestamp latest = .ok moment) :
    windowEnd none latest period = advance moment.moment period := by
  unfold windowEnd
  generalize ofTimestamp latest = found at h
  subst h
  rfl

theorem windowEnd_spec (h : 0 ≤ latest ∧ latest.toNat / dayMicros ≤ maxDays)
    (hlater : stop = none → period.startOf latest < period.lastStart) :
    ∃ last, windowEnd stop latest period = .ok last
      ∧ ∀ m, Bounds stop (period.nextOf latest) m ↔ m = last := by
  cases stop with
  | some moment => exact ⟨aware moment, rfl, fun m => Iff.rfl⟩
  | none =>
    obtain ⟨d, hd, rfl⟩ := ofTimestamp_ok h
    obtain ⟨last, hlast⟩ := @exists_advance period (.utc d)
      (by rw [Aware.instant_utc]; exact h.1)
      (by rw [Aware.instant_utc]; exact h.2)
      (by rw [Aware.instant_utc]; exact hlater rfl)
    obtain ⟨hnext, -, e, rfl⟩ := advance_eq_ok hlast
    rw [Aware.instant_utc, Aware.instant_utc] at hnext
    exact ⟨.utc e, (windowEnd_none hd).trans hlast,
      fun m => bounds_none_iff hnext⟩

theorem windowEnd_raises (h : 0 ≤ latest ∧ latest.toNat / dayMicros ≤ maxDays)
    (hlate : ¬ period.startOf latest < period.lastStart) :
    windowEnd none latest period ≠ .ok last := by
  intro hok
  obtain ⟨d, hd, rfl⟩ := ofTimestamp_ok h
  rw [windowEnd_none hd] at hok
  obtain ⟨hnext, hle, -⟩ := advance_eq_ok hok
  rw [Aware.instant_utc] at hnext
  have hstart := startOf_le period h.1
  have hafter := lt_nextOf period d.instant
  omega

theorem drawWindow_drawn (halike : TruncatesAlike dateTrunc period)
    (hlt : first.lt last = true) (h : InCalendar first last period) :
    ∃ out, drawWindow dateTrunc db period sourceId bands first last
        = .ok (.timeline out)
      ∧ Drawn (inRange db first.instant last.instant sourceId) first.instant
        last.instant out.buckets
      ∧ out.total = out.buckets.foldr (fun b n => b.count + n) 0 := by
  obtain ⟨buckets, hbuckets, hdrawn⟩ := @exists_drawn _ _ _ _ db sourceId hlt
    halike h
  refine ⟨⟨first.moment, last.moment, period,
    buckets.foldr (fun b n => b.count + n) 0, buckets, bands⟩, ?_, hdrawn, rfl⟩
  unfold drawWindow
  rw [Aware.le_eq_not_lt, hlt, if_neg (by simp)]
  simp only [hbuckets]

theorem drawWindow_iff (halike : TruncatesAlike dateTrunc period) :
    (∃ reply, drawWindow dateTrunc db period sourceId bands first last
        = .ok reply)
      ↔ (first.lt last = true → InCalendar first last period) := by
  cases hlt : first.lt last with
  | false =>
    unfold drawWindow
    rw [Aware.le_eq_not_lt, hlt]
    exact iff_of_true ⟨_, rfl⟩ fun h => absurd h Bool.false_ne_true
  | true =>
    constructor
    · intro h _
      obtain ⟨reply, hreply⟩ := h
      unfold drawWindow at hreply
      rw [Aware.le_eq_not_lt, hlt, if_neg (by simp)] at hreply
      split at hreply
      case h_1 => cases hreply
      case h_2 buckets hbuckets => exact inCalendar_of_activity hlt hbuckets
    · intro h
      obtain ⟨out, hout, -⟩ := drawWindow_drawn halike hlt (h rfl)
      exact ⟨_, hout⟩

theorem inRange_default (hspans : Spans (datedIn db sourceId) earliest latest) :
    inRange db earliest (period.nextOf latest) sourceId
      = datedIn db sourceId := by
  unfold inRange datedIn scopeOf
  rw [List.filter_filter, List.filter_filter]
  apply List.filter_congr
  intro m hm
  cases hsource : ofSource sourceId m with
  | false => rw [Bool.false_and, Bool.and_false]
  | true =>
    rw [Bool.true_and, Bool.and_true]
    cases hat : m.occurredAt with
    | none =>
      unfold happenedIn
      rw [hat]
      rfl
    | some t =>
      have hmem : m ∈ datedIn db sourceId :=
        List.mem_filter.2
          ⟨List.mem_filter.2 ⟨hm, hsource⟩, by rw [hat]; rfl⟩
      obtain ⟨hlow, hhigh⟩ :=
        hspans.between t (mem_datesOf.2 ⟨m, hmem, hat⟩)
      have hbefore : t < period.nextOf latest :=
        Int.lt_of_le_of_lt hhigh (lt_nextOf period latest)
      unfold happenedIn
      rw [hat]
      exact Bool.and_eq_true_iff.2
        ⟨decide_eq_true hlow, decide_eq_true hbefore⟩

theorem drawWindow_default (halike : TruncatesAlike dateTrunc period)
    (hspans : Spans (datedIn db sourceId) earliest latest)
    (hfirst : Bounds none earliest first)
    (hlast : Bounds none (period.nextOf latest) last)
    (hwindow : first.lt last = true → InCalendar first last period) :
    ∃ out, drawWindow dateTrunc db period sourceId bands first last
        = .ok (.timeline out)
      ∧ Covers (datedIn db sourceId) out := by
  obtain ⟨hstart, d, rfl⟩ := hfirst
  obtain ⟨hstop, e, rfl⟩ := hlast
  have hlt : (Aware.utc d).lt (.utc e) = true := by
    have hbetween := (hspans.between _ hspans.latest_mem).1
    have hafter := Int.lt_of_le_of_lt hbetween (lt_nextOf period latest)
    rw [Aware.utc_lt, ← Aware.instant_utc, hstart, hstop]
    exact decide_eq_true hafter
  obtain ⟨out, hout, hdrawn, htotal⟩ := @drawWindow_drawn _ _ _ _ _ _ bands
    halike hlt (hwindow hlt)
  rw [hstart, hstop, inRange_default hspans] at hdrawn
  exact ⟨out, hout, hdrawn.once, hdrawn.counts, hdrawn.sum,
    htotal.trans hdrawn.sum⟩

-- ====== the endpoint

variable {now : Moment} {source : Option String}

theorem answers_undated (hresolve : resolve db source = .ok sourceId)
    (hnil : datedIn db sourceId = []) :
    Answers dateTrunc db now period start stop source
      ↔ Answerable db period start stop sourceId := by
  have hno : ∀ earliest latest,
      ¬ Spans (datedIn db sourceId) earliest latest := by
    intro earliest latest hspans
    have hmem := hspans.earliest_mem
    rw [hnil] at hmem
    cases hmem
  have hobserved := observedBounds_none.2 hnil
  unfold Answers getTimeline
  rw [hresolve]
  simp only [hobserved, true_and]
  by_cases hone : start = none ∨ stop = none
  · rw [if_pos hone]
    refine iff_of_true ⟨_, rfl, fun _ _ id hid => ?_⟩
      ⟨fun _ => hone, fun lo hi h => absurd h (hno lo hi),
        fun lo hi h => absurd h (hno lo hi)⟩
    obtain rfl := Except.ok.inj hid
    rw [hnil]
    exact ⟨_, rfl, fun m hm => absurd hm List.not_mem_nil,
      fun b hb => absurd hb List.not_mem_nil, rfl, rfl⟩
  · rw [if_neg hone]
    refine iff_of_false ?_ fun h => hone (h.undated hnil)
    intro h
    obtain ⟨reply, hreply, -⟩ := h
    cases hreply

theorem getTimeline_dated (hresolve : resolve db source = .ok sourceId)
    (hspans : Spans (datedIn db sourceId) earliest latest)
    (hfirst : windowStart start earliest = .ok first) :
    getTimeline dateTrunc db now period start stop source
      = match windowEnd stop latest period with
        | .error e => .error (.datetime e)
        | .ok last =>
          drawWindow dateTrunc db period sourceId
            (provenanceProfile db sourceId) first last := by
  have hobserved := observedBounds_eq.2 hspans
  unfold getTimeline
  rw [hresolve]
  simp only [hobserved, hfirst]
  exact if_neg fun h => Option.some_ne_none _ h.1

theorem answers_dated (halike : TruncatesAlike dateTrunc period)
    (hdates : Dates db) (hresolve : resolve db source = .ok sourceId)
    (hspans : Spans (datedIn db sourceId) earliest latest) :
    Answers dateTrunc db now period start stop source
      ↔ Answerable db period start stop sourceId := by
  have hne : datedIn db sourceId ≠ [] := by
    intro hnil
    have hmem := hspans.earliest_mem
    rw [hnil] at hmem
    cases hmem
  obtain ⟨first, hfirst, hstart⟩ :=
    @windowStart_spec start earliest (hdates.of_mem hspans.earliest_mem)
  have hlatest := hdates.of_mem hspans.latest_mem
  have hanswer := @getTimeline_dated dateTrunc db sourceId period start stop
    first earliest latest now source hresolve hspans hfirst
  by_cases hlater : stop = none → period.startOf latest < period.lastStart
  · obtain ⟨last, hlast, hstop⟩ := windowEnd_spec hlatest hlater
    simp only [hlast] at hanswer
    have hwindow : Answerable db period start stop sourceId
        ↔ (first.lt last = true → InCalendar first last period) := by
      constructor
      · intro h
        exact h.window _ _ hspans _ _ ((hstart _).2 rfl) ((hstop _).2 rfl)
      · intro h
        refine ⟨fun hnil => absurd hnil hne, fun lo hi hlohi => ?_,
          fun lo hi hlohi => ?_⟩
        · obtain ⟨rfl, rfl⟩ := hspans.unique hlohi
          exact hlater
        · obtain ⟨rfl, rfl⟩ := hspans.unique hlohi
          intro m n hm hn
          obtain rfl := (hstart m).1 hm
          obtain rfl := (hstop n).1 hn
          exact h
    rw [hwindow]
    unfold Answers
    rw [hanswer]
    constructor
    · intro h
      obtain ⟨reply, hreply, -⟩ := h
      exact (drawWindow_iff halike).1 ⟨reply, hreply⟩
    · intro h
      by_cases hdefault : start = none ∧ stop = none
      · obtain ⟨rfl, rfl⟩ := hdefault
        obtain ⟨out, hout, hcovers⟩ := @drawWindow_default _ _ _ _ _ _ _ _
          (provenanceProfile db sourceId) halike hspans
          ((hstart _).2 rfl) ((hstop _).2 rfl) h
        refine ⟨_, hout, fun _ _ id hid => ?_⟩
        rw [hresolve] at hid
        obtain rfl := Except.ok.inj hid
        exact ⟨out, rfl, hcovers⟩
      · obtain ⟨reply, hreply⟩ := (drawWindow_iff halike).2 h
        exact ⟨reply, hreply, fun hno hno' => absurd ⟨hno, hno'⟩ hdefault⟩
  · obtain ⟨rfl, hlate⟩ := Classical.not_imp.1 hlater
    refine iff_of_false ?_ fun h => hlate (h.later _ _ hspans rfl)
    intro h
    obtain ⟨reply, hreply, -⟩ := h
    rw [hanswer] at hreply
    cases hlast : windowEnd none latest period with
    | error e =>
      rw [hlast] at hreply
      cases hreply
    | ok last => exact windowEnd_raises hlatest hlate hlast

/-- The endpoint answers with a timeline or one of its refusals, and its default
window has every dated memory of the scope once, exactly where the named source
is unknown or its scope is one that a timeline can be drawn of. -/
theorem timeline_iff (dateTrunc : String → Timestamp → Timestamp) (db : Db)
    (now : Moment) (period : Period) (start stop : Option Moment)
    (source : Option String) (halike : TruncatesAlike dateTrunc period)
    (hdates : Dates db) :
    Answers dateTrunc db now period start stop source
      ↔ ∀ sourceId, resolve db source = .ok sourceId →
        Answerable db period start stop sourceId := by
  cases hresolve : resolve db source with
  | error unknown =>
    refine iff_of_true ?_ fun id hid => by cases hid
    unfold Answers getTimeline
    rw [hresolve]
    exact ⟨_, rfl, fun _ _ id hid => by cases hid⟩
  | ok sourceId =>
    have hscope : Answers dateTrunc db now period start stop source
        ↔ Answerable db period start stop sourceId := by
      cases hobserved : observedBounds (provenanceProfile db sourceId) with
      | none =>
        exact answers_undated hresolve (observedBounds_none.1 hobserved)
      | some bounds =>
        exact answers_dated halike hdates hresolve
          (observedBounds_eq.1 hobserved)
    rw [hscope]
    constructor
    · intro h id hid
      obtain rfl := Except.ok.inj hid
      exact h
    · intro h
      exact h sourceId rfl

end

-- ------ one dated memory without bounds, and no memory with both

/-- The 3rd of February 2026. -/
def nowFebruary : Aware := .utc (.ofDays 739649 0 (by decide) midnight_lt)

theorem dates_dated : Dates dated := by
  intro m hm t ht
  obtain rfl := List.mem_singleton.1 hm
  obtain rfl := Option.some.inj ht
  exact ⟨by decide, by decide⟩

theorem spans_dated {earliest latest : Timestamp}
    (h : Spans (datedIn dated none) earliest latest) :
    earliest = 739647 * dayMicros ∧ latest = 739647 * dayMicros := by
  have hdates : datesOf (datedIn dated none) = [739647 * dayMicros] := rfl
  have hfirst := h.earliest_mem
  have hlast := h.latest_mem
  rw [hdates] at hfirst hlast
  exact ⟨List.mem_singleton.1 hfirst, List.mem_singleton.1 hlast⟩

theorem timeline_iff_default :
    Answers codeTrunc dated nowFebruary.moment .day none none none := by
  refine (timeline_iff codeTrunc dated nowFebruary.moment .day none none none
    (codeTrunc_alike .day) dates_dated).2 fun sourceId hsource => ?_
  obtain rfl := Except.ok.inj hsource
  refine ⟨fun _ => .inl rfl, fun lo hi h _ => ?_, fun lo hi h first last hfirst
    hlast _ => ?_⟩
  · obtain ⟨-, rfl⟩ := spans_dated h
    decide +kernel
  · obtain ⟨rfl, rfl⟩ := spans_dated h
    unfold InCalendar
    rw [hfirst.1, hlast.1]
    exact ⟨by decide +kernel, by decide +kernel, by decide +kernel⟩

/-- A corpus without memories, with a window. -/
theorem not_timeline_total :
    TruncatesAlike codeTrunc .day ∧ Dates { memories := [] }
      ∧ getTimeline codeTrunc { memories := [] } nowFebruary.moment .day
        (some lateJanuary.moment) (some earlyFebruary.moment) none
          = .error .assertion :=
  ⟨codeTrunc_alike .day, fun _ hm => absurd hm List.not_mem_nil, rfl⟩

end MemoryOS.Temporal
