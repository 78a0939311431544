/-
Nothing refused or just shown is volunteered again, and where it is.

`decideSurface_spec` is the gate: a decision to speak means that no
similar prior it was given is within a window. What it was given is the
log of an earlier transaction, cut by `lookback` on the date a row was
shown. So between the decision and the row (`Decides` is what a decided
call still knows) two things can go unseen: what others wrote or rated
since, and a dismissal, inside its window, of something shown before the
look-back. `quiet_iff` says that a run is quiet exactly when no row is
recorded over either.
-/
import Mathlib.Data.List.Nodup
import MemoryOS.Surfacing.Gate

namespace MemoryOS

open Lib

namespace Surfacing

-- ======== the gate

variable {now : Timestamp} {w : World} {sha256 : String → String}
  {q : SurfacingLog}

theorem repeatWindow_le_lookback : repeatWindow ≤ lookback := le_max_left _ _

theorem refusalOf_none {priors : List PriorSurfacing}
    {refusal : Option SurfaceReason}
    (h : refusalOf now refusal priors = none) :
    refusal = none ∧ ∀ p ∈ priors, dismissedLately now p.dismissedAt = false
      ∧ shownLately now p.surfacedAt = false := by
  induction priors generalizing refusal with
  | nil => exact ⟨h, fun _ hp => absurd hp List.not_mem_nil⟩
  | cons p rest ih =>
    unfold refusalOf at h
    split at h
    case isTrue => cases h
    case isFalse hdis =>
      obtain ⟨hnone, hrest⟩ := ih h
      split at hnone
      case isTrue => cases hnone
      case isFalse hshown =>
        refine ⟨hnone, fun q hq => ?_⟩
        rcases List.mem_cons.1 hq with rfl | hq
        · exact ⟨by simpa using hdis, by simpa using hshown⟩
        · exact hrest q hq

theorem decideSurface_spec {top : Option TopItem}
    {keys : List String} {threshold : ℚ} {recent : List PriorSurfacing}
    (h : (decideSurface sha256 top keys threshold recent now).surface = true) :
    ∀ p ∈ recent, similar keys p.keys = true →
      dismissedLately now p.dismissedAt = false
        ∧ shownLately now p.surfacedAt = false := by
  unfold decideSurface at h
  cases top with
  | none => cases h
  | some top =>
    simp only at h
    split at h
    case isTrue => cases h
    case isFalse =>
      split at h
      case h_1 => cases h
      case h_2 hnone =>
        intro p hp hsim
        exact (refusalOf_none hnone).2 p (List.mem_filter.2 ⟨hp, hsim⟩)

theorem mem_recentSurfacings {log : List SurfacingLog} {focus : Text} {p : PriorSurfacing} :
    p ∈ recentSurfacings log focus now ↔
      ∃ q ∈ log, q.focus = focus ∧ toPrior q = some p
        ∧ now - lookback < p.surfacedAt := by
  unfold recentSurfacings
  rw [List.mem_insertionSort, List.mem_filter, List.mem_filterMap,
    decide_eq_true_eq]
  constructor
  · rintro ⟨⟨q, hq, hp⟩, hlate⟩
    obtain ⟨hq, hfocus⟩ := List.mem_filter.1 hq
    exact ⟨q, hq, of_decide_eq_true hfocus, hp, hlate⟩
  · rintro ⟨q, hq, hfocus, hp, hlate⟩
    exact ⟨⟨q, List.mem_filter.2 ⟨hq, decide_eq_true hfocus⟩, hp⟩, hlate⟩

theorem shownBefore_iff {s : Timestamp}
    (hs : q.surfacedAt = some s) :
    ShownBefore now q ↔ shownLately now s = true := by
  unfold ShownBefore shownLately
  rw [hs, decide_eq_true_eq]
  exact ⟨fun ⟨s', he, hlt⟩ => Option.some.inj he ▸ hlt, fun h => ⟨s, rfl, h⟩⟩

theorem dismissedBefore_iff :
    DismissedBefore now q ↔ dismissedLately now q.dismissedAt = true := by
  unfold DismissedBefore dismissedLately
  cases q.dismissedAt with
  | none => simp
  | some at_ =>
    simp only [Option.some.injEq, decide_eq_true_eq]
    exact ⟨fun ⟨a, he, hlt⟩ => he ▸ hlt, fun h => ⟨at_, rfl, h⟩⟩

-- ====== the invariant

/-- A row has one verdict at most, and only if it was shown. -/
def OneVerdict (q : SurfacingLog) : Prop :=
  ¬ (q.dismissedAt.isSome ∧ q.actedOnAt.isSome)
    ∧ (q.dismissedAt.isSome → q.surfacedAt.isSome)

/-- What a call that decided to speak knows of the log it read. -/
def Decides (d : Decided) : Prop :=
  (∀ q ∈ d.read, OneVerdict q)
    ∧ (d.decision.surface = true → ∀ q ∈ d.read,
        Alike d.context.focus d.context.keys q →
        ∀ s, q.surfacedAt = some s → d.moment - lookback < s →
          ¬ ShownBefore d.moment q ∧ ¬ DismissedBefore d.moment q)

/-- The invariant. -/
structure Sound (w : World) : Prop where
  ids : (w.log.map SurfacingLog.id).Nodup
  below : ∀ q ∈ w.log, q.id < w.nextId
  verdicts : ∀ q ∈ w.log, OneVerdict q
  decides : ∀ d ∈ w.decided, Decides d

theorem sound_start : Sound start where
  ids := List.nodup_nil
  below := fun _ hq => absurd hq List.not_mem_nil
  verdicts := fun _ hq => absurd hq List.not_mem_nil
  decides := fun _ hd => absurd hd List.not_mem_nil

theorem decides_settle (h : Sound w) (sha256 : String → String)
    (a : Asked) :
    Decides
      { context := a.context
        trigger := a.trigger
        moment := a.moment
        decision := decideSurface sha256 (topItem a.context) a.context.keys
          a.threshold (recentSurfacings w.log a.context.focus a.moment)
          a.moment
        read := w.log } := by
  refine ⟨h.verdicts, fun hsurface q hq halike s hs hlate => ?_⟩
  obtain ⟨hfocus, hsim⟩ := halike
  have hprior : toPrior q = some
      { contextHash := q.contextHash
        keys := q.itemKeys
        surfacedAt := s
        dismissedAt := q.dismissedAt
        actedOnAt := q.actedOnAt } := by
    rw [toPrior, hs]
    rfl
  obtain ⟨hdis, hshown⟩ := decideSurface_spec hsurface _
    (mem_recentSurfacings.2 ⟨q, hq, hfocus, hprior, hlate⟩) hsim
  rw [shownBefore_iff hs, dismissedBefore_iff]
  exact ⟨by simp [hshown], by simp [hdis]⟩

theorem rate_cases (log : List SurfacingLog) (rowId : Id) (dismissed : Bool)
    (now : Timestamp) :
    (∃ verdict, rate log rowId dismissed now = .error verdict)
      ∨ rate log rowId dismissed now = .ok (log, false)
      ∨ ∃ row ∈ log, row.id = rowId ∧ row.surfacedAt.isSome
          ∧ row.dismissedAt = none ∧ row.actedOnAt = none
          ∧ rate log rowId dismissed now
            = .ok (log.map fun r =>
                if r.id = rowId then r.rated dismissed now else r, true) := by
  unfold rate
  cases hfind : log.find? fun r => decide (r.id = rowId) with
  | none => exact .inr (.inl rfl)
  | some row =>
    simp only
    split
    case isTrue => exact .inr (.inl rfl)
    case isFalse hshown =>
      split
      case isTrue => exact .inl ⟨_, rfl⟩
      case isFalse hdis =>
        split
        case isTrue => exact .inl ⟨_, rfl⟩
        case isFalse hact =>
          refine .inr (.inr ⟨row, List.mem_of_find?_eq_some hfind,
            by simpa using List.find?_some hfind, ?_, ?_, ?_, rfl⟩)
          · simpa [Option.isSome_iff_ne_none, Option.isNone_iff_eq_none]
              using hshown
          · simpa using hdis
          · simpa using hact

theorem rated_id (r : SurfacingLog) (dismissed : Bool) (now : Timestamp) :
    (r.rated dismissed now).id = r.id := by
  cases dismissed <;> rfl

theorem Sound.rated (h : Sound w) (rowId : Id) (dismissed : Bool)
    (now : Timestamp) : Sound (rated w rowId dismissed now) := by
  unfold Surfacing.rated
  rcases rate_cases w.log rowId dismissed now with ⟨verdict, hr⟩ | hr
    | ⟨row, hrow, hid, hshown, hdis, hact, hr⟩
  · rw [hr]
    exact { h with }
  · rw [hr]
    exact { h with }
  · rw [hr]
    have hids : ∀ r : SurfacingLog,
        (if r.id = rowId then r.rated dismissed now else r).id = r.id := by
      intro r
      split
      case isTrue => exact rated_id r dismissed now
      case isFalse => rfl
    refine
      { ids := ?_, below := fun q hq => ?_, verdicts := fun q hq => ?_
        decides := h.decides }
    · have hmap : (w.log.map fun r =>
          if r.id = rowId then r.rated dismissed now else r).map
            SurfacingLog.id = w.log.map SurfacingLog.id := by
        rw [List.map_map]
        exact List.map_congr_left fun r _ => hids r
      rw [hmap]
      exact h.ids
    · obtain ⟨r, hr, rfl⟩ := List.mem_map.1 hq
      rw [hids]
      exact h.below r hr
    · obtain ⟨r, hr, rfl⟩ := List.mem_map.1 hq
      split
      case isTrue heq =>
        -- the row that was found, which had no verdict
        have hsame := List.inj_on_of_nodup_map h.ids hr hrow
          (heq.trans hid.symm)
        rw [hsame]
        cases dismissed with
        | true =>
          exact ⟨by simp [SurfacingLog.rated, hact], fun _ => hshown⟩
        | false =>
          exact ⟨by simp [SurfacingLog.rated, hdis],
            by simp [SurfacingLog.rated, hdis]⟩
      case isFalse => exact h.verdicts r hr

theorem Sound.step {sha256 : String → String} {w w' : World} {a : Action}
    {es : List Unit} (h : Sound w)
    (hs : (machine sha256).step w a = some (w', es)) : Sound w' := by
  cases a with
  | ask context trigger now =>
    cases hs
    exact { h with }
  | settle i =>
    simp only [machine, Surfacing.step] at hs
    split at hs
    case h_1 => cases hs
    case h_2 a _ =>
      cases hs
      refine { h with decides := fun d hd => ?_ }
      rcases List.mem_append.1 hd with hd | hd
      · exact h.decides d hd
      · rw [List.mem_singleton.1 hd]
        exact decides_settle h sha256 a
  | record i =>
    simp only [machine, Surfacing.step] at hs
    split at hs
    case h_1 => cases hs
    case h_2 d _ =>
      cases hs
      refine
        { ids := ?_, below := fun q hq => ?_, verdicts := fun q hq => ?_
          decides := fun d hd => h.decides d (List.mem_of_mem_eraseIdx hd) }
      · rw [List.map_append, List.nodup_append]
        refine ⟨h.ids, List.nodup_singleton _, fun x hx y hy => ?_⟩
        obtain ⟨q, hq, rfl⟩ := List.mem_map.1 hx
        rw [List.mem_singleton.1 hy]
        exact Nat.ne_of_lt (h.below q hq)
      · rcases List.mem_append.1 hq with hq | hq
        · exact Nat.lt_succ_of_lt (h.below q hq)
        · rw [List.mem_singleton.1 hq]
          exact Nat.lt_succ_self _
      · rcases List.mem_append.1 hq with hq | hq
        · exact h.verdicts q hq
        · rw [List.mem_singleton.1 hq]
          exact ⟨fun hboth => (by cases hboth.1), fun hdis => by cases hdis⟩
  | dismiss rowId now =>
    cases hs
    exact h.rated rowId true now
  | markUseful rowId now =>
    cases hs
    exact h.rated rowId false now

-- ======= recording

theorem timely_iff (h : Sound w) {d : Decided}
    (hd : d ∈ w.decided) (hsurface : d.decision.surface = true) :
    (∀ q ∈ w.log, Alike d.context.focus d.context.keys q →
        ¬ ShownBefore d.moment q ∧ ¬ DismissedBefore d.moment q)
      ↔ ∀ q ∈ w.log, Alike d.context.focus d.context.keys q →
        (q ∈ d.read →
          (∃ surfacedAt, q.surfacedAt = some surfacedAt
            ∧ surfacedAt ≤ d.moment - lookback) →
          ¬ DismissedBefore d.moment q)
        ∧ (q ∉ d.read →
          ¬ ShownBefore d.moment q ∧ ¬ DismissedBefore d.moment q) := by
  obtain ⟨hverdicts, hdecides⟩ := h.decides d hd
  refine forall_congr' fun q => forall_congr' fun hq =>
    forall_congr' fun halike => ?_
  constructor
  · exact fun hno => ⟨fun _ _ => hno.2, fun _ => hno⟩
  · rintro ⟨hread, hunread⟩
    by_cases hmem : q ∈ d.read
    · cases hs : q.surfacedAt with
      | none =>
        -- never shown, so never dismissed
        refine ⟨fun ⟨s, hs', _⟩ => ?_, fun ⟨at_, hat, _⟩ => ?_⟩
        · rw [hs] at hs'
          cases hs'
        · have := (hverdicts q hmem).2 (by rw [hat]; rfl)
          rw [hs] at this
          cases this
      | some s =>
        by_cases hlate : d.moment - lookback < s
        · exact hdecides hsurface q hmem halike s hs hlate
        · refine ⟨fun hshown => ?_, hread hmem ⟨s, hs, not_lt.1 hlate⟩⟩
          have hlt := of_decide_eq_true ((shownBefore_iff hs).1 hshown)
          have hpast : lookback ≤ d.moment - s :=
            le_sub_comm.1 (not_lt.1 hlate)
          exact absurd hlt
            (not_lt.2 (le_trans repeatWindow_le_lookback hpast))
    · exact hunread hmem

theorem quiet_step {w' : World} {a : Action}
    {es : List Unit} (h : Sound w)
    (hs : (machine sha256).step w a = some (w', es)) :
    Quiet w' ↔ Timely w a := by
  have hverdicts := fun q hq => ((h.step hs).verdicts q hq).1
  have hrest : w'.recorded = none → Quiet w' := by
    intro hnone
    refine ⟨fun row before hrow => ?_, hverdicts⟩
    rw [hnone] at hrow
    cases hrow
  cases a with
  | ask context trigger now =>
    cases hs
    exact iff_of_true (hrest rfl) trivial
  | settle i =>
    simp only [machine, Surfacing.step] at hs
    split at hs
    case h_1 => cases hs
    case h_2 =>
      cases hs
      exact iff_of_true (hrest rfl) trivial
  | record i =>
    simp only [machine, Surfacing.step] at hs
    split at hs
    case h_1 => cases hs
    case h_2 d hget =>
      cases hs
      have hd := List.mem_of_getElem? hget
      by_cases hsurface : d.decision.surface = true
      · have hiff := timely_iff h hd hsurface
        constructor
        · intro hq d' hget' _
          rw [hget, Option.some.injEq] at hget'
          subst hget'
          exact hiff.1 (hq.1
            (surfacingRow w.nextId d.context d.trigger d.moment d.decision)
            w.log (if_pos hsurface))
        · intro ht
          refine ⟨fun row before hrow => ?_, hverdicts⟩
          rw [if_pos hsurface, Option.some.injEq, Prod.mk.injEq] at hrow
          obtain ⟨rfl, rfl⟩ := hrow
          exact hiff.2 (ht d hget hsurface)
      · refine iff_of_true (hrest (if_neg hsurface)) fun d' hget' hs' => ?_
        rw [hget, Option.some.injEq] at hget'
        exact absurd (hget' ▸ hs') hsurface
  | dismiss rowId now =>
    cases hs
    refine iff_of_true (hrest ?_) trivial
    unfold rated
    split <;> rfl
  | markUseful rowId now =>
    cases hs
    refine iff_of_true (hrest ?_) trivial
    unfold rated
    split <;> rfl

/-- Nothing refused or just shown is volunteered again, throughout a run,
exactly when no row is recorded as shown over a similar one that was
written, dismissed or rated after the call read the log, or that was shown
before the look-back and dismissed within the window. -/
theorem quiet_iff (sha256 : String → String) (acts : List Action) :
    (machine sha256).Always Quiet start acts
      ↔ (machine sha256).EveryStep Timely start acts :=
  Machine.always_iff_everyStep (fun w => Sound w ∧ Quiet w)
    (fun _ h => h.2)
    (fun _ _ _ _ h hs ht => ⟨h.1.step hs, (quiet_step h.1 hs).2 ht⟩)
    (fun _ _ _ _ h hs hP => (quiet_step h.1 hs).1 hP)
    ⟨sound_start, fun _ _ hrow => (by cases hrow),
      fun _ hq => absurd hq List.not_mem_nil⟩

-- ------ refused yesterday, shown six weeks ago

/-- A context whose one item three routes found first. -/
def runbook : AssembledContext where
  focus := "deploy.py".toList
  items :=
    [{ key := "runbook"
       title := "Runbook"
       sources := [(.retrieval, 1), (.graph, 1), (.temporal, 1)]
       externalKey := some "runbook.md".toList }]

/-- A day. -/
def day : Timestamp := 24 * 3600 * 1000000

/-- Shown on the first day, dismissed on the 40th, and shown again on the
41st. -/
def volunteered : List Action :=
  [.ask runbook none 0, .settle 0, .record 0, .dismiss 0 (40 * day),
    .ask runbook none (41 * day), .settle 0, .record 0]

/-- The row recorded last was dismissed, in much the same form, within the
window. -/
def refused (w : World) : Bool :=
  match w.recorded with
  | none => false
  | some (row, before) =>
    before.any fun q =>
      decide (q.focus = row.focus) && similar row.itemKeys q.itemKeys
        && dismissedLately row.decidedAt q.dismissedAt

/-- The second showing comes a day after the dismissal: the row is looked
for by the date it was shown. -/
theorem not_quiet :
    ¬ ∀ (sha256 : String → String) (acts : List Action),
      (machine sha256).Always Quiet start acts := by
  intro hall
  have hrun : ((machine id).run start volunteered).map (fun r => refused r.1)
      = some true := by decide +kernel
  obtain ⟨⟨w, evs⟩, hrun, hrefused⟩ := Option.map_eq_some_iff.1 hrun
  have hquiet := (hall id volunteered).last hrun
  unfold refused at hrefused
  split at hrefused
  case h_1 => cases hrefused
  case h_2 row before hrecorded =>
    obtain ⟨q, hq, hboth⟩ := List.any_eq_true.1 hrefused
    rw [Bool.and_eq_true, Bool.and_eq_true, decide_eq_true_eq] at hboth
    exact (hquiet.1 row before hrecorded q hq hboth.1).2
      (dismissedBefore_iff.2 hboth.2)

end Surfacing

end MemoryOS
