/-
When grouping respects people and is stable.

# The result

`respectful_iff`: in a run of the system no rejected pair is queued again,
every accepted pair stays in one group, a run with nothing new moves
nothing, and what the threshold connects shares a group, exactly when every
run of `GroupAssumptions` was considerate: it found no rejected pair between
the floor and the threshold, no accepted pair that its clusters would part,
and, straight after another run, no pair at the threshold.

The last part of the property needs no guard: it is what a run does
(`groupAssumptions_spec`).
-/
import MemoryOS.Decisions.Proofs.GroupRuns
import MemoryOS.Decisions.Proofs.Records

namespace MemoryOS

open Lib Decisions

namespace AssumptionGroups

-- ====== statement vocabulary

/-- One pair, in either orientation. -/
def SamePair (x y : Id) (c : AssumptionGroupCandidate) : Prop :=
  c.leftId = x ∧ c.rightId = y ∨ c.leftId = y ∧ c.rightId = x

/-- Nothing a person decided is undone, and nothing moves by itself. -/
structure Respectful (s : GroupSetup) (w : GroupWorld) : Prop where
  /-- A row that the last action queued is of no rejected pair. -/
  unasked : ∀ c ∈ w.tables.candidates,
    c.id ∉ w.before.candidates.map (·.id) →
    ∀ d ∈ w.before.candidates, d.status = .reverted →
      ¬ SamePair c.leftId c.rightId d
  /-- An accepted pair is in one group. -/
  together : ∀ c ∈ w.tables.candidates, c.status = .applied →
    ∃ g, groupOf w.tables c.leftId = some g
      ∧ groupOf w.tables c.rightId = some g
  /-- A run right after a run changes no group. -/
  stable : 2 ≤ w.runs → ∀ x, groupOf w.tables x = groupOf w.before x
  /-- After a run a component has one group. -/
  connected : 1 ≤ w.runs → ∀ x y, x ≠ y → Joined s w.tables x y →
    ∃ g, groupOf w.tables x = some g ∧ groupOf w.tables y = some g

/-- A run that finds nothing to do against a person, or twice. -/
structure Considerate (s : GroupSetup) (w : GroupWorld)
    (rows : List DecisionAssumption) : Prop where
  /-- Between the bars there is no rejected pair, but where one is
  outstanding. -/
  unasked : ∀ x y, Waits s rows x y → outstanding w.tables x y = false →
    ∀ d ∈ w.tables.candidates, d.status = .reverted → ¬ SamePair x y d
  /-- An accepted pair is of one component, or of none. -/
  together : ∀ c ∈ w.tables.candidates, c.status = .applied →
    Joined s w.tables c.leftId c.rightId
      ∨ ¬ Touched s w.tables c.leftId ∧ ¬ Touched s w.tables c.rightId
  /-- Right after a run, there is nothing to join. -/
  stable : 1 ≤ w.runs → ∀ x y, ¬ Edge s w.tables x y

/-- Only runs have to be considerate. -/
def RunsConsiderate (s : GroupSetup) (w : GroupWorld) : GroupAction → Prop
  | .group rows => Considerate s w rows
  | _ => True
-- ======== a review

variable {t : GroupTables} {s : GroupSetup} {w : GroupWorld} {now : Timestamp}
  {id : Id}

theorem reviewable_ok
    {row : AssumptionGroupCandidate} (h : reviewable t id = .ok row) :
    t.candidate id = some row ∧ row.status = .pending := by
  unfold reviewable at h
  split at h
  case h_1 => cases h
  case h_2 row' hrow =>
    split at h
    case isTrue => cases h
    case isFalse hstatus =>
      cases h
      exact ⟨hrow, not_not.1 hstatus⟩

theorem sharedGroup_spec (h : GroupsKeyed t)
    {left right : DecisionAssumption} (hleft : left ∈ t.assumptions)
    (hright : right ∈ t.assumptions) :
    ∃ m : Id → Id,
      (sharedGroup t left right).1.assumptions
          = t.assumptions.map (fun a => { a with groupId := a.groupId.map m })
        ∧ (sharedGroup t left right).1.candidates = t.candidates
        ∧ t.nextId ≤ (sharedGroup t left right).1.nextId
        ∧ (∀ k < t.nextId, m k < (sharedGroup t left right).1.nextId)
        ∧ (sharedGroup t left right).2 < (sharedGroup t left right).1.nextId
        ∧ (∀ k, left.groupId = some k → m k = (sharedGroup t left right).2)
        ∧ ∀ k, right.groupId = some k → m k = (sharedGroup t left right).2 := by
  have hstay : t.assumptions =
      t.assumptions.map fun a => { a with groupId := a.groupId.map id } := by
    simp
  unfold sharedGroup
  split
  case h_1 hl hr =>
    refine ⟨id, hstay, rfl, Nat.le_succ _, fun k hk => Nat.lt_succ_of_lt hk,
      Nat.lt_succ_self _, ?_, ?_⟩
    · rw [hl]
      exact fun _ h => (by cases h)
    · rw [hr]
      exact fun _ h => (by cases h)
  case h_2 g hl hr =>
    refine ⟨id, hstay, rfl, Nat.le_refl _, fun k hk => hk,
      h.groups _ hright g hr, ?_, fun k hk => ?_⟩
    · rw [hl]
      exact fun _ h => (by cases h)
    · exact Option.some.inj (hk.symm.trans hr)
  case h_3 g hl hr =>
    refine ⟨id, hstay, rfl, Nat.le_refl _, fun k hk => hk,
      h.groups _ hleft g hl, fun k hk => ?_, ?_⟩
    · exact Option.some.inj (hk.symm.trans hl)
    · rw [hr]
      exact fun _ h => (by cases h)
  case h_4 g g' hl hr =>
    split
    case isTrue hne =>
      refine ⟨fun k => if k = g' then g else k, ?_, rfl, Nat.le_refl _,
        fun k hk => ?_, h.groups _ hleft g hl, fun k hk => ?_, fun k hk => ?_⟩
      · refine List.map_congr_left fun a _ => ?_
        by_cases hmoves : a.groupId = some g'
        · rw [if_pos hmoves, hmoves]
          simp
        · have hsame : (a.groupId.map fun k => if k = g' then g else k)
              = a.groupId := by
            cases hgroup : a.groupId with
            | none => rfl
            | some k =>
              exact congrArg some (if_neg fun heq : k = g' =>
                hmoves (heq ▸ hgroup))
          rw [if_neg hmoves, hsame]
      · show (if k = g' then g else k) < t.nextId
        split
        case isTrue => exact h.groups _ hleft g hl
        case isFalse => exact hk
      · obtain rfl := Option.some.inj (hk.symm.trans hl)
        exact if_neg hne
      · exact if_pos (Option.some.inj (hk.symm.trans hr))
    case isFalse heq =>
      obtain rfl := not_not.1 heq
      refine ⟨id, hstay, rfl, Nat.le_refl _, fun k hk => hk,
        h.groups _ hleft g hl, fun k hk => ?_, fun k hk => ?_⟩
      · exact Option.some.inj (hk.symm.trans hl)
      · exact Option.some.inj (hk.symm.trans hr)

/-- What an accepted row does to the groups. -/
structure Accepted (t t' : GroupTables) (row : AssumptionGroupCandidate) :
    Prop where
  /-- The pair is in one group. -/
  pair : ∃ g, groupOf t' row.leftId = some g ∧ groupOf t' row.rightId = some g
  /-- Nobody is parted. -/
  kept : ∀ x y g, groupOf t x = some g → groupOf t y = some g →
    ∃ g', groupOf t' x = some g' ∧ groupOf t' y = some g'

theorem GroupsKeyed.reviewed {t' : GroupTables} (h : GroupsKeyed t)
    {f : DecisionAssumption → DecisionAssumption}
    (hid : ∀ a, (f a).id = a.id) (hassumptions : t'.assumptions
      = t.assumptions.map f)
    (hgroups : ∀ a ∈ t.assumptions, ∀ g, (f a).groupId = some g →
      g < t'.nextId) {status : MergeStatus}
    (hcandidates : t'.candidates = (review t id status now).candidates)
    (hnext : t.nextId ≤ t'.nextId) : GroupsKeyed t' := by
  have hrows : t'.candidates.map (·.id) = t.candidates.map (·.id) := by
    rw [hcandidates]
    show (t.candidates.map _).map _ = _
    rw [List.map_map]
    refine List.map_congr_left fun c _ => ?_
    simp only [Function.comp]
    split
    case isTrue => rfl
    case isFalse => rfl
  constructor
  case ids =>
    rw [hassumptions, List.map_map]
    exact (List.map_congr_left fun a _ => hid a) ▸ h.ids
  case groups =>
    intro a ha g hg
    rw [hassumptions] at ha
    obtain ⟨b, hb, rfl⟩ := List.mem_map.1 ha
    exact hgroups b hb g hg
  case candidates =>
    intro c hc
    have hmem : c.id ∈ t.candidates.map (·.id) :=
      hrows ▸ List.mem_map.2 ⟨c, hc, rfl⟩
    obtain ⟨d, hd, heq⟩ := List.mem_map.1 hmem
    exact Nat.lt_of_lt_of_le (heq ▸ h.candidates d hd) hnext
  case unique => exact hrows ▸ h.unique

theorem accept_spec {t' : GroupTables} (h : GroupsKeyed t) (haccept : accept t id now = .ok t') :
    ∃ row, t.candidate id = some row ∧ Accepted t t' row
      ∧ GroupsKeyed t'
      ∧ t'.candidates = (review t id .applied now).candidates := by
  unfold accept at haccept
  obtain ⟨row, hrow, haccept⟩ := bind_ok.1 haccept
  obtain ⟨hrow, -⟩ := reviewable_ok hrow
  split at haccept
  case h_2 => cases haccept
  case h_1 left right hl hr =>
    have hleft := assumption_id hl
    have hright := assumption_id hr
    obtain ⟨m, hassumptions, hcandidates, hnext, hm, hg, hml, hmr⟩ :=
      sharedGroup_spec h (mem_of_assumption hl) (mem_of_assumption hr)
    have ht' : review (assign (sharedGroup t left right).1 left.id right.id
        (sharedGroup t left right).2) id .applied now = t' :=
      Except.ok.inj haccept
    clear haccept
    generalize sharedGroup t left right = shared at *
    obtain ⟨t₁, g⟩ := shared
    dsimp only at *
    have hfinal : t'.assumptions
        = t.assumptions.map fun a => regroup [left.id, right.id] g
            { a with groupId := a.groupId.map m } := by
      rw [← ht']
      show t₁.assumptions.map _ = _
      rw [hassumptions, List.map_map]
      rfl
    have hrows : t'.candidates = (review t id .applied now).candidates := by
      rw [← ht']
      show t₁.candidates.map _ = _
      rw [hcandidates]
      rfl
    have hnext' : t'.nextId = t₁.nextId := ht' ▸ rfl
    have hids : ∀ a : DecisionAssumption, (regroup [left.id, right.id] g
        { a with groupId := a.groupId.map m }).id = a.id := by
      intro a
      unfold regroup
      split
      case isTrue => rfl
      case isFalse => rfl
    have hgroup : ∀ x a, t.assumption x = some a → groupOf t' x
        = if x = left.id ∨ x = right.id then some g else a.groupId.map m := by
      intro x a ha
      show (List.find? _ _).bind _ = _
      rw [assumption_map hids hfinal x, ha]
      show (regroup _ _ _).groupId = _
      unfold regroup
      simp only [List.mem_cons, List.not_mem_nil, or_false, assumption_id ha]
      split
      case isTrue => rfl
      case isFalse => rfl
    -- A group that the pair had is now the pair's.
    have hmoved : ∀ x k, groupOf t x = some k → groupOf t' x = some (m k) := by
      intro x k hk
      obtain ⟨a, ha, hk⟩ := Option.bind_eq_some_iff.1 hk
      rw [hgroup x a ha]
      split
      case isTrue hpair =>
        rcases hpair with hx | hx
        · rw [hx, hleft, hl] at ha
          cases ha
          rw [hml k hk]
        · rw [hx, hright, hr] at ha
          cases ha
          rw [hmr k hk]
      case isFalse => rw [hk, Option.map_some]
    refine ⟨row, hrow, ⟨⟨g, ?_, ?_⟩, fun x y k hx hy =>
      ⟨m k, hmoved x k hx, hmoved y k hy⟩⟩, ?_, hrows⟩
    · rw [hgroup _ _ hl]
      exact if_pos (.inl hleft.symm)
    · rw [hgroup _ _ hr]
      exact if_pos (.inr hright.symm)
    · refine h.reviewed hids hfinal (fun a ha k hk => ?_) hrows
        (hnext' ▸ hnext)
      rw [hnext']
      unfold regroup at hk
      split at hk
      case isTrue => exact Option.some.inj hk ▸ hg
      case isFalse =>
        obtain ⟨k', hk', rfl⟩ := Option.map_eq_some_iff.1 hk
        exact hm k' (h.groups a ha k' hk')
-- ========= actions

theorem step_ok {w' : GroupWorld} {a : GroupAction}
    {es : List Unit} (h : (grouping s).step w a = some (w', es)) :
    ∃ t, a.apply s w.tables = some t
      ∧ w' = { tables := t, before := w.tables, runs := a.runs w.runs } := by
  obtain ⟨t, ht, heq⟩ := Option.map_eq_some_iff.1 h
  exact ⟨t, ht, (Prod.mk.inj heq).1.symm⟩

theorem respectful_between
    (hrows : ∀ c ∈ t.candidates, c.id ∈ w.tables.candidates.map (·.id))
    (htogether : ∀ c ∈ t.candidates, c.status = .applied →
      ∃ g, groupOf t c.leftId = some g ∧ groupOf t c.rightId = some g) :
    Respectful s { tables := t, before := w.tables, runs := 0 } where
  unasked := fun c hc hnew => absurd (hrows c hc) hnew
  together := htogether
  stable := fun h => absurd h (Nat.not_succ_le_zero 1)
  connected := fun h => absurd h (Nat.not_succ_le_zero 0)

theorem mem_review {status : MergeStatus} {c' : AssumptionGroupCandidate}
    (h : c' ∈ (review t id status now).candidates) :
    ∃ c ∈ t.candidates, c'.id = c.id ∧ c'.leftId = c.leftId
      ∧ c'.rightId = c.rightId ∧ (c.id = id ∧ c'.status = status
        ∨ c.id ≠ id ∧ c'.status = c.status) := by
  obtain ⟨c, hc, rfl⟩ := List.mem_map.1 h
  refine ⟨c, hc, ?_⟩
  split
  case isTrue hid => exact ⟨rfl, rfl, rfl, .inl ⟨hid, rfl⟩⟩
  case isFalse hid => exact ⟨rfl, rfl, rfl, .inr ⟨hid, rfl⟩⟩

theorem assume_keeps (hw : Respectful s w)
    (hkeyed : GroupsKeyed w.tables) {a : DecisionAssumption}
    (hid : a.id ∉ w.tables.assumptions.map (·.id)) (hnone : a.groupId = none) :
    let t := { w.tables with assumptions := w.tables.assumptions ++ [a] }
    Respectful s { tables := t, before := w.tables, runs := 0 }
      ∧ GroupsKeyed t := by
  have hgroup : ∀ x g, groupOf w.tables x = some g →
      groupOf { w.tables with assumptions := w.tables.assumptions ++ [a] } x
        = some g := by
    intro x g hg
    obtain ⟨b, hb, hg⟩ := Option.bind_eq_some_iff.1 hg
    show (List.find? _ (_ ++ _)).bind _ = _
    rw [List.find?_append]
    have hfound : (w.tables.assumptions.find? fun b => decide (b.id = x))
      = some b := hb
    rw [hfound]
    exact hg
  refine ⟨respectful_between (fun c hc => List.mem_map.2 ⟨c, hc, rfl⟩)
    fun c hc happlied => ?_, ?_⟩
  · obtain ⟨g, hl, hr⟩ := hw.together c hc happlied
    exact ⟨g, hgroup _ g hl, hgroup _ g hr⟩
  · refine ⟨?_, fun b hb g hg => ?_, hkeyed.candidates, hkeyed.unique⟩
    · rw [List.map_append, List.nodup_append]
      refine ⟨hkeyed.ids, List.nodup_singleton _, fun x hx y hy heq => ?_⟩
      have hy : y = a.id := List.mem_singleton.1 hy
      exact hid (hy ▸ heq ▸ hx)
    · rcases List.mem_append.1 hb with hb | hb
      · exact hkeyed.groups b hb g hg
      · obtain rfl := List.mem_singleton.1 hb
        rw [hnone] at hg
        cases hg

theorem accept_keeps (hw : Respectful s w)
    (hkeyed : GroupsKeyed w.tables) (h : accept w.tables id now = .ok t) :
    Respectful s { tables := t, before := w.tables, runs := 0 }
      ∧ GroupsKeyed t := by
  obtain ⟨row, hrow, haccepted, hkeyed', hcandidates⟩ := accept_spec hkeyed h
  refine ⟨respectful_between (fun c' hc' => ?_) fun c' hc' happlied => ?_,
    hkeyed'⟩
  · obtain ⟨c, hc, hid, -⟩ := mem_review (hcandidates ▸ hc')
    exact hid ▸ List.mem_map.2 ⟨c, hc, rfl⟩
  · obtain ⟨c, hc, -, hl, hr, hstatus⟩ := mem_review (hcandidates ▸ hc')
    rw [hl, hr]
    rcases hstatus with ⟨hid, -⟩ | ⟨-, hstatus⟩
    · have hrowid : row.id = id := by simpa using List.find?_some hrow
      obtain rfl := List.inj_on_of_nodup_map hkeyed.unique hc
        (List.mem_of_find?_eq_some hrow) (hid.trans hrowid.symm)
      exact haccepted.pair
    · obtain ⟨g, hgl, hgr⟩ := hw.together c hc (hstatus ▸ happlied)
      exact haccepted.kept _ _ g hgl hgr

theorem reject_keeps (hw : Respectful s w)
    (hkeyed : GroupsKeyed w.tables) (h : reject w.tables id now = .ok t) :
    Respectful s { tables := t, before := w.tables, runs := 0 }
      ∧ GroupsKeyed t := by
  obtain ⟨row, -, h⟩ := bind_ok.1 h
  cases h
  refine ⟨respectful_between (fun c' hc' => ?_) fun c' hc' happlied => ?_, ?_⟩
  · obtain ⟨c, hc, hid, -⟩ := mem_review hc'
    exact hid ▸ List.mem_map.2 ⟨c, hc, rfl⟩
  · obtain ⟨c, hc, -, hl, hr, hstatus⟩ := mem_review hc'
    rcases hstatus with ⟨-, hstatus⟩ | ⟨-, hstatus⟩
    · rw [hstatus] at happlied
      cases happlied
    · rw [hl, hr]
      exact hw.together c hc (hstatus ▸ happlied)
  · exact hkeyed.reviewed (fun _ => rfl) (List.map_id' _).symm hkeyed.groups
      rfl (Nat.le_refl _)

theorem group_keeps (hw : Respectful s w)
    (hkeyed : GroupsKeyed w.tables) {rows : List DecisionAssumption}
    (hrows : Ordered s w.tables rows) (hc : Considerate s w rows) :
    Respectful s
      { tables := groupAssumptions s rows w.tables
        before := w.tables
        runs := w.runs + 1 }
      ∧ GroupsKeyed (groupAssumptions s rows w.tables) := by
  obtain ⟨new, hqueued, hgroups, hedge, hkeyed'⟩ :=
    groupAssumptions_spec hkeyed hrows
  refine ⟨?_, hkeyed'⟩
  constructor
  case unasked =>
    intro c hc' hnew d hd hreverted
    rw [hqueued.appended] at hc'
    rcases List.mem_append.1 hc' with hc' | hc'
    · exact absurd (List.mem_map.2 ⟨c, hc', rfl⟩) hnew
    · exact hc.unasked _ _ (hqueued.waits c hc').1 (hqueued.waits c hc').2 d hd
        hreverted
  case together =>
    intro c hc' happlied
    rw [hqueued.appended] at hc'
    rcases List.mem_append.1 hc' with hc' | hc'
    · obtain ⟨g, hl, hr⟩ := hw.together c hc' happlied
      have hstay : ∀ x, ¬ Touched s w.tables x →
          groupOf w.tables x = some g →
          groupOf (groupAssumptions s rows w.tables) x = some g :=
        fun x hx hg => (hgroups.untouched x hx).trans hg
      rcases hc.together c hc' happlied with hjoined | ⟨hnl, hnr⟩
      · rcases joined_touched hjoined with heq | ⟨htl, htr⟩
        · rw [← heq]
          by_cases htouched : Touched s w.tables c.leftId
          · obtain ⟨g', -, hg'⟩ := hgroups.touched _ htouched
            exact ⟨g', hg', hg'⟩
          · exact ⟨g, hstay _ htouched hl, hstay _ htouched hl⟩
        · obtain ⟨g', -, hg'⟩ := hgroups.touched _ htl
          exact ⟨g', hg', ((hgroups.joined _ _ htl htr).2 hjoined).symm.trans
            hg'⟩
      · exact ⟨g, hstay _ hnl hl, hstay _ hnr hr⟩
    · rw [hqueued.pending c hc'] at happlied
      cases happlied
  case stable =>
    intro hruns x
    exact hgroups.untouched x fun ⟨y, hxy⟩ =>
      hc.stable (Nat.le_of_succ_le_succ hruns) x y hxy
  case connected =>
    intro _ x y hne hjoined
    have hjoined : Joined s w.tables x y := by
      unfold Joined at hjoined
      rwa [hedge] at hjoined
    obtain ⟨hx, hy⟩ := (joined_touched hjoined).resolve_left hne
    obtain ⟨g, -, hg⟩ := hgroups.touched x hx
    exact ⟨g, hg, ((hgroups.joined x y hx hy).2 hjoined).symm.trans hg⟩

theorem considerate_of_respectful
    (hkeyed : GroupsKeyed w.tables) {rows : List DecisionAssumption}
    (hrows : Ordered s w.tables rows)
    (h : Respectful s
      { tables := groupAssumptions s rows w.tables
        before := w.tables
        runs := w.runs + 1 }) : Considerate s w rows := by
  obtain ⟨new, hqueued, hgroups, -, -⟩ := groupAssumptions_spec hkeyed hrows
  have hfresh : ∀ x g, groupOf w.tables x = some g → g < w.tables.nextId :=
    fun x g => groupOf_lt hkeyed
  constructor
  case unasked =>
    intro x y hxy hno d hd hreverted hsame
    obtain ⟨e, he, rfl, rfl⟩ := hqueued.complete x y hxy hno
    refine h.unasked e ?_ (fun hmem => ?_) d hd hreverted hsame
    · rw [hqueued.appended]
      exact List.mem_append_right _ he
    · obtain ⟨c, hc, heq⟩ := List.mem_map.1 hmem
      exact absurd (hkeyed.candidates c hc)
        (Nat.not_lt.2 (heq ▸ hqueued.fresh e he))
  case together =>
    intro c hc happlied
    obtain ⟨g, hl, hr⟩ := h.together c (by
      rw [hqueued.appended]
      exact List.mem_append_left _ hc) happlied
    -- A new group is not an old one.
    have hboth : ∀ x y, Touched s w.tables x →
        groupOf (groupAssumptions s rows w.tables) x = some g →
        groupOf (groupAssumptions s rows w.tables) y = some g →
        Touched s w.tables y := by
      intro x y hx hgx hgy
      by_contra hy
      obtain ⟨g', hle, hg'⟩ := hgroups.touched x hx
      obtain rfl := Option.some.inj (hg'.symm.trans hgx)
      exact absurd (hfresh y g' ((hgroups.untouched y hy).symm.trans hgy))
        (Nat.not_lt.2 hle)
    by_cases htl : Touched s w.tables c.leftId
    · have htr := hboth _ _ htl hl hr
      exact .inl ((hgroups.joined _ _ htl htr).1 (hl.trans hr.symm))
    · exact .inr ⟨htl, fun htr => htl (hboth _ _ htr hr hl)⟩
  case stable =>
    intro hruns x y hxy
    obtain ⟨g, hle, hg⟩ := hgroups.touched x ⟨y, hxy⟩
    have hsame := h.stable (Nat.succ_le_succ hruns) x
    exact absurd (hfresh x g (hsame.symm.trans hg)) (Nat.not_lt.2 hle)

-- ====== the theorem

theorem respectful_empty (s : GroupSetup) : Respectful s emptyGroups where
  unasked := fun _ h => absurd h List.not_mem_nil
  together := fun _ h => absurd h List.not_mem_nil
  stable := fun h => absurd h (Nat.not_succ_le_zero 1)
  connected := fun h => absurd h (Nat.not_succ_le_zero 0)

/-- Grouping respects people and is stable as long as its runs are
considerate, and no longer. -/
theorem respectful_iff (s : GroupSetup) (acts : List GroupAction) :
    (grouping s).Always (Respectful s) emptyGroups acts
      ↔ (grouping s).EveryStep (RunsConsiderate s) emptyGroups acts := by
  refine Machine.always_iff_everyStep
    (fun w => Respectful s w ∧ GroupsKeyed w.tables) (fun _ h => h.1) ?_ ?_
    ⟨respectful_empty s, ⟨List.nodup_nil, fun _ h => absurd h List.not_mem_nil,
      fun _ h => absurd h List.not_mem_nil, List.nodup_nil⟩⟩
  · rintro w a w' es ⟨hw, hkeyed⟩ hstep hguard
    obtain ⟨t, ht, rfl⟩ := step_ok hstep
    cases a with
    | assume a =>
      rw [GroupAction.apply] at ht
      split at ht
      case isTrue => cases ht
      case isFalse hok =>
        cases ht
        rw [not_or, not_not] at hok
        exact assume_keeps hw hkeyed hok.1 hok.2
    | group rows =>
      rw [GroupAction.apply] at ht
      split at ht
      case isTrue hrows =>
        cases ht
        exact group_keeps hw hkeyed hrows hguard
      case isFalse => cases ht
    | accept id now =>
      exact accept_keeps hw hkeyed (ok_of_toOption ht)
    | reject id now =>
      exact reject_keeps hw hkeyed (ok_of_toOption ht)
  · rintro w a w' es ⟨-, hkeyed⟩ hstep hw'
    obtain ⟨t, ht, rfl⟩ := step_ok hstep
    cases a with
    | group rows =>
      rw [GroupAction.apply] at ht
      split at ht
      case isTrue hrows =>
        cases ht
        exact considerate_of_respectful hkeyed hrows hw'
      case isFalse => cases ht
    | assume | accept | reject => trivial

-- ------ a rejected pair comes back

/-- Two directions, `12 / 13` apart. -/
def plainGroups : GroupSetup where
  embed statement :=
    if statement = "This will take two days.".toList then [1, 0]
    else [12 / 13, 5 / 13]
  modelId := "m"
  threshold := autoThreshold
  reviewFloor := reviewFloor
  collated _ _ := true

/-- An assumption nobody has looked at. -/
def fresh (id : Id) (statement : String) : DecisionAssumption where
  id := id
  decisionId := id
  statement := statement.toList
  confidence := none
  held := none
  evaluatedAt := none
  note := none
  groupId := none
  writtenIn := 0
  writtenAt := 0
  evaluations := []

/-- The two rows of a run. -/
def beliefs : List DecisionAssumption :=
  [fresh 1 "This will take two days.", fresh 2 "Integration is a morning."]

/-- A run, the rejection of what it queued, and another run. -/
def rejectedThenRun : List GroupAction :=
  beliefs.map .assume ++ [.group beliefs, .reject 0 0, .group beliefs]

/-- A row that was not there before is of a pair that was rejected. -/
def queuedAgain (w : GroupWorld) : Bool :=
  w.tables.candidates.any fun c =>
    decide (c.id ∉ w.before.candidates.map (·.id))
      && w.before.candidates.any fun d =>
        decide (d.status = .reverted ∧ d.leftId = c.leftId
          ∧ d.rightId = c.rightId)

/-- The second run queues the rejected pair again: only pending rows
conflict, and nothing reads the others. -/
theorem not_respectful :
    ¬ ∀ (s : GroupSetup) (acts : List GroupAction),
      (grouping s).Always (Respectful s) emptyGroups acts := by
  intro hall
  have hrun : ((grouping plainGroups).run emptyGroups rejectedThenRun).map
      (fun r => queuedAgain r.1) = some true := by decide +kernel
  obtain ⟨⟨w, es⟩, hrun, hagain⟩ := Option.map_eq_some_iff.1 hrun
  have hw := (hall plainGroups rejectedThenRun).last hrun
  obtain ⟨c, hc, hagain⟩ := List.any_eq_true.1 hagain
  obtain ⟨hnew, hagain⟩ := Bool.and_eq_true_iff.1 hagain
  obtain ⟨d, hd, hagain⟩ := List.any_eq_true.1 hagain
  obtain ⟨hreverted, hpair⟩ := of_decide_eq_true hagain
  exact hw.unasked c hc (of_decide_eq_true hnew) d hd hreverted (.inl hpair)

end AssumptionGroups

end MemoryOS
