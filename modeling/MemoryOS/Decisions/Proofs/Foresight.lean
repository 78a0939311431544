/-
Which confidences the detector holds a person to
(`application/patterns.py`, `application/decisions.py`).

The horizon sits on the decision, is set once, and is inherited by a join.
Three calls can outrun it. A decision may be dated after it was written
down. An outcome may be dated before: `classify_confidence` would have said
hindsight, and nobody tells it. An edit may replace the assumptions at any
time, and the new rows, with the confidences they bring, inherit the horizon
of a decision that was written long ago.

`Foreseen` is the invariant, over the whole population and not just over
what has reached a band: `Foreseen.perform` keeps it through every call that
keeps ahead (`Ahead`), and `Foreseen.ahead` shows that no other call keeps
it. What the detector calibrates is read from the population
(`calibrated_decision`, `calibrated_assumption`).
-/
import MemoryOS.Decisions.Calibration
import MemoryOS.Decisions.Proofs.Records

namespace MemoryOS

open Lib Lib.Grouped

namespace Decisions

-- ====== invariants

/-- Ids are fresh when they are given, and stay what they were. -/
structure Keyed (t : Tables) : Prop where
  decisionIds : (t.decisions.map (·.id)).Nodup
  decisionsBelow : ∀ d ∈ t.decisions, d.id < t.nextId
  assumptionIds : (t.assumptions.map (·.id)).Nodup
  assumptionsBelow : ∀ a ∈ t.assumptions, a.id < t.nextId
  ownersBelow : ∀ a ∈ t.assumptions, a.decisionId < t.nextId
  outcomesBelow : ∀ o ∈ t.outcomes, o.decisionId < t.nextId
  writtenBelow : ∀ d ∈ t.decisions, d.writtenIn < t.written

/-- Every confidence that counts as foresight was. -/
structure Foreseen (t : Tables) : Prop where
  decisions : ∀ d ∈ t.decisions, d.confidenceHorizon = .foresight →
    Foresaw t d d.writtenIn d.createdAt
  assumptions : ∀ a ∈ t.assumptions, a.confidence.isSome →
    ∀ d ∈ t.decisions, d.id = a.decisionId →
      d.confidenceHorizon = .foresight →
      a.writtenIn = d.writtenIn ∧ a.writtenAt = d.createdAt
        ∧ ∀ e ∈ a.evaluations, a.writtenAt < e

variable {t t' : Tables} {now decidedAt : Timestamp} {casefold : Text → Text}
  {source : TimeProvenance}

variable {confidence : Option ℚ} {changes : DecisionEdit} {a : Action}

variable {horizon : Option ConfidenceHorizon} {new : List DecisionAssumption}

theorem keyed_empty : Keyed Tables.empty where
  decisionIds := List.nodup_nil
  decisionsBelow := fun _ h => absurd h List.not_mem_nil
  assumptionIds := List.nodup_nil
  assumptionsBelow := fun _ h => absurd h List.not_mem_nil
  ownersBelow := fun _ h => absurd h List.not_mem_nil
  outcomesBelow := fun _ h => absurd h List.not_mem_nil
  writtenBelow := fun _ h => absurd h List.not_mem_nil

theorem foreseen_empty : Foreseen Tables.empty where
  decisions := fun _ h => absurd h List.not_mem_nil
  assumptions := fun _ h => absurd h List.not_mem_nil

-- ====== what the detector reads

theorem classify_foresight
    (h : classifyConfidence confidence decidedAt source now false
      = .foresight) :
    source = .declared ∧ now ≤ decidedAt + foresightWindow := by
  unfold classifyConfidence at h
  split at h
  case h_1 => cases h
  case h_2 =>
    rw [if_neg (by simp)] at h
    split at h
    case isTrue => cases h
    case isFalse hsource =>
      split at h
      case isTrue => cases h
      case isFalse hwindow =>
        exact ⟨not_not.1 hsource,
          sub_le_iff_le_add'.1 (not_lt.1 hwindow)⟩

theorem horizonFor_foresight {given : Option ConfidenceHorizon} :
    horizonFor confidence decidedAt source now given = .foresight
      ↔ given ≠ some .hindsight
        ∧ classifyConfidence confidence decidedAt source now false
          = .foresight := by
  unfold horizonFor
  split
  case isTrue hgiven => simp [hgiven]
  case isFalse hgiven => simp [hgiven]

theorem mem_foresightDecisions {id : Id} :
    id ∈ (readCorpus t).foresightDecisions
      ↔ ∃ d ∈ t.decisions, d.id = id ∧ d.confidenceHorizon = .foresight := by
  simp only [Corpus.foresightDecisions, readCorpus, List.mem_map,
    List.mem_filter, decide_eq_true_eq]
  exact ⟨fun ⟨d, ⟨hd, hf⟩, hid⟩ => ⟨d, hd, hid, hf⟩,
    fun ⟨d, hd, hid, hf⟩ => ⟨d, ⟨hd, hf⟩, hid⟩⟩

theorem calibrated_decision {d : Decision}
    (h : DecisionCalibrated t d) :
    ∃ d' ∈ t.decisions, d'.id = d.id
      ∧ d'.confidenceHorizon = .foresight := by
  obtain ⟨b, hb, hname, e, he, heq⟩ := h
  rcases List.mem_append.1 hb with hb | hb
  · obtain ⟨g, hg, rfl⟩ := List.mem_map.1 hb
    obtain ⟨p, hp, rfl⟩ : ∃ p ∈ g.2,
        e = ⟨p.1.id, some p.2.id, none⟩ := by
      rcases List.mem_append.1 he with he | he
      · obtain ⟨p, hp, rfl⟩ := List.mem_map.1 he
        exact ⟨p, (List.mem_filter.1 hp).1, rfl⟩
      · obtain ⟨p, hp, rfl⟩ := List.mem_map.1 he
        exact ⟨p, (List.mem_filter.1 hp).1, rfl⟩
    have hrow := mem_grouped_iff.1 ⟨g, hg, hp⟩
    obtain ⟨d', -, hkept⟩ := List.mem_filterMap.1 hrow
    split at hkept
    case h_1 =>
      split at hkept
      case isTrue => cases hkept
      case isFalse hforesight =>
        split at hkept
        case isTrue => cases hkept
        case isFalse =>
          cases hkept
          exact heq ▸ mem_foresightDecisions.1 (not_not.1 hforesight)
    case h_2 => cases hkept
  · obtain ⟨g, -, rfl⟩ := List.mem_map.1 hb
    exact absurd hname (by simp [assumptionBand])

theorem calibrated_assumption {a : DecisionAssumption}
    (h : AssumptionCalibrated t a) :
    ∃ a' ∈ t.assumptions, a'.id = a.id ∧ a'.confidence.isSome
      ∧ ∃ d ∈ t.decisions, d.id = a'.decisionId
        ∧ d.confidenceHorizon = .foresight := by
  obtain ⟨b, hb, hname, e, he, heq⟩ := h
  rcases List.mem_append.1 hb with hb | hb
  · obtain ⟨g, -, rfl⟩ := List.mem_map.1 hb
    exact absurd hname (by simp [decisionBand])
  · obtain ⟨g, hg, rfl⟩ := List.mem_map.1 hb
    obtain ⟨a', ha', rfl⟩ : ∃ a' ∈ g.2,
        e = ⟨a'.decisionId, none, some a'.id⟩ := by
      rcases List.mem_append.1 he with he | he
      · obtain ⟨p, hp, rfl⟩ := List.mem_map.1 he
        exact ⟨p, (List.mem_filter.1 hp).1, rfl⟩
      · obtain ⟨p, hp, rfl⟩ := List.mem_map.1 he
        exact ⟨p, (List.mem_filter.1 hp).1, rfl⟩
    have hrow := mem_grouped_iff.1 ⟨g, hg, ha'⟩
    obtain ⟨hmem, hkept⟩ := List.mem_filter.1 hrow
    simp only [Bool.and_eq_true, decide_eq_true_eq] at hkept
    exact ⟨a', hmem, Option.some.inj heq, hkept.1.1,
      mem_foresightDecisions.1 hkept.2⟩

theorem Foreseen.onlyForesight (hk : Keyed t)
    (h : Foreseen t) : OnlyForesight t where
  decisions := by
    intro d hd hcal
    obtain ⟨d', hd', hid, hf⟩ := calibrated_decision hcal
    obtain rfl := List.inj_on_of_nodup_map hk.decisionIds hd' hd hid
    exact h.decisions _ hd hf
  assumptions := by
    intro a ha hcal
    obtain ⟨a', ha', hid, hsome, d, hd, howner, hf⟩ :=
      calibrated_assumption hcal
    obtain rfl := List.inj_on_of_nodup_map hk.assumptionIds ha' ha hid
    obtain ⟨hin, hat, hevals⟩ := h.assumptions _ ha hsome d hd howner hf
    refine ⟨d, hd, howner, ?_, hevals⟩
    rw [hin, hat]
    exact h.decisions d hd hf

-- ========= the ids

theorem nodup_append_fresh {old : List DecisionAssumption}
    {first n : Nat} (hold : (old.map (·.id)).Nodup)
    (hbelow : ∀ a ∈ old, a.id < first)
    (hnew : new.map (·.id) = List.range' first n) :
    ((old ++ new).map (·.id)).Nodup := by
  rw [List.map_append, hnew, List.nodup_append]
  refine ⟨hold, List.nodup_range', fun x hx y hy => ?_⟩
  obtain ⟨a, ha, rfl⟩ := List.mem_map.1 hx
  have hy := (List.mem_range'_1.1 hy).1
  exact fun heq => absurd (Nat.lt_of_lt_of_le (hbelow a ha) (heq ▸ hy))
    (Nat.lt_irrefl _)

theorem lt_of_fresh {first n : Nat}
    (hnew : new.map (·.id) = List.range' first n)
    {a : DecisionAssumption} (ha : a ∈ new) : a.id < first + n := by
  have hmem : a.id ∈ new.map (·.id) := List.mem_map_of_mem ha
  rw [hnew] at hmem
  exact (List.mem_range'_1.1 hmem).2

theorem Keyed.record {db : Db}
    {draft : DecisionDraft} {status : DecisionStatus} {id : Id}
    (hk : Keyed t)
    (h : record casefold db t draft decidedAt source status horizon now
      = .ok (t', id)) : Keyed t' := by
  obtain ⟨rfl, ⟨d, hd, hid, -, -, -, -, hin⟩,
    ⟨rows, brought, first, hrows, hids, hfirst, hlast, hadded⟩, hout, hw⟩ :=
    record_spec h
  have hnext : t.nextId < t'.nextId :=
    Nat.lt_of_lt_of_le hfirst (Nat.le_trans (Nat.le_add_right _ _) hlast)
  refine ⟨?_, ?_, ?_, ?_, ?_, ?_, ?_⟩
  · rw [hd, List.map_append, List.nodup_append]
    refine ⟨hk.decisionIds, List.nodup_singleton _, fun x hx y hy => ?_⟩
    obtain ⟨d', hd', rfl⟩ := List.mem_map.1 hx
    have hy : y = d.id := List.mem_singleton.1 hy
    rw [hy, hid]
    exact Nat.ne_of_lt (hk.decisionsBelow d' hd')
  · intro d' hd'
    rw [hd] at hd'
    rcases List.mem_append.1 hd' with hd' | hd'
    · exact Nat.lt_trans (hk.decisionsBelow d' hd') hnext
    · rw [List.mem_singleton.1 hd', hid]
      exact hnext
  · rw [hrows]
    exact nodup_append_fresh hk.assumptionIds
      (fun a ha => Nat.lt_trans (hk.assumptionsBelow a ha) hfirst) hids
  · intro a ha
    rw [hrows] at ha
    rcases List.mem_append.1 ha with ha | ha
    · exact Nat.lt_trans (hk.assumptionsBelow a ha) hnext
    · exact Nat.lt_of_lt_of_le (lt_of_fresh hids ha) hlast
  · intro a ha
    rw [hrows] at ha
    rcases List.mem_append.1 ha with ha | ha
    · exact Nat.lt_trans (hk.ownersBelow a ha) hnext
    · rw [(hadded a ha).owner]
      exact hnext
  · intro o ho
    rw [hout] at ho
    exact Nat.lt_trans (hk.outcomesBelow o ho) hnext
  · intro d' hd'
    rw [hw]
    rw [hd] at hd'
    rcases List.mem_append.1 hd' with hd' | hd'
    · exact Nat.lt_succ_of_lt (hk.writtenBelow d' hd')
    · rw [List.mem_singleton.1 hd', hin]
      exact Nat.lt_succ_self _

theorem Keyed.recordOutcome {db : Db} {decisionId : Id}
    {draft : OutcomeDraft} {observedAt : Timestamp} {kind : EvidenceKind} {id : Id} (hk : Keyed t)
    (h : recordOutcome db t decisionId draft observedAt source kind
      confidence now = .ok (t', id)) : Keyed t' := by
  obtain ⟨-, ⟨d, hd⟩, ⟨o, ho, -, howner, -⟩, hdec, has, hnext, hw⟩ :=
    recordOutcome_spec h
  have hmem : d ∈ t.decisions := List.mem_of_find?_eq_some hd
  have hdid : d.id = decisionId := by simpa using List.find?_some hd
  refine ⟨?_, ?_, ?_, ?_, ?_, ?_, ?_⟩
  · rw [hdec]
    exact hk.decisionIds
  · rw [hdec]
    exact fun d' hd' => Nat.lt_trans (hk.decisionsBelow d' hd') hnext
  · rw [has]
    exact hk.assumptionIds
  · rw [has]
    exact fun a ha => Nat.lt_trans (hk.assumptionsBelow a ha) hnext
  · rw [has]
    exact fun a ha => Nat.lt_trans (hk.ownersBelow a ha) hnext
  · intro o' ho'
    rw [ho] at ho'
    rcases List.mem_append.1 ho' with ho' | ho'
    · exact Nat.lt_trans (hk.outcomesBelow o' ho') hnext
    · rw [List.mem_singleton.1 ho', howner, ← hdid]
      exact Nat.lt_trans (hk.decisionsBelow d hmem) hnext
  · rw [hdec, hw]
    exact fun d' hd' => Nat.lt_succ_of_lt (hk.writtenBelow d' hd')

theorem Keyed.evaluate {db : Db} {assumptionId : Id}
    {verdict : AssumptionVerdict} {note : Option Text}
    {evidence : List EvidenceInput} {evaluatedAt : Option Timestamp} (hk : Keyed t)
    (h : evaluate db t assumptionId verdict note evidence evaluatedAt now
      = .ok t') : Keyed t' := by
  obtain ⟨⟨judge, has, hjudge⟩, hdec, hout, hnext, hw⟩ := evaluate_spec h
  have hrow : ∀ a ∈ t'.assumptions, ∃ a' ∈ t.assumptions,
      a.id = a'.id ∧ a.decisionId = a'.decisionId := by
    intro a ha
    rw [has] at ha
    obtain ⟨a', ha', rfl⟩ := List.mem_map.1 ha
    refine ⟨a', ha', ?_⟩
    split
    case isTrue => exact ⟨(hjudge a').1, (hjudge a').2.1⟩
    case isFalse => exact ⟨rfl, rfl⟩
  refine ⟨?_, ?_, ?_, ?_, ?_, ?_, ?_⟩
  · rw [hdec]
    exact hk.decisionIds
  · rw [hdec]
    exact fun d hd => Nat.lt_of_lt_of_le (hk.decisionsBelow d hd) hnext
  · have hids : t'.assumptions.map (·.id) = t.assumptions.map (·.id) := by
      rw [has, List.map_map]
      refine List.map_congr_left fun a _ => ?_
      simp only [Function.comp]
      split
      case isTrue => exact (hjudge a).1
      case isFalse => rfl
    rw [hids]
    exact hk.assumptionIds
  · intro a ha
    obtain ⟨a', ha', hid, -⟩ := hrow a ha
    rw [hid]
    exact Nat.lt_of_lt_of_le (hk.assumptionsBelow a' ha') hnext
  · intro a ha
    obtain ⟨a', ha', -, howner⟩ := hrow a ha
    rw [howner]
    exact Nat.lt_of_lt_of_le (hk.ownersBelow a' ha') hnext
  · rw [hout]
    exact fun o ho => Nat.lt_of_lt_of_le (hk.outcomesBelow o ho) hnext
  · rw [hdec, hw]
    exact fun d hd => Nat.lt_succ_of_lt (hk.writtenBelow d hd)

theorem mem_edited {decisionId : Id} {d₀ : Decision}
    (hd₀ : t.decision decisionId = some d₀)
    (hdec : t'.decisions = t.decisions.map fun row =>
      if row.id = decisionId then d₀.edited changes now else row)
    {d : Decision} (hd : d ∈ t'.decisions) :
    ∃ d' ∈ t.decisions, d.id = d'.id
      ∧ d.confidenceHorizon = d'.confidenceHorizon
      ∧ d.decidedAt = d'.decidedAt
      ∧ d.decidedAtSource = d'.decidedAtSource
      ∧ d.createdAt = d'.createdAt ∧ d.writtenIn = d'.writtenIn := by
  have hmem : d₀ ∈ t.decisions := List.mem_of_find?_eq_some hd₀
  rw [hdec] at hd
  obtain ⟨d', hd', rfl⟩ := List.mem_map.1 hd
  split
  case isTrue =>
    exact ⟨d₀, hmem, rfl, rfl, rfl, rfl, rfl, rfl⟩
  case isFalse => exact ⟨d', hd', rfl, rfl, rfl, rfl, rfl, rfl⟩

theorem Keyed.edit {decisionId : Id}
    (hk : Keyed t)
    (h : edit casefold t decisionId changes now = .ok t') : Keyed t' := by
  obtain ⟨⟨d₀, hd₀, hdec⟩, hout, hw, first, hfirst, hrest⟩ := edit_spec h
  have hd₀id : d₀.id = decisionId := by simpa using List.find?_some hd₀
  have hnext : t.nextId ≤ t'.nextId := by
    rcases hrest with ⟨-, -, hn⟩ | ⟨rows, brought, -, -, -, hn, -, -⟩
    · exact Nat.le_trans hfirst hn
    · rw [hn]
      exact Nat.le_trans hfirst (Nat.le_add_right _ _)
  refine ⟨?_, ?_, ?_, ?_, ?_, ?_, ?_⟩
  · have hids : t'.decisions.map (·.id) = t.decisions.map (·.id) := by
      rw [hdec, List.map_map]
      refine List.map_congr_left fun d _ => ?_
      simp only [Function.comp]
      split
      case isTrue hid => exact hd₀id.trans hid.symm
      case isFalse => rfl
    rw [hids]
    exact hk.decisionIds
  · intro d hd
    obtain ⟨d', hd', hid, -⟩ := mem_edited hd₀ hdec hd
    rw [hid]
    exact Nat.lt_of_lt_of_le (hk.decisionsBelow d' hd') hnext
  · rcases hrest with ⟨-, has, -⟩ | ⟨rows, brought, -, has, hids, -, -, -⟩
    · rw [has]
      exact hk.assumptionIds
    · rw [has]
      refine nodup_append_fresh
        (hk.assumptionIds.sublist (List.filter_sublist.map _))
        (fun a ha => ?_) hids
      exact Nat.lt_of_lt_of_le
        (hk.assumptionsBelow a (List.mem_of_mem_filter ha)) hfirst
  · intro a ha
    rcases hrest with ⟨-, has, -⟩ | ⟨rows, brought, -, has, hids, hn, -, -⟩
    · rw [has] at ha
      exact Nat.lt_of_lt_of_le (hk.assumptionsBelow a ha) hnext
    · rw [has] at ha
      rcases List.mem_append.1 ha with ha | ha
      · exact Nat.lt_of_lt_of_le
          (hk.assumptionsBelow a (List.mem_of_mem_filter ha)) hnext
      · rw [hn]
        exact lt_of_fresh hids ha
  · intro a ha
    rcases hrest with
      ⟨-, has, -⟩ | ⟨rows, brought, -, has, -, -, hadded, -⟩
    · rw [has] at ha
      exact Nat.lt_of_lt_of_le (hk.ownersBelow a ha) hnext
    · rw [has] at ha
      rcases List.mem_append.1 ha with ha | ha
      · exact Nat.lt_of_lt_of_le
          (hk.ownersBelow a (List.mem_of_mem_filter ha)) hnext
      · rw [(hadded a ha).owner, ← hd₀id]
        exact Nat.lt_of_lt_of_le
          (hk.decisionsBelow d₀ (List.mem_of_find?_eq_some hd₀)) hnext
  · rw [hout]
    exact fun o ho => Nat.lt_of_lt_of_le (hk.outcomesBelow o ho) hnext
  · intro d hd
    obtain ⟨d', hd', -, -, -, -, -, hin⟩ := mem_edited hd₀ hdec hd
    rw [hw, hin]
    exact Nat.lt_succ_of_lt (hk.writtenBelow d' hd')

-- ======= the calls

theorem Foresaw.congr {d d' : Decision} {writtenIn : Nat}
    {writtenAt : Timestamp} (h : Foresaw t d writtenIn writtenAt)
    (hout : ∀ o ∈ t'.outcomes, o.decisionId = d.id → o ∉ t.outcomes →
      writtenAt < o.observedAt)
    (hid : d'.id = d.id) (hat : d'.decidedAt = d.decidedAt)
    (hsource : d'.decidedAtSource = d.decidedAtSource)
    (hin : d'.writtenIn = d.writtenIn) :
    Foresaw t' d' writtenIn writtenAt where
  together := h.together.trans hin.symm
  declared := hsource.trans h.declared
  after := hat ▸ h.after
  inWindow := hat ▸ h.inWindow
  unobserved := by
    intro o ho howner
    rw [hid] at howner
    by_cases hold : o ∈ t.outcomes
    · exact h.unobserved o hold howner
    · exact hout o ho howner hold

theorem Foreseen.record_iff {db : Db} {draft : DecisionDraft} {status : DecisionStatus} {id : Id}
    (hk : Keyed t) (hf : Foreseen t)
    (h : record casefold db t draft decidedAt source status horizon now
      = .ok (t', id)) :
    Foreseen t'
      ↔ Ahead t (.record db draft decidedAt source status horizon now) := by
  obtain ⟨rfl, ⟨d, hd, hid, hhorizon, hat, hsource, hcreated, hin⟩,
    ⟨rows, brought, first, hrows, -, -, -, hadded⟩, hout, -⟩ :=
    record_spec h
  have hnew : d ∈ t'.decisions := by
    rw [hd]
    exact List.mem_append_right _ (List.mem_singleton_self d)
  constructor
  · intro hf' hforesight hgiven
    have hd' := hf'.decisions d hnew
      (hhorizon.trans (horizonFor_foresight.2 ⟨hgiven, hforesight⟩))
    have hafter := hd'.after
    rwa [hat, hcreated] at hafter
  · intro hahead
    have hrow : ∀ d' ∈ t'.decisions, d' ∈ t.decisions ∨ d' = d := by
      intro d' hd'
      rw [hd] at hd'
      rcases List.mem_append.1 hd' with hd' | hd'
      · exact .inl hd'
      · exact .inr (List.mem_singleton.1 hd')
    refine ⟨fun d' hd' hf' => ?_, fun a ha hsome d' hd' howner hf' => ?_⟩
    · rcases hrow d' hd' with hd' | rfl
      · refine (hf.decisions d' hd' hf').congr ?_ rfl rfl rfl rfl
        exact fun o ho _ hnot => absurd (hout ▸ ho) hnot
      · obtain ⟨hgiven, hclass⟩ := horizonFor_foresight.1
          (hhorizon.symm.trans hf')
        obtain ⟨hdeclared, hwindow⟩ := classify_foresight hclass
        refine ⟨rfl, hsource.trans hdeclared, ?_, ?_, ?_⟩
        · rw [hat, hcreated]
          exact hahead hclass hgiven
        · rw [hat, hcreated]
          exact hwindow
        · intro o ho howner
          rw [hout] at ho
          rw [hid] at howner
          exact absurd (hk.outcomesBelow o ho)
            (howner ▸ Nat.lt_irrefl _)
    · rw [hrows] at ha
      rcases List.mem_append.1 ha with ha | ha
      · rcases hrow d' hd' with hd' | rfl
        · exact hf.assumptions a ha hsome d' hd' howner hf'
        · rw [hid] at howner
          exact absurd (hk.ownersBelow a ha) (howner ▸ Nat.lt_irrefl _)
      · have ha := hadded a ha
        rcases hrow d' hd' with hd' | rfl
        · rw [ha.owner] at howner
          exact absurd (hk.decisionsBelow d' hd')
            (howner ▸ Nat.lt_irrefl _)
        · refine ⟨ha.writtenIn.trans hin.symm,
            ha.writtenAt.trans hcreated.symm, ?_⟩
          rw [ha.evaluations]
          exact fun _ he => absurd he List.not_mem_nil

theorem Foreseen.recordOutcome_iff {db : Db}
    {decisionId : Id} {draft : OutcomeDraft} {observedAt : Timestamp} {kind : EvidenceKind} {id : Id} (hf : Foreseen t)
    (h : recordOutcome db t decisionId draft observedAt source kind
      confidence now = .ok (t', id)) :
    Foreseen t'
      ↔ Ahead t (.recordOutcome db decisionId draft observedAt source kind
        confidence now) := by
  obtain ⟨-, -, ⟨o, ho, -, howner, hobserved⟩, hdec, has, -, -⟩ :=
    recordOutcome_spec h
  constructor
  · intro hf' d hd hid hforesight
    have hd' := hf'.decisions d (hdec ▸ hd) hforesight
    have hseen := hd'.unobserved o
      (ho ▸ List.mem_append_right _ (List.mem_singleton_self o))
      (howner.trans hid.symm)
    rwa [hobserved] at hseen
  · intro hahead
    refine ⟨fun d hd hforesight => ?_, fun a ha hsome d hd => ?_⟩
    · rw [hdec] at hd
      refine (hf.decisions d hd hforesight).congr ?_ rfl rfl rfl rfl
      intro o' ho' howner' hnot
      rw [ho] at ho'
      rcases List.mem_append.1 ho' with ho' | ho'
      · exact absurd ho' hnot
      · rw [List.mem_singleton.1 ho', howner] at howner'
        rw [List.mem_singleton.1 ho', hobserved]
        exact hahead d hd howner'.symm hforesight
    · rw [has] at ha
      rw [hdec] at hd
      exact hf.assumptions a ha hsome d hd

theorem Foreseen.evaluate_iff {db : Db} {assumptionId : Id}
    {verdict : AssumptionVerdict} {note : Option Text}
    {evidence : List EvidenceInput} {evaluatedAt : Option Timestamp} (hf : Foreseen t)
    (h : evaluate db t assumptionId verdict note evidence evaluatedAt now
      = .ok t') :
    Foreseen t'
      ↔ Ahead t (.evaluate db assumptionId verdict note evidence evaluatedAt
        now) := by
  obtain ⟨⟨judge, has, hjudge⟩, hdec, hout, -, -⟩ := evaluate_spec h
  constructor
  · intro hf' a ha hid hsome d hd howner hforesight
    obtain ⟨hjid, hjowner, hjconf, -, hjat, hjevals⟩ := hjudge a
    have hmem : judge a ∈ t'.assumptions := by
      rw [has]
      exact List.mem_map.2 ⟨a, ha, if_pos hid⟩
    obtain ⟨-, -, hevals⟩ := hf'.assumptions (judge a) hmem
      (hjconf ▸ hsome) d (hdec ▸ hd) (howner.trans hjowner.symm) hforesight
    have hlast := hevals (evaluatedAt.getD now)
      (hjevals ▸ List.mem_append_right _ (List.mem_singleton_self _))
    rwa [hjat] at hlast
  · intro hahead
    refine ⟨fun d hd hforesight => ?_,
      fun a ha hsome d hd howner hforesight => ?_⟩
    · rw [hdec] at hd
      refine (hf.decisions d hd hforesight).congr ?_ rfl rfl rfl rfl
      exact fun o ho _ hnot => absurd (hout ▸ ho) hnot
    · rw [hdec] at hd
      rw [has] at ha
      obtain ⟨a', ha', rfl⟩ := List.mem_map.1 ha
      split at hsome
      case isTrue hid =>
        rw [if_pos hid] at howner ⊢
        obtain ⟨-, hjowner, hjconf, hjin, hjat, hjevals⟩ := hjudge a'
        rw [hjowner] at howner
        rw [hjconf] at hsome
        obtain ⟨hin, hat, hevals⟩ :=
          hf.assumptions a' ha' hsome d hd howner hforesight
        refine ⟨hjin.trans hin, hjat.trans hat, fun e he => ?_⟩
        rw [hjevals] at he
        rw [hjat]
        rcases List.mem_append.1 he with he | he
        · exact hevals e he
        · rw [List.mem_singleton.1 he]
          exact hahead a' ha' hid hsome d hd howner hforesight
      case isFalse hid =>
        rw [if_neg hid] at howner ⊢
        exact hf.assumptions a' ha' hsome d hd howner hforesight

theorem Foreseen.edit_iff {decisionId : Id}
    (hk : Keyed t) (hf : Foreseen t)
    (h : edit casefold t decisionId changes now = .ok t') :
    Foreseen t' ↔ Ahead t (.edit decisionId changes now) := by
  obtain ⟨⟨d₀, hd₀, hdec⟩, hout, -, first, -, hrest⟩ := edit_spec h
  constructor
  · intro hf' d hd hid hforesight brought hbrought input hinput
    rcases hrest with ⟨hnone, -⟩ | ⟨rows, kept, hkept, has, -, -, hadded, hall⟩
    · rw [hnone] at hbrought
      cases hbrought
    · rw [hkept] at hbrought
      cases hbrought
      obtain ⟨a, ha, hconf⟩ := hall input hinput
      by_contra hsome
      have hd₀d : d₀ = d := List.inj_on_of_nodup_map hk.decisionIds
        (List.mem_of_find?_eq_some hd₀) hd
        ((by simpa using List.find?_some hd₀ : d₀.id = decisionId).trans
          hid.symm)
      have hmem : d.edited changes now ∈ t'.decisions := by
        rw [hdec, ← hd₀d]
        exact List.mem_map.2 ⟨d, hd, by rw [if_pos hid]⟩
      have hin := (hf'.assumptions a
        (has ▸ List.mem_append_right _ ha)
        (by rw [hconf]; exact Option.isSome_iff_ne_none.2 hsome) _ hmem
        (hid.trans (hadded a ha).owner.symm) hforesight).1
      rw [(hadded a ha).writtenIn] at hin
      exact absurd (hk.writtenBelow d hd) (hin ▸ Nat.lt_irrefl _)
  · intro hahead
    refine ⟨fun d hd hforesight => ?_,
      fun a ha hsome d hd howner hforesight => ?_⟩
    · obtain ⟨d', hd', hid, hh, hat, hsource, hcreated, hin⟩ :=
        mem_edited hd₀ hdec hd
      rw [hin, hcreated]
      refine (hf.decisions d' hd' (hh ▸ hforesight)).congr ?_ hid hat
        hsource hin
      exact fun o ho _ hnot => absurd (hout ▸ ho) hnot
    · obtain ⟨d', hd', hid, hh, -, -, hcreated, hin⟩ :=
        mem_edited hd₀ hdec hd
      rw [hh] at hforesight
      rw [hid] at howner
      rw [hcreated, hin]
      rcases hrest with
        ⟨-, has, -⟩ | ⟨rows, kept, hkept, has, -, -, hadded, -⟩
      · rw [has] at ha
        exact hf.assumptions a ha hsome d' hd' howner hforesight
      · rw [has] at ha
        rcases List.mem_append.1 ha with ha | ha
        · exact hf.assumptions a (List.mem_of_mem_filter ha) hsome d' hd'
            howner hforesight
        · -- A confidence that an edit brought to a decision of foresight.
          obtain ⟨input, hinput, hconf⟩ := (hadded a ha).confidence
          rw [(hadded a ha).owner] at howner
          rw [hconf, hahead d' hd' howner hforesight kept hkept input hinput]
            at hsome
          cases hsome

-- ======== the runs

theorem step_cases
    {es : List Unit} (h : (machine casefold).step t a = some (t', es)) :
    perform casefold t a = .ok t'
      ∨ t' = t ∧ ∀ t'', perform casefold t a ≠ .ok t'' := by
  simp only [machine] at h
  split at h
  case h_1 e he =>
    cases h
    exact .inr ⟨rfl, fun t'' h => by rw [he] at h; cases h⟩
  case h_2 t₁ ht₁ =>
    cases h
    exact .inl ht₁

theorem map_fst_ok {x : Except Refusal (Tables × Id)}
    (h : x.map (·.1) = .ok t') : ∃ id, x = .ok (t', id) := by
  cases x with
  | error e => cases h
  | ok r =>
    cases h
    exact ⟨r.2, rfl⟩

theorem Keyed.perform
    (hk : Keyed t) (h : perform casefold t a = .ok t') : Keyed t' := by
  cases a with
  | record =>
    obtain ⟨id, h⟩ := map_fst_ok h
    exact hk.record h
  | edit => exact Keyed.edit hk h
  | recordOutcome =>
    obtain ⟨id, h⟩ := map_fst_ok h
    exact hk.recordOutcome h
  | evaluate => exact Keyed.evaluate hk h

theorem Foreseen.perform_iff (hk : Keyed t) (hf : Foreseen t)
    (h : perform casefold t a = .ok t') : Foreseen t' ↔ Ahead t a := by
  cases a with
  | record =>
    obtain ⟨id, h⟩ := map_fst_ok h
    exact hf.record_iff hk h
  | edit => exact hf.edit_iff hk h
  | recordOutcome =>
    obtain ⟨id, h⟩ := map_fst_ok h
    exact hf.recordOutcome_iff h
  | evaluate => exact hf.evaluate_iff h

theorem foreseen_step {es : List Unit} (hk : Keyed t) (hf : Foreseen t)
    (h : (machine casefold).step t a = some (t', es)) :
    Keyed t' ∧ (Foreseen t' ↔ KeepsAhead casefold t a) := by
  rcases step_cases h with h | ⟨rfl, hnot⟩
  · refine ⟨hk.perform h, (hf.perform_iff hk h).trans ?_⟩
    exact ⟨fun hahead _ => hahead, fun hahead => hahead ⟨t', h⟩⟩
  · exact ⟨hk, iff_of_true hf fun ⟨t'', h⟩ => absurd h (hnot t'')⟩

theorem foreseen_iff (casefold : Text → Text) (acts : List Action) :
    (machine casefold).Always Foreseen .empty acts
      ↔ (machine casefold).EveryStep (KeepsAhead casefold) .empty acts :=
  Machine.always_iff_everyStep (fun t => Keyed t ∧ Foreseen t)
    (fun _ h => h.2)
    (fun _ _ _ _ h hs ha =>
      ⟨(foreseen_step h.1 h.2 hs).1, (foreseen_step h.1 h.2 hs).2.2 ha⟩)
    (fun _ _ _ _ h hs hP => (foreseen_step h.1 h.2 hs).2.1 hP)
    ⟨keyed_empty, foreseen_empty⟩

/-- In a run whose calls all keep ahead, nothing but foresight is ever
calibrated. -/
theorem only_foresight_calibrated (casefold : Text → Text)
    (acts : List Action)
    (hahead : (machine casefold).EveryStep (KeepsAhead casefold) .empty
      acts) :
    (machine casefold).Always OnlyForesight .empty acts := by
  have hinv : (machine casefold).Always (fun t => Keyed t ∧ Foreseen t)
      .empty acts :=
    Machine.always_of_everyStep
      (fun _ _ _ _ h hs ha =>
        ⟨(foreseen_step h.1 h.2 hs).1, (foreseen_step h.1 h.2 hs).2.2 ha⟩)
      ⟨keyed_empty, foreseen_empty⟩ hahead
  exact hinv.mono fun _ h => h.2.onlyForesight h.1

-- ------ confident once it is known

/-- A decision with one alternative and one assumption. -/
def whichStore : DecisionDraft where
  question := "Which store?".toList
  chosen := "Postgres".toList
  reasoning := none
  confidence := some (7 / 10)
  expectedOutcome := none
  options :=
    [{ description := "SQLite".toList
       rejectedBecause := none
       wasChosen := false }]
  assumptions :=
    [{ statement := "One machine is enough".toList
       confidence := some (9 / 10) }]
  evidence := []

/-- How it went. -/
def itWorked : OutcomeDraft where
  description := "It holds".toList
  verdict := .worked
  rationale := none
  judgedConfidence := none
  evidence := []

/-- The assumptions as they read afterwards. -/
def hindsight : DecisionEdit where
  question := none
  chosen := none
  reasoning := none
  expectedOutcome := none
  status := none
  options := none
  assumptions := some
    [{ statement := "One machine will not do".toList
       confidence := some (1 / 10) }]

/-- A decision of the day before, an outcome, and a judged assumption. -/
def foretold : List Action :=
  [.record {} whichStore 0 .declared .opened none 10,
    .recordOutcome {} 0 itWorked 20 .declared .declared none 30]

/-- Calls that keep ahead. -/
theorem only_foresight_foretold :
    (machine id).Always OnlyForesight .empty foretold := by
  refine only_foresight_calibrated id foretold fun t₁ _ h₁ =>
    ⟨fun _ _ _ => by decide, fun t₂ _ _ => ⟨?_, trivial⟩⟩
  intro _ d hd _ _
  rcases step_cases h₁ with h₁ | ⟨rfl, -⟩
  · obtain ⟨id, h₁⟩ := map_fst_ok h₁
    obtain ⟨-, ⟨d', hdec, -, -, -, -, hcreated, -⟩, -⟩ := record_spec h₁
    rw [hdec] at hd
    rw [List.mem_singleton.1 hd, hcreated]
    decide
  · exact absurd hd List.not_mem_nil

/-- The outcome is known, the assumptions are rewritten, and the new one is
judged. -/
def known : List Action :=
  foretold ++ [.edit 0 hindsight 40, .evaluate {} 5 .failed none [] none 50]

/-- An assumption in a band was not written with its decision. -/
def late (t : Tables) : Bool :=
  (detectCalibrationPatterns (readCorpus t)).any fun b =>
    decide (b.detector = "assumption_calibration")
      && (b.supporting ++ b.contradicting).any fun e =>
        t.assumptions.any fun a =>
          decide (e.assumptionId = some a.id)
            && t.decisions.all fun d => decide (a.writtenIn ≠ d.writtenIn)

/-- The confidence that the edit wrote, after the outcome, is calibrated as
foresight. -/
theorem not_only_foresight :
    ¬ ∀ (casefold : Text → Text) (acts : List Action),
      (machine casefold).Always OnlyForesight .empty acts := by
  intro hall
  have hrun : ((machine id).run .empty known).map (fun r => late r.1)
      = some true := by decide +kernel
  obtain ⟨⟨t, evs⟩, hrun, hlate⟩ := Option.map_eq_some_iff.1 hrun
  have honly := (hall id known).last hrun
  obtain ⟨b, hb, hlate⟩ := List.any_eq_true.1 hlate
  obtain ⟨hname, hlate⟩ := Bool.and_eq_true_iff.1 hlate
  obtain ⟨e, he, hlate⟩ := List.any_eq_true.1 hlate
  obtain ⟨a, ha, hlate⟩ := List.any_eq_true.1 hlate
  obtain ⟨hid, hlate⟩ := Bool.and_eq_true_iff.1 hlate
  obtain ⟨d, hd, -, hforesaw, -⟩ := honly.assumptions a ha
    ⟨b, hb, of_decide_eq_true hname, e, he, of_decide_eq_true hid⟩
  exact of_decide_eq_true (List.all_eq_true.1 hlate d hd) hforesaw.together

end Decisions

end MemoryOS
