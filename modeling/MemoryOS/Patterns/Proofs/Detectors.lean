/-
What the detectors propose (`application/patterns.py`).

A candidate of a calibration band counts on the side of its statement the
decisions that went against the stated confidence in the direction that the
statement names (`directed_calibration`). No two candidates of a run are about the
same thing (`nodup_candidates`), and no candidate cites one link twice
(`nodup_links`).
-/
import Mathlib.Data.List.Infix
import MemoryOS.Patterns.Detectors

namespace MemoryOS.Patterns

open Lib Lib.Grouped

variable {python : Python} {corpus : Corpus} {c : Candidate} {id : Id}

-- ====== statement vocabulary

/-- A case of a band: whose it was, and whether it went as hoped. -/
structure Case where
  decisionId : Id
  success : Bool

/-- The direction that a statement names. -/
inductive Direction
  | over | under

/-- The word of it. -/
def Direction.word : Direction → Text
  | .over => "Overconfident".toList
  | .under => "Underconfident".toList

/-- The cases that go against the stated confidence in a direction. -/
def Direction.Against : Direction → Case → Prop
  | .over, x => x.success = false
  | .under, x => x.success = true

/-- The share of the cases that went as hoped. -/
def rate (cases : List Case) : ℚ :=
  (cases.filter (·.success)).length / cases.length

/-- The candidate names the direction that the cases went, and counts on its side
the decisions with a case that went against what was stated. -/
def Directed (c : Candidate) (cases : List Case) (stated : ℚ) : Prop :=
  ∃ d : Direction, d.word <+: c.statement ∧ (d = .over ↔ rate cases < stated)
    ∧ (∀ id, id ∈ c.supporting ↔ ∃ x ∈ cases, x.decisionId = id ∧ d.Against x)
    ∧ ∀ id, id ∈ c.contradicting ↔ ∃ x ∈ cases, x.decisionId = id ∧ ¬d.Against x

/-- The decisions of a band, with how they went. -/
def bandDecisions (corpus : Corpus) (band : ℚ × ℚ) :
    List (DecisionRow × OutcomeRow) :=
  (decisionRows corpus).filter fun p =>
    decide (Decisions.bandOf (p.1.confidence.getD 0) = band)

/-- The assumptions of a band. -/
def bandAssumptions (corpus : Corpus) (band : ℚ × ℚ) : List AssumptionRow :=
  (assumptionRows corpus).filter fun a =>
    decide (Decisions.bandOf (a.confidence.getD 0) = band)

/-- The cases that decisions are. -/
def decisionCases (rows : List (DecisionRow × OutcomeRow)) : List Case :=
  rows.map fun p => ⟨p.1.id, decide (p.2.verdict = .worked)⟩

/-- The cases that assumptions are. -/
def assumptionCases (members : List AssumptionRow) : List Case :=
  members.map fun a => ⟨a.decisionId, decide (a.held = some .held)⟩

-- ======= the sides

variable {relation : PatternRelation} {α : Type} {windowDays : ℚ}

theorem mem_decisions :
    id ∈ c.decisions relation
      ↔ ∃ e ∈ c.evidence, e.relation = relation ∧ e.decisionId = id := by
  unfold Candidate.decisions
  rw [List.mem_dedup, List.mem_map]
  constructor
  · intro h
    obtain ⟨e, he, hid⟩ := h
    obtain ⟨he, hrel⟩ := List.mem_filter.1 he
    exact ⟨e, he, of_decide_eq_true hrel, hid⟩
  · intro h
    obtain ⟨e, he, hrel, hid⟩ := h
    exact ⟨e, List.mem_filter.2 ⟨he, decide_eq_true hrel⟩, hid⟩

section

variable {a b : List EvidenceItem}

/-- The evidence of two sides, one after the other. -/
structure Sides (c : Candidate) (a b : List EvidenceItem) : Prop where
  evidence : c.evidence = a ++ b
  supports : ∀ e ∈ a, e.relation = .supports
  contradicts : ∀ e ∈ b, e.relation = .contradicts

theorem Sides.mem_supporting (h : Sides c a b) :
    id ∈ c.supporting ↔ id ∈ a.map (·.decisionId) := by
  unfold Candidate.supporting
  rw [mem_decisions, h.evidence, List.mem_map]
  constructor
  · intro hid
    obtain ⟨e, he, hrel, hid⟩ := hid
    rcases List.mem_append.1 he with he | he
    · exact ⟨e, he, hid⟩
    · rw [h.contradicts e he] at hrel
      cases hrel
  · intro hid
    obtain ⟨e, he, hid⟩ := hid
    exact ⟨e, List.mem_append_left b he, h.supports e he, hid⟩

theorem Sides.mem_contradicting (h : Sides c a b) :
    id ∈ c.contradicting ↔ id ∈ b.map (·.decisionId) := by
  unfold Candidate.contradicting
  rw [mem_decisions, h.evidence, List.mem_map]
  constructor
  · intro hid
    obtain ⟨e, he, hrel, hid⟩ := hid
    rcases List.mem_append.1 he with he | he
    · rw [h.supports e he] at hrel
      cases hrel
    · exact ⟨e, he, hid⟩
  · intro hid
    obtain ⟨e, he, hid⟩ := hid
    exact ⟨e, List.mem_append_right a he, h.contradicts e he, hid⟩

theorem relabelled_relation :
    ∀ e ∈ relabelled a relation, e.relation = relation := by
  intro e he
  obtain ⟨item, -, rfl⟩ := List.mem_map.1 he
  rfl

theorem relabelled_decisionId :
    (relabelled a relation).map (·.decisionId) = a.map (·.decisionId) := by
  rw [relabelled, List.map_map]
  rfl

end

-- ====== a direction

theorem observed_wilson (successes n : Nat) :
    (wilsonInterval python successes n).observed = successes / n := by
  unfold wilsonInterval
  split
  case isTrue hn => rw [hn, Nat.cast_zero, div_zero]
  case isFalse => rfl

theorem over_prefix (rest : Text) :
    Direction.over.word <+: "Over".toList ++ ("confident on ".toList ++ rest) := by
  refine ⟨" on ".toList ++ rest, ?_⟩
  have h : Direction.over.word ++ " on ".toList
      = "Over".toList ++ "confident on ".toList := by decide
  rw [← List.append_assoc, h, List.append_assoc]

theorem under_prefix (rest : Text) :
    Direction.under.word <+: "Under".toList ++ ("confident on ".toList ++ rest) := by
  refine ⟨" on ".toList ++ rest, ?_⟩
  have h : Direction.under.word ++ " on ".toList
      = "Under".toList ++ "confident on ".toList := by decide
  rw [← List.append_assoc, h, List.append_assoc]

section

variable {detector : String} {key noun : Text} {band : ℚ × ℚ} {stated : ℚ}
  {successes total : Nat} {a b : List EvidenceItem} {cases : List Case}

theorem over_calibrationCandidate (h : (successes : ℚ) / total < stated) :
    (calibrationCandidate python detector key noun band stated successes total a
        b).evidence = a ++ b
      ∧ Direction.over.word <+: (calibrationCandidate python detector key noun band
        stated successes total a b).statement := by
  unfold calibrationCandidate
  simp only [observed_wilson, decide_eq_true h, if_true, List.append_assoc]
  exact ⟨trivial, over_prefix _⟩

theorem under_calibrationCandidate (h : ¬(successes : ℚ) / total < stated) :
    (calibrationCandidate python detector key noun band stated successes total a
        b).evidence = relabelled b .supports ++ relabelled a .contradicts
      ∧ Direction.under.word <+: (calibrationCandidate python detector key noun band
        stated successes total a b).statement := by
  unfold calibrationCandidate
  simp only [observed_wilson, decide_eq_false h, Bool.false_eq_true, if_false,
    List.append_assoc]
  exact ⟨trivial, under_prefix _⟩

theorem directed_calibrationCandidate
    (hsuccesses : (cases.filter (·.success)).length = successes)
    (htotal : cases.length = total) (hsupports : ∀ e ∈ a, e.relation = .supports)
    (hcontradicts : ∀ e ∈ b, e.relation = .contradicts)
    (hfailed : ∀ id, id ∈ a.map (·.decisionId)
      ↔ ∃ x ∈ cases, x.decisionId = id ∧ x.success = false)
    (hworked : ∀ id, id ∈ b.map (·.decisionId)
      ↔ ∃ x ∈ cases, x.decisionId = id ∧ x.success = true) :
    Directed (calibrationCandidate python detector key noun band stated successes
      total a b) cases stated := by
  rw [← hsuccesses, ← htotal]
  by_cases hover : rate cases < stated
  · obtain ⟨hevidence, hword⟩ := @over_calibrationCandidate python detector key noun
      band stated _ _ a b hover
    have hsides := Sides.mk hevidence hsupports hcontradicts
    refine ⟨.over, hword, iff_of_true rfl hover, fun id => ?_, fun id => ?_⟩
    · rw [hsides.mem_supporting, hfailed]
      exact Iff.rfl
    · rw [hsides.mem_contradicting, hworked]
      simp [Direction.Against]
  · obtain ⟨hevidence, hword⟩ := @under_calibrationCandidate python detector key
      noun band stated _ _ a b hover
    have hsides := Sides.mk hevidence relabelled_relation relabelled_relation
    have hnot : ¬Direction.under = .over := Direction.noConfusion
    refine ⟨.under, hword, iff_of_false hnot hover, fun id => ?_, fun id => ?_⟩
    · rw [hsides.mem_supporting, relabelled_decisionId, hworked]
      exact Iff.rfl
    · rw [hsides.mem_contradicting, relabelled_decisionId, hfailed]
      simp [Direction.Against]

end

-- ======= the bands

theorem mem_rest {q : α → Bool} {rows : List α} {x : α}
    [DecidablePred fun p => p ∉ rows.filter q] :
    x ∈ rows.filter (fun p => decide (p ∉ rows.filter q))
      ↔ x ∈ rows ∧ q x = false := by
  rw [List.mem_filter, decide_eq_true_eq, List.mem_filter]
  refine and_congr_right fun hx => ?_
  rw [not_and, Bool.not_eq_true]
  exact ⟨fun h => h hx, fun h _ => h⟩

theorem length_successes {f : α → Case} {q : α → Bool} (rows : List α)
    (h : ∀ x, (f x).success = q x) :
    ((rows.map f).filter (·.success)).length = (rows.filter q).length := by
  rw [List.filter_map, List.length_map]
  congr 1
  exact List.filter_congr fun x _ => h x

theorem mem_side_iff {f : α → Case} {g : α → EvidenceItem} {value : Bool}
    {rows side : List α} (hid : ∀ x, (g x).decisionId = (f x).decisionId)
    (hside : ∀ x, x ∈ side ↔ x ∈ rows ∧ (f x).success = value) :
    id ∈ (side.map g).map (·.decisionId)
      ↔ ∃ x ∈ rows.map f, x.decisionId = id ∧ x.success = value := by
  rw [List.map_map, List.mem_map]
  constructor
  · intro h
    obtain ⟨x, hx, heq⟩ := h
    obtain ⟨hrows, hvalue⟩ := (hside x).1 hx
    exact ⟨f x, List.mem_map_of_mem hrows, (hid x).symm.trans heq, hvalue⟩
  · intro h
    obtain ⟨y, hy, heq, hvalue⟩ := h
    obtain ⟨x, hx, rfl⟩ := List.mem_map.1 hy
    exact ⟨x, (hside x).2 ⟨hx, hvalue⟩, (hid x).trans heq⟩

theorem directed_decisionBand (band : ℚ × ℚ)
    (rows : List (DecisionRow × OutcomeRow)) :
    Directed (decisionBand python band rows) (decisionCases rows)
      (Decisions.stated (rows.map (·.1.confidence))) := by
  apply directed_calibrationCandidate
  · exact length_successes rows fun _ => rfl
  · exact List.length_map ..
  · intro e he
    obtain ⟨p, -, rfl⟩ := List.mem_map.1 he
    rfl
  · intro e he
    obtain ⟨p, -, rfl⟩ := List.mem_map.1 he
    rfl
  · exact fun id => mem_side_iff (fun _ => rfl) fun _ => mem_rest
  · exact fun id => mem_side_iff (fun _ => rfl) fun _ => List.mem_filter

theorem directed_assumptionBand (band : ℚ × ℚ) (members : List AssumptionRow) :
    Directed (assumptionBand python band members) (assumptionCases members)
      (Decisions.stated (members.map (·.confidence))) := by
  apply directed_calibrationCandidate
  · exact length_successes members fun _ => rfl
  · exact List.length_map ..
  · intro e he
    obtain ⟨a, -, rfl⟩ := List.mem_map.1 he
    rfl
  · intro e he
    obtain ⟨a, -, rfl⟩ := List.mem_map.1 he
    rfl
  · exact fun id => mem_side_iff (fun _ => rfl) fun _ => mem_rest
  · exact fun id => mem_side_iff (fun _ => rfl) fun _ => List.mem_filter

/-- A candidate of calibration is of a band, and is directed by the cases of it. -/
theorem directed_calibration (hc : c ∈ detectCalibrationPatterns python corpus) :
    ∃ band : ℚ × ℚ, c.subjectKey = .text (bandKey band)
      ∧ (c.detector = "decision_calibration"
          ∧ Directed c (decisionCases (bandDecisions corpus band))
            (Decisions.stated ((bandDecisions corpus band).map (·.1.confidence)))
        ∨ c.detector = "assumption_calibration"
          ∧ Directed c (assumptionCases (bandAssumptions corpus band))
            (Decisions.stated ((bandAssumptions corpus band).map (·.confidence)))) := by
  rcases List.mem_append.1 hc with hmem | hmem
  · obtain ⟨g, hg, rfl⟩ := List.mem_map.1 hmem
    refine ⟨g.1, rfl, .inl ⟨rfl, ?_⟩⟩
    have hrows : g.2 = bandDecisions corpus g.1 := snd_of_mem_grouped hg
    rw [← hrows]
    exact directed_decisionBand g.1 g.2
  · obtain ⟨g, hg, rfl⟩ := List.mem_map.1 hmem
    refine ⟨g.1, rfl, .inr ⟨rfl, ?_⟩⟩
    have hmembers : g.2 = bandAssumptions corpus g.1 := snd_of_mem_grouped hg
    rw [← hmembers]
    exact directed_assumptionBand g.1 g.2

-- ======== the keys

theorem key_assumption {groupId : Id} {members : List AssumptionRow}
    (h : assumptionCandidate python groupId members = some c) :
    c.key = ("assumption_group", .group groupId) := by
  unfold assumptionCandidate at h
  simp only at h
  split at h
  case isTrue => cases h
  case isFalse => exact Option.some.inj h ▸ rfl

theorem detector_assumption (hc : c ∈ detectAssumptionPatterns python corpus) :
    c.detector = "assumption_group" := by
  obtain ⟨g, -, hg⟩ := List.mem_filterMap.1 hc
  exact congrArg Prod.fst (key_assumption hg)

theorem detector_timing (hc : c ∈ detectTimingPatterns corpus windowDays) :
    c.detector = "slow_resolution" := by
  unfold detectTimingPatterns at hc
  simp only at hc
  split at hc
  case isTrue => cases hc
  case isFalse => exact List.mem_singleton.1 hc ▸ rfl

theorem detector_choice (hc : c ∈ detectChoicePatterns corpus) :
    c.detector = "reversal_rate" := by
  unfold detectChoicePatterns at hc
  simp only at hc
  split at hc
  case isTrue => cases hc
  case isFalse => exact List.mem_singleton.1 hc ▸ rfl

theorem detector_calibration (hc : c ∈ detectCalibrationPatterns python corpus) :
    c.detector = "decision_calibration" ∨ c.detector = "assumption_calibration" := by
  obtain ⟨band, -, hband⟩ := directed_calibration hc
  exact hband.imp And.left And.left

theorem nodup_append_keys {l m : List Candidate} (hl : (l.map Candidate.key).Nodup)
    (hm : (m.map Candidate.key).Nodup)
    (hapart : ∀ c ∈ l, ∀ d ∈ m, c.detector ≠ d.detector) :
    ((l ++ m).map Candidate.key).Nodup := by
  rw [List.map_append]
  apply List.nodup_append.2
  refine ⟨hl, hm, fun a ha b hb hab => ?_⟩
  obtain ⟨c, hc, rfl⟩ := List.mem_map.1 ha
  obtain ⟨d, hd, rfl⟩ := List.mem_map.1 hb
  exact hapart c hc d hd (congrArg Prod.fst hab)

theorem nodup_of_le_one {l : List Candidate} (h : l.length ≤ 1) :
    (l.map Candidate.key).Nodup := by
  rcases l with _ | ⟨c, _ | ⟨d, rest⟩⟩
  · exact List.nodup_nil
  · exact List.nodup_singleton _
  · simp at h

theorem map_filterMap_sublist {β κ : Type} {f : α → Option β} {k : β → κ}
    {h : α → κ} (hk : ∀ a b, f a = some b → k b = h a) (l : List α) :
    ((l.filterMap f).map k).Sublist (l.map h) := by
  induction l with
  | nil => exact List.Sublist.slnil
  | cons a rest ih =>
    cases ha : f a with
    | none =>
      rw [List.filterMap_cons_none ha, List.map_cons]
      exact ih.cons _
    | some b =>
      rw [List.filterMap_cons_some ha, List.map_cons, List.map_cons, hk a b ha]
      exact ih.cons_cons _

theorem nodup_assumption :
    ((detectAssumptionPatterns python corpus).map Candidate.key).Nodup := by
  have hkeys := (nodup_grouped Prod.fst (corpus.assumptions.filterMap fun a =>
    a.groupId.map fun g => (g, a))).map (f := fun id => ("assumption_group",
      SubjectKey.group id)) fun a b hab => SubjectKey.group.inj
        (congrArg Prod.snd hab)
  rw [List.map_map] at hkeys
  exact (map_filterMap_sublist (fun g c hg => key_assumption hg) _).nodup hkeys

theorem nodup_bandKeys : (Decisions.bands.map bandKey).Nodup := by decide +kernel

theorem bandOf_mem (confidence : ℚ) :
    Decisions.bandOf confidence ∈ Decisions.bands := by
  unfold Decisions.bandOf
  cases hfind : Decisions.bands.find? fun b =>
      decide (b.1 ≤ confidence) && decide (confidence < b.2) with
  | none => simp [Decisions.bands]
  | some b => exact List.mem_of_find?_eq_some hfind

theorem nodup_bands {confidence : α → ℚ} {xs : List α} {detector : String}
    {f : (ℚ × ℚ) × List α → Candidate}
    (hf : ∀ g, (f g).key = (detector, .text (bandKey g.1))) :
    (((grouped (fun x => Decisions.bandOf (confidence x)) xs).map f).map
      Candidate.key).Nodup := by
  have hkeys := nodup_grouped (fun x => Decisions.bandOf (confidence x)) xs
  have hbands : ∀ g ∈ grouped (fun x => Decisions.bandOf (confidence x)) xs,
      g.1 ∈ Decisions.bands := by
    intro g hg
    obtain ⟨x, -, hx⟩ := mem_grouped_keys.1 (List.mem_map_of_mem hg)
    exact hx ▸ bandOf_mem _
  rw [List.map_map]
  refine (List.Nodup.of_map _ hkeys).map_on fun g hg g' hg' heq => ?_
  have hkey : bandKey g.1 = bandKey g'.1 := by
    have hpair : (f g).key = (f g').key := heq
    rw [hf, hf] at hpair
    exact SubjectKey.text.inj (congrArg Prod.snd hpair)
  have hband : g.1 = g'.1 :=
    List.inj_on_of_nodup_map nodup_bandKeys (hbands g hg) (hbands g' hg') hkey
  exact List.inj_on_of_nodup_map hkeys hg hg' hband

theorem nodup_calibration :
    ((detectCalibrationPatterns python corpus).map Candidate.key).Nodup := by
  apply nodup_append_keys
  · exact nodup_bands fun g => rfl
  · exact nodup_bands fun g => rfl
  · intro c hc d hd
    obtain ⟨g, -, rfl⟩ := List.mem_map.1 hc
    obtain ⟨g', -, rfl⟩ := List.mem_map.1 hd
    show "decision_calibration" ≠ "assumption_calibration"
    decide

theorem nodup_candidates (python : Python) (corpus : Corpus) (windowDays : ℚ) :
    ((allDetectors python corpus windowDays).map Candidate.key).Nodup := by
  have htiming : (detectTimingPatterns corpus windowDays).length ≤ 1 := by
    unfold detectTimingPatterns
    simp only
    split <;> simp
  have hchoice : (detectChoicePatterns corpus).length ≤ 1 := by
    unfold detectChoicePatterns
    simp only
    split <;> simp
  refine nodup_append_keys (nodup_append_keys (nodup_append_keys nodup_assumption
    (nodup_of_le_one htiming) ?_) (nodup_of_le_one hchoice) ?_) nodup_calibration ?_
  · intro c hc d hd
    rw [detector_assumption hc, detector_timing hd]
    decide
  · intro c hc d hd
    rw [detector_choice hd]
    rcases List.mem_append.1 hc with hc | hc
    · rw [detector_assumption hc]
      decide
    · rw [detector_timing hc]
      decide
  · intro c hc d hd
    have hd := detector_calibration hd
    rcases List.mem_append.1 hc with hc | hc
    · rcases List.mem_append.1 hc with hc | hc
      · rw [detector_assumption hc]
        rcases hd with hd | hd <;> rw [hd] <;> decide
      · rw [detector_timing hc]
        rcases hd with hd | hd <;> rw [hd] <;> decide
    · rw [detector_choice hc]
      rcases hd with hd | hd <;> rw [hd] <;> decide

-- ======= the links

/-- What an item of evidence is a link to. -/
def EvidenceItem.link (e : EvidenceItem) : Id × Option Id × Option Id :=
  (e.decisionId, e.assumptionId, e.outcomeId)

theorem nodup_sides {α ι : Type} {ident : α → ι} {xs : List α} {p q : α → Bool}
    {f g : α → EvidenceItem} (who : Id × Option Id × Option Id → Option ι)
    (hxs : (xs.map ident).Nodup) (hpq : ∀ x ∈ xs, p x = true → q x = false)
    (hf : ∀ x, who (f x).link = some (ident x))
    (hg : ∀ x, who (g x).link = some (ident x)) :
    (((xs.filter p).map f ++ (xs.filter q).map g).map EvidenceItem.link).Nodup := by
  have hsome : (((xs.filter p).map f ++ (xs.filter q).map g).map
      EvidenceItem.link).map who = ((xs.filter p ++ xs.filter q).map ident).map
        some := by
    simp only [List.map_append, List.map_map]
    congr 1
    · exact List.map_congr_left fun x _ => hf x
    · exact List.map_congr_left fun x _ => hg x
  have hnodup : xs.Nodup := hxs.of_map
  have happend : (xs.filter p ++ xs.filter q).Nodup := by
    apply List.nodup_append.2
    refine ⟨hnodup.filter p, hnodup.filter q, fun x hx y hy hxy => ?_⟩
    obtain ⟨hmem, hp⟩ := List.mem_filter.1 hx
    rw [← hxy] at hy
    exact Bool.false_ne_true ((hpq x hmem hp).symm.trans (List.mem_filter.1 hy).2)
  have hsub : ∀ x ∈ xs.filter p ++ xs.filter q, x ∈ xs := by
    intro x hx
    exact (List.mem_append.1 hx).elim List.mem_of_mem_filter List.mem_of_mem_filter
  apply List.Nodup.of_map who
  rw [hsome]
  apply List.Nodup.map (Option.some_injective ι)
  refine happend.map_on fun x hx y hy hxy => ?_
  exact List.inj_on_of_nodup_map hxs (hsub x hx) (hsub y hy) hxy

theorem links_relabelled {items : List EvidenceItem} :
    (relabelled items relation).map EvidenceItem.link
      = items.map EvidenceItem.link := by
  rw [relabelled, List.map_map]
  rfl

theorem nodup_links_calibrationCandidate {detector : String} {key noun : Text}
    {band : ℚ × ℚ} {stated : ℚ} {successes total : Nat} {a b : List EvidenceItem}
    (h : ((a ++ b).map EvidenceItem.link).Nodup) :
    ((calibrationCandidate python detector key noun band stated successes total a
      b).evidence.map EvidenceItem.link).Nodup := by
  by_cases hover : (successes : ℚ) / total < stated
  · rw [(over_calibrationCandidate hover).1]
    exact h
  · rw [(under_calibrationCandidate hover).1, List.map_append, links_relabelled,
      links_relabelled]
    rw [List.map_append] at h
    exact List.nodup_append_comm.1 h

theorem nodup_links_assumption {groupId : Id} {members : List AssumptionRow}
    (hmembers : (members.map (·.id)).Nodup)
    (h : assumptionCandidate python groupId members = some c) :
    (c.evidence.map EvidenceItem.link).Nodup := by
  unfold assumptionCandidate at h
  simp only at h
  split at h
  case isTrue => cases h
  case isFalse =>
    rw [← Option.some.inj h]
    refine @nodup_sides _ _ (fun m : AssumptionRow => m.id) _ _ _ _ _ (fun l => l.2.1)
      ?_ ?_ (fun _ => rfl) fun _ => rfl
    · exact (List.filter_sublist.map _).nodup hmembers
    · intro m _ hm
      by_cases hheld : m.held = some .held <;> simp [hheld] at hm ⊢

theorem members_sublist {g : Id × List (Id × AssumptionRow)}
    (hg : g ∈ grouped Prod.fst (corpus.assumptions.filterMap fun a =>
      a.groupId.map fun id => (id, a))) :
    (g.2.map Prod.snd).Sublist corpus.assumptions := by
  rw [snd_of_mem_grouped hg]
  refine (List.filter_sublist.map Prod.snd).trans ?_
  have h := map_filterMap_sublist (f := fun a : AssumptionRow =>
    a.groupId.map fun id => (id, a)) (k := Prod.snd) (h := id) ?_ corpus.assumptions
  · rwa [List.map_id] at h
  · intro a b hab
    obtain ⟨id, -, rfl⟩ := Option.map_eq_some_iff.1 hab
    rfl

theorem timingRow_id {d : DecisionRow} {r : DecisionRow × OutcomeRow × ℚ}
    (h : timingRow corpus d = some r) : r.1.id = d.id := by
  unfold timingRow at h
  split at h
  case h_1 => cases h
  case h_2 outcome _ =>
    simp only at h
    split at h
    case isTrue => cases h
    case isFalse =>
      split at h
      case isTrue => cases h
      case isFalse => exact Option.some.inj h ▸ rfl

theorem nodup_links_timing (hc : c ∈ detectTimingPatterns corpus windowDays) :
    (c.evidence.map EvidenceItem.link).Nodup := by
  have hrows : ((corpus.decisions.filterMap (timingRow corpus)).map (·.1.id)).Nodup :=
    (map_filterMap_sublist (fun _ _ => timingRow_id) _).nodup corpus.decisionKeys
  unfold detectTimingPatterns at hc
  simp only at hc
  split at hc
  case isTrue => cases hc
  case isFalse =>
    rw [List.mem_singleton.1 hc]
    refine nodup_sides (fun l => some l.1) hrows ?_ (fun _ => rfl) fun _ => rfl
    intro r _ hr
    rw [hr, Bool.not_true]

theorem nodup_links_choice (hc : c ∈ detectChoicePatterns corpus) :
    (c.evidence.map EvidenceItem.link).Nodup := by
  unfold detectChoicePatterns at hc
  simp only at hc
  split at hc
  case isTrue => cases hc
  case isFalse =>
    rw [List.mem_singleton.1 hc]
    refine nodup_sides (fun l => some l.1) corpus.decisionKeys ?_ (fun _ => rfl)
      fun _ => rfl
    intro d _ hd
    rw [of_decide_eq_true hd]
    rfl

theorem decisionRows_sublist :
    ((decisionRows corpus).map (·.1.id)).Sublist (corpus.decisions.map (·.id)) := by
  refine map_filterMap_sublist (fun d p hp => ?_) _
  split at hp
  case h_1 =>
    split at hp
    case isTrue => cases hp
    case isFalse =>
      split at hp
      case isTrue => cases hp
      case isFalse => exact Option.some.inj hp ▸ rfl
  case h_2 => cases hp

theorem nodup_links_calibration (hc : c ∈ detectCalibrationPatterns python corpus) :
    (c.evidence.map EvidenceItem.link).Nodup := by
  rcases List.mem_append.1 hc with hc | hc
  · obtain ⟨g, hg, rfl⟩ := List.mem_map.1 hc
    have hrows : (g.2.map (·.1.id)).Nodup := by
      rw [snd_of_mem_grouped hg]
      exact ((List.filter_sublist.map _).trans decisionRows_sublist).nodup
        corpus.decisionKeys
    apply nodup_links_calibrationCandidate
    apply nodup_sides (fun l => some l.1) hrows
    · exact fun x hx hrest => (mem_rest.1 (List.mem_filter.2 ⟨hx, hrest⟩)).2
    · exact fun _ => rfl
    · exact fun _ => rfl
  · obtain ⟨g, hg, rfl⟩ := List.mem_map.1 hc
    have hmembers : (g.2.map (·.id)).Nodup := by
      rw [snd_of_mem_grouped hg]
      exact ((List.filter_sublist.trans List.filter_sublist).map _).nodup
        corpus.assumptionKeys
    apply nodup_links_calibrationCandidate
    apply nodup_sides (fun l => l.2.1) hmembers
    · exact fun x hx hrest => (mem_rest.1 (List.mem_filter.2 ⟨hx, hrest⟩)).2
    · exact fun _ => rfl
    · exact fun _ => rfl

theorem nodup_links (hc : c ∈ allDetectors python corpus windowDays) :
    (c.evidence.map EvidenceItem.link).Nodup := by
  rcases List.mem_append.1 hc with hc | hc
  · rcases List.mem_append.1 hc with hc | hc
    · rcases List.mem_append.1 hc with hc | hc
      · obtain ⟨g, hg, hcandidate⟩ := List.mem_filterMap.1 hc
        refine nodup_links_assumption ?_ hcandidate
        exact ((members_sublist hg).map _).nodup corpus.assumptionKeys
      · exact nodup_links_timing hc
    · exact nodup_links_choice hc
  · exact nodup_links_calibration hc

end MemoryOS.Patterns
