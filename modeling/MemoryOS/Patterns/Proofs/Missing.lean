/-
When an absence is named (`domain/missing.py`, `application/missing.py`).

`worth_saying` asks for more than its two counts: the confidence of two
against one, and of three against two, is below the bar (`worthSaying_iff`).
And a gap has to cite. A pattern whose decisions are gone cites itself alone, and
an entity cites five of its mentions, which may all be of one memory. What names
the entity only counts against it. `absences_named_iff` says what a corpus must not hold.
-/
import Mathlib.Tactic.IntervalCases
import Mathlib.Tactic.Linarith
import Mathlib.Tactic.NormNum
import MemoryOS.Patterns.Missing

namespace MemoryOS.Missing

open Lib Decisions Patterns

variable (env : Env) (c : Corpus) (about : Text) (kind : Option GapKind)
  (now : Timestamp)

-- ====== statement vocabulary

/-- The primary keys that are cited. -/
structure Keyed : Prop where
  decisions : (c.tables.decisions.map (·.id)).Nodup
  assumptions : (c.tables.assumptions.map (·.id)).Nodup

/-- Two instances, and more of them than there are against. -/
def Supports (supporting contradicting : Nat) : Prop :=
  2 ≤ supporting ∧ contradicting < supporting

/-- Two distinct objects are cited. -/
def CitesTwo (gap : Gap) : Prop :=
  ∃ a ∈ gap.evidence, ∃ b ∈ gap.evidence, (a.kind, a.refId) ≠ (b.kind, b.refId)

/-- Absences are named exactly when history supports them. -/
structure Named : Prop where
  /-- A candidate is reported if and only if the counts say so. -/
  reported : ∀ gap ∈ considered env c about kind now,
    gap ∈ (findMissing env c about kind now).gaps
      ↔ Supports gap.supporting gap.contradicting
  cites : ∀ gap ∈ (findMissing env c about kind now).gaps, CitesTwo gap
  /-- No decision names what is reported as orphaned. -/
  unexplained : ∀ gap ∈ (findMissing env c about kind now).gaps,
    gap.kind = .orphanedWork →
      ∀ d ∈ c.tables.decisions, overlap env gap.subject d.question = 0

/-- The counts whose confidence is below the bar. -/
def Narrow (supporting contradicting : Nat) : Prop :=
  supporting = 2 ∧ contradicting = 1 ∨ supporting = 3 ∧ contradicting = 2

/-- The kind is one of those that are asked for. -/
def Wanted (k : GapKind) : Prop := kind = none ∨ kind = some k

/-- When the newest current memory happened. -/
def newest : Option Timestamp :=
  latest ((c.db.memories.filter (·.isCurrent)).map (·.occurredAt))

/-- What a corpus must not hold. -/
structure Fair : Prop where
  /-- No candidate is supported narrowly. -/
  clear : ∀ gap ∈ considered env c about kind now,
    ¬ Narrow gap.supporting gap.contradicting
  /-- A supported pattern still has a decision. -/
  patterns : Wanted kind .repeatedPattern → ∀ p ∈ c.patterns,
    resembles env (((resolve env c about).map (·.question)).getD about) p
      = true →
    Supports p.supportCount p.contradictionCount → p.evidence ≠ []
  /-- A supported entity that is quiet is named by no decision, and its first
  five mentions are not of one memory. -/
  entities : Wanted kind .orphanedWork → ∀ e ∈ c.db.entities, ∀ latest,
    newest c = some latest → (quietSince env c about latest e).isSome = true →
    Supports (seen c e) (explaining env c e.canonicalName).length →
      explaining env c e.canonicalName = []
        ∧ ∃ m ∈ cited c e, ∃ m' ∈ cited c e, m.id ≠ m'.id

-- ========= the bar

section
variable {s k : Nat}

theorem minConfidence_eq : minConfidence = 1 / 2 := by
  unfold minConfidence patternConfidence minSupport maxConfidence
  norm_num

theorem worthSaying_iff : worthSaying s k = true ↔ Supports s k
    ∧ ¬ Narrow s k := by
  unfold worthSaying Supports Narrow
  rw [Bool.and_eq_true, Bool.and_eq_true, decide_eq_true_eq, decide_eq_true_eq,
    decide_eq_true_eq, minConfidence_eq]
  refine and_congr_right fun h => ?_
  obtain ⟨hs, hk⟩ := h
  have hs : 2 ≤ s := hs
  by_cases hmany : 4 ≤ s
  · apply iff_of_true
    · have hsq : (4 : ℚ) ≤ s := by exact_mod_cast hmany
      have hkq : (k : ℚ) < s := by exact_mod_cast hk
      have hk0 : (0 : ℚ) ≤ k := Nat.cast_nonneg k
      have hsufficiency : min 1 ((s : ℚ) / (2 * (minSupport : Nat))) = 1 := by
        apply min_eq_left
        unfold minSupport
        rw [le_div_iff₀ (by norm_num)]
        push_cast
        linarith
      unfold gapConfidence patternConfidence
      rw [if_neg (by omega)]
      simp only
      rw [hsufficiency, mul_one]
      apply le_min
      · unfold maxConfidence
        norm_num
      · rw [div_le_div_iff₀ (by norm_num) (by linarith)]
        linarith
    · omega
  · unfold gapConfidence patternConfidence minSupport maxConfidence
    interval_cases s <;> interval_cases k <;> norm_num

end

-- ====== the candidates

section
variable {env c about kind now} {gap : Gap} {target : Option Decision}

theorem mem_gaps : gap ∈ (findMissing env c about kind now).gaps
    ↔ gap ∈ considered env c about kind now ∧ gap.sayable = true := by
  show gap ∈ (((considered env c about kind now).filter Gap.sayable).mergeSort before) ↔ _
  rw [List.mem_mergeSort, List.mem_filter]

theorem sayable_iff : gap.sayable = true
    ↔ (Supports gap.supporting gap.contradicting
        ∧ ¬ Narrow gap.supporting gap.contradicting)
      ∧ 2 ≤ gap.evidence.length := by
  unfold Gap.sayable
  rw [Bool.and_eq_true, worthSaying_iff, decide_eq_true_eq]
  rfl

theorem wanted_iff {k : GapKind} :
    (kind.all fun wanted => decide (k = wanted)) = true ↔ Wanted kind k := by
  unfold Wanted
  cases kind with
  | none => simp
  | some wanted => simp [eq_comm]

/-- As many citations as instances, and all distinct. -/
structure CitesEach (gap : Gap) : Prop where
  length : gap.evidence.length = gap.supporting
  distinct : (gap.evidence.map fun e => (e.kind, e.refId)).Nodup

theorem CitesEach.citesTwo (h : CitesEach gap) (hs : 2 ≤ gap.supporting) :
    CitesTwo gap := by
  obtain ⟨hlength, hdistinct⟩ := h
  unfold CitesTwo
  cases hevidence : gap.evidence with
  | nil =>
    rw [hevidence] at hlength
    exact absurd (hlength ▸ hs) (by decide)
  | cons a rest =>
    cases rest with
    | nil =>
      have hone : 1 = gap.supporting := by rw [← hlength, hevidence]; rfl
      omega
    | cons b rest =>
      rw [hevidence] at hdistinct
      refine ⟨a, List.mem_cons_self, b,
        List.mem_cons_of_mem _ List.mem_cons_self, ?_⟩
      intro heq
      exact (List.nodup_cons.1 hdistinct).1
        (List.mem_map.2 ⟨b, List.mem_cons_self, heq.symm⟩)

theorem nodup_refs {ids : List Id} (k : RefKind) (h : ids.Nodup) :
    (ids.map fun id => (k, id)).Nodup :=
  h.map fun _ _ heq => (Prod.mk.inj heq).2

-- the peers are a dictionary
theorem peersOf_nodup (rows : List (Decision × DecisionAssumption)) :
    ((peersOf rows).map Peer.decisionId).Nodup := by
  unfold peersOf
  induction rows using List.reverseRecOn with
  | nil => exact List.nodup_nil
  | append_singleton rows row ih =>
    rw [List.foldl_append]
    exact Upsert.nodup_upsert (fun _ _ => rfl) rfl ih

theorem unstated_spec (h : gap ∈ unstatedAssumptions env c target about) :
    gap.kind = .unstatedAssumption ∧ CitesEach gap := by
  unfold unstatedAssumptions at h
  simp only at h
  split at h
  case isTrue => cases h
  case isFalse =>
    obtain ⟨group, -, rfl⟩ := List.mem_map.1 h
    refine ⟨rfl, List.length_map _, ?_⟩
    have hrefs := nodup_refs .decision (peersOf_nodup group.2)
    show (((peersOf group.2).map fun peer =>
      (⟨.decision, peer.decisionId, peer.question⟩ : Evidence)).map _).Nodup
    rw [List.map_map] at hrefs ⊢
    exact hrefs

theorem mem_repeatedPatterns (h : gap ∈ repeatedPatterns env c target about) :
    ∃ p ∈ c.patterns, resembles env ((target.map (·.question)).getD about) p
      = true
      ∧ gap = patternGap env p := by
  obtain ⟨p, hp, rfl⟩ := List.mem_map.1 h
  exact ⟨p, (List.mem_filter.1 hp).1, (List.mem_filter.1 hp).2, rfl⟩

theorem patternGap_length {p : Pattern} :
    (patternGap env p).evidence.length = p.evidence.length + 1 := by
  unfold patternGap
  rw [List.length_cons, List.length_map]

theorem patternGap_citesTwo {p : Pattern} (h : p.evidence ≠ []) :
    CitesTwo (patternGap env p) := by
  obtain ⟨row, hrow⟩ := List.exists_mem_of_ne_nil _ h
  refine ⟨_, List.mem_cons_self, _,
    List.mem_cons_of_mem _ (List.mem_map.2 ⟨row, hrow, rfl⟩), ?_⟩
  intro heq
  cases (Prod.mk.inj heq).1

theorem mem_orphanedWork : gap ∈ orphanedWork env c about
    ↔ ∃ latest, newest c = some latest ∧ ∃ e ∈ c.db.entities, ∃ last,
      quietSince env c about latest e = some last ∧ orphanGapOf env c e last
        = gap := by
  have hunfold : orphanedWork env c about = (newest c).elim [] fun latest =>
      c.db.entities.filterMap fun e =>
        (quietSince env c about latest e).map (orphanGapOf env c e) := by
    unfold orphanedWork newest
    cases latest _ <;> rfl
  rw [hunfold]
  cases newest c with
  | none => simp
  | some latest =>
    simp only [Option.elim_some, List.mem_filterMap, Option.map_eq_some_iff,
      Option.some.injEq, exists_eq_left']

theorem seen_le {e : Entity} : seen c e ≤ (mentioning c e).length := by
  unfold seen
  refine (List.dedup_sublist _).length_le.trans ?_
  rw [List.length_map]
  exact List.length_filter_le ..

theorem orphanGapOf_length {e : Entity} {last : Timestamp} (h : 2 ≤ seen c e) :
    2 ≤ (orphanGapOf env c e last).evidence.length := by
  have hseen := @seen_le c e
  show 2 ≤ ((cited c e).map _).length
  unfold cited
  rw [List.length_map, List.length_take]
  omega

theorem orphanGapOf_citesTwo {e : Entity} {last : Timestamp} :
    CitesTwo (orphanGapOf env c e last)
      ↔ ∃ m ∈ cited c e, ∃ m' ∈ cited c e, m.id ≠ m'.id := by
  unfold CitesTwo orphanGapOf
  simp only [List.mem_map, exists_exists_and_eq_and, ne_eq, Prod.mk.injEq,
    true_and]

theorem assumed_nodup (hk : Keyed c) :
    ((assumed c).map fun row => row.2.id).Nodup := by
  have hrows : (assumed c).map (fun row => row.2.id)
      = c.tables.decisions.flatMap fun d =>
        (c.tables.assumptions.filter fun a => decide (a.decisionId
          = d.id)).map (·.id) := by
    unfold assumed
    rw [List.map_flatMap]
    simp only [List.map_map, Function.comp_def]
  rw [hrows, List.nodup_flatMap]
  constructor
  · intro d _
    exact hk.assumptions.sublist (List.filter_sublist.map _)
  · refine (List.pairwise_map.1 hk.decisions).imp ?_
    intro d d' hne id hid hid'
    obtain ⟨a, ha, rfl⟩ := List.mem_map.1 hid
    obtain ⟨a', ha', heq⟩ := List.mem_map.1 hid'
    rw [List.mem_filter, decide_eq_true_eq] at ha ha'
    obtain rfl := List.inj_on_of_nodup_map hk.assumptions ha'.1 ha.1 heq
    exact hne (ha.2.symm.trans ha'.2)

theorem unevaluated_spec (hk : Keyed c)
    (h : gap ∈ unevaluatedAssumptions env c target about now) :
    gap.kind = .unevaluatedAssumption ∧ CitesEach gap := by
  obtain ⟨group, hgroup, hgap⟩ := List.mem_filterMap.1 h
  have hmembers := Grouped.snd_of_mem_grouped hgroup
  unfold unevaluatedOf at hgap
  split at hgap
  case h_1 => cases hgap
  case h_2 =>
    split at hgap
    case isTrue => cases hgap
    case isFalse =>
      split at hgap
      case isTrue => cases hgap
      case isFalse =>
        split at hgap
        case isTrue => cases hgap
        case isFalse =>
          cases hgap
          refine ⟨rfl, List.length_map _, ?_⟩
          have hids : (((group.2.filter fun row => row.2.held.isNone)).map
              fun row => row.2.id).Nodup := by
            rw [hmembers]
            exact (assumed_nodup hk).sublist
              ((List.filter_sublist.trans
                (List.filter_sublist.trans List.filter_sublist)).map _)
          have hrefs := nodup_refs .assumption hids
          show ((((group.2.filter fun row => row.2.held.isNone)).map fun row =>
            (⟨.assumption, row.2.id, row.2.statement⟩ : Evidence)).map _).Nodup
          rw [List.map_map] at hrefs ⊢
          exact hrefs

theorem mem_considered : gap ∈ considered env c about kind now
    ↔ (gap ∈ unstatedAssumptions env c (resolve env c about) about
        ∨ gap ∈ repeatedPatterns env c (resolve env c about) about
        ∨ gap ∈ orphanedWork env c about
        ∨ gap ∈ unevaluatedAssumptions env c (resolve env c about) about now)
      ∧ Wanted kind gap.kind := by
  unfold considered
  simp only [List.mem_filter, List.mem_append, wanted_iff, or_assoc]

-- ====== the report

theorem mem_gaps_iff (hgap : gap ∈ considered env c about kind now) :
    gap ∈ (findMissing env c about kind now).gaps
      ↔ (Supports gap.supporting gap.contradicting
          ∧ ¬ Narrow gap.supporting gap.contradicting)
        ∧ 2 ≤ gap.evidence.length := by
  rw [mem_gaps, sayable_iff, and_iff_right hgap]

theorem Fair.spec (hk : Keyed c) (h : Fair env c about kind now)
    (hgap : gap ∈ considered env c about kind now)
    (hs : Supports gap.supporting gap.contradicting) :
    2 ≤ gap.evidence.length ∧ CitesTwo gap
      ∧ (gap.kind = .orphanedWork →
        ∀ d ∈ c.tables.decisions, overlap env gap.subject d.question = 0) := by
  obtain ⟨hgap, hwanted⟩ := mem_considered.1 hgap
  rcases hgap with hgap | hgap | hgap | hgap
  · obtain ⟨hkind, hcites⟩ := unstated_spec hgap
    refine ⟨hcites.length ▸ hs.1, hcites.citesTwo hs.1, fun hother => ?_⟩
    rw [hkind] at hother
    cases hother
  · obtain ⟨p, hp, hresembles, rfl⟩ := mem_repeatedPatterns hgap
    have hne := h.patterns hwanted p hp hresembles hs
    refine ⟨?_, patternGap_citesTwo hne, fun hother => by cases hother⟩
    rw [patternGap_length]
    have hpos := List.length_pos_iff.2 hne
    omega
  · obtain ⟨latest, hlatest, e, he, last, hlast, rfl⟩ := mem_orphanedWork.1 hgap
    obtain ⟨hunnamed, hcited⟩ := h.entities hwanted e he latest hlatest
      (Option.isSome_iff_exists.2 ⟨last, hlast⟩) hs
    refine ⟨orphanGapOf_length hs.1, orphanGapOf_citesTwo.2 hcited, ?_⟩
    intro _ d hd
    have hzero := List.filter_eq_nil_iff.1 hunnamed d hd
    rw [decide_eq_true_eq] at hzero
    exact Nat.eq_zero_of_not_pos hzero
  · obtain ⟨hkind, hcites⟩ := unevaluated_spec hk hgap
    refine ⟨hcites.length ▸ hs.1, hcites.citesTwo hs.1, fun hother => ?_⟩
    rw [hkind] at hother
    cases hother

theorem Fair.named (hk : Keyed c) (h : Fair env c about kind now) :
    Named env c about kind now := by
  have hreported : ∀ gap ∈ considered env c about kind now,
      gap ∈ (findMissing env c about kind now).gaps
        ↔ Supports gap.supporting gap.contradicting := by
    intro gap hgap
    rw [mem_gaps_iff hgap]
    exact ⟨fun hnamed => hnamed.1.1,
      fun hs => ⟨⟨hs, h.clear gap hgap⟩, (h.spec hk hgap hs).1⟩⟩
  refine ⟨hreported, ?_, ?_⟩
  · intro gap hnamed
    have hgap := (mem_gaps.1 hnamed).1
    exact (h.spec hk hgap ((hreported gap hgap).1 hnamed)).2.1
  · intro gap hnamed
    have hgap := (mem_gaps.1 hnamed).1
    exact (h.spec hk hgap ((hreported gap hgap).1 hnamed)).2.2

theorem Named.fair (h : Named env c about kind now) :
    Fair env c about kind now := by
  have hreported : ∀ gap ∈ considered env c about kind now,
      Supports gap.supporting gap.contradicting →
      ¬ Narrow gap.supporting gap.contradicting ∧ 2 ≤ gap.evidence.length := by
    intro gap hgap hs
    obtain ⟨hcounts, hcites⟩ :=
      (mem_gaps_iff hgap).1 ((h.reported gap hgap).2 hs)
    exact ⟨hcounts.2, hcites⟩
  constructor
  · intro gap hgap hnarrow
    have hs : Supports gap.supporting gap.contradicting := by
      unfold Narrow at hnarrow
      unfold Supports
      omega
    exact (hreported gap hgap hs).1 hnarrow
  · intro hwanted p hp hresembles hs hnone
    have hgap : patternGap env p ∈ considered env c about kind now :=
      mem_considered.2 ⟨.inr (.inl (List.mem_map.2
        ⟨p, List.mem_filter.2 ⟨hp, hresembles⟩, rfl⟩)), hwanted⟩
    have hcites := (hreported _ hgap hs).2
    rw [patternGap_length, hnone] at hcites
    exact absurd hcites (by decide)
  · intro hwanted e he latest hlatest hquiet hs
    obtain ⟨last, hlast⟩ := Option.isSome_iff_exists.1 hquiet
    have hgap : orphanGapOf env c e last ∈ considered env c about kind now :=
      mem_considered.2 ⟨.inr (.inr (.inl (mem_orphanedWork.2
        ⟨latest, hlatest, e, he, last, hlast, rfl⟩))), hwanted⟩
    have hnamed := (h.reported _ hgap).2 hs
    refine ⟨?_, orphanGapOf_citesTwo.1 (h.cites _ hnamed)⟩
    apply List.filter_eq_nil_iff.2
    intro d hd
    have hzero : overlap env e.canonicalName d.question = 0 :=
      h.unexplained _ hnamed rfl d hd
    rw [decide_eq_true_eq, hzero]
    exact Nat.lt_irrefl 0

end

/-- Absences are named exactly when history supports them if and only if the
corpus is fair. -/
theorem absences_named_iff (hk : Keyed c) :
    Named env c about kind now ↔ Fair env c about kind now :=
  ⟨Named.fair, Fair.named hk⟩

-- ------ three against two is too few

/-- ASCII, and nothing printed. -/
def plainEnv : Env where
  unicode := .ascii
  quoted := id
  shown _ := []
  uuid _ := none
  day _ := []

/-- A pattern that three decisions support and two contradict. -/
def reversals : Pattern where
  id := 1
  statement := "2 decisions were reversed within 90 days".toList
  kind := .choice
  detector := "reversals"
  subjectKey := .text "reversals".toList
  supportCount := 3
  contradictionCount := 2
  confidence := 3 / 10
  firstObserved := none
  lastObserved := none
  dismissal := none
  evidence := [⟨7, .supports, [], none, none⟩]

/-- That pattern, and nothing else. -/
def onePattern : Corpus where
  db := {}
  tables := .empty
  patterns := [reversals]

theorem keyed_onePattern : Keyed onePattern := ⟨List.nodup_nil, List.nodup_nil⟩

/-- Three instances against two are not reported. -/
theorem not_absences_named :
    ¬ ∀ (env : Env) (c : Corpus) (about : Text) (kind : Option GapKind)
      (now : Timestamp), Keyed c → Named env c about kind now := by
  intro hall
  have hnamed := hall plainEnv onePattern [] none 0 keyed_onePattern
  have hgap : patternGap plainEnv reversals ∈ considered plainEnv onePattern [] none 0 := by
    decide +kernel
  have hreported := (hnamed.reported _ hgap).2 ⟨by decide, by decide⟩
  have hsayable : (patternGap plainEnv reversals).sayable = false :=
    by decide +kernel
  rw [mem_gaps, hsayable] at hreported
  cases hreported.2

/-- The corpus is not fair there. -/
theorem absences_named_iff_onePattern :
    Named plainEnv onePattern [] none 0 ↔ Fair plainEnv onePattern [] none 0 :=
  absences_named_iff plainEnv onePattern [] none 0 keyed_onePattern

end MemoryOS.Missing
