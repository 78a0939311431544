/-
What is offered as the outcome of a decision
(`application/outcome_suggest.py`: `find_candidates`).

# The result

`candidates_iff`: the candidates are the eligible memories, closest first and
cut at the limit, exactly when the window ends in the calendar, no memory that
passes the tests is another version of the decision's evidence, and one read of
`merged_into_id` agrees with following the merges to their end.

The loop tests one memory after another (`candidateFor_iff`), in an order that
the sort by gap keeps (`kept_sorted`). It leaves out the memories that the
evidence names; an item that was revised since has another row.
-/
import Mathlib.Data.List.Forall2
import MemoryOS.Decisions.Suggest
import MemoryOS.Entities.Proofs.Merges

namespace MemoryOS

open Lib

namespace Decisions

-- ====== statement vocabulary

/-- What is asked of a memory by itself: it is current, it happened after the
decision and before this, and it says something. -/
structure Late (decision : DecisionContext) (stop : Timestamp) (m : Memory) :
    Prop where
  current : m.isCurrent = true
  undeleted : m.deletedAt = none
  after : ∃ t, m.occurredAt = some t ∧ decision.decidedAt < t ∧ t < stop
  content : ∃ text, m.content = some text ∧ isBlank text = false

/-- The memory is a version of an item that is evidence of the decision. -/
def VersionOfEvidence (db : Db) (decision : DecisionContext) (m : Memory) :
    Prop :=
  ∃ e ∈ db.memories, e.id ∈ decision.evidenceMemoryIds
    ∧ e.sourceId = m.sourceId ∧ e.externalKey = m.externalKey

/-- The memories mention an entity that the merges turned into this one. -/
def Mentions (db : Db) (memoryIds : List Id) (entity : Id) : Prop :=
  ∃ p ∈ mentioned db memoryIds,
    Pointer.Survivor (Entities.mergedInto db) p.2.id entity

/-- Where the evidence mentions an entity, the memory mentions one of those. -/
def Shares (db : Db) (decision : DecisionContext) (m : Memory) : Prop :=
  mentioned db decision.evidenceMemoryIds ≠ [] →
    ∃ entity, Mentions db decision.evidenceMemoryIds entity
      ∧ Mentions db [m.id] entity

/-- The memory may be the outcome of the decision. -/
structure Eligible (db : Db) (decision : DecisionContext) (stop : Timestamp)
    (m : Memory) : Prop where
  late : Late decision stop m
  apart : ¬ VersionOfEvidence db decision m
  shares : Shares db decision m

/-- The candidate says what the memory says. -/
structure Describes (db : Db) (decision : DecisionContext) (c : Candidate)
    (m : Memory) : Prop where
  memoryId : c.memoryId = m.id
  sourceName : c.sourceName = sourceName db m.sourceId
  externalKey : c.externalKey = m.externalKey
  occurredAt : m.occurredAt = some c.occurredAt
  text : m.content = some c.text
  gapDays : c.gapDays = (c.occurredAt - decision.decidedAt) / dayMicroseconds

/-- The candidates are the eligible memories, closest first and cut. -/
def Offers (db : Db) (decision : DecisionContext) (windowDays : ℚ)
    (limit : Nat) : Prop :=
  ∃ (reply : List Candidate) (entityFilter : String) (rows : List Memory),
    candidatesOf db decision windowDays limit = .ok (reply, entityFilter)
      ∧ rows.Nodup
      ∧ (∀ m, m ∈ rows ↔ m ∈ db.memories ∧ Eligible db decision
        (decision.decidedAt + timedeltaDays windowDays) m)
      ∧ rows.Pairwise (fun a b => ∀ s t, a.occurredAt = some s →
        b.occurredAt = some t → s ≤ t)
      ∧ List.Forall₂ (Describes db decision) reply (rows.take limit)

/-- The entities of the memories, by one read of `merged_into_id`. -/
def winners (db : Db) (memoryIds : List Id) : List Id :=
  (mentioned db memoryIds).map fun p => p.2.mergedIntoId.getD p.2.id

/-- What the loop asks of the entities. -/
def Overlaps (db : Db) (decision : DecisionContext) (m : Memory) : Prop :=
  winners db decision.evidenceMemoryIds ≠ [] →
    ∃ w ∈ winners db decision.evidenceMemoryIds, w ∈ winners db [m.id]

/-- A corpus and a window that leave the tests of the loop no room. -/
structure Separable (db : Db) (decision : DecisionContext) (windowDays : ℚ) :
    Prop where
  calendar : ∃ d, windowStop decision windowDays = .ok d
  versions : ∀ m ∈ db.memories,
    Late decision (decision.decidedAt + timedeltaDays windowDays) m →
      Overlaps db decision m → m.id ∉ decision.evidenceMemoryIds →
        ¬ VersionOfEvidence db decision m
  merges : ∀ m ∈ db.memories,
    Late decision (decision.decidedAt + timedeltaDays windowDays) m →
      ¬ VersionOfEvidence db decision m →
        (Overlaps db decision m ↔ Shares db decision m)

section
variable {db : Db} {decision : DecisionContext} {windowDays : ℚ} {limit : Nat}
  {start stop : Timestamp} {m : Memory} {c : Candidate} {ids : List Id} {w : Id}

-- ====== the entities

theorem mem_resolvedEntities :
    w ∈ (resolvedEntities db ids).map (·.1) ↔ w ∈ winners db ids := by
  have hfold : ∀ (found : List (Id × Entity)) (names : List (Id × Text)),
      w ∈ (found.foldl (fun names p =>
          (names.filter fun n =>
            decide (n.1 ≠ p.2.mergedIntoId.getD p.2.id))
            ++ [(p.2.mergedIntoId.getD p.2.id, p.2.canonicalName)])
        names).map (·.1)
        ↔ w ∈ names.map (·.1)
          ∨ w ∈ found.map fun p => p.2.mergedIntoId.getD p.2.id := by
    intro found
    induction found with
    | nil =>
      intro names
      rw [List.map_nil]
      exact (or_iff_left List.not_mem_nil).symm
    | cons p rest ih =>
      intro names
      rw [List.foldl_cons, ih, List.map_append, List.mem_append,
        List.map_singleton, List.mem_singleton, List.map_cons, List.mem_cons,
        or_assoc]
      by_cases hw : w = p.2.mergedIntoId.getD p.2.id
      · exact iff_of_true (.inr (.inl hw)) (.inr (.inl hw))
      · have hkept : w ∈ ((names.filter fun n =>
            decide (n.1 ≠ p.2.mergedIntoId.getD p.2.id)).map (·.1))
              ↔ w ∈ names.map (·.1) := by
          rw [List.mem_map, List.mem_map]
          apply exists_congr
          intro n
          rw [List.mem_filter, decide_eq_true_eq, and_assoc]
          apply and_congr_right
          intro _
          exact ⟨fun h => h.2, fun h => ⟨h ▸ hw, h⟩⟩
        rw [hkept]
  have h := hfold (mentioned db ids) []
  rw [List.map_nil] at h
  exact h.trans (or_iff_right List.not_mem_nil)

-- ======== the loop

/-- What the loop makes of a memory. -/
def candidateFor (db : Db) (decision : DecisionContext) (m : Memory) :
    Option Candidate :=
  match m.occurredAt, m.content with
  | some occurredAt, some content =>
    let decisionEntities := resolvedEntities db decision.evidenceMemoryIds
    let shared := decisionEntities.filter fun n =>
      decide (n.1 ∈ entitiesOf db m.id)
    if occurredAt ≤ decision.decidedAt then none
    else if m.id ∈ decision.evidenceMemoryIds then none
    else if isBlank content then none
    else if !decisionEntities.isEmpty && shared.isEmpty then none
    else
      some
        { memoryId := m.id
          sourceName := sourceName db m.sourceId
          externalKey := m.externalKey
          occurredAt := occurredAt
          occurredAtSource := m.occurredAtSource
          text := content
          gapDays := (occurredAt - decision.decidedAt) / dayMicroseconds
          sharedEntities :=
            (shared.map (·.2)).insertionSort fun a b => a ≤ b
          : Candidate }
  | _, _ => none

/-- The candidates of a window, before they are sorted. -/
def kept (db : Db) (decision : DecisionContext) (stop : Timestamp) :
    List Candidate :=
  (memoriesInRange db decision.decidedAt stop).filterMap
    (candidateFor db decision)

theorem findCandidates_eq :
    (findCandidates db db db db decision windowDays limit).1
      = ((kept db decision
          (decision.decidedAt + timedeltaDays windowDays)).insertionSort
        fun a b => a.gapDays ≤ b.gapDays).take limit := rfl

theorem mem_memoriesInRange :
    m ∈ memoriesInRange db start stop ↔ m ∈ db.memories ∧ m.isCurrent = true
      ∧ m.deletedAt = none
      ∧ ∃ t, m.occurredAt = some t ∧ start ≤ t ∧ t < stop := by
  unfold memoriesInRange
  rw [List.mem_insertionSort, List.mem_filter, Bool.and_eq_true,
    Bool.and_eq_true, Option.isNone_iff_eq_none, and_assoc]
  have hrange : (m.occurredAt.any fun at' =>
      decide (start ≤ at') && decide (at' < stop)) = true
        ↔ ∃ t, m.occurredAt = some t ∧ start ≤ t ∧ t < stop := by
    cases m.occurredAt with
    | none => exact iff_of_false Bool.false_ne_true fun h => by simp at h
    | some t =>
      rw [Option.any_some, Bool.and_eq_true, decide_eq_true_eq,
        decide_eq_true_eq]
      constructor
      · intro h
        exact ⟨t, rfl, h⟩
      · intro h
        obtain ⟨t', ht, h⟩ := h
        obtain rfl := Option.some.inj ht
        exact h
  rw [hrange]

theorem not_shared_iff :
    (!(resolvedEntities db decision.evidenceMemoryIds).isEmpty
      && ((resolvedEntities db decision.evidenceMemoryIds).filter fun n =>
        decide (n.1 ∈ entitiesOf db m.id)).isEmpty) = true
      ↔ ¬ Overlaps db decision m := by
  have hnil : resolvedEntities db decision.evidenceMemoryIds = []
      ↔ winners db decision.evidenceMemoryIds = [] := by
    rw [← List.map_eq_nil_iff (f := Prod.fst), List.eq_nil_iff_forall_not_mem,
      List.eq_nil_iff_forall_not_mem]
    exact forall_congr' fun w => not_congr mem_resolvedEntities
  rw [Bool.and_eq_true, Bool.not_eq_true', List.isEmpty_eq_false_iff,
    List.isEmpty_iff, Ne, hnil, List.filter_eq_nil_iff]
  unfold Overlaps
  rw [Classical.not_imp, not_exists]
  apply and_congr_right
  intro _
  constructor
  · intro h w hw
    obtain ⟨n, hn, rfl⟩ := List.mem_map.1 (mem_resolvedEntities.2 hw.1)
    exact h n hn (decide_eq_true hw.2)
  · intro h n hn hin
    exact h n.1 ⟨mem_resolvedEntities.1 (List.mem_map_of_mem hn),
      of_decide_eq_true hin⟩

theorem candidateFor_spec (h : candidateFor db decision m = some c) :
    m.id ∉ decision.evidenceMemoryIds ∧ Overlaps db decision m
      ∧ Describes db decision c m ∧ decision.decidedAt < c.occurredAt
      ∧ isBlank c.text = false := by
  unfold candidateFor at h
  split at h
  case h_2 => cases h
  case h_1 occurredAt content hat hcontent =>
    simp only at h
    split at h
    case isTrue => cases h
    case isFalse hafter =>
      split at h
      case isTrue => cases h
      case isFalse hapart =>
        split at h
        case isTrue => cases h
        case isFalse hblank =>
          split at h
          case isTrue => cases h
          case isFalse hshared =>
            obtain rfl := Option.some.inj h
            rw [not_shared_iff, not_not] at hshared
            exact ⟨hapart, hshared, ⟨rfl, rfl, rfl, hat, hcontent, rfl⟩,
              Int.not_le.1 hafter, Bool.eq_false_iff.2 hblank⟩

theorem candidateFor_isSome {t : Timestamp} {text : Text}
    (hat : m.occurredAt = some t) (hafter : decision.decidedAt < t)
    (hcontent : m.content = some text) (hblank : isBlank text = false)
    (hapart : m.id ∉ decision.evidenceMemoryIds)
    (hoverlaps : Overlaps db decision m) :
    (candidateFor db decision m).isSome = true := by
  unfold candidateFor
  rw [hat, hcontent]
  simp only
  rw [if_neg (Int.not_le.2 hafter), if_neg hapart,
    if_neg (by rw [hblank]; simp),
    if_neg (by rw [not_shared_iff, not_not]; exact hoverlaps)]
  rfl

theorem isSome_iff (hm : m ∈ memoriesInRange db decision.decidedAt stop) :
    (candidateFor db decision m).isSome = true
      ↔ Late decision stop m ∧ m.id ∉ decision.evidenceMemoryIds
        ∧ Overlaps db decision m := by
  obtain ⟨-, hcurrent, hundeleted, t, hat, -, hstop⟩ := mem_memoriesInRange.1 hm
  constructor
  · intro h
    obtain ⟨c, hc⟩ := Option.isSome_iff_exists.1 h
    obtain ⟨hapart, hoverlaps, hdescribes, hafter, hblank⟩ :=
      candidateFor_spec hc
    have hsame : c.occurredAt = t := by
      have heq := hdescribes.occurredAt
      rw [hat] at heq
      exact (Option.some.inj heq).symm
    exact ⟨⟨hcurrent, hundeleted, ⟨t, hat, hsame ▸ hafter, hstop⟩,
      ⟨c.text, hdescribes.text, hblank⟩⟩, hapart, hoverlaps⟩
  · intro h
    obtain ⟨hlate, hapart, hoverlaps⟩ := h
    obtain ⟨t, hat, hafter, -⟩ := hlate.after
    obtain ⟨text, hcontent, hblank⟩ := hlate.content
    exact candidateFor_isSome hat hafter hcontent hblank hapart hoverlaps

/-- The memories that the loop keeps. -/
def keptRows (db : Db) (decision : DecisionContext) (stop : Timestamp) :
    List Memory :=
  (memoriesInRange db decision.decidedAt stop).filter fun m =>
    (candidateFor db decision m).isSome

theorem mem_keptRows :
    m ∈ keptRows db decision stop ↔ m ∈ db.memories ∧ Late decision stop m
      ∧ m.id ∉ decision.evidenceMemoryIds ∧ Overlaps db decision m := by
  unfold keptRows
  rw [List.mem_filter]
  constructor
  · intro h
    exact ⟨(mem_memoriesInRange.1 h.1).1, (isSome_iff h.1).1 h.2⟩
  · intro h
    obtain ⟨hm, hlate, hrest⟩ := h
    obtain ⟨t, hat, hafter, hstop⟩ := hlate.after
    have hin : m ∈ memoriesInRange db decision.decidedAt stop :=
      mem_memoriesInRange.2 ⟨hm, hlate.current, hlate.undeleted, t, hat,
        Int.le_of_lt hafter, hstop⟩
    exact ⟨hin, (isSome_iff hin).2 ⟨hlate, hrest⟩⟩

theorem kept_describes :
    List.Forall₂ (Describes db decision) (kept db decision stop)
      (keptRows db decision stop) := by
  unfold kept keptRows
  induction memoriesInRange db decision.decidedAt stop with
  | nil => exact .nil
  | cons m rest ih =>
    cases hm : candidateFor db decision m with
    | none =>
      rw [List.filterMap_cons_none hm,
        List.filter_cons_of_neg (by rw [hm]; simp)]
      exact ih
    | some c =>
      rw [List.filterMap_cons_some hm,
        List.filter_cons_of_pos (by rw [hm]; rfl)]
      exact .cons (candidateFor_spec hm).2.2.1 ih

theorem memoriesInRange_sorted :
    (memoriesInRange db start stop).Pairwise fun a b =>
      ∀ s t, a.occurredAt = some s → b.occurredAt = some t → s ≤ t := by
  unfold memoriesInRange
  refine (List.pairwise_insertionSort _ _).imp ?_
  intro a b hab s t hs ht
  rw [hs, ht, Prod.Lex.toLex_le_toLex] at hab
  rcases hab with hlt | ⟨heq, -⟩
  · exact Int.le_of_lt hlt
  · exact Int.le_of_eq heq

theorem kept_sorted :
    (kept db decision stop).Pairwise fun a b => a.gapDays ≤ b.gapDays := by
  unfold kept
  rw [List.pairwise_filterMap]
  refine memoriesInRange_sorted.imp ?_
  intro a b hab c hc d hd
  have hdescribes := (candidateFor_spec hc).2.2.1
  have hdescribes' := (candidateFor_spec hd).2.2.1
  have hle := hab _ _ hdescribes.occurredAt hdescribes'.occurredAt
  rw [hdescribes.gapDays, hdescribes'.gapDays]
  have hpos : (0 : ℚ) < dayMicroseconds := by decide +kernel
  have hcast : (c.occurredAt : ℚ) ≤ d.occurredAt := Int.cast_le.2 hle
  exact div_le_div_of_nonneg_right (sub_le_sub_right hcast _) hpos.le

theorem findCandidates_kept :
    (findCandidates db db db db decision windowDays limit).1
      = (kept db decision
        (decision.decidedAt + timedeltaDays windowDays)).take limit := by
  rw [findCandidates_eq, List.Pairwise.insertionSort_eq kept_sorted]

-- ======= the claim

theorem candidatesOf_eq_ok {reply : List Candidate} {entityFilter : String} :
    candidatesOf db decision windowDays limit = .ok (reply, entityFilter)
      ↔ (∃ d, windowStop decision windowDays = .ok d)
        ∧ findCandidates db db db db decision windowDays limit
          = (reply, entityFilter) := by
  unfold candidatesOf
  cases windowStop decision windowDays with
  | error e =>
    refine iff_of_false (fun h => by cases h) fun h => ?_
    obtain ⟨⟨d, hd⟩, -⟩ := h
    cases hd
  | ok d =>
    constructor
    · intro h
      exact ⟨⟨d, rfl⟩, Except.ok.inj h⟩
    · intro h
      exact congrArg Except.ok h.2

theorem keptRows_eligible_iff :
    (∀ m ∈ db.memories,
      m ∈ keptRows db decision stop ↔ Eligible db decision stop m)
    ↔ (∀ m ∈ db.memories, Late decision stop m → Overlaps db decision m →
        m.id ∉ decision.evidenceMemoryIds → ¬ VersionOfEvidence db decision m)
      ∧ ∀ m ∈ db.memories, Late decision stop m →
        ¬ VersionOfEvidence db decision m →
          (Overlaps db decision m ↔ Shares db decision m) := by
  have hown : ∀ m ∈ db.memories, ¬ VersionOfEvidence db decision m →
      m.id ∉ decision.evidenceMemoryIds := by
    intro m hm hapart hin
    exact hapart ⟨m, hm, hin, rfl, rfl⟩
  constructor
  · intro h
    constructor
    · intro m hm hlate hoverlaps hno
      exact ((h m hm).1 (mem_keptRows.2 ⟨hm, hlate, hno, hoverlaps⟩)).apart
    · intro m hm hlate hapart
      constructor
      · intro hoverlaps
        exact ((h m hm).1 (mem_keptRows.2
          ⟨hm, hlate, hown m hm hapart, hoverlaps⟩)).shares
      · intro hshares
        exact (mem_keptRows.1 ((h m hm).2 ⟨hlate, hapart, hshares⟩)).2.2.2
  · intro h m hm
    obtain ⟨hversions, hmerges⟩ := h
    rw [mem_keptRows]
    constructor
    · intro hkept
      obtain ⟨-, hlate, hno, hoverlaps⟩ := hkept
      have hapart := hversions m hm hlate hoverlaps hno
      exact ⟨hlate, hapart, (hmerges m hm hlate hapart).1 hoverlaps⟩
    · intro heligible
      obtain ⟨hlate, hapart, hshares⟩ := heligible
      exact ⟨hm, hlate, hown m hm hapart, (hmerges m hm hlate hapart).2 hshares⟩

theorem keptRows_length_le :
    (keptRows db decision stop).length ≤ db.memories.length := by
  unfold keptRows memoriesInRange
  refine Nat.le_trans (List.length_filter_le _ _) ?_
  rw [List.length_insertionSort]
  exact List.length_filter_le _ _

theorem keptRows_nodup (hids : (db.memories.map (·.id)).Nodup) :
    (keptRows db decision stop).Nodup := by
  have hmemories := List.Nodup.of_map _ hids
  unfold keptRows memoriesInRange
  apply List.Nodup.filter
  exact (List.perm_insertionSort _ _).nodup_iff.2 (hmemories.filter _)

theorem mem_of_ids (hids : (db.memories.map (·.id)).Nodup) {xs ys : List Memory}
    (hys : ∀ y ∈ ys, y ∈ db.memories) (h : xs.map (·.id) = ys.map (·.id))
    (hm : m ∈ db.memories) (hx : m ∈ xs) : m ∈ ys := by
  have hid : m.id ∈ ys.map (·.id) := by
    rw [← h]
    exact List.mem_map_of_mem hx
  obtain ⟨y, hy, hsame⟩ := List.mem_map.1 hid
  rw [← List.inj_on_of_nodup_map hids (hys y hy) hm hsame]
  exact hy

theorem ids_of_describes {reply : List Candidate} {rows : List Memory}
    (h : List.Forall₂ (Describes db decision) reply rows) :
    reply.map (·.memoryId) = rows.map (·.id) := by
  induction h with
  | nil => rfl
  | cons hc _ ih =>
    rw [List.map_cons, List.map_cons, hc.memoryId, ih]

/-- The candidates are the eligible memories, closest first and cut at the
limit, exactly when the window ends in the calendar, no memory that passes the
loop's tests is another version of the evidence, and one read of
`merged_into_id` is enough to compare the entities. -/
theorem candidates_iff (db : Db) (decision : DecisionContext) (windowDays : ℚ)
    (hids : (db.memories.map (·.id)).Nodup) :
    (∀ limit, Offers db decision windowDays limit)
      ↔ Separable db decision windowDays := by
  constructor
  · intro h
    obtain ⟨reply, entityFilter, rows, hok, hnodup, hmem, -, hcut⟩ :=
      h db.memories.length
    obtain ⟨hcalendar, hfound⟩ := candidatesOf_eq_ok.1 hok
    have hrows : ∀ m ∈ rows, m ∈ db.memories := fun m hm => ((hmem m).1 hm).1
    have hreply := @findCandidates_kept db decision windowDays
      db.memories.length
    rw [hfound] at hreply
    have hkept := @kept_describes db decision
      (decision.decidedAt + timedeltaDays windowDays)
    rw [List.take_of_length_le
      (hkept.length_eq ▸ keptRows_length_le)] at hreply
    rw [List.take_of_length_le
      (List.subperm_of_subset hnodup hrows).length_le] at hcut
    have hsame : rows.map (·.id) = (keptRows db decision
        (decision.decidedAt + timedeltaDays windowDays)).map (·.id) := by
      rw [← ids_of_describes hcut, ← ids_of_describes hkept, ← hreply]
    have hagree : ∀ m ∈ db.memories, m ∈ keptRows db decision
        (decision.decidedAt + timedeltaDays windowDays)
          ↔ Eligible db decision
            (decision.decidedAt + timedeltaDays windowDays) m := by
      intro m hm
      have hin : m ∈ rows ↔ Eligible db decision
          (decision.decidedAt + timedeltaDays windowDays) m :=
        (hmem m).trans (and_iff_right hm)
      rw [← hin]
      constructor
      · exact mem_of_ids hids hrows hsame.symm hm
      · exact mem_of_ids hids (fun y hy => (mem_keptRows.1 hy).1) hsame hm
    obtain ⟨hversions, hmerges⟩ := keptRows_eligible_iff.1 hagree
    exact ⟨hcalendar, hversions, hmerges⟩
  · intro h limit
    have hagree := keptRows_eligible_iff.2 ⟨h.versions, h.merges⟩
    refine ⟨(findCandidates db db db db decision windowDays limit).1, _,
      keptRows db decision (decision.decidedAt + timedeltaDays windowDays),
      candidatesOf_eq_ok.2 ⟨h.calendar, rfl⟩, keptRows_nodup hids, fun m => ?_,
      memoriesInRange_sorted.filter _, ?_⟩
    · constructor
      · intro hm
        have hin := (mem_keptRows.1 hm).1
        exact ⟨hin, (hagree m hin).1 hm⟩
      · intro hm
        exact (hagree m hm.1).2 hm.2
    · rw [findCandidates_kept]
      exact List.forall₂_take limit kept_describes

end

-- ------ a memory of another item, and a new version of the evidence

/-- A note of the item, dated by the days since the decision. -/
def noteOf (id : Id) (externalKey : String) (version : Nat) (isCurrent : Bool)
    (days : Int) : Memory where
  id := id
  sourceId := 1
  externalKey := externalKey
  version := version
  isCurrent := isCurrent
  contentHash := "h"
  normalizedHash := none
  kind := .note
  title := none
  content := some "We moved.".toList
  occurredAt := some ((739646 + days) * dayMicros)
  occurredAtSource := .declared
  ingestedAt := 0
  mediaType := none
  parsed := none
  deletedAt := none
  entityExtractorVersion := none
  relationshipExtractorVersion := none

/-- Decided on the 31st of January 2026, with the first memory as evidence. -/
def planned : DecisionContext where
  id := 1
  question := "Move?".toList
  chosen := "Yes".toList
  expectedOutcome := none
  confidence := none
  decidedAt := 739646 * dayMicros
  evidenceMemoryIds := [1]

/-- The plan, and a note of five days later. -/
def followedUp : Db where
  memories := [noteOf 1 "plan.md" 1 true (-1), noteOf 2 "moved.md" 1 true 5]

theorem windowStop_planned : ∃ d, windowStop planned 90 = .ok d :=
  ⟨_, dif_pos (by decide +kernel)⟩

theorem candidates_iff_followedUp : Offers followedUp planned 90 10 := by
  refine (candidates_iff followedUp planned 90 (by decide)).2
    ⟨windowStop_planned, ?_, ?_⟩ 10
  · intro m hm _ _ hno hversion
    obtain ⟨e, he, hin, -, hkey⟩ := hversion
    rcases List.mem_pair.1 hm with rfl | rfl
    · exact hno (List.mem_singleton_self 1)
    · rcases List.mem_pair.1 he with rfl | rfl
      · exact absurd hkey (by decide)
      · exact absurd hin (by decide)
  · intro m _ _ _
    exact iff_of_true (fun h => absurd rfl h) fun h => absurd rfl h

/-- The plan was revised five days later. -/
def revisedPlan : Db where
  memories := [noteOf 1 "plan.md" 1 false (-1), noteOf 2 "plan.md" 2 true 5]

/-- The revised plan is offered as the outcome of what it is evidence of. -/
theorem not_candidates_exact :
    (revisedPlan.memories.map (·.id)).Nodup
      ∧ ¬ ∀ limit, Offers revisedPlan planned 90 limit := by
  refine ⟨by decide, fun h => ?_⟩
  obtain ⟨reply, entityFilter, rows, hok, -, hmem, -, hcut⟩ := h 10
  have hreply : (findCandidates revisedPlan revisedPlan revisedPlan revisedPlan
      planned 90 10).1.map (·.memoryId) = [2] := by
    decide +kernel
  rw [(candidatesOf_eq_ok.1 hok).2, ids_of_describes hcut] at hreply
  have htwo : 2 ∈ (rows.take 10).map (·.id) := by
    rw [hreply]
    exact List.mem_singleton_self 2
  obtain ⟨m, hm, hid⟩ := List.mem_map.1 htwo
  obtain ⟨hin, heligible⟩ := (hmem m).1 (List.mem_of_mem_take hm)
  rcases List.mem_pair.1 hin with rfl | rfl
  · exact absurd hid (by decide)
  · exact heligible.apart
      ⟨_, List.mem_cons_self, List.mem_singleton_self 1, rfl, rfl⟩

end Decisions

end MemoryOS
