/-
What each call writes: one lemma for each use case of `Records.lean`, from
a call that went through to the rows that are new, changed or gone. Nothing
after this file unfolds a use case.

Linking evidence only ever appends evidence and takes ids (`Linked`), so
the lemmas about the use cases that link say nothing of it.
-/
import MemoryOS.Decisions.Records
import MemoryOS.Lib.Outcome
import Mathlib.Data.List.Nodup

namespace MemoryOS

open Lib

namespace Decisions

-- ====== vocabulary

/-- Everything but the evidence is as it was, and ids may have been
taken. -/
structure Linked (t t' : Tables) : Prop where
  decisions : t'.decisions = t.decisions
  options : t'.options = t.options
  assumptions : t'.assumptions = t.assumptions
  outcomes : t'.outcomes = t.outcomes
  written : t'.written = t.written
  next : t.nextId ≤ t'.nextId

/-- A row that `_write_assumptions` adds, for a decision, at a time. -/
structure Added (t : Tables) (decisionId : Id) (now : Timestamp)
    (brought : List AssumptionInput) (a : DecisionAssumption) : Prop where
  owner : a.decisionId = decisionId
  writtenIn : a.writtenIn = t.written
  writtenAt : a.writtenAt = now
  evaluations : a.evaluations = []
  confidence : ∃ input ∈ brought, a.confidence = input.confidence

-- ========= linking

variable {t t' : Tables} {now : Timestamp} {casefold : Text → Text}
  {source : TimeProvenance} {changes : DecisionEdit} {db : Db}
  {decisionId : Id}

theorem Linked.refl (t : Tables) : Linked t t :=
  ⟨rfl, rfl, rfl, rfl, rfl, Nat.le_refl _⟩

theorem Linked.trans {t'' : Tables} (h : Linked t t')
    (h' : Linked t' t'') : Linked t t'' where
  decisions := h'.decisions.trans h.decisions
  options := h'.options.trans h.options
  assumptions := h'.assumptions.trans h.assumptions
  outcomes := h'.outcomes.trans h.outcomes
  written := h'.written.trans h.written
  next := Nat.le_trans h.next h'.next

theorem insertEvidence_linked {row : EvidenceRow}
    (h : insertEvidence t row = .ok t') : Linked t t' := by
  unfold insertEvidence at h
  split at h
  case isTrue => cases h
  case isFalse =>
    cases h
    exact ⟨rfl, rfl, rfl, rfl, rfl, Nat.le_succ _⟩

theorem linkToDecision_linked {link : EvidenceInput}
    (h : linkToDecision db decisionId now t link = .ok t') :
    Linked t t' := by
  unfold linkToDecision at h
  split at h
  case h_1 => cases h
  case h_2 => cases h
  case h_3 =>
    obtain ⟨chunkId, -, h⟩ := bind_ok.1 h
    exact insertEvidence_linked h

theorem linkSnapshot_linked {table : EvidenceTable} {owner : Id} {link : EvidenceInput}
    (h : linkSnapshot table db owner now t link = .ok t') :
    Linked t t' := by
  unfold linkSnapshot at h
  split at h
  case h_1 => cases h
  case h_2 =>
    obtain ⟨chunkId, -, h⟩ := bind_ok.1 h
    exact insertEvidence_linked h

theorem foldlM_linked {link : Tables → EvidenceInput → Except Refusal Tables}
    (hlink : ∀ s e s', link s e = .ok s' → Linked s s')
    {links : List EvidenceInput}
    (h : links.foldlM link t = .ok t') : Linked t t' := by
  induction links generalizing t with
  | nil =>
    cases h
    exact Linked.refl _
  | cons e rest ih =>
    rw [List.foldlM_cons] at h
    obtain ⟨t₁, h₁, h⟩ := bind_ok.1 h
    exact (hlink _ e t₁ h₁).trans (ih h)

-- ====== the small writes

@[simp] theorem writeOptions_decisions (t : Tables) (decisionId : Id)
    (chosen : Text) (options : List OptionInput) :
    (writeOptions t decisionId chosen options).decisions = t.decisions := rfl

@[simp] theorem writeOptions_assumptions (t : Tables) (decisionId : Id)
    (chosen : Text) (options : List OptionInput) :
    (writeOptions t decisionId chosen options).assumptions
      = t.assumptions := rfl

@[simp] theorem writeOptions_outcomes (t : Tables) (decisionId : Id)
    (chosen : Text) (options : List OptionInput) :
    (writeOptions t decisionId chosen options).outcomes = t.outcomes := rfl

@[simp] theorem writeOptions_written (t : Tables) (decisionId : Id)
    (chosen : Text) (options : List OptionInput) :
    (writeOptions t decisionId chosen options).written = t.written := rfl

theorem writeOptions_next (t : Tables) (decisionId : Id)
    (chosen : Text) (options : List OptionInput) :
    t.nextId ≤ (writeOptions t decisionId chosen options).nextId := by
  show t.nextId ≤ t.nextId + 1 + options.length
  rw [Nat.add_assoc]
  exact Nat.le_add_right _ _

theorem writeAssumptions_spec (t : Tables) (decisionId : Id)
    (brought : List AssumptionInput) (now : Timestamp) :
    ∃ rows, (writeAssumptions t decisionId brought now).assumptions
        = t.assumptions ++ rows
      ∧ rows.map (·.id) = List.range' t.nextId brought.length
      ∧ (∀ a ∈ rows, Added t decisionId now brought a)
      ∧ ∀ input ∈ brought, ∃ a ∈ rows, a.confidence = input.confidence := by
  refine ⟨_, rfl, ?_, fun a ha => ?_, fun input hinput => ?_⟩
  · apply List.ext_getElem
    · simp
    · intro i h₁ h₂
      simp
  · obtain ⟨i, hi, rfl⟩ := List.mem_mapIdx.1 ha
    exact ⟨rfl, rfl, rfl, rfl, brought[i], List.getElem_mem hi, rfl⟩
  · obtain ⟨i, hi, rfl⟩ := List.mem_iff_getElem.1 hinput
    exact ⟨_, List.mem_mapIdx.2 ⟨i, hi, rfl⟩, rfl⟩

-- ======= the calls

theorem validate_ok {draft v : DecisionDraft} (h : validate casefold draft source = .ok v) :
    v.confidence = draft.confidence := by
  unfold validate at h
  simp only at h
  split at h
  case isTrue => cases h
  case isFalse =>
    split at h
    case isTrue => cases h
    case isFalse =>
      split at h
      case isTrue => cases h
      case isFalse =>
        split at h
        case h_1 => cases h
        case h_2 => cases h
        case h_3 =>
          split at h
          case isTrue => cases h
          case isFalse =>
            cases h
            rfl

theorem record_spec
    {draft : DecisionDraft} {decidedAt : Timestamp} {status : DecisionStatus}
    {horizon : Option ConfidenceHorizon} {id : Id}
    (h : record casefold db t draft decidedAt source status horizon now
      = .ok (t', id)) :
    id = t.nextId
      ∧ (∃ d, t'.decisions = t.decisions ++ [d] ∧ d.id = id
        ∧ d.confidenceHorizon
            = horizonFor draft.confidence decidedAt source now horizon
        ∧ d.decidedAt = decidedAt ∧ d.decidedAtSource = source
        ∧ d.createdAt = now ∧ d.writtenIn = t.written)
      ∧ (∃ rows brought first, t'.assumptions = t.assumptions ++ rows
        ∧ rows.map (·.id)
            = List.range' first brought.length
        ∧ t.nextId < first ∧ first + brought.length ≤ t'.nextId
        ∧ ∀ a ∈ rows, Added t id now brought a)
      ∧ t'.outcomes = t.outcomes ∧ t'.written = t.written + 1 := by
  unfold record at h
  obtain ⟨v, hv, h⟩ := bind_ok.1 h
  simp only at h
  split at h
  case isTrue => cases h
  case isFalse =>
    obtain ⟨t₁, hlinks, h⟩ := bind_ok.1 h
    cases h
    have hlinked :=
      foldlM_linked (fun _ _ _ => linkToDecision_linked) hlinks
    generalize hoptions : writeOptions _ t.nextId v.chosen v.options = t₂
      at hlinked
    have hnext : t.nextId + 1 ≤ t₂.nextId := by
      rw [← hoptions]
      exact writeOptions_next
        { t with decisions := _, nextId := t.nextId + 1 } _ _ _
    obtain ⟨rows, hrows, hids, hadded, -⟩ :=
      writeAssumptions_spec t₂ t.nextId v.assumptions now
    refine ⟨rfl, ⟨decisionRow t v decidedAt source status
        (horizonFor v.confidence decidedAt source now horizon) now,
        ?_, rfl, ?_, rfl, rfl, rfl, rfl⟩,
      ⟨rows, v.assumptions, t₂.nextId, ?_, hids, hnext, hlinked.next, ?_⟩,
      ?_, ?_⟩
    · rw [hlinked.decisions, writeAssumptions, ← hoptions]
      rfl
    · rw [← validate_ok hv]
      rfl
    · rw [hlinked.assumptions, hrows, ← hoptions]
      rfl
    · intro a ha
      have h := hadded a ha
      refine ⟨h.owner, ?_, h.writtenAt, h.evaluations, h.confidence⟩
      rw [h.writtenIn, ← hoptions]
      rfl
    · rw [hlinked.outcomes, writeAssumptions, ← hoptions]
      rfl
    · show t₁.written + 1 = _
      rw [hlinked.written, writeAssumptions, ← hoptions]
      rfl

theorem recordOutcome_spec
    {draft : OutcomeDraft} {observedAt : Timestamp} {kind : EvidenceKind}
    {confidence : Option ℚ} {id : Id}
    (h : recordOutcome db t decisionId draft observedAt source kind
      confidence now = .ok (t', id)) :
    id = t.nextId ∧ (∃ d, t.decision decisionId = some d)
      ∧ (∃ o, t'.outcomes = t.outcomes ++ [o] ∧ o.id = id
        ∧ o.decisionId = decisionId ∧ o.observedAt = observedAt)
      ∧ t'.decisions = t.decisions ∧ t'.assumptions = t.assumptions
      ∧ t.nextId < t'.nextId ∧ t'.written = t.written + 1 := by
  unfold recordOutcome at h
  simp only at h
  split at h
  case isTrue => cases h
  case isFalse =>
    split at h
    case isTrue => cases h
    case isFalse =>
      split at h
      case h_1 => cases h
      case h_2 =>
        split at h
        case isTrue => cases h
        case isFalse =>
          split at h
          case isTrue => cases h
          case isFalse hsome =>
            obtain ⟨t₁, hlinks, h⟩ := bind_ok.1 h
            cases h
            have hlinked :=
              foldlM_linked (fun _ _ _ => linkSnapshot_linked) hlinks
            have hthere : t.decision decisionId ≠ none := by
              simpa using hsome
            exact ⟨rfl, Option.ne_none_iff_exists'.1 hthere,
              ⟨_, hlinked.outcomes, rfl, rfl, rfl⟩, hlinked.decisions,
              hlinked.assumptions, hlinked.next,
              congrArg (· + 1) hlinked.written⟩

theorem evaluate_spec {assumptionId : Id}
    {verdict : AssumptionVerdict} {note : Option Text}
    {evidence : List EvidenceInput} {evaluatedAt : Option Timestamp}
    (h : evaluate db t assumptionId verdict note evidence evaluatedAt now
      = .ok t') :
    (∃ judge : DecisionAssumption → DecisionAssumption,
      t'.assumptions = t.assumptions.map (fun a =>
          if a.id = assumptionId then judge a else a)
      ∧ ∀ a, (judge a).id = a.id ∧ (judge a).decisionId = a.decisionId
        ∧ (judge a).confidence = a.confidence
        ∧ (judge a).writtenIn = a.writtenIn
        ∧ (judge a).writtenAt = a.writtenAt
        ∧ (judge a).evaluations
            = a.evaluations ++ [evaluatedAt.getD now])
      ∧ t'.decisions = t.decisions ∧ t'.outcomes = t.outcomes
      ∧ t.nextId ≤ t'.nextId ∧ t'.written = t.written + 1 := by
  unfold evaluate at h
  split at h
  case h_1 => cases h
  case h_2 =>
    obtain ⟨t₁, hlinks, h⟩ := bind_ok.1 h
    cases h
    have hlinked :=
      foldlM_linked (fun _ _ _ => linkSnapshot_linked) hlinks
    exact ⟨⟨_, hlinked.assumptions, fun a => ⟨rfl, rfl, rfl, rfl, rfl, rfl⟩⟩,
      hlinked.decisions, hlinked.outcomes, hlinked.next,
      congrArg (· + 1) hlinked.written⟩

-- ======== the edit

theorem editOptions_frame {d : Decision}
    (h : editOptions casefold t d changes = .ok t') :
    t'.decisions = t.decisions ∧ t'.assumptions = t.assumptions
      ∧ t'.outcomes = t.outcomes ∧ t'.written = t.written
      ∧ t.nextId ≤ t'.nextId := by
  unfold editOptions at h
  split at h
  case h_1 options _ =>
    simp only at h
    split at h
    case isTrue => cases h
    case isFalse =>
      cases h
      exact ⟨rfl, rfl, rfl, rfl, writeOptions_next { t with
        options := t.options.filter fun o => decide (o.decisionId ≠ d.id) }
        d.id d.chosen _⟩
  case h_2 =>
    split at h
    case isTrue =>
      cases h
      exact ⟨rfl, rfl, rfl, rfl, Nat.le_succ _⟩
    case isFalse =>
      cases h
      exact ⟨rfl, rfl, rfl, rfl, Nat.le_refl _⟩

theorem editAssumptions_spec
    (h : editAssumptions t decisionId changes now = .ok t') :
    t'.decisions = t.decisions ∧ t'.outcomes = t.outcomes
      ∧ t'.written = t.written
      ∧ (changes.assumptions = none ∧ t' = t
        ∨ ∃ rows brought, changes.assumptions = some brought
        ∧ t'.assumptions
            = (t.assumptions.filter fun a =>
                decide (a.decisionId ≠ decisionId)) ++ rows
        ∧ rows.map (·.id) = List.range' t.nextId brought.length
        ∧ t'.nextId = t.nextId + brought.length
        ∧ (∀ a ∈ rows, Added t decisionId now brought a)
        ∧ ∀ input ∈ brought, ∃ a ∈ rows,
            a.confidence = input.confidence) := by
  unfold editAssumptions at h
  split at h
  case h_1 hnone =>
    cases h
    exact ⟨rfl, rfl, rfl, .inl ⟨hnone, rfl⟩⟩
  case h_2 brought hbrought =>
    split at h
    case isTrue => cases h
    case isFalse =>
      split at h
      case isTrue => cases h
      case isFalse =>
        cases h
        obtain ⟨rows, hrows, hids, hadded, hall⟩ := writeAssumptions_spec
          { t with
            assumptions := t.assumptions.filter fun a =>
              decide (a.decisionId ≠ decisionId)
            evidence := t.evidence.filter fun e =>
              !(decide (e.table = .assumptionEvidence)
                && t.assumptions.any fun a =>
                  decide (a.id = e.owner)
                    && decide (a.decisionId = decisionId)) }
          decisionId brought now
        refine ⟨rfl, rfl, rfl, .inr ⟨rows, brought, hbrought, hrows, hids,
          rfl, fun a ha => ?_, hall⟩⟩
        have h := hadded a ha
        exact ⟨h.owner, h.writtenIn, h.writtenAt, h.evaluations,
          h.confidence⟩

theorem edit_spec (h : edit casefold t decisionId changes now = .ok t') :
    (∃ d, t.decision decisionId = some d
      ∧ t'.decisions = t.decisions.map fun row =>
          if row.id = decisionId then d.edited changes now else row)
      ∧ t'.outcomes = t.outcomes ∧ t'.written = t.written + 1
      ∧ ∃ first, t.nextId ≤ first
        ∧ ((changes.assumptions = none ∧ t'.assumptions = t.assumptions
            ∧ first ≤ t'.nextId)
          ∨ ∃ rows brought, changes.assumptions = some brought
            ∧ t'.assumptions
                = (t.assumptions.filter fun a =>
                    decide (a.decisionId ≠ decisionId)) ++ rows
            ∧ rows.map (·.id) = List.range' first brought.length
            ∧ t'.nextId = first + brought.length
            ∧ (∀ a ∈ rows, Added t decisionId now brought a)
            ∧ ∀ input ∈ brought, ∃ a ∈ rows,
                a.confidence = input.confidence) := by
  unfold edit at h
  split at h
  case h_1 => cases h
  case h_2 d hd =>
    split at h
    case isTrue => cases h
    case isFalse =>
      split at h
      case isTrue => cases h
      case isFalse =>
        obtain ⟨t₁, h₁, h⟩ := bind_ok.1 h
        obtain ⟨t₂, h₂, h⟩ := bind_ok.1 h
        cases h
        obtain ⟨hd₁, ha₁, ho₁, hw₁, hn₁⟩ := editOptions_frame h₁
        obtain ⟨hd₂, ho₂, hw₂, hrest⟩ := editAssumptions_spec h₂
        refine ⟨⟨d, hd, hd₂.trans hd₁⟩, ho₂.trans ho₁,
          congrArg (· + 1) (hw₂.trans hw₁), t₁.nextId, hn₁, ?_⟩
        rcases hrest with
          ⟨hb, rfl⟩ | ⟨rows, brought, hb, ha₂, hids, hn₂, hadded, hall⟩
        · exact .inl ⟨hb, ha₁, Nat.le_refl _⟩
        · refine .inr ⟨rows, brought, hb, ?_, hids, hn₂, fun a ha => ?_,
            hall⟩
          · rw [ha₂, ha₁]
          · have h := hadded a ha
            exact ⟨h.owner, h.writtenIn.trans hw₁, h.writtenAt,
              h.evaluations, h.confidence⟩

end Decisions

end MemoryOS
