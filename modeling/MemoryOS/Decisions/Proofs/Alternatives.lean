/-
A decision keeps its winner and a real alternative
(`application/decisions.py`).

`record` refuses a decision whose options are all its choice over again, and so
does an edit that replaces the options. An edit that moves the choice alone looks
at no option: it may rename the choice to the last one that lost
(`Rejects`). A run keeps every decision a decision exactly where no edit of it
does (`always_real_iff`).
-/
import MemoryOS.Decisions.Proofs.Foresight

namespace MemoryOS

open Lib

namespace Decisions

variable (casefold : Text → Text)

-- ====== statement vocabulary

/-- The options of a decision. -/
def optionsOf (t : Tables) (decisionId : Id) : List DecisionOption :=
  t.options.filter fun o => decide (o.decisionId = decisionId)

/-- One option is the choice, and another was rejected that is not the choice in
other words. -/
structure Decided (t : Tables) (d : Decision) : Prop where
  winner : ∃ w, (optionsOf t d.id).filter (·.wasChosen) = [w]
    ∧ w.description = d.chosen
  alternative : ∃ o ∈ optionsOf t d.id, o.wasChosen = false
    ∧ casefold (strip o.description) ≠ casefold d.chosen

/-- Every decision is one. -/
def Real (t : Tables) : Prop := ∀ d ∈ t.decisions, Decided casefold t d

/-- An edit that moves the choice and leaves the options alone leaves an
alternative to it. -/
def Rejects (t : Tables) : Action → Prop
  | .edit decisionId changes _ =>
    changes.options = none → ∀ chosen, changes.chosen = some chosen →
      ∃ o ∈ optionsOf t decisionId, o.wasChosen = false
        ∧ casefold (strip o.description) ≠ casefold (strip chosen)
  | _ => True

/-- The guard of a step: a call that goes through leaves an alternative. -/
def KeepsReal (t : Tables) (a : Action) : Prop :=
  (∃ t', perform casefold t a = .ok t') → Rejects casefold t a

-- ====== the options

section
variable {casefold} {t t' : Tables} {d d' : Decision} {id other : Id}
  {chosen : Text} {kept given : List OptionInput} {o : DecisionOption}

/-- The option that is the choice. -/
def winner (n id : Id) (chosen : Text) : DecisionOption where
  id := n
  decisionId := id
  description := chosen
  wasChosen := true
  rejectedBecause := none

/-- The options that lost. -/
def losers (n id : Id) (kept : List OptionInput) : List DecisionOption :=
  kept.mapIdx fun i o =>
    { id := n + i
      decisionId := id
      description := strip o.description
      wasChosen := false
      rejectedBecause := optionalText o.rejectedBecause }

theorem mem_losers {n : Id} (h : o ∈ losers n id kept) :
    o.decisionId = id ∧ o.wasChosen = false
      ∧ ∃ input ∈ kept, o.description = strip input.description := by
  obtain ⟨i, hi, rfl⟩ := List.mem_mapIdx.1 h
  exact ⟨rfl, rfl, kept[i], List.getElem_mem hi, rfl⟩

theorem losers_ne_nil {n : Id} (h : kept ≠ []) : losers n id kept ≠ [] := by
  unfold losers
  rw [Ne, List.mapIdx_eq_nil_iff]
  exact h

theorem mem_optionsOf : o ∈ optionsOf t id ↔ o ∈ t.options ∧ o.decisionId
    = id := by
  unfold optionsOf
  rw [List.mem_filter, decide_eq_true_eq]

theorem optionsOf_none (h : ∀ o ∈ t.options, o.decisionId ≠ id) :
    optionsOf t id = [] :=
  List.filter_eq_nil_iff.2 fun o ho => by simpa using h o ho

theorem optionsOf_append {rows : List DecisionOption}
    (hoptions : t'.options = t.options ++ rows)
    (hrows : ∀ o ∈ rows, o.decisionId ≠ id) : optionsOf t' id
    = optionsOf t id := by
  have hnone : rows.filter (fun o => decide (o.decisionId = id)) = [] :=
    List.filter_eq_nil_iff.2 fun o ho => by simpa using hrows o ho
  unfold optionsOf
  rw [hoptions, List.filter_append, hnone, List.append_nil]

theorem Decided.congr (h : Decided casefold t d) (hid : d'.id = d.id)
    (hchosen : d'.chosen = d.chosen) (hoptions : optionsOf t' d.id
    = optionsOf t d.id) :
    Decided casefold t' d' := by
  constructor
  · rw [hid, hchosen, hoptions]
    exact h.winner
  · rw [hid, hchosen, hoptions]
    exact h.alternative

theorem mem_alternatives {input : OptionInput}
    (h : input ∈ alternatives casefold chosen given) :
    casefold (strip input.description) ≠ casefold chosen := by
  obtain ⟨-, hdiffers⟩ := List.mem_filter.1 h
  rw [Bool.and_eq_true, decide_eq_true_eq] at hdiffers
  exact hdiffers.2

theorem decided_written {n m : Id} (hchosen : d.chosen = chosen)
    (hne : alternatives casefold chosen given ≠ [])
    (hoptions : optionsOf t d.id = winner n d.id chosen
      :: losers m d.id (alternatives casefold chosen given)) :
    Decided casefold t d := by
  constructor
  · refine ⟨winner n d.id chosen, ?_, hchosen.symm⟩
    rw [hoptions, List.filter_cons_of_pos rfl, List.filter_eq_nil_iff.2]
    intro o ho
    rw [(mem_losers ho).2.1]
    exact Bool.false_ne_true
  · obtain ⟨o, ho⟩ := List.exists_mem_of_ne_nil _ (@losers_ne_nil d.id _ m hne)
    obtain ⟨-, hlost, input, hinput, hdescription⟩ := mem_losers ho
    refine ⟨o, ?_, hlost, ?_⟩
    · rw [hoptions]
      exact List.mem_cons_of_mem _ ho
    · rw [hdescription, strip_strip, hchosen]
      exact mem_alternatives hinput

end

-- ======= the calls

section
variable {casefold} {t t' : Tables}

/-- No option belongs to a decision that is still to come. -/
def Owned (t : Tables) : Prop := ∀ o ∈ t.options, o.decisionId < t.nextId

theorem validate_options {draft v : DecisionDraft} {source : TimeProvenance}
    (h : validate casefold draft source = .ok v) :
    v.options = alternatives casefold v.chosen draft.options ∧ v.options
      ≠ [] := by
  unfold validate at h
  dsimp only at h
  split at h
  case isTrue => cases h
  case isFalse =>
    split at h
    case isTrue => cases h
    case isFalse =>
      split at h
      case isTrue => cases h
      case isFalse hkept =>
        split at h
        case h_1 => cases h
        case h_2 => cases h
        case h_3 =>
          split at h
          case isTrue => cases h
          case isFalse =>
            cases h
            exact ⟨rfl, fun hnil => hkept (List.isEmpty_iff.2 hnil)⟩

theorem record_options {db : Db} {draft : DecisionDraft} {decidedAt : Timestamp}
    {source : TimeProvenance} {status : DecisionStatus}
    {horizon : Option ConfidenceHorizon} {now : Timestamp} {id : Id}
    (h : record casefold db t draft decidedAt source status horizon now
      = .ok (t', id)) :
    ∃ d, t'.decisions = t.decisions ++ [d] ∧ d.id = t.nextId
      ∧ alternatives casefold d.chosen draft.options ≠ []
      ∧ t'.options = t.options ++ winner (t.nextId + 1) d.id d.chosen
        :: losers (t.nextId + 1 + 1) d.id
          (alternatives casefold d.chosen draft.options) := by
  unfold record at h
  obtain ⟨v, hv, h⟩ := bind_ok.1 h
  dsimp only at h
  split at h
  case isTrue => cases h
  case isFalse =>
    obtain ⟨t₁, hlinks, h⟩ := bind_ok.1 h
    cases h
    have hlinked := foldlM_linked (fun _ _ _ => linkToDecision_linked) hlinks
    obtain ⟨hoptions, hne⟩ := validate_options hv
    refine ⟨_, hlinked.decisions, rfl, ?_, ?_⟩
    · exact hoptions ▸ hne
    · show t₁.options = _
      rw [hlinked.options]
      show t.options ++ winner (t.nextId + 1) t.nextId v.chosen
        :: losers (t.nextId + 1 + 1) t.nextId v.options = _
      rw [hoptions]
      rfl

theorem recordOutcome_options {db : Db} {decisionId : Id} {draft : OutcomeDraft}
    {observedAt : Timestamp} {source : TimeProvenance} {kind : EvidenceKind}
    {confidence : Option ℚ} {now : Timestamp} {id : Id}
    (h : recordOutcome db t decisionId draft observedAt source kind confidence now
      = .ok (t', id)) : t'.options = t.options := by
  unfold recordOutcome at h
  dsimp only at h
  split at h
  case isTrue => cases h
  case isFalse =>
    split at h
    case isTrue => cases h
    case isFalse =>
      split at h
      case h_1 => cases h
      case h_2 =>
        split at h
        case isTrue => cases h
        case isFalse =>
          split at h
          case isTrue => cases h
          case isFalse =>
            obtain ⟨t₁, hlinks, h⟩ := bind_ok.1 h
            cases h
            exact (foldlM_linked (fun _ _ _ => linkSnapshot_linked) hlinks).options

theorem evaluate_options {db : Db} {assumptionId : Id} {verdict :
    AssumptionVerdict}
    {note : Option Text} {evidence : List EvidenceInput}
    {evaluatedAt : Option Timestamp} {now : Timestamp}
    (h : evaluate db t assumptionId verdict note evidence evaluatedAt now
      = .ok t') : t'.options = t.options := by
  unfold evaluate at h
  split at h
  case h_1 => cases h
  case h_2 =>
    obtain ⟨t₁, hlinks, h⟩ := bind_ok.1 h
    cases h
    exact (foldlM_linked (fun _ _ _ => linkSnapshot_linked) hlinks).options

theorem editAssumptions_options {decisionId : Id} {changes : DecisionEdit}
    {now : Timestamp} (h : editAssumptions t decisionId changes now = .ok t') :
    t'.options = t.options := by
  unfold editAssumptions at h
  split at h
  case h_1 =>
    cases h
    rfl
  case h_2 =>
    split at h
    case isTrue => cases h
    case isFalse =>
      split at h
      case isTrue => cases h
      case isFalse =>
        cases h
        rfl

theorem edit_options {decisionId : Id} {changes : DecisionEdit} {now :
    Timestamp}
    (h : edit casefold t decisionId changes now = .ok t') :
    ∃ d, t.decision decisionId = some d
      ∧ (t'.decisions = t.decisions.map fun row =>
          if row.id = decisionId then d.edited changes now else row)
      ∧ ((∃ given, changes.options = some given
          ∧ alternatives casefold (d.edited changes now).chosen given ≠ []
          ∧ t'.options = (t.options.filter fun o => decide (o.decisionId
            ≠ d.id))
            ++ winner t.nextId d.id (d.edited changes now).chosen
            :: losers (t.nextId + 1) d.id
              (alternatives casefold (d.edited changes now).chosen given))
        ∨ (∃ chosen, changes.options = none ∧ changes.chosen = some chosen
          ∧ t'.options = (t.options.filter fun o =>
              !(decide (o.decisionId = d.id) && o.wasChosen))
            ++ [winner t.nextId d.id (strip chosen)])
        ∨ changes.options = none ∧ changes.chosen = none
          ∧ t'.options = t.options) := by
  unfold edit at h
  split at h
  case h_1 => cases h
  case h_2 d hd =>
    split at h
    case isTrue => cases h
    case isFalse =>
      split at h
      case isTrue => cases h
      case isFalse =>
        obtain ⟨t₁, h₁, h⟩ := bind_ok.1 h
        obtain ⟨t₂, h₂, h⟩ := bind_ok.1 h
        cases h
        have hdecisions := (editAssumptions_spec h₂).1.trans (editOptions_frame h₁).1
        refine ⟨d, hd, hdecisions, ?_⟩
        have hoptions := editAssumptions_options h₂
        unfold editOptions at h₁
        cases hgiven : changes.options with
        | some given =>
          rw [hgiven] at h₁
          dsimp only at h₁
          split at h₁
          case isTrue => cases h₁
          case isFalse hkept =>
            cases h₁
            exact .inl ⟨given, rfl,
              fun hnil => hkept (List.isEmpty_iff.2 hnil),
              hoptions⟩
        | none =>
          rw [hgiven] at h₁
          dsimp only at h₁
          cases hchosen : changes.chosen with
          | some chosen =>
            rw [hchosen] at h₁
            cases h₁
            have hmoved : (d.edited changes now).chosen = strip chosen := by
              simp [Decision.edited, hchosen]
            refine .inr (.inl ⟨chosen, rfl, rfl, hoptions.trans ?_⟩)
            rw [← hmoved]
            rfl
          | none =>
            rw [hchosen] at h₁
            cases h₁
            exact .inr (.inr ⟨rfl, rfl, hoptions⟩)

end

-- ======== the edit

section
variable {casefold} {t t' : Tables} {d d' d₀ : Decision} {decisionId : Id}
  {changes : DecisionEdit} {now : Timestamp} {o : DecisionOption}

theorem optionsOf_replaced {p : DecisionOption → Bool} {rows :
    List DecisionOption}
    {id other : Id} (hoptions : t'.options = t.options.filter p ++ rows)
    (hkept : ∀ o, o.decisionId ≠ id → p o = true)
    (hrows : ∀ o ∈ rows, o.decisionId = id) (hother : other ≠ id) :
    optionsOf t' other = optionsOf t other := by
  have hnone : rows.filter (fun o => decide (o.decisionId = other)) = [] := by
    apply List.filter_eq_nil_iff.2
    intro o ho
    rw [hrows o ho]
    simpa using hother.symm
  unfold optionsOf
  rw [hoptions, List.filter_append, hnone, List.append_nil, List.filter_filter]
  apply List.filter_congr
  intro o _
  by_cases hid : o.decisionId = other
  · rw [hkept o (hid ▸ hother), Bool.and_true]
  · simp [hid]

theorem optionsOf_own {p : DecisionOption → Bool} {rows : List DecisionOption}
    {id : Id} (hoptions : t'.options = t.options.filter p ++ rows)
    (hrows : ∀ o ∈ rows, o.decisionId = id) :
    optionsOf t' id = (optionsOf t id).filter p ++ rows := by
  have hall : rows.filter (fun o => decide (o.decisionId = id)) = rows :=
    List.filter_eq_self.2 fun o ho => decide_eq_true (hrows o ho)
  unfold optionsOf
  rw [hoptions, List.filter_append, hall, List.filter_filter,
    List.filter_filter]
  simp only [Bool.and_comm]

theorem edited_or (hd : t.decision decisionId = some d)
    (hdecisions : t'.decisions = t.decisions.map fun row =>
      if row.id = decisionId then d.edited changes now else row)
    (hd' : d' ∈ t'.decisions) :
    d' = d.edited changes now ∧ d.id = decisionId ∧ d ∈ t.decisions
      ∨ d' ∈ t.decisions ∧ d'.id ≠ decisionId := by
  have hid : d.id = decisionId := by simpa using List.find?_some hd
  rw [hdecisions] at hd'
  obtain ⟨row, hrow, rfl⟩ := List.mem_map.1 hd'
  split
  case isTrue => exact .inl ⟨rfl, hid, List.mem_of_find?_eq_some hd⟩
  case isFalse hne => exact .inr ⟨hrow, hne⟩

theorem edit_optionsOf (h : edit casefold t decisionId changes now = .ok t')
    {other : Id} (hother : other ≠ decisionId) :
    optionsOf t' other = optionsOf t other := by
  obtain ⟨d, hd, -, hcases⟩ := edit_options h
  have hid : d.id = decisionId := by simpa using List.find?_some hd
  rw [← hid] at hother
  rcases hcases with ⟨given, -, -, hoptions⟩ | ⟨chosen, -, -, hoptions⟩
    | ⟨-, -, hoptions⟩
  · refine optionsOf_replaced hoptions (fun o ho => decide_eq_true ho) ?_ hother
    intro o ho
    rcases List.mem_cons.1 ho with rfl | ho
    · rfl
    · exact (mem_losers ho).1
  · refine optionsOf_replaced hoptions (fun o ho => by simp [ho]) ?_ hother
    intro o ho
    rw [List.mem_singleton.1 ho]
    rfl
  · unfold optionsOf
    rw [hoptions]

theorem optionsOf_moved {chosen : Text}
    (hoptions : t'.options = (t.options.filter fun o =>
        !(decide (o.decisionId = d.id) && o.wasChosen))
      ++ [winner t.nextId d.id chosen]) :
    optionsOf t' d.id = ((optionsOf t d.id).filter fun o => !o.wasChosen)
      ++ [winner t.nextId d.id chosen] := by
  rw [optionsOf_own hoptions fun o ho => by rw [List.mem_singleton.1 ho]; rfl]
  congr 1
  apply List.filter_congr
  intro o ho
  rw [(mem_optionsOf.1 ho).2]
  simp

theorem Real.edit_iff (hreal : Real casefold t)
    (h : edit casefold t decisionId changes now = .ok t') :
    Real casefold t' ↔ Rejects casefold t (.edit decisionId changes now) := by
  obtain ⟨d, hd, hdecisions, hcases⟩ := edit_options h
  have hid : d.id = decisionId := by simpa using List.find?_some hd
  have hmem : d ∈ t.decisions := List.mem_of_find?_eq_some hd
  have hedited : d.edited changes now ∈ t'.decisions := by
    rw [hdecisions]
    exact List.mem_map.2 ⟨d, hmem, if_pos hid⟩
  -- the others are as they were, so the edited one decides
  have hone : Real casefold t'
    ↔ Decided casefold t' (d.edited changes now) := by
    refine ⟨fun hreal' => hreal' _ hedited, fun hdecided d' hd' => ?_⟩
    rcases edited_or hd hdecisions hd' with ⟨rfl, -⟩ | ⟨hd', hne⟩
    · exact hdecided
    · exact (hreal d' hd').congr rfl rfl (edit_optionsOf h hne)
  rw [hone]
  rcases hcases with ⟨given, hgiven, hne, hoptions⟩
    | ⟨chosen, hnone, hchosen, hoptions⟩ | ⟨hnone, hchosen, hoptions⟩
  · -- the options are replaced, and looked at
    apply iff_of_true
    · refine @decided_written casefold t' (d.edited changes now) _ given
        t.nextId (t.nextId + 1) rfl hne ?_
      have hrows : ∀ o ∈ winner t.nextId d.id (d.edited changes now).chosen
          :: losers (t.nextId + 1) d.id
            (alternatives casefold (d.edited changes now).chosen given),
          o.decisionId = d.id := by
        intro o ho
        rcases List.mem_cons.1 ho with rfl | ho
        · rfl
        · exact (mem_losers ho).1
      have hown := optionsOf_own hoptions hrows
      have hgone : (optionsOf t d.id).filter
          (fun o => decide (o.decisionId ≠ d.id)) = [] :=
        List.filter_eq_nil_iff.2 fun o ho => by simp [(mem_optionsOf.1 ho).2]
      rw [hgone, List.nil_append] at hown
      exact hown
    · intro hnone
      rw [hgiven] at hnone
      cases hnone
  · -- the choice is replaced, and what lost is not looked at
    have hmoved : (d.edited changes now).chosen = strip chosen := by
      simp [Decision.edited, hchosen]
    have hown := optionsOf_moved hoptions
    constructor
    · intro hdecided _ chosen' hchosen'
      obtain rfl : chosen = chosen' :=
        Option.some.inj (hchosen.symm.trans hchosen')
      obtain ⟨o, ho, hlost, hdiffers⟩ := hdecided.alternative
      have ho' : o ∈ optionsOf t' d.id := ho
      rw [hown, List.mem_append, List.mem_singleton] at ho'
      rcases ho' with ho' | rfl
      · rw [hmoved] at hdiffers
        exact ⟨o, hid ▸ (List.mem_filter.1 ho').1, hlost, hdiffers⟩
      · cases hlost
    · intro hrejects
      obtain ⟨o, ho, hlost, hdiffers⟩ := hrejects hnone chosen hchosen
      constructor
      · refine ⟨winner t.nextId d.id (strip chosen), ?_, hmoved.symm⟩
        show (optionsOf t' d.id).filter _ = _
        rw [hown, List.filter_append, List.filter_filter]
        simp [winner]
      · refine ⟨o, ?_, hlost, hmoved ▸ hdiffers⟩
        show o ∈ optionsOf t' d.id
        rw [hown]
        refine List.mem_append_left _ (List.mem_filter.2 ⟨hid ▸ ho, ?_⟩)
        rw [hlost]
        rfl
  · -- nothing moved
    apply iff_of_true
    · refine (hreal d hmem).congr rfl (by simp [Decision.edited, hchosen]) ?_
      unfold optionsOf
      rw [hoptions]
    · intro _ chosen hsome
      rw [hchosen] at hsome
      cases hsome

end

-- ======== the runs

section
variable {casefold} {t t' : Tables} {a : Action}

theorem owned_empty : Owned .empty := fun _ h => absurd h List.not_mem_nil

theorem real_empty : Real casefold .empty :=
    fun _ h => absurd h List.not_mem_nil

theorem Real.record (hk : Keyed t) (hown : Owned t) (hreal : Real casefold t)
    {db : Db} {draft : DecisionDraft} {decidedAt : Timestamp}
    {source : TimeProvenance} {status : DecisionStatus}
    {horizon : Option ConfidenceHorizon} {now : Timestamp} {id : Id}
    (h : Decisions.record casefold db t draft decidedAt source status horizon now
      = .ok (t', id)) : Real casefold t' := by
  obtain ⟨d, hdecisions, hid, hne, hoptions⟩ := record_options h
  have hrows : ∀ o ∈ winner (t.nextId + 1) d.id d.chosen
      :: losers (t.nextId + 1 + 1) d.id
        (alternatives casefold d.chosen draft.options), o.decisionId
          = d.id := by
    intro o ho
    rcases List.mem_cons.1 ho with rfl | ho
    · rfl
    · exact (mem_losers ho).1
  intro d' hd'
  rw [hdecisions] at hd'
  rcases List.mem_append.1 hd' with hd' | hd'
  · refine (hreal d' hd').congr rfl rfl (optionsOf_append hoptions fun o ho => ?_)
    rw [hrows o ho, hid]
    exact ne_of_gt (hk.decisionsBelow d' hd')
  · rw [List.mem_singleton.1 hd']
    refine @decided_written casefold t' d _ draft.options
      (t.nextId + 1) (t.nextId + 1 + 1) rfl hne ?_
    have hnone : optionsOf t d.id = [] := by
      apply optionsOf_none
      intro o ho
      rw [hid]
      exact ne_of_lt (hown o ho)
    have hall := List.filter_eq_self.2 fun o ho => decide_eq_true (hrows o ho)
    unfold optionsOf at hnone ⊢
    rw [hoptions, List.filter_append, hnone, List.nil_append]
    exact hall

theorem Owned.perform (hk : Keyed t) (hown : Owned t)
    (h : perform casefold t a = .ok t') : Owned t' := by
  cases a with
  | record =>
    obtain ⟨id, h⟩ := map_fst_ok h
    obtain ⟨d, -, hid, -, hoptions⟩ := record_options h
    obtain ⟨-, -, ⟨rows, brought, first, -, -, hfirst, hnext, -⟩, -⟩ :=
      record_spec h
    have hlt : t.nextId < t'.nextId :=
      Nat.lt_of_lt_of_le hfirst (Nat.le_trans (Nat.le_add_right ..) hnext)
    intro o ho
    rw [hoptions] at ho
    rcases List.mem_append.1 ho with ho | ho
    · exact Nat.lt_trans (hown o ho) hlt
    · have howner : o.decisionId = d.id := by
        rcases List.mem_cons.1 ho with rfl | ho
        · rfl
        · exact (mem_losers ho).1
      rw [howner, hid]
      exact hlt
  | edit =>
    obtain ⟨d, hd, -, hcases⟩ := edit_options h
    obtain ⟨-, -, -, first, hfirst, hrest⟩ := edit_spec h
    have hnext : t.nextId ≤ t'.nextId := by
      rcases hrest with ⟨-, -, hle⟩ | ⟨rows, brought, -, -, -, hle, -⟩
      · exact Nat.le_trans hfirst hle
      · exact hle ▸ Nat.le_trans hfirst (Nat.le_add_right ..)
    have hbelow := hk.decisionsBelow d (List.mem_of_find?_eq_some hd)
    have hrow : ∀ o ∈ t'.options, o ∈ t.options ∨ o.decisionId = d.id := by
      intro o ho
      rcases hcases with ⟨given, -, -, hoptions⟩ | ⟨chosen, -, -, hoptions⟩
        | ⟨-, -, hoptions⟩
      · rw [hoptions] at ho
        rcases List.mem_append.1 ho with ho | ho
        · exact .inl (List.mem_filter.1 ho).1
        · rcases List.mem_cons.1 ho with rfl | ho
          · exact .inr rfl
          · exact .inr (mem_losers ho).1
      · rw [hoptions] at ho
        rcases List.mem_append.1 ho with ho | ho
        · exact .inl (List.mem_filter.1 ho).1
        · rw [List.mem_singleton.1 ho]
          exact .inr rfl
      · exact .inl (hoptions ▸ ho)
    intro o ho
    rcases hrow o ho with ho | howner
    · exact Nat.lt_of_lt_of_le (hown o ho) hnext
    · rw [howner]
      exact Nat.lt_of_lt_of_le hbelow hnext
  | recordOutcome =>
    obtain ⟨id, h⟩ := map_fst_ok h
    obtain ⟨-, -, -, -, -, hnext, -⟩ := recordOutcome_spec h
    intro o ho
    rw [recordOutcome_options h] at ho
    exact Nat.lt_trans (hown o ho) hnext
  | evaluate =>
    obtain ⟨-, -, -, hnext, -⟩ := evaluate_spec h
    intro o ho
    rw [evaluate_options h] at ho
    exact Nat.lt_of_lt_of_le (hown o ho) hnext

theorem Real.perform_iff (hk : Keyed t) (hown : Owned t)
    (hreal : Real casefold t)
    (h : perform casefold t a = .ok t') :
    Real casefold t' ↔ Rejects casefold t a := by
  cases a with
  | record =>
    obtain ⟨id, h⟩ := map_fst_ok h
    exact iff_of_true (hreal.record hk hown h) trivial
  | edit => exact hreal.edit_iff h
  | recordOutcome =>
    obtain ⟨id, h⟩ := map_fst_ok h
    obtain ⟨-, -, -, hdecisions, -⟩ := recordOutcome_spec h
    refine iff_of_true (fun d hd => ?_) trivial
    rw [hdecisions] at hd
    refine (hreal d hd).congr rfl rfl ?_
    unfold optionsOf
    rw [recordOutcome_options h]
  | evaluate =>
    obtain ⟨-, hdecisions, -⟩ := evaluate_spec h
    refine iff_of_true (fun d hd => ?_) trivial
    rw [hdecisions] at hd
    refine (hreal d hd).congr rfl rfl ?_
    unfold optionsOf
    rw [evaluate_options h]

theorem real_step {es : List Unit} (hk : Keyed t) (hown : Owned t)
    (hreal : Real casefold t) (h : (machine casefold).step t a
    = some (t', es)) :
    Keyed t' ∧ Owned t' ∧ (Real casefold t' ↔ KeepsReal casefold t a) := by
  rcases step_cases h with h | ⟨rfl, hnot⟩
  · refine ⟨hk.perform h, hown.perform hk h,
      (hreal.perform_iff hk hown h).trans ?_⟩
    exact ⟨fun hrejects _ => hrejects, fun hrejects => hrejects ⟨t', h⟩⟩
  · exact ⟨hk, hown, iff_of_true hreal fun hok => absurd hok.choose_spec
      (hnot hok.choose)⟩

end

/-- Every decision keeps its winner and an alternative throughout a run exactly
when every call leaves one. -/
theorem always_real_iff (acts : List Action) :
    (machine casefold).Always (Real casefold) .empty acts
      ↔ (machine casefold).EveryStep (KeepsReal casefold) .empty acts := by
  apply Machine.always_iff_everyStep fun t => Keyed t ∧ Owned t
    ∧ Real casefold t
  · exact fun _ h => h.2.2
  · intro t a t' es hinv h hkeeps
    obtain ⟨hk, hown, hreal⟩ := hinv
    obtain ⟨hk', hown', hiff⟩ := real_step hk hown hreal h
    exact ⟨hk', hown', hiff.2 hkeeps⟩
  · intro t a t' es hinv h hreal'
    obtain ⟨hk, hown, hreal⟩ := hinv
    exact (real_step hk hown hreal h).2.2.1 hreal'
  · exact ⟨keyed_empty, owned_empty, real_empty⟩

-- ------ the choice takes the last loser's words

/-- The choice becomes what was the one alternative. -/
def otherStore : DecisionEdit where
  question := none
  chosen := some "SQLite".toList
  reasoning := none
  expectedOutcome := none
  status := none
  options := none
  assumptions := none

/-- A decision for one of two, and then for the other. -/
def switched : List Action :=
  [.record {} whichStore 0 .declared .opened none 10, .edit 0 otherStore 20]

/-- A decision whose options are all its choice. -/
def alone (t : Tables) : Bool :=
  t.decisions.any fun d =>
    (optionsOf t d.id).all fun o => o.wasChosen || decide (strip o.description
      = d.chosen)

/-- The edit goes through, and nothing is left that was rejected. -/
theorem not_real :
    ¬ ∀ (casefold : Text → Text) (acts : List Action),
      (machine casefold).Always (Real casefold) .empty acts := by
  intro hall
  have hrun : ((machine id).run .empty switched).map (fun r => alone r.1)
      = some true := by decide +kernel
  obtain ⟨⟨t, evs⟩, hrun, halone⟩ := Option.map_eq_some_iff.1 hrun
  obtain ⟨d, hd, hall'⟩ := List.any_eq_true.1 halone
  obtain ⟨o, ho, hlost, hdiffers⟩ :=
    ((hall id switched).last hrun d hd).alternative
  have hsame := List.all_eq_true.1 hall' o ho
  rw [hlost, Bool.false_or] at hsame
  exact hdiffers (of_decide_eq_true hsame)

end Decisions

end MemoryOS
