/-
The gate speaks exactly when the best candidate clears the bar and nothing
similar is within a window, and one route never clears it.

What the scan over the history returns is a matter of whether there is a
dismissal, and else whether there is a repeat (`refusalOf_eq`), so the order
of the rows is no part of it. The bar is never below one route's best
(`singleRouteBest_le`), whatever has been marked.
-/
import Mathlib.Algebra.Order.Field.Basic
import Mathlib.Tactic.Linarith
import Mathlib.Tactic.NormNum
import MemoryOS.Surfacing.Gate

namespace MemoryOS.Surfacing

-- ====== statement vocabulary

/-- The items that are not open already. -/
def AssembledContext.candidates (context : AssembledContext) : List ContextItem :=
  context.items.filter fun item =>
    !namesTheFocus item.externalKey context.focus

/-- The best candidate clears the bar. -/
def Clears (context : AssembledContext) (threshold : ℚ) : Prop :=
  ∃ best ∈ context.candidates,
    (∀ item ∈ context.candidates, focusSpecificScore item ≤ focusSpecificScore best)
      ∧ threshold < focusSpecificScore best

/-- No similar item was dismissed within the one window or shown within the
other. -/
def Unsuppressed (keys : List String) (recent : List PriorSurfacing)
    (now : Timestamp) : Prop :=
  ∀ p ∈ recent, similar keys p.keys = true →
    dismissedLately now p.dismissedAt = false ∧ shownLately now p.surfacedAt = false

/-- Found by at most one of the routes that are about the focus. -/
def ContextItem.SingleRoute (item : ContextItem) : Prop :=
  (item.sources.filter fun s => s.1.focusSpecific).length ≤ 1

/-- Ranks begin at one: `contribution` refuses any other. -/
def ContextItem.Ranked (item : ContextItem) : Prop :=
  ∀ s ∈ item.sources, 1 ≤ s.2

variable {context : AssembledContext} {item best : ContextItem}
  {items : List ContextItem} {priors recent recent' : List PriorSurfacing}
  {keys : List String} {now : Timestamp} {threshold : ℚ}
  {refusal : Option SurfaceReason} {top : TopItem} {sha256 : String → String}

-- ======== the scan

theorem refusalOf_eq : refusalOf now refusal priors
    = if priors.any fun p => dismissedLately now p.dismissedAt then some .dismissed
      else if priors.any fun p => shownLately now p.surfacedAt then
        some .alreadySurfaced
      else refusal := by
  induction priors generalizing refusal with
  | nil => rfl
  | cons p rest ih =>
    rw [refusalOf, List.any_cons, List.any_cons]
    cases hdismissed : dismissedLately now p.dismissedAt with
    | true => rfl
    | false =>
      rw [if_neg Bool.false_ne_true, ih, Bool.false_or]
      cases hshown : shownLately now p.surfacedAt with
      | true => simp
      | false => simp

theorem refusalOf_eq_none : refusalOf now none
      (recent.filter fun p => similar keys p.keys) = none
    ↔ Unsuppressed keys recent now := by
  rw [refusalOf_eq]
  unfold Unsuppressed
  constructor
  · intro h
    split at h
    case isTrue => cases h
    case isFalse hdismissed =>
      split at h
      case isTrue => cases h
      case isFalse hshown =>
        intro p hp hsimilar
        have hmem : p ∈ recent.filter fun p => similar keys p.keys :=
          List.mem_filter.2 ⟨hp, hsimilar⟩
        simp only [List.any_eq_true, not_exists, not_and] at hdismissed hshown
        exact ⟨Bool.eq_false_iff.2 (hdismissed p hmem),
          Bool.eq_false_iff.2 (hshown p hmem)⟩
  · intro h
    have hdismissed : ¬ ((recent.filter fun p => similar keys p.keys).any
        fun p => dismissedLately now p.dismissedAt) = true := by
      simp only [List.any_eq_true, not_exists, not_and, List.mem_filter]
      intro p hp
      rw [(h p hp.1 hp.2).1]
      exact Bool.false_ne_true
    have hshown : ¬ ((recent.filter fun p => similar keys p.keys).any
        fun p => shownLately now p.surfacedAt) = true := by
      simp only [List.any_eq_true, not_exists, not_and, List.mem_filter]
      intro p hp
      rw [(h p hp.1 hp.2).2]
      exact Bool.false_ne_true
    rw [if_neg hdismissed, if_neg hshown]

theorem refusalOf_perm (h : recent.Perm recent') :
    refusalOf now none (recent.filter fun p => similar keys p.keys)
      = refusalOf now none (recent'.filter fun p => similar keys p.keys) := by
  have hfilter := h.filter fun p => similar keys p.keys
  have hany : ∀ q : PriorSurfacing → Bool,
      (recent.filter fun p => similar keys p.keys).any q
        = (recent'.filter fun p => similar keys p.keys).any q := by
    intro q
    rw [Bool.eq_iff_iff, List.any_eq_true, List.any_eq_true]
    simp only [hfilter.mem_iff]
  rw [refusalOf_eq, refusalOf_eq, hany, hany]

-- ======== the best

theorem bestOf_spec : bestOf best items ∈ best :: items
    ∧ ∀ item ∈ best :: items,
      focusSpecificScore item ≤ focusSpecificScore (bestOf best items) := by
  induction items generalizing best with
  | nil => simp [bestOf]
  | cons next rest ih =>
    rw [bestOf]
    split
    case isTrue hless =>
      obtain ⟨hmem, hall⟩ := @ih next
      refine ⟨List.mem_cons_of_mem best hmem, fun item hitem => ?_⟩
      rcases List.mem_cons.1 hitem with rfl | hitem
      · exact hless.le.trans (hall next List.mem_cons_self)
      · exact hall item hitem
    case isFalse hless =>
      obtain ⟨hmem, hall⟩ := @ih best
      constructor
      · rcases List.mem_cons.1 hmem with heq | hmem
        · rw [heq]
          exact List.mem_cons_self
        · exact List.mem_cons_of_mem best (List.mem_cons_of_mem next hmem)
      · intro item hitem
        rcases List.mem_cons.1 hitem with rfl | hitem
        · exact hall item List.mem_cons_self
        · rcases List.mem_cons.1 hitem with rfl | hitem
          · exact (not_lt.1 hless).trans (hall best List.mem_cons_self)
          · exact hall item (List.mem_cons_of_mem best hitem)

theorem topItem_spec (h : topItem context = some top) :
    ∃ best ∈ context.candidates,
      (∀ item ∈ context.candidates,
        focusSpecificScore item ≤ focusSpecificScore best)
      ∧ top.score = focusSpecificScore best
      ∧ top.routes = (best.sources.filter fun s => s.1.focusSpecific).length := by
  unfold topItem at h
  unfold AssembledContext.candidates
  split at h
  case h_1 => cases h
  case h_2 item rest hcandidates =>
    obtain rfl := Option.some.inj h
    obtain ⟨hmem, hall⟩ := @bestOf_spec item rest
    rw [hcandidates]
    exact ⟨bestOf item rest, hmem, hall, rfl, rfl⟩

theorem topItem_eq_none (h : topItem context = none) : context.candidates = [] := by
  unfold topItem at h
  unfold AssembledContext.candidates
  split at h
  case h_1 hnil => exact hnil
  case h_2 => cases h

-- ========= the bar

theorem singleRouteBest_le (dismissed actedOn : Nat) :
    singleRouteBest ≤ thresholdFor dismissed actedOn := by
  have hpos : (0 : ℚ) ≤ singleRouteBest := by
    unfold singleRouteBest
    norm_num
  have hclamped : (1 : ℚ) ≤ min 4 (max 1
      (9 / 5 + 3 / 5 * (dismissed : ℚ) - 1 / 5 * (actedOn : ℚ))) :=
    le_min (by norm_num) (le_max_left _ _)
  calc singleRouteBest = 1 * singleRouteBest := (one_mul _).symm
    _ ≤ thresholdFor dismissed actedOn :=
      mul_le_mul_of_nonneg_right hclamped hpos

theorem singleRoute_score (hranked : item.Ranked) (hsingle : item.SingleRoute) :
    focusSpecificScore item ≤ singleRouteBest := by
  unfold focusSpecificScore
  unfold ContextItem.SingleRoute at hsingle
  generalize hroutes : (item.sources.filter fun s => s.1.focusSpecific) = routes
    at hsingle ⊢
  cases routes with
  | nil =>
    unfold singleRouteBest
    norm_num
  | cons s rest =>
    obtain rfl : rest = [] := by
      rw [List.length_cons] at hsingle
      exact List.eq_nil_of_length_eq_zero (by omega)
    have hmem : s ∈ item.sources.filter fun s => s.1.focusSpecific := by
      rw [hroutes]
      exact List.mem_singleton_self s
    have hrank : (1 : ℚ) ≤ (s.2 : ℚ) := by
      exact_mod_cast hranked s (List.mem_filter.1 hmem).1
    simp only [List.map_cons, List.map_nil, List.sum_cons, List.sum_nil, add_zero]
    unfold contribution singleRouteBest
    exact one_div_le_one_div_of_le (by norm_num) (by linarith)

-- ======== the gate

theorem decideSurface_iff : (decideSurface sha256 (topItem context) keys threshold
      recent now).surface = true
    ↔ Clears context threshold ∧ Unsuppressed keys recent now := by
  unfold decideSurface Clears
  cases htop : topItem context with
  | none =>
    have hnone := topItem_eq_none htop
    constructor
    · intro h
      cases h
    · intro h
      obtain ⟨⟨best, hbest, -⟩, -⟩ := h
      rw [hnone] at hbest
      cases hbest
  | some top =>
    obtain ⟨best, hbest, hall, hscore, -⟩ := topItem_spec htop
    simp only
    by_cases hle : top.score ≤ threshold
    · rw [if_pos hle]
      constructor
      · intro h
        cases h
      · intro h
        obtain ⟨⟨other, hother, -, hclears⟩, -⟩ := h
        have hbound := hall other hother
        rw [← hscore] at hbound
        exact absurd (hclears.trans_le hbound) (not_lt.2 hle)
    · rw [if_neg hle, ← refusalOf_eq_none]
      cases hrefusal : refusalOf now none
          (recent.filter fun p => similar keys p.keys) with
      | some refusal =>
        constructor
        · intro h
          cases h
        · intro h
          cases h.2
      | none =>
        constructor
        · intro _
          refine ⟨⟨best, hbest, hall, ?_⟩, rfl⟩
          rw [← hscore]
          exact not_le.1 hle
        · intro _
          rfl

/-- The gate speaks exactly when the best candidate clears the bar and nothing
similar is within a window, whatever the order of the history; and whatever
has been marked, an item that one route found does not reach the bar. -/
theorem surface_iff (sha256 : String → String) (context : AssembledContext)
    (recent : List PriorSurfacing) (dismissed actedOn : Nat) (now : Timestamp) :
    ((decideSurface sha256 (topItem context) context.keys
          (thresholdFor dismissed actedOn) recent now).surface = true
        ↔ Clears context (thresholdFor dismissed actedOn)
          ∧ Unsuppressed context.keys recent now)
      ∧ (∀ recent', recent.Perm recent' →
        decideSurface sha256 (topItem context) context.keys
            (thresholdFor dismissed actedOn) recent' now
          = decideSurface sha256 (topItem context) context.keys
            (thresholdFor dismissed actedOn) recent now)
      ∧ ∀ item : ContextItem, item.Ranked → item.SingleRoute →
        focusSpecificScore item ≤ thresholdFor dismissed actedOn := by
  refine ⟨decideSurface_iff, ?_, ?_⟩
  · intro recent' hperm
    unfold decideSurface
    simp only [refusalOf_perm hperm]
  · intro item hranked hsingle
    exact (singleRoute_score hranked hsingle).trans
      (singleRouteBest_le dismissed actedOn)

-- ------ one route puts an item first, and everything shown so far was useful

/-- An item that retrieval alone found, in first place. -/
def foundOnce : ContextItem :=
  ⟨"notes.md", "Notes", [(.retrieval, 1), (.recency, 1)], none⟩

theorem surface_iff_foundOnce :
    focusSpecificScore foundOnce ≤ thresholdFor 0 100 :=
  (surface_iff id ⟨[], [foundOnce]⟩ [] 0 100 0).2.2 foundOnce
    (by unfold ContextItem.Ranked; decide)
    (by unfold ContextItem.SingleRoute; decide)

end MemoryOS.Surfacing
