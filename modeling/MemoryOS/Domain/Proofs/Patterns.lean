/-
The reflection bar and the support it asks for (`domain/patterns.py`).

Confidence climbs with support and falls with contradiction
(`confidence_succ`, `confidence_contradicted`), and reaches the ceiling once
support is nineteen times the contradiction and twice the minimum
(`confidence_ceiling`). So the loop ends at the least support that clears.
-/
import Mathlib.Algebra.Order.Field.Basic
import Mathlib.Tactic.FieldSimp
import Mathlib.Tactic.Linarith
import Mathlib.Tactic.NormNum
import Mathlib.Tactic.Positivity
import MemoryOS.Domain.Patterns

namespace MemoryOS.Patterns

open Lib

-- ====== statement vocabulary

/-- With enough fuel the answer is so many more. -/
def Answers (supporting contradicting minSupport : Nat) (threshold : ℚ)
    (more : Nat) : Prop :=
  ∃ enough, ∀ fuel, enough ≤ fuel →
    supportNeededForReflection fuel supporting contradicting minSupport threshold
      = .ok (some more)

/-- So much support is at least the minimum, and confidence at least the
threshold. -/
def Suffices (supporting contradicting minSupport : Nat) (threshold : ℚ) : Prop :=
  minSupport ≤ supporting
    ∧ threshold ≤ patternConfidence supporting contradicting minSupport

variable {s s' c c' m more more' : Nat} {threshold : ℚ}

-- ====== monotonicity

theorem patternConfidence_pos (hs : 0 < s) : patternConfidence s c m
    = min maxConfidence ((s : ℚ) / (s + c) * min 1 ((s : ℚ) / (2 * m))) :=
  if_neg (Nat.ne_of_gt hs)

theorem patternConfidence_nonneg : 0 ≤ patternConfidence s c m := by
  unfold patternConfidence
  split
  case isTrue => exact le_refl _
  case isFalse =>
    apply le_min
    · unfold maxConfidence
      norm_num
    · exact mul_nonneg (by positivity) (le_min zero_le_one (by positivity))

theorem confidence_succ : patternConfidence s c m ≤ patternConfidence (s + 1) c m := by
  by_cases hs : s = 0
  · have hzero : patternConfidence s c m = 0 := if_pos hs
    rw [hzero]
    exact patternConfidence_nonneg
  · have hpos : (0 : ℚ) < s := by exact_mod_cast Nat.pos_of_ne_zero hs
    have hc : (0 : ℚ) ≤ c := Nat.cast_nonneg c
    rw [patternConfidence_pos (Nat.pos_of_ne_zero hs),
      patternConfidence_pos (Nat.succ_pos s)]
    have hagreement : (s : ℚ) / (s + c) ≤ ((s + 1 : Nat) : ℚ) / ((s + 1 : Nat) + c) := by
      rw [div_le_div_iff₀ (by linarith) (by push_cast; linarith)]
      push_cast
      nlinarith
    have hsufficiency : min 1 ((s : ℚ) / (2 * m))
        ≤ min 1 (((s + 1 : Nat) : ℚ) / (2 * m)) := by
      apply min_le_min (le_refl _)
      apply div_le_div_of_nonneg_right _ (by positivity)
      push_cast
      linarith
    apply min_le_min (le_refl _)
    exact mul_le_mul hagreement hsufficiency
      (le_min zero_le_one (by positivity)) (by positivity)

theorem confidence_contradicted :
    patternConfidence s (c + 1) m ≤ patternConfidence s c m := by
  by_cases hs : s = 0
  · have hzero : patternConfidence s (c + 1) m = 0 := if_pos hs
    rw [hzero]
    exact patternConfidence_nonneg
  · have hpos : (0 : ℚ) < s := by exact_mod_cast Nat.pos_of_ne_zero hs
    have hc : (0 : ℚ) ≤ c := Nat.cast_nonneg c
    rw [patternConfidence_pos (Nat.pos_of_ne_zero hs),
      patternConfidence_pos (Nat.pos_of_ne_zero hs)]
    apply min_le_min (le_refl _)
    apply mul_le_mul_of_nonneg_right _ (le_min zero_le_one (by positivity))
    apply div_le_div_of_nonneg_left hpos.le (by linarith)
    push_cast
    linarith

theorem confidence_ceiling (hs : 0 < s) (hm : 1 ≤ m) (hsupport : 2 * m ≤ s)
    (hcontradiction : 19 * c ≤ s) : patternConfidence s c m = maxConfidence := by
  have hpos : (0 : ℚ) < s := by exact_mod_cast hs
  have hmin : (0 : ℚ) < m := by exact_mod_cast hm
  have hc : (0 : ℚ) ≤ c := Nat.cast_nonneg c
  have htwice : 2 * (m : ℚ) ≤ s := by exact_mod_cast hsupport
  have hmany : 19 * (c : ℚ) ≤ s := by exact_mod_cast hcontradiction
  have hsufficiency : min 1 ((s : ℚ) / (2 * m)) = 1 := by
    apply min_eq_left
    rw [le_div_iff₀ (by linarith)]
    linarith
  rw [patternConfidence_pos hs, hsufficiency, mul_one]
  apply min_eq_left
  unfold maxConfidence
  rw [div_le_div_iff₀ (by norm_num) (by linarith)]
  linarith

-- ======== the loop

theorem clears_iff : (!decide (patternConfidence s c m < threshold)) = true
    ↔ threshold ≤ patternConfidence s c m := by
  simp

theorem answers_least (hm : 1 ≤ m) (hthreshold : threshold ≤ maxConfidence) :
    ∃ more, Answers s c m threshold more
      ∧ ∀ k, Suffices (s + k) c m threshold ↔ more ≤ k := by
  obtain ⟨n, hstart, hloop, hleast⟩ := @climb_least
    (fun needed => !decide (patternConfidence needed c m < threshold)) (max s m)
    (fun n hn => clears_iff.2 ((clears_iff.1 hn).trans confidence_succ))
    ⟨max s m + 2 * m + 19 * c, by omega, clears_iff.2
      (by rw [confidence_ceiling (by omega) hm (by omega) (by omega)]
          exact hthreshold)⟩
  refine ⟨n - s, ⟨n - max s m + 1, fun fuel hfuel => ?_⟩, fun k => ?_⟩
  · rw [supportNeededForReflection, if_neg (not_lt.2 hthreshold),
      hloop fuel (by omega)]
    rfl
  · unfold Suffices
    constructor
    · intro h
      have hk := (hleast (s + k) (by omega)).1 (clears_iff.2 h.2)
      omega
    · intro hk
      exact ⟨by omega, clears_iff.1 ((hleast (s + k) (by omega)).2 (by omega))⟩

theorem Answers.unique (h : Answers s c m threshold more)
    (h' : Answers s c m threshold more') : more = more' := by
  obtain ⟨enough, henough⟩ := h
  obtain ⟨enough', henough'⟩ := h'
  have heq := (henough (max enough enough') (le_max_left _ _)).symm.trans
    (henough' (max enough enough') (le_max_right _ _))
  exact Option.some.inj (Except.ok.inj heq)

theorem suffices_contradicted (h : Suffices s (c + 1) m threshold) :
    Suffices s c m threshold :=
  ⟨h.1, h.2.trans confidence_contradicted⟩

-- ======= the floor

theorem reflectionMinConfidence_eq : reflectionMinConfidence = 2 / 3 := by
  unfold reflectionMinConfidence defaultMinSupport
  rw [patternConfidence_pos (by norm_num)]
  unfold maxConfidence
  norm_num

theorem emittable_of_clears (hm : 1 ≤ m)
    (h : reflectionMinConfidence ≤ patternConfidence s c m) :
    isEmittable s c m = true := by
  rw [reflectionMinConfidence_eq] at h
  have hs : 0 < s := by
    by_contra hzero
    have hnone : patternConfidence s c m = 0 := if_pos (by omega)
    rw [hnone] at h
    norm_num at h
  have hpos : (0 : ℚ) < s := by exact_mod_cast hs
  have hmin : (0 : ℚ) < m := by exact_mod_cast hm
  have hc : (0 : ℚ) ≤ c := Nat.cast_nonneg c
  rw [patternConfidence_pos hs] at h
  have hproduct := h.trans (min_le_right _ _)
  have hagreement : (s : ℚ) / (s + c) ≤ 1 :=
    (div_le_one (by linarith)).2 (by linarith)
  have hagreement' : (0 : ℚ) ≤ (s : ℚ) / (s + c) := by positivity
  have hsufficiency : min 1 ((s : ℚ) / (2 * m)) ≤ 1 := min_le_left _ _
  have hsufficiency' : 0 ≤ min 1 ((s : ℚ) / (2 * m)) :=
    le_min zero_le_one (by positivity)
  have hmost : 2 / 3 ≤ (s : ℚ) / (s + c) :=
    hproduct.trans (mul_le_of_le_one_right hagreement' hsufficiency)
  have hmuch : 2 / 3 ≤ (s : ℚ) / (2 * m) :=
    (hproduct.trans (mul_le_of_le_one_left hsufficiency' hagreement)).trans
      (min_le_right _ _)
  rw [div_le_div_iff₀ (by norm_num) (by linarith)] at hmost hmuch
  have hmore : c < s := by
    have hcast : (c : ℚ) < s := by linarith
    exact_mod_cast hcast
  have hleast : m ≤ s := by
    have hcast : (m : ℚ) ≤ s := by linarith
    exact_mod_cast hcast
  unfold isEmittable
  rw [decide_eq_true hleast, decide_eq_true hmore]
  rfl

-- ====== the answer

/-- For every count, the loop ends, at the least further support that suffices;
every larger one suffices too, one more supporting decision never raises the
answer and one more contradicting decision never lowers it; and a pattern that
clears the default bar is emittable. -/
theorem support_needed (supporting contradicting minSupport : Nat) (threshold : ℚ)
    (hm : 1 ≤ minSupport) (hthreshold : threshold ≤ maxConfidence) :
    (∃ more, Answers supporting contradicting minSupport threshold more
        ∧ ∀ k, Suffices (supporting + k) contradicting minSupport threshold
          ↔ more ≤ k)
      ∧ (∀ more more', Answers supporting contradicting minSupport threshold more →
        Answers (supporting + 1) contradicting minSupport threshold more' →
        more' ≤ more)
      ∧ (∀ more more', Answers supporting contradicting minSupport threshold more →
        Answers supporting (contradicting + 1) minSupport threshold more' →
        more ≤ more')
      ∧ (clearsReflectionBar
          (some (patternConfidence supporting contradicting minSupport))
          reflectionMinConfidence = true →
        isEmittable supporting contradicting minSupport = true) := by
  obtain ⟨n, hn, hleast⟩ := @answers_least supporting contradicting minSupport
    threshold hm hthreshold
  refine ⟨⟨n, hn, hleast⟩, fun more more' h h' => ?_, fun more more' h h' => ?_,
    fun h => ?_⟩
  · obtain ⟨n', hn', hleast'⟩ := @answers_least (supporting + 1) contradicting
      minSupport threshold hm hthreshold
    rw [h.unique hn, h'.unique hn']
    -- so many more suffice for both, and one of them is there already
    apply (hleast' n).1
    have hone : supporting + 1 + n = supporting + (n + 1) := by omega
    rw [hone]
    exact (hleast (n + 1)).2 (Nat.le_succ n)
  · obtain ⟨n', hn', hleast'⟩ := @answers_least supporting (contradicting + 1)
      minSupport threshold hm hthreshold
    rw [h.unique hn, h'.unique hn']
    exact (hleast n').1 (suffices_contradicted ((hleast' n').2 (Nat.le_refl n')))
  · exact emittable_of_clears hm (of_decide_eq_true h)

-- ------ three decisions that agree and one that does not

theorem support_needed_threeToOne : ∃ more,
    Answers 3 1 defaultMinSupport reflectionMinConfidence more
      ∧ ∀ k, Suffices (3 + k) 1 defaultMinSupport reflectionMinConfidence
        ↔ more ≤ k :=
  (support_needed 3 1 defaultMinSupport reflectionMinConfidence (by decide)
    (by rw [reflectionMinConfidence_eq]; unfold maxConfidence; norm_num)).1

end MemoryOS.Patterns
