/-
The calibration test is the score test (`domain/patterns.py`).

In exact arithmetic the ends of `wilson_interval` are the roots of the score
test's quadratic, and the clamps at 0 and 1 cut nothing off between them
(`contains_iff`). The interval of the failures is its mirror image, and more
draws at the same rate lie within it.
-/
import Mathlib.Analysis.Real.Sqrt
import MemoryOS.Lib.Score
import MemoryOS.Patterns.Detectors

namespace MemoryOS.Patterns

open Lib

namespace Exact

-- ====== statement vocabulary

/-- The interval lies in [0, 1] around the rate observed. -/
structure Around (i : Interval ℝ) (rate : ℝ) : Prop where
  nonneg : 0 ≤ i.low
  low : i.low ≤ rate
  high : rate ≤ i.high
  le_one : i.high ≤ 1

/-- One interval is the other's mirror image. -/
structure Mirrors (i j : Interval ℝ) : Prop where
  observed : j.observed = 1 - i.observed
  low : j.low = 1 - i.high
  high : j.high = 1 - i.low

/-- One interval lies within the other, so it is not wider. -/
structure Within (j i : Interval ℝ) : Prop where
  low : i.low ≤ j.low
  high : j.high ≤ i.high
  width : j.high - j.low ≤ i.high - i.low

/-- Everything that is said of the interval of so many successes in `n`. -/
structure ScoreTest (successes n : Nat) : Prop where
  around : Around (wilsonInterval Real.sqrt successes n) ((successes : ℝ) / n)
  miscalibrated : ∀ p : ℝ, 0 ≤ p → p ≤ 1 →
    (isMiscalibrated Real.sqrt p successes n = true
      ↔ (z : ℝ) ^ 2 * p * (1 - p) < n * ((successes : ℝ) / n - p) ^ 2)
  mirror : Mirrors (wilsonInterval Real.sqrt successes n)
    (wilsonInterval Real.sqrt (n - successes) n)
  narrower : ∀ k, 1 ≤ k → Within (wilsonInterval Real.sqrt (k * successes) (k * n))
    (wilsonInterval Real.sqrt successes n)

-- ====== the margin

section
variable {successes n : Nat} {p : ℝ}

/-- The rate of so many successes. -/
noncomputable def rate (successes n : Nat) : ℝ := (successes : ℝ) / n

/-- The margin around the centre. -/
noncomputable def margin (successes n : Nat) : ℝ :=
  z / (1 + z * z / (n : ℝ)) * √(Score.variance (z * z) (n : ℝ) (rate successes n))

/-- The middle of the interval. -/
noncomputable def centre (successes n : Nat) : ℝ :=
  Score.centre (z * z) (n : ℝ) (rate successes n)

theorem z_pos : (0 : ℝ) < z := by
  unfold z
  norm_num

theorem zz_nonneg : (0 : ℝ) ≤ z * z := mul_self_nonneg z

theorem wilsonInterval_pos (hn : 1 ≤ n) : wilsonInterval Real.sqrt successes n
    = ⟨rate successes n, max 0 (centre successes n - margin successes n),
        min 1 (centre successes n + margin successes n), n⟩ := by
  have hdouble : (2 : ℝ) * n = n + n := two_mul _
  have hsquare : (4 : ℝ) * n * n = (n + n) * (n + n) := by ring
  unfold wilsonInterval centre margin Score.centre Score.variance rate
  rw [if_neg (Nat.ne_of_gt hn), hdouble, hsquare]

theorem rate_nonneg : 0 ≤ rate successes n := by
  unfold rate
  positivity

theorem rate_le_one (hs : successes ≤ n) : rate successes n ≤ 1 :=
  div_le_one_of_le₀ (Nat.cast_le.2 hs) (Nat.cast_nonneg n)

theorem cast_pos (hn : 1 ≤ n) : (0 : ℝ) < n := Nat.cast_pos.2 hn

theorem margin_nonneg (hn : 1 ≤ n) : 0 ≤ margin successes n := by
  have hpos := cast_pos hn
  have hz := z_pos
  unfold margin
  positivity

theorem margin_sq (hn : 1 ≤ n) (hs : successes ≤ n) : margin successes n ^ 2
    = Score.spread (z * z) (n : ℝ) (rate successes n) := by
  have hvariance := Score.variance_nonneg (cast_pos hn) zz_nonneg rate_nonneg
    (rate_le_one hs)
  unfold margin Score.spread
  rw [mul_pow, Real.sq_sqrt hvariance, div_pow, sq (z : ℝ)]

-- ====== the score test

theorem contains_iff (hn : 1 ≤ n) (hs : successes ≤ n) (h0 : 0 ≤ p) (h1 : p ≤ 1) :
    (wilsonInterval Real.sqrt successes n).contains p = true
      ↔ (n : ℝ) * (rate successes n - p) ^ 2 ≤ z * z * p * (1 - p) := by
  have hscore := @Score.mem_score_iff ℝ _ _ _ (z * z) n (rate successes n) p
    (margin successes n) (cast_pos hn) zz_nonneg (margin_nonneg hn)
    (margin_sq hn hs)
  rw [wilsonInterval_pos hn, ← hscore]
  unfold Interval.contains
  rw [Bool.and_eq_true, decide_eq_true_eq, decide_eq_true_eq]
  -- a clamp cuts nothing off between 0 and 1
  rw [max_le_iff, le_min_iff]
  exact ⟨fun h => ⟨h.1.2, h.2.2⟩, fun h => ⟨⟨h0, h.1⟩, h1, h.2⟩⟩

theorem miscalibrated_iff (hn : 1 ≤ n) (hs : successes ≤ n) (h0 : 0 ≤ p)
    (h1 : p ≤ 1) : isMiscalibrated Real.sqrt p successes n = true
      ↔ (z : ℝ) ^ 2 * p * (1 - p) < n * (rate successes n - p) ^ 2 := by
  unfold isMiscalibrated
  rw [Bool.not_eq_true', Bool.eq_false_iff, Ne, contains_iff hn hs h0 h1, not_le,
    sq (z : ℝ)]

theorem contains_rate (hn : 1 ≤ n) (hs : successes ≤ n) :
    (wilsonInterval Real.sqrt successes n).contains (rate successes n) = true :=
  (contains_iff hn hs rate_nonneg (rate_le_one hs)).2
    (Score.score_self zz_nonneg rate_nonneg (rate_le_one hs))

theorem contains_bounds {i : Interval ℝ} (h : i.contains p = true) :
    i.low ≤ p ∧ p ≤ i.high := by
  unfold Interval.contains at h
  rwa [Bool.and_eq_true, decide_eq_true_eq, decide_eq_true_eq] at h

theorem around (hn : 1 ≤ n) (hs : successes ≤ n) :
    Around (wilsonInterval Real.sqrt successes n) (rate successes n) := by
  have hbounds := contains_bounds (contains_rate hn hs)
  rw [wilsonInterval_pos hn] at hbounds ⊢
  exact ⟨le_max_left .., hbounds.1, hbounds.2, min_le_left ..⟩

-- ======= its shape

theorem rate_failures (hn : 1 ≤ n) (hs : successes ≤ n) :
    rate (n - successes) n = 1 - rate successes n := by
  unfold rate
  rw [Nat.cast_sub hs, sub_div, div_self (ne_of_gt (cast_pos hn))]

theorem mirrors (hn : 1 ≤ n) (hs : successes ≤ n) :
    Mirrors (wilsonInterval Real.sqrt successes n)
      (wilsonInterval Real.sqrt (n - successes) n) := by
  have hcentre : centre (n - successes) n = 1 - centre successes n := by
    unfold centre
    rw [rate_failures hn hs, Score.centre_mirror (cast_pos hn) zz_nonneg]
  have hmargin : margin (n - successes) n = margin successes n := by
    unfold margin
    rw [rate_failures hn hs, Score.variance_mirror]
  rw [wilsonInterval_pos hn, wilsonInterval_pos hn, hcentre, hmargin]
  refine ⟨rate_failures hn hs, ?_, ?_⟩
  · show max 0 (1 - centre successes n - margin successes n)
      = 1 - min 1 (centre successes n + margin successes n)
    rw [← max_sub_sub_left, sub_self, sub_sub]
  · show min 1 (1 - centre successes n + margin successes n)
      = 1 - max 0 (centre successes n - margin successes n)
    rw [← min_sub_sub_left, sub_zero, sub_add]

theorem rate_scaled {k : Nat} (hk : 1 ≤ k) :
    rate (k * successes) (k * n) = rate successes n := by
  unfold rate
  rw [Nat.cast_mul, Nat.cast_mul, mul_div_mul_left _ _ (ne_of_gt (cast_pos hk))]

theorem contains_scaled {k : Nat} (hk : 1 ≤ k) (hn : 1 ≤ n) (hs : successes ≤ n)
    (h0 : 0 ≤ p) (h1 : p ≤ 1)
    (h : (wilsonInterval Real.sqrt (k * successes) (k * n)).contains p = true) :
    (wilsonInterval Real.sqrt successes n).contains p = true := by
  have hscaled : 1 ≤ k * n := Nat.mul_pos hk hn
  have hle : (n : ℝ) ≤ ((k * n : Nat) : ℝ) :=
    Nat.cast_le.2 (Nat.le_mul_of_pos_left n hk)
  rw [contains_iff hscaled (Nat.mul_le_mul_left k hs) h0 h1, rate_scaled hk] at h
  rw [contains_iff hn hs h0 h1]
  exact Score.score_more hle h

theorem contains_ends {i : Interval ℝ} {rate : ℝ} (h : Around i rate) :
    i.contains i.low = true ∧ i.contains i.high = true := by
  have hle := h.low.trans h.high
  unfold Interval.contains
  simp [hle]

theorem within {k : Nat} (hk : 1 ≤ k) (hn : 1 ≤ n) (hs : successes ≤ n) :
    Within (wilsonInterval Real.sqrt (k * successes) (k * n))
      (wilsonInterval Real.sqrt successes n) := by
  have hscaled : 1 ≤ k * n := Nat.mul_pos hk hn
  have haround := around hscaled (Nat.mul_le_mul_left k hs)
  have hends := contains_ends haround
  have hlow := contains_bounds (contains_scaled hk hn hs haround.nonneg
    (haround.low.trans (haround.high.trans haround.le_one)) hends.1)
  have hhigh := contains_bounds (contains_scaled hk hn hs
    (haround.nonneg.trans (haround.low.trans haround.high)) haround.le_one hends.2)
  exact ⟨hlow.1, hhigh.2, by linarith [hlow.1, hhigh.2]⟩

end

-- ====== of the detectors

section
variable (python : Python) (successes n : Nat)

theorem wilsonInterval_rat : wilsonInterval python.sqrt successes n
    = ⟨(Patterns.wilsonInterval python successes n).observed,
        (Patterns.wilsonInterval python successes n).low,
        (Patterns.wilsonInterval python successes n).high,
        (Patterns.wilsonInterval python successes n).n⟩ := by
  unfold wilsonInterval Patterns.wilsonInterval
  split
  case isTrue => rfl
  case isFalse => rfl

theorem isMiscalibrated_rat (stated : ℚ) :
    Patterns.isMiscalibrated python stated successes n
      = isMiscalibrated python.sqrt stated successes n := by
  unfold isMiscalibrated
  rw [wilsonInterval_rat]
  rfl

theorem calibrationCandidate_rejectedBecause (detector : String) (key noun : Text)
    (band : ℚ × ℚ) (stated : ℚ) (a b : List EvidenceItem) :
    (calibrationCandidate python detector key noun band stated successes n a
        b).rejectedBecause = none
      ↔ isMiscalibrated python.sqrt stated successes n = true := by
  rw [← isMiscalibrated_rat]
  unfold calibrationCandidate
  by_cases h : Patterns.isMiscalibrated python stated successes n = true
  · simp [h]
  · simp [h]

end

-- ====== the claim met

/-- The calibration test is the score test. -/
theorem scoreTest {successes n : Nat} (hn : 1 ≤ n) (hs : successes ≤ n) :
    ScoreTest successes n where
  around := around hn hs
  miscalibrated _ h0 h1 := miscalibrated_iff hn hs h0 h1
  mirror := mirrors hn hs
  narrower _ hk := within hk hn hs

-- ------ fourteen of fourteen

theorem scoreTest_fourteen : ScoreTest 14 14 := scoreTest (by decide) (by decide)

end Exact

end MemoryOS.Patterns
