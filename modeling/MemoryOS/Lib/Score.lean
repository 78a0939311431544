/-
The score interval of a rate `p` observed in `n` draws, and the loop that
counts draws up until a test clears.

The interval is the values `q` that the test `n (p - q)² ≤ w q (1 - q)` does not
reject (`mem_score_iff`). The test is a quadratic in `q`. Its roots lie around
`centre` at the square root of `spread`, which is not taken here: a margin is a
number that is not negative and whose square is the spread. More draws at the
same rate reject more (`score_more`).

The loop is run on fuel. With a test that stays cleared once it clears, and
clears somewhere, enough fuel gives the least number from the start on that
clears, and every one from there on clears (`climb_least`).
-/
import Mathlib.Algebra.Order.Field.Basic
import Mathlib.Order.Nat
import Mathlib.Tactic.FieldSimp
import Mathlib.Tactic.Linarith
import Mathlib.Tactic.Positivity
import Mathlib.Tactic.Ring

namespace MemoryOS.Lib

/-- `while not clears(needed): needed += 1`. -/
def climb (clears : Nat → Bool) : Nat → Nat → Option Nat
  | 0, _ => none
  | fuel + 1, needed =>
    if clears needed then some needed else climb clears fuel (needed + 1)

variable {clears : Nat → Bool} {start d fuel n : Nat}

theorem climb_eq (hclears : clears (start + d) = true)
    (hbelow : ∀ e, e < d → clears (start + e) = false) (hfuel : d < fuel) :
    climb clears fuel start = some (start + d) := by
  induction d generalizing start fuel with
  | zero =>
    obtain ⟨fuel, rfl⟩ := Nat.exists_eq_succ_of_ne_zero (Nat.ne_of_gt hfuel)
    have hstart : clears start = true := hclears
    rw [climb, if_pos hstart]
    rfl
  | succ d ih =>
    obtain ⟨fuel, rfl⟩ : ∃ f, fuel = f + 1 := ⟨fuel - 1, by omega⟩
    have hstart : clears start = false := hbelow 0 (by omega)
    rw [climb, hstart, if_neg Bool.false_ne_true]
    have hnext : start + (d + 1) = start + 1 + d := by omega
    rw [hnext] at hclears ⊢
    apply ih hclears
    · intro e he
      have hlater := hbelow (e + 1) (by omega)
      rwa [show start + (e + 1) = start + 1 + e by omega] at hlater
    · omega

theorem climb_least (hmono : ∀ n, clears n = true → clears (n + 1) = true)
    (hsome : ∃ n, start ≤ n ∧ clears n = true) :
    ∃ n, start ≤ n
      ∧ (∀ fuel, n - start < fuel → climb clears fuel start = some n)
      ∧ ∀ k, start ≤ k → (clears k = true ↔ n ≤ k) := by
  have hsome : ∃ d, clears (start + d) = true := by
    obtain ⟨n, hle, hn⟩ := hsome
    exact ⟨n - start, by rwa [Nat.add_sub_cancel' hle]⟩
  have hup : ∀ n m, n ≤ m → clears n = true → clears m = true := by
    intro n m hle hn
    induction hle with
    | refl => exact hn
    | step _ ih => exact hmono _ ih
  refine ⟨start + Nat.find hsome, Nat.le_add_right _ _, fun fuel hfuel => ?_,
    fun k hk => ?_⟩
  · apply climb_eq (Nat.find_spec hsome)
    · intro e he
      exact Bool.eq_false_iff.2 (Nat.find_min hsome he)
    · omega
  · constructor
    · intro hclears
      have hmin := Nat.find_min' hsome (m := k - start)
        (by rwa [Nat.add_sub_cancel' hk])
      omega
    · exact fun hle => hup _ _ hle (Nat.find_spec hsome)

end MemoryOS.Lib

namespace MemoryOS.Lib.Score

variable {K : Type} [Field K] [LinearOrder K] [IsStrictOrderedRing K]

/-- The middle of the interval. -/
def centre (w n p : K) : K := (p + w / (n + n)) / (1 + w / n)

/-- What the margin's square root is taken of. -/
def variance (w n p : K) : K := p * (1 - p) / n + w / ((n + n) * (n + n))

/-- The square of the margin. -/
def spread (w n p : K) : K := w / (1 + w / n) ^ 2 * variance w n p

variable {w n n' p q c m : K}

theorem variance_nonneg (hn : 0 < n) (hw : 0 ≤ w) (hp : 0 ≤ p) (hp' : p ≤ 1) :
    0 ≤ variance w n p := by
  have hq : 0 ≤ 1 - p := sub_nonneg.2 hp'
  unfold variance
  positivity

-- ====== the quadratic

theorem score_eq (hn : 0 < n) (hw : 0 ≤ w) :
    n * (p - q) ^ 2 - w * q * (1 - q)
      = (n + w) * ((q - centre w n p) ^ 2 - spread w n p) := by
  have hne : n ≠ 0 := ne_of_gt hn
  have hsum : n + w ≠ 0 := ne_of_gt (add_pos_of_pos_of_nonneg hn hw)
  have hden : (1 : K) + w / n = (n + w) / n := by field_simp
  unfold centre spread variance
  rw [hden]
  field_simp
  ring

theorem mem_score_iff (hn : 0 < n) (hw : 0 ≤ w) (hm : 0 ≤ m)
    (hsq : m ^ 2 = spread w n p) :
    centre w n p - m ≤ q ∧ q ≤ centre w n p + m
      ↔ n * (p - q) ^ 2 ≤ w * q * (1 - q) := by
  have hsum : 0 < n + w := add_pos_of_pos_of_nonneg hn hw
  have hquadratic := @score_eq K _ _ _ w n p q hn hw
  rw [← hsq] at hquadratic
  calc centre w n p - m ≤ q ∧ q ≤ centre w n p + m
      ↔ |q - centre w n p| ≤ m := by
        rw [abs_le, neg_le_sub_iff_le_add, sub_le_iff_le_add, sub_le_iff_le_add,
          add_comm m]
    _ ↔ (q - centre w n p) ^ 2 ≤ m ^ 2 := (sq_le_sq₀ (abs_nonneg _) hm).symm.trans
        (by rw [sq_abs])
    _ ↔ n * (p - q) ^ 2 ≤ w * q * (1 - q) := by
        rw [← sub_nonpos, ← @sub_nonpos _ _ _ _ _ (w * q * (1 - q)), hquadratic]
        exact ⟨mul_nonpos_of_nonneg_of_nonpos hsum.le,
          fun h => nonpos_of_mul_nonpos_right h hsum⟩

theorem score_self (hw : 0 ≤ w) (hp : 0 ≤ p) (hp' : p ≤ 1) :
    n * (p - p) ^ 2 ≤ w * p * (1 - p) := by
  have hq : 0 ≤ 1 - p := sub_nonneg.2 hp'
  have hright : 0 ≤ w * p * (1 - p) := mul_nonneg (mul_nonneg hw hp) hq
  simpa using hright

theorem score_more (hn : n ≤ n') (h : n' * (p - q) ^ 2 ≤ w * q * (1 - q)) :
    n * (p - q) ^ 2 ≤ w * q * (1 - q) :=
  le_trans (mul_le_mul_of_nonneg_right hn (sq_nonneg _)) h

-- ====== the mirror

theorem centre_mirror (hn : 0 < n) (hw : 0 ≤ w) :
    centre w n (1 - p) = 1 - centre w n p := by
  have hne : n ≠ 0 := ne_of_gt hn
  have hsum : n + w ≠ 0 := ne_of_gt (add_pos_of_pos_of_nonneg hn hw)
  have hden : (1 : K) + w / n = (n + w) / n := by field_simp
  unfold centre
  rw [hden]
  field_simp
  ring

omit [LinearOrder K] [IsStrictOrderedRing K] in
theorem variance_mirror : variance w n (1 - p) = variance w n p := by
  unfold variance
  rw [sub_sub_cancel, mul_comm (1 - p)]

end MemoryOS.Lib.Score
