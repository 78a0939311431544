/-
The arithmetic of a pattern's confidence (`domain/patterns.py`).

Floats of the source are rationals here. The interval is over any numbers that
are ordered and divide, and its square root is a parameter.
-/
import Mathlib.Algebra.Order.Field.Rat
import MemoryOS.Lib.Score

namespace MemoryOS.Patterns

open Lib

-- ====== confidence

/-- `DEFAULT_MIN_SUPPORT`. -/
def defaultMinSupport : Nat := 3

/-- `MAX_CONFIDENCE`. -/
def maxConfidence : ℚ := 19 / 20

/-- `pattern_confidence`. -/
def patternConfidence (supporting contradicting minSupport : Nat) : ℚ :=
  if supporting = 0 then 0
  else
    let agreement : ℚ := supporting / (supporting + contradicting)
    let sufficiency : ℚ := min 1 (supporting / (2 * minSupport))
    min maxConfidence (agreement * sufficiency)

/-- `REFLECTION_MIN_CONFIDENCE`. -/
def reflectionMinConfidence : ℚ :=
  patternConfidence (defaultMinSupport + 1) 0 defaultMinSupport

/-- `clears_reflection_bar`. -/
def clearsReflectionBar (confidence : Option ℚ) (threshold : ℚ) : Bool :=
  match confidence with
  | none => false
  | some confidence => decide (threshold ≤ confidence)

/-- `is_emittable`. -/
def isEmittable (supporting contradicting minSupport : Nat) : Bool :=
  decide (minSupport ≤ supporting) && decide (contradicting < supporting)

-- ====== the interval

namespace Exact

variable {K : Type} [Field K] [LinearOrder K]

/-- `Interval`. -/
structure Interval (K : Type) where
  observed : K
  low : K
  high : K
  n : Nat

/-- `Interval.contains`. -/
def Interval.contains (i : Interval K) (value : K) : Bool :=
  decide (i.low ≤ value) && decide (value ≤ i.high)

/-- `_Z`. -/
def z : K := 1959963984540054 / 1000000000000000

/-- `wilson_interval`. -/
def wilsonInterval (sqrt : K → K) (successes n : Nat) : Interval K :=
  if n = 0 then ⟨0, 0, 1, 0⟩
  else
    let observed : K := successes / n
    let denominator : K := 1 + z * z / n
    let centre : K := (observed + z * z / (2 * n)) / denominator
    let margin : K := z / denominator
      * sqrt (observed * (1 - observed) / n + z * z / (4 * n * n))
    { observed := observed
      low := max 0 (centre - margin)
      high := min 1 (centre + margin)
      n := n }

/-- `is_miscalibrated`. -/
def isMiscalibrated (sqrt : K → K) (stated : K) (successes n : Nat) : Bool :=
  !(wilsonInterval sqrt successes n).contains stated

end Exact

-- ====== support needed

/-- The `ValueError` of `support_needed_for_reflection`: "no amount of
evidence reaches …". -/
structure OutOfReach where
  threshold : ℚ
  ceiling : ℚ
deriving DecidableEq

/-- `support_needed_for_reflection`, with fuel for its loop. -/
def supportNeededForReflection (fuel supporting contradicting minSupport : Nat)
    (threshold : ℚ) : Except OutOfReach (Option Nat) :=
  if maxConfidence < threshold then .error ⟨threshold, maxConfidence⟩
  else
    .ok ((climb (fun needed => !decide
        (patternConfidence needed contradicting minSupport < threshold))
      fuel (max supporting minSupport)).map fun needed => needed - supporting)

end MemoryOS.Patterns
