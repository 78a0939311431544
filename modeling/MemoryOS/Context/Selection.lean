/-
Choosing which items fit, when everything relevant does not
(`domain/context.py`).

`maximalMarginalRelevance` ranks the candidates, each pick by its relevance
minus its similarity to what is ranked already; `select` walks the ranking
and keeps what the limits let in. Scores are floats in the source and
rationals here.

# What is a parameter

The similarity of two vectors: `cosine` in the source, which takes a square
root.
-/
import Mathlib.Algebra.Order.Field.Rat
import Mathlib.Data.List.MinMax
import Mathlib.Data.Rat.Floor
import MemoryOS.Db.Tables

namespace MemoryOS.Context

/-- `ContextCategory`. -/
inductive ContextCategory
  | code | prose | decision | other
deriving DecidableEq, Repr

/-- `Candidate`: one thing that could go in the context. -/
structure Candidate (V : Type) where
  key : String
  category : ContextCategory
  tokens : Int
  relevance : ℚ
  vector : Option V := none
deriving DecidableEq

/-- `Chosen`: one selected item, with the arithmetic that selected it. -/
structure Chosen where
  key : String
  position : Nat
  relevance : ℚ
  redundancy : ℚ
  score : ℚ
  tokens : Int
deriving DecidableEq

/-- `Rejection`: why a candidate is not in the result. -/
inductive Rejection
  | overBudget | categoryFull | maxItems | empty
deriving DecidableEq, Repr

/-- `Selection`. -/
structure Selection where
  chosen : List Chosen := []
  rejected : List (String × Rejection) := []
  tokensUsed : Int := 0
deriving DecidableEq

/-- `Selection.keys`. -/
def Selection.keys (selection : Selection) : List String :=
  selection.chosen.map Chosen.key

variable {V : Type}

-- ========= ranking

/-- `_relevance_normaliser`: this set's relevance range onto `[0, 1]`. -/
def relevanceNormaliser (candidates : List (Candidate V)) : ℚ → ℚ :=
  let scores := candidates.map Candidate.relevance
  match scores.min?, scores.max? with
  | some low, some high =>
    if high ≤ low then fun _ => 1
    else fun value => (value - low) / (high - low)
  | _, _ => fun _ => 0

/-- `_redundancy`: how much this repeats the most similar thing already
chosen. -/
def redundancy (similarity : V → V → ℚ) (candidate : Candidate V)
    (chosen : List V) : ℚ :=
  match candidate.vector with
  | none => 0
  | some vector => (chosen.map (similarity vector)).max?.getD 0

/-- `best`: a score, a redundancy and whose they are. -/
structure Pick (V : Type) where
  score : ℚ
  redundancy : ℚ
  winner : Candidate V
deriving DecidableEq

/-- The inner loop of `maximal_marginal_relevance`, at one candidate. -/
def weigh (similarity : V → V → ℚ) (lambda : ℚ) (normalise : ℚ → ℚ)
    (vectors : List V) (candidate : Candidate V) : Pick V :=
  let redundancy := redundancy similarity candidate vectors
  ⟨lambda * normalise candidate.relevance - (1 - lambda) * redundancy,
    redundancy, candidate⟩

/-- The inner loop: the first pick of the highest score. -/
def best (weighed : List (Pick V)) : Option (Pick V) :=
  weighed.foldl (fun best p =>
    match best with
    | none => some p
    | some b => if b.score < p.score then some p else some b) none

/-- The outer loop, for so many turns. -/
def picks [DecidableEq V] (similarity : V → V → ℚ) (lambda : ℚ)
    (normalise : ℚ → ℚ) :
    Nat → List V → List (Candidate V) → List (Pick V)
  | 0, _, _ => []
  | n + 1, vectors, remaining =>
    match best (remaining.map
        (weigh similarity lambda normalise vectors)) with
    | none => []
    | some p =>
      p :: picks similarity lambda normalise n
        (vectors ++ p.winner.vector.toList) (remaining.erase p.winner)

/-- `Chosen`, of a pick that is put in this place. -/
def Pick.chosen (p : Pick V) (position : Nat) : Chosen where
  key := p.winner.key
  position := position
  relevance := p.winner.relevance
  redundancy := p.redundancy
  score := p.score
  tokens := p.winner.tokens

/-- `maximal_marginal_relevance`: a `lambda` outside `[0, 1]` raises. -/
def maximalMarginalRelevance [DecidableEq V] (similarity : V → V → ℚ)
    (candidates : List (Candidate V)) (lambda : ℚ) (limit : Option Nat) :
    Except Failure (List Chosen) :=
  if lambda < 0 ∨ 1 < lambda then .error .refused
  else
    let turns := match limit with
      | none => candidates.length
      | some n => min n candidates.length
    .ok ((picks similarity lambda (relevanceNormaliser candidates) turns []
      candidates).mapIdx fun i p => p.chosen (i + 1))

-- ======= selection

/-- `DEFAULT_LAMBDA`. -/
def defaultLambda : ℚ := 1 / 2

/-- `DEFAULT_CATEGORY_SHARE`. -/
def defaultCategoryShare : ℚ := 1 / 2

/-- What a selection is limited by. -/
structure Limits where
  tokenBudget : Int
  maxItems : Int
  categoryShare : ℚ := defaultCategoryShare

/-- `cap`: at least one of any category, however small the request. -/
def Limits.cap (limits : Limits) : Nat :=
  max 1 ((limits.maxItems : ℚ) * limits.categoryShare).floor.toNat

/-- The variables of the loop of `select`. -/
structure Selecting where
  chosen : List Chosen := []
  rejected : List (String × Rejection) := []
  used : Int := 0
  perCategory : ContextCategory → Nat := fun _ => 0

/-- `rejected.append((item.key, reason))`. -/
def Selecting.reject (s : Selecting) (item : Chosen) (reason : Rejection) :
    Selecting :=
  { s with rejected := s.rejected ++ [(item.key, reason)] }

/-- `by_key`: the last candidate of a key. -/
def byKey (candidates : List (Candidate V)) (key : String) :
    Option (Candidate V) :=
  candidates.reverse.find? fun c => decide (c.key = key)

/-- The loop of `select`, at one item. Every key that is ranked is some
candidate's. -/
def selectItem (limits : Limits) (candidates : List (Candidate V))
    (s : Selecting) (item : Chosen) : Selecting :=
  match byKey candidates item.key with
  | none => s
  | some candidate =>
    if item.tokens ≤ 0 then s.reject item .empty
    else if limits.maxItems ≤ s.chosen.length then s.reject item .maxItems
    else if limits.cap ≤ s.perCategory candidate.category then
      s.reject item .categoryFull
    else if limits.tokenBudget < s.used + item.tokens then
      -- dropped whole, and a shorter one further down may still fit
      s.reject item .overBudget
    else
      { s with
        used := s.used + item.tokens
        perCategory := fun c =>
          if c = candidate.category then s.perCategory c + 1
          else s.perCategory c
        -- renumbered against what was actually kept
        chosen := s.chosen ++ [{ item with
          position := s.chosen.length + 1 }] }

/-- `select`: a budget or a number of items that is not positive raises. -/
def select [DecidableEq V] (similarity : V → V → ℚ)
    (candidates : List (Candidate V)) (limits : Limits) (lambda : ℚ) :
    Except Failure Selection :=
  if limits.tokenBudget ≤ 0 then .error .refused
  else if limits.maxItems ≤ 0 then .error .refused
  else
    match maximalMarginalRelevance similarity candidates lambda none with
    | .error e => .error e
    | .ok ordered =>
      let s := ordered.foldl (selectItem limits candidates) {}
      .ok ⟨s.chosen, s.rejected, s.used⟩

-- ====== its caller

/-- `_Rendered`, as far as a candidate is made of it. -/
structure Rendered where
  category : ContextCategory
  text : Text

/-- The loop of `_assemble` that makes the candidates of what was fused. -/
def candidatesForSelection (countTokens : Text → Nat)
    (texts : String → Option Rendered) (vectors : String → Option V)
    (fused : List (String × ℚ)) : List (Candidate V) :=
  fused.filterMap fun f => (texts f.1).map fun rendered =>
    { key := f.1
      category := rendered.category
      tokens := countTokens rendered.text
      relevance := f.2
      vector := vectors f.1 }

end MemoryOS.Context
