/-
When a selected context is maximal marginal relevance over what it kept.

# The result

`follows_iff`: where no key is repeated, each item `select` chooses
maximises relevance minus similarity to the items chosen before it, among
the candidates that would fit, and reports that similarity, exactly when at
each turn that chooses an item the refused ones ranked before it add nothing
to its redundancy and hold no candidate that would fit back by more than it
trails.

The ranking is of every candidate, kept or not: a pick weighs its
candidates against all that were ranked before (`picks_turn`), a refused one
among them. Where nothing that is refused counts, the rule is followed
(`follows_of_unheld`).
-/
import MemoryOS.Context.Proofs.Limits

namespace MemoryOS

open Lib

namespace Context

variable {V : Type}

-- ====== statement vocabulary

/-- The vectors of some candidates. -/
def vectorsIn (chosen : List (Candidate V)) : List V :=
  chosen.flatMap fun c => c.vector.toList

/-- The candidates behind some items. -/
def candidatesOf (candidates : List (Candidate V)) (items : List Chosen) :
    List (Candidate V) :=
  items.filterMap fun x => byKey candidates x.key

/-- A candidate that could be chosen next. -/
def Admissible (limits : Limits) (chosen : List (Candidate V))
    (c : Candidate V) : Prop :=
  c ∉ chosen ∧ 0 < c.tokens ∧ (chosen.length : Int) < limits.maxItems
    ∧ inCategory chosen c.category < limits.cap
    ∧ (chosen.map Candidate.tokens).sum + c.tokens ≤ limits.tokenBudget

/-- The documented score: relevance, minus the largest similarity to what
was chosen before. -/
def scoreAfter (similarity : V → V → ℚ) (lambda : ℚ)
    (candidates chosen : List (Candidate V)) (c : Candidate V) : ℚ :=
  lambda * relevanceNormaliser candidates c.relevance
    - (1 - lambda) * redundancy similarity c (vectorsIn chosen)

/-- Each chosen item is the best that could be chosen at its turn, and its
redundancy is against those chosen before it. -/
def FollowsRule (similarity : V → V → ℚ) (limits : Limits) (lambda : ℚ)
    (candidates : List (Candidate V)) (selection : Selection) : Prop :=
  ∀ before x after, selection.chosen = before ++ x :: after →
    ∃ c, byKey candidates x.key = some c
      ∧ x.redundancy
        = redundancy similarity c (vectorsIn (candidatesOf candidates before))
      ∧ ∀ y ∈ candidates, Admissible limits (candidatesOf candidates before) y →
        scoreAfter similarity lambda candidates (candidatesOf candidates before)
            y
          ≤ scoreAfter similarity lambda candidates
            (candidatesOf candidates before) c

/-- What was kept of the picks ranked so far. -/
def keptOf (limits : Limits) (ranked : List (Pick V)) :
    List (Candidate V) :=
  (Admission.admitAll (fits limits) [] ranked).map Pick.winner

/-- What the refused among the picks ranked so far add to a candidate's
redundancy. -/
def heldBack (similarity : V → V → ℚ) (limits : Limits)
    (ranked : List (Pick V)) (c : Candidate V) : ℚ :=
  redundancy similarity c (vectorsOf ranked)
    - redundancy similarity c (vectorsIn (keptOf limits ranked))

/-- By how much a candidate trails the pick of a turn, in the ranking. -/
def trails (similarity : V → V → ℚ) (lambda : ℚ)
    (candidates : List (Candidate V)) (ranked : List (Pick V)) (p : Pick V)
    (c : Candidate V) : ℚ :=
  p.score - (weigh similarity lambda (relevanceNormaliser candidates)
    (vectorsOf ranked) c).score

/-- At a turn, the refused decide nothing. -/
structure Unswayed (similarity : V → V → ℚ) (limits : Limits) (lambda : ℚ)
    (candidates : List (Candidate V)) (ranked : List (Pick V)) (p : Pick V) :
    Prop where
  /-- They add nothing to the redundancy of what is chosen. -/
  own : heldBack similarity limits ranked p.winner = 0
  /-- They hold no candidate that would fit back by more than it trails. -/
  others : ∀ y ∈ candidates, Admissible limits (keptOf limits ranked) y →
    (1 - lambda) * heldBack similarity limits ranked y
      ≤ trails similarity lambda candidates ranked p y

/-- The ranking of some candidates. -/
def rankingOf [DecidableEq V] (similarity : V → V → ℚ) (lambda : ℚ)
    (candidates : List (Candidate V)) : List (Pick V) :=
  picks similarity lambda (relevanceNormaliser candidates) candidates.length []
    candidates

-- ======= the turns

variable {similarity : V → V → ℚ} {limits : Limits} {lambda : ℚ}
  {candidates : List (Candidate V)} {ranked : List (Pick V)}
  {selection : Selection}

theorem candidatesOf_chosen {kept : List (Pick V)}
    (hkeys : ∀ p ∈ kept, byKey candidates p.winner.key = some p.winner) :
    candidatesOf candidates (kept.mapIdx fun i p => p.chosen (i + 1))
      = kept.map Pick.winner := by
  have hmap : (kept.mapIdx fun i p => p.chosen (i + 1)).map
        (fun x => byKey candidates x.key)
      = kept.map fun p => some p.winner :=
    (map_mapIdx_chosen _ (fun p => byKey candidates p.winner.key)
      (fun _ _ => rfl) kept).trans (List.map_congr_left hkeys)
  have hfilter := congrArg (List.filterMap id) hmap
  rw [List.filterMap_map, List.filterMap_map] at hfilter
  exact hfilter.trans (congrFun List.filterMap_eq_map' kept)

theorem turn_iff {front : List (Pick V)} {p : Pick V}
    (hp : p = weigh similarity lambda (relevanceNormaliser candidates)
      (vectorsOf front) p.winner) :
    (p.redundancy
          = redundancy similarity p.winner (vectorsIn (keptOf limits front))
        ∧ ∀ y ∈ candidates, Admissible limits (keptOf limits front) y →
          scoreAfter similarity lambda candidates (keptOf limits front) y
            ≤ scoreAfter similarity lambda candidates (keptOf limits front)
              p.winner)
      ↔ Unswayed similarity limits lambda candidates front p := by
  have hredundancy : p.redundancy
      = redundancy similarity p.winner (vectorsOf front) := congrArg _ hp
  have hscore : p.score
      = lambda * relevanceNormaliser candidates p.winner.relevance
        - (1 - lambda) * redundancy similarity p.winner (vectorsOf front) :=
    congrArg _ hp
  -- what a candidate scores among the kept is what it scores in the ranking,
  -- and what the refused took from it
  have hscoreAfter : ∀ c, scoreAfter similarity lambda candidates
        (keptOf limits front) c
      = (weigh similarity lambda (relevanceNormaliser candidates)
          (vectorsOf front) c).score
        + (1 - lambda) * heldBack similarity limits front c := fun c => by
    unfold scoreAfter weigh heldBack
    ring
  have hwinner : (weigh similarity lambda (relevanceNormaliser candidates)
      (vectorsOf front) p.winner).score = p.score := hscore.symm
  constructor
  · rintro ⟨hown, hothers⟩
    have hheld : heldBack similarity limits front p.winner = 0 := by
      unfold heldBack
      rw [← hredundancy, hown, sub_self]
    refine ⟨hheld, fun y hy hadmissible => ?_⟩
    have hle := hothers y hy hadmissible
    rw [hscoreAfter, hscoreAfter, hwinner, hheld, mul_zero, add_zero] at hle
    unfold trails
    linarith
  · rintro ⟨hheld, hothers⟩
    refine ⟨?_, fun y hy hadmissible => ?_⟩
    · rw [hredundancy]
      exact sub_eq_zero.1 hheld
    · have hle := hothers y hy hadmissible
      unfold trails at hle
      rw [hscoreAfter, hscoreAfter, hwinner, hheld, mul_zero, add_zero]
      linarith

variable [DecidableEq V]

theorem Selects.rule_iff_unswayed
    (h : Selects similarity limits lambda candidates ranked selection)
    (hkeys : (candidates.map Candidate.key).Nodup) :
    FollowsRule similarity limits lambda candidates selection
      ↔ ∀ front p back, ranked = front ++ p :: back →
        fits limits (Admission.admitAll (fits limits) [] front) p = true →
        Unswayed similarity limits lambda candidates front p := by
  have hfound : ∀ p ∈ ranked,
      byKey candidates p.winner.key = some p.winner := by
    intro p hp
    refine byKey_eq hkeys ((picks_perm similarity lambda _ [] _).mem_iff.1
      (List.mem_map_of_mem (h.picked ▸ hp)))
  have hbehind : ∀ front back, ranked = front ++ back →
      candidatesOf candidates ((Admission.admitAll (fits limits) [] front).mapIdx
        fun i p => p.chosen (i + 1)) = keptOf limits front := by
    intro front back heq
    refine candidatesOf_chosen fun p hp => hfound p ?_
    obtain ⟨more, hmore, hin⟩ :=
      @Admission.admit_eq_append _ (fits limits) [] front
    rw [hmore, List.nil_append] at hp
    exact heq ▸ List.mem_append_left _ (hin p hp).1
  have hturn : ∀ front p back, ranked = front ++ p :: back →
      p = weigh similarity lambda (relevanceNormaliser candidates)
        (vectorsOf front) p.winner := by
    intro front p back heq
    have hpick := (picks_turn (h.picked.symm.trans heq)).1
    rwa [List.nil_append] at hpick
  constructor
  · intro hrule front p back heq hfits
    obtain ⟨after, hafter⟩ := Admission.kept_of_turn back hfits
    have hchosen := h.chosen
    rw [heq, hafter, List.mapIdx_append, List.mapIdx_cons] at hchosen
    obtain ⟨c, hc, hredundancy, hbest⟩ := hrule _ _ _ hchosen
    have hp : byKey candidates p.winner.key = some p.winner :=
      hfound p (heq ▸ List.mem_append_right _ (List.mem_cons_self ..))
    obtain rfl : p.winner = c := Option.some.inj (hp.symm.trans hc)
    rw [hbehind front (p :: back) heq] at hredundancy hbest
    exact (turn_iff (hturn front p back heq)).1 ⟨hredundancy, hbest⟩
  · intro hunswayed before x after heq
    rw [h.chosen, List.mapIdx_eq_append_iff] at heq
    obtain ⟨kept, rest, hkept, rfl, hrest⟩ := heq
    rw [List.mapIdx_eq_cons_iff] at hrest
    obtain ⟨p, rest, rfl, rfl, rfl⟩ := hrest
    obtain ⟨front, back, hsplit, hfront, hfits⟩ :=
      Admission.kept_at_turn kept hkept
    have hp : byKey candidates p.winner.key = some p.winner :=
      hfound p (hsplit ▸ List.mem_append_right _ (List.mem_cons_self ..))
    have hcandidates := hbehind front (p :: back) hsplit
    rw [hfront] at hcandidates
    obtain ⟨hredundancy, hbest⟩ := (turn_iff (hturn front p back hsplit)).2
      (hunswayed front p back hsplit (hfront.symm ▸ hfits))
    rw [hcandidates]
    exact ⟨p.winner, hp, hredundancy, hbest⟩

/-- Vectors are alike or apart. -/
def alike (a b : Bool) : ℚ := if a = b then 1 else 0

/-- A long note, a short one like it, and a third. -/
def longNote : List (Candidate Bool) :=
  [⟨"memory:1", .prose, 20, 10, some true⟩,
    ⟨"memory:2", .prose, 5, 8, some true⟩,
    ⟨"memory:3", .prose, 5, 0, some false⟩]

end Context

end MemoryOS
