/-
How claims are judged (`application/agent/verify.py: _support`).

A claim is judged on its own (`judge`): what a run over all of them makes of it is
what it would be alone (`settled_of_support`). One more hop raises the best score and
adds to the hops that bear on a claim, so it takes no support away
(`supported_concat`).
-/
import Mathlib.Data.List.Perm.Subperm
import MemoryOS.Agent.Verify
import MemoryOS.Lib.Outcome

namespace MemoryOS

open Lib

namespace Agent

variable {sqrt : ℚ → ℚ} {embedder : Embedder} {direct inferred : ℚ}
  {results : List ToolResult} {c d : Claim}

-- ====== one at a time

/-- A claim, judged on its own. -/
def judge (sqrt : ℚ → ℚ) (embedder : Embedder) (results : List ToolResult)
    (direct inferred : ℚ) (claim : Claim) : Except VerifyError Claim :=
  if (passages results).isEmpty then .ok (unsupportedClaim claim)
  else (scores sqrt embedder claim (passages results)).bind
    (judged results direct inferred claim)

/-- What judging keeps of a claim. -/
structure Keeps (c d : Claim) : Prop where
  text : d.text = c.text
  index : d.sentenceIndex = c.sentenceIndex
  cited : d.citedSteps = c.citedSteps
  factual : d.factual = true

variable {scored : List (Passage × ℚ)} {claims checked : List Claim}

theorem keeps_judged
    (h : judged results direct inferred c scored = .ok d) : Keeps c d := by
  cases scored with
  | nil => cases h
  | cons first rest =>
    cases h
    exact ⟨rfl, rfl, rfl, rfl⟩

theorem keeps_judge (h : judge sqrt embedder results direct inferred c = .ok d) :
    Keeps c d := by
  unfold judge at h
  split at h
  case isTrue =>
    cases h
    exact ⟨rfl, rfl, rfl, rfl⟩
  case isFalse =>
    obtain ⟨scored, -, hjudged⟩ := bind_ok.1 h
    exact keeps_judged hjudged

/-- What a run over the claims gives is what each gives on its own. -/
structure Judged (sqrt : ℚ → ℚ) (embedder : Embedder) (results : List ToolResult)
    (direct inferred : ℚ) (claims checked : List Claim) : Prop where
  every : ∀ c ∈ claims, ∃ d ∈ checked,
    judge sqrt embedder results direct inferred c = .ok d
  only : ∀ d ∈ checked, ∃ c ∈ claims,
    judge sqrt embedder results direct inferred c = .ok d

theorem judged_of_judgeAll (hsome : ¬(passages results).isEmpty = true)
    (h : judgeAll sqrt embedder results direct inferred claims = .ok checked) :
    Judged sqrt embedder results direct inferred claims checked := by
  induction claims generalizing checked with
  | nil =>
    cases h
    exact ⟨List.forall_mem_nil _, List.forall_mem_nil _⟩
  | cons c rest ih =>
    unfold judgeAll at h
    obtain ⟨d, hd, h⟩ := bind_ok.1 h
    obtain ⟨others, hothers, rfl⟩ := map_ok h
    have hjudge : judge sqrt embedder results direct inferred c = .ok d := by
      unfold judge
      rwa [if_neg hsome]
    obtain ⟨hevery, honly⟩ := ih hothers
    constructor
    · refine List.forall_mem_cons.2 ⟨⟨d, List.mem_cons_self, hjudge⟩, ?_⟩
      intro x hx
      obtain ⟨y, hy, hxy⟩ := hevery x hx
      exact ⟨y, List.mem_cons_of_mem d hy, hxy⟩
    · refine List.forall_mem_cons.2 ⟨⟨c, List.mem_cons_self, hjudge⟩, ?_⟩
      intro y hy
      obtain ⟨x, hx, hxy⟩ := honly y hy
      exact ⟨x, List.mem_cons_of_mem c hx, hxy⟩

theorem judged_of_support
    (h : support sqrt embedder claims results direct inferred = .ok checked) :
    Judged sqrt embedder results direct inferred claims checked := by
  unfold support at h
  split at h
  case isTrue hnone =>
    have hjudge : ∀ c, judge sqrt embedder results direct inferred c
        = .ok (unsupportedClaim c) := by
      intro c
      unfold judge
      rw [if_pos hnone]
    cases h
    constructor
    · exact fun c hc => ⟨_, List.mem_map_of_mem hc, hjudge c⟩
    · intro d hd
      obtain ⟨c, hc, rfl⟩ := List.mem_map.1 hd
      exact ⟨c, hc, hjudge c⟩
  case isFalse hsome => exact judged_of_judgeAll hsome h

/-- What becomes of a claim: a factual one is judged, and another stays. -/
structure Settled (sqrt : ℚ → ℚ) (embedder : Embedder) (results : List ToolResult)
    (direct inferred : ℚ) (c d : Claim) : Prop where
  factual : c.factual = true → judge sqrt embedder results direct inferred c = .ok d
  other : c.factual = false → d = c

/-- What the merge makes of a claim. -/
def settle (checked : List Claim) (c : Claim) : Claim :=
  (checked.find? fun d => decide (d.sentenceIndex = c.sentenceIndex)).getD c

theorem settled_of_support (hindices : (claims.map (·.sentenceIndex)).Nodup)
    (h : support sqrt embedder (claims.filter (·.factual)) results direct inferred
      = .ok checked) (hc : c ∈ claims) :
    Settled sqrt embedder results direct inferred c (settle checked c) := by
  unfold settle
  obtain ⟨hevery, honly⟩ := judged_of_support h
  have hsame : ∀ d ∈ checked, d.sentenceIndex = c.sentenceIndex →
      c.factual = true ∧ judge sqrt embedder results direct inferred c = .ok d := by
    intro d hd hindex
    obtain ⟨x, hx, hjudge⟩ := honly d hd
    obtain ⟨hx, hfactual⟩ := List.mem_filter.1 hx
    have heq : x = c := List.inj_on_of_nodup_map hindices hx hc
      ((keeps_judge hjudge).index.symm.trans hindex)
    exact ⟨heq ▸ hfactual, heq ▸ hjudge⟩
  constructor
  · intro hfactual
    obtain ⟨d, hd, hjudge⟩ := hevery c (List.mem_filter.2 ⟨hc, hfactual⟩)
    have hfound : (checked.find? fun d =>
        decide (d.sentenceIndex = c.sentenceIndex)).isSome = true :=
      List.find?_isSome.2 ⟨d, hd, decide_eq_true (keeps_judge hjudge).index⟩
    obtain ⟨e, he⟩ := Option.isSome_iff_exists.1 hfound
    rw [he]
    exact (hsame e (List.mem_of_find?_eq_some he)
      (of_decide_eq_true (List.find?_some he :))).2
  · intro hother
    have hnone : (checked.find? fun d =>
        decide (d.sentenceIndex = c.sentenceIndex)) = none := by
      rw [List.find?_eq_none]
      intro d hd hindex
      have hfactual := (hsame d hd (of_decide_eq_true hindex)).1
      rw [hother] at hfactual
      cases hfactual
    rw [hnone]
    rfl

-- ====== one more hop

theorem le_bestOf (best : Passage × ℚ) (scored : List (Passage × ℚ)) :
    best.2 ≤ (bestOf best scored).2 := by
  induction scored generalizing best with
  | nil => exact le_refl _
  | cons s rest ih =>
    unfold bestOf
    refine le_trans ?_ (ih _)
    split
    case isTrue hlt => exact le_of_lt hlt
    case isFalse => exact le_refl _

theorem bestOf_append (best : Passage × ℚ) (a b : List (Passage × ℚ)) :
    bestOf best (a ++ b) = bestOf (bestOf best a) b := by
  induction a generalizing best with
  | nil => rfl
  | cons s rest ih => exact ih _

theorem mem_bearing {owner : Nat} :
    owner ∈ bearing inferred scored
      ↔ ∃ s ∈ scored, inferred ≤ s.2 ∧ s.1.owner = owner := by
  unfold bearing
  rw [List.mem_insertionSort, List.mem_dedup, List.mem_map]
  refine exists_congr fun s => ?_
  rw [List.mem_filter, decide_eq_true_eq, and_assoc]

theorem length_bearing_append (a b : List (Passage × ℚ)) :
    (bearing inferred a).length ≤ (bearing inferred (a ++ b)).length := by
  have hnodup : (bearing inferred a).Nodup :=
    (List.perm_insertionSort _ _).nodup_iff.2 (List.nodup_dedup _)
  refine (hnodup.subperm fun owner howner => ?_).length_le
  obtain ⟨s, hs, hle, howner⟩ := mem_bearing.1 howner
  exact mem_bearing.2 ⟨s, List.mem_append_left b hs, hle, howner⟩

theorem level_ne_iff {best : ℚ} :
    level direct inferred best scored ≠ .unsupported
      ↔ direct ≤ best ∨ 2 ≤ (bearing inferred scored).length := by
  unfold level
  split
  case isTrue h => exact iff_of_true (by decide) (.inl h)
  case isFalse h =>
    split
    case isTrue h' => exact iff_of_true (by decide) (.inr h')
    case isFalse h' => exact iff_of_false (fun hne => hne rfl) (not_or.2 ⟨h, h'⟩)

theorem scores_append {a b : List Passage}
    (h : scores sqrt embedder c (a ++ b) = .ok scored) :
    ∃ x y, scores sqrt embedder c a = .ok x ∧ scored = x ++ y := by
  induction a generalizing scored with
  | nil => exact ⟨[], scored, rfl, rfl⟩
  | cons p rest ih =>
    rw [List.cons_append, scores] at h
    obtain ⟨score, hscore, h⟩ := bind_ok.1 h
    obtain ⟨others, hothers, rfl⟩ := map_ok h
    obtain ⟨x, y, hx, rfl⟩ := ih hothers
    refine ⟨(p, score) :: x, y, ?_, rfl⟩
    rw [scores, hscore, hx]
    rfl

theorem passages_concat (results : List ToolResult) (r : ToolResult) :
    ∃ more, passages (results ++ [r]) = passages results ++ more := by
  refine ⟨(units r).map fun text => ⟨text, 1 + results.length⟩, ?_⟩
  unfold passages
  rw [List.zipIdx_append, List.flatMap_append]
  simp

theorem supported_judged {first : Passage × ℚ} {rest : List (Passage × ℚ)}
    (h : judged results direct inferred c (first :: rest) = .ok d) :
    d.supported = true ↔ direct ≤ (bestOf first rest).2
      ∨ 2 ≤ (bearing inferred (first :: rest)).length := by
  cases h
  exact decide_eq_true_iff.trans level_ne_iff

theorem supported_concat {r : ToolResult} {e : Claim}
    (h : judge sqrt embedder results direct inferred c = .ok d)
    (hmore : judge sqrt embedder (results ++ [r]) direct inferred c = .ok e)
    (hsupported : d.supported = true) : e.supported = true := by
  obtain ⟨more, hpassages⟩ := passages_concat results r
  unfold judge at h hmore
  split at h
  case isTrue =>
    cases h
    cases hsupported
  case isFalse hsome =>
    have hsome' : ¬(passages (results ++ [r])).isEmpty = true := by
      intro hempty
      rw [hpassages, List.isEmpty_iff, List.append_eq_nil_iff] at hempty
      exact hsome (List.isEmpty_iff.2 hempty.1)
    rw [if_neg hsome', hpassages] at hmore
    obtain ⟨scored, hscores, hjudged⟩ := bind_ok.1 h
    obtain ⟨all, hall, hjudged'⟩ := bind_ok.1 hmore
    obtain ⟨before, added, hbefore, rfl⟩ := scores_append hall
    obtain rfl := Except.ok.inj (hscores.symm.trans hbefore)
    cases scored with
    | nil => cases hjudged
    | cons first rest =>
      refine (supported_judged hjudged').2 ?_
      rcases (supported_judged hjudged).1 hsupported with hbest | hbearing
      · left
        have happend := bestOf_append first rest added
        exact le_trans hbest (happend ▸ le_bestOf _ _)
      · right
        exact le_trans hbearing (length_bearing_append (first :: rest) added)

-- ====== a run of claims

theorem Settled.same (h : Settled sqrt embedder results direct inferred c d) :
    d.text = c.text ∧ d.sentenceIndex = c.sentenceIndex
      ∧ d.citedSteps = c.citedSteps ∧ d.factual = c.factual := by
  cases hfactual : c.factual with
  | true =>
    obtain ⟨htext, hindex, hcited, hkept⟩ := keeps_judge (h.factual hfactual)
    exact ⟨htext, hindex, hcited, hkept⟩
  | false =>
    rw [h.other hfactual]
    exact ⟨rfl, rfl, rfl, hfactual⟩

theorem Settled.supported_concat {r : ToolResult} {e : Claim}
    (h : Settled sqrt embedder results direct inferred c d)
    (hmore : Settled sqrt embedder (results ++ [r]) direct inferred c e)
    (hsupported : d.supported = true) : e.supported = true := by
  cases hfactual : c.factual with
  | true =>
    exact Agent.supported_concat (h.factual hfactual) (hmore.factual hfactual)
      hsupported
  | false =>
    rw [h.other hfactual] at hsupported
    rw [hmore.other hfactual, hsupported]

-- ======== totality

theorem scores_total (hlength : ∀ a b, (embedder.embedQuery a).length
    = (embedder.embedPassage b).length) (c : Claim) (ps : List Passage) :
    ∃ scored, scores sqrt embedder c ps = .ok scored
      ∧ scored.length = ps.length := by
  induction ps with
  | nil => exact ⟨[], rfl, rfl⟩
  | cons p rest ih =>
    obtain ⟨scored, hscored, hlen⟩ := ih
    have hcosine : ∃ score, cosine sqrt (embedder.embedQuery c.text)
        (embedder.embedPassage p.text) = .ok score := by
      unfold cosine
      rw [if_neg (not_not.2 (hlength c.text p.text))]
      simp only
      split
      case isTrue => exact ⟨_, rfl⟩
      case isFalse => exact ⟨_, rfl⟩
    obtain ⟨score, hscore⟩ := hcosine
    refine ⟨(p, score) :: scored, ?_, congrArg (· + 1) hlen⟩
    rw [scores, hscore, hscored]
    rfl

theorem judgeAll_total (hlength : ∀ a b, (embedder.embedQuery a).length
    = (embedder.embedPassage b).length) (hsome : ¬(passages results).isEmpty = true)
    (claims : List Claim) :
    ∃ checked, judgeAll sqrt embedder results direct inferred claims = .ok checked := by
  induction claims with
  | nil => exact ⟨[], rfl⟩
  | cons c rest ih =>
    obtain ⟨others, hothers⟩ := ih
    obtain ⟨scored, hscored, hlen⟩ :=
      @scores_total sqrt embedder hlength c (passages results)
    cases scored with
    | nil => exact absurd (List.isEmpty_iff_length_eq_zero.2 hlen.symm) hsome
    | cons first more =>
      unfold judgeAll
      rw [hscored, hothers]
      exact ⟨_, rfl⟩

theorem verify_total (hlength : ∀ a b, (embedder.embedQuery a).length
    = (embedder.embedPassage b).length) (script : Script) (sqrt : ℚ → ℚ)
    (trajectory : Trajectory) (direct inferred minSupport : ℚ)
    (unresolved : List Text) :
    ∃ result, verify script sqrt trajectory embedder direct inferred minSupport
      unresolved = .ok result := by
  unfold verify
  simp only
  split
  case isTrue => exact ⟨_, rfl⟩
  case isFalse =>
    unfold support
    split
    case isTrue => exact ⟨_, rfl⟩
    case isFalse hsome =>
      obtain ⟨checked, hchecked⟩ := judgeAll_total hlength hsome
        ((classify script (strip trajectory.text)).filter (·.factual))
      rw [hchecked]
      exact ⟨_, rfl⟩

end Agent

end MemoryOS
