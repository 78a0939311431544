/-
A selected context keeps every limit, and nothing more would fit.

# The result

`within_limits`: where no key is repeated, what `select` returns has each
key once, is with the rejected the candidates, keeps the budget, the number
of items and the cap of each category, and leaves out no candidate that has
text and would fit. The loop of `select` is an admission of the ranked
candidates (`loop_shows`); a limit only tightens (`fits_hereditary`), so one
pass is enough.

A repeated key is chosen twice (`not_within_limits`). The one caller takes
its candidates' keys from a dictionary (`candidatesForSelection_nodup`).
-/
import Mathlib.Algebra.Order.BigOperators.Group.List
import Mathlib.Data.List.Nodup
import MemoryOS.Context.Selection
import MemoryOS.Lib.Admission

namespace MemoryOS

open Lib

namespace Context

variable {V : Type}

-- ====== statement vocabulary

/-- The candidates a selection chose. -/
def chosenOf (candidates : List (Candidate V)) (selection : Selection) :
    List (Candidate V) :=
  candidates.filter fun c => decide (c.key ∈ selection.keys)

/-- How many of them are of a category. -/
def inCategory (candidates : List (Candidate V)) (category : ContextCategory) :
    Nat :=
  (candidates.filter fun c => decide (c.category = category)).length

/-- One more candidate breaks no limit. -/
def RoomFor (limits : Limits) (candidates : List (Candidate V))
    (selection : Selection) (c : Candidate V) : Prop :=
  (selection.chosen.length : Int) + 1 ≤ limits.maxItems
    ∧ inCategory (chosenOf candidates selection) c.category + 1 ≤ limits.cap
    ∧ selection.tokensUsed + c.tokens ≤ limits.tokenBudget

/-- A selection keeps every limit and is maximal. -/
structure WithinLimits (limits : Limits) (candidates : List (Candidate V))
    (selection : Selection) : Prop where
  unique : selection.keys.Nodup
  /-- The chosen and the rejected are the candidates. -/
  partition : (selection.keys ++ selection.rejected.map Prod.fst).Perm
    (candidates.map Candidate.key)
  /-- A chosen item is its candidate's. -/
  own : ∀ x ∈ selection.chosen, ∃ c ∈ candidates, c.key = x.key
    ∧ c.tokens = x.tokens ∧ c.relevance = x.relevance
  used : selection.tokensUsed = (selection.chosen.map Chosen.tokens).sum
  budget : selection.tokensUsed ≤ limits.tokenBudget
  count : (selection.chosen.length : Int) ≤ limits.maxItems
  category : ∀ category,
    inCategory (chosenOf candidates selection) category ≤ limits.cap
  positions : selection.chosen.map Chosen.position
    = List.range' 1 selection.chosen.length
  maximal : ∀ c ∈ candidates, c.key ∈ selection.rejected.map Prod.fst →
    0 < c.tokens → ¬ RoomFor limits candidates selection c

-- ============ best

variable {kept refused : List (Pick V)} {p : Pick V} {s : Selecting}
  {limits : Limits}

theorem best_eq_foldl : ∃ step : Option (Pick V) → Pick V → Option (Pick V),
    (∀ weighed : List (Pick V), best weighed = weighed.foldl step none)
      ∧ (∀ p, step none p = some p)
      ∧ ∀ b p, step (some b) p = if b.score < p.score then some p else some b :=
  ⟨_, fun _ => rfl, fun _ => rfl, fun _ _ => rfl⟩

theorem best_spec {weighed : List (Pick V)}
    (h : best weighed = some p) :
    p ∈ weighed ∧ ∀ q ∈ weighed, q.score ≤ p.score := by
  obtain ⟨step, hstep, hnone, hsome⟩ := best_eq_foldl (V := V)
  rw [hstep] at h
  suffices hfold : ∀ (start : Option (Pick V)),
      weighed.foldl step start = some p →
      (p ∈ weighed ∨ start = some p) ∧ (∀ q ∈ weighed, q.score ≤ p.score)
        ∧ ∀ b, start = some b → b.score ≤ p.score by
    obtain ⟨hmem, hmax, -⟩ := hfold none h
    exact ⟨hmem.resolve_right nofun, hmax⟩
  clear h
  induction weighed with
  | nil =>
    rintro start rfl
    refine ⟨.inr rfl, fun _ hq => absurd hq List.not_mem_nil, ?_⟩
    rintro b ⟨⟩
    exact le_refl _
  | cons w rest ih =>
    intro start h
    rw [List.foldl_cons] at h
    obtain ⟨hmem, hmax, hstart⟩ := ih _ h
    cases start with
    | none =>
      rw [hnone] at hmem hstart
      refine ⟨.inl ?_, List.forall_mem_cons.2 ⟨hstart w rfl, hmax⟩, nofun⟩
      rcases hmem with hmem | hmem
      · exact List.mem_cons_of_mem w hmem
      · exact Option.some.inj hmem ▸ List.mem_cons_self ..
    | some b =>
      rw [hsome] at hmem hstart
      split at hmem
      case isTrue hlt =>
        rw [if_pos hlt] at hstart
        have hw := hstart w rfl
        refine ⟨.inl ?_, List.forall_mem_cons.2 ⟨hw, hmax⟩, ?_⟩
        · rcases hmem with hmem | hmem
          · exact List.mem_cons_of_mem w hmem
          · exact Option.some.inj hmem ▸ List.mem_cons_self ..
        · rintro b' ⟨⟩
          exact (le_of_lt hlt).trans hw
      case isFalse hlt =>
        rw [if_neg hlt] at hstart
        have hb := hstart b rfl
        refine ⟨hmem.imp (List.mem_cons_of_mem w) id,
          List.forall_mem_cons.2 ⟨(not_lt.1 hlt).trans hb, hmax⟩, ?_⟩
        rintro b' ⟨⟩
        exact hb

theorem best_eq_none {weighed : List (Pick V)} (h : best weighed = none) :
    weighed = [] := by
  obtain ⟨step, hstep, hnone, hsome⟩ := best_eq_foldl (V := V)
  suffices hfold : ∀ (rest : List (Pick V)) (b : Pick V),
      rest.foldl step (some b) ≠ none by
    cases weighed with
    | nil => rfl
    | cons w rest =>
      rw [hstep, List.foldl_cons, hnone] at h
      exact absurd h (hfold rest w)
  intro rest
  induction rest with
  | nil => exact fun _ => nofun
  | cons w rest ih =>
    intro b
    rw [List.foldl_cons, hsome]
    split
    case isTrue => exact ih w
    case isFalse => exact ih b

-- ========= ranking

section Ranking

variable {similarity : V → V → ℚ} {lambda : ℚ} {normalise : ℚ → ℚ}

/-- The vectors some picks have put on the list. -/
def vectorsOf (ranked : List (Pick V)) : List V :=
  ranked.flatMap fun p => p.winner.vector.toList

theorem pick_spec {vectors : List V} {remaining : List (Candidate V)} (h : best (remaining.map
      (weigh similarity lambda normalise vectors)) = some p) :
    p.winner ∈ remaining
      ∧ p = weigh similarity lambda normalise vectors p.winner
      ∧ ∀ c ∈ remaining,
        (weigh similarity lambda normalise vectors c).score ≤ p.score := by
  obtain ⟨hmem, hmax⟩ := best_spec h
  obtain ⟨c, hc, rfl⟩ := List.mem_map.1 hmem
  exact ⟨hc, rfl, fun d hd => hmax _ (List.mem_map_of_mem hd)⟩

variable [DecidableEq V]

theorem picks_perm (similarity : V → V → ℚ) (lambda : ℚ) (normalise : ℚ → ℚ)
    (vectors : List V) (remaining : List (Candidate V)) :
    ((picks similarity lambda normalise remaining.length vectors remaining).map
      Pick.winner).Perm remaining := by
  generalize hn : remaining.length = n
  induction n generalizing vectors remaining with
  | zero =>
    rw [List.length_eq_zero_iff.1 hn]
    exact List.Perm.refl _
  | succ n ih =>
    unfold picks
    split
    case h_1 hnone =>
      rw [List.map_eq_nil_iff.1 (best_eq_none hnone)] at hn
      cases hn
    case h_2 p hsome =>
      obtain ⟨hmem, -, -⟩ := pick_spec hsome
      refine List.Perm.trans (.cons _ (ih _ _ ?_))
        (List.perm_cons_erase hmem).symm
      rw [List.length_erase_of_mem hmem, hn]
      rfl

theorem picks_turn {vectors : List V} {remaining : List (Candidate V)}
    {before after : List (Pick V)}
    (h : picks similarity lambda normalise remaining.length vectors remaining
      = before ++ p :: after) :
    p = weigh similarity lambda normalise (vectors ++ vectorsOf before) p.winner
      ∧ ∀ q ∈ p :: after, (weigh similarity lambda normalise
        (vectors ++ vectorsOf before) q.winner).score ≤ p.score := by
  induction before generalizing vectors remaining with
  | nil =>
    have hall := picks_perm similarity lambda normalise vectors remaining
    rw [h] at hall
    generalize remaining.length = n at h
    cases n with
    | zero => cases h
    | succ n =>
      unfold picks at h
      split at h
      case h_1 => cases h
      case h_2 q hsome =>
        obtain ⟨-, hself, hmax⟩ := pick_spec hsome
        obtain ⟨rfl, -⟩ := List.cons.inj h
        rw [vectorsOf, List.flatMap_nil, List.append_nil]
        refine ⟨hself, fun q hq => hmax _ ?_⟩
        exact hall.mem_iff.1 (List.mem_map_of_mem hq)
  | cons b before ih =>
    generalize hn : remaining.length = n at h
    cases n with
    | zero => cases h
    | succ n =>
      unfold picks at h
      split at h
      case h_1 => cases h
      case h_2 q hsome =>
        obtain ⟨hmem, -, -⟩ := pick_spec hsome
        obtain ⟨rfl, hrest⟩ := List.cons.inj h
        have hlen : n = (remaining.erase q.winner).length := by
          rw [List.length_erase_of_mem hmem, hn]
          rfl
        rw [hlen] at hrest
        have := ih hrest
        rw [List.append_assoc] at this
        exact this

end Ranking

-- ======== the loop

/-- A pick is let in after some that were kept. -/
def fits (limits : Limits) (kept : List (Pick V)) (p : Pick V) : Bool :=
  decide (0 < p.winner.tokens)
    && decide ((kept.length : Int) < limits.maxItems)
    && decide (inCategory (kept.map Pick.winner) p.winner.category < limits.cap)
    && decide ((kept.map fun q => q.winner.tokens).sum + p.winner.tokens
      ≤ limits.tokenBudget)

theorem fits_iff :
    fits limits kept p = true ↔ 0 < p.winner.tokens
      ∧ (kept.length : Int) < limits.maxItems
      ∧ inCategory (kept.map Pick.winner) p.winner.category < limits.cap
      ∧ (kept.map fun q => q.winner.tokens).sum + p.winner.tokens
        ≤ limits.tokenBudget := by
  unfold fits
  simp only [Bool.and_eq_true, decide_eq_true_eq, and_assoc]

theorem inCategory_append (xs ys : List (Candidate V))
    (category : ContextCategory) : inCategory (xs ++ ys) category
      = inCategory xs category + inCategory ys category := by
  unfold inCategory
  rw [List.filter_append, List.length_append]

theorem inCategory_perm {xs ys : List (Candidate V)} (h : xs.Perm ys)
    (category : ContextCategory) :
    inCategory xs category = inCategory ys category :=
  (h.filter _).length_eq

/-- The variables of the loop, after some were kept and some refused. -/
structure Shows (s : Selecting) (kept refused : List (Pick V)) : Prop where
  chosen : s.chosen = kept.mapIdx fun i p => p.chosen (i + 1)
  rejected : s.rejected.map Prod.fst = refused.map fun p => p.winner.key
  used : s.used = (kept.map fun p => p.winner.tokens).sum
  perCategory : ∀ c, s.perCategory c = inCategory (kept.map Pick.winner) c

theorem Shows.length (h : Shows s kept refused) : s.chosen.length = kept.length:= by
  rw [h.chosen, List.length_mapIdx]

theorem Shows.reject {position : Nat} (h : Shows s kept refused)
    (reason : Rejection) :
    Shows (s.reject (p.chosen position) reason) kept (refused ++ [p]) where
  chosen := h.chosen
  rejected := by
    unfold Selecting.reject
    rw [List.map_append, h.rejected, List.map_append]
    rfl
  used := h.used
  perCategory := h.perCategory

theorem selectItem_shows (limits : Limits) {candidates : List (Candidate V)}
    (position : Nat) (hkey : byKey candidates p.winner.key = some p.winner)
    (h : Shows s kept refused) :
    if fits limits kept p then
      Shows (selectItem limits candidates s (p.chosen position)) (kept ++ [p])
        refused
    else
      Shows (selectItem limits candidates s (p.chosen position)) kept
        (refused ++ [p]) := by
  have hitem : (p.chosen position).key = p.winner.key := rfl
  have htokens : (p.chosen position).tokens = p.winner.tokens := rfl
  unfold selectItem
  rw [hitem, hkey, htokens, h.length, h.used]
  dsimp only
  rw [h.perCategory p.winner.category]
  split
  case isTrue hfits =>
    obtain ⟨htext, hcount, hcap, hbudget⟩ := fits_iff.1 hfits
    rw [if_neg (not_le.2 htext), if_neg (not_le.2 hcount),
      if_neg (not_le.2 hcap), if_neg (not_lt.2 hbudget)]
    constructor
    case chosen =>
      dsimp only
      rw [h.chosen, List.mapIdx_append, List.mapIdx_singleton, Nat.zero_add]
      rfl
    case rejected => exact h.rejected
    case used =>
      rw [List.map_append, List.sum_append, List.map_singleton,
        List.sum_singleton]
    case perCategory =>
      intro c
      dsimp only
      rw [List.map_append, inCategory_append, h.perCategory]
      unfold inCategory
      by_cases hc : p.winner.category = c
      · rw [if_pos hc.symm]
        simp [hc]
      · rw [if_neg (Ne.symm hc)]
        simp [hc]
  case isFalse hfits =>
    rw [fits_iff] at hfits
    split
    case isTrue => exact h.reject .empty
    case isFalse htext =>
      split
      case isTrue => exact h.reject .maxItems
      case isFalse hcount =>
        split
        case isTrue => exact h.reject .categoryFull
        case isFalse hcap =>
          split
          case isTrue => exact h.reject .overBudget
          case isFalse hbudget =>
            exact absurd ⟨not_le.1 htext, not_le.1 hcount, not_le.1 hcap,
              not_lt.1 hbudget⟩ hfits

theorem loop_shows (limits : Limits) {candidates : List (Candidate V)}
    {ranked : List (Pick V)}
    (hkeys : ∀ p ∈ ranked, byKey candidates p.winner.key = some p.winner) (h : Shows s kept refused)
    (start : Nat) :
    Shows ((ranked.mapIdx fun i p => p.chosen (i + start)).foldl
        (selectItem limits candidates) s)
      (Admission.admitAll (fits limits) kept ranked)
      (refused ++ Admission.refuse (fits limits) kept ranked) := by
  induction ranked generalizing s kept refused start with
  | nil =>
    rw [Admission.admitAll, Admission.refuse, List.append_nil]
    exact h
  | cons p rest ih =>
    obtain ⟨hp, hrest⟩ := List.forall_mem_cons.1 hkeys
    have hturn := selectItem_shows limits (0 + start) hp h
    have hidx : (fun (i : Nat) (p : Pick V) => p.chosen (i + 1 + start))
        = fun i p => p.chosen (i + (start + 1)) := by
      funext i p
      rw [Nat.add_assoc, Nat.add_comm 1 start]
    rw [List.mapIdx_cons, List.foldl_cons, hidx, Admission.admitAll,
      Admission.refuse]
    split
    case isTrue hfits =>
      rw [if_pos hfits] at hturn
      exact ih hrest hturn _
    case isFalse hfits =>
      rw [if_neg hfits] at hturn
      rw [List.append_cons]
      exact ih hrest hturn _

theorem fits_hereditary (limits : Limits) :
    Admission.Hereditary (fits (V := V) limits) := by
  intro kept more p hmore hfits
  obtain ⟨htext, hcount, hcap, hbudget⟩ := fits_iff.1 hfits
  have htexts : 0 ≤ (more.map fun q => q.winner.tokens).sum :=
    List.sum_nonneg fun t ht => by
      obtain ⟨q, hq, rfl⟩ := List.mem_map.1 ht
      obtain ⟨before, hlet⟩ := hmore q hq
      exact le_of_lt (fits_iff.1 hlet).1
  rw [List.map_append, inCategory_append] at hcap
  rw [List.map_append, List.sum_append] at hbudget
  rw [List.length_append, Nat.cast_add] at hcount
  exact fits_iff.2 ⟨htext, by omega, by omega, by omega⟩

theorem map_mapIdx_chosen {α : Type} (f : Chosen → α) (g : Pick V → α)
    (hfg : ∀ p position, f (p.chosen position) = g p) (kept : List (Pick V)) :
    (kept.mapIdx fun i p => p.chosen (i + 1)).map f = kept.map g := by
  refine List.ext_getElem (by simp) fun i h₁ h₂ => ?_
  rw [List.getElem_map, List.getElem_mapIdx, List.getElem_map, hfg]

theorem admit_limits (hbudget : 0 < limits.tokenBudget)
    (hitems : 0 < limits.maxItems) (ranked : List (Pick V)) :
    let kept := Admission.admitAll (fits limits) [] ranked
    (kept.map fun p => p.winner.tokens).sum ≤ limits.tokenBudget
      ∧ (kept.length : Int) ≤ limits.maxItems
      ∧ ∀ category, inCategory (kept.map Pick.winner) category
        ≤ limits.cap := by
  refine Admission.admit_invariant (P := fun kept =>
    (kept.map fun p => p.winner.tokens).sum ≤ limits.tokenBudget
      ∧ (kept.length : Int) ≤ limits.maxItems
      ∧ ∀ category, inCategory (kept.map Pick.winner) category
        ≤ limits.cap) ?_ ?_
  · rintro kept p hfits ⟨-, -, hcaps⟩
    obtain ⟨-, hcount, hcap, hsum⟩ := fits_iff.1 hfits
    refine ⟨?_, ?_, fun category => ?_⟩
    · rw [List.map_append, List.sum_append, List.map_singleton,
        List.sum_singleton]
      exact hsum
    · rw [List.length_append, List.length_singleton]
      omega
    · rw [List.map_append, inCategory_append]
      by_cases hc : p.winner.category = category
      · subst hc
        have hone : inCategory ([p].map Pick.winner) p.winner.category = 1 := by
          simp [inCategory]
        omega
      · have hnone : inCategory ([p].map Pick.winner) category = 0 := by
          simp [inCategory, hc]
        have := hcaps category
        omega
  · exact ⟨le_of_lt hbudget, le_of_lt hitems, fun _ => Nat.zero_le _⟩

-- ====== distinct keys

section Distinct

variable {candidates : List (Candidate V)}

theorem byKey_eq (hkeys : (candidates.map Candidate.key).Nodup)
    {c : Candidate V} (hc : c ∈ candidates) :
    byKey candidates c.key = some c := by
  unfold byKey
  obtain ⟨d, hd⟩ : ∃ d, candidates.reverse.find?
      (fun d => decide (d.key = c.key)) = some d :=
    Option.isSome_iff_exists.1 (List.find?_isSome.2
      ⟨c, List.mem_reverse.2 hc, decide_eq_true rfl⟩)
  have hmem := List.mem_reverse.1 (List.mem_of_find?_eq_some hd)
  have hfound := List.find?_some hd
  have hsame : d.key = c.key := of_decide_eq_true hfound
  rw [hd, List.inj_on_of_nodup_map hkeys hmem hc hsame]

variable [DecidableEq V]

/-- What a selection is, for some ranked picks. -/
structure Selects (similarity : V → V → ℚ) (limits : Limits) (lambda : ℚ)
    (candidates : List (Candidate V)) (ranked : List (Pick V))
    (selection : Selection) : Prop where
  picked : ranked = picks similarity lambda (relevanceNormaliser candidates)
    candidates.length [] candidates
  chosen : selection.chosen = (Admission.admitAll (fits limits) [] ranked).mapIdx
    fun i p => p.chosen (i + 1)
  rejected : selection.rejected.map Prod.fst
    = (Admission.refuse (fits limits) [] ranked).map fun p => p.winner.key
  used : selection.tokensUsed = ((Admission.admitAll (fits limits) []
    ranked).map fun p => p.winner.tokens).sum

theorem select_selects (similarity : V → V → ℚ) {lambda : ℚ}
    (hkeys : (candidates.map Candidate.key).Nodup)
    (hlambda : 0 ≤ lambda ∧ lambda ≤ 1) (hbudget : 0 < limits.tokenBudget)
    (hitems : 0 < limits.maxItems) :
    ∃ ranked selection,
      select similarity candidates limits lambda = .ok selection
        ∧ Selects similarity limits lambda candidates ranked selection := by
  have hperm := picks_perm similarity lambda
    (relevanceNormaliser candidates) [] candidates
  have hfound : ∀ p ∈ picks similarity lambda (relevanceNormaliser candidates)
      candidates.length [] candidates,
      byKey candidates p.winner.key = some p.winner := fun p hp =>
    byKey_eq hkeys (hperm.mem_iff.1 (List.mem_map_of_mem hp))
  have hstart : Shows (V := V) {} [] [] := ⟨rfl, rfl, rfl, fun _ => rfl⟩
  have hloop := loop_shows limits hfound hstart 1
  unfold select maximalMarginalRelevance
  rw [if_neg (not_le.2 hbudget), if_neg (not_le.2 hitems),
    if_neg (not_or.2 ⟨not_lt.2 hlambda.1, not_lt.2 hlambda.2⟩)]
  exact ⟨_, _, rfl, rfl, hloop.chosen, hloop.rejected, hloop.used⟩

variable {similarity : V → V → ℚ} {limits : Limits} {lambda : ℚ}
  {ranked : List (Pick V)} {selection : Selection}

theorem Selects.keys
    (h : Selects similarity limits lambda candidates ranked selection) :
    selection.keys = (Admission.admitAll (fits limits) [] ranked).map
      fun p => p.winner.key := by
  unfold Selection.keys
  rw [h.chosen]
  exact map_mapIdx_chosen _ _ (fun _ _ => rfl) _

theorem Selects.perm
    (h : Selects similarity limits lambda candidates ranked selection) :
    ((Admission.admitAll (fits limits) [] ranked
      ++ Admission.refuse (fits limits) [] ranked).map Pick.winner).Perm
      candidates := by
  refine ((Admission.admit_refuse_perm _ [] ranked).map _).trans ?_
  rw [h.picked]
  exact picks_perm similarity lambda _ [] candidates

theorem Selects.chosenOf
    (h : Selects similarity limits lambda candidates ranked selection)
    (hkeys : (candidates.map Candidate.key).Nodup) :
    (chosenOf candidates selection).Perm
      ((Admission.admitAll (fits limits) [] ranked).map Pick.winner) := by
  have hperm := h.perm
  have hnodup := (hperm.map Candidate.key).nodup_iff.2 hkeys
  unfold Context.chosenOf
  rw [h.keys]
  refine (hperm.symm.filter _).trans ?_
  generalize Admission.admitAll (fits limits) [] ranked = kept at hnodup ⊢
  rw [List.map_append, List.map_append, List.nodup_append] at hnodup
  rw [List.map_append, List.filter_append]
  obtain ⟨-, -, hapart⟩ := hnodup
  rw [List.filter_eq_self.2, List.filter_eq_nil_iff.2, List.append_nil]
  · intro c hc hin
    obtain ⟨p, hp, hkey⟩ := List.mem_map.1 (of_decide_eq_true hin)
    exact hapart _ (List.mem_map_of_mem (List.mem_map_of_mem hp)) _
      (List.mem_map_of_mem hc) hkey
  · intro c hc
    obtain ⟨p, hp, rfl⟩ := List.mem_map.1 hc
    exact decide_eq_true (List.mem_map.2 ⟨p, hp, rfl⟩)

/-- A selection of candidates with distinct keys keeps every limit, and
leaves nothing out that would fit. -/
theorem within_limits (similarity : V → V → ℚ)
    (candidates : List (Candidate V)) (limits : Limits) (lambda : ℚ)
    (hkeys : (candidates.map Candidate.key).Nodup)
    (hlambda : 0 ≤ lambda ∧ lambda ≤ 1) (hbudget : 0 < limits.tokenBudget)
    (hitems : 0 < limits.maxItems) :
    ∃ selection, select similarity candidates limits lambda = .ok selection
      ∧ WithinLimits limits candidates selection := by
  obtain ⟨ranked, selection, hselect, h⟩ :=
    select_selects similarity hkeys hlambda hbudget hitems
  refine ⟨selection, hselect, ?_⟩
  have hperm := h.perm
  have hchosen := h.chosenOf hkeys
  have hlength : selection.chosen.length
      = (Admission.admitAll (fits limits) [] ranked).length := by
    rw [h.chosen, List.length_mapIdx]
  obtain ⟨hsum, hcount, hcaps⟩ := admit_limits hbudget hitems ranked
  constructor
  case unique =>
    rw [h.keys]
    have hnodup := (hperm.map Candidate.key).nodup_iff.2 hkeys
    rw [List.map_append, List.map_append, List.map_map] at hnodup
    exact (List.nodup_append.1 hnodup).1
  case partition =>
    rw [h.keys, h.rejected, ← List.map_append]
    have := hperm.map Candidate.key
    rw [List.map_map] at this
    exact this
  case own =>
    intro x hx
    rw [h.chosen] at hx
    obtain ⟨i, hi, rfl⟩ := List.mem_mapIdx.1 hx
    refine ⟨_, hperm.mem_iff.1 (List.mem_map_of_mem
      (List.mem_append_left _ (List.getElem_mem hi))), rfl, rfl, rfl⟩
  case used =>
    rw [h.used, h.chosen]
    exact congrArg List.sum (map_mapIdx_chosen _ _ (fun _ _ => rfl) _).symm
  case budget => exact h.used ▸ hsum
  case count => exact hlength ▸ hcount
  case category =>
    exact fun category => inCategory_perm hchosen category ▸ hcaps category
  case positions =>
    rw [hlength, h.chosen]
    generalize Admission.admitAll (fits limits) [] ranked = kept
    refine List.ext_getElem (by simp) fun i h₁ h₂ => ?_
    rw [List.getElem_map, List.getElem_mapIdx, List.getElem_range',
      Nat.one_mul, Nat.add_comm]
    rfl
  case maximal =>
    rintro c hc hrejected htext ⟨hcount', hcap', hbudget'⟩
    rw [h.rejected] at hrejected
    obtain ⟨p, hp, hkey⟩ := List.mem_map.1 hrejected
    have hpc : p.winner = c := List.inj_on_of_nodup_map hkeys
      (hperm.mem_iff.1 (List.mem_map_of_mem (List.mem_append_right _ hp))) hc
      hkey
    have hrefused := Admission.not_ok_of_refused (fits_hereditary limits) hp
    rw [Bool.eq_false_iff] at hrefused
    refine hrefused (fits_iff.2 ?_)
    rw [hpc]
    rw [hlength] at hcount'
    rw [inCategory_perm hchosen] at hcap'
    rw [h.used] at hbudget'
    exact ⟨htext, by omega, by omega, hbudget'⟩

end Distinct

/-- Two candidates of one category. -/
def twoNotes : List (Candidate Unit) :=
  [⟨"memory:1", .prose, 3, 1, none⟩, ⟨"memory:2", .prose, 4, 0, none⟩]

/-- Where there is room for one. -/
theorem within_limits_twoNotes : ∃ selection,
    select (fun _ _ => 0) twoNotes ⟨5, 2, defaultCategoryShare⟩ defaultLambda
        = .ok selection
      ∧ WithinLimits ⟨5, 2, defaultCategoryShare⟩ twoNotes selection :=
  within_limits _ _ _ _ (by decide) (by norm_num [defaultLambda]) (by decide)
    (by decide)

-- ------ example repeated key

/-- Two candidates under one key. -/
def repeated : List (Candidate Unit) :=
  [⟨"memory:1", .prose, 3, 1, none⟩, ⟨"memory:1", .code, 4, 0, none⟩]

/-- Both are chosen, and the key is there twice. -/
theorem not_within_limits :
    ¬ ∀ (V : Type) [DecidableEq V] (similarity : V → V → ℚ)
      (candidates : List (Candidate V)) (limits : Limits) (lambda : ℚ),
      0 ≤ lambda ∧ lambda ≤ 1 → 0 < limits.tokenBudget → 0 < limits.maxItems →
      ∃ selection, select similarity candidates limits lambda = .ok selection
        ∧ WithinLimits limits candidates selection := by
  intro hall
  obtain ⟨selection, hselect, hwithin⟩ := hall Unit (fun _ _ => 0) repeated
    ⟨10, 4, defaultCategoryShare⟩ defaultLambda (by norm_num [defaultLambda])
    (by decide) (by decide)
  have htwice : ((select (fun (_ _ : Unit) => 0) repeated
      ⟨10, 4, defaultCategoryShare⟩ defaultLambda).toOption.map
        Selection.keys) = some ["memory:1", "memory:1"] := by decide +kernel
  rw [hselect] at htwice
  have hunique := hwithin.unique
  rw [Option.some.inj htwice] at hunique
  exact absurd hunique (by decide)

end Context

end MemoryOS
