/-
A run of the planner, and what the model is shown of it
(`application/agent/planner.py`, `application/agent/compaction.py`).

The loop, the compaction and `verify` each number the steps for themselves, and
all three number those that acted, from one. Compaction splits them: the last two
are verbatim, and of the older ones some are findings and the rest are counted
(`compact_spec`). Steps are only ever added, so what was shown under a number stays
under it (`Shown.accepted`).

# The invariants

`Kept` holds throughout: what was sent, and what is counted of the replies.
`Acting` holds while the loop runs: every step acted, one call of the model
for each, and the last ones that were not new are counted.
-/
import Mathlib.Data.List.Induction
import MemoryOS.Agent.Planner

namespace MemoryOS.Agent

namespace Planner

open Lib

-- ====== statement vocabulary

/-- The steps that acted. -/
def acted (steps : List Step) : List Step := steps.filter Step.isActed

/-- A sum over a list. -/
def sumOf {α : Type} (f : α → Nat) : List α → Nat
  | [] => 0
  | x :: rest => f x + sumOf f rest

/-- The turns that came back. -/
def turns (sent : List Sent) : List ModelTurn :=
    sent.filterMap (·.reply.toOption)

/-- The number is one that `verify` accepts, for that step. -/
structure Accepted (t : Trajectory) (n : Nat) (step : Step) : Prop where
  valid : validHop t.toVerify.acted n = true
  result : t.toVerify.acted[n - 1]? = step.result.map ToolResult.toVerify
  step : (acted t.steps)[n - 1]? = some step

/-- Every step that acted is verbatim, a whole finding, or counted as dropped. -/
structure Accounts (countTokens : Text → Nat) (budget : Int) (steps : List Step)
    (history : Compacted) (older : List Step) : Prop where
  split : acted steps = older ++ history.verbatim
  from_one : history.verbatimFrom = older.length + 1
  findings : List.Sublist history.findings
    (older.mapIdx fun i step => findingOf step (i + 1))
  counted : history.findings.length + history.dropped = older.length
  tokens : history.tokens
    = sumOf (fun f => countTokens f.render) history.findings
  within : (history.tokens : Int) ≤ budget

/-- What a request shows of a history: the findings and the verbatim results, each
under its number. -/
structure Shown (t : Trajectory) (history : Compacted) : Prop where
  finding : ∀ f ∈ history.findings, ∃ step, f = findingOf step f.hop
    ∧ Accepted t f.hop step
  verbatim : ∀ i step, history.verbatim[i]? = some step →
    Accepted t (history.verbatimFrom + i) step

/-- The requests of `run` are made of a history, and of nothing else of the steps. -/
def Asks (w : World) (question : Text) (limit : Nat) (history : Compacted)
    (request : Request) : Prop :=
  (∃ hop, request = hopRequest w question limit hop history)
    ∨ ∃ stop, request = finalRequest w question history stop

/-- What came back is what the model said, after its retries. -/
def Replied (w : World) (s : Sent) : Prop :=
  ∃ n, s.reply = (converse w s.request (retryAttempts - 1) 0 n).1

/-- A run keeps to its bounds, its counts and its numbers. -/
structure Honest (w : World) (p : MultiHopPlanner) (question : Text)
    (maxHops : Option Int) (t : Trajectory) (sent : List Sent) : Prop where
  hops : ((acted t.steps).length : Int) ≤ max 1 (maxHops.getD p.maxHops)
  calls : t.modelCalls ≤ (acted t.steps).length + 1
  /-- What is counted is what came back. -/
  replied : ∀ s ∈ sent, Replied w s
  successful : t.modelCalls = (turns sent).length
  promptTokens : t.promptTokens = sumOf ModelTurn.promptTokens (turns sent)
  completionTokens : t.completionTokens
    = sumOf ModelTurn.completionTokens (turns sent)
  /-- The loop gives up only after two hops in a row that were not new. -/
  stale : t.stoppedBecause = .noNewInformation → ∃ before a b,
    t.steps = before ++ [a, b] ∧ a.isActed = true ∧ b.isActed = true
      ∧ a.novel = false ∧ b.novel = false
  /-- Every citation is of a step, and every one of a step is there. -/
  cited : ∀ c ∈ t.citations, ∃ step ∈ t.steps, ∃ r, step.result = some r
    ∧ c ∈ r.citations
  citing : ∀ step ∈ t.steps, ∀ r, step.result = some r → ∀ c ∈ r.citations,
    ∃ d ∈ t.citations, d.locator = c.locator
  once : (t.citations.map Citation.locator).Nodup
  shown : ∀ s ∈ sent, Asks w question (p.hopLimit maxHops) s.history s.request
    ∧ Shown t s.history
  accounted : ∀ s ∈ sent, List.IsPrefix s.steps t.steps
    ∧ ∃ older, Accounts w.countTokens p.findingBudget s.steps s.history older

-- ====== compaction

section
variable {countTokens : Text → Nat} {budget : Int} {k : Nat} {steps : List Step}
  {history : Compacted}

theorem sumOf_append {α : Type} (f : α → Nat) (xs ys : List α) :
    sumOf f (xs ++ ys) = sumOf f xs + sumOf f ys := by
  induction xs with
  | nil => exact (Nat.zero_add _).symm
  | cons x rest ih =>
    show f x + sumOf f (rest ++ ys) = f x + sumOf f rest + sumOf f ys
    rw [ih, Nat.add_assoc]

theorem sumOf_reverse {α : Type} (f : α → Nat) (xs : List α) :
    sumOf f xs.reverse = sumOf f xs := by
  induction xs with
  | nil => rfl
  | cons x rest ih =>
    rw [List.reverse_cons, sumOf_append, ih]
    exact Nat.add_comm ..

/-- What the loop has kept of the findings it has seen. -/
structure Keeps (countTokens : Text → Nat) (budget : Int) (seen : List Finding)
    (acc : Kept) : Prop where
  kept : List.Sublist acc.kept seen
  counted : acc.kept.length + acc.dropped = seen.length
  used : acc.used = sumOf (fun f => countTokens f.render) acc.kept
  within : (acc.used : Int) ≤ budget

theorem Keeps.step {seen : List Finding} {acc : Kept} (f : Finding)
    (h : Keeps countTokens budget seen acc) :
    Keeps countTokens budget (seen ++ [f]) (keep countTokens budget acc f) := by
  unfold keep
  simp only
  split
  case isTrue =>
    refine ⟨h.kept.trans (List.sublist_append_left ..), ?_, h.used, h.within⟩
    rw [List.length_append, ← h.counted]
    rfl
  case isFalse hfits =>
    refine ⟨h.kept.append (List.Sublist.refl _), ?_, ?_, Int.not_lt.1 hfits⟩
    · have hcounted := h.counted
      simp only [List.length_append, List.length_singleton]
      omega
    · rw [sumOf_append, ← h.used]
      rfl

theorem keeps_foldl (hbudget : 0 < budget) (candidates : List Finding) :
    Keeps countTokens budget candidates
      (candidates.foldl (keep countTokens budget) {}) := by
  induction candidates using List.reverseRecOn with
  | nil => exact ⟨List.Sublist.refl _, rfl, rfl, Int.le_of_lt hbudget⟩
  | append_singleton candidates f ih =>
    rw [List.foldl_append]
    exact ih.step f

theorem compact_ok (hbudget : 0 < budget) (k : Nat) (steps : List Step) :
    ∃ history, compact countTokens budget k steps = .ok history := by
  unfold compact
  rw [if_neg (Int.not_le.2 hbudget)]
  exact ⟨_, rfl⟩

theorem compact_spec (h : compact countTokens budget k steps = .ok history) :
    ∃ older, Accounts countTokens budget steps history older := by
  unfold compact at h
  split at h
  case isTrue => cases h
  case isFalse hbudget =>
    cases h
    refine ⟨(acted steps).take ((acted steps).length
      - ((acted steps).drop ((acted steps).length - k)).length), ?_⟩
    have hkeeps := @keeps_foldl countTokens budget (Int.not_le.1 hbudget)
      (((acted steps).take ((acted steps).length
        - ((acted steps).drop ((acted steps).length - k)).length)).mapIdx
          fun i step => findingOf step (i + 1)).reverse
    constructor
    · show acted steps = (acted steps).take _ ++ (acted steps).drop _
      rw [List.length_drop]
      have hsame : (acted steps).length - ((acted steps).length
          - ((acted steps).length - k)) = (acted steps).length - k := by omega
      rw [hsame]
      exact (List.take_append_drop _ _).symm
    · rfl
    · have hreverse := hkeeps.kept.reverse
      rw [List.reverse_reverse] at hreverse
      exact hreverse
    · have hcounted := hkeeps.counted
      rw [List.length_reverse, List.length_mapIdx] at hcounted
      rw [List.length_reverse]
      exact hcounted
    · rw [sumOf_reverse]
      exact hkeeps.used
    · exact hkeeps.within

end

-- ====== the numbers

section
variable {t : Trajectory} {steps : List Step} {step : Step} {n : Nat}

theorem verified_getElem (steps : List Step) (i : Nat) :
    ((steps.map fun step =>
        (⟨step.tool, step.result.map ToolResult.toVerify⟩ : Agent.Step)).filterMap
          Agent.Step.acted)[i]?
      = (acted steps)[i]?.bind fun step => step.result.map ToolResult.toVerify := by
  induction steps generalizing i with
  | nil => rfl
  | cons step rest ih =>
    have hstep : Agent.Step.acted ⟨step.tool,
      step.result.map ToolResult.toVerify⟩
        = if step.isActed then step.result.map ToolResult.toVerify else none := by
      unfold Agent.Step.acted Step.isActed
      cases step.tool <;> cases step.result <;> rfl
    rw [List.map_cons, List.filterMap_cons, hstep, acted, List.filter_cons]
    by_cases hacted : step.isActed = true
    · rw [if_pos hacted, if_pos hacted]
      unfold Step.isActed at hacted
      rw [Bool.and_eq_true] at hacted
      obtain ⟨result, hresult⟩ := Option.isSome_iff_exists.1 hacted.2
      rw [hresult]
      cases i with
      | zero => simp [hresult]
      | succ i => exact ih i
    · rw [if_neg hacted, if_neg hacted]
      exact ih i

theorem accepted_of (hn : 1 ≤ n) (hstep : (acted t.steps)[n - 1]? = some step) :
    Accepted t n step := by
  have hresult : t.toVerify.acted[n - 1]?
    = step.result.map ToolResult.toVerify := by
    rw [Agent.Trajectory.acted]
    exact (verified_getElem t.steps (n - 1)).trans (by rw [hstep]; rfl)
  refine ⟨?_, hresult, hstep⟩
  have hmem := List.mem_of_getElem? hstep
  have hacted : step.isActed = true := (List.mem_filter.1 hmem).2
  unfold Step.isActed at hacted
  rw [Bool.and_eq_true] at hacted
  obtain ⟨result, hsome⟩ := Option.isSome_iff_exists.1 hacted.2
  rw [hsome] at hresult
  obtain ⟨hlt, -⟩ := List.getElem?_eq_some_iff.1 hresult
  unfold validHop
  rw [Bool.and_eq_true, decide_eq_true_eq, decide_eq_true_eq]
  exact ⟨hn, by omega⟩

theorem acted_prefix {i : Nat} (hearlier : List.IsPrefix steps t.steps)
    (h : (acted steps)[i]? = some step) : (acted t.steps)[i]? = some step := by
  obtain ⟨later, hlater⟩ := hearlier.filter Step.isActed
  obtain ⟨hlt, -⟩ := List.getElem?_eq_some_iff.1 h
  show (t.steps.filter Step.isActed)[i]? = some step
  rw [← hlater]
  exact (List.getElem?_append_left hlt).trans h

/-- What is shown under a number is shown under the number that `verify` accepts. -/
theorem Accounts.shown {countTokens : Text → Nat} {budget : Int} {history :
    Compacted}
    {older : List Step} (h : Accounts countTokens budget steps history older)
    (hearlier : List.IsPrefix steps t.steps) : Shown t history := by
  constructor
  · intro f hf
    obtain ⟨i, hi, rfl⟩ := List.mem_mapIdx.1 (h.findings.subset hf)
    refine ⟨older[i], rfl, accepted_of (Nat.le_add_left ..) ?_⟩
    apply acted_prefix hearlier
    show (acted steps)[i]? = some older[i]
    rw [h.split, List.getElem?_append_left hi]
    exact List.getElem?_eq_getElem hi
  · intro i step hstep
    rw [h.from_one]
    apply accepted_of (by omega)
    apply acted_prefix hearlier
    have hindex : older.length + 1 + i - 1 = older.length + i := by omega
    rw [hindex, h.split, List.getElem?_append_right (Nat.le_add_right ..)]
    rw [Nat.add_sub_cancel_left]
    exact hstep

end

-- ====== the invariants

section
variable {w : World} {p : MultiHopPlanner} {question : Text} {limit : Nat}
  {pr pr' : Progress} {history : Compacted} {request : Request}
  {reply : Except ModelError ModelTurn × Nat}

/-- What holds of what was sent, and of what is counted. -/
structure Sound (w : World) (p : MultiHopPlanner) (question : Text) (limit : Nat)
    (pr : Progress) : Prop where
  calls : pr.calls = (turns pr.sent).length
  promptTokens : pr.promptTokens = sumOf ModelTurn.promptTokens (turns pr.sent)
  completionTokens : pr.completionTokens
    = sumOf ModelTurn.completionTokens (turns pr.sent)
  asks : ∀ s ∈ pr.sent, Asks w question limit s.history s.request
  replied : ∀ s ∈ pr.sent, Replied w s
  accounted : ∀ s ∈ pr.sent, List.IsPrefix s.steps pr.steps
    ∧ ∃ older, Accounts w.countTokens p.findingBudget s.steps s.history older

/-- What holds while the loop runs. -/
structure Acting (pr : Progress) : Prop where
  acted : ∀ s ∈ pr.steps, s.isActed = true
  calls : pr.calls = pr.steps.length
  stale : ∃ before after, pr.steps = before ++ after ∧ after.length = pr.stale
    ∧ ∀ s ∈ after, s.novel = false

theorem hear_steps : (pr.hear history request reply).steps = pr.steps := by
  unfold Progress.hear
  cases reply.1 <;> rfl

theorem hear_stale : (pr.hear history request reply).stale = pr.stale := by
  unfold Progress.hear
  cases reply.1 <;> rfl

theorem hear_sent : (pr.hear history request reply).sent
    = pr.sent ++ [⟨pr.steps, history, request, reply.1⟩] := by
  unfold Progress.hear
  cases reply.1 <;> rfl

theorem hear_calls : (pr.hear history request reply).calls
    = pr.calls + if reply.1.toOption.isSome then 1 else 0 := by
  unfold Progress.hear
  cases reply.1 <;> rfl

theorem turns_concat (sent : List Sent) (s : Sent) :
    turns (sent ++ [s]) = turns sent ++ s.reply.toOption.toList := by
  unfold turns
  rw [List.filterMap_append]
  cases hreply : s.reply.toOption <;> simp [hreply]

theorem Sound.hear (h : Sound w p question limit pr)
    (hcompact : compact w.countTokens p.findingBudget 2 pr.steps = .ok history)
    (hasks : Asks w question limit history request)
    (hreply : ∃ n, reply = converse w request (retryAttempts - 1) 0 n) :
    Sound w p question limit (pr.hear history request reply) := by
  constructor
  · rw [hear_calls, hear_sent, turns_concat, List.length_append, h.calls]
    cases reply.1 <;> rfl
  · rw [hear_sent, turns_concat, sumOf_append, ← h.promptTokens]
    unfold Progress.hear
    cases reply.1 <;> rfl
  · rw [hear_sent, turns_concat, sumOf_append, ← h.completionTokens]
    unfold Progress.hear
    cases reply.1 <;> rfl
  · intro s hs
    rw [hear_sent] at hs
    rcases List.mem_append.1 hs with hs | hs
    · exact h.asks s hs
    · rw [List.mem_singleton.1 hs]
      exact hasks
  · intro s hs
    rw [hear_sent] at hs
    rcases List.mem_append.1 hs with hs | hs
    · exact h.replied s hs
    · rw [List.mem_singleton.1 hs]
      obtain ⟨n, rfl⟩ := hreply
      exact ⟨n, rfl⟩
  · intro s hs
    rw [hear_sent] at hs
    rw [hear_steps]
    rcases List.mem_append.1 hs with hs | hs
    · exact h.accounted s hs
    · rw [List.mem_singleton.1 hs]
      exact ⟨List.prefix_refl _, compact_spec hcompact⟩

theorem Sound.steps (h : Sound w p question limit pr) {more : List Step}
    (hsent : pr'.sent = pr.sent) (hsteps : pr'.steps = pr.steps ++ more)
    (hcalls : pr'.calls = pr.calls) (hprompt : pr'.promptTokens
    = pr.promptTokens)
    (hcompletion : pr'.completionTokens = pr.completionTokens) :
    Sound w p question limit pr' := by
  refine ⟨?_, ?_, ?_, ?_, ?_, ?_⟩
  · rw [hcalls, hsent, h.calls]
  · rw [hprompt, hsent, h.promptTokens]
  · rw [hcompletion, hsent, h.completionTokens]
  · rw [hsent]
    exact h.asks
  · rw [hsent]
    exact h.replied
  · intro s hs
    rw [hsent] at hs
    obtain ⟨hearlier, hold⟩ := h.accounted s hs
    exact ⟨hsteps ▸ hearlier.trans (List.prefix_append ..), hold⟩

-- ======== the loop

theorem act_steps (turn : ModelTurn) (toolCall : ToolCall) (extra : Nat) :
    ∃ step, (pr.act w turn toolCall extra).steps = pr.steps ++ [step]
      ∧ step.isActed = true
      ∧ (pr.act w turn toolCall extra).stale
        = if step.novel then 0 else pr.stale + 1 :=
  ⟨_, rfl, rfl, rfl⟩

theorem Acting.act (h : Acting pr) {turn : ModelTurn}
    (hreply : reply.1 = .ok turn)
    (toolCall : ToolCall) (extra : Nat) :
    Acting ((pr.hear history request reply).act w turn toolCall extra) := by
  obtain ⟨step, hsteps, hstep, hstale⟩ :=
    @act_steps w (pr.hear history request reply) turn toolCall extra
  rw [hear_steps] at hsteps
  rw [hear_stale] at hstale
  have hcalls : ((pr.hear history request reply).act w turn toolCall extra).calls
      = pr.calls + 1 := by
    show (pr.hear history request reply).calls = pr.calls + 1
    rw [hear_calls, hreply]
    rfl
  constructor
  · intro s hs
    rw [hsteps] at hs
    rcases List.mem_append.1 hs with hs | hs
    · exact h.acted s hs
    · rw [List.mem_singleton.1 hs]
      exact hstep
  · rw [hcalls, hsteps, h.calls, List.length_append]
    rfl
  · obtain ⟨before, after, hsplit, hlength, hafter⟩ := h.stale
    rw [hsteps, hstale]
    cases hnovel : step.novel with
    | true => exact ⟨pr.steps ++ [step], [], (List.append_nil _).symm, rfl,
        fun _ hs => absurd hs List.not_mem_nil⟩
    | false =>
      refine ⟨before, after ++ [step], ?_, ?_, ?_⟩
      · rw [hsplit, List.append_assoc]
      · rw [List.length_append, hlength]
        rfl
      · intro s hs
        rcases List.mem_append.1 hs with hs | hs
        · exact hafter s hs
        · rw [List.mem_singleton.1 hs]
          exact hnovel

theorem Acting.two_stale (h : Acting pr) (hstale : staleLimit ≤ pr.stale) :
    ∃ before a b, pr.steps = before ++ [a, b] ∧ a.isActed = true ∧ b.isActed
      = true
      ∧ a.novel = false ∧ b.novel = false := by
  obtain ⟨before, after, hsplit, hlength, hafter⟩ := h.stale
  have htwo : 2 ≤ after.length := hlength ▸ hstale
  have hdrop : (after.drop (after.length - 2)).length = 2 := by
    rw [List.length_drop]
    omega
  obtain ⟨a, b, hab⟩ := List.length_eq_two.1 hdrop
  have hsteps : pr.steps = before ++ after.take (after.length - 2)
    ++ [a, b] := by
    rw [hsplit, ← hab, List.append_assoc, List.take_append_drop]
  have hlast : ∀ s ∈ [a, b], s ∈ after ∧ s ∈ pr.steps := by
    intro s hs
    rw [← hab] at hs
    have hmem := List.mem_of_mem_drop hs
    exact ⟨hmem, hsplit ▸ List.mem_append_right _ hmem⟩
  obtain ⟨ha, ha'⟩ := hlast a List.mem_cons_self
  obtain ⟨hb, hb'⟩ := hlast b (List.mem_cons_of_mem _ List.mem_cons_self)
  exact ⟨_, a, b, hsteps, h.acted a ha', h.acted b hb', hafter a ha,
    hafter b hb⟩

/-- How the loop left its variables, in so many hops. -/
structure Ended (n : Nat) (pr : Progress) (ending : Ending) : Prop where
  hops : (acted pr.steps).length ≤ n
  calls : pr.calls ≤ (acted pr.steps).length + 1
  /-- Where the answer is still to be asked for, no call was made for one. -/
  bound : ∀ stop, ending = .bound stop → pr.calls ≤ (acted pr.steps).length
  stale : ending = .bound .noNewInformation → ∃ before a b,
    pr.steps = before ++ [a, b] ∧ a.isActed = true ∧ b.isActed = true
      ∧ a.novel = false ∧ b.novel = false
  spoke : ∀ turn stop, ending = .spoke turn stop → stop ≠ .noNewInformation

theorem Acting.length (h : Acting pr) :
    (Planner.acted pr.steps).length = pr.steps.length := by
  unfold Planner.acted
  rw [List.filter_eq_self.2 h.acted]

theorem Acting.failed (h : Acting pr) {exc : ModelError} (n : Nat)
    (hsteps : pr'.steps = pr.steps) (hcalls : pr'.calls = pr.calls) :
    Ended (pr.steps.length + n) pr' (.failed exc) := by
  have hlength := h.length
  have hcount := h.calls
  refine ⟨?_, ?_, fun _ hstop => Ending.noConfusion hstop,
    fun hstop => Ending.noConfusion hstop,
    fun _ _ hstop => Ending.noConfusion hstop⟩
  · rw [hsteps]
    omega
  · rw [hcalls, hsteps]
    omega

theorem Acting.spoke (h : Acting pr) {turn : ModelTurn} {stop : StopReason}
    (n : Nat)
    (hsteps : pr'.steps = pr.steps ++ [answerStep turn])
    (hcalls : pr'.calls = pr.calls + 1) (hstop : stop ≠ .noNewInformation) :
    Ended (pr.steps.length + n) pr' (.spoke turn stop) := by
  have hlength := h.length
  have hcount := h.calls
  have hacted : Planner.acted pr'.steps = Planner.acted pr.steps := by
    unfold Planner.acted
    rw [hsteps, List.filter_append]
    exact List.append_nil _
  refine ⟨?_, ?_, fun _ hbound => Ending.noConfusion hbound,
    fun hbound => Ending.noConfusion hbound, ?_⟩
  · rw [hacted]
    omega
  · rw [hcalls, hacted]
    omega
  · intro _ _ hspoke
    cases hspoke
    exact hstop

theorem Acting.bound (h : Acting pr) {stop : StopReason} {n : Nat}
    (hlength : pr.steps.length ≤ n)
    (hstop : stop = .noNewInformation → staleLimit ≤ pr.stale) :
    Ended n pr (.bound stop) := by
  have hacted := h.length
  have hcount := h.calls
  refine ⟨(by omega), (by omega), fun _ _ => (by omega), ?_,
    fun _ _ hspoke => Ending.noConfusion hspoke⟩
  intro hbound
  cases hbound
  exact h.two_stale (hstop rfl)

theorem loop_ok (hbudget : 0 < p.findingBudget) (left : Nat) (pr : Progress) :
    ∃ out, loop w p question limit left pr = .ok out := by
  induction left generalizing pr with
  | zero => exact ⟨_, rfl⟩
  | succ left ih =>
    obtain ⟨history, hcompact⟩ :=
      @compact_ok w.countTokens _ hbudget 2 pr.steps
    unfold loop
    simp only [hcompact]
    split
    case h_1 => exact ⟨_, rfl⟩
    case h_2 =>
      split
      case h_1 => exact ⟨_, rfl⟩
      case h_2 =>
        split
        case isTrue => exact ⟨_, rfl⟩
        case isFalse => exact ih _

theorem loop_spec {left : Nat} {ending : Ending}
    (hs : Sound w p question limit pr)
    (ha : Acting pr) (h : loop w p question limit left pr = .ok (pr', ending)) :
    Sound w p question limit pr'
      ∧ Ended (pr.steps.length + left) pr' ending := by
  induction left generalizing pr with
  | zero =>
    cases h
    exact ⟨hs, ha.bound (Nat.le_refl _) fun hstop => StopReason.noConfusion hstop⟩
  | succ left ih =>
    unfold loop at h
    split at h
    case h_1 => cases h
    case h_2 history hcompact =>
      simp only at h
      generalize hconverse : converse w _ _ _ _ = reply at h
      have hheard := @Sound.hear w p question limit pr history
        (hopRequest w question limit (limit - left) history) reply hs hcompact
        (.inl ⟨_, rfl⟩) ⟨_, hconverse.symm⟩
      split at h
      case h_1 exc hreply =>
        cases h
        refine ⟨hheard, ha.failed _ hear_steps ?_⟩
        rw [hear_calls, hreply]
        rfl
      case h_2 turn hreply =>
        split at h
        case h_1 =>
          cases h
          refine ⟨hheard.steps rfl rfl rfl rfl rfl, ha.spoke _ ?_ ?_ ?_⟩
          · rw [hear_steps]
          · show (pr.hear history _ reply).calls = _
            rw [hear_calls, hreply]
            rfl
          · split
            case isTrue => exact StopReason.noConfusion
            case isFalse => exact StopReason.noConfusion
        case h_2 toolCall extra _ =>
          have hacting := @Acting.act w pr history
            (hopRequest w question limit (limit - left) history) reply ha turn hreply
            toolCall extra.length
          obtain ⟨step, hsteps, -, -⟩ := @act_steps w
            (pr.hear history (hopRequest w question limit (limit - left) history) reply)
            turn toolCall extra.length
          have hsound := @Sound.steps w p question limit _
            ((pr.hear history (hopRequest w question limit (limit - left) history)
              reply).act w turn toolCall extra.length) hheard [step] rfl hsteps rfl rfl rfl
          rw [hear_steps] at hsteps
          have hlength := congrArg List.length hsteps
          rw [List.length_append, List.length_singleton] at hlength
          split at h
          case isTrue hstale =>
            cases h
            exact ⟨hsound, hacting.bound (by omega) fun _ => hstale⟩
          case isFalse =>
            obtain ⟨hs', hended⟩ := ih hsound hacting h
            rw [hlength] at hended
            refine ⟨hs', ?_⟩
            have hhops : pr.steps.length + 1 + left
              = pr.steps.length + (left + 1) := by
              omega
            exact hhops ▸ hended

-- ========= the run

variable {maxHops : Option Int} {stop : StopReason}

theorem hopLimit_le : ((p.hopLimit maxHops : Nat) : Int)
    ≤ max 1 (maxHops.getD p.maxHops) := by
  unfold MultiHopPlanner.hopLimit
  cases maxHops with
  | none =>
    show ((p.maxHops.toNat : Nat) : Int) ≤ max 1 p.maxHops
    omega
  | some hops =>
    show (((max 1 hops).toNat : Nat) : Int) ≤ max 1 hops
    omega

theorem sound_init : Sound w p question limit {} :=
  ⟨rfl, rfl, rfl, fun _ h => absurd h List.not_mem_nil,
    fun _ h => absurd h List.not_mem_nil, fun _ h => absurd h List.not_mem_nil⟩

theorem acting_init : Acting {} :=
  ⟨fun _ h => absurd h List.not_mem_nil, rfl, [], [], rfl, rfl,
    fun _ h => absurd h List.not_mem_nil⟩

theorem final_ok (hbudget : 0 < p.findingBudget) :
    ∃ out, final w p question pr stop = .ok out := by
  obtain ⟨history, hcompact⟩ := @compact_ok w.countTokens _ hbudget 2 pr.steps
  unfold final
  simp only [hcompact]
  exact ⟨_, rfl⟩

theorem final_spec {turn : Option ModelTurn} (hs : Sound w p question limit pr)
    (h : final w p question pr stop = .ok (pr', turn)) :
    Sound w p question limit pr' ∧ pr'.steps = pr.steps ∧ pr'.calls
      ≤ pr.calls + 1 := by
  unfold final at h
  split at h
  case h_1 => cases h
  case h_2 history hcompact =>
    cases h
    refine ⟨hs.hear hcompact (.inr ⟨_, rfl⟩) ⟨_, rfl⟩, hear_steps, ?_⟩
    rw [hear_calls]
    split
    case isTrue => exact Nat.le_refl _
    case isFalse => exact Nat.le_succ _

theorem Sound.honest {answer error : Option Text} {retryAfter : Option ℚ}
    (hs : Sound w p question (p.hopLimit maxHops) pr)
    (hhops : (acted pr.steps).length ≤ p.hopLimit maxHops)
    (hcalls : pr.calls ≤ (acted pr.steps).length + 1)
    (hstale : stop = .noNewInformation → ∃ before a b,
      pr.steps = before ++ [a, b] ∧ a.isActed = true ∧ b.isActed = true
        ∧ a.novel = false ∧ b.novel = false) :
    Honest w p question maxHops (finish question pr answer stop error retryAfter)
      pr.sent := by
  refine ⟨?_, hcalls, hs.replied, hs.calls, hs.promptTokens,
    hs.completionTokens, hstale, ?_, ?_, ?_,
    ?_, hs.accounted⟩
  · exact Int.le_trans (Int.ofNat_le.2 hhops) hopLimit_le
  · intro c hc
    obtain ⟨step, hstep, hc⟩ :=
      List.mem_flatMap.1 (DistinctOn.mem_of_mem_distinctOn hc)
    cases hresult : step.result with
    | none =>
      rw [hresult] at hc
      cases hc
    | some r =>
      rw [hresult] at hc
      exact ⟨step, hstep, r, hresult, hc⟩
  · intro step hstep r hresult c hc
    apply DistinctOn.exists_mem_distinctOn
    refine List.mem_flatMap.2 ⟨step, hstep, ?_⟩
    rw [hresult]
    exact hc
  · exact List.pairwise_map.2 DistinctOn.pairwise_distinctOn
  · intro s hsent
    obtain ⟨hearlier, older, hold⟩ := hs.accounted s hsent
    exact ⟨hs.asks s hsent, hold.shown hearlier⟩

end

/-- A run returns a trajectory, and keeps to its bounds, its counts and its
numbers, whatever the model and the tools do. -/
theorem run_honest (w : World) (p : MultiHopPlanner) (question : Text)
    (maxHops : Option Int) (hbudget : 0 < p.findingBudget) :
    ∃ t pr, run w p question maxHops = .ok (t, pr)
      ∧ Honest w p question maxHops t pr.sent := by
  obtain ⟨⟨pr, ending⟩, hloop⟩ :=
    @loop_ok w p question (p.hopLimit maxHops) hbudget (p.hopLimit maxHops) {}
  obtain ⟨hs, hended⟩ := loop_spec sound_init acting_init hloop
  have hhops : (acted pr.steps).length ≤ p.hopLimit maxHops := by
    have hbound := hended.hops
    rwa [show ({} : Progress).steps.length = 0 from rfl, Nat.zero_add] at hbound
  unfold run
  rw [hloop]
  cases ending with
  | failed exc =>
    exact ⟨_, _, rfl, hs.honest hhops hended.calls StopReason.noConfusion⟩
  | spoke turn stop =>
    refine ⟨_, _, rfl, hs.honest hhops hended.calls fun hstop => ?_⟩
    exact absurd hstop (hended.spoke turn stop rfl)
  | bound stop =>
    obtain ⟨⟨pr', turn⟩, hfinal⟩ := @final_ok w p question pr stop hbudget
    obtain ⟨hs', hsteps, hcalls⟩ := final_spec hs hfinal
    rw [← hsteps] at hhops
    have hcalls' : pr'.calls ≤ (acted pr'.steps).length + 1 := by
      rw [hsteps]
      exact Nat.le_trans hcalls (Nat.succ_le_succ (hended.bound stop rfl))
    simp only [hfinal]
    cases turn with
    | none => exact ⟨_, _, rfl,
      hs'.honest hhops hcalls' StopReason.noConfusion⟩
    | some turn =>
      refine ⟨_, _, rfl, hs'.honest hhops hcalls' fun hstop => ?_⟩
      rw [hsteps]
      exact hended.stale (hstop ▸ rfl)

-- ------ a model that asks for one thing

/-- The model asks for the same search until it has to answer. -/
def sameSearch : World where
  converse _ request :=
    if request.tools then
      .ok { toolCalls := [⟨"c".toList, "search_memories".toList, []⟩]
            promptTokens := 3
            completionTokens := 2 }
    else .ok { text := "Nothing.".toList }
  call _ _ _ := .ok { content := "no memories".toList }
  rand _ := 0
  countTokens := List.length
  sha256 := id
  instructions := []

/-- It stops on its own. -/
theorem run_honest_sameSearch :
    ∃ t pr, run sameSearch {} [] none = .ok (t, pr)
      ∧ Honest sameSearch {} [] none t pr.sent :=
  run_honest sameSearch {} [] none (by decide)

end Planner

end MemoryOS.Agent
