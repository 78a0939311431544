/-
Suggestions are reviewed once (`application/decision_suggest.py`,
`application/outcome_suggest.py`).

The laws of one queue are `Lib/Review.lean`'s: what each of its transactions
keeps, and under which guard. Here they are put together for two queues and
the runs that feed them. What is left to show about the runs is that a
passage they carry was not reviewed before they began (`Sound.passages`),
because `find_passages` leaves out every key of the table; a candidate
memory they carry may have been, because `find_candidates` does not look.
-/
import MemoryOS.Decisions.Suggestions

namespace MemoryOS

open Lib Lib.Review

namespace Decisions

/-- What every run of events keeps, besides the queues' own laws. -/
structure Sound (w : World) : Prop where
  decisions : w.decisions.Kept w.clock
  outcomes : w.outcomes.Kept w.clock
  begun : ∀ run ∈ w.decisionRuns, run.begun ≤ w.clock
  passages : ∀ run ∈ w.decisionRuns,
    (∀ p ∈ run.passages, w.decisions.Unasked run.begun p.key)
      ∧ ∀ d ∈ run.drafts, w.decisions.Unasked run.begun d.1.key
  outcomesBegun : ∀ run ∈ w.outcomeRuns, run.begun ≤ w.clock

variable {now : Timestamp} {i : Nat} {w : World}

variable {db : Db} {source : Option String}

theorem sound_start (t : Tables) : Sound (.start t) where
  decisions := Queue.kept_empty 0
  outcomes := Queue.kept_empty 0
  begun := fun _ h => absurd h List.not_mem_nil
  passages := fun _ h => absurd h List.not_mem_nil
  outcomesBegun := fun _ h => absurd h List.not_mem_nil

theorem reviewedOnce_start (t : Tables) : ReviewedOnce (.start t) :=
  ⟨Queue.exact_empty, Queue.exact_empty⟩

theorem Sound.tick (h : Sound w) : Sound w.tick where
  decisions := h.decisions.later
  outcomes := h.outcomes.later
  begun := fun run hrun => Nat.le_succ_of_le (h.begun run hrun)
  passages := h.passages
  outcomesBegun := fun run hrun =>
    Nat.le_succ_of_le (h.outcomesBegun run hrun)

-- ======== the runs

theorem findPassages_unasked {queue : DecisionQueue} {limit : Nat} {p : Passage}
    (hp : p ∈ findPassages db queue source limit) (begun : Nat) :
    queue.Unasked begun p.key := by
  intro r hr hkey
  have hp := (List.mem_insertionSort _).1 (List.mem_of_mem_take hp)
  obtain ⟨c, -, hp⟩ := List.mem_flatMap.1 hp
  obtain ⟨m, -, hp⟩ := List.mem_flatMap.1 hp
  obtain ⟨src, -, hp⟩ := List.mem_filterMap.1 hp
  simp only at hp
  split at hp
  case isTrue hkept =>
    cases hp
    simp only [Bool.and_eq_true, Bool.not_eq_true', List.any_eq_false,
      decide_eq_true_eq] at hkept
    exact absurd hkey (hkept.1.2 r hr)
  case isFalse => cases hp

theorem Sound.decisionsTo (h : Sound w) {q : DecisionQueue}
    (hkept : q.Kept w.clock)
    (hunasked : ∀ begun key, begun ≤ w.clock →
      w.decisions.Unasked begun key → q.Unasked begun key) :
    Sound { w with decisions := q } where
  decisions := hkept
  outcomes := h.outcomes
  begun := h.begun
  passages := fun run hrun =>
    ⟨fun p hp => hunasked _ _ (h.begun run hrun)
        ((h.passages run hrun).1 p hp),
      fun d hd => hunasked _ _ (h.begun run hrun)
        ((h.passages run hrun).2 d hd)⟩
  outcomesBegun := h.outcomesBegun

theorem Sound.outcomesTo (h : Sound w) {q : OutcomeQueue}
    (hkept : q.Kept w.clock) : Sound { w with outcomes := q } :=
  { h with outcomes := hkept }

theorem Sound.decisionRun (h : Sound w)
    {run : DecisionRun}
    (hbegun : run.begun ≤ w.clock)
    (hpassages : ∀ p ∈ run.passages, w.decisions.Unasked run.begun p.key)
    (hdrafts : ∀ d ∈ run.drafts, w.decisions.Unasked run.begun d.1.key) :
    Sound { w with decisionRuns := w.decisionRuns.set i run } where
  decisions := h.decisions
  outcomes := h.outcomes
  begun := by
    intro run' hrun
    rcases List.mem_or_eq_of_mem_set hrun with hrun | rfl
    · exact h.begun run' hrun
    · exact hbegun
  passages := by
    intro run' hrun
    rcases List.mem_or_eq_of_mem_set hrun with hrun | rfl
    · exact h.passages run' hrun
    · exact ⟨hpassages, hdrafts⟩
  outcomesBegun := h.outcomesBegun

theorem Sound.outcomeRuns (h : Sound w) {runs : List OutcomeRun}
    (hruns : ∀ run ∈ runs, run.begun ≤ w.clock) :
    Sound { w with outcomeRuns := runs } :=
  { h with outcomesBegun := hruns }

theorem Sound.outcomeRun (h : Sound w)
    {run run' : OutcomeRun} (hrun : w.outcomeRuns[i]? = some run)
    (hbegun : run'.begun = run.begun) :
    Sound { w with outcomeRuns := w.outcomeRuns.set i run' } := by
  refine h.outcomeRuns fun r hr => ?_
  rcases List.mem_or_eq_of_mem_set hr with hr | rfl
  · exact h.outcomesBegun r hr
  · rw [hbegun]
    exact h.outcomesBegun run (List.mem_of_getElem? hrun)

theorem Sound.outcomeRunGone (h : Sound w) (i : Nat) :
    Sound { w with outcomeRuns := w.outcomeRuns.eraseIdx i } :=
  h.outcomeRuns fun run hrun =>
    h.outcomesBegun run ((List.eraseIdx_sublist _ _).subset hrun)

theorem Sound.decisionRunGone (h : Sound w) (i : Nat) :
    Sound { w with decisionRuns := w.decisionRuns.eraseIdx i } where
  decisions := h.decisions
  outcomes := h.outcomes
  begun := fun run hrun =>
    h.begun run ((List.eraseIdx_sublist _ _).subset hrun)
  passages := fun run hrun =>
    h.passages run ((List.eraseIdx_sublist _ _).subset hrun)
  outcomesBegun := h.outcomesBegun

-- ======= one event

/-- What a step has to show: under the guard all is kept, and without it
the property breaks. -/
def Steps (s : Setup) (w : World) (e : Event) (w' : World) : Prop :=
  (ReviewedOnce w' ↔ Single s w e) ∧ (Single s w e → Sound w')

theorem steps_of_kept {s : Setup} {w' : World} {e : Event}
    (hguard : Single s w e) (hsound : Sound w') (hex : ReviewedOnce w') :
    Steps s w e w' :=
  ⟨iff_of_true hex hguard, fun _ => hsound⟩

section

variable {s : Setup} {w w' : World} (h : Sound w) (hex : ReviewedOnce w)

include h hex

theorem steps_findPassages {limit : Nat}
    (hs : happen s w (.findPassages db source limit) = some w') :
    Steps s w (.findPassages db source limit) w' := by
  cases hs
  refine steps_of_kept trivial ⟨h.decisions, h.outcomes, ?_, ?_,
    h.outcomesBegun⟩ hex
  · intro run hrun
    rcases List.mem_append.1 hrun with hrun | hrun
    · exact h.begun run hrun
    · obtain rfl := List.mem_singleton.1 hrun
      exact Nat.le_refl w.clock
  · intro run hrun
    rcases List.mem_append.1 hrun with hrun | hrun
    · exact h.passages run hrun
    · rw [List.mem_singleton.1 hrun]
      exact ⟨fun p hp => findPassages_unasked hp _,
        fun d hd => absurd hd List.not_mem_nil⟩

theorem steps_proposeDecisions {reply : Option (List DecisionDraft)}
    (hs : happen s w (.proposeDecisions i reply) = some w') :
    Steps s w (.proposeDecisions i reply) w' := by
  obtain ⟨run, hrun, hs⟩ := Option.bind_eq_some_iff.1 hs
  obtain ⟨run', hrun', hs⟩ := Option.bind_eq_some_iff.1 hs
  cases hs
  have hmem := List.mem_of_getElem? hrun
  unfold proposeDecisions at hrun'
  split at hrun'
  case h_1 p rest hpassages hdrafts =>
    cases hrun'
    have hold := (h.passages run hmem).1
    rw [hpassages] at hold
    refine steps_of_kept trivial (h.decisionRun (h.begun run hmem)
      (fun p' hp' => hold p' (List.mem_cons_of_mem _ hp')) ?_) hex
    intro d hd
    obtain ⟨draft, -, rfl⟩ := List.mem_map.1 hd
    exact hold p List.mem_cons_self
  case h_2 => cases hrun'

theorem steps_queueDecision (hs : happen s w (.queueDecision i now) = some w') :
    Steps s w (.queueDecision i now) w' := by
  obtain ⟨run, hrun, hs⟩ := Option.bind_eq_some_iff.1 hs
  have hmem := List.mem_of_getElem? hrun
  split at hs
  case h_1 => cases hs
  case h_2 p draft rest hdrafts =>
    cases hs
    have hdraft := (h.passages run hmem).2
    rw [hdrafts] at hdraft
    have hstep : Sound { w with
        decisions := Decisions.queueDecision w.decisions p draft s.modelId
          s.decisionVersion now run.begun } :=
      h.decisionsTo (h.decisions.propose (h.begun run hmem) p.key _ now)
        (fun _ _ _ hu => hu.propose p.key _ now run.begun)
    refine steps_of_kept trivial (hstep.decisionRun (h.begun run hmem) ?_ ?_)
      ⟨(Queue.propose_exact_iff h.decisions hex.1 p.key _ now run.begun).2
        (.inr (hdraft _ List.mem_cons_self)), hex.2⟩
    · exact (hstep.passages run hmem).1
    · intro d hd
      exact (hstep.passages run hmem).2 d
        (hdrafts ▸ List.mem_cons_of_mem _ hd)

theorem steps_openDecisions {decisionId : Option Id} {windowDays : Option ℚ}
    {limit : Nat}
    (hs : happen s w (.openDecisions decisionId windowDays limit) = some w') :
    Steps s w (.openDecisions decisionId windowDays limit) w' := by
  cases hs
  unfold beginOutcomes
  split
  case h_1 => exact steps_of_kept trivial h hex
  case h_2 =>
    refine steps_of_kept trivial (h.outcomeRuns fun run hrun => ?_) hex
    rcases List.mem_append.1 hrun with hrun | hrun
    · exact h.outcomesBegun run hrun
    · obtain rfl := List.mem_singleton.1 hrun
      exact Nat.le_refl w.clock

theorem steps_findCandidates {window entities names overlaps : Db}
    (hs : happen s w (.findCandidates i window entities names overlaps)
      = some w') :
    Steps s w (.findCandidates i window entities names overlaps) w' := by
  obtain ⟨run, hrun, hs⟩ := Option.bind_eq_some_iff.1 hs
  split at hs
  case h_1 =>
    split at hs
    case h_1 =>
      cases hs
      exact steps_of_kept trivial (h.outcomeRunGone i) hex
    case h_2 =>
      cases hs
      exact steps_of_kept trivial (h.outcomeRun hrun rfl) hex
  case h_2 => cases hs

theorem steps_judgeCandidate {reply : Option Judgement}
    (hs : happen s w (.judgeCandidate i reply) = some w') :
    Steps s w (.judgeCandidate i reply) w' := by
  obtain ⟨run, hrun, hs⟩ := Option.bind_eq_some_iff.1 hs
  obtain ⟨run', hrun', hs⟩ := Option.bind_eq_some_iff.1 hs
  cases hs
  unfold judgeNext at hrun'
  split at hrun'
  case h_1 =>
    cases hrun'
    exact steps_of_kept trivial (h.outcomeRun hrun rfl) hex
  case h_2 => cases hrun'

theorem steps_queueOutcome (hs : happen s w (.queueOutcome i now) = some w') :
    Steps s w (.queueOutcome i now) w' := by
  obtain ⟨run, hrun, hs⟩ := Option.bind_eq_some_iff.1 hs
  have hbegun := h.outcomesBegun run (List.mem_of_getElem? hrun)
  split at hs
  case h_1 => cases hs
  case h_2 f draft rest hdrafts =>
    unfold Decisions.queueOutcome at hs
    simp only at hs
    split at hs
    case h_1 hblank =>
      cases hs
      split at hblank
      case isTrue hall =>
        refine steps_of_kept ?_ (h.outcomeRunGone i) hex
        intro run' f' draft' rest' hrun' hdrafts' hnot
        rw [hrun] at hrun'
        cases hrun'
        rw [hdrafts] at hdrafts'
        cases hdrafts'
        rw [hall] at hnot
        cases hnot
      case isFalse => cases hblank
    case h_2 hqueued =>
      cases hs
      split at hqueued
      case isTrue => cases hqueued
      case isFalse hshown =>
        cases hqueued
        refine ⟨?_, fun _ => ?_⟩
        · refine (and_iff_right hex.1).trans
            ((Queue.propose_exact_iff h.outcomes hex.2 _ _ now
              run.begun).trans ?_)
          constructor
          · intro hasked run' f' draft' rest' hrun' hdrafts' _
            rw [hrun] at hrun'
            cases hrun'
            rw [hdrafts] at hdrafts'
            cases hdrafts'
            exact hasked
          · intro hguard
            exact hguard run f draft rest hrun hdrafts
              (Bool.eq_false_iff.2 hshown)
        · exact (h.outcomesTo (h.outcomes.propose hbegun _ _ now)).outcomeRun
            hrun rfl

theorem steps_checkDecision {id : Id}
    {edited : Option DecisionDraft} {decidedAt : Option Timestamp}
    (hs : happen s w (.checkDecision db id edited decidedAt) = some w') :
    Steps s w (.checkDecision db id edited decidedAt) w' := by
  cases hs
  unfold checkDecision
  split
  case h_1 => exact steps_of_kept trivial h hex
  case h_2 row hrow =>
    refine steps_of_kept trivial (h.decisionsTo
      (h.decisions.enter (Queue.check_ok hrow).1 _) fun _ _ _ hu => hu)
      ⟨hex.1.enter _ _, hex.2⟩

theorem steps_recordDecision
    (hs : happen s w (.recordDecision db i now) = some w') :
    Steps s w (.recordDecision db i now) w' := by
  have hs : recordNextDecision s w db i now = some w' := hs
  unfold recordNextDecision at hs
  split at hs
  case h_1 id p hcall =>
    split at hs
    case h_1 hrefused =>
      cases hs
      refine steps_of_kept ?_ (h.decisionsTo (h.decisions.drop i)
        fun _ _ _ hu => hu)
        ⟨(Queue.drop_exact_iff h.decisions hex.1 hcall).2 rfl, hex.2⟩
      intro id' p' hcall' ⟨r, hr⟩
      rw [hcall] at hcall'
      cases hcall'
      rw [hrefused] at hr
      cases hr
    case h_2 tables decisionId hrecorded =>
      cases hs
      have hguard : Single s w (.recordDecision db i now)
          ↔ id ∉ w.decisions.records.map Prod.fst := by
        constructor
        · exact fun hg => hg id p hcall ⟨_, hrecorded⟩
        · intro hfresh id' p' hcall' _
          rw [hcall] at hcall'
          cases hcall'
          exact hfresh
      refine ⟨?_, fun hg => ?_⟩
      · rw [hguard]
        exact (and_iff_left hex.2).trans (Queue.noted_exact_iff hex.1 hcall)
      · exact
          { decisions := h.decisions.noted hcall hex.1 (hguard.1 hg)
            outcomes := h.outcomes
            begun := h.begun
            passages := h.passages
            outcomesBegun := h.outcomesBegun }
  case h_2 => cases hs

theorem steps_acceptDecision
    (hs : happen s w (.acceptDecision i now) = some w') :
    Steps s w (.acceptDecision i now) w' := by
  have hs : acceptDecision w i now = some w' := hs
  unfold acceptDecision at hs
  split at hs
  case h_1 id decisionId hcall =>
    cases hs
    obtain ⟨hexact, hkept⟩ := hex.1.accept h.decisions hcall now
    refine steps_of_kept trivial (h.decisionsTo hkept ?_) ⟨hexact, hex.2⟩
    exact fun _ _ hb hu => hu.mark hb (fun _ => rfl) (fun _ => rfl)
  case h_2 => cases hs

theorem steps_failDecision (hs : happen s w (.failDecision i) = some w') :
    Steps s w (.failDecision i) w' := by
  obtain ⟨c, hcall, rfl⟩ := Option.map_eq_some_iff.1 hs
  refine ⟨?_, fun _ => h.decisionsTo (h.decisions.drop i) fun _ _ _ hu => hu⟩
  refine (and_iff_left hex.2).trans
    ((Queue.drop_exact_iff h.decisions hex.1 hcall).trans ?_)
  constructor
  · intro hnone c' hcall'
    rw [hcall] at hcall'
    cases hcall'
    exact hnone
  · exact fun hguard => hguard c hcall

theorem steps_rejectDecision {id : Id}
    (hs : happen s w (.rejectDecision id now) = some w') :
    Steps s w (.rejectDecision id now) w' := by
  cases hs
  unfold rejectDecision
  split
  case h_1 => exact steps_of_kept trivial h hex
  case h_2 q hq =>
    obtain ⟨hexact, hkept⟩ := hex.1.reject h.decisions hq
    exact steps_of_kept trivial
      (h.decisionsTo hkept fun _ _ hb hu => hu.reject hb hq)
      ⟨hexact, hex.2⟩

theorem steps_checkOutcome {id : Id} {edited : Option OutcomeDraft}
    (hs : happen s w (.checkOutcome db id edited) = some w') :
    Steps s w (.checkOutcome db id edited) w' := by
  cases hs
  unfold checkOutcome
  split
  case h_1 => exact steps_of_kept trivial h hex
  case h_2 row hrow =>
    split
    case h_1 => exact steps_of_kept trivial h hex
    case h_2 =>
      exact steps_of_kept trivial
        (h.outcomesTo (h.outcomes.enter (Queue.check_ok hrow).1 _))
        ⟨hex.1, hex.2.enter _ _⟩

theorem steps_recordOutcome
    (hs : happen s w (.recordOutcome db i now) = some w') :
    Steps s w (.recordOutcome db i now) w' := by
  have hs : recordNextOutcome w db i now = some w' := hs
  unfold recordNextOutcome at hs
  split at hs
  case h_1 id p hcall =>
    split at hs
    case h_1 hrefused =>
      cases hs
      refine steps_of_kept ?_ (h.outcomesTo (h.outcomes.drop i))
        ⟨hex.1, (Queue.drop_exact_iff h.outcomes hex.2 hcall).2 rfl⟩
      intro id' p' hcall' ⟨r, hr⟩
      rw [hcall] at hcall'
      cases hcall'
      rw [hrefused] at hr
      cases hr
    case h_2 tables outcomeId hrecorded =>
      cases hs
      have hguard : Single s w (.recordOutcome db i now)
          ↔ id ∉ w.outcomes.records.map Prod.fst := by
        constructor
        · exact fun hg => hg id p hcall ⟨_, hrecorded⟩
        · intro hfresh id' p' hcall' _
          rw [hcall] at hcall'
          cases hcall'
          exact hfresh
      refine ⟨?_, fun hg => ?_⟩
      · rw [hguard]
        exact (and_iff_right hex.1).trans (Queue.noted_exact_iff hex.2 hcall)
      · exact
          { decisions := h.decisions
            outcomes := h.outcomes.noted hcall hex.2 (hguard.1 hg)
            begun := h.begun
            passages := h.passages
            outcomesBegun := h.outcomesBegun }
  case h_2 => cases hs

theorem steps_acceptOutcome (hs : happen s w (.acceptOutcome i now) = some w') :
    Steps s w (.acceptOutcome i now) w' := by
  have hs : acceptOutcome w i now = some w' := hs
  unfold acceptOutcome at hs
  split at hs
  case h_1 id outcomeId hcall =>
    cases hs
    obtain ⟨hexact, hkept⟩ := hex.2.accept h.outcomes hcall now
    exact steps_of_kept trivial (h.outcomesTo hkept) ⟨hex.1, hexact⟩
  case h_2 => cases hs

theorem steps_failOutcome (hs : happen s w (.failOutcome i) = some w') :
    Steps s w (.failOutcome i) w' := by
  obtain ⟨c, hcall, rfl⟩ := Option.map_eq_some_iff.1 hs
  refine ⟨?_, fun _ => h.outcomesTo (h.outcomes.drop i)⟩
  refine (and_iff_right hex.1).trans
    ((Queue.drop_exact_iff h.outcomes hex.2 hcall).trans ?_)
  constructor
  · intro hnone c' hcall'
    rw [hcall] at hcall'
    cases hcall'
    exact hnone
  · exact fun hguard => hguard c hcall

theorem steps_rejectOutcome {id : Id}
    (hs : happen s w (.rejectOutcome id now) = some w') :
    Steps s w (.rejectOutcome id now) w' := by
  cases hs
  unfold rejectOutcome
  split
  case h_1 => exact steps_of_kept trivial h hex
  case h_2 q hq =>
    obtain ⟨hexact, hkept⟩ := hex.2.reject h.outcomes hq
    exact steps_of_kept trivial (h.outcomesTo hkept) ⟨hex.1, hexact⟩

theorem steps {e : Event} (hs : happen s w e = some w') : Steps s w e w' := by
  cases e with
  | findPassages => exact steps_findPassages h hex hs
  | proposeDecisions => exact steps_proposeDecisions h hex hs
  | queueDecision => exact steps_queueDecision h hex hs
  | stopDecisions i =>
    cases hs
    exact steps_of_kept trivial (h.decisionRunGone i) hex
  | openDecisions => exact steps_openDecisions h hex hs
  | findCandidates => exact steps_findCandidates h hex hs
  | judgeCandidate => exact steps_judgeCandidate h hex hs
  | queueOutcome => exact steps_queueOutcome h hex hs
  | stopOutcomes i =>
    cases hs
    exact steps_of_kept trivial (h.outcomeRunGone i) hex
  | checkDecision => exact steps_checkDecision h hex hs
  | recordDecision => exact steps_recordDecision h hex hs
  | acceptDecision => exact steps_acceptDecision h hex hs
  | failDecision => exact steps_failDecision h hex hs
  | rejectDecision => exact steps_rejectDecision h hex hs
  | checkOutcome => exact steps_checkOutcome h hex hs
  | recordOutcome => exact steps_recordOutcome h hex hs
  | acceptOutcome => exact steps_acceptOutcome h hex hs
  | failOutcome => exact steps_failOutcome h hex hs
  | rejectOutcome => exact steps_rejectOutcome h hex hs

end

-- ======== the runs

/-- Suggestions are reviewed once, throughout a run, exactly when no call
records twice on account of one suggestion or stops between its record and
its mark, and no run over outcomes queues a pair reviewed before it
began. -/
theorem reviewed_once_iff (s : Setup) (t : Tables) (events : List Event) :
    (reviewing s).Always ReviewedOnce (.start t) events
      ↔ (reviewing s).EveryStep (Single s) (.start t) events := by
  refine Machine.always_iff_everyStep (fun w => Sound w ∧ ReviewedOnce w)
    (fun _ h => h.2) ?_ ?_ ⟨sound_start t, reviewedOnce_start t⟩
  · intro w e w' es h hs hguard
    obtain ⟨w₁, hw₁, heq⟩ := Option.map_eq_some_iff.1 hs
    cases heq
    have hsteps := steps h.1 h.2 hw₁
    exact ⟨(hsteps.2 hguard).tick, hsteps.1.2 hguard⟩
  · intro w e w' es h hs hex
    obtain ⟨w₁, hw₁, heq⟩ := Option.map_eq_some_iff.1 hs
    cases heq
    exact (steps h.1 h.2 hw₁).1.1 hex

-- ------ rejected, and asked again

/-- Python strings that are ASCII, and a model with a threshold. -/
def plainSetup : Setup where
  casefold := id
  lower := id
  minConfidence := 6 / 10
  modelId := "model"
  decisionVersion := "suggest-v1:model"
  outcomeVersion := "outcome-v1:model"

/-- One open decision. -/
def decided : Tables :=
  { Tables.empty with
    decisions :=
      [{ id := 0
         question := "Which store?".toList
         chosen := "Postgres".toList
         reasoning := none
         confidence := none
         confidenceHorizon := .unknown
         expectedOutcome := none
         decidedAt := 0
         decidedAtSource := .declared
         status := .opened
         createdAt := 0
         updatedAt := 0
         writtenIn := 0 }]
    nextId := 1
    written := 1 }

/-- One note, a day later. -/
def dayAfter : Db where
  sources := [{ id := 1, kind := .filesystem, name := "notes" }]
  memories :=
    [{ id := 2
       sourceId := 1
       externalKey := "notes.md"
       version := 1
       isCurrent := true
       contentHash := ""
       normalizedHash := none
       kind := .note
       title := none
       content := some "It holds.".toList
       occurredAt := some 86400000000
       occurredAtSource := .filesystem
       ingestedAt := 0
       mediaType := none
       parsed := none
       deletedAt := none
       entityExtractorVersion := none
       relationshipExtractorVersion := none }]

/-- The model takes it for an outcome. -/
def outcomeFound : Judgement where
  answer := "yes".toList
  verdict := some "worked".toList
  description := some "It holds".toList
  rationale := none
  confidence := 9 / 10

/-- A run over outcomes, from its first read to its end. -/
def outcomePass : List Event :=
  [.openDecisions none none 10,
    .findCandidates 0 dayAfter dayAfter dayAfter dayAfter,
    .judgeCandidate 0 (some outcomeFound), .queueOutcome 0 0,
    .stopOutcomes 0]

/-- A run, the rejection of what it proposed, and another run. -/
def rejectedThenAsked : List Event :=
  outcomePass ++ [.rejectOutcome 0 0] ++ outcomePass

/-- A pair was queued by a run that began after its review. -/
def askedAgain (q : OutcomeQueue) : Bool :=
  q.rows.any fun r => q.rows.any fun again =>
    decide (again.key = r.key)
      && r.reviewedIn.any fun reviewed => decide (reviewed < again.begun)

/-- The rejected pair is proposed a second time: the search for candidates
does not read the queue, and only pending rows conflict. -/
theorem not_reviewed_once :
    ¬ ∀ (s : Setup) (t : Tables) (events : List Event),
      (reviewing s).Always ReviewedOnce (.start t) events := by
  intro hall
  have hrun : ((reviewing plainSetup).run (.start decided)
      rejectedThenAsked).map (fun r => askedAgain r.1.outcomes)
      = some true := by decide +kernel
  obtain ⟨⟨w, es⟩, hrun, hasked⟩ := Option.map_eq_some_iff.1 hrun
  have honce := (hall plainSetup decided rejectedThenAsked).last hrun
  obtain ⟨r, hr, hasked⟩ := List.any_eq_true.1 hasked
  obtain ⟨again, hagain, hasked⟩ := List.any_eq_true.1 hasked
  obtain ⟨hkey, hasked⟩ := Bool.and_eq_true_iff.1 hasked
  obtain ⟨reviewed, hreviewed, hlate⟩ := Option.any_eq_true _ _ |>.1 hasked
  exact absurd (of_decide_eq_true hlate)
    (Nat.not_lt.2 (honce.2.asked r hr again hagain
      (of_decide_eq_true hkey) reviewed hreviewed))

end Decisions

end MemoryOS
