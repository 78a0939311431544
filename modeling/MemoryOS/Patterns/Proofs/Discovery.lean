/-
Patterns on record (`application/patterns.py: discover`, `_upsert`, `dismiss`).

A run of the detectors refreshes what it finds again and adds what it finds for the
first time; a pattern that it does not find any more keeps the counts of the run
that last found it. So what is on record is what the run found exactly when the run
found again everything that was on record (`discovered_iff`).
-/
import MemoryOS.Lib.KeyedLog
import MemoryOS.Patterns.Discovery
import MemoryOS.Patterns.Proofs.Detectors

namespace MemoryOS.Patterns

open Lib

variable {python : Python} {corpus : Corpus} {minSupport : Int} {windowDays : ℚ}
  {s s' : Store} {c : Candidate} {p : Pattern} {cs : List Candidate}

-- ====== statement vocabulary

/-- The pattern is on record with what the candidate says. -/
structure OnRecord (corpus : Corpus) (minSupport : Nat) (c : Candidate)
    (p : Pattern) : Prop where
  key : p.key = c.key
  statement : p.statement = c.statement
  support : p.supportCount = c.supporting.length
  contradiction : p.contradictionCount = c.contradicting.length
  confidence : p.confidence
    = patternConfidence c.supporting.length c.contradicting.length minSupport
  first : p.firstObserved = (supportDates corpus c).min?
  last : p.lastObserved = (supportDates corpus c).max?
  evidence : p.evidence = c.evidence

/-- The candidate of a calibration band is directed by the cases of the band. -/
def BandDirected (corpus : Corpus) (c : Candidate) : Prop :=
  ∃ band : ℚ × ℚ, c.subjectKey = .text (bandKey band)
    ∧ (c.detector = "decision_calibration"
        ∧ Directed c (decisionCases (bandDecisions corpus band))
          (Decisions.stated ((bandDecisions corpus band).map (·.1.confidence)))
      ∨ c.detector = "assumption_calibration"
        ∧ Directed c (assumptionCases (bandAssumptions corpus band))
          (Decisions.stated ((bandAssumptions corpus band).map (·.confidence))))

/-- What is on record, and nobody dismissed, is what this run found: of each
candidate that clears the bar one pattern, and no other. The bands support their
statements, and finding it all again changes nothing. -/
structure MeetsBar (python : Python) (corpus : Corpus) (minSupport : Int)
    (windowDays : ℚ) (s : Store) : Prop where
  apart : (s.patterns.map Pattern.key).Nodup
  recorded : ∀ p ∈ s.patterns, p.dismissal = none →
    ∃ c ∈ allDetectors python corpus windowDays,
      clears minSupport c ∧ OnRecord corpus minSupport.toNat c p
  written : ∀ c ∈ allDetectors python corpus windowDays, clears minSupport c →
    c.key ∉ dismissed s →
      ∃ p ∈ s.patterns, p.dismissal = none ∧ OnRecord corpus minSupport.toNat c p
  directed : ∀ c ∈ detectCalibrationPatterns python corpus, BandDirected corpus c
  again : discover python s corpus minSupport windowDays = .ok s

/-- What is on record, and nobody dismissed, is found again. -/
def Current (python : Python) (corpus : Corpus) (minSupport : Int) (windowDays : ℚ)
    (s : Store) : Prop :=
  ∀ p ∈ s.patterns, p.dismissal = none →
    ∃ c ∈ allDetectors python corpus windowDays,
      clears minSupport c ∧ c.key = p.key

-- ======= one write

theorem patterns_upsert (corpus : Corpus) (minSupport : Nat) (s : Store)
    (c : Candidate) : (upsert corpus minSupport s c).patterns
      = Upsert.upsert Pattern.key c.key (refreshed corpus minSupport c)
        (created corpus minSupport c s.nextId) s.patterns := by
  unfold upsert Upsert.upsert
  split
  case isTrue => rfl
  case isFalse => rfl

theorem mem_upsert_other {m : Nat} (hp : p.key ≠ c.key) :
    p ∈ (upsert corpus m s c).patterns ↔ p ∈ s.patterns := by
  rw [patterns_upsert]
  exact Upsert.mem_upsert_other hp (fun _ h => h) rfl

theorem refreshed_of_upsert {m : Nat} (hp : p.key = c.key)
    (hmem : p ∈ (upsert corpus m s c).patterns) : refreshed corpus m c p = p := by
  rw [patterns_upsert] at hmem
  rcases Upsert.mem_upsert_key hp hmem with ⟨q, -, -, rfl⟩ | ⟨-, rfl⟩
  · rfl
  · rfl

theorem mem_keys_upsert {m : Nat} {k : String × SubjectKey} :
    k ∈ (upsert corpus m s c).patterns.map Pattern.key
      ↔ k ∈ s.patterns.map Pattern.key ∨ k = c.key := by
  have hkeys := @Upsert.keys_upsert _ _ _ Pattern.key c.key (refreshed corpus m c)
    (created corpus m c s.nextId) s.patterns (fun _ h => h) rfl
  rw [patterns_upsert, hkeys]
  split
  case isTrue hc => exact ⟨.inl, fun h => h.elim id fun heq => heq ▸ hc⟩
  case isFalse => rw [List.mem_append, List.mem_singleton]

theorem nodup_keys_upsert {m : Nat} (h : (s.patterns.map Pattern.key).Nodup) :
    ((upsert corpus m s c).patterns.map Pattern.key).Nodup := by
  rw [patterns_upsert]
  exact Upsert.nodup_upsert (fun _ h => h) rfl h

theorem dismissed_upsert {m : Nat} :
    dismissed (upsert corpus m s c) = dismissed s := by
  unfold dismissed upsert
  split
  case isTrue =>
    rw [List.filter_map, List.map_map]
    have hkeeps : (fun p : Pattern => p.dismissal.isSome) ∘ (fun p =>
        if p.key = c.key then refreshed corpus m c p else p)
        = fun p => p.dismissal.isSome := by
      funext p
      show (if _ then _ else _ : Pattern).dismissal.isSome = _
      split <;> rfl
    rw [hkeeps]
    apply List.map_congr_left
    intro p _
    show (if _ then _ else _ : Pattern).key = _
    split <;> rfl
  case isFalse =>
    rw [List.filter_append, List.map_append]
    exact List.append_nil _

theorem upsert_eq_self {m : Nat} (h : c.key ∈ s.patterns.map Pattern.key)
    (hrows : ∀ p ∈ s.patterns, p.key = c.key → refreshed corpus m c p = p) :
    upsert corpus m s c = s := by
  have hpatterns : (upsert corpus m s c).patterns = s.patterns := by
    rw [patterns_upsert]
    exact Upsert.upsert_eq_self h hrows
  have hnext : (upsert corpus m s c).nextId = s.nextId := by
    unfold upsert
    rw [if_pos (Upsert.any_key_iff.2 h)]
  calc upsert corpus m s c
      = ⟨(upsert corpus m s c).patterns, (upsert corpus m s c).nextId⟩ := rfl
    _ = s := by rw [hpatterns, hnext]

-- ====== the writes

theorem writeAll_cons (h : writeAll corpus minSupport s (c :: cs) = .ok s') :
    0 < minSupport
      ∧ writeAll corpus minSupport (upsert corpus minSupport.toNat s c) cs = .ok s' := by
  unfold writeAll at h
  split at h
  case isTrue => cases h
  case isFalse hzero =>
    split at h
    case isTrue => cases h
    case isFalse hneg => exact ⟨by omega, h⟩

theorem writeAll_ok (hpos : 0 < minSupport) (s : Store) (cs : List Candidate) :
    ∃ s', writeAll corpus minSupport s cs = .ok s' := by
  induction cs generalizing s with
  | nil => exact ⟨s, rfl⟩
  | cons c rest ih =>
    unfold writeAll
    rw [if_neg (by omega), if_neg (by omega)]
    exact ih _

theorem mem_of_writeAll (h : writeAll corpus minSupport s cs = .ok s')
    (hcs : (cs.map Candidate.key).Nodup) (hp : p ∈ s'.patterns) :
    p ∈ s.patterns ∧ p.key ∉ cs.map Candidate.key
      ∨ ∃ c ∈ cs, p.key = c.key ∧ refreshed corpus minSupport.toNat c p = p := by
  induction cs generalizing s with
  | nil =>
    cases h
    exact .inl ⟨hp, List.not_mem_nil⟩
  | cons c rest ih =>
    obtain ⟨hc, hrest⟩ := List.nodup_cons.1 hcs
    rcases ih (writeAll_cons h).2 hrest with ⟨hmem, hother⟩ | ⟨d, hd, hp⟩
    · by_cases hkey : p.key = c.key
      · exact .inr ⟨c, List.mem_cons_self, hkey, refreshed_of_upsert hkey hmem⟩
      · exact .inl ⟨(mem_upsert_other hkey).1 hmem, fun hmem =>
          (List.mem_cons.1 hmem).elim hkey hother⟩
    · exact .inr ⟨d, List.mem_cons_of_mem c hd, hp⟩

theorem mem_writeAll_other (h : writeAll corpus minSupport s cs = .ok s')
    (hp : p ∈ s.patterns) (hother : p.key ∉ cs.map Candidate.key) :
    p ∈ s'.patterns := by
  induction cs generalizing s with
  | nil =>
    cases h
    exact hp
  | cons c rest ih =>
    obtain ⟨hc, hrest⟩ := not_or.1 (mt List.mem_cons.2 hother)
    exact ih (writeAll_cons h).2 ((mem_upsert_other hc).2 hp) hrest

theorem mem_keys_writeAll {k : String × SubjectKey}
    (h : writeAll corpus minSupport s cs = .ok s') :
    k ∈ s'.patterns.map Pattern.key
      ↔ k ∈ s.patterns.map Pattern.key ∨ k ∈ cs.map Candidate.key := by
  induction cs generalizing s with
  | nil =>
    cases h
    exact (or_iff_left List.not_mem_nil).symm
  | cons c rest ih =>
    rw [ih (writeAll_cons h).2, mem_keys_upsert, or_assoc, List.map_cons,
      List.mem_cons]

theorem nodup_keys_writeAll (h : writeAll corpus minSupport s cs = .ok s')
    (hkeys : (s.patterns.map Pattern.key).Nodup) :
    (s'.patterns.map Pattern.key).Nodup := by
  induction cs generalizing s with
  | nil =>
    cases h
    exact hkeys
  | cons c rest ih => exact ih (writeAll_cons h).2 (nodup_keys_upsert hkeys)

theorem dismissed_writeAll (h : writeAll corpus minSupport s cs = .ok s') :
    dismissed s' = dismissed s := by
  induction cs generalizing s with
  | nil =>
    cases h
    rfl
  | cons c rest ih => rw [ih (writeAll_cons h).2, dismissed_upsert]

theorem writeAll_eq_self (hpos : cs ≠ [] → 0 < minSupport)
    (h : ∀ c ∈ cs, c.key ∈ s.patterns.map Pattern.key
      ∧ ∀ p ∈ s.patterns, p.key = c.key →
        refreshed corpus minSupport.toNat c p = p) :
    writeAll corpus minSupport s cs = .ok s := by
  induction cs with
  | nil => rfl
  | cons c rest ih =>
    obtain ⟨⟨hkey, hrows⟩, hrest⟩ := List.forall_mem_cons.1 h
    have hminimum := hpos (List.cons_ne_nil c rest)
    unfold writeAll
    rw [if_neg (by omega), if_neg (by omega), upsert_eq_self hkey hrows]
    exact ih (fun _ => hminimum) hrest

-- ========= one run

theorem mem_dismissed {k : String × SubjectKey} :
    k ∈ dismissed s ↔ ∃ p ∈ s.patterns, p.dismissal.isSome ∧ p.key = k := by
  unfold dismissed
  rw [List.mem_map]
  exact exists_congr fun p => by rw [List.mem_filter, and_assoc]

theorem not_mem_dismissed (hkeys : (s.patterns.map Pattern.key).Nodup)
    (hp : p ∈ s.patterns) (hnone : p.dismissal = none) : p.key ∉ dismissed s := by
  intro hmem
  obtain ⟨q, hq, hsome, hkey⟩ := mem_dismissed.1 hmem
  rw [List.inj_on_of_nodup_map hkeys hq hp hkey, hnone] at hsome
  cases hsome

theorem dismissal_eq_none (hp : p ∈ s.patterns) (h : p.key ∉ dismissed s) :
    p.dismissal = none := by
  cases hdismissal : p.dismissal with
  | none => rfl
  | some d =>
    refine absurd (mem_dismissed.2 ⟨p, hp, ?_, rfl⟩) h
    rw [hdismissal]
    rfl

theorem mem_emitted {candidates : List Candidate} :
    c ∈ emitted minSupport s candidates
      ↔ c ∈ candidates ∧ c.key ∉ dismissed s ∧ clears minSupport c = true := by
  unfold emitted
  rw [List.mem_filter, Bool.and_eq_true, decide_eq_true_eq]

theorem linked_eq_self {evidence : List EvidenceItem}
    (h : (evidence.map EvidenceItem.link).Nodup) : linked evidence = evidence := by
  unfold linked
  rw [DistinctOn.sieve_eq, List.filterMap_some]
  exact DistinctOn.distinctOn_eq_self h

theorem onRecord_of_refreshed {m : Nat}
    (hlinks : (c.evidence.map EvidenceItem.link).Nodup) (hkey : p.key = c.key)
    (h : refreshed corpus m c p = p) : OnRecord corpus m c p where
  key := hkey
  statement := (congrArg Pattern.statement h).symm
  support := (congrArg Pattern.supportCount h).symm
  contradiction := (congrArg Pattern.contradictionCount h).symm
  confidence := (congrArg Pattern.confidence h).symm
  first := (congrArg Pattern.firstObserved h).symm
  last := (congrArg Pattern.lastObserved h).symm
  evidence := (congrArg Pattern.evidence h).symm.trans (linked_eq_self hlinks)

theorem nodup_emitted : ((emitted minSupport s (allDetectors python corpus
    windowDays)).map Candidate.key).Nodup :=
  (List.filter_sublist.map _).nodup (nodup_candidates python corpus windowDays)

theorem refreshed_of_emitted
    (h : discover python s corpus minSupport windowDays = .ok s')
    (hc : c ∈ emitted minSupport s (allDetectors python corpus windowDays))
    (hp : p ∈ s'.patterns) (hkey : p.key = c.key) :
    refreshed corpus minSupport.toNat c p = p := by
  rcases mem_of_writeAll h nodup_emitted hp with ⟨-, hother⟩ | ⟨d, hd, hdkey, hrow⟩
  · exact absurd (List.mem_map.2 ⟨c, hc, hkey.symm⟩) hother
  · have heq : d = c :=
      List.inj_on_of_nodup_map nodup_emitted hd hc (hdkey.symm.trans hkey)
    rwa [heq] at hrow

theorem discover_again (h : discover python s corpus minSupport windowDays = .ok s') :
    discover python s' corpus minSupport windowDays = .ok s' := by
  have hsame : emitted minSupport s' (allDetectors python corpus windowDays)
      = emitted minSupport s (allDetectors python corpus windowDays) := by
    unfold emitted
    rw [dismissed_writeAll h]
  unfold discover
  rw [hsame]
  apply writeAll_eq_self
  · intro hne
    unfold discover at h
    cases hcs : emitted minSupport s (allDetectors python corpus windowDays) with
    | nil => exact absurd hcs hne
    | cons c rest =>
      rw [hcs] at h
      exact (writeAll_cons h).1
  · intro c hc
    refine ⟨(mem_keys_writeAll h).2 (.inr (List.mem_map_of_mem hc)), ?_⟩
    exact fun p hp hkey => refreshed_of_emitted h hc hp hkey

theorem written_of_discover
    (h : discover python s corpus minSupport windowDays = .ok s')
    (hc : c ∈ allDetectors python corpus windowDays) (hclears : clears minSupport c)
    (hkey : c.key ∉ dismissed s') :
    ∃ p ∈ s'.patterns, p.dismissal = none ∧ OnRecord corpus minSupport.toNat c p := by
  have hemitted : c ∈ emitted minSupport s (allDetectors python corpus windowDays) :=
    mem_emitted.2 ⟨hc, dismissed_writeAll h ▸ hkey, hclears⟩
  obtain ⟨p, hp, hpkey⟩ := List.mem_map.1 ((mem_keys_writeAll h).2
    (.inr (List.mem_map_of_mem hemitted)))
  refine ⟨p, hp, dismissal_eq_none hp (hpkey ▸ hkey), ?_⟩
  exact onRecord_of_refreshed (nodup_links hc) hpkey
    (refreshed_of_emitted h hemitted hp hpkey)

theorem recorded_of_current (hkeys : (s.patterns.map Pattern.key).Nodup)
    (h : discover python s corpus minSupport windowDays = .ok s')
    (hcurrent : Current python corpus minSupport windowDays s)
    (hp : p ∈ s'.patterns) (hnone : p.dismissal = none) :
    ∃ c ∈ allDetectors python corpus windowDays,
      clears minSupport c ∧ OnRecord corpus minSupport.toNat c p := by
  rcases mem_of_writeAll h nodup_emitted hp with ⟨hold, hother⟩ | ⟨c, hc, hkey, hrow⟩
  · obtain ⟨c, hc, hclears, hkey⟩ := hcurrent p hold hnone
    have hemitted : c ∈ emitted minSupport s (allDetectors python corpus windowDays) :=
      mem_emitted.2 ⟨hc, hkey ▸ not_mem_dismissed hkeys hold hnone, hclears⟩
    exact absurd (List.mem_map.2 ⟨c, hemitted, hkey⟩) hother
  · obtain ⟨hc, -, hclears⟩ := mem_emitted.1 hc
    exact ⟨c, hc, hclears, onRecord_of_refreshed (nodup_links hc) hkey hrow⟩

theorem current_of_recorded
    (h : discover python s corpus minSupport windowDays = .ok s')
    (hrecorded : ∀ p ∈ s'.patterns, p.dismissal = none →
      ∃ c ∈ allDetectors python corpus windowDays,
        clears minSupport c ∧ OnRecord corpus minSupport.toNat c p) :
    Current python corpus minSupport windowDays s := by
  intro p hp hnone
  by_cases hkey : p.key ∈ (emitted minSupport s (allDetectors python corpus
      windowDays)).map Candidate.key
  · obtain ⟨c, hc, hckey⟩ := List.mem_map.1 hkey
    obtain ⟨hc, -, hclears⟩ := mem_emitted.1 hc
    exact ⟨c, hc, hclears, hckey⟩
  · obtain ⟨c, hc, hclears, hrecord⟩ :=
      hrecorded p (mem_writeAll_other h hp hkey) hnone
    exact ⟨c, hc, hclears, hrecord.key.symm⟩

-- ====== all the runs

theorem nodup_keys_dismiss {patternId : Id} {reason : Text} {now : Timestamp}
    (h : (s.patterns.map Pattern.key).Nodup) :
    ((dismiss s patternId reason now).patterns.map Pattern.key).Nodup := by
  unfold dismiss
  split
  case isTrue => exact h
  case isFalse =>
    rw [List.map_map]
    refine (List.map_congr_left fun p _ => ?_) ▸ h
    show Pattern.key p = (if _ then _ else _ : Pattern).key
    split <;> rfl

theorem nodup_of_run {acts : List Action} {evs : List Unit}
    (hrun : (machine python).run {} acts = some (s, evs)) :
    (s.patterns.map Pattern.key).Nodup := by
  refine @Machine.run_invariant _ _ _ _ (fun s => (s.patterns.map Pattern.key).Nodup)
    ?_ _ _ _ _ List.nodup_nil hrun
  intro s a s' es hs hstep
  cases a with
  | discover corpus minSupport windowDays =>
    unfold machine at hstep
    simp only at hstep
    split at hstep
    case h_1 =>
      cases hstep
      exact hs
    case h_2 hdiscover =>
      cases hstep
      exact nodup_keys_writeAll hdiscover hs
  | dismiss patternId reason now =>
    cases hstep
    exact nodup_keys_dismiss hs

/-- After every run of calls and one more `discover`, the patterns on record that
nobody dismissed are what that `discover` found exactly when it found again all that
was on record before it. -/
theorem discovered_iff {acts : List Action} {evs : List Unit}
    (hrun : (machine python).run {} acts = some (s, evs))
    (h : discover python s corpus minSupport windowDays = .ok s') :
    MeetsBar python corpus minSupport windowDays s'
      ↔ Current python corpus minSupport windowDays s := by
  have hkeys := nodup_of_run hrun
  constructor
  · intro hbar
    exact current_of_recorded h hbar.recorded
  · intro hcurrent
    exact
      { apart := nodup_keys_writeAll h hkeys
        recorded := fun p => recorded_of_current hkeys h hcurrent
        written := fun c => written_of_discover h
        directed := fun c => directed_calibration
        again := discover_again h }

-- ------ three decisions

/-- Three decisions, all of one status. -/
def three (status : Decisions.DecisionStatus) : Corpus where
  decisions := [1, 2, 3].map fun id =>
    { id := id
      question := "which queue".toList
      chosen := "the broker".toList
      confidence := none
      confidenceHorizon := .unknown
      status := status
      decidedAt := id }
  assumptions := []
  outcomes := []
  decisionKeys := by
    rw [List.map_map]
    exact (by decide : ([1, 2, 3] : List Id).Nodup)
  assumptionKeys := List.nodup_nil
  outcomeKeys := List.nodup_nil

/-- Neither function is called on three decisions without a confidence. -/
def uncalled : Python := ⟨id, id⟩

theorem three_reversed : ∃ c ∈ detectChoicePatterns (three .reversed),
    clears 3 c = true ∧ c.detector = "reversal_rate" := by
  decide

theorem mem_choice_of_detector (hc : c ∈ allDetectors python corpus windowDays)
    (hdetector : c.detector = "reversal_rate") : c ∈ detectChoicePatterns corpus := by
  rcases List.mem_append.1 hc with hc | hc
  · rcases List.mem_append.1 hc with hc | hc
    · rcases List.mem_append.1 hc with hc | hc
      · rw [detector_assumption hc] at hdetector
        exact absurd hdetector (by decide)
      · rw [detector_timing hc] at hdetector
        exact absurd hdetector (by decide)
    · exact hc
  · rcases detector_calibration hc with hband | hband
    · rw [hband] at hdetector
      exact absurd hdetector (by decide)
    · rw [hband] at hdetector
      exact absurd hdetector (by decide)

theorem run_discover (h : discover python {} corpus minSupport windowDays = .ok s) :
    (machine python).run {} [.discover corpus minSupport windowDays]
      = some (s, []) := by
  have hstep : (machine python).step {} (.discover corpus minSupport windowDays)
      = some (s, []) := by
    unfold machine
    simp only [h]
  exact Machine.run_cons hstep (Machine.run_nil (machine python) s)

theorem three_on_record (h : discover python {} (three .reversed) 3 90 = .ok s) :
    ∃ p ∈ s.patterns, p.dismissal = none ∧ p.detector = "reversal_rate" := by
  obtain ⟨c, hc, hclears, hdetector⟩ := three_reversed
  have hmem : c ∈ allDetectors python (three .reversed) 90 :=
    List.mem_append_left _ (List.mem_append_right _ hc)
  have hkey : c.key ∉ dismissed s := by
    rw [dismissed_writeAll h]
    exact List.not_mem_nil
  obtain ⟨p, hp, hnone, hrecord⟩ := written_of_discover h hmem hclears hkey
  exact ⟨p, hp, hnone, (congrArg Prod.fst hrecord.key).trans hdetector⟩

theorem discovered_iff_twice : ∃ s s',
    (machine uncalled).run {} [.discover (three .reversed) 3 90] = some (s, [])
      ∧ discover uncalled s (three .reversed) 3 90 = .ok s'
      ∧ (∃ p ∈ s'.patterns, p.dismissal = none)
      ∧ MeetsBar uncalled (three .reversed) 3 90 s' := by
  obtain ⟨s, h⟩ := @writeAll_ok (three .reversed) 3 (by decide) {}
    (emitted 3 {} (allDetectors uncalled (three .reversed) 90))
  have hrun := run_discover h
  have hsame := discover_again h
  obtain ⟨p, hp, hnone, -⟩ := three_on_record h
  refine ⟨s, s, hrun, hsame, ⟨p, hp, hnone⟩, (discovered_iff hrun hsame).2 ?_⟩
  exact current_of_recorded hsame fun p hp hnone =>
    recorded_of_current (nodup_of_run (Machine.run_nil (machine uncalled) {})) h
      (fun q hq => absurd hq List.not_mem_nil) hp hnone

/-- The three decisions were reversed, and a pattern says so; then they were settled
again, and the pattern still says so. -/
theorem not_discovered : ¬∀ (python : Python) (acts : List Action) (evs : List Unit)
    (s s' : Store) (corpus : Corpus) (minSupport : Int) (windowDays : ℚ),
      (machine python).run {} acts = some (s, evs) →
      discover python s corpus minSupport windowDays = .ok s' →
      MeetsBar python corpus minSupport windowDays s' := by
  intro hall
  obtain ⟨s, h⟩ := @writeAll_ok (three .reversed) 3 (by decide) {}
    (emitted 3 {} (allDetectors uncalled (three .reversed) 90))
  obtain ⟨s', h'⟩ := @writeAll_ok (three .settled) 3 (by decide) s
    (emitted 3 s (allDetectors uncalled (three .settled) 90))
  have hbar := hall _ _ _ _ _ _ _ _ (run_discover h) h'
  obtain ⟨p, hp, hnone, hdetector⟩ := three_on_record h
  obtain ⟨c, hc, -, hkey⟩ := current_of_recorded h' hbar.recorded p hp hnone
  have hchoice := mem_choice_of_detector hc
    ((congrArg Prod.fst hkey).trans hdetector)
  have hnil : detectChoicePatterns (three .settled) = [] := rfl
  rw [hnil] at hchoice
  exact absurd hchoice List.not_mem_nil

end MemoryOS.Patterns
