/-
One verdict per decision, everywhere (`application/patterns.py`,
`application/outcomes.py`, `application/assumptions.py`).

Each of the three readers takes a verdict of the decision's newest outcomes. Two
of them settle a tie on `observed_at` by `created_at`; `Corpus.latest_outcome`
leaves it to the order the rows were read in. So they agree, whatever that order
is, where the newest outcomes of a decision carry one verdict (`oneVerdict_iff`).
-/
import Mathlib.Data.List.Perm.Subperm
import MemoryOS.Decisions.Records
import MemoryOS.Patterns.Detectors

namespace MemoryOS

open Lib Lib.DistinctOn

namespace Patterns

open Decisions (OutcomeVerdict OutcomeRecord Ledger newestFirst latestRows
  latestVerdict latestOutcomes verdicts successRate tally)

-- ====== statement vocabulary

/-- What pattern discovery keeps of a row: `_Outcome`. -/
def row (o : OutcomeRecord) : OutcomeRow where
  id := o.id
  decisionId := o.decisionId
  verdict := o.verdict
  observedAt := o.observedAt

/-- An outcome of a decision, and none of it was observed later. -/
structure Newest (l : Ledger) (decisionId : Id) (o : OutcomeRecord) : Prop where
  mem : o ∈ l.outcomes
  decision : o.decisionId = decisionId
  last : ∀ other ∈ l.outcomes, other.decisionId = decisionId →
    other.observedAt ≤ o.observedAt

/-- The verdict of a decision's newest outcome, or none if it has no outcome. -/
def VerdictOf (l : Ledger) (decisionId : Id) : Option OutcomeVerdict → Prop
  | none => ∀ o ∈ l.outcomes, o.decisionId ≠ decisionId
  | some verdict => ∃ o, Newest l decisionId o ∧ o.verdict = verdict

/-- Every reader gives this verdict of a decision, whatever order it reads the
rows in. -/
structure Agreed (l : Ledger) (decisionId : Id)
    (verdict : Option OutcomeVerdict) : Prop where
  newest : VerdictOf l decisionId verdict
  patterns : ∀ corpus : Corpus, corpus.outcomes.Perm (l.outcomes.map row) →
    (corpus.latestOutcome decisionId).map (·.verdict) = verdict
  outcomes : ∀ reading, reading.Perm l.outcomes →
    (latestVerdict reading).lookup decisionId = verdict
  assumptions : ∀ reading ids, reading.Perm l.outcomes → decisionId ∈ ids →
    (latestOutcomes ids reading).lookup decisionId = verdict

/-- One verdict per decision, tallied as it is, and every decision counted. -/
structure OneVerdict (l : Ledger) : Prop where
  agreed : ∀ d ∈ l.decisions, ∃ verdict, Agreed l d verdict
  tallied : ∀ reading, reading.Perm l.outcomes → ∀ verdict,
    (successRate l.decisions.length (latestVerdict reading)).of verdict
      = (l.decisions.filter fun d =>
          decide ((latestVerdict reading).lookup d = some verdict)).length
  counted : ∀ reading, reading.Perm l.outcomes →
    let rate := successRate l.decisions.length (latestVerdict reading)
    rate.worked + rate.failed + rate.mixed + rate.tooEarly + rate.undecided
      = l.decisions.length

/-- The newest outcomes of a decision carry one verdict. -/
def Settled (l : Ledger) : Prop :=
  ∀ d a b, Newest l d a → Newest l d b → a.verdict = b.verdict

-- ====== the collapse

section
variable {l : Ledger} {reading : List OutcomeRecord} {d : Id} {o : OutcomeRecord}
  {rows : List OutcomeRecord}

theorem newestFirst_iff {a b : OutcomeRecord} : newestFirst a b = true
    ↔ a.decisionId < b.decisionId ∨ a.decisionId = b.decisionId
      ∧ (b.observedAt < a.observedAt
        ∨ a.observedAt = b.observedAt ∧ b.createdAt ≤ a.createdAt) := by
  simp [newestFirst]

theorem newestFirst_total (a b : OutcomeRecord) :
    newestFirst a b = true ∨ newestFirst b a = true := by
  rw [newestFirst_iff, newestFirst_iff]
  rcases lt_trichotomy a.decisionId b.decisionId with h | h | h
  · exact .inl (.inl h)
  · rcases lt_trichotomy a.observedAt b.observedAt with h' | h' | h'
    · exact .inr (.inr ⟨h.symm, .inl h'⟩)
    · rcases le_total a.createdAt b.createdAt with h'' | h''
      · exact .inr (.inr ⟨h.symm, .inr ⟨h'.symm, h''⟩⟩)
      · exact .inl (.inr ⟨h, .inr ⟨h', h''⟩⟩)
    · exact .inl (.inr ⟨h, .inl h'⟩)
  · exact .inr (.inl h)

theorem newestFirst_trans (a b c : OutcomeRecord) (hab : newestFirst a b = true)
    (hbc : newestFirst b c = true) : newestFirst a c = true := by
  rw [newestFirst_iff] at hab hbc ⊢
  rcases hab with h | ⟨h, h'⟩
  · left
    rcases hbc with k | ⟨k, -⟩
    · exact h.trans k
    · exact k ▸ h
  · rcases hbc with k | ⟨k, k'⟩
    · exact .inl (h ▸ k)
    · refine .inr ⟨h.trans k, ?_⟩
      rcases h' with h' | ⟨h', h''⟩
      · rcases k' with k' | ⟨k', -⟩
        · exact .inl (k'.trans h')
        · exact .inl (k' ▸ h')
      · rcases k' with k' | ⟨k', k''⟩
        · exact .inl (h' ▸ k')
        · exact .inr ⟨h'.trans k', k''.trans h''⟩

theorem pairwise_newestFirst (rows : List OutcomeRecord) :
    (rows.insertionSort fun a b => newestFirst a b = true).Pairwise
      fun a b => newestFirst a b = true := by
  have : Std.Total fun a b => newestFirst a b = true := ⟨newestFirst_total⟩
  have : IsTrans OutcomeRecord fun a b => newestFirst a b = true :=
    ⟨newestFirst_trans⟩
  exact List.pairwise_insertionSort _ rows

theorem mem_latestRows_sorted (h : o ∈ latestRows rows) : o ∈ rows :=
  (List.mem_insertionSort _).1 (mem_of_mem_distinctOn h)

theorem observedAt_le_of_mem_latestRows (h : o ∈ latestRows rows)
    {other : OutcomeRecord} (hother : other ∈ rows)
    (hdecision : other.decisionId = o.decisionId) :
    other.observedAt ≤ o.observedAt := by
  have hfirst : newestFirst o other = true :=
    le_of_mem_distinctOn (r := fun a b => newestFirst a b = true)
      (fun a => (newestFirst_total a a).elim id id)
        (pairwise_newestFirst rows) h
      ((List.mem_insertionSort _).2 hother) hdecision
  rw [newestFirst_iff] at hfirst
  rcases hfirst with hlt | ⟨-, hlt | ⟨heq, -⟩⟩
  · exact absurd hdecision (ne_of_gt hlt)
  · exact le_of_lt hlt
  · exact le_of_eq heq.symm

theorem exists_mem_latestRows (h : o ∈ rows) :
    ∃ kept ∈ latestRows rows, kept.decisionId = o.decisionId :=
  exists_mem_distinctOn ((List.mem_insertionSort _).2 h)

theorem lookup_verdicts : (verdicts rows).lookup d
    = (rows.find? fun o => decide (o.decisionId = d)).map (·.verdict) := by
  induction rows with
  | nil => rfl
  | cons o rest ih =>
    unfold verdicts at ih ⊢
    rw [List.map_cons, List.lookup_cons, List.find?_cons, ih]
    by_cases h : o.decisionId = d
    · simp [h]
    · have hd : (d == o.decisionId) = false := by
        rw [beq_eq_false_iff_ne]
        exact fun heq => h heq.symm
      simp [h, hd]

theorem verdictOf_lookup (hsub : ∀ o ∈ rows, o ∈ l.outcomes)
    (hall : ∀ o ∈ l.outcomes, o.decisionId = d → o ∈ rows) :
    VerdictOf l d ((verdicts (latestRows rows)).lookup d) := by
  rw [lookup_verdicts]
  cases hfind : (latestRows rows).find? fun o => decide (o.decisionId = d) with
  | none =>
    intro o ho hdecision
    obtain ⟨kept, hkept, heq⟩ := exists_mem_latestRows (hall o ho hdecision)
    have hnot := List.find?_eq_none.1 hfind kept hkept
    rw [heq, hdecision] at hnot
    exact hnot (decide_eq_true rfl)
  | some o =>
    have hmem := List.mem_of_find?_eq_some hfind
    have hdecision : o.decisionId = d := by simpa using List.find?_some hfind
    refine ⟨o, ⟨hsub o (mem_latestRows_sorted hmem), hdecision, ?_⟩, rfl⟩
    intro other hother heq
    exact observedAt_le_of_mem_latestRows hmem (hall other hother heq)
      (heq.trans hdecision.symm)

theorem verdictOf_latestVerdict (hread : reading.Perm l.outcomes) :
    VerdictOf l d ((latestVerdict reading).lookup d) :=
  verdictOf_lookup (fun _ ho => hread.mem_iff.1 ho) fun _ ho _ => hread.mem_iff.2 ho

theorem verdictOf_latestOutcomes {ids : List Id}
    (hread : reading.Perm l.outcomes)
    (hd : d ∈ ids) : VerdictOf l d ((latestOutcomes ids reading).lookup d) := by
  unfold latestOutcomes
  split
  case isTrue hempty =>
    rw [List.isEmpty_iff.1 hempty] at hd
    cases hd
  case isFalse =>
    apply verdictOf_lookup
    · intro o ho
      exact hread.mem_iff.1 (List.mem_filter.1 ho).1
    · intro o ho hdecision
      refine List.mem_filter.2 ⟨hread.mem_iff.2 ho, ?_⟩
      rw [hdecision]
      exact List.contains_iff_mem.2 hd

theorem verdictOf_latestOutcome {corpus : Corpus}
    (hread : corpus.outcomes.Perm (l.outcomes.map row)) :
    VerdictOf l d ((corpus.latestOutcome d).map (·.verdict)) := by
  have hmem : ∀ r, r ∈ (corpus.outcomes.insertionSort fun a b =>
      a.observedAt ≤ b.observedAt).filter (fun o => decide (o.decisionId = d))
        ↔ ∃ o ∈ l.outcomes, row o = r ∧ o.decisionId = d := by
    intro r
    rw [List.mem_filter, List.mem_insertionSort, hread.mem_iff, List.mem_map,
      decide_eq_true_eq]
    constructor
    · rintro ⟨⟨o, ho, rfl⟩, hd⟩
      exact ⟨o, ho, rfl, hd⟩
    · rintro ⟨o, ho, rfl, hd⟩
      exact ⟨⟨o, ho, rfl⟩, hd⟩
  have hsorted := (List.pairwise_insertionSort
    (fun a b : OutcomeRow => a.observedAt ≤ b.observedAt)
    corpus.outcomes).filter (fun o => decide (o.decisionId = d))
  unfold Corpus.latestOutcome
  generalize (corpus.outcomes.insertionSort fun a b =>
    a.observedAt ≤ b.observedAt).filter (fun o => decide (o.decisionId = d))
      = kept
    at hmem hsorted
  rcases List.eq_nil_or_concat kept with rfl | ⟨before, last, rfl⟩
  · intro o ho hd
    exact absurd ((hmem (row o)).2 ⟨o, ho, rfl, hd⟩) List.not_mem_nil
  · rw [List.concat_eq_append] at hmem hsorted ⊢
    rw [List.getLast?_concat]
    obtain ⟨o, ho, rfl, hd⟩ := (hmem last).1 (by simp)
    refine ⟨o, ⟨ho, hd, fun other hother heq => ?_⟩, rfl⟩
    have hkept := (hmem (row other)).2 ⟨other, hother, rfl, heq⟩
    rw [List.mem_append, List.mem_singleton] at hkept
    rcases hkept with hkept | hkept
    · rw [List.pairwise_append] at hsorted
      exact hsorted.2.2 _ hkept _ (List.mem_singleton_self _)
    · exact le_of_eq (congrArg OutcomeRow.observedAt hkept)

end

-- ======= the tally

section
variable {l : Ledger} {reading rows : List OutcomeRecord} {d : Id}
  {latest : List (Id × OutcomeVerdict)}

theorem tally_sum : tally latest .worked + tally latest .failed
    + tally latest .mixed + tally latest .tooEarly = latest.length := by
  induction latest with
  | nil => rfl
  | cons p rest ih =>
    obtain ⟨d, verdict⟩ := p
    unfold tally at ih ⊢
    rw [List.length_cons, ← ih]
    cases verdict with
    | worked => simp; omega
    | failed => simp; omega
    | mixed => simp; omega
    | tooEarly => simp; omega

theorem nodup_latestRows : ((latestRows rows).map (·.decisionId)).Nodup :=
  List.pairwise_map.2 pairwise_distinctOn

theorem latestRows_subset (hread : reading.Perm l.outcomes) :
    ∀ d ∈ (latestRows reading).map (·.decisionId), d ∈ l.decisions := by
  intro d hd
  obtain ⟨o, ho, rfl⟩ := List.mem_map.1 hd
  exact l.foreignKeys o (hread.mem_iff.1 (mem_latestRows_sorted ho))

theorem length_latestVerdict (hread : reading.Perm l.outcomes) :
    (latestVerdict reading).length ≤ l.decisions.length := by
  have hsub := List.subperm_of_subset nodup_latestRows (latestRows_subset hread)
  have hlength := hsub.length_le
  rw [List.length_map] at hlength
  unfold latestVerdict verdicts
  rw [List.length_map]
  exact hlength

theorem counted (hread : reading.Perm l.outcomes) :
    let rate := successRate l.decisions.length (latestVerdict reading)
    rate.worked + rate.failed + rate.mixed + rate.tooEarly + rate.undecided
      = l.decisions.length := by
  have hsum := @tally_sum (latestVerdict reading)
  have hle := length_latestVerdict hread
  show tally _ _ + tally _ _ + tally _ _ + tally _ _ + (_ - _) = _
  omega

theorem lookup_latestVerdict {verdict : OutcomeVerdict} :
    (latestVerdict reading).lookup d = some verdict
      ↔ ∃ o ∈ latestRows reading, o.decisionId = d ∧ o.verdict = verdict := by
  unfold latestVerdict
  rw [lookup_verdicts, Option.map_eq_some_iff]
  constructor
  · rintro ⟨o, ho, hverdict⟩
    exact ⟨o, List.mem_of_find?_eq_some ho, by simpa using List.find?_some ho,
      hverdict⟩
  · rintro ⟨o, ho, hd, hverdict⟩
    cases hfind : (latestRows reading).find? fun o => decide (o.decisionId
      = d) with
    | none => exact absurd (decide_eq_true hd) (List.find?_eq_none.1 hfind o ho)
    | some kept =>
      have hkept : kept.decisionId = d := by simpa using List.find?_some hfind
      have heq := List.inj_on_of_nodup_map nodup_latestRows
        (List.mem_of_find?_eq_some hfind) ho (hkept.trans hd.symm)
      exact ⟨kept, rfl, heq ▸ hverdict⟩

theorem tallied (hread : reading.Perm l.outcomes) (verdict : OutcomeVerdict) :
    tally (latestVerdict reading) verdict
      = (l.decisions.filter fun d =>
          decide ((latestVerdict reading).lookup d = some verdict)).length := by
  have hperm : (((latestRows reading).filter fun o =>
      decide (o.verdict = verdict)).map (·.decisionId)).Perm
        (l.decisions.filter fun d =>
          decide ((latestVerdict reading).lookup d = some verdict)) := by
    rw [List.perm_ext_iff_of_nodup
      (nodup_latestRows.sublist (List.filter_sublist.map _))
      (l.decisionKeys.filter _)]
    intro d
    rw [List.mem_filter, decide_eq_true_eq, lookup_latestVerdict, List.mem_map]
    constructor
    · rintro ⟨o, ho, hd⟩
      obtain ⟨hmem, hverdict⟩ := List.mem_filter.1 ho
      exact ⟨latestRows_subset hread d (List.mem_map.2 ⟨o, hmem, hd⟩), o,
        hmem, hd,
        of_decide_eq_true hverdict⟩
    · rintro ⟨-, o, hmem, hd, hverdict⟩
      exact ⟨o, List.mem_filter.2 ⟨hmem, decide_eq_true hverdict⟩, hd⟩
  rw [← hperm.length_eq, List.length_map]
  unfold tally latestVerdict verdicts
  rw [List.filter_map, List.length_map]
  rfl

end

-- ======= agreement

section
variable {l : Ledger} {d : Id} {a b : OutcomeRecord}

theorem VerdictOf.unique (hs : Settled l) {v w : Option OutcomeVerdict}
    (hv : VerdictOf l d v) (hw : VerdictOf l d w) : v = w := by
  cases v with
  | none =>
    cases w with
    | none => rfl
    | some w =>
      obtain ⟨o, ho, -⟩ := hw
      exact absurd ho.decision (hv o ho.mem)
  | some v =>
    obtain ⟨o, ho, rfl⟩ := hv
    cases w with
    | none => exact absurd ho.decision (hw o ho.mem)
    | some w =>
      obtain ⟨o', ho', rfl⟩ := hw
      rw [hs d o o' ho ho']

theorem agreed (hs : Settled l) (d : Id) :
    Agreed l d ((latestVerdict l.outcomes).lookup d) where
  newest := verdictOf_latestVerdict (List.Perm.refl _)
  patterns _ hread := (verdictOf_latestOutcome hread).unique hs
    (verdictOf_latestVerdict (List.Perm.refl _))
  outcomes _ hread := (verdictOf_latestVerdict hread).unique hs
    (verdictOf_latestVerdict (List.Perm.refl _))
  assumptions _ _ hread hd := (verdictOf_latestOutcomes hread hd).unique hs
    (verdictOf_latestVerdict (List.Perm.refl _))

/-- The row that is read last, when no other is newer, is the last one sorted. -/
theorem getLast?_insertionSort {rest : List OutcomeRow} {r : OutcomeRow}
    (hnodup : (rest ++ [r]).Nodup) (hr : r.decisionId = d)
    (hlast : ∀ other ∈ rest, other.decisionId = d → other.observedAt
    ≤ r.observedAt) :
    (((rest ++ [r]).insertionSort fun a b => a.observedAt ≤ b.observedAt).filter
      fun o => decide (o.decisionId = d)).getLast? = some r := by
  have hpair : ∀ other ∈ rest, other.decisionId = d →
      [other, r].Sublist (((rest ++ [r]).insertionSort fun a b =>
        a.observedAt ≤ b.observedAt).filter fun o => decide (o.decisionId
          = d)) := by
    intro other hother hd
    have hread : [other, r].Sublist (rest ++ [r]) :=
      (List.singleton_sublist.2 hother).append (List.Sublist.refl [r])
    have hsorted := (List.pair_sublist_insertionSort
      (r := fun a b : OutcomeRow => a.observedAt ≤ b.observedAt)
      (hlast other hother hd) hread).filter fun o => decide (o.decisionId = d)
    rwa [List.filter_eq_self.2 (by simp [hd, hr])] at hsorted
  have hkept : (((rest ++ [r]).insertionSort fun a b =>
      a.observedAt ≤ b.observedAt).filter fun o => decide (o.decisionId
        = d)).Nodup :=
    (((List.perm_insertionSort _ _).nodup_iff).2 hnodup).filter _
  have hmem : ∀ o, o ∈ ((rest ++ [r]).insertionSort fun a b =>
      a.observedAt ≤ b.observedAt).filter (fun o => decide (o.decisionId = d))
        ↔ (o ∈ rest ∨ o = r) ∧ o.decisionId = d := by
    intro o
    rw [List.mem_filter, List.mem_insertionSort, List.mem_append,
      List.mem_singleton, decide_eq_true_eq]
  generalize ((rest ++ [r]).insertionSort fun a b =>
    a.observedAt ≤ b.observedAt).filter (fun o => decide (o.decisionId = d))
      = kept
    at hpair hkept hmem ⊢
  rcases List.eq_nil_or_concat kept with rfl | ⟨before, last, rfl⟩
  · exact absurd ((hmem r).2 ⟨.inr rfl, hr⟩) List.not_mem_nil
  · rw [List.concat_eq_append] at hpair hkept hmem ⊢
    rw [List.getLast?_concat]
    obtain ⟨hlastmem | rfl, hd⟩ := (hmem last).1 (by simp)
    · -- sorting is stable, so `r` would come after the last row
      exfalso
      have hnot : last ∉ before := fun h =>
        (List.nodup_append.1 hkept).2.2 last h last (List.mem_singleton_self _) rfl
      obtain ⟨front, back, heq, hfront, hback⟩ :=
        List.sublist_append_iff.1 (hpair last hlastmem hd)
      cases front with
      | nil =>
        rw [List.nil_append] at heq
        have hlength := hback.length_le
        rw [← heq] at hlength
        exact absurd hlength (by simp)
      | cons x front =>
        obtain ⟨rfl, -⟩ := List.cons.inj heq
        exact hnot (hfront.mem List.mem_cons_self)
    · rfl

theorem exists_corpus (ha : Newest l d a) :
    ∃ corpus : Corpus, corpus.outcomes.Perm (l.outcomes.map row)
      ∧ (corpus.latestOutcome d).map (·.verdict) = some a.verdict := by
  have hperm : (l.outcomes.erase a ++ [a]).Perm l.outcomes :=
    List.perm_append_comm.trans (List.perm_cons_erase ha.mem).symm
  have hrows := hperm.map row
  rw [List.map_append, List.map_singleton] at hrows
  have hids : ((l.outcomes.map row).map (·.id)).Nodup := by
    rw [List.map_map]
    exact l.outcomeKeys
  have hkeys : (((l.outcomes.erase a).map row ++ [row a]).map (·.id)).Nodup :=
    ((hrows.map _).nodup_iff).2 hids
  refine ⟨⟨[], [], (l.outcomes.erase a).map row ++ [row a], List.nodup_nil,
    List.nodup_nil, hkeys⟩, hrows, ?_⟩
  have hlast := @getLast?_insertionSort d ((l.outcomes.erase a).map row) (row a)
    (List.Nodup.of_map _ hkeys) ha.decision ?_
  · exact congrArg (Option.map _) hlast
  · intro other hother hd
    obtain ⟨o, ho, rfl⟩ := List.mem_map.1 hother
    exact ha.last o (List.mem_of_mem_erase ho) hd

theorem settled (h : ∀ d ∈ l.decisions, ∃ verdict, Agreed l d verdict) :
    Settled l := by
  intro d a b ha hb
  obtain ⟨verdict, hagreed⟩ := h d (ha.decision ▸ l.foreignKeys a ha.mem)
  obtain ⟨corpus, hread, hlatest⟩ := exists_corpus ha
  obtain ⟨corpus', hread', hlatest'⟩ := exists_corpus hb
  have hverdict := (hagreed.patterns corpus hread).symm.trans hlatest
  have hverdict' := (hagreed.patterns corpus' hread').symm.trans hlatest'
  exact Option.some.inj (hverdict.symm.trans hverdict')

end

-- ====== one verdict or two

/-- There is one verdict per decision, everywhere, exactly where the newest
outcomes of each decision carry one. -/
theorem oneVerdict_iff (l : Ledger) : OneVerdict l ↔ Settled l := by
  constructor
  · exact fun h => settled h.agreed
  · intro hs
    refine ⟨fun d _ => ⟨_, agreed hs d⟩, fun reading hread verdict => ?_,
      fun _ =>
      counted⟩
    rw [← tallied hread verdict]
    cases verdict with
    | worked => rfl
    | failed => rfl
    | mixed => rfl
    | tooEarly => rfl

-- ------ two verdicts of one moment

/-- One decision, which worked and failed at one moment. -/
def tied : Ledger where
  decisions := [1]
  outcomes := [⟨1, 1, .worked, 5, 1⟩, ⟨2, 1, .failed, 5, 2⟩]
  decisionKeys := by decide
  outcomeKeys := by decide
  foreignKeys := by decide

theorem not_oneVerdict : ¬∀ l, OneVerdict l := by
  intro h
  obtain ⟨verdict, hagreed⟩ := (h tied).agreed 1 (by decide)
  -- the row that is read last stays in the dictionary
  have hpatterns := hagreed.patterns
    ⟨[], [], (tied.outcomes.map row).reverse, List.nodup_nil, List.nodup_nil,
      by decide⟩ (List.reverse_perm _)
  -- and the one created last comes first in the query
  have houtcomes := hagreed.outcomes tied.outcomes (List.Perm.refl _)
  exact absurd (hpatterns.trans houtcomes.symm) (by decide)

end Patterns

end MemoryOS
