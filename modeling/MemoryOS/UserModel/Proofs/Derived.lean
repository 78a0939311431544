/-
The derived user model against the evidence it was derived from.

`considerAll_live` follows the loop of `derive`. A live facet stays, as it
is, unless a candidate about it is written (`Writes`); a written candidate
leaves a new row with its own counts and evidence. `derive_live` adds the
retirement: what stays must be about a candidate that clears.

So a derivation can leave two kinds of live facet that are not what was
proposed. One says the candidate's sentence with other counts or evidence
under it, because the sentence is all the loop compares. The other is
about a subject that a person has rejected in another wording, because the
loop then skips the candidate and the retirement sees that it clears.
`faithful_iff` says that a run avoids both exactly when each derivation
finds neither (`Derives`).
-/
import MemoryOS.UserModel.Proofs.Steps

namespace MemoryOS

open Lib Lib.DistinctOn

namespace UserModel

-- ====== statement vocabulary

/-- The facet carries what the candidate now says. -/
def Carries (t : Tables) (f : Facet) (c : Candidate) : Prop :=
  f.statement = c.statement ∧ f.supportCount = c.supporting
    ∧ f.contradictionCount = c.contradicting
    ∧ f.confidence = some c.confidence
    ∧ ∀ i, i ∈ t.evidenceOf f.id ↔ i ∈ c.evidence

/-- A candidate that clears the bar and that no person has dismissed. -/
def Standing (t : Tables) (c : Candidate) : Prop :=
  c.clears = true ∧ ¬ Dismissed t c

/-- The live derived facets are the standing candidates. -/
structure Matches (t : Tables) (considered : List Candidate) : Prop where
  only : ∀ f ∈ t.facets, f.liveDerived = true →
    ∃ c ∈ considered, Standing t c ∧ f.about c = true ∧ Carries t f c
  all : ∀ c ∈ considered, Standing t c →
    ∃ f ∈ t.facets, f.liveDerived = true ∧ f.about c = true ∧ Carries t f c

/-- Deriving again over the same evidence changes nothing. -/
def Settled (t : Tables) (considered : List Candidate) : Prop :=
  ∀ now, ∃ d, derive t considered now = .ok d ∧ d.tables = t

/-- No subject has two live derived facets, and right after a derivation
they are the candidates that stand, and deriving again changes nothing. -/
def Faithful (w : World) : Prop :=
  OnePerSubject w.tables
    ∧ ∀ considered, w.derived = some considered →
        Matches w.tables considered ∧ Settled w.tables considered

/-- A derivation that finds no live facet which it would leave stale: for
each candidate that clears, a live facet of its subject is not of a
subject a person has dismissed, and if it says the same sentence it
carries the same counts and evidence. -/
def Derives (w : World) : Action → Prop
  | .derive proposals _ =>
    ∀ c ∈ proposals.considered, c.clears = true →
      ∀ f ∈ w.tables.facets, f.liveDerived = true → f.about c = true →
        ¬ Dismissed w.tables c
          ∧ (f.statement = c.statement → Carries w.tables f c)
  | _ => True

-- ====== dismissals

variable {dismissed : List (Option String × Option String)} {now : Timestamp}
  {t t' : Tables} {considered : List Candidate} {c : Candidate} {f : Facet}

theorem dismissedSubjects_map {facets : List Facet} {u : Facet → Facet}
    (hu : ∀ f ∈ facets, (u f).dismissedAt = f.dismissedAt
      ∧ (u f).detector = f.detector ∧ (u f).subjectKey = f.subjectKey) :
    ((facets.map u).filter fun f => f.dismissedAt.isSome).map
        (fun f => (f.detector, f.subjectKey))
      = (facets.filter fun f => f.dismissedAt.isSome).map
        fun f => (f.detector, f.subjectKey) := by
  induction facets with
  | nil => rfl
  | cons f rest ih =>
    obtain ⟨hdis, hdet, hsub⟩ := hu f List.mem_cons_self
    have ih := ih fun g hg => hu g (List.mem_cons_of_mem _ hg)
    simp only [List.map_cons, List.filter_cons, hdis]
    split
    case isTrue => rw [List.map_cons, List.map_cons, ih, hdet, hsub]
    case isFalse => exact ih

theorem dismissedSubjects_written (t : Tables) (c : Candidate)
    (now : Timestamp) :
    dismissedSubjects (written t c now) = dismissedSubjects t := by
  simp only [dismissedSubjects, written_facets, List.filter_append,
    List.map_append]
  exact List.append_nil _

theorem dismissedSubjects_rewritten (t : Tables) (f : Facet) (c : Candidate)
    (now : Timestamp) :
    dismissedSubjects (rewritten t f c now) = dismissedSubjects t := by
  simp only [dismissedSubjects, rewritten_facets, List.filter_append,
    List.map_append]
  refine (List.append_nil _).trans (dismissedSubjects_map fun g _ => ?_)
  split
  case isTrue => exact ⟨rfl, rfl, rfl⟩
  case isFalse => exact ⟨rfl, rfl, rfl⟩

theorem dismissedSubjects_retired (t : Tables) (considered : List Candidate)
    (now : Timestamp) :
    dismissedSubjects (retired t considered now) = dismissedSubjects t :=
  dismissedSubjects_map fun f _ =>
    ⟨(retire_frame considered now f).2.2.2.1,
      (retire_frame considered now f).2.2.2.2.1,
      (retire_frame considered now f).2.2.2.2.2⟩

-- ====== one candidate

/-- What a turn of the loop leaves. -/
structure Turned (dismissed : List (Option String × Option String))
    (now : Timestamp) (t t' : Tables) (c : Candidate) : Prop where
  /-- The live facets are those that were, but for the one a written
  candidate replaces, and the candidate's own. -/
  live : ∀ f, (f ∈ t'.facets ∧ f.liveDerived = true) ↔
    (f ∈ t.facets ∧ f.liveDerived = true
      ∧ (f.about c = true → ¬ Writes t dismissed c))
      ∨ (Writes t dismissed c ∧ f = derivedRow c t.nextId now)
  /-- What hung off a facet that was there still does. -/
  evidence : ∀ n < t.nextId, t'.evidenceOf n = t.evidenceOf n
  inserted : Writes t dismissed c →
    t'.evidenceOf t.nextId = distinctOn id c.evidence ∧ t.nextId < t'.nextId
  grown : t.nextId ≤ t'.nextId
  dismissals : dismissedSubjects t' = dismissedSubjects t
  idle : ¬ Writes t dismissed c → t' = t

theorem written_next (t : Tables) (c : Candidate) (now : Timestamp) :
    t.nextId < (written t c now).nextId :=
  Nat.lt_of_lt_of_le (Nat.lt_succ_self _) (Nat.le_add_right _ _)

theorem mem_concat {facets : List Facet} {row : Facet} :
    (f ∈ facets ++ [row]) ↔ f ∈ facets ∨ f = row := by
  rw [List.mem_append, List.mem_singleton]

theorem turned {d d' : Derivation} (h : Sound d.tables) (hd : consider dismissed now d c = .ok d') :
    Turned dismissed now d.tables d'.tables c := by
  have hev : ∀ e ∈ d.tables.evidence, e.facetId ≠ d.tables.nextId :=
    fun e he => Nat.ne_of_lt (h.evidence e he)
  obtain ⟨d₁, hd₁, hcases⟩ := consider_cases h dismissed now c
  cases hd.symm.trans hd₁
  rcases hcases with ⟨hw, ht, -⟩ | ⟨hw, ht, -, hfree⟩
    | ⟨f, hf, hlive, hab, hw, ht, -⟩
  · rw [ht]
    exact
      { live := fun f => ⟨fun hf => .inl ⟨hf.1, hf.2, fun _ => hw⟩, fun hf =>
          hf.elim (fun hf => ⟨hf.1, hf.2.1⟩) fun hf => absurd hf.1 hw⟩
        evidence := fun _ _ => rfl
        inserted := fun hw' => absurd hw' hw
        grown := Nat.le_refl _
        dismissals := rfl
        idle := fun _ => rfl }
  · rw [ht]
    refine
      { live := fun f => ?_
        evidence := fun n hn => evidenceOf_insert (Nat.ne_of_lt hn)
        inserted := fun _ => ⟨evidenceOf_inserted hev, written_next _ _ _⟩
        grown := Nat.le_of_lt (written_next _ _ _)
        dismissals := dismissedSubjects_written _ _ _
        idle := fun hn => absurd hw hn }
    rw [written_facets, mem_concat]
    constructor
    · rintro ⟨hf | rfl, hl⟩
      · exact .inl ⟨hf, hl, fun hab => (hfree f hf hl hab).elim⟩
      · exact .inr ⟨hw, rfl⟩
    · rintro (⟨hf, hl, -⟩ | ⟨-, rfl⟩)
      · exact ⟨.inl hf, hl⟩
      · exact ⟨.inr rfl, derivedRow_live _ _ _⟩
  · rw [ht]
    refine
      { live := fun g => ?_
        evidence := fun n hn => evidenceOf_insert (Nat.ne_of_lt hn)
        inserted := fun _ => ⟨evidenceOf_inserted hev, written_next _ c now⟩
        grown := Nat.le_of_lt (written_next _ c now)
        dismissals := dismissedSubjects_rewritten _ _ _ _
        idle := fun hn => absurd hw hn }
    rw [rewritten_facets, mem_concat, mem_update]
    constructor
    · rintro ⟨⟨g', hg', rfl⟩ | rfl, hl⟩
      · split at hl
        case isTrue => simp [supersede_not_live] at hl
        case isFalse hne =>
          rw [if_neg hne]
          refine .inl ⟨hg', hl, fun hab' => ?_⟩
          obtain ⟨hdet, hsub⟩ := about_iff.1 hab
          obtain ⟨hdet', hsub'⟩ := about_iff.1 hab'
          exact absurd (congrArg Facet.id (h.unique g' hg' f hf hl hlive
            (hdet'.trans hdet.symm) (hsub'.trans hsub.symm))) hne
      · exact .inr ⟨hw, rfl⟩
    · rintro (⟨hg, hl, hkeep⟩ | ⟨-, rfl⟩)
      · refine ⟨.inl ⟨g, hg, ?_⟩, hl⟩
        rw [if_neg]
        intro hid
        have hgf := h.eq_of_id hg hf hid
        exact hkeep (hgf ▸ hab) hw
      · exact ⟨.inr rfl, derivedRow_live _ _ _⟩

theorem Turned.writes_iff {c' : Candidate}
    (h : Turned dismissed now t t' c) (hkey : c'.key ≠ c.key) :
    Writes t' dismissed c' ↔ Writes t dismissed c' := by
  have hlive : ∀ f, f.about c' = true →
      ((f ∈ t'.facets ∧ f.liveDerived = true)
        ↔ (f ∈ t.facets ∧ f.liveDerived = true)) := by
    intro f hab
    have hnot : f.about c ≠ true := fun hc => hkey (key_eq_of_about hab hc)
    rw [h.live f]
    constructor
    · rintro (⟨hf, hl, -⟩ | ⟨-, rfl⟩)
      · exact ⟨hf, hl⟩
      · exact absurd (derivedRow_about c _ _) hnot
    · rintro ⟨hf, hl⟩
      exact .inl ⟨hf, hl, fun hc => absurd hc hnot⟩
  refine and_congr_right fun _ => and_congr_right fun _ => ?_
  constructor
  · intro hno f hf hl hab
    obtain ⟨hf', hl'⟩ := (hlive f hab).2 ⟨hf, hl⟩
    exact hno f hf' hl' hab
  · intro hno f hf hl hab
    obtain ⟨hf', hl'⟩ := (hlive f hab).1 ⟨hf, hl⟩
    exact hno f hf' hl' hab

-- ======== the loop

/-- What the whole loop leaves. -/
structure Looped (dismissed : List (Option String × Option String))
    (now : Timestamp) (t t' : Tables) (cs : List Candidate) : Prop where
  of_live : ∀ f ∈ t'.facets, f.liveDerived = true →
    (f ∈ t.facets ∧ ∀ c ∈ cs, f.about c = true → ¬ Writes t dismissed c)
      ∨ ∃ c ∈ cs, Writes t dismissed c ∧ ∃ n, f = derivedRow c n now
          ∧ t'.evidenceOf n = distinctOn id c.evidence
  stays : ∀ f ∈ t.facets, f.liveDerived = true →
    (∀ c ∈ cs, f.about c = true → ¬ Writes t dismissed c) → f ∈ t'.facets
  inserts : ∀ c ∈ cs, Writes t dismissed c →
    ∃ n, derivedRow c n now ∈ t'.facets
      ∧ t'.evidenceOf n = distinctOn id c.evidence
  evidence : ∀ n < t.nextId, t'.evidenceOf n = t.evidenceOf n
  dismissals : dismissedSubjects t' = dismissedSubjects t
  idle : (∀ c ∈ cs, ¬ Writes t dismissed c) → t' = t

theorem looped {cs : List Candidate} :
    ∀ {d d' : Derivation}, Sound d.tables →
      (cs.map Candidate.key).Nodup →
      considerAll dismissed now d cs = .ok d' →
      Looped dismissed now d.tables d'.tables cs := by
  induction cs with
  | nil =>
    intro d d' _ _ hd
    cases hd
    exact
      { of_live := fun f hf _ => .inl ⟨hf, fun _ hc =>
          absurd hc List.not_mem_nil⟩
        stays := fun _ hf _ _ => hf
        inserts := fun _ hc => absurd hc List.not_mem_nil
        evidence := fun _ _ => rfl
        dismissals := rfl
        idle := fun _ => rfl }
  | cons c rest ih =>
    intro d d' h hdistinct hd
    obtain ⟨d₁, hd₁, -⟩ := consider_cases h dismissed now c
    have hc := turned h hd₁
    simp only [considerAll, hd₁] at hd
    rw [List.map_cons, List.nodup_cons] at hdistinct
    have hrest := ih (h.consider hd₁) hdistinct.2 hd
    have hkeys : ∀ c' ∈ rest, c'.key ≠ c.key := fun c' hc' hkey =>
      hdistinct.1 (List.mem_map.2 ⟨c', hc', hkey⟩)
    -- what is written of the rest does not depend on this turn
    have hother : ∀ c' ∈ rest, Writes d₁.tables dismissed c'
        ↔ Writes d.tables dismissed c' :=
      fun c' hc' => hc.writes_iff (hkeys c' hc')
    have hnew : Writes d.tables dismissed c →
        derivedRow c d.tables.nextId now ∈ d'.tables.facets
          ∧ d'.tables.evidenceOf d.tables.nextId
            = distinctOn id c.evidence := by
      intro hw
      refine ⟨hrest.stays _ ((hc.live _).2 (.inr ⟨hw, rfl⟩)).1 rfl ?_, ?_⟩
      · intro c' hc' hab
        exact absurd (key_eq_of_about hab (derivedRow_about c _ now))
          (hkeys c' hc')
      · rw [hrest.evidence _ (hc.inserted hw).2]
        exact (hc.inserted hw).1
    refine
      { of_live := fun f hf hl => ?_
        stays := fun f hf hl hno => ?_
        inserts := fun c' hc' hw => ?_
        evidence := fun n hn => ?_
        dismissals := hrest.dismissals.trans hc.dismissals
        idle := fun hno => ?_ }
    · rcases hrest.of_live f hf hl with ⟨hf, hno⟩ | ⟨c', hc', hw, hrow⟩
      · rcases (hc.live f).1 ⟨hf, hl⟩ with ⟨hf, -, hkeep⟩ | ⟨hw, rfl⟩
        · refine .inl ⟨hf, fun c' hc' hab => ?_⟩
          rcases List.mem_cons.1 hc' with rfl | hc'
          · exact hkeep hab
          · rw [← hother c' hc']
            exact hno c' hc' hab
        · exact .inr ⟨c, List.mem_cons_self, hw, _, rfl, (hnew hw).2⟩
      · exact .inr ⟨c', List.mem_cons_of_mem _ hc', (hother c' hc').1 hw,
          hrow⟩
    · obtain ⟨hf₁, hl₁⟩ := (hc.live f).2
        (.inl ⟨hf, hl, hno c List.mem_cons_self⟩)
      refine hrest.stays f hf₁ hl₁ fun c' hc' hab => ?_
      rw [hother c' hc']
      exact hno c' (List.mem_cons_of_mem _ hc') hab
    · rcases List.mem_cons.1 hc' with rfl | hc'
      · exact ⟨_, hnew hw⟩
      · exact hrest.inserts c' hc' ((hother c' hc').2 hw)
    · rw [hrest.evidence n (Nat.lt_of_lt_of_le hn hc.grown)]
      exact hc.evidence n hn
    · have hidle := hc.idle (hno c List.mem_cons_self)
      rw [← hidle]
      refine hrest.idle fun c' hc' => ?_
      rw [hidle]
      exact hno c' (List.mem_cons_of_mem _ hc')

-- ====== a derivation

theorem supported_iff (hdistinct : (considered.map Candidate.key).Nodup) :
    supported considered f = true ↔
      ∃ c ∈ considered, f.about c = true ∧ c.clears = true := by
  unfold supported proposal
  constructor
  · intro h
    split at h
    case h_1 c hc =>
      obtain ⟨hmem, hab⟩ := List.mem_filter.1 (List.mem_of_getLast? hc)
      exact ⟨c, hmem, hab, h⟩
    case h_2 => cases h
  · rintro ⟨c, hc, hab, hclears⟩
    split
    case h_1 l hl =>
      obtain ⟨hmem, hlab⟩ := List.mem_filter.1 (List.mem_of_getLast? hl)
      rw [List.inj_on_of_nodup_map hdistinct hmem hc
        (key_eq_of_about hlab hab)]
      exact hclears
    case h_2 hnone =>
      have := List.getLast?_eq_none_iff.1 hnone
      have hmem := List.mem_filter.2 ⟨hc, hab⟩
      rw [this] at hmem
      exact absurd hmem List.not_mem_nil

/-- What a derivation leaves. -/
structure Derived (considered : List Candidate) (now : Timestamp)
    (t t' : Tables) : Prop where
  of_live : ∀ f ∈ t'.facets, f.liveDerived = true →
    (f ∈ t.facets ∧ ∃ c ∈ considered, f.about c = true ∧ c.clears = true
        ∧ (Dismissed t c ∨ f.statement = c.statement))
      ∨ ∃ c ∈ considered, Standing t c ∧ ∃ n, f = derivedRow c n now
          ∧ t'.evidenceOf n = distinctOn id c.evidence
  stays : ∀ f ∈ t.facets, f.liveDerived = true → ∀ c ∈ considered,
    f.about c = true → c.clears = true →
    Dismissed t c ∨ f.statement = c.statement → f ∈ t'.facets
  covers : ∀ c ∈ considered, Standing t c →
    (∃ f ∈ t.facets, f ∈ t'.facets ∧ f.liveDerived = true ∧ f.about c = true
        ∧ f.statement = c.statement)
      ∨ ∃ n, derivedRow c n now ∈ t'.facets
          ∧ t'.evidenceOf n = distinctOn id c.evidence
  evidence : ∀ n < t.nextId, t'.evidenceOf n = t.evidenceOf n
  dismissals : dismissedSubjects t' = dismissedSubjects t

theorem derived (h : Sound t) (p : Proposals) (now : Timestamp) :
    ∃ d, derive t p.considered now = .ok d
      ∧ Derived p.considered now t d.tables := by
  obtain ⟨d, d', hd, hsound, ⟨start, hstart, -, hloop⟩, htables, -⟩ :=
    derive_spec h p.considered now
  refine ⟨d, hd, ?_⟩
  have hl := looped (by rw [hstart]; exact h) p.distinct hloop
  rw [hstart] at hl
  rw [htables]
  have hkept : ∀ f ∈ d'.tables.facets, supported p.considered f = true →
      f ∈ (retired d'.tables p.considered now).facets :=
    fun f hf hs => mem_retired.2 ⟨f, hf, (retire_of_supported hs).symm⟩
  refine
    { of_live := fun f hf hlive => ?_
      stays := fun f hf hlive c hc hab hclears hor => ?_
      covers := fun c hc hst => ?_
      evidence := hl.evidence
      dismissals := (dismissedSubjects_retired _ _ _).trans hl.dismissals }
  · obtain ⟨g, hg, rfl⟩ := mem_retired.1 hf
    obtain ⟨hsame, hglive, hsup⟩ := retire_live hlive
    rw [hsame]
    obtain ⟨c, hc, hab, hclears⟩ := (supported_iff p.distinct).1 hsup
    rcases hl.of_live g hg hglive with ⟨hgt, hno⟩ | ⟨c', hc', hw, n, hrow, hev⟩
    · refine .inl ⟨hgt, c, hc, hab, hclears, ?_⟩
      by_cases hdis : Dismissed t c
      · exact .inl hdis
      · refine .inr (by_contra fun hne => hno c hc hab
          ⟨hdis, hclears, fun f hf hfl hfab => ?_⟩)
        obtain ⟨hdet, hsub⟩ := about_iff.1 hab
        obtain ⟨hdet', hsub'⟩ := about_iff.1 hfab
        rw [h.unique f hf g hgt hfl hglive (hdet'.trans hdet.symm)
          (hsub'.trans hsub.symm)]
        exact hne
    · exact .inr ⟨c', hc', ⟨hw.2.1, hw.1⟩, n, hrow, hev⟩
  · refine hkept f (hl.stays f hf hlive fun c' hc' hab' hw => ?_)
      ((supported_iff p.distinct).2 ⟨c, hc, hab, hclears⟩)
    have hcc := List.inj_on_of_nodup_map p.distinct hc' hc
      (key_eq_of_about hab' hab)
    rcases hor with hdis | hsame
    · exact hw.1 (hcc ▸ hdis)
    · exact hw.2.2 f hf hlive hab' (hcc ▸ hsame)
  · by_cases hw : Writes t (dismissedSubjects t) c
    · obtain ⟨n, hrow, hev⟩ := hl.inserts c hc hw
      refine .inr ⟨n, hkept _ hrow ((supported_iff p.distinct).2
        ⟨c, hc, derivedRow_about c n now, hst.1⟩), hev⟩
    · have : ∃ f ∈ t.facets, f.liveDerived = true ∧ f.about c = true
          ∧ f.statement = c.statement := by
        by_contra hno
        refine hw ⟨hst.2, hst.1, fun f hf hlive hab hsame => hno ?_⟩
        exact ⟨f, hf, hlive, hab, hsame⟩
      obtain ⟨f, hf, hlive, hab, hsame⟩ := this
      refine .inl ⟨f, hf, hkept f (hl.stays f hf hlive ?_)
        ((supported_iff p.distinct).2 ⟨c, hc, hab, hst.1⟩), hlive, hab, hsame⟩
      intro c' hc' hab' hw'
      rw [List.inj_on_of_nodup_map p.distinct hc' hc
        (key_eq_of_about hab' hab)] at hw'
      exact hw hw'

-- ====== the derived model

theorem mem_distinctOn_id {i : Item} {items : List Item} :
    i ∈ distinctOn id items ↔ i ∈ items := by
  constructor
  · exact mem_of_mem_distinctOn
  · intro hi
    obtain ⟨j, hj, hji⟩ := @exists_mem_distinctOn _ _ _ id _ _ hi
    cases (hji : j = i)
    exact hj

theorem carries_written {n : Id} (hev : t.evidenceOf n = distinctOn id c.evidence) :
    Carries t (derivedRow c n now) c :=
  ⟨rfl, rfl, rfl, rfl, fun i => by
    rw [derivedRow_id, hev]
    exact mem_distinctOn_id⟩

theorem Derived.carries_iff (hd : Derived considered now t t') (h : Sound t) (hf : f ∈ t.facets) (c : Candidate) :
    Carries t' f c ↔ Carries t f c := by
  unfold Carries
  rw [hd.evidence f.id (h.below f hf)]

theorem Derived.standing_iff (hd : Derived considered now t t') (c : Candidate) :
    Standing t' c ↔ Standing t c := by
  unfold Standing Dismissed
  rw [hd.dismissals]

theorem Derived.matches_iff
    (hdistinct : (considered.map Candidate.key).Nodup) (hd : Derived considered now t t') (h : Sound t) :
    Matches t' considered ↔
      ∀ c ∈ considered, c.clears = true → ∀ f ∈ t.facets,
        f.liveDerived = true → f.about c = true →
          ¬ Dismissed t c ∧ (f.statement = c.statement → Carries t f c) := by
  constructor
  · intro hm c hc hclears f hf hlive hab
    -- a facet that stays is one of a candidate that stands
    have hkept : f ∈ t'.facets → Standing t c ∧ Carries t f c := by
      intro hf'
      obtain ⟨c', hc', hst, hab', hcar⟩ := hm.only f hf' hlive
      have hcc := List.inj_on_of_nodup_map hdistinct hc' hc
        (key_eq_of_about hab' hab)
      rw [hcc] at hst hcar
      exact ⟨(hd.standing_iff c).1 hst, (hd.carries_iff h hf c).1 hcar⟩
    refine ⟨fun hdis => ?_, fun hsame => ?_⟩
    · exact (hkept (hd.stays f hf hlive c hc hab hclears (.inl hdis))).1.2 hdis
    · exact (hkept (hd.stays f hf hlive c hc hab hclears (.inr hsame))).2
  · intro hno
    refine ⟨fun f hf hlive => ?_, fun c hc hst => ?_⟩
    · rcases hd.of_live f hf hlive with ⟨hft, c, hc, hab, hclears, hor⟩
        | ⟨c, hc, hst, n, rfl, hev⟩
      · obtain ⟨hundis, hcar⟩ := hno c hc hclears f hft hlive hab
        refine ⟨c, hc, (hd.standing_iff c).2 ⟨hclears, hundis⟩, hab,
          (hd.carries_iff h hft c).2 (hcar (hor.resolve_left hundis))⟩
      · exact ⟨c, hc, (hd.standing_iff c).2 hst, derivedRow_about c n now,
          carries_written hev⟩
    · have hst := (hd.standing_iff c).1 hst
      rcases hd.covers c hc hst with ⟨f, hft, hf, hlive, hab, hsame⟩
        | ⟨n, hrow, hev⟩
      · exact ⟨f, hf, hlive, hab, (hd.carries_iff h hft c).2
          ((hno c hc hst.1 f hft hlive hab).2 hsame)⟩
      · exact ⟨_, hrow, rfl, derivedRow_about c n now, carries_written hev⟩

theorem Derived.settled {p : Proposals}
    (hd : Derived p.considered now t t') (h : Sound t') :
    Settled t' p.considered := by
  intro again
  have hidle : ∀ c ∈ p.considered, ¬ Writes t' (dismissedSubjects t') c := by
    intro c hc hw
    have hst := (hd.standing_iff c).1 ⟨hw.2.1, hw.1⟩
    rcases hd.covers c hc hst with ⟨f, -, hf, hlive, hab, hsame⟩ | ⟨n, hrow, -⟩
    · exact hw.2.2 f hf hlive hab hsame
    · exact hw.2.2 _ hrow rfl (derivedRow_about c n now) rfl
  obtain ⟨d, d', hd', -, ⟨start, hstart, -, hloop⟩, htables, -⟩ :=
    derive_spec h p.considered again
  have hl := looped (by rw [hstart]; exact h) p.distinct hloop
  rw [hstart] at hl
  have hkept : ∀ f ∈ t'.facets, retire p.considered again f = f := by
    intro f hf
    cases hlive : f.liveDerived with
    | false => simp [retire, hlive]
    | true =>
      refine retire_of_supported ((supported_iff p.distinct).2 ?_)
      rcases hd.of_live f hf hlive with ⟨-, c, hc, hab, hclears, -⟩
        | ⟨c, hc, hst, n, rfl, -⟩
      · exact ⟨c, hc, hab, hclears⟩
      · exact ⟨c, hc, derivedRow_about c n now, hst.1⟩
  refine ⟨d, hd', ?_⟩
  rw [htables, hl.idle hidle, retired, List.map_congr_left hkept, List.map_id']

theorem Faithful.of_none {w : World} (h : Sound w.tables)
    (hnone : w.derived = none) : Faithful w := by
  refine ⟨h.unique, fun considered hc => ?_⟩
  rw [hnone] at hc
  cases hc

theorem faithful_step {w w' : World} {a : Action} {es : List Unit}
    (h : Sound w.tables) (hw : Faithful w)
    (hs : machine.step w a = some (w', es)) : Faithful w' ↔ Derives w a := by
  have h' := h.step hs
  cases a with
  | derive p now =>
    obtain ⟨d, hd, hderived⟩ := derived h p now
    simp only [machine, UserModel.step, hd] at hs
    cases hs
    refine Iff.trans ?_ (hderived.matches_iff p.distinct h)
    constructor
    · exact fun hf => (hf.2 _ rfl).1
    · intro hm
      refine ⟨h'.unique, fun considered hc => ?_⟩
      cases hc
      exact ⟨hm, hderived.settled h'⟩
  | assertFacet dimension statement supersedes now =>
    refine iff_of_true ?_ trivial
    simp only [machine, UserModel.step] at hs
    split at hs
    case h_1 =>
      cases hs
      exact hw
    case h_2 =>
      cases hs
      exact .of_none h' rfl
  | dismiss facetId reason now =>
    refine iff_of_true ?_ trivial
    simp only [machine, UserModel.step] at hs
    split at hs
    case h_1 =>
      cases hs
      exact hw
    case h_2 =>
      cases hs
      exact .of_none h' rfl

/-- The derived user model matches its evidence throughout a run exactly
when no derivation of the run finds a live facet that says its candidate's
sentence with other counts or evidence under it, or one that is about a
subject a person has dismissed. -/
theorem faithful_iff (acts : List Action) :
    machine.Always Faithful empty acts
      ↔ machine.EveryStep Derives empty acts :=
  Machine.always_iff_everyStep (fun w => Sound w.tables ∧ Faithful w)
    (fun _ h => h.2)
    (fun _ _ _ _ h hs hc =>
      ⟨h.1.step hs, (faithful_step h.1 h.2 hs).2 hc⟩)
    (fun _ _ _ _ h hs hP => (faithful_step h.1 h.2 hs).1 hP)
    ⟨sound_empty, .of_none sound_empty rfl⟩

-- ------ a count behind its sentence

/-- What a group of assumptions proposes: decision 10 held, and 11, 12 and
13 failed. With `supporting = 4` an assumption of decision 10 has failed as
well, and the sentence is the same. -/
def weakness (supporting : Nat) : Candidate where
  dimension := .weaknesses
  detector := "assumption_group_weak"
  subjectKey := "group"
  statement := ("A belief you keep returning to has failed more often than "
    ++ "it has held: 'stable' held 1 of 4 times it was checked.").toList
  supporting := supporting
  contradicting := 1
  evidence :=
    [(.decision, 10, .contradicts), (.decision, 11, .supports),
      (.decision, 12, .supports), (.decision, 13, .supports)]
  firstObserved := none
  lastObserved := none

/-- A run that proposes one candidate. -/
def proposing (c : Candidate) : Proposals where
  considered := [c]
  distinct := List.nodup_singleton _

set_option maxRecDepth 8000 in
/-- The second derivation leaves the facet with the first one's count. -/
theorem not_faithful :
    ¬ ∀ acts : List Action, machine.Always Faithful empty acts := by
  intro hall
  have hend := @Machine.Always.last _ _ _ machine Faithful _ _
    [.derive (proposing (weakness 3)) 0, .derive (proposing (weakness 4)) 1]
    [] (hall _) rfl
  obtain ⟨f, hf, -, -, hcar⟩ := (hend.2 _ rfl).1.all (weakness 4)
    List.mem_cons_self ⟨rfl, List.not_mem_nil⟩
  rcases List.mem_cons.1 hf with rfl | hf
  · exact absurd hcar.2.1 (by decide)
  · exact absurd hf List.not_mem_nil

end UserModel

end MemoryOS
