/-
What the calls of the user model do to its tables.

`Sound` holds of every table the calls can build: identifiers are fresh,
a pointer comes with a date, and there is one live derived facet for a
subject. `consider_cases` says everything one turn of `derive`'s loop can
do. A turn that writes adds one row at the end and, where the subject had
a live facet, supersedes that one (`Writes`); every other turn leaves the
tables as they are.
-/
import Mathlib.Data.List.Nodup
import MemoryOS.UserModel.Facets

namespace MemoryOS

open Lib Lib.DistinctOn

namespace UserModel

-- ============ rows

variable {t : Tables} {now : Timestamp}
  {dismissed : List (Option String × Option String)}

variable {f : Facet} {c : Candidate}

theorem liveDerived_iff : f.liveDerived = true ↔
    f.origin = .derived ∧ f.supersededAt = none ∧ f.dismissedAt = none := by
  simp [Facet.liveDerived, Facet.live, Option.isNone_iff_eq_none]

theorem about_iff : f.about c = true ↔
    f.detector = some c.detector ∧ f.subjectKey = some c.subjectKey := by
  simp [Facet.about]

theorem key_eq_of_about {c' : Candidate} (h : f.about c = true)
    (h' : f.about c' = true) : c.key = c'.key := by
  obtain ⟨hd, hs⟩ := about_iff.1 h
  obtain ⟨hd', hs'⟩ := about_iff.1 h'
  rw [hd, Option.some.injEq] at hd'
  rw [hs, Option.some.injEq] at hs'
  exact Prod.ext hd' hs'

@[simp] theorem derivedRow_id (c : Candidate) (n : Id) (now : Timestamp) :
    (derivedRow c n now).id = n := rfl

@[simp] theorem derivedRow_supersededBy (c : Candidate) (n : Id)
    (now : Timestamp) : (derivedRow c n now).supersededBy = none := rfl

@[simp] theorem derivedRow_dismissedAt (c : Candidate) (n : Id)
    (now : Timestamp) : (derivedRow c n now).dismissedAt = none := rfl

theorem derivedRow_live (c : Candidate) (n : Id) (now : Timestamp) :
    (derivedRow c n now).liveDerived = true := rfl

theorem derivedRow_about (c : Candidate) (n : Id) (now : Timestamp) :
    (derivedRow c n now).about c = true := by
  simp [Facet.about, derivedRow]

@[simp] theorem supersede_id (f : Facet) (n : Id) (now : Timestamp)
    (reason : Text) : (f.supersede n now reason).id = f.id := rfl

@[simp] theorem supersede_supersededBy (f : Facet) (n : Id) (now : Timestamp)
    (reason : Text) : (f.supersede n now reason).supersededBy = some n := rfl

@[simp] theorem supersede_dismissedAt (f : Facet) (n : Id) (now : Timestamp)
    (reason : Text) :
    (f.supersede n now reason).dismissedAt = f.dismissedAt := rfl

theorem supersede_not_live (f : Facet) (n : Id) (now : Timestamp)
    (reason : Text) : (f.supersede n now reason).liveDerived = false := by
  simp [Facet.liveDerived, Facet.live, Facet.supersede]

theorem retire_frame (considered : List Candidate) (now : Timestamp)
    (f : Facet) :
    (retire considered now f).id = f.id
      ∧ (retire considered now f).origin = f.origin
      ∧ (retire considered now f).supersededBy = f.supersededBy
      ∧ (retire considered now f).dismissedAt = f.dismissedAt
      ∧ (retire considered now f).detector = f.detector
      ∧ (retire considered now f).subjectKey = f.subjectKey := by
  unfold retire
  split
  case isTrue => exact ⟨rfl, rfl, rfl, rfl, rfl, rfl⟩
  case isFalse => exact ⟨rfl, rfl, rfl, rfl, rfl, rfl⟩

theorem retire_live {considered : List Candidate} (h : (retire considered now f).liveDerived = true) :
    retire considered now f = f ∧ f.liveDerived = true
      ∧ supported considered f = true := by
  unfold retire at h ⊢
  split at h
  case isTrue hstale =>
    simp [Facet.liveDerived, Facet.live, Facet.withdraw] at h
  case isFalse hkept =>
    rw [if_neg hkept]
    refine ⟨rfl, h, ?_⟩
    rw [h] at hkept
    simpa using hkept

theorem retire_of_supported {considered : List Candidate} (h : supported considered f = true) :
    retire considered now f = f := by
  unfold retire
  rw [h]
  simp

-- ====== the tables

@[simp] theorem update_nextId (t : Tables) (id : Id) (set : Facet → Facet) :
    (t.update id set).nextId = t.nextId := rfl

@[simp] theorem update_evidence (t : Tables) (id : Id) (set : Facet → Facet) :
    (t.update id set).evidence = t.evidence := rfl

theorem update_ids (t : Tables) (id : Id) {set : Facet → Facet}
    (hset : ∀ f, (set f).id = f.id) :
    (t.update id set).facets.map Facet.id = t.facets.map Facet.id := by
  simp only [Tables.update, List.map_map]
  refine List.map_congr_left fun f _ => ?_
  simp only [Function.comp]
  split
  case isTrue => exact hset f
  case isFalse => rfl

theorem mem_update {id : Id} {set : Facet → Facet} :
    f ∈ (t.update id set).facets ↔
      ∃ g ∈ t.facets, f = if g.id = id then set g else g := by
  simp only [Tables.update, List.mem_map]
  exact ⟨fun ⟨g, hg, he⟩ => ⟨g, hg, he.symm⟩, fun ⟨g, hg, he⟩ =>
    ⟨g, hg, he.symm⟩⟩

theorem evidenceRows_facetId {facetId : Id} {next : Id} {items : List Item}
    {e : FacetEvidence} (he : e ∈ evidenceRows facetId next items) :
    e.facetId = facetId := by
  induction items generalizing next with
  | nil => exact absurd he List.not_mem_nil
  | cons i rest ih =>
    rcases List.mem_cons.1 he with rfl | he
    · rfl
    · exact ih he

theorem evidenceRows_items (facetId : Id) (next : Id) (items : List Item) :
    ((evidenceRows facetId next items).filter fun e =>
        decide (e.facetId = facetId)).map
      (fun e => (e.kind, e.refId, e.relation)) = items := by
  induction items generalizing next with
  | nil => rfl
  | cons i rest ih =>
    simp only [evidenceRows, decide_true, List.filter_cons_of_pos,
      List.map_cons, ih]

theorem evidenceOf_insert {n : Id} {other : Id} (h : other ≠ n) :
    (insert t c n now).evidenceOf other = t.evidenceOf other := by
  have hnone : (evidenceRows n t.nextId (distinctOn id c.evidence)).filter
      (fun e => decide (e.facetId = other)) = [] := by
    refine List.filter_eq_nil_iff.2 fun e he => ?_
    rw [evidenceRows_facetId he, decide_eq_true_eq]
    exact fun heq => h heq.symm
  simp only [Tables.evidenceOf, insert, List.filter_append, hnone,
    List.append_nil]

theorem evidenceOf_inserted {n : Id} (h : ∀ e ∈ t.evidence, e.facetId ≠ n) :
    (insert t c n now).evidenceOf n = distinctOn id c.evidence := by
  have hnone : t.evidence.filter (fun e => decide (e.facetId = n)) = [] := by
    refine List.filter_eq_nil_iff.2 fun e he => ?_
    rw [decide_eq_true_eq]
    exact h e he
  simp only [Tables.evidenceOf, insert, List.filter_append, hnone,
    List.nil_append]
  exact evidenceRows_items n t.nextId _

-- ====== the invariant

/-- No subject has two live derived facets. -/
def OnePerSubject (t : Tables) : Prop :=
  ∀ f ∈ t.facets, ∀ g ∈ t.facets, f.liveDerived = true →
    g.liveDerived = true → f.detector = g.detector →
    f.subjectKey = g.subjectKey → f = g

/-- What holds of the tables whatever was called. -/
structure Sound (t : Tables) : Prop where
  ids : (t.facets.map Facet.id).Nodup
  below : ∀ f ∈ t.facets, f.id < t.nextId
  evidence : ∀ e ∈ t.evidence, e.facetId < t.nextId
  unique : OnePerSubject t
  /-- A derived facet has a subject, and the confidence of its counts. -/
  computed : ∀ f ∈ t.facets, f.origin = .derived →
    f.confidence
        = some (facetConfidence f.supportCount f.contradictionCount)
      ∧ ∃ c : Candidate, f.about c = true
  /-- A pointer comes with a date. -/
  dated : ∀ f ∈ t.facets, f.supersededBy.isSome → f.supersededAt.isSome

theorem Sound.eq_of_id (h : Sound t) {g : Facet}
    (hf : f ∈ t.facets) (hg : g ∈ t.facets) (hid : f.id = g.id) : f = g :=
  List.inj_on_of_nodup_map h.ids hf hg hid

theorem Sound.facet_eq (h : Sound t)
    (hf : f ∈ t.facets) : t.facet f.id = some f := by
  unfold Tables.facet
  cases hfind : t.facets.find? fun g => decide (g.id = f.id) with
  | none =>
    have := List.find?_eq_none.1 hfind f hf
    simp at this
  | some g =>
    have hg := List.mem_of_find?_eq_some hfind
    have hid : g.id = f.id := by simpa using List.find?_some hfind
    rw [h.eq_of_id hg hf hid]

theorem facet_some {n : Id}
    (h : t.facet n = some f) : f ∈ t.facets ∧ f.id = n :=
  ⟨List.mem_of_find?_eq_some h, by simpa using List.find?_some h⟩

theorem Sound.existing_cases (h : Sound t) (c : Candidate) :
    (existing t c = .ok none
        ∧ ∀ f ∈ t.facets, f.liveDerived = true → f.about c = true → False)
      ∨ ∃ f ∈ t.facets, existing t c = .ok (some f)
        ∧ f.liveDerived = true ∧ f.about c = true := by
  unfold existing
  have hmem : ∀ f, f ∈ t.facets.filter (fun f => f.liveDerived && f.about c)
      ↔ f ∈ t.facets ∧ f.liveDerived = true ∧ f.about c = true := by
    intro f
    rw [List.mem_filter, Bool.and_eq_true]
  have hnodup : (t.facets.filter fun f =>
      f.liveDerived && f.about c).Nodup :=
    (List.Nodup.of_map _ h.ids).filter _
  cases hl : t.facets.filter fun f => f.liveDerived && f.about c with
  | nil =>
    refine .inl ⟨rfl, fun f hf hlive hab => ?_⟩
    have := (hmem f).2 ⟨hf, hlive, hab⟩
    rw [hl] at this
    exact absurd this List.not_mem_nil
  | cons f rest =>
    have hf := (hmem f).1 (by rw [hl]; exact List.mem_cons_self)
    cases rest with
    | nil => exact .inr ⟨f, hf.1, rfl, hf.2⟩
    | cons g rest =>
      have hg := (hmem g).1 (by
        rw [hl]
        exact List.mem_cons_of_mem _ List.mem_cons_self)
      have hsame : f = g := by
        obtain ⟨hd, hs⟩ := about_iff.1 hf.2.2
        obtain ⟨hd', hs'⟩ := about_iff.1 hg.2.2
        exact h.unique f hf.1 g hg.1 hf.2.1 hg.2.1 (hd.trans hd'.symm)
          (hs.trans hs'.symm)
      rw [hl, hsame] at hnodup
      exact absurd List.mem_cons_self (List.nodup_cons.1 hnodup).1

-- ====== one candidate

/-- The candidate's subject is one that a person has rejected. -/
def Dismissed (t : Tables) (c : Candidate) : Prop :=
  (some c.detector, some c.subjectKey) ∈ dismissedSubjects t

/-- The candidate is one `derive` writes: it clears, nobody rejected its
subject, and no live facet of that subject says the same. -/
def Writes (t : Tables) (dismissed : List (Option String × Option String))
    (c : Candidate) : Prop :=
  (some c.detector, some c.subjectKey) ∉ dismissed ∧ c.clears = true
    ∧ ∀ f ∈ t.facets, f.liveDerived = true → f.about c = true →
        f.statement ≠ c.statement

/-- The tables after a turn that writes, but for the facet it replaces. -/
def written (t : Tables) (c : Candidate) (now : Timestamp) : Tables :=
  insert { t with nextId := t.nextId + 1 } c t.nextId now

/-- The tables after a turn that replaces a facet. -/
def rewritten (t : Tables) (f : Facet) (c : Candidate) (now : Timestamp) :
    Tables :=
  insert (({ t with nextId := t.nextId + 1 } : Tables).update f.id fun f =>
    f.supersede t.nextId now (restatedReason f c)) c t.nextId now

theorem consider_cases {d : Derivation} (h : Sound d.tables)
    (dismissed : List (Option String × Option String)) (now : Timestamp)
    (c : Candidate) :
    ∃ d', consider dismissed now d c = .ok d'
      ∧ ((¬ Writes d.tables dismissed c ∧ d'.tables = d.tables
            ∧ d'.superseded = d.superseded)
        ∨ (Writes d.tables dismissed c ∧ d'.tables = written d.tables c now
            ∧ d'.superseded = d.superseded
            ∧ ∀ f ∈ d.tables.facets, f.liveDerived = true →
                f.about c = true → False)
        ∨ ∃ f ∈ d.tables.facets, f.liveDerived = true ∧ f.about c = true
            ∧ Writes d.tables dismissed c
            ∧ d'.tables = rewritten d.tables f c now
            ∧ d'.superseded = d.superseded ++ [(f.id, d.tables.nextId)]) := by
  unfold consider
  split
  case isTrue hdis =>
    exact ⟨_, rfl, .inl ⟨fun hw => hw.1 hdis, rfl, rfl⟩⟩
  case isFalse hdis =>
    split
    case isTrue hclears =>
      refine ⟨_, rfl, .inl ⟨fun hw => ?_, rfl, rfl⟩⟩
      rw [hw.2.1] at hclears
      cases hclears
    case isFalse hclears =>
      have hclears : c.clears = true := by simpa using hclears
      rcases h.existing_cases c with ⟨hnone, hfree⟩ | ⟨f, hf, hsome, hlive, hab⟩
      · rw [hnone]
        refine ⟨_, rfl, .inr (.inl ⟨⟨hdis, hclears, ?_⟩, rfl, rfl, hfree⟩)⟩
        exact fun f hf hlive hab => (hfree f hf hlive hab).elim
      · rw [hsome]
        simp only
        split
        case isTrue hsame =>
          exact ⟨_, rfl, .inl ⟨fun hw => hw.2.2 f hf hlive hab hsame, rfl,
            rfl⟩⟩
        case isFalse hother =>
          refine ⟨_, rfl, .inr (.inr ⟨f, hf, hlive, hab,
            ⟨hdis, hclears, fun g hg hglive hgab => ?_⟩, rfl, rfl⟩)⟩
          obtain ⟨hd, hs⟩ := about_iff.1 hab
          obtain ⟨hd', hs'⟩ := about_iff.1 hgab
          rw [h.unique g hg f hf hglive hlive (hd'.trans hd.symm)
            (hs'.trans hs.symm)]
          exact hother

theorem written_facets (t : Tables) (c : Candidate) (now : Timestamp) :
    (written t c now).facets = t.facets ++ [derivedRow c t.nextId now] := rfl

theorem rewritten_facets (t : Tables) (f : Facet) (c : Candidate)
    (now : Timestamp) :
    (rewritten t f c now).facets
      = (t.update f.id fun f =>
          f.supersede t.nextId now (restatedReason f c)).facets
        ++ [derivedRow c t.nextId now] := rfl

theorem Sound.append {t t' : Tables} (h : Sound t) {row : Facet}
    (hfacets : t'.facets = t.facets ++ [row]) (hid : row.id = t.nextId)
    (hnext : t.nextId < t'.nextId)
    (hev : ∀ e ∈ t'.evidence, e ∈ t.evidence ∨ e.facetId = t.nextId)
    (hfree : row.liveDerived = true → ∀ f ∈ t.facets, f.liveDerived = true →
      f.detector = row.detector → f.subjectKey = row.subjectKey → False)
    (hcomputed : row.origin = .derived →
      row.confidence
          = some (facetConfidence row.supportCount row.contradictionCount)
        ∧ ∃ c : Candidate, row.about c = true)
    (hdated : row.supersededBy = none) : Sound t' := by
  have hmem : ∀ f ∈ t'.facets, f ∈ t.facets ∨ f = row := by
    intro f hf
    rw [hfacets] at hf
    exact (List.mem_append.1 hf).imp_right List.mem_singleton.1
  refine
    { ids := ?_, below := ?_, evidence := ?_, unique := ?_
      computed := ?_, dated := ?_ }
  · rw [hfacets, List.map_append, List.nodup_append]
    refine ⟨h.ids, List.nodup_singleton _, fun a ha b hb => ?_⟩
    obtain ⟨f, hf, rfl⟩ := List.mem_map.1 ha
    rw [List.mem_singleton.1 hb, hid]
    exact Nat.ne_of_lt (h.below f hf)
  · intro f hf
    rcases hmem f hf with hf | rfl
    · exact Nat.lt_trans (h.below f hf) hnext
    · exact hid ▸ hnext
  · intro e he
    rcases hev e he with he | he
    · exact Nat.lt_trans (h.evidence e he) hnext
    · exact he ▸ hnext
  · intro f hf g hg hfl hgl hd hs
    rcases hmem f hf with hf | rfl
    · rcases hmem g hg with hg | rfl
      · exact h.unique f hf g hg hfl hgl hd hs
      · exact (hfree hgl f hf hfl hd hs).elim
    · rcases hmem g hg with hg | rfl
      · exact (hfree hfl g hg hgl hd.symm hs.symm).elim
      · rfl
  · intro f hf horigin
    rcases hmem f hf with hf | rfl
    · exact h.computed f hf horigin
    · exact hcomputed horigin
  · intro f hf hptr
    rcases hmem f hf with hf | rfl
    · exact h.dated f hf hptr
    · rw [hdated] at hptr
      cases hptr

theorem Sound.insert (h : Sound t) (c : Candidate)
    (now : Timestamp)
    (hfree : ∀ f ∈ t.facets, f.liveDerived = true → f.about c = true →
      False) :
    Sound (written t c now) := by
  refine h.append (written_facets t c now) rfl
    (Nat.lt_of_lt_of_le (Nat.lt_succ_self _) (Nat.le_add_right _ _))
    (fun e he => ?_) (fun _ f hf hlive hd hs => ?_)
    (fun _ => ⟨rfl, c, derivedRow_about c t.nextId now⟩) rfl
  · exact (List.mem_append.1 he).imp_right evidenceRows_facetId
  · exact hfree f hf hlive (about_iff.2 ⟨hd, hs⟩)

theorem Sound.update (h : Sound t) (n : Id)
    {set : Facet → Facet} (hid : ∀ f, (set f).id = f.id)
    (hlive : ∀ f, (set f).liveDerived = true → f.liveDerived = true)
    (hsame : ∀ f, (set f).origin = f.origin ∧ (set f).detector = f.detector
      ∧ (set f).subjectKey = f.subjectKey ∧ (set f).confidence = f.confidence
      ∧ (set f).supportCount = f.supportCount
      ∧ (set f).contradictionCount = f.contradictionCount)
    (hdated : ∀ f ∈ t.facets,
      (set f).supersededBy.isSome → (set f).supersededAt.isSome) :
    Sound (t.update n set) := by
  -- each row of the update stands for one of before
  have hrow : ∀ f ∈ (t.update n set).facets, ∃ g ∈ t.facets,
      (f = g ∨ f = set g) ∧ f.id = g.id
        ∧ (f.liveDerived = true → g.liveDerived = true)
        ∧ f.origin = g.origin ∧ f.detector = g.detector
        ∧ f.subjectKey = g.subjectKey ∧ f.confidence = g.confidence
        ∧ f.supportCount = g.supportCount
        ∧ f.contradictionCount = g.contradictionCount := by
    intro f hf
    obtain ⟨g, hg, rfl⟩ := mem_update.1 hf
    refine ⟨g, hg, ?_⟩
    split
    case isTrue => exact ⟨.inr rfl, hid g, hlive g, hsame g⟩
    case isFalse =>
      exact ⟨.inl rfl, rfl, fun hl => hl, rfl, rfl, rfl, rfl, rfl, rfl⟩
  have hids : ((t.update n set).facets.map Facet.id).Nodup := by
    rw [update_ids t n hid]
    exact h.ids
  refine
    { ids := hids, below := ?_, evidence := h.evidence, unique := ?_
      computed := ?_, dated := ?_ }
  · intro f hf
    obtain ⟨g, hg, -, hfg, -⟩ := hrow f hf
    rw [hfg]
    exact h.below g hg
  · intro f hf f' hf' hl hl' hd hs
    obtain ⟨g, hg, -, hid₁, hlive₁, -, hd₁, hs₁, -⟩ := hrow f hf
    obtain ⟨g', hg', -, hid₂, hlive₂, -, hd₂, hs₂, -⟩ := hrow f' hf'
    have hgg := h.unique g hg g' hg' (hlive₁ hl) (hlive₂ hl')
      (by rw [← hd₁, ← hd₂, hd]) (by rw [← hs₁, ← hs₂, hs])
    refine List.inj_on_of_nodup_map hids hf hf' ?_
    rw [hid₁, hid₂, hgg]
  · intro f hf horigin
    obtain ⟨g, hg, -, -, -, ho, hd, hs, hc, hsup, hcon⟩ := hrow f hf
    obtain ⟨hconf, c, hab⟩ := h.computed g hg (ho ▸ horigin)
    refine ⟨by rw [hc, hsup, hcon, hconf], c, ?_⟩
    rw [about_iff, hd, hs]
    exact about_iff.1 hab
  · intro f hf hptr
    obtain ⟨g, hg, rfl | rfl, -⟩ := hrow f hf
    · exact h.dated f hg hptr
    · exact hdated g hg hptr

-- ====== every call

theorem Sound.superseded (h : Sound t) (f : Facet)
    (c : Candidate) (now : Timestamp) :
    Sound (t.update f.id fun f =>
      f.supersede t.nextId now (restatedReason f c)) :=
  h.update f.id (fun _ => rfl)
    (fun g hg => by simp [supersede_not_live] at hg)
    (fun _ => ⟨rfl, rfl, rfl, rfl, rfl, rfl⟩) (fun _ _ _ => rfl)

theorem Sound.consider {d d' : Derivation} (h : Sound d.tables) (hd : consider dismissed now d c = .ok d') :
    Sound d'.tables := by
  obtain ⟨d₁, hd₁, hcases⟩ := consider_cases h dismissed now c
  cases hd.symm.trans hd₁
  rcases hcases with ⟨-, ht, -⟩ | ⟨-, ht, -, hfree⟩ | ⟨f, hf, hlive, hab, -, ht, -⟩
  · rw [ht]
    exact h
  · rw [ht]
    exact h.insert c now hfree
  · rw [ht]
    refine (h.superseded f c now).insert c now ?_
    -- the only live facet of the subject is the one that was superseded
    intro g hg hglive hgab
    obtain ⟨g', hg', rfl⟩ := mem_update.1 hg
    split at hglive
    case isTrue => simp [supersede_not_live] at hglive
    case isFalse hne =>
      rw [if_neg hne] at hgab
      obtain ⟨hdet, hsub⟩ := about_iff.1 hab
      obtain ⟨hdet', hsub'⟩ := about_iff.1 hgab
      exact hne (congrArg Facet.id (h.unique g' hg' f hf hglive hlive
        (hdet'.trans hdet.symm) (hsub'.trans hsub.symm)))

theorem Sound.considerAll {cs : List Candidate} :
    ∀ {d d' : Derivation}, Sound d.tables →
      considerAll dismissed now d cs = .ok d' → Sound d'.tables := by
  induction cs with
  | nil =>
    intro d d' h hd
    cases hd
    exact h
  | cons c rest ih =>
    intro d d' h hd
    obtain ⟨d₁, hd₁, -⟩ := consider_cases h dismissed now c
    simp only [UserModel.considerAll, hd₁] at hd
    exact ih (h.consider hd₁) hd

theorem considerAll_ok {cs : List Candidate} {d : Derivation}
    (h : Sound d.tables) : ∃ d', considerAll dismissed now d cs = .ok d' := by
  induction cs generalizing d with
  | nil => exact ⟨d, rfl⟩
  | cons c rest ih =>
    obtain ⟨d₁, hd₁, -⟩ := consider_cases h dismissed now c
    obtain ⟨d', hd'⟩ := ih (h.consider hd₁)
    refine ⟨d', ?_⟩
    simp only [considerAll, hd₁]
    exact hd'

/-- The tables after the retirement. -/
def retired (t : Tables) (considered : List Candidate) (now : Timestamp) :
    Tables :=
  { t with facets := t.facets.map (retire considered now) }

theorem mem_retired {considered : List Candidate} :
    f ∈ (retired t considered now).facets ↔
      ∃ g ∈ t.facets, f = retire considered now g := by
  simp only [retired, List.mem_map]
  exact ⟨fun ⟨g, hg, he⟩ => ⟨g, hg, he.symm⟩, fun ⟨g, hg, he⟩ =>
    ⟨g, hg, he.symm⟩⟩

theorem Sound.retired (h : Sound t) (considered : List Candidate)
    (now : Timestamp) : Sound (retired t considered now) := by
  refine
    { ids := ?_, below := ?_, evidence := h.evidence, unique := ?_
      computed := ?_, dated := ?_ }
  · have : (UserModel.retired t considered now).facets.map Facet.id
        = t.facets.map Facet.id := by
      simp only [UserModel.retired, List.map_map]
      exact List.map_congr_left fun f _ => (retire_frame considered now f).1
    rw [this]
    exact h.ids
  · intro f hf
    obtain ⟨g, hg, rfl⟩ := mem_retired.1 hf
    rw [(retire_frame considered now g).1]
    exact h.below g hg
  · intro f hf f' hf' hl hl' hd hs
    obtain ⟨g, hg, rfl⟩ := mem_retired.1 hf
    obtain ⟨g', hg', rfl⟩ := mem_retired.1 hf'
    rw [(retire_live hl).1, (retire_live hl').1] at *
    exact h.unique g hg g' hg' hl hl' hd hs
  · intro f hf horigin
    obtain ⟨g, hg, rfl⟩ := mem_retired.1 hf
    obtain ⟨hconf, c, hab⟩ := h.computed g hg
      ((retire_frame considered now g).2.1 ▸ horigin)
    refine ⟨?_, c, ?_⟩
    · unfold retire
      split
      case isTrue => exact hconf
      case isFalse => exact hconf
    · rw [about_iff, (retire_frame considered now g).2.2.2.2.1,
        (retire_frame considered now g).2.2.2.2.2]
      exact about_iff.1 hab
  · intro f hf hptr
    obtain ⟨g, hg, rfl⟩ := mem_retired.1 hf
    rw [(retire_frame considered now g).2.2.1] at hptr
    have := h.dated g hg hptr
    unfold retire
    split
    case isTrue => rfl
    case isFalse => exact this

theorem derive_spec (h : Sound t) (considered : List Candidate)
    (now : Timestamp) :
    ∃ d d', derive t considered now = .ok d ∧ Sound d'.tables
      ∧ (∃ start : Derivation, start.tables = t ∧ start.superseded = []
          ∧ considerAll (dismissedSubjects t) now start considered = .ok d')
      ∧ d.tables = retired d'.tables considered now
      ∧ d.superseded = d'.superseded := by
  unfold derive
  simp only
  generalize hstart : ({ tables := t, report := _, superseded := [] }
    : Derivation) = start
  have htables : start.tables = t := by rw [← hstart]
  have hsound : Sound start.tables := by rw [htables]; exact h
  obtain ⟨d', hd'⟩ :
      ∃ d', considerAll (dismissedSubjects t) now start considered = .ok d' :=
    considerAll_ok hsound
  rw [hd']
  refine ⟨_, d', rfl, Sound.considerAll hsound hd',
    ⟨start, htables, by rw [← hstart], hd'⟩, rfl, rfl⟩

/-- The tables with a facet stated by hand. -/
def asserted (t : Tables) (dimension : Dimension) (text : Text)
    (now : Timestamp) : Tables :=
  { t with
    facets := t.facets ++ [assertedRow dimension text t.nextId now]
    nextId := t.nextId + 1 }

theorem assertFacet_cases {t' : Tables} {dimension : Dimension}
    {statement : Text} {supersedes : Option Id} {id : Id}
    (ha : assertFacet t dimension statement supersedes now = .ok (t', id)) :
    id = t.nextId
      ∧ ((supersedes = none ∧ t' = asserted t dimension (strip statement) now)
        ∨ ∃ previous f, supersedes = some previous ∧ t.facet previous = some f
          ∧ t' = (asserted t dimension (strip statement) now).update previous
              fun f => f.supersede t.nextId now "restated by hand".toList) := by
  simp only [assertFacet] at ha
  split at ha
  case isTrue => cases ha
  case isFalse =>
    split at ha
    case h_1 =>
      cases ha
      exact ⟨rfl, .inl ⟨rfl, rfl⟩⟩
    case h_2 previous =>
      split at ha
      case h_1 => cases ha
      case h_2 f hf =>
        cases ha
        exact ⟨rfl, .inr ⟨previous, f, rfl, hf, rfl⟩⟩

theorem Sound.asserted (h : Sound t) (dimension : Dimension)
    (text : Text) (now : Timestamp) : Sound (asserted t dimension text now) :=
  @Sound.append t _ h (assertedRow dimension text t.nextId now) rfl rfl
    (Nat.lt_succ_self _) (fun _ he => .inl he)
    (fun hlive => by cases hlive) (fun horigin => by cases horigin) rfl

theorem Sound.assertFacet {t' : Tables} (h : Sound t)
    {dimension : Dimension} {statement : Text} {supersedes : Option Id} {id : Id}
    (ha : assertFacet t dimension statement supersedes now = .ok (t', id)) :
    Sound t' := by
  obtain ⟨-, ⟨-, ht⟩ | ⟨previous, f, -, -, ht⟩⟩ := assertFacet_cases ha
  · rw [ht]
    exact h.asserted dimension _ now
  · rw [ht]
    exact (h.asserted dimension _ now).update previous (fun _ => rfl)
      (fun g hg => by simp [supersede_not_live] at hg)
      (fun _ => ⟨rfl, rfl, rfl, rfl, rfl, rfl⟩) (fun _ _ _ => rfl)

theorem dismiss_cases {t' : Tables} {facetId : Id} {reason : Text} (hd : dismiss t facetId reason now = .ok t') :
    t' = t.update facetId fun f =>
      { f with
        dismissedAt := some now
        dismissedReason := some (strip reason) } := by
  simp only [dismiss] at hd
  split at hd
  case isTrue => cases hd
  case isFalse =>
    split at hd
    case h_1 => cases hd
    case h_2 =>
      cases hd
      rfl

theorem Sound.dismiss {t' : Tables} (h : Sound t) {facetId : Id}
    {reason : Text}
    (hd : dismiss t facetId reason now = .ok t') : Sound t' := by
  rw [dismiss_cases hd]
  exact h.update facetId (fun _ => rfl)
    (fun g hg => by simp [Facet.liveDerived, Facet.live] at hg)
    (fun _ => ⟨rfl, rfl, rfl, rfl, rfl, rfl⟩) h.dated

theorem Sound.step {w w' : World} {a : Action} {es : List Unit}
    (h : Sound w.tables) (hs : machine.step w a = some (w', es)) :
    Sound w'.tables := by
  cases a with
  | derive proposals now =>
    obtain ⟨d, d', hd, hsound, -, ht, -⟩ :=
      derive_spec h proposals.considered now
    simp only [machine, UserModel.step, hd] at hs
    cases hs
    rw [ht]
    exact hsound.retired proposals.considered now
  | assertFacet dimension statement supersedes now =>
    simp only [machine, UserModel.step] at hs
    split at hs
    case h_1 =>
      cases hs
      exact h
    case h_2 ha =>
      cases hs
      exact h.assertFacet ha
  | dismiss facetId reason now =>
    simp only [machine, UserModel.step] at hs
    split at hs
    case h_1 =>
      cases hs
      exact h
    case h_2 hd =>
      cases hs
      exact h.dismiss hd

theorem sound_empty : Sound empty.tables where
  ids := List.nodup_nil
  below := fun _ hf => absurd hf List.not_mem_nil
  evidence := fun _ he => absurd he List.not_mem_nil
  unique := fun _ hf => absurd hf List.not_mem_nil
  computed := fun _ hf => absurd hf List.not_mem_nil
  dated := fun _ hf => absurd hf List.not_mem_nil

end UserModel

end MemoryOS
