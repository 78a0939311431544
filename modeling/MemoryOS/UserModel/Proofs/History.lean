/-
Supersessions: what `history` returns, and what it has lost.

Abstractly the facets are a table of keys and pointers (`links`), and
`Lib.Lines` says what such a table keeps while only keys without a pointer
are replaced. `derive` replaces live facets, which have none
(`lines_derive`). `assert_facet` replaces whatever it is given: on a facet
that has a pointer already it writes over it, and the facet that was there
is cut off from its past (`unforgotten_iff`).

`history_spec` is the walk itself. Both loops end, because pointers lead to
later identifiers, and what they return is the whole chain.
-/
import MemoryOS.Lib.Pointer
import MemoryOS.UserModel.Proofs.Steps

namespace MemoryOS

open Lib Lib.Pointer

namespace UserModel

-- ====== statement vocabulary

/-- Where the facet with an identifier points. -/
def pointer (t : Tables) (n : Id) : Option Id :=
  (t.facet n).bind Facet.supersededBy

/-- `history`, called on any facet of the chain, comes to its end with the
whole of it, in order. -/
structure Told (w : World) (f : Facet) (chain : List Facet) : Prop where
  returns : ∃ n, ∀ fuel, n ≤ fuel →
    history w.tables fuel f.id = some (.ok chain)
  member : f ∈ chain
  whole : Whole (pointer w.tables) (chain.map Facet.id)
  /-- Every supersession of a member is in it. -/
  complete : ∀ s ∈ w.supersessions,
    s.1 ∈ chain.map Facet.id ∨ s.2 ∈ chain.map Facet.id →
      [s.1, s.2] <:+: chain.map Facet.id

/-- No correction is forgotten. -/
structure Unforgotten (w : World) : Prop where
  /-- The pointers form chains that are disjoint and do not branch. -/
  linear : Linear (pointer w.tables)
  acyclic : Acyclic (pointer w.tables)
  /-- No pointer that was set is written over. -/
  kept : ∀ s ∈ w.supersessions, pointer w.tables s.1 = some s.2
  told : ∀ f ∈ w.tables.facets, ∃ chain, Told w f chain

/-- A call of `assert_facet` that goes through restates a facet that
nothing has superseded yet. -/
def Restates (w : World) : Action → Prop
  | .assertFacet _ statement (some previous) _ =>
    (strip statement).isEmpty = false →
      ∀ f, w.tables.facet previous = some f → f.supersededBy = none
  | _ => True

-- =========== links

/-- The facets as keys and pointers. -/
def links (t : Tables) : List (Nat × Option Nat) :=
  t.facets.map fun f => (f.id, f.supersededBy)

/-- The tables, the keys given and the log. -/
def Linked (w : World) : Prop :=
  Lines (links w.tables) w.tables.nextId w.supersessions

variable {t : Tables} {now : Timestamp} {w : World}

theorem mem_links {n : Nat} {p : Option Nat} :
    (n, p) ∈ links t ↔ ∃ f ∈ t.facets, f.id = n ∧ f.supersededBy = p := by
  simp only [links, List.mem_map, Prod.mk.injEq]

theorem Sound.hop_iff (h : Sound t) {a b : Nat} :
    Hop (pointer t) a b ↔ (a, some b) ∈ links t := by
  rw [mem_links, Hop, pointer]
  constructor
  · intro hab
    cases hf : t.facet a with
    | none =>
      rw [hf] at hab
      cases hab
    | some f =>
      rw [hf] at hab
      exact ⟨f, (facet_some hf).1, (facet_some hf).2, hab⟩
  · rintro ⟨f, hf, rfl, hptr⟩
    rw [h.facet_eq hf]
    exact hptr

theorem links_supersede (t : Tables) (n b : Id) (now : Timestamp)
    (reason : Facet → Text) :
    links (t.update n fun f => f.supersede b now (reason f))
      = point (links t) n b := by
  simp only [links, Tables.update, point, List.map_map]
  refine List.map_congr_left fun f _ => ?_
  simp only [Function.comp]
  split
  case isTrue => rfl
  case isFalse => rfl

theorem links_written (t : Tables) (c : Candidate) (now : Timestamp) :
    links (written t c now) = links t ++ [(t.nextId, none)] := by
  simp only [links, written_facets, List.map_append]
  rfl

theorem links_rewritten (t : Tables) (f : Facet) (c : Candidate)
    (now : Timestamp) :
    links (rewritten t f c now)
      = point (links t) f.id t.nextId ++ [(t.nextId, none)] := by
  rw [← links_supersede t f.id t.nextId now fun g => restatedReason g c]
  simp only [links, rewritten_facets, List.map_append]
  rfl

theorem links_retired (t : Tables) (considered : List Candidate)
    (now : Timestamp) : links (retired t considered now) = links t := by
  simp only [links, retired, List.map_map]
  refine List.map_congr_left fun f _ => ?_
  simp only [Function.comp, (retire_frame considered now f).1,
    (retire_frame considered now f).2.2.1]

-- ======= the calls

theorem Sound.unpointed (h : Sound t) {f : Facet}
    (hf : f ∈ t.facets) (hlive : f.liveDerived = true) :
    (f.id, none) ∈ links t := by
  refine mem_links.2 ⟨f, hf, rfl, ?_⟩
  cases hptr : f.supersededBy with
  | none => rfl
  | some b =>
    have hdate := h.dated f hf (by rw [hptr]; rfl)
    rw [(liveDerived_iff.1 hlive).2.1] at hdate
    cases hdate

theorem lines_considerAll {dismissed : List (Option String × Option String)} {cs : List Candidate} {log : List (Nat × Nat)} :
    ∀ {d d' : Derivation}, Sound d.tables →
      Lines (links d.tables) d.tables.nextId (log ++ d.superseded) →
      considerAll dismissed now d cs = .ok d' →
      Lines (links d'.tables) d'.tables.nextId (log ++ d'.superseded) := by
  induction cs with
  | nil =>
    intro d d' _ hl hd
    cases hd
    exact hl
  | cons c rest ih =>
    intro d d' h hl hd
    obtain ⟨d₁, hd₁, hcases⟩ := consider_cases h dismissed now c
    simp only [considerAll, hd₁] at hd
    refine ih (h.consider hd₁) ?_ hd
    rcases hcases with ⟨-, ht, hs⟩ | ⟨-, ht, hs, -⟩
      | ⟨f, hf, hlive, -, -, ht, hs⟩
    · rw [ht, hs]
      exact hl
    · rw [ht, hs, links_written]
      exact hl.add (Nat.lt_of_lt_of_le (Nat.lt_succ_self _)
        (Nat.le_add_right _ _))
    · rw [ht, hs, links_rewritten, ← List.append_assoc]
      exact hl.replace (Nat.lt_of_lt_of_le (Nat.lt_succ_self _)
        (Nat.le_add_right _ _)) (h.unpointed hf hlive)

theorem lines_derive (h : Sound t) {log : List (Nat × Nat)}
    (hl : Lines (links t) t.nextId log) (considered : List Candidate)
    (now : Timestamp) :
    ∃ d, derive t considered now = .ok d
      ∧ Lines (links d.tables) d.tables.nextId (log ++ d.superseded) := by
  obtain ⟨d, d', hd, -, ⟨start, hstart, hnone, hloop⟩, ht, hs⟩ :=
    derive_spec h considered now
  refine ⟨d, hd, ?_⟩
  rw [ht, hs, links_retired]
  refine lines_considerAll (d := start) ?_ ?_ hloop
  · rw [hstart]
    exact h
  · rw [hstart, hnone, List.append_nil]
    exact hl

theorem links_asserted (t : Tables) (dimension : Dimension) (text : Text)
    (now : Timestamp) :
    links (asserted t dimension text now) = links t ++ [(t.nextId, none)] := by
  simp only [links, asserted, List.map_append]
  rfl

theorem point_append {ls : List (Nat × Option Nat)} {a n : Nat}
    (h : n ≠ a) (b : Nat) :
    point (ls ++ [(n, none)]) a b = point ls a b ++ [(n, none)] := by
  simp only [point, List.map_append, List.map_cons, List.map_nil, if_neg h]

theorem linked_dismiss {t' : Tables} {facetId : Id} {reason : Text} (hd : dismiss t facetId reason now = .ok t') :
    links t' = links t ∧ t'.nextId = t.nextId := by
  rw [dismiss_cases hd]
  refine ⟨?_, rfl⟩
  simp only [links, Tables.update, List.map_map]
  refine List.map_congr_left fun f _ => ?_
  simp only [Function.comp]
  split <;> rfl

theorem linked_assertFacet {t' : Tables} (h : Sound t)
    {dimension : Dimension} {statement : Text} {supersedes : Option Id} {id : Id}
    (ha : assertFacet t dimension statement supersedes now = .ok (t', id)) :
    id = t.nextId ∧ t'.nextId = t.nextId + 1
      ∧ ((supersedes = none ∧ links t' = links t ++ [(t.nextId, none)])
        ∨ ∃ f ∈ t.facets, supersedes = some f.id
          ∧ links t' = point (links t) f.id t.nextId ++ [(t.nextId, none)]) := by
  obtain ⟨hid, ⟨hnone, ht⟩ | ⟨previous, f, hsome, hf, ht⟩⟩ :=
    assertFacet_cases ha
  · refine ⟨hid, by rw [ht]; rfl, .inl ⟨hnone, ?_⟩⟩
    rw [ht]
    exact links_asserted _ _ _ _
  · obtain ⟨hmem, rfl⟩ := facet_some hf
    refine ⟨hid, by rw [ht]; rfl, .inr ⟨f, hmem, hsome, ?_⟩⟩
    rw [ht, links_supersede _ _ _ _ fun _ => "restated by hand".toList,
      links_asserted]
    exact point_append (Nat.ne_of_gt (h.below f hmem)) _

-- ======== the walk

theorem earlier_cases (h : Sound t)
    (hlin : Linear (pointer t)) (n : Id) :
    (earlier t n = .ok none ∧ ∀ a, ¬ Hop (pointer t) a n)
      ∨ ∃ f ∈ t.facets, earlier t n = .ok (some f)
          ∧ f.supersededBy = some n := by
  have hmem : ∀ f, f ∈ t.facets.filter (fun f =>
      decide (f.supersededBy = some n))
      ↔ f ∈ t.facets ∧ f.supersededBy = some n := by
    intro f
    rw [List.mem_filter, decide_eq_true_eq]
  have hnodup : (t.facets.filter fun f =>
      decide (f.supersededBy = some n)).Nodup :=
    (List.Nodup.of_map _ h.ids).filter _
  unfold earlier
  cases hl : t.facets.filter fun f => decide (f.supersededBy = some n) with
  | nil =>
    refine .inl ⟨rfl, fun a ha => ?_⟩
    obtain ⟨f, hf, -, hptr⟩ := mem_links.1 (h.hop_iff.1 ha)
    have := (hmem f).2 ⟨hf, hptr⟩
    rw [hl] at this
    exact absurd this List.not_mem_nil
  | cons f rest =>
    have hf := (hmem f).1 (by rw [hl]; exact List.mem_cons_self)
    cases rest with
    | nil => exact .inr ⟨f, hf.1, rfl, hf.2⟩
    | cons g rest =>
      have hg := (hmem g).1 (by
        rw [hl]
        exact List.mem_cons_of_mem _ List.mem_cons_self)
      have hsame : f = g := h.eq_of_id hf.1 hg.1 (hlin f.id g.id n
        (h.hop_iff.2 (mem_links.2 ⟨f, hf.1, rfl, hf.2⟩))
        (h.hop_iff.2 (mem_links.2 ⟨g, hg.1, rfl, hg.2⟩)))
      rw [hl, hsame] at hnodup
      exact absurd List.mem_cons_self (List.nodup_cons.1 hnodup).1

theorem backwards_spec (h : Sound t)
    (hlin : Linear (pointer t))
    (hrise : ∀ a b, Hop (pointer t) a b → a < b) {fuel : Nat} :
    ∀ {first : Facet} (rest : List Facet), first ∈ t.facets →
      first.id < fuel → ∃ pre,
        (∀ more, fuel ≤ more →
          backwards t more first rest = some (.ok (pre ++ first :: rest)))
        ∧ ((pre ++ [first]).map Facet.id).IsChain (Hop (pointer t))
        ∧ ∀ b, ((pre ++ [first]).map Facet.id).head? = some b →
            ∀ a, ¬ Hop (pointer t) a b := by
  induction fuel with
  | zero => exact fun _ _ hlt => absurd hlt (Nat.not_lt_zero _)
  | succ fuel ih =>
    intro first rest hfirst hlt
    rcases earlier_cases h hlin first.id with ⟨hnone, hfree⟩
      | ⟨f, hf, hsome, hptr⟩
    · refine ⟨[], fun more hmore => ?_, List.isChain_singleton _, ?_⟩
      · obtain ⟨more, rfl⟩ : ∃ m, more = m + 1 := ⟨more - 1, by omega⟩
        simp only [backwards, hnone]
        rfl
      · intro b hb
        cases hb
        exact hfree
    · have hop : Hop (pointer t) f.id first.id :=
        h.hop_iff.2 (mem_links.2 ⟨f, hf, rfl, hptr⟩)
      have hless := hrise _ _ hop
      obtain ⟨pre, hrun, hchain, hhead⟩ := ih (first :: rest) hf
        (Nat.lt_of_lt_of_le hless (Nat.le_of_lt_succ hlt))
      refine ⟨pre ++ [f], fun more hmore => ?_, ?_, ?_⟩
      · obtain ⟨more, rfl⟩ : ∃ m, more = m + 1 := ⟨more - 1, by omega⟩
        simp only [backwards, hsome]
        rw [hrun more (by omega), List.append_assoc]
        rfl
      · rw [List.map_append, List.map_cons, List.map_nil] at hchain ⊢
        rw [List.map_append, List.append_assoc]
        exact List.isChain_split.2 ⟨hchain, List.isChain_pair.2 hop⟩
      · intro b hb
        refine hhead b ?_
        rw [List.map_append, List.head?_append_of_ne_nil _ (by simp)] at hb
        exact hb

theorem forwards_spec (h : Sound t)
    (hrise : ∀ a b, Hop (pointer t) a b → a < b)
    (htarget : ∀ a b, Hop (pointer t) a b → ∃ f, t.facet b = some f)
    {fuel : Nat} :
    ∀ {last : Facet}, last ∈ t.facets → t.nextId ≤ last.id + fuel →
      ∃ rest, (∀ more, fuel ≤ more → forwards t more last = some rest)
        ∧ ((last :: rest).map Facet.id).IsChain (Hop (pointer t))
        ∧ ∀ a, ((last :: rest).map Facet.id).getLast? = some a →
            ∀ b, ¬ Hop (pointer t) a b := by
  induction fuel with
  | zero =>
    intro last hlast hle
    exact absurd (h.below last hlast) (Nat.not_lt.2 hle)
  | succ fuel ih =>
    intro last hlast hle
    have hself : pointer t last.id = last.supersededBy := by
      rw [pointer, h.facet_eq hlast]
      rfl
    cases hptr : last.supersededBy with
    | none =>
      refine ⟨[], fun more hmore => ?_, List.isChain_singleton _, ?_⟩
      · obtain ⟨more, rfl⟩ : ∃ m, more = m + 1 := ⟨more - 1, by omega⟩
        simp only [forwards, hptr]
      · intro a ha b hab
        have ha : last.id = a := Option.some.inj ha
        rw [Hop, ← ha, hself, hptr] at hab
        cases hab
    | some b =>
      have hop : Hop (pointer t) last.id b := hself.trans hptr
      obtain ⟨f, hf⟩ := htarget _ _ hop
      obtain ⟨hmem, rfl⟩ := facet_some hf
      have hless := hrise _ _ hop
      obtain ⟨rest, hrun, hchain, hend⟩ := ih hmem (Nat.le_trans hle (by
        rw [Nat.add_comm fuel 1, ← Nat.add_assoc]
        exact Nat.add_le_add_right hless fuel))
      refine ⟨f :: rest, fun more hmore => ?_, ?_, ?_⟩
      · obtain ⟨more, rfl⟩ : ∃ m, more = m + 1 := ⟨more - 1, by omega⟩
        simp only [forwards, hptr, hf, hrun more (by omega)]
        rfl
      · exact List.isChain_cons_cons.2 ⟨hop, hchain⟩
      · intro a ha
        refine hend a ?_
        rw [List.map_cons, List.map_cons, List.getLast?_cons_cons] at ha
        exact ha

theorem Linked.linear (hl : Linked w) (h : Sound w.tables) :
    Linear (pointer w.tables) :=
  fun a b c hac hbc => Lines.linear hl a b c (h.hop_iff.1 hac) (h.hop_iff.1 hbc)

theorem history_spec (h : Sound w.tables) (hl : Linked w)
    {f : Facet} (hf : f ∈ w.tables.facets) : ∃ chain, Told w f chain := by
  have hlin := hl.linear h
  have hrise : ∀ a b, Hop (pointer w.tables) a b → a < b :=
    fun a b hab => Lines.rises hl a b (h.hop_iff.1 hab)
  have htarget : ∀ a b, Hop (pointer w.tables) a b →
      ∃ g, w.tables.facet b = some g := by
    intro a b hab
    obtain ⟨p, hp⟩ := Lines.target hl a b (h.hop_iff.1 hab)
    obtain ⟨g, hg, rfl, -⟩ := mem_links.1 hp
    exact ⟨g, h.facet_eq hg⟩
  have hbelow := h.below f hf
  obtain ⟨pre, hback, hbchain, hfirst⟩ :=
    backwards_spec h hlin hrise [] hf hbelow
  obtain ⟨rest, hfwd, hfchain, hlast⟩ :=
    forwards_spec h hrise htarget hf (Nat.le_add_left w.tables.nextId f.id)
  have hwhole : Whole (pointer w.tables)
      ((pre ++ f :: rest).map Facet.id) := by
    rw [List.map_append, List.map_cons] at hbchain hfirst ⊢
    rw [List.map_cons] at hfchain hlast
    refine ⟨List.isChain_split.2 ⟨hbchain, hfchain⟩, fun b hb => ?_,
      fun a ha => ?_⟩
    · refine hfirst b ?_
      cases pre with
      | nil => exact hb
      | cons g pre => exact hb
    · refine hlast a ?_
      rw [List.getLast?_append_of_ne_nil _ (by simp)] at ha
      exact ha
  refine ⟨pre ++ f :: rest,
    ⟨⟨w.tables.nextId, fun fuel hfuel => ?_⟩,
      List.mem_append_right _ List.mem_cons_self, hwhole, fun s hs hmem => ?_⟩⟩
  · simp only [history, h.facet_eq hf, hback fuel hfuel, hfwd fuel hfuel,
      Option.map_some, List.append_assoc, List.cons_append, List.nil_append]
  · exact hwhole.infix hlin (h.hop_iff.2 ((Lines.logged hl s.1 s.2).1 hs)) hmem

theorem Linked.unforgotten (h : Sound w.tables) (hl : Linked w) :
    Unforgotten w where
  linear := hl.linear h
  acyclic := acyclic_of_rising fun a b hab =>
    Lines.rises hl a b (h.hop_iff.1 hab)
  kept := fun s hs => h.hop_iff.2 ((Lines.logged hl s.1 s.2).1 hs)
  told := fun _ hf => history_spec h hl hf

-- ====== the whole run

theorem Linked.step {w w' : World} {a : Action} {es : List Unit}
    (hl : Linked w) (h : Sound w.tables)
    (hs : machine.step w a = some (w', es)) (hr : Restates w a) :
    Linked w' := by
  cases a with
  | derive proposals now =>
    obtain ⟨d, hd, hlines⟩ := lines_derive h hl proposals.considered now
    simp only [machine, UserModel.step, hd] at hs
    cases hs
    exact hlines
  | assertFacet dimension statement supersedes now =>
    simp only [machine, UserModel.step] at hs
    split at hs
    case h_1 =>
      cases hs
      exact hl
    case h_2 t id ha =>
      cases hs
      obtain ⟨rfl, hnext, hcases⟩ := linked_assertFacet h ha
      unfold Linked
      simp only [hnext]
      rcases hcases with ⟨rfl, hlinks⟩ | ⟨f, hf, rfl, hlinks⟩
      · rw [hlinks]
        exact (List.append_nil w.supersessions).symm ▸
          hl.add (Nat.lt_succ_self _)
      · have htext : (strip statement).isEmpty = false := by
          cases hempty : (strip statement).isEmpty with
          | false => rfl
          | true => simp [assertFacet, hempty] at ha
        rw [hlinks]
        refine hl.replace (Nat.lt_succ_self _)
          (mem_links.2 ⟨f, hf, rfl, ?_⟩)
        exact hr htext f (h.facet_eq hf)
  | dismiss facetId reason now =>
    simp only [machine, UserModel.step] at hs
    split at hs
    case h_1 =>
      cases hs
      exact hl
    case h_2 t hd =>
      cases hs
      obtain ⟨hlinks, hnext⟩ := linked_dismiss hd
      unfold Linked
      simp only [hlinks, hnext]
      exact hl

theorem restates_of_unforgotten {w' : World} {a : Action} {es : List Unit}
    (hl : Linked w) (h : Sound w.tables)
    (hs : machine.step w a = some (w', es)) (hP : Unforgotten w') :
    Restates w a := by
  cases a with
  | derive proposals now => trivial
  | dismiss facetId reason now => trivial
  | assertFacet dimension statement supersedes now =>
    cases supersedes with
    | none => trivial
    | some previous =>
      intro htext f hf
      obtain ⟨hmem, rfl⟩ := facet_some hf
      have h' := h.step hs
      cases hptr : f.supersededBy with
      | none => rfl
      | some b =>
        exfalso
        -- the supersession that is written over
        have hlogged : (f.id, b) ∈ w.supersessions :=
          (Lines.logged hl f.id b).2 (mem_links.2 ⟨f, hmem, rfl, hptr⟩)
        have hgo : ∃ t id, assertFacet w.tables dimension statement
            (some f.id) now = .ok (t, id) := by
          simp only [assertFacet, htext, hf, Bool.false_eq_true,
            if_false]
          exact ⟨_, _, rfl⟩
        obtain ⟨t, id, ha⟩ := hgo
        simp only [machine, UserModel.step, ha] at hs
        cases hs
        have hkept := hP.kept (f.id, b)
          (List.mem_append_left _ hlogged)
        obtain ⟨-, -, ⟨hnone, -⟩ | ⟨g, hg, hsome, hlinks⟩⟩ :=
          linked_assertFacet h ha
        · cases hnone
        · have hid : f.id = g.id := Option.some.inj hsome
          have hnew : (f.id, some w.tables.nextId) ∈ links t := by
            rw [hlinks, hid]
            refine List.mem_append_left _ (List.mem_map.2 ?_)
            exact ⟨_, mem_links.2 ⟨g, hg, rfl, rfl⟩, if_pos rfl⟩
          have hnew := h'.hop_iff.2 hnew
          rw [Hop, hkept, Option.some.injEq] at hnew
          have hbelow : b < w.tables.nextId := by
            obtain ⟨p, hp⟩ := Lines.target hl f.id b
              (mem_links.2 ⟨f, hmem, rfl, hptr⟩)
            exact Lines.below hl _ hp
          exact absurd hnew (Nat.ne_of_lt hbelow)

/-- No correction is forgotten in a run exactly when every restatement that
goes through is of a facet that nothing has superseded yet. -/
theorem unforgotten_iff (acts : List Action) :
    machine.Always Unforgotten empty acts
      ↔ machine.EveryStep Restates empty acts :=
  Machine.always_iff_everyStep
    (fun w => Sound w.tables ∧ Linked w)
    (fun _ h => h.2.unforgotten h.1)
    (fun _ _ _ _ h hs hr => ⟨h.1.step hs, h.2.step h.1 hs hr⟩)
    (fun _ _ _ _ h hs hP => restates_of_unforgotten h.2 h.1 hs hP)
    ⟨sound_empty, Lines.empty 0⟩

-- ------ a correction written over

/-- A goal is stated, restated, and its first statement restated again. -/
def restatedTwice : List Action :=
  [.assertFacet .goals "ship by June".toList none 0,
    .assertFacet .goals "ship by July".toList (some 0) 1,
    .assertFacet .goals "ship by May".toList (some 0) 2]

/-- The first correction's pointer is gone. -/
theorem not_unforgotten :
    ¬ ∀ acts : List Action, machine.Always Unforgotten empty acts := by
  intro hall
  have hend := @Machine.Always.last _ _ _ machine Unforgotten _ _
    restatedTwice [] (hall _) rfl
  exact absurd (hend.kept (0, 1) (by decide)) (by decide)

end UserModel

end MemoryOS
