/-
Owners absorbed into owners.

Things sit at places of an owner, at most one thing at a place. When an
owner gives way to another its things move over, except those whose place
the other has taken: these are dropped.

# Taking one link out

`absorbAll_erase`: without one link of a sequence, the things whose owner
led to the one that gave way are back with it and the others are where they
are now, as long as no place was contested between the two sides of the link.
`putBack_iff`: giving the loser the things recorded for the link has that
effect exactly when no place was contested and everything recorded that is
still there belongs to an owner that still leads to the loser.
-/
import Mathlib.Logic.Relation
import Mathlib.Data.List.Induction
import MemoryOS.Lib.Pointer

namespace MemoryOS.Lib.Absorb

/-- One owner absorbs another. -/
structure Link (ε : Type) where
  winner : ε
  loser : ε
deriving DecidableEq

variable {κ ε π : Type}

-- ====== the owners

/-- The links' pointers lead from `a` to `b`. -/
def Leads (ms : List (Link ε)) : ε → ε → Prop :=
  Relation.ReflTransGen fun a b => (⟨b, a⟩ : Link ε) ∈ ms

/-- Whoever gave way takes no part in a later link. -/
def Orderly (ms : List (Link ε)) : Prop :=
  (ms.Pairwise fun m m' => m.loser ≠ m'.loser ∧ m.loser ≠ m'.winner)
    ∧ ∀ m ∈ ms, m.winner ≠ m.loser

variable {ms pre post : List (Link ε)} {m k : Link ε} {a b r : ε}

theorem Orderly.sublist (h : Orderly ms) {ms' : List (Link ε)}
    (hs : ms'.Sublist ms) : Orderly ms' :=
  ⟨h.1.sublist hs, fun m hm => h.2 m (hs.subset hm)⟩

theorem Orderly.concat (h : Orderly ms) (hne : m.winner ≠ m.loser)
    (hl : ∀ m' ∈ ms, m'.loser ≠ m.loser)
    (hw : ∀ m' ∈ ms, m'.loser ≠ m.winner) : Orderly (ms ++ [m]) := by
  refine ⟨List.pairwise_append.mpr ⟨h.1, List.pairwise_singleton _ _, ?_⟩, ?_⟩
  · intro m' hm' m'' hm''
    rw [List.mem_singleton.mp hm'']
    exact ⟨hl m' hm', hw m' hm'⟩
  · intro m' hm'
    rcases List.mem_append.mp hm' with hm' | hm'
    · exact h.2 m' hm'
    · rw [List.mem_singleton.mp hm']
      exact hne

theorem Orderly.around (h : Orderly (pre ++ k :: post)) :
    k.winner ≠ k.loser
      ∧ (∀ m ∈ pre, m.loser ≠ k.loser ∧ m.loser ≠ k.winner)
      ∧ ∀ m ∈ post, k.loser ≠ m.loser ∧ k.loser ≠ m.winner := by
  obtain ⟨-, hpost, hcross⟩ := List.pairwise_append.mp h.1
  refine ⟨h.2 k (by simp), ?_, ?_⟩
  · exact fun m hm => hcross m hm k List.mem_cons_self
  · exact fun m hm => (List.pairwise_cons.mp hpost).1 m hm

theorem Leads.mono (h : Leads pre a b) (hs : pre ⊆ ms) : Leads ms a b :=
  Relation.ReflTransGen.mono (fun _ _ hmem => hs hmem) _ _ h

variable [DecidableEq ε]

/-- Where an owner's things are after the links, in their order. -/
def root (ms : List (Link ε)) (a : ε) : ε :=
  ms.foldl (fun r m => if r = m.loser then m.winner else r) a

/-- The pointer of an owner that gave way. -/
def next (ms : List (Link ε)) (a : ε) : Option ε :=
  (ms.find? fun m => decide (m.loser = a)).map (·.winner)

theorem root_append : root (pre ++ post) a = root post (root pre a) :=
  List.foldl_append

theorem root_cons : root (m :: ms) a
    = root ms (if a = m.loser then m.winner else a) := rfl

theorem root_concat : root (ms ++ [m]) a
    = if root ms a = m.loser then m.winner else root ms a := root_append

theorem root_of_not_loser (h : ∀ m ∈ ms, m.loser ≠ a) : root ms a = a := by
  induction ms with
  | nil => rfl
  | cons m rest ih =>
    rw [root_cons, if_neg (Ne.symm (h m List.mem_cons_self))]
    exact ih fun m' hm' => h m' (List.mem_cons_of_mem _ hm')

theorem root_cases (ms : List (Link ε)) (a : ε) :
    root ms a = a ∨ ∃ m ∈ ms, m.winner = root ms a := by
  induction ms generalizing a with
  | nil => exact .inl rfl
  | cons m rest ih =>
    rw [root_cons]
    rcases ih (if a = m.loser then m.winner else a) with h | ⟨m', hm', h⟩
    · rw [h]
      by_cases ha : a = m.loser
      · exact .inr ⟨m, List.mem_cons_self, by rw [if_pos ha]⟩
      · exact .inl (if_neg ha)
    · exact .inr ⟨m', List.mem_cons_of_mem _ hm', h⟩

theorem Orderly.root_pre (h : Orderly (pre ++ k :: post)) :
    root pre k.loser = k.loser :=
  root_of_not_loser fun m hm => (h.around.2.1 m hm).1

theorem Orderly.root_erase_iff (h : Orderly (pre ++ k :: post)) :
    root (pre ++ post) a = k.loser ↔ root pre a = k.loser := by
  obtain ⟨-, -, hpost⟩ := h.around
  rw [root_append]
  constructor
  · intro hr
    rcases root_cases post (root pre a) with hc | ⟨m, hm, hc⟩
    · rw [← hc, hr]
    · exact absurd (hc.trans hr).symm (hpost m hm).2
  · intro hr
    rw [hr]
    exact root_of_not_loser fun m hm => Ne.symm (hpost m hm).1

theorem root_erase (ha : root pre a ≠ k.loser) :
    root (pre ++ k :: post) a = root (pre ++ post) a := by
  rw [root_append, root_append, root_cons, if_neg ha]

theorem Orderly.root_loser (h : Orderly (pre ++ k :: post))
    (ha : root pre a = k.loser) :
    root (pre ++ k :: post) a = root (pre ++ k :: post) k.loser := by
  rw [root_append, root_append, ha, h.root_pre]

theorem Orderly.root_ne_loser (h : Orderly (pre ++ k :: post)) :
    root (pre ++ k :: post) a ≠ k.loser := by
  obtain ⟨hne, -, hpost⟩ := h.around
  rw [root_append, root_cons]
  intro hr
  rcases root_cases post
    (if root pre a = k.loser then k.winner else root pre a) with hc | ⟨m, hm, hc⟩
  · rw [hr] at hc
    by_cases ha : root pre a = k.loser
    · rw [if_pos ha] at hc
      exact hne hc.symm
    · rw [if_neg ha] at hc
      exact ha hc.symm
  · exact (hpost m hm).2 (hc.trans hr).symm

-- ====== the pointers

theorem Orderly.root_hop (h : Orderly ms) (hm : m ∈ ms) :
    root ms m.loser = root ms m.winner := by
  obtain ⟨pre, post, rfl⟩ := List.append_of_mem hm
  obtain ⟨hne, hpre, -⟩ := h.around
  have hw : root pre m.winner = m.winner :=
    root_of_not_loser fun m' hm' => (hpre m' hm').2
  rw [root_append, root_append, h.root_pre, hw, root_cons, root_cons,
    if_pos rfl, if_neg hne]

theorem leads_root : Leads ms a (root ms a) := by
  induction ms using List.reverseRecOn with
  | nil => exact .refl
  | append_singleton rest m ih =>
    have hmono : Leads (rest ++ [m]) a (root rest a) :=
      ih.mono (List.subset_append_left _ _)
    rw [root_append]
    show Leads (rest ++ [m]) a
      (if root rest a = m.loser then m.winner else root rest a)
    by_cases hr : root rest a = m.loser
    · rw [if_pos hr]
      refine hmono.tail (List.mem_append_right _ ?_)
      rw [hr]
      exact List.mem_singleton_self _
    · rw [if_neg hr]
      exact hmono

theorem Orderly.leads_loser_iff (h : Orderly (pre ++ k :: post)) :
    Leads (pre ++ k :: post) a k.loser ↔ root pre a = k.loser := by
  constructor
  · intro hp
    induction hp using Relation.ReflTransGen.head_induction_on with
    | refl => exact h.root_pre
    | head hmem hrest ih =>
      rename_i c d
      rcases List.mem_append.mp hmem with hc | hc
      · have hpre : Orderly pre := h.sublist (List.sublist_append_left _ _)
        exact (hpre.root_hop hc).trans ih
      · rcases List.mem_cons.mp hc with hc | hc
        · have : c = k.loser := congrArg Link.loser hc
          rw [this]
          exact h.root_pre
        · -- a later link's winner is its own root up to here
          have hw : root pre d = d := by
            obtain ⟨-, hpw, hcross⟩ := List.pairwise_append.mp h.1
            exact root_of_not_loser fun m hm =>
              (hcross m hm ⟨d, c⟩ (List.mem_cons_of_mem _ hc)).2
          exact absurd (ih.symm.trans hw) (h.around.2.2 ⟨d, c⟩ hc).2
  · intro hr
    have hp : Leads pre a k.loser := hr ▸ leads_root
    exact hp.mono (List.subset_append_left _ _)

theorem Orderly.leads_concat_iff (h : Orderly (ms ++ [m])) (hk : k ∈ ms) :
    Leads (ms ++ [m]) a k.loser ↔ Leads ms a k.loser := by
  obtain ⟨pre, post, rfl⟩ := List.append_of_mem hk
  have hms : Orderly (pre ++ k :: post) :=
    h.sublist (List.sublist_append_left _ _)
  rw [hms.leads_loser_iff]
  rw [List.append_assoc, List.cons_append] at h ⊢
  exact h.leads_loser_iff

theorem Orderly.next_eq_some_iff (h : Orderly ms) :
    next ms a = some b ↔ (⟨b, a⟩ : Link ε) ∈ ms := by
  unfold next
  constructor
  · intro hn
    obtain ⟨m, hm, rfl⟩ := Option.map_eq_some_iff.mp hn
    have hl : m.loser = a := by simpa using List.find?_some hm
    subst hl
    exact List.mem_of_find?_eq_some hm
  · intro hmem
    obtain ⟨pre, post, rfl⟩ := List.append_of_mem hmem
    have hnone : pre.find? (fun m => decide (m.loser = a)) = none := by
      rw [List.find?_eq_none]
      intro m hm
      simpa using (h.around.2.1 m hm).1
    rw [List.find?_append, hnone]
    simp

theorem next_eq_none_iff : next ms a = none ↔ ∀ m ∈ ms, m.loser ≠ a := by
  unfold next
  rw [Option.map_eq_none_iff, List.find?_eq_none]
  simp

theorem next_concat (hl : ∀ m' ∈ ms, m'.loser ≠ m.loser) :
    next (ms ++ [m]) a = if a = m.loser then some m.winner else next ms a := by
  unfold next
  rw [List.find?_append]
  by_cases ha : a = m.loser
  · subst ha
    have hnone := next_eq_none_iff.mpr hl
    unfold next at hnone
    rw [Option.map_eq_none_iff] at hnone
    rw [hnone]
    simp
  · rw [if_neg ha]
    cases ms.find? fun m' => decide (m'.loser = a) with
    | some x => rfl
    | none => simp [Ne.symm ha]

theorem Orderly.next_erase (h : Orderly (pre ++ k :: post)) :
    next (pre ++ post) a
      = if a = k.loser then none else next (pre ++ k :: post) a := by
  obtain ⟨-, hpre, hpost⟩ := h.around
  by_cases ha : a = k.loser
  · subst ha
    rw [if_pos rfl, next_eq_none_iff]
    intro m hm
    rcases List.mem_append.mp hm with hm | hm
    · exact (hpre m hm).1
    · exact Ne.symm (hpost m hm).1
  · rw [if_neg ha]
    unfold next
    rw [List.find?_append, List.find?_append, List.find?_cons]
    simp [Ne.symm ha]

theorem Orderly.next_root (h : Orderly ms) : next ms (root ms a) = none := by
  rw [next_eq_none_iff]
  intro m hm hl
  obtain ⟨pre, post, rfl⟩ := List.append_of_mem hm
  exact h.root_ne_loser hl.symm

theorem Orderly.survivor_iff (h : Orderly ms) :
    Pointer.Survivor (next ms) a r ↔ root ms a = r := by
  have hhop : Pointer.Hop (next ms) = fun a b => (⟨b, a⟩ : Link ε) ∈ ms := by
    funext a b
    exact propext h.next_eq_some_iff
  unfold Pointer.Survivor
  rw [hhop]
  constructor
  · rintro ⟨hp, hr⟩
    induction hp using Relation.ReflTransGen.head_induction_on with
    | refl => exact root_of_not_loser (next_eq_none_iff.mp hr)
    | head hmem _ ih => exact (h.root_hop hmem).trans ih
  · rintro rfl
    exact ⟨leads_root, h.next_root⟩

-- ====== the things

variable (place : κ → π)

open Classical in
/-- The loser's things move over, except where the winner has one. -/
noncomputable def absorb (f : κ → Option ε) (m : Link ε) : κ → Option ε :=
  fun i =>
    if f i = some m.loser then
      if ∃ j, f j = some m.winner ∧ place j = place i then none
      else some m.winner
    else f i

/-- The links in their order. -/
noncomputable def absorbAll (f : κ → Option ε) (ms : List (Link ε)) :
    κ → Option ε :=
  ms.foldl (absorb place) f

/-- An owner has at most one thing at a place. -/
def Spread (f : κ → Option ε) : Prop :=
  ∀ i j e, f i = some e → f j = some e → place i = place j → i = j

/-- No place is contested between the things that led to the link's loser
and the others that end where these do. -/
def Separate (f : κ → Option ε) (ms : List (Link ε)) (l : ε) : Prop :=
  ∀ i j a b, f i = some a → f j = some b → place i = place j →
    Leads ms a l → root ms b = root ms l → Leads ms b l

/-- The recorded things go to `l`. -/
def putBack (moved : κ → Prop) [DecidablePred moved] (l : ε)
    (f : κ → Option ε) : κ → Option ε :=
  fun i => if moved i then (f i).map fun _ => l else f i

variable {place} {f g : κ → Option ε} {i j : κ}

theorem absorb_other (h : f i ≠ some m.loser) :
    absorb place f m i = f i := if_neg h

theorem absorb_moved (h : f i = some m.loser)
    (hfree : ∀ j, f j = some m.winner → place j ≠ place i) :
    absorb place f m i = some m.winner := by
  unfold absorb
  rw [if_pos h, if_neg]
  rintro ⟨j, hj, hp⟩
  exact hfree j hj hp

theorem absorb_dropped (h : f i = some m.loser)
    (hj : f j = some m.winner) (hp : place j = place i) :
    absorb place f m i = none := by
  unfold absorb
  rw [if_pos h, if_pos ⟨j, hj, hp⟩]

theorem absorbAll_concat :
    absorbAll place f (ms ++ [m]) = absorb place (absorbAll place f ms) m :=
  List.foldl_append

theorem absorb_owner (h : absorb place f m i = some b) :
    ∃ a, f i = some a ∧ b = if a = m.loser then m.winner else a := by
  unfold absorb at h
  by_cases hl : f i = some m.loser
  · rw [if_pos hl] at h
    split at h
    case isTrue => cases h
    case isFalse =>
      cases h
      exact ⟨_, hl, (if_pos rfl).symm⟩
  · rw [if_neg hl] at h
    refine ⟨b, h, (if_neg ?_).symm⟩
    rintro rfl
    exact hl h

theorem absorbAll_owner (h : absorbAll place f ms i = some b) :
    ∃ a, f i = some a ∧ b = root ms a := by
  induction ms using List.reverseRecOn generalizing b with
  | nil => exact ⟨b, h, rfl⟩
  | append_singleton rest m ih =>
    rw [absorbAll_concat] at h
    obtain ⟨c, hc, rfl⟩ := absorb_owner h
    obtain ⟨a, ha, rfl⟩ := ih hc
    exact ⟨a, ha, root_concat.symm⟩

theorem spread_absorb (h : Spread place f) :
    Spread place (absorb place f m) := by
  have key : ∀ i j e, absorb place f m i = some e →
      absorb place f m j = some e → place i = place j →
      f i = some m.loser → i = j := by
    intro i j e hi hj hp hil
    -- `i` moved, so nothing of the winner's was at its place
    have hfree : ∀ j', f j' = some m.winner → place j' ≠ place i := by
      intro j' hj' hp'
      rw [absorb_dropped hil hj' hp'] at hi
      cases hi
    rw [absorb_moved hil hfree] at hi
    cases hi
    by_cases hjl : f j = some m.loser
    · exact h i j _ hil hjl hp
    · rw [absorb_other hjl] at hj
      exact absurd hp.symm (hfree j hj)
  intro i j e hi hj hp
  by_cases hil : f i = some m.loser
  · exact key i j e hi hj hp hil
  · by_cases hjl : f j = some m.loser
    · exact (key j i e hj hi hp.symm hjl).symm
    · rw [absorb_other hil] at hi
      rw [absorb_other hjl] at hj
      exact h i j e hi hj hp

theorem spread_absorbAll (h : Spread place f) :
    Spread place (absorbAll place f ms) := by
  induction ms using List.reverseRecOn with
  | nil => exact h
  | append_singleton rest m ih =>
    rw [absorbAll_concat]
    exact spread_absorb ih

theorem absorbAll_covers (hne : ∀ m ∈ ms, m.winner ≠ m.loser)
    (h : f i = some a) :
    ∃ j, place j = place i ∧ absorbAll place f ms j = some (root ms a) := by
  induction ms using List.reverseRecOn with
  | nil => exact ⟨i, rfl, h⟩
  | append_singleton rest m ih =>
    obtain ⟨j, hp, hj⟩ := ih fun m' hm' => hne m' (List.mem_append_left _ hm')
    rw [absorbAll_concat, root_concat]
    by_cases hl : root rest a = m.loser
    · rw [if_pos hl]
      rw [hl] at hj
      by_cases hfree : ∃ j', absorbAll place f rest j' = some m.winner
          ∧ place j' = place j
      · obtain ⟨j', hj', hp'⟩ := hfree
        refine ⟨j', hp'.trans hp, ?_⟩
        rw [absorb_other, hj']
        rw [hj']
        simpa using hne m (by simp)
      · refine ⟨j, hp, absorb_moved hj fun j' hj' hp' => ?_⟩
        exact hfree ⟨j', hj', hp'⟩
    · rw [if_neg hl]
      refine ⟨j, hp, ?_⟩
      rw [absorb_other, hj]
      rw [hj]
      simpa using hl

-- ====== taking one link out

theorem Separate.concat (h : Orderly (pre ++ k :: (post ++ [m])))
    (hs : Separate place f (pre ++ k :: (post ++ [m])) k.loser) :
    Separate place f (pre ++ k :: post) k.loser := by
  have hcut : pre ++ k :: (post ++ [m]) = (pre ++ k :: post) ++ [m] := by simp
  have hpre : Orderly (pre ++ k :: post) :=
    h.sublist (hcut ▸ List.sublist_append_left _ _)
  intro i j a b hi hj hp ha hr
  rw [hpre.leads_loser_iff] at ha ⊢
  rw [← h.leads_loser_iff] at ha ⊢
  refine hs i j a b hi hj hp ha ?_
  rw [hcut, root_concat, root_concat, hr]

theorem absorbAll_erase (h : Orderly (pre ++ k :: post))
    (hs : Separate place f (pre ++ k :: post) k.loser) (hi : f i = some a) :
    absorbAll place f (pre ++ post) i
      = if root pre a = k.loser then
          (absorbAll place f (pre ++ k :: post) i).map fun _ => k.loser
        else absorbAll place f (pre ++ k :: post) i := by
  induction post using List.reverseRecOn generalizing i a with
  | nil =>
    rw [List.append_nil, absorbAll_concat]
    by_cases ha : root pre a = k.loser
    · rw [if_pos ha]
      cases hF : absorbAll place f pre i with
      | none =>
        rw [absorb_other (by rw [hF]; simp), hF]
        rfl
      | some c =>
        obtain ⟨a', ha', rfl⟩ := absorbAll_owner hF
        cases hi.symm.trans ha'
        rw [ha] at hF ⊢
        rw [absorb_moved hF]
        · rfl
        · intro j hj hp
          -- the winner's thing there would be the loser's
          obtain ⟨b, hb, hw⟩ := absorbAll_owner hj
          have hend : root (pre ++ [k]) b = root (pre ++ [k]) k.loser := by
            rw [root_concat, root_concat, h.root_pre, if_pos rfl, ← hw,
              if_neg h.around.1]
          have hlead := hs i j a b hi hb hp.symm
            (h.leads_loser_iff.mpr ha) hend
          rw [h.leads_loser_iff, ← hw] at hlead
          exact h.around.1 hlead
    · rw [if_neg ha, absorb_other]
      intro hF
      obtain ⟨a', ha', hl⟩ := absorbAll_owner hF
      cases hi.symm.trans ha'
      exact ha hl.symm
  | append_singleton rest m ih =>
    have hcut : pre ++ k :: (rest ++ [m]) = (pre ++ k :: rest) ++ [m] := by
      simp
    have hpre : Orderly (pre ++ k :: rest) :=
      h.sublist (hcut ▸ List.sublist_append_left _ _)
    have hs' := hs.concat h
    obtain ⟨hkl, hkw⟩ := h.around.2.2 m (by simp)
    have hne : m.winner ≠ m.loser := h.2 m (by simp)
    -- where both links have been taken, a contested place is contested
    have hend : ∀ b, root (pre ++ k :: rest) b = m.winner →
        root (pre ++ k :: (rest ++ [m])) b = m.winner := by
      intro b hb
      rw [hcut, root_concat, hb, if_neg hne]
    have hmoved : ∀ b, root (pre ++ k :: rest) b = m.loser →
        root (pre ++ k :: (rest ++ [m])) b = m.winner := by
      intro b hb
      rw [hcut, root_concat, if_pos hb]
    have hback : ∀ j b, f j = some b → root pre b = k.loser →
        absorbAll place f (pre ++ rest) j ≠ some m.winner
          ∧ absorbAll place f (pre ++ rest) j ≠ some m.loser := by
      intro j b hj hb
      rw [ih hpre hs' hj, if_pos hb]
      cases absorbAll place f (pre ++ k :: rest) j with
      | none => simp
      | some c => simp [hkl, hkw]
    rw [← List.append_assoc, absorbAll_concat,
      show pre ++ k :: (rest ++ [m]) = (pre ++ k :: rest) ++ [m] from hcut,
      absorbAll_concat]
    by_cases ha : root pre a = k.loser
    · rw [absorb_other (hback i a hi ha).2, ih hpre hs' hi, if_pos ha, if_pos ha]
      by_cases hl : absorbAll place f (pre ++ k :: rest) i = some m.loser
      · rw [absorb_moved hl, hl]
        · rfl
        · intro j hj hp
          obtain ⟨b, hb, hw⟩ := absorbAll_owner hj
          obtain ⟨a', ha', hla⟩ := absorbAll_owner hl
          cases hi.symm.trans ha'
          have hroot : root (pre ++ k :: rest) k.loser = m.loser := by
            rw [← hpre.root_loser ha, ← hla]
          have hlead := hs i j a b hi hb hp.symm (h.leads_loser_iff.mpr ha)
            ((hend b hw.symm).trans (hmoved _ hroot).symm)
          have hbl := hpre.root_loser (h.leads_loser_iff.mp hlead)
          exact hne (by rw [hw, hbl, hroot])
      · rw [absorb_other hl]
    · rw [if_neg ha]
      have hsame := ih hpre hs' hi
      rw [if_neg ha] at hsame
      by_cases hl : absorbAll place f (pre ++ k :: rest) i = some m.loser
      · -- a thing in the way is none of the loser's, and in the way of both
        have hway : ∀ j b, f j = some b → place j = place i →
            absorbAll place f (pre ++ k :: rest) j = some m.winner →
            root pre b ≠ k.loser := by
          intro j b hb hp hj hbl
          obtain ⟨b', hb', hw⟩ := absorbAll_owner hj
          cases hb.symm.trans hb'
          obtain ⟨a', ha', hla⟩ := absorbAll_owner hl
          cases hi.symm.trans ha'
          have hlead := hs j i b a hb hi hp (h.leads_loser_iff.mpr hbl)
            ((hmoved a hla.symm).trans
              ((hend b hw.symm).symm.trans (h.root_loser hbl)))
          exact ha (h.leads_loser_iff.mp hlead)
        by_cases hfree : ∃ j, absorbAll place f (pre ++ k :: rest) j
            = some m.winner ∧ place j = place i
        · obtain ⟨j, hj, hp⟩ := hfree
          obtain ⟨b, hb, -⟩ := absorbAll_owner hj
          have hj' := ih hpre hs' hb
          rw [if_neg (hway j b hb hp hj), hj] at hj'
          rw [absorb_dropped hl hj hp,
            absorb_dropped (hsame.trans hl) hj' hp]
        · rw [absorb_moved hl fun j hj hp => hfree ⟨j, hj, hp⟩]
          refine absorb_moved (hsame.trans hl) fun j hj hp => ?_
          obtain ⟨b, hb, -⟩ := absorbAll_owner hj
          by_cases hbl : root pre b = k.loser
          · exact (hback j b hb hbl).1 hj
          · have hj' := ih hpre hs' hb
            rw [if_neg hbl] at hj'
            exact hfree ⟨j, hj'.symm.trans hj, hp⟩
      · rw [absorb_other hl, absorb_other (hsame ▸ hl), hsame]

theorem separate_of_erase (h : Orderly (pre ++ k :: post))
    (hf : Spread place f)
    (hleft : ∀ i, absorbAll place f (pre ++ k :: post) i = none →
      absorbAll place f (pre ++ post) i = none) :
    Separate place f (pre ++ k :: post) k.loser := by
  intro i j a b hi hj hp ha hr
  rw [h.leads_loser_iff] at ha ⊢
  by_contra hb
  have hpost : Orderly (pre ++ post) :=
    h.sublist ((List.Sublist.refl pre).append (List.sublist_cons_self k post))
  -- without the link both sides keep a thing at the place
  obtain ⟨u, hpu, hu⟩ := absorbAll_covers hpost.2 hi
  obtain ⟨v, hpv, hv⟩ := absorbAll_covers hpost.2 hj
  rw [h.root_erase_iff.mpr ha] at hu
  rw [← root_erase hb, hr] at hv
  obtain ⟨c, hc, hcl⟩ := absorbAll_owner hu
  obtain ⟨d, hd, hdr⟩ := absorbAll_owner hv
  have hcl : root pre c = k.loser := h.root_erase_iff.mp hcl.symm
  have hdl : root pre d ≠ k.loser := by
    intro hd'
    rw [h.root_erase_iff.mpr hd'] at hdr
    exact h.root_ne_loser hdr
  -- with it they are with one root, so they are one thing
  have hU : absorbAll place f (pre ++ k :: post) u
      = some (root (pre ++ k :: post) k.loser) := by
    cases hF : absorbAll place f (pre ++ k :: post) u with
    | none => rw [hleft u hF] at hu; cases hu
    | some e =>
      obtain ⟨c', hc', rfl⟩ := absorbAll_owner hF
      cases hc.symm.trans hc'
      rw [h.root_loser hcl]
  have hV : absorbAll place f (pre ++ k :: post) v
      = some (root (pre ++ k :: post) k.loser) := by
    cases hF : absorbAll place f (pre ++ k :: post) v with
    | none => rw [hleft v hF] at hv; cases hv
    | some e =>
      obtain ⟨d', hd', rfl⟩ := absorbAll_owner hF
      cases hd.symm.trans hd'
      rw [root_erase hdl, ← hdr]
  have huv : u = v :=
    spread_absorbAll hf u v _ hU hV (hpu.trans (hp.trans hpv.symm))
  subst huv
  cases hc.symm.trans hd
  exact hdl hcl

theorem putBack_iff (h : Orderly (pre ++ k :: post)) (hf : Spread place f)
    {moved : κ → Prop} [DecidablePred moved]
    (hrec : ∀ i a, f i = some a → Leads (pre ++ k :: post) a k.loser →
      absorbAll place f (pre ++ k :: post) i ≠ none → moved i) :
    putBack moved k.loser (absorbAll place f (pre ++ k :: post))
        = absorbAll place f (pre ++ post)
      ↔ Separate place f (pre ++ k :: post) k.loser
        ∧ ∀ i a, f i = some a → moved i →
          absorbAll place f (pre ++ k :: post) i ≠ none →
          Leads (pre ++ k :: post) a k.loser := by
  constructor
  · intro heq
    refine ⟨separate_of_erase h hf fun i hi => ?_, fun i a hi hm hF => ?_⟩
    · rw [← heq]
      unfold putBack
      rw [hi]
      simp
    · have hback := congrFun heq i
      unfold putBack at hback
      rw [if_pos hm] at hback
      obtain ⟨e, he⟩ := Option.ne_none_iff_exists'.mp hF
      rw [he] at hback
      obtain ⟨a', ha', hl⟩ := absorbAll_owner hback.symm
      cases hi.symm.trans ha'
      exact h.leads_loser_iff.mpr (h.root_erase_iff.mp hl.symm)
  · rintro ⟨hs, hown⟩
    funext i
    unfold putBack
    cases hF : absorbAll place f (pre ++ k :: post) i with
    | none =>
      cases hi : f i with
      | none =>
        cases hF' : absorbAll place f (pre ++ post) i with
        | none => simp
        | some e =>
          obtain ⟨a, ha, -⟩ := absorbAll_owner hF'
          rw [hi] at ha
          cases ha
      | some a =>
        rw [absorbAll_erase h hs hi, hF]
        simp
    | some e =>
      have hsome : absorbAll place f (pre ++ k :: post) i ≠ none := by
        rw [hF]
        exact Option.some_ne_none e
      obtain ⟨a, hi, -⟩ := absorbAll_owner hF
      rw [absorbAll_erase h hs hi, hF]
      by_cases ha : root pre a = k.loser
      · rw [if_pos ha, if_pos (hrec i a hi (h.leads_loser_iff.mpr ha) hsome)]
      · rw [if_neg ha, if_neg]
        intro hm
        exact ha (h.leads_loser_iff.mp (hown i a hi hm hsome))

end MemoryOS.Lib.Absorb
