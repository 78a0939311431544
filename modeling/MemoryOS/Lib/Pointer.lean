/-
Forwarding pointers: a partial function from a key to the key that
replaces it.

# Depth

A pointer structure is *shallow* when every pointer leads straight to a
key that has none. Shallow structures have no cycle, and one read of the
pointer finds the survivor. Adding a pointer between two roots keeps a
structure shallow exactly when nothing points at the root that gives way;
removing a pointer always does.

# Whole chains

A pointer structure is *linear* when no two keys point at one; its keys
then fall into disjoint chains. A list that follows the pointers and stops
only where there is nothing more, at either end, has every pointer that
touches it as two neighbours (`Whole.infix`).

# Writing

`Lines` is what stays true of a table of keys and pointers, and of the log
of every replacement, as long as only keys without a pointer are replaced:
a key is added (`Lines.add`), or added in the place of another
(`Lines.replace`). Keys come in increasing order, so pointers rise and
there is no cycle.
-/
import Mathlib.Data.List.Chain
import Mathlib.Data.List.Nodup
import Mathlib.Logic.Relation

namespace MemoryOS.Lib.Pointer

variable {κ : Type} {next : κ → Option κ} {a b c : κ}

/-- One pointer. -/
def Hop (next : κ → Option κ) (a b : κ) : Prop := next a = some b

/-- `b` is where following the pointers from `a` ends. -/
def Survivor (next : κ → Option κ) (a b : κ) : Prop :=
  Relation.ReflTransGen (Hop next) a b ∧ next b = none

/-- No path of pointers returns to where it started. -/
def Acyclic (next : κ → Option κ) : Prop :=
  ∀ a, ¬ Relation.TransGen (Hop next) a a

/-- Every pointer leads to a key without one. -/
def Shallow (next : κ → Option κ) : Prop :=
  ∀ a b, next a = some b → next b = none

/-- `coalesce(next, a)`: one read of the pointer. -/
def coalesce (next : κ → Option κ) (a : κ) : κ := (next a).getD a

theorem Shallow.one_hop (h : Shallow next)
    (hp : Relation.TransGen (Hop next) a b) : next a = some b := by
  induction hp with
  | single hab => exact hab
  | tail _ hbc ih =>
    have hnone := h _ _ ih
    rw [Hop, hnone] at hbc
    cases hbc

theorem Shallow.acyclic (h : Shallow next) : Acyclic next := by
  intro a hp
  have ha := h.one_hop hp
  have hnone := h a a ha
  rw [ha] at hnone
  cases hnone

theorem Shallow.survivor (h : Shallow next) (a : κ) :
    Survivor next a (coalesce next a) := by
  unfold coalesce
  cases ha : next a with
  | none => exact ⟨.refl, ha⟩
  | some b => exact ⟨.single ha, h a b ha⟩

theorem shallow_link_iff [DecidableEq κ] {w l : κ} (h : Shallow next)
    (hw : next w = none) (hl : next l = none) (hne : w ≠ l) :
    Shallow (fun k => if k = l then some w else next k)
      ↔ ∀ a, next a ≠ some l := by
  constructor
  · intro hs a ha
    have hal : a ≠ l := by
      rintro rfl
      rw [hl] at ha
      cases ha
    have hnone := hs a l (by simp only [if_neg hal]; exact ha)
    simp at hnone
  · intro hfree a b hab
    by_cases hal : a = l
    · simp only [hal, ↓reduceIte, Option.some.injEq] at hab
      subst hab
      simpa [hne] using hw
    · simp only [if_neg hal] at hab
      have hbl : b ≠ l := by
        rintro rfl
        exact hfree a hab
      simpa [hbl] using h a b hab

theorem Shallow.unlink [DecidableEq κ] (h : Shallow next) (l : κ) :
    Shallow (fun k => if k = l then none else next k) := by
  intro a b hab
  by_cases hal : a = l
  · simp [hal] at hab
  · simp only [if_neg hal] at hab
    by_cases hbl : b = l
    · simp [hbl]
    · simpa [hbl] using h a b hab

end MemoryOS.Lib.Pointer

namespace MemoryOS.Lib

open Pointer

section Whole

variable {κ : Type} {next : κ → Option κ} {xs : List κ} {a b : κ}

/-- No two keys point at one. -/
def Linear (next : κ → Option κ) : Prop :=
  ∀ a b c, Hop next a c → Hop next b c → a = b

/-- A list that follows the pointers from where there is nothing before to
where there is nothing after. -/
structure Whole (next : κ → Option κ) (xs : List κ) : Prop where
  linked : xs.IsChain (Hop next)
  first : ∀ b, xs.head? = some b → ∀ a, ¬ Hop next a b
  last : ∀ a, xs.getLast? = some a → ∀ b, ¬ Hop next a b

theorem infix_of_mem_left (hlinked : xs.IsChain (Hop next))
    (hlast : ∀ a, xs.getLast? = some a → ∀ b, ¬ Hop next a b)
    (ha : a ∈ xs) (hab : Hop next a b) : [a, b] <:+: xs := by
  induction xs with
  | nil => exact absurd ha List.not_mem_nil
  | cons x ys ih =>
    cases ys with
    | nil =>
      rw [List.mem_singleton] at ha
      exact absurd hab (hlast a (by rw [ha]; rfl) b)
    | cons y zs =>
      obtain ⟨hxy, hrest⟩ := List.isChain_cons_cons.1 hlinked
      rcases List.mem_cons.1 ha with rfl | ha
      · rw [Hop] at hxy hab
        rw [hab, Option.some.injEq] at hxy
        exact ⟨[], zs, by rw [hxy]; rfl⟩
      · refine List.infix_cons (ih hrest (fun c hc => ?_) ha)
        exact hlast c (by rw [List.getLast?_cons_cons]; exact hc)

theorem infix_of_mem_right (hlin : Linear next)
    (hlinked : xs.IsChain (Hop next))
    (hfirst : ∀ b, xs.head? = some b → ∀ a, ¬ Hop next a b)
    (hb : b ∈ xs) (hab : Hop next a b) : [a, b] <:+: xs := by
  cases xs with
  | nil => exact absurd hb List.not_mem_nil
  | cons x ys =>
    have htail : b ∈ ys := by
      rcases List.mem_cons.1 hb with rfl | hb
      · exact absurd hab (hfirst b rfl a)
      · exact hb
    clear hb hfirst
    induction ys generalizing x with
    | nil => exact absurd htail List.not_mem_nil
    | cons y zs ih =>
      obtain ⟨hxy, hrest⟩ := List.isChain_cons_cons.1 hlinked
      rcases List.mem_cons.1 htail with rfl | htail
      · exact ⟨[], zs, by rw [hlin a x b hab hxy]; rfl⟩
      · exact List.infix_cons (ih y hrest htail)

theorem Whole.infix (h : Whole next xs) (hlin : Linear next)
    (hab : Hop next a b) (hmem : a ∈ xs ∨ b ∈ xs) : [a, b] <:+: xs :=
  hmem.elim (fun ha => infix_of_mem_left h.linked h.last ha hab)
    fun hb => infix_of_mem_right hlin h.linked h.first hb hab

theorem acyclic_of_rising {next : Nat → Option Nat}
    (h : ∀ a b, Hop next a b → a < b) : Acyclic next := by
  have hlt : ∀ a b, Relation.TransGen (Hop next) a b → a < b := by
    intro a b hp
    induction hp with
    | single hab => exact h _ _ hab
    | tail _ hbc ih => exact Nat.lt_trans ih (h _ _ hbc)
  exact fun a hp => Nat.lt_irrefl a (hlt a a hp)

end Whole

section Lines

/-- A table of keys with their pointers, the least key that was never
given, and the log of every replacement. -/
structure Lines (links : List (Nat × Option Nat)) (fresh : Nat)
    (log : List (Nat × Nat)) : Prop where
  nodup : (links.map Prod.fst).Nodup
  below : ∀ l ∈ links, l.1 < fresh
  rises : ∀ a b, (a, some b) ∈ links → a < b
  target : ∀ a b, (a, some b) ∈ links → ∃ p, (b, p) ∈ links
  linear : ∀ a b c, (a, some c) ∈ links → (b, some c) ∈ links → a = b
  logged : ∀ a b, (a, b) ∈ log ↔ (a, some b) ∈ links

variable {links : List (Nat × Option Nat)} {fresh : Nat}
  {log : List (Nat × Nat)}

/-- Point the key `a` at `b`. -/
def point (links : List (Nat × Option Nat)) (a b : Nat) :
    List (Nat × Option Nat) :=
  links.map fun l => if l.1 = a then (l.1, some b) else l

theorem Lines.empty (fresh : Nat) : Lines [] fresh [] where
  nodup := List.nodup_nil
  below := fun _ h => absurd h List.not_mem_nil
  rises := fun _ _ h => absurd h List.not_mem_nil
  target := fun _ _ h => absurd h List.not_mem_nil
  linear := fun _ _ _ h => absurd h List.not_mem_nil
  logged := fun _ _ => iff_of_false List.not_mem_nil List.not_mem_nil

theorem Lines.eq_of_mem (h : Lines links fresh log) {a : Nat}
    {p q : Option Nat} (hp : (a, p) ∈ links) (hq : (a, q) ∈ links) : p = q :=
  congrArg Prod.snd (List.inj_on_of_nodup_map h.nodup hp hq rfl)

theorem Lines.add (h : Lines links fresh log) {fresh' : Nat}
    (hfresh : fresh < fresh') :
    Lines (links ++ [(fresh, none)]) fresh' log := by
  have hsome : ∀ a b, (a, some b) ∈ links ++ [(fresh, none)]
      ↔ (a, some b) ∈ links := by
    intro a b
    rw [List.mem_append]
    exact or_iff_left (by simp)
  refine
    { nodup := ?_, below := ?_, rises := ?_, target := ?_, linear := ?_
      logged := ?_ }
  · rw [List.map_append, List.nodup_append]
    refine ⟨h.nodup, List.nodup_singleton _, fun a ha b hb => ?_⟩
    obtain ⟨l, hl, rfl⟩ := List.mem_map.1 ha
    rw [List.mem_singleton.1 hb]
    exact Nat.ne_of_lt (h.below l hl)
  · intro l hl
    rcases List.mem_append.1 hl with hl | hl
    · exact Nat.lt_trans (h.below l hl) hfresh
    · rw [List.mem_singleton.1 hl]
      exact hfresh
  · exact fun a b hab => h.rises a b ((hsome a b).1 hab)
  · intro a b hab
    obtain ⟨p, hp⟩ := h.target a b ((hsome a b).1 hab)
    exact ⟨p, List.mem_append_left _ hp⟩
  · exact fun a b c ha hb =>
      h.linear a b c ((hsome a c).1 ha) ((hsome b c).1 hb)
  · intro a b
    rw [h.logged, hsome]

theorem Lines.replace (h : Lines links fresh log) {fresh' a : Nat}
    (hfresh : fresh < fresh') (ha : (a, none) ∈ links) :
    Lines (point links a fresh ++ [(fresh, none)]) fresh'
      (log ++ [(a, fresh)]) := by
  have hlt : a < fresh := h.below _ ha
  have hkeys : (point links a fresh).map Prod.fst = links.map Prod.fst := by
    simp only [point, List.map_map]
    refine List.map_congr_left fun l _ => ?_
    simp only [Function.comp]
    split <;> rfl
  have hsome : ∀ b c, (b, some c) ∈ point links a fresh ++ [(fresh, none)]
      ↔ (b, some c) ∈ links ∨ (b = a ∧ c = fresh) := by
    intro b c
    simp only [point, List.mem_append, List.mem_map, List.mem_singleton,
      Prod.mk.injEq, reduceCtorEq, and_false, or_false]
    constructor
    · rintro ⟨l, hl, hbc⟩
      split at hbc
      case isTrue heq =>
        cases hbc
        exact .inr ⟨heq, rfl⟩
      case isFalse =>
        exact .inl (hbc ▸ hl)
    · rintro (hbc | ⟨rfl, rfl⟩)
      · refine ⟨_, hbc, ?_⟩
        rw [if_neg]
        rintro rfl
        cases h.eq_of_mem ha hbc
      · exact ⟨_, ha, by simp⟩
  refine
    { nodup := ?_, below := ?_, rises := ?_, target := ?_, linear := ?_
      logged := ?_ }
  · rw [List.map_append, hkeys, List.nodup_append]
    refine ⟨h.nodup, List.nodup_singleton _, fun x hx y hy => ?_⟩
    obtain ⟨l, hl, rfl⟩ := List.mem_map.1 hx
    rw [List.mem_singleton.1 hy]
    exact Nat.ne_of_lt (h.below l hl)
  · intro l hl
    rcases List.mem_append.1 hl with hl | hl
    · have hmem : l.1 ∈ links.map Prod.fst := hkeys ▸ List.mem_map_of_mem hl
      obtain ⟨l', hl', heq⟩ := List.mem_map.1 hmem
      rw [← heq]
      exact Nat.lt_trans (h.below l' hl') hfresh
    · rw [List.mem_singleton.1 hl]
      exact hfresh
  · intro b c hbc
    rcases (hsome b c).1 hbc with hbc | ⟨rfl, rfl⟩
    · exact h.rises b c hbc
    · exact hlt
  · intro b c hbc
    have hkey : c ∈ (point links a fresh ++ [(fresh, none)]).map Prod.fst := by
      rw [List.map_append, hkeys]
      rcases (hsome b c).1 hbc with hbc | ⟨rfl, rfl⟩
      · obtain ⟨p, hp⟩ := h.target b c hbc
        exact List.mem_append_left _ (List.mem_map.2 ⟨_, hp, rfl⟩)
      · exact List.mem_append_right _ List.mem_cons_self
    obtain ⟨⟨k, p⟩, hl, rfl⟩ := List.mem_map.1 hkey
    exact ⟨p, hl⟩
  · intro b c d hb hc
    -- nothing pointed at the new key before
    have hnew : ∀ e, (e, some fresh) ∉ links := by
      intro e he
      obtain ⟨p, hp⟩ := h.target e fresh he
      exact Nat.lt_irrefl _ (h.below _ hp)
    rcases (hsome b d).1 hb with hb | ⟨hba, hd⟩
    · rcases (hsome c d).1 hc with hc | ⟨-, hd⟩
      · exact h.linear b c d hb hc
      · exact absurd (hd ▸ hb) (hnew b)
    · rcases (hsome c d).1 hc with hc | ⟨hca, -⟩
      · exact absurd (hd ▸ hc) (hnew c)
      · rw [hba, hca]
  · intro b c
    rw [List.mem_append, h.logged, hsome, List.mem_singleton, Prod.mk.injEq]

end Lines

end MemoryOS.Lib
