/-
Lists of spans that tile an interval: each begins where the one before it
ends, and none is empty.

A pass that cuts every span again, or joins neighbours, leaves a tiling of
the same interval (`Tiles.recut`, `Tiles.join`). A point of the interval is
in exactly one span (`Tiles.length_filter_eq_one`).

# Counting twice

How many of some things go with each of some others, summed over the others,
is summed over the things (`tally_cons`). Where every thing goes with one other,
the sum is the number of the things (`tally_eq_length`); the counts of a list by
distinct keys sum up to the number of those that have one of the keys
(`tally_keys`).
-/
import Mathlib.Data.List.Basic
import Mathlib.Data.List.Nodup
import Mathlib.Order.Lattice

namespace MemoryOS

namespace Lib

variable {α ε : Type*}

/-- The spans tile `[a, b)`, in order. -/
inductive Tiles [Preorder α] : α → α → List (α × α) → Prop
  | nil (a : α) : Tiles a a []
  | cons {a m b : α} {l : List (α × α)} :
      a < m → Tiles m b l → Tiles a b ((a, m) :: l)

/-- Cut each span again, until one cannot be. -/
def recut (f : α × α → Except ε (List (α × α))) :
    List (α × α) → Except ε (List (α × α))
  | [] => .ok []
  | s :: rest =>
    match f s with
    | .error e => .error e
    | .ok pieces =>
      match recut f rest with
      | .error e => .error e
      | .ok more => .ok (pieces ++ more)

namespace Tiles

section Preorder

variable [Preorder α] {a b c : α} {l l' : List (α × α)}

theorem single (h : a < b) : Tiles a b [(a, b)] := .cons h (.nil b)

theorem le (h : Tiles a b l) : a ≤ b := by
  induction h with
  | nil a => exact le_refl a
  | cons hlt _ ih => exact le_trans (le_of_lt hlt) ih

theorem append (h : Tiles a b l) (h' : Tiles b c l') :
    Tiles a c (l ++ l') := by
  induction h with
  | nil a => exact h'
  | cons hlt _ ih => exact .cons hlt (ih h')

theorem bounds (h : Tiles a b l) {s : α × α} (hs : s ∈ l) :
    a ≤ s.1 ∧ s.1 < s.2 ∧ s.2 ≤ b := by
  induction h with
  | nil a => cases hs
  | cons hlt hrest ih =>
    rcases List.mem_cons.mp hs with rfl | hs
    · exact ⟨le_refl _, hlt, hrest.le⟩
    · obtain ⟨h1, h2, h3⟩ := ih hs
      exact ⟨le_trans (le_of_lt hlt) h1, h2, h3⟩

theorem join {m n : α} (h : Tiles a b ((a, m) :: (m, n) :: l)) :
    Tiles a b ((a, n) :: l) := by
  cases h with
  | cons h1 h2 =>
    cases h2 with
    | cons h3 h4 => exact .cons (lt_trans h1 h3) h4

theorem recut {f : α × α → Except ε (List (α × α))} (h : Tiles a b l)
    (hf : ∀ s ∈ l, ∀ pieces, f s = .ok pieces → Tiles s.1 s.2 pieces)
    (hl : Lib.recut f l = .ok l') : Tiles a b l' := by
  induction h generalizing l' with
  | nil a =>
    cases hl
    exact .nil a
  | cons hlt _ ih =>
    unfold Lib.recut at hl
    split at hl
    case h_1 => cases hl
    case h_2 pieces hp =>
      split at hl
      case h_1 => cases hl
      case h_2 more hm =>
        cases hl
        refine (hf _ List.mem_cons_self pieces hp).append ?_
        exact ih (fun s hs => hf s (List.mem_cons_of_mem _ hs)) hm

end Preorder

section LinearOrder

variable [LinearOrder α] {a b : α} {l : List (α × α)}

theorem length_filter_eq_one {β : Type*} {f : β → α × α} {xs : List β}
    (h : Tiles a b (xs.map f)) {i : α} (ha : a ≤ i) (hb : i < b) :
    (xs.filter fun x => decide ((f x).1 ≤ i) && decide (i < (f x).2)).length = 1 := by
  induction xs generalizing a with
  | nil =>
    cases h
    exact absurd hb (not_lt.mpr ha)
  | cons x rest ih =>
    rw [List.map_cons] at h
    generalize hx : f x = s at h
    cases h with
    | @cons _ m _ _ hlt hrest =>
      rw [List.filter_cons, hx]
      by_cases hin : i < m
      · have hnone : (rest.filter fun x =>
            decide ((f x).1 ≤ i) && decide (i < (f x).2)) = [] := by
          apply List.filter_eq_nil_iff.2
          intro y hy hholds
          have hbounds := (hrest.bounds (List.mem_map_of_mem hy)).1
          simp only [Bool.and_eq_true, decide_eq_true_eq] at hholds
          exact absurd hin (not_lt.mpr (le_trans hbounds hholds.1))
        rw [if_pos (by simp [ha, hin]), hnone]
        rfl
      · rw [if_neg (by simp [hin])]
        exact ih hrest (not_lt.mp hin)

theorem pairs {l : List α} (hsorted : (a :: l).Pairwise (· ≤ ·)) :
    Tiles a ((a :: l).getLast (List.cons_ne_nil a l))
      (((a :: l).zip l).filter fun s => decide (s.1 < s.2)) := by
  induction l generalizing a with
  | nil => exact .nil a
  | cons b rest ih =>
    obtain ⟨hfirst, hrest⟩ := List.pairwise_cons.mp hsorted
    rw [List.zip_cons_cons, List.getLast_cons_cons]
    by_cases hlt : a < b
    · rw [List.filter_cons_of_pos (by simpa using hlt)]
      exact .cons hlt (ih hrest)
    · rw [List.filter_cons_of_neg (by simpa using hlt)]
      have heq : a = b :=
        le_antisymm (hfirst b List.mem_cons_self) (not_lt.mp hlt)
      subst heq
      exact ih hrest

end LinearOrder

end Tiles

-- ====== cutting again

section Recut

variable {f : α × α → Except ε (List (α × α))} {l l' : List (α × α)}

theorem recut_ok (hf : ∀ s ∈ l, ∃ pieces, f s = .ok pieces) :
    ∃ l', recut f l = .ok l' := by
  induction l with
  | nil => exact ⟨[], rfl⟩
  | cons s rest ih =>
    obtain ⟨pieces, hp⟩ := hf s List.mem_cons_self
    obtain ⟨more, hm⟩ := ih fun t ht => hf t (List.mem_cons_of_mem s ht)
    refine ⟨pieces ++ more, ?_⟩
    unfold recut
    simp only [hp, hm]

theorem mem_recut (hl : recut f l = .ok l') {p : α × α} (hp : p ∈ l') :
    ∃ s ∈ l, ∃ pieces, f s = .ok pieces ∧ p ∈ pieces := by
  induction l generalizing l' with
  | nil =>
    cases hl
    cases hp
  | cons s rest ih =>
    unfold recut at hl
    split at hl
    case h_1 => cases hl
    case h_2 pieces hpieces =>
      split at hl
      case h_1 => cases hl
      case h_2 more hm =>
        cases hl
        rcases List.mem_append.mp hp with hp | hp
        · exact ⟨s, List.mem_cons_self, pieces, hpieces, hp⟩
        · obtain ⟨t, ht, htp⟩ := ih hm hp
          exact ⟨t, List.mem_cons_of_mem s ht, htp⟩

end Recut

end Lib

end MemoryOS

namespace MemoryOS

namespace Lib

namespace Tally

variable {α β κ : Type*}

/-- The sum, over `bs`, of how many of `xs` go with each. -/
def tally (R : β → α → Bool) (bs : List β) (xs : List α) : Nat :=
  bs.foldr (fun b n => (xs.filter (R b)).length + n) 0

variable {R : β → α → Bool} {bs : List β} {xs : List α}

theorem tally_nil (bs : List β) : tally R bs [] = 0 := by
  induction bs with
  | nil => rfl
  | cons b rest ih =>
    show 0 + tally R rest [] = 0
    rw [ih]

theorem tally_cons (x : α) : tally R bs (x :: xs)
    = (bs.filter fun b => R b x).length + tally R bs xs := by
  induction bs with
  | nil => rfl
  | cons b rest ih =>
    show ((x :: xs).filter (R b)).length + tally R rest (x :: xs)
      = _ + ((xs.filter (R b)).length + tally R rest xs)
    rw [ih, List.filter_cons, List.filter_cons]
    by_cases h : R b x = true
    · rw [if_pos h, if_pos h, List.length_cons, List.length_cons]
      omega
    · rw [if_neg h, if_neg h]
      omega

theorem tally_eq_filter {p : α → Bool}
    (h : ∀ x ∈ xs, (bs.filter fun b => R b x).length = if p x then 1 else 0) :
    tally R bs xs = (xs.filter p).length := by
  induction xs with
  | nil => exact tally_nil bs
  | cons x rest ih =>
    rw [tally_cons, h x List.mem_cons_self,
      ih fun y hy => h y (List.mem_cons_of_mem x hy), List.filter_cons]
    split
    case isTrue => rw [List.length_cons, Nat.add_comm]
    case isFalse => rw [Nat.zero_add]

theorem tally_eq_length (h : ∀ x ∈ xs, (bs.filter fun b => R b x).length = 1) :
    tally R bs xs = xs.length := by
  rw [tally_eq_filter (p := fun _ => true) h, List.filter_true]

theorem length_filter_eq [DecidableEq κ] {keys : List κ} (hkeys : keys.Nodup)
    {a : κ} (ha : a ∈ keys) : (keys.filter fun k => decide (a = k)).length = 1 := by
  induction keys with
  | nil => cases ha
  | cons k rest ih =>
    obtain ⟨hk, hrest⟩ := List.nodup_cons.1 hkeys
    rw [List.filter_cons]
    by_cases h : a = k
    · have hnone : (rest.filter fun k => decide (a = k)) = [] := by
        apply List.filter_eq_nil_iff.2
        intro k' hk' heq
        rw [← of_decide_eq_true heq, h] at hk'
        exact hk hk'
      rw [if_pos (decide_eq_true h), hnone]
      rfl
    · rw [if_neg (by simpa using h)]
      exact ih hrest ((List.mem_cons.1 ha).resolve_left h)

theorem tally_keys [DecidableEq κ] {key : α → κ} {keys : List κ}
    (hkeys : keys.Nodup) {p : α → Bool}
    (hp : ∀ x ∈ xs, p x = true ↔ key x ∈ keys) :
    tally (fun k x => decide (key x = k)) keys xs = (xs.filter p).length := by
  apply tally_eq_filter
  intro x hx
  split
  case isTrue h => exact length_filter_eq hkeys ((hp x hx).1 h)
  case isFalse h =>
    rw [List.length_eq_zero_iff, List.filter_eq_nil_iff]
    intro k hk heq
    rw [← of_decide_eq_true heq] at hk
    exact h ((hp x hx).2 hk)

end Tally

end Lib

end MemoryOS
