/-
Greedy admission: elements are offered one after another, and each is kept
when what was kept before lets it be.

Limits that only tighten (`Hereditary`) make one pass maximal: what was
refused at its turn is refused at the end (`not_ok_of_refused`).
-/
import Mathlib.Data.List.Basic
import Mathlib.Data.List.Perm.Basic

namespace MemoryOS.Lib

namespace Admission

variable {α : Type} {ok : List α → α → Bool}

/-- What is kept of a list, after some that were kept before. -/
def admitAll (ok : List α → α → Bool) : List α → List α → List α
  | kept, [] => kept
  | kept, x :: rest =>
    if ok kept x then admitAll ok (kept ++ [x]) rest else admitAll ok kept rest

/-- What is refused of a list, after some that were kept before. -/
def refuse (ok : List α → α → Bool) : List α → List α → List α
  | _, [] => []
  | kept, x :: rest =>
    if ok kept x then refuse ok (kept ++ [x]) rest
    else x :: refuse ok kept rest

/-- What is let in after some elements that can be is let in after fewer of
them. -/
def Hereditary (ok : List α → α → Bool) : Prop :=
  ∀ kept more x, (∀ y ∈ more, ∃ before, ok before y = true) →
    ok (kept ++ more) x = true → ok kept x = true

variable {kept offered : List α} {x : α}

theorem admit_append (kept before after : List α) :
    admitAll ok kept (before ++ after)
      = admitAll ok (admitAll ok kept before) after := by
  induction before generalizing kept with
  | nil => rfl
  | cons x rest ih =>
    rw [List.cons_append, admitAll, admitAll]
    split
    case isTrue => exact ih _
    case isFalse => exact ih _

theorem admit_eq_append (kept offered : List α) :
    ∃ more, admitAll ok kept offered = kept ++ more
      ∧ ∀ y ∈ more, y ∈ offered ∧ ∃ before, ok before y = true := by
  induction offered generalizing kept with
  | nil =>
    exact ⟨[], (List.append_nil kept).symm,
      fun _ h => absurd h List.not_mem_nil⟩
  | cons x rest ih =>
    unfold admitAll
    split
    case isTrue hok =>
      obtain ⟨more, heq, hmore⟩ := ih (kept ++ [x])
      refine ⟨x :: more, by rw [heq, List.append_assoc]; rfl,
        List.forall_mem_cons.2 ⟨⟨List.mem_cons_self .., kept, hok⟩, ?_⟩⟩
      exact fun y hy =>
        ⟨List.mem_cons_of_mem x (hmore y hy).1, (hmore y hy).2⟩
    case isFalse =>
      obtain ⟨more, heq, hmore⟩ := ih kept
      exact ⟨more, heq, fun y hy =>
        ⟨List.mem_cons_of_mem x (hmore y hy).1, (hmore y hy).2⟩⟩

theorem admit_refuse_perm (ok : List α → α → Bool) (kept offered : List α) :
    (admitAll ok kept offered ++ refuse ok kept offered).Perm
      (kept ++ offered) := by
  induction offered generalizing kept with
  | nil =>
    rw [refuse, admitAll]
  | cons x rest ih =>
    unfold admitAll refuse
    split
    case isTrue =>
      refine (ih (kept ++ [x])).trans ?_
      rw [List.append_assoc]
      exact List.Perm.refl _
    case isFalse =>
      refine List.perm_middle.trans (((ih kept).cons x).trans ?_)
      exact List.perm_middle.symm

theorem refused_at_turn (h : x ∈ refuse ok kept offered) : ∃ before after,
      offered = before ++ x :: after
        ∧ ok (admitAll ok kept before) x = false := by
  induction offered generalizing kept with
  | nil => exact absurd h List.not_mem_nil
  | cons y rest ih =>
    unfold refuse at h
    split at h
    case isTrue hok =>
      obtain ⟨before, after, rfl, hno⟩ := ih h
      refine ⟨y :: before, after, rfl, ?_⟩
      rw [admitAll, if_pos hok]
      exact hno
    case isFalse hok =>
      rcases List.mem_cons.1 h with rfl | h
      · exact ⟨[], rest, rfl, Bool.eq_false_iff.2 hok⟩
      · obtain ⟨before, after, rfl, hno⟩ := ih h
        refine ⟨y :: before, after, rfl, ?_⟩
        rw [admitAll, if_neg hok]
        exact hno

theorem not_ok_of_refused (hok : Hereditary ok) (h : x ∈ refuse ok kept offered) :
    ok (admitAll ok kept offered) x = false := by
  obtain ⟨before, after, rfl, hno⟩ := refused_at_turn h
  rw [admit_append]
  obtain ⟨more, heq, hmore⟩ :=
    @admit_eq_append _ ok (admitAll ok kept before) (x :: after)
  rw [heq, Bool.eq_false_iff]
  intro hyes
  rw [hok _ _ _ (fun y hy => (hmore y hy).2) hyes] at hno
  cases hno

theorem kept_after {before after : List α}
    (h : admitAll ok kept offered = kept ++ before ++ x :: after) :
    ∃ front back, offered = front ++ x :: back
      ∧ admitAll ok kept front = kept ++ before
      ∧ ok (kept ++ before) x = true := by
  induction offered generalizing kept before with
  | nil =>
    rw [admitAll, List.append_assoc] at h
    exact absurd (List.self_eq_append_right.1 h) (by simp)
  | cons y rest ih =>
    rw [admitAll] at h
    split at h
    case isFalse hok =>
      obtain ⟨front, back, rfl, hfront, hx⟩ := ih h
      refine ⟨y :: front, back, rfl, ?_, hx⟩
      rw [admitAll, if_neg hok]
      exact hfront
    case isTrue hok =>
      cases before with
      | nil =>
        obtain ⟨more, heq, -⟩ := @admit_eq_append _ ok (kept ++ [y]) rest
        rw [heq, List.append_nil, List.append_assoc] at h
        obtain ⟨rfl, -⟩ := List.cons.inj (List.append_cancel_left h)
        exact ⟨[], rest, rfl, (List.append_nil kept).symm,
          (List.append_nil kept).symm ▸ hok⟩
      | cons z before =>
        obtain ⟨more, heq, -⟩ := @admit_eq_append _ ok (kept ++ [y]) rest
        have hz := h
        rw [heq, List.append_assoc, List.append_assoc] at hz
        obtain ⟨rfl, -⟩ := List.cons.inj (List.append_cancel_left hz)
        rw [List.append_cons kept y before] at h ⊢
        obtain ⟨front, back, rfl, hfront, hx⟩ := ih h
        refine ⟨y :: front, back, rfl, ?_, hx⟩
        rw [admitAll, if_pos hok]
        exact hfront

theorem kept_at_turn {after : List α} (before : List α)
    (h : admitAll ok [] offered = before ++ x :: after) :
    ∃ front back, offered = front ++ x :: back
      ∧ admitAll ok [] front = before ∧ ok before x = true :=
  kept_after h

theorem kept_of_turn {front : List α} (back : List α)
    (h : ok (admitAll ok kept front) x = true) :
    ∃ after, admitAll ok kept (front ++ x :: back)
      = admitAll ok kept front ++ x :: after := by
  obtain ⟨after, heq, -⟩ :=
    @admit_eq_append _ ok (admitAll ok kept front ++ [x]) back
  refine ⟨after, ?_⟩
  rw [admit_append, admitAll, if_pos h, heq, List.append_assoc]
  rfl

theorem admit_invariant {P : List α → Prop}
    (hstep : ∀ kept x, ok kept x = true → P kept → P (kept ++ [x])) (h : P kept) : P (admitAll ok kept offered) := by
  induction offered generalizing kept with
  | nil => exact h
  | cons x rest ih =>
    unfold admitAll
    split
    case isTrue hok => exact ih (hstep kept x hok h)
    case isFalse => exact ih h

end Admission

end MemoryOS.Lib
