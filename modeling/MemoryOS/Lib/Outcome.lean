/-
Computations that may fail, and two of them side by side.

`bind_ok` takes a computation of two parts apart, `collect_ok` a loop that a
failure ends; `ok_of_toOption` and `ok_of_toOption_map` find the result of a
test behind what was kept of it. Two computations agree when they fail alike or
return related values (`Both`), and a relation between the states of two runs
that every pair of steps keeps holds of every pair of states they reach
(`Paired.rel`).
-/
import Mathlib.Data.List.Forall2
import Mathlib.Data.Option.Basic

namespace MemoryOS.Lib

variable {ε α β : Type}

variable {x : Except ε α} {f : α → Except ε β} {R : α → β → Prop} {xs : List α}
  {ys : List β} {b : β}

theorem bind_ok {r : β} :
    (x >>= f) = .ok r ↔ ∃ a, x = .ok a ∧ f a = .ok r := by
  cases x with
  | error e => exact ⟨fun h => (by cases h), fun ⟨_, h, _⟩ => (by cases h)⟩
  | ok a =>
    exact ⟨fun h => ⟨a, rfl, h⟩, fun ⟨_, h, h'⟩ => (by cases h; exact h')⟩

theorem map_ok {f : α → β} (h : x.map f = .ok b) :
    ∃ a, x = .ok a ∧ f a = b := by
  cases x with
  | error e => cases h
  | ok a => exact ⟨a, rfl, Except.ok.inj h⟩

/-- A loop that a failure ends. -/
def collect (f : α → Except ε β) : List α → Except ε (List β)
  | [] => .ok []
  | x :: xs => f x >>= fun y => collect f xs >>= fun ys => .ok (y :: ys)

theorem collect_ok :
    collect f xs = .ok ys ↔ List.Forall₂ (fun x y => f x = .ok y) xs ys := by
  induction xs generalizing ys with
  | nil =>
    rw [List.forall₂_nil_left_iff, collect]
    exact ⟨fun h => (by cases h; rfl), fun h => (by rw [h])⟩
  | cons x xs ih =>
    rw [collect, bind_ok, List.forall₂_cons_left_iff]
    apply exists_congr
    intro y
    rw [bind_ok]
    constructor
    · intro h
      obtain ⟨hy, ys', hys, hok⟩ := h
      exact ⟨ys', hy, ih.1 hys, (Except.ok.inj hok).symm⟩
    · intro h
      obtain ⟨ys', hy, hys, rfl⟩ := h
      exact ⟨hy, ys', ih.2 hys, rfl⟩

theorem collect_related {γ : Type} {R : γ → α → Prop} {T : γ → β → Prop}
    {zs : List γ} (h : collect f xs = .ok ys) (hR : List.Forall₂ R zs xs)
    (hf : ∀ z x y, R z x → f x = .ok y → T z y) : List.Forall₂ T zs ys := by
  have hall := collect_ok.1 h
  clear h
  induction hall generalizing zs with
  | nil => cases hR; exact .nil
  | cons hxy _ ih =>
    cases hR with
    | cons hzx hrest => exact .cons (hf _ _ _ hzx hxy) (ih hrest)

/-- A loop that finds each item as it should be leaves them all. -/
theorem collect_fixed {γ : Type} {f : α → Except ε (α × γ)} {xs : List α}
    (h : ∀ x ∈ xs, ∃ c, f x = .ok (x, c)) :
    ∃ ys, collect f xs = .ok ys ∧ ys.map (·.1) = xs := by
  induction xs with
  | nil => exact ⟨[], rfl, rfl⟩
  | cons x xs ih =>
    rw [List.forall_mem_cons] at h
    obtain ⟨c, hc⟩ := h.1
    obtain ⟨ys, hys, hsame⟩ := ih h.2
    refine ⟨(x, c) :: ys, ?_, by rw [List.map_cons, hsame]⟩
    rw [collect, hc]
    show (collect f xs >>= fun ys => .ok ((x, c) :: ys)) = _
    rw [hys]
    rfl

theorem collect_mem (h : collect f xs = .ok ys) {x : α} (hx : x ∈ xs) :
    ∃ y ∈ ys, f x = .ok y := by
  have hall := collect_ok.1 h
  clear h
  induction hall with
  | nil => cases hx
  | cons hy _ ih =>
    rcases List.mem_cons.1 hx with rfl | hx
    · exact ⟨_, List.mem_cons_self, hy⟩
    · obtain ⟨y, hmem, hok⟩ := ih hx
      exact ⟨y, List.mem_cons_of_mem _ hmem, hok⟩

theorem mem_collect (h : collect f xs = .ok ys) {y : β} (hy : y ∈ ys) :
    ∃ x ∈ xs, f x = .ok y := by
  have hall := collect_ok.1 h
  clear h
  induction hall with
  | nil => cases hy
  | cons hok _ ih =>
    rcases List.mem_cons.1 hy with rfl | hy
    · exact ⟨_, List.mem_cons_self, hok⟩
    · obtain ⟨x, hmem, hx⟩ := ih hy
      exact ⟨x, List.mem_cons_of_mem _ hmem, hx⟩

theorem ok_of_toOption {a : α} (h : x.toOption = some a) :
    x = .ok a := by
  cases x with
  | error => cases h
  | ok => exact congrArg Except.ok (Option.some.inj h)

theorem ok_of_toOption_map {f : α → β}
    (h : x.toOption.map f = some b) : ∃ a, x = .ok a ∧ f a = b := by
  obtain ⟨a, ha, hb⟩ := Option.map_eq_some_iff.1 h
  exact ⟨a, ok_of_toOption ha, hb⟩

end MemoryOS.Lib

namespace MemoryOS.Lib

/-- The pairs of states two runs reach together. -/
inductive Paired {σ : Type*} (start : σ → σ → Prop)
    (step : σ → σ → σ → σ → Prop) : σ → σ → Prop
  | start {s t : σ} : start s t → Paired start step s t
  | step {s t s' t' : σ} :
      Paired start step s t → step s t s' t' → Paired start step s' t'

theorem Paired.rel {σ : Type*} {start : σ → σ → Prop}
    {step : σ → σ → σ → σ → Prop} {R : σ → σ → Prop}
    (hstart : ∀ s t, start s t → R s t)
    (hstep : ∀ s t s' t', R s t → step s t s' t' → R s' t') {s t : σ}
    (h : Paired start step s t) : R s t := by
  induction h with
  | start h => exact hstart _ _ h
  | step _ h ih => exact hstep _ _ _ _ ih h

section Both

variable {ε α β γ δ : Type*}

/-- Two computations that fail alike, or return related values. -/
def Both (R : α → β → Prop) (x : Except ε α) (y : Except ε β) : Prop :=
  (∃ e, x = .error e ∧ y = .error e)
    ∨ ∃ a b, x = .ok a ∧ y = .ok b ∧ R a b

theorem Both.error (e : ε) :
    Both R (.error e : Except ε α) (.error e : Except ε β) :=
  .inl ⟨e, rfl, rfl⟩

theorem Both.ok {a : α} (h : R a b) :
    Both R (.ok a : Except ε α) (.ok b : Except ε β) :=
  .inr ⟨a, b, rfl, rfl, h⟩

theorem Both.mono {R' : α → β → Prop} {y : Except ε β}
    (h : Both R x y) (hR : ∀ a b, R a b → R' a b) : Both R' x y := by
  rcases h with ⟨e, hx, hy⟩ | ⟨a, b, hx, hy, hab⟩
  · exact .inl ⟨e, hx, hy⟩
  · exact .inr ⟨a, b, hx, hy, hR a b hab⟩

end Both

end MemoryOS.Lib
