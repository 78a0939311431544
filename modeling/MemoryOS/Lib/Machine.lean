/-
Labelled machines and the induction rules their runs obey.

A `Machine` is a partial, deterministic step function over states and
actions that also emits events. Everything nondeterministic about a
system (which worker moves, what the clock says, what a model returns)
is an input carried by the action, so "for every interleaving" is "for
every list of actions".

# The rules

- `run_invariant`: what one step preserves, a run preserves.
- `run_history`: the same for a property of the state together with the
  events emitted so far.
- `events_of_everyStep`: what guarded steps emit, a run of them emits.
- `always_iff_everyStep`: a property holds in every state a run reaches
  exactly when every step the run takes meets a guard, provided guarded
  steps keep an invariant and unguarded steps break the property.
-/
import Mathlib.Data.List.Basic
import Mathlib.Logic.Basic

namespace MemoryOS.Lib

/-- A deterministic labelled machine: an action is disabled (`none`) or
moves the state and emits events. -/
structure Machine (σ α ε : Type) where
  /-- One step. -/
  step : σ → α → Option (σ × List ε)

namespace Machine

variable {σ α ε : Type} (M : Machine σ α ε)

/-- Run a list of actions, failing on the first disabled one and
concatenating the events. -/
def run (s : σ) : List α → Option (σ × List ε)
  | [] => some (s, [])
  | a :: rest =>
    match M.step s a with
    | none => none
    | some (s₁, es) =>
      match run s₁ rest with
      | none => none
      | some (s₂, es') => some (s₂, es ++ es')

variable {acts : List α} {C : σ → α → Prop} {s s' : σ} {evs : List ε}
  {P : σ → Prop}

@[simp] theorem run_nil (s : σ) : M.run s [] = some (s, []) := rfl

variable {M}

theorem run_cons_inv {a : α} {rest : List α}
    (h : M.run s (a :: rest) = some (s', evs)) :
    ∃ s₁ es es', M.step s a = some (s₁, es)
      ∧ M.run s₁ rest = some (s', es') ∧ evs = es ++ es' := by
  unfold run at h
  cases hstep : M.step s a with
  | none => simp [hstep] at h
  | some p =>
    obtain ⟨s₁, es⟩ := p
    cases hrest : M.run s₁ rest with
    | none => simp [hstep, hrest] at h
    | some q =>
      obtain ⟨s₂, es'⟩ := q
      simp only [hstep, hrest, Option.some.injEq, Prod.mk.injEq] at h
      obtain ⟨rfl, rfl⟩ := h
      exact ⟨s₁, es, es', rfl, hrest, rfl⟩

theorem run_cons {s₁ : σ} {a : α} {rest : List α} {es es' : List ε}
    (hstep : M.step s a = some (s₁, es))
    (hrest : M.run s₁ rest = some (s', es')) :
    M.run s (a :: rest) = some (s', es ++ es') := by
  unfold run
  simp [hstep, hrest]

theorem run_prefix_inv {pre : List α} (hpre : pre <+: acts)
    {s₁ : σ} {evs₁ : List ε} (hrun : M.run s acts = some (s', evs))
    (h₁ : M.run s pre = some (s₁, evs₁)) :
    ∃ rest evs₂, M.run s₁ rest = some (s', evs₂) ∧ evs = evs₁ ++ evs₂ := by
  induction pre generalizing s acts evs evs₁ with
  | nil =>
    simp only [run_nil, Option.some.injEq, Prod.mk.injEq] at h₁
    obtain ⟨rfl, rfl⟩ := h₁
    exact ⟨acts, evs, hrun, rfl⟩
  | cons a pre ih =>
    cases acts with
    | nil => cases List.prefix_nil.mp hpre
    | cons b acts =>
      obtain ⟨rfl, hpre'⟩ := List.cons_prefix_cons.mp hpre
      obtain ⟨t₁, e₁, e₁', hs₁, hr₁, rfl⟩ := run_cons_inv hrun
      obtain ⟨t₂, e₂, e₂', hs₂, hr₂, rfl⟩ := run_cons_inv h₁
      rw [hs₁] at hs₂
      cases hs₂
      obtain ⟨rest, evs₂, hrun₂, rfl⟩ := ih hpre' hr₁ hr₂
      exact ⟨rest, evs₂, hrun₂, by rw [List.append_assoc]⟩

theorem run_invariant {Inv : σ → Prop}
    (hstep : ∀ s a s' es, Inv s → M.step s a = some (s', es) → Inv s')
    {s s' : σ} {acts : List α} {evs : List ε} (h0 : Inv s)
    (hrun : M.run s acts = some (s', evs)) : Inv s' := by
  induction acts generalizing s evs with
  | nil =>
    simp only [run_nil, Option.some.injEq, Prod.mk.injEq] at hrun
    exact hrun.1 ▸ h0
  | cons a rest ih =>
    obtain ⟨s₁, es, es', hs, hr, -⟩ := run_cons_inv hrun
    exact ih (hstep s a s₁ es h0 hs) hr

theorem run_history (Inv : σ → List ε → Prop)
    (hstep : ∀ s a s' h es, Inv s h → M.step s a = some (s', es) →
      Inv s' (h ++ es)) {h : List ε} (h0 : Inv s h)
    (hrun : M.run s acts = some (s', evs)) : Inv s' (h ++ evs) := by
  induction acts generalizing s h evs with
  | nil =>
    simp only [run_nil, Option.some.injEq, Prod.mk.injEq] at hrun
    obtain ⟨rfl, rfl⟩ := hrun
    simpa using h0
  | cons a rest ih =>
    obtain ⟨s₁, es, es', hs, hr, rfl⟩ := run_cons_inv hrun
    rw [← List.append_assoc]
    exact ih (hstep s a s₁ h es h0 hs) hr

variable (M)

-- ====== properties of whole runs

/-- `P` holds in every state the run passes through, the first and the
last included. A disabled action ends the run. -/
def Always (P : σ → Prop) : σ → List α → Prop
  | s, [] => P s
  | s, a :: rest =>
    P s ∧ ∀ s₁ es, M.step s a = some (s₁, es) → Always P s₁ rest

/-- Every step the run takes meets the guard `C`, read in the state the
step is taken from. -/
def EveryStep (C : σ → α → Prop) : σ → List α → Prop
  | _, [] => True
  | s, a :: rest =>
    ∀ s₁ es, M.step s a = some (s₁, es) → C s a ∧ EveryStep C s₁ rest

/-- Whether every step of a given run meets a guard can be computed. -/
instance decidableEveryStep (C : σ → α → Prop) [∀ s a, Decidable (C s a)] :
    ∀ s acts, Decidable (M.EveryStep C s acts)
  | _, [] => .isTrue trivial
  | s, a :: rest =>
    match h : M.step s a with
    | none => .isTrue fun _ _ hs => nomatch h.symm.trans hs
    | some (s₁, es) =>
      haveI := decidableEveryStep C s₁ rest
      decidable_of_iff (C s a ∧ M.EveryStep C s₁ rest)
        ⟨fun hc s₂ es' hs => by
          obtain ⟨rfl, -⟩ := Prod.mk.inj (Option.some.inj
            (h.symm.trans hs))
          exact hc,
        fun hall => hall s₁ es h⟩

variable {M}

theorem always_iff_prefix :
    M.Always P s acts ↔
      ∀ pre, pre <+: acts → ∀ s' evs, M.run s pre = some (s', evs) → P s' := by
  induction acts generalizing s with
  | nil =>
    constructor
    · intro h pre hpre s' evs hrun
      rw [List.prefix_nil.mp hpre] at hrun
      simp only [run_nil, Option.some.injEq, Prod.mk.injEq] at hrun
      exact hrun.1 ▸ h
    · intro h
      exact h [] (List.nil_prefix) s [] rfl
  | cons a rest ih =>
    constructor
    · rintro ⟨hP, hrest⟩ pre hpre s' evs hrun
      cases pre with
      | nil =>
        simp only [run_nil, Option.some.injEq, Prod.mk.injEq] at hrun
        exact hrun.1 ▸ hP
      | cons b pre =>
        obtain ⟨rfl, hpre'⟩ := List.cons_prefix_cons.mp hpre
        obtain ⟨s₁, es, es', hs, hr, -⟩ := run_cons_inv hrun
        exact ih.mp (hrest s₁ es hs) pre hpre' s' es' hr
    · intro h
      refine ⟨h [] List.nil_prefix s [] rfl, fun s₁ es hs => ?_⟩
      refine ih.mpr fun pre hpre s' evs hr => ?_
      exact h (a :: pre) (List.cons_prefix_cons.mpr ⟨rfl, hpre⟩) s' _
        (run_cons hs hr)

theorem Always.mono {Q : σ → Prop} (hPQ : ∀ s, P s → Q s) (h : M.Always P s acts) : M.Always Q s acts := by
  induction acts generalizing s with
  | nil => exact hPQ s h
  | cons a rest ih =>
    exact ⟨hPQ s h.1, fun s₁ es hs => ih (h.2 s₁ es hs)⟩

theorem Always.last {P : σ → Prop} {s s' : σ} {acts : List α}
    {evs : List ε} (h : M.Always P s acts)
    (hrun : M.run s acts = some (s', evs)) : P s' :=
  always_iff_prefix.mp h acts (List.prefix_refl _) s' evs hrun

theorem EveryStep.and {D : σ → α → Prop}
    (hC : M.EveryStep C s acts) (hD : M.EveryStep D s acts) :
    M.EveryStep (fun s a => C s a ∧ D s a) s acts := by
  induction acts generalizing s with
  | nil => trivial
  | cons a rest ih =>
    intro s₁ es hs
    obtain ⟨hc, hC'⟩ := hC s₁ es hs
    obtain ⟨hd, hD'⟩ := hD s₁ es hs
    exact ⟨⟨hc, hd⟩, ih hC' hD'⟩

theorem always_of_everyStep {Inv : σ → Prop}
    (hstep : ∀ s a s' es, Inv s → M.step s a = some (s', es) → C s a →
      Inv s') (h0 : Inv s) (hC : M.EveryStep C s acts) :
    M.Always Inv s acts := by
  induction acts generalizing s with
  | nil => exact h0
  | cons a rest ih =>
    refine ⟨h0, fun s₁ es hs => ?_⟩
    obtain ⟨hc, hrest⟩ := hC s₁ es hs
    exact ih (hstep s a s₁ es h0 hs hc) hrest

theorem events_of_everyStep (Inv : σ → Prop)
    {E : ε → Prop}
    (hstep : ∀ s a s' es, Inv s → M.step s a = some (s', es) → C s a →
      Inv s' ∧ ∀ e ∈ es, E e) (h0 : Inv s)
    (hC : M.EveryStep C s acts) (hrun : M.run s acts = some (s', evs)) :
    ∀ e ∈ evs, E e := by
  induction acts generalizing s evs with
  | nil =>
    simp only [run_nil, Option.some.injEq, Prod.mk.injEq] at hrun
    rw [← hrun.2]
    nofun
  | cons a rest ih =>
    obtain ⟨s₁, es, es', hs, hr, rfl⟩ := run_cons_inv hrun
    obtain ⟨hc, hrest⟩ := hC s₁ es hs
    obtain ⟨h₁, hes⟩ := hstep s a s₁ es h0 hs hc
    intro e he
    rcases List.mem_append.1 he with he | he
    · exact hes e he
    · exact ih h₁ hrest hr e he

/-- The exact form: when guarded steps keep `Inv`, `Inv` gives `P`, and a
step after which `P` still holds must have met the guard, then `P`
throughout a run and the guard at each of its steps are one condition. -/
theorem always_iff_everyStep (Inv : σ → Prop)
    (hP : ∀ s, Inv s → P s)
    (hstep : ∀ s a s' es, Inv s → M.step s a = some (s', es) → C s a →
      Inv s')
    (hbreak : ∀ s a s' es, Inv s → M.step s a = some (s', es) → P s' →
      C s a) (h0 : Inv s) :
    M.Always P s acts ↔ M.EveryStep C s acts := by
  constructor
  · intro h
    induction acts generalizing s with
    | nil => trivial
    | cons a rest ih =>
      intro s₁ es hs
      have hrest := h.2 s₁ es hs
      have hP₁ : P s₁ := by
        cases rest with
        | nil => exact hrest
        | cons b rest => exact hrest.1
      have hc := hbreak s a s₁ es h0 hs hP₁
      exact ⟨hc, ih (hstep s a s₁ es h0 hs hc) hrest⟩
  · intro hC
    exact (always_of_everyStep hstep h0 hC).mono hP

theorem everyStep_congr (Inv : σ → Prop) {D : σ → α → Prop}
    (hstep : ∀ s a s' es, Inv s → M.step s a = some (s', es) → Inv s')
    (hCD : ∀ s a, Inv s → (C s a ↔ D s a))
    (h0 : Inv s) : M.EveryStep C s acts ↔ M.EveryStep D s acts := by
  induction acts generalizing s with
  | nil => exact Iff.rfl
  | cons a rest ih =>
    refine forall_congr' fun s₁ => forall_congr' fun es =>
      forall_congr' fun hs => ?_
    exact and_congr (hCD s a h0) (ih (hstep s a s₁ es h0 hs))

end Machine

end MemoryOS.Lib
