/-
What a collapsed enqueue can still count on.

`enqueue_in` drops a request while a job of its type and key is pending
*or running*. A pending job is owed a claim, and pending rows leave that
state by a claim and nothing else; a running one was claimed before the
request and may finish without looking again. So what the dropped
request can count on is decided by one question: is a job of its type
and key pending at any moment from the collapse on?
-/
import MemoryOS.Jobs.Proofs.Safety

namespace MemoryOS.Worker

open Queue

-- ======= the terms

/-- A job of this type and key waits to be claimed. -/
def PendingFor (t : JobType) (k : Option DedupeKey) (s : Sys) : Prop :=
  ∃ j ∈ s.jobs, j.jobType = t ∧ j.dedupeKey = k ∧ j.status = .pending

/-- A job of this type and key is claimed among these events. -/
def ClaimedFor (t : JobType) (k : Option DedupeKey) (evs : List Event) :
    Prop :=
  ∃ id n w, Event.claimed id n w t k ∈ evs

/-- The run from `s` passes through a state with such a job pending. -/
def PendingDuring (t : JobType) (k : Option DedupeKey) (s : Sys)
    (acts : List Action) : Prop :=
  ∃ pre, pre <+: acts ∧ ∃ s₁ evs, machine.run s pre = some (s₁, evs) ∧
    PendingFor t k s₁

variable {t : JobType} {k : Option DedupeKey} {s s' : Sys}
  {h es evs : List Event}

theorem ClaimedFor.append_left (hc : ClaimedFor t k evs) :
    ClaimedFor t k (es ++ evs) := by
  obtain ⟨id, n, w, hm⟩ := hc
  exact ⟨id, n, w, List.mem_append_right es hm⟩

theorem ClaimedFor.append_right (hc : ClaimedFor t k es) :
    ClaimedFor t k (es ++ evs) := by
  obtain ⟨id, n, w, hm⟩ := hc
  exact ⟨id, n, w, List.mem_append_left evs hm⟩

-- =========== steps

theorem writeEvents_no_claim {jobs : List Job} {id i : Id} {w v : String}
    {write : Write} {n : Nat} :
    Event.claimed i n v t k ∉ writeEvents jobs id w write := by
  intro hm
  obtain ⟨j, -, heq⟩ := List.mem_map.mp hm
  cases heq

theorem claimed_was_pending (he : Effect s s' es) (hc : ClaimedFor t k es) :
    PendingFor t k s := by
  obtain ⟨id, n, w, hm⟩ := hc
  cases he with
  | quiet _ hes => rcases hes with rfl | ⟨t', k', rfl⟩ <;> simp at hm
  | insert spec newId now hfresh => simp at hm
  | claim w' j now lease hidle hj hp =>
    rw [List.mem_singleton] at hm
    cases hm
    exact ⟨j, hj, rfl, rfl, hp⟩
  | start w' j lost hb => simp at hm
  | write w' sn st lost x write ra error tb now lease hb hx hst hbudget =>
    exact absurd hm writeEvents_no_claim
  | leave w' x hx => simp at hm
  | reclaim now limit locked => simp at hm

theorem pending_step (hI : Inv s h) (he : Effect s s' es)
    (hp : PendingFor t k s) : PendingFor t k s' ∨ ClaimedFor t k es := by
  obtain ⟨j, hj, rfl, rfl, hst⟩ := hp
  have hne : j.status ≠ .running := by
    rw [hst]
    intro hr
    cases hr
  cases he with
  | quiet => exact .inl ⟨j, hj, rfl, rfl, hst⟩
  | insert spec newId now hfresh =>
    exact .inl ⟨j, List.mem_append_left _ hj, rfl, rfl, hst⟩
  | claim w i now lease hidle hi hpi =>
    by_cases hid : j.id = i.id
    · obtain rfl := row_unique hI.ids hj hi hid
      exact .inr ⟨j.id, j.attempts + 1, w, List.mem_singleton.mpr rfl⟩
    · exact .inl ⟨j, List.mem_map.mpr ⟨j, hj, if_neg hid⟩, rfl, rfl, hst⟩
  | start => exact .inl ⟨j, hj, rfl, rfl, hst⟩
  | write w sn st lost x write ra error tb now lease hb hx hstd hbudget =>
    have ho : ownedBy sn.id w j = false := by
      rw [Bool.eq_false_iff]
      exact fun ho => hne (ownedBy_iff.mp ho).2.2
    exact .inl ⟨j, List.mem_map.mpr ⟨j, hj, by simp [ho]⟩, rfl, rfl, hst⟩
  | leave => exact .inl ⟨j, hj, rfl, rfl, hst⟩
  | reclaim now limit locked =>
    have hid : j.id ∉ expiredIds s.jobs now limit locked := by
      intro hin
      obtain ⟨i, hi, heq, hr⟩ := mem_expiredIds hin
      rw [row_unique hI.ids hi hj heq] at hr
      exact hne hr
    exact .inl ⟨j, List.mem_map.mpr ⟨j, hj, if_neg hid⟩, rfl, rfl, hst⟩

-- ============ runs

theorem claimed_run_pending {acts : List Action}
    (hrun : machine.run s acts = some (s', evs)) (hc : ClaimedFor t k evs) :
    PendingDuring t k s acts := by
  induction acts generalizing s evs with
  | nil =>
    obtain ⟨id, n, w, hm⟩ := hc
    simp only [Lib.Machine.run_nil, Option.some.injEq, Prod.mk.injEq] at hrun
    rw [← hrun.2] at hm
    cases hm
  | cons a rest ih =>
    obtain ⟨s₁, es, es', hs, hr, rfl⟩ := Lib.Machine.run_cons_inv hrun
    obtain ⟨id, n, w, hm⟩ := hc
    rcases List.mem_append.mp hm with hm | hm
    · -- the claim is this step's: the row was pending before it
      exact ⟨[], List.nil_prefix, s, [], rfl,
        claimed_was_pending (step_effect hs) ⟨id, n, w, hm⟩⟩
    · obtain ⟨pre, hpre, s₂, evs₂, hrun₂, hp⟩ := ih hr ⟨id, n, w, hm⟩
      exact ⟨a :: pre, List.cons_prefix_cons.mpr ⟨rfl, hpre⟩, s₂, _,
        Lib.Machine.run_cons hs hrun₂, hp⟩

theorem pending_run {acts : List Action} (hI : Inv s h)
    (hrun : machine.run s acts = some (s', evs)) (hp : PendingFor t k s) :
    ClaimedFor t k evs ∨ PendingFor t k s' := by
  induction acts generalizing s h evs with
  | nil =>
    simp only [Lib.Machine.run_nil, Option.some.injEq, Prod.mk.injEq] at hrun
    exact .inr (hrun.1 ▸ hp)
  | cons a rest ih =>
    obtain ⟨s₁, es, es', hs, hr, rfl⟩ := Lib.Machine.run_cons_inv hrun
    have he := step_effect hs
    rcases pending_step hI he hp with hp₁ | hc
    · rcases ih (inv_step hI he) hr hp₁ with hc | hp'
      · exact .inl hc.append_left
      · exact .inr hp'
    · exact .inl hc.append_right

-- ======= the claim

theorem collapsed_inv {spec : JobSpec} {newId : Id} {now : Timestamp}
    (hs : step s (.enqueue spec newId now)
      = some (s', [.collapsed spec.jobType spec.dedupeKey])) :
    s' = s ∧ ∃ j ∈ s.jobs, j.jobType = spec.jobType
      ∧ j.dedupeKey = spec.dedupeKey ∧ j.status.inFlight = true := by
  simp only [step] at hs
  split at hs
  case isTrue => cases hs
  case isFalse =>
    unfold enqueueIn at hs
    cases hd : s.jobs.any (dedupes spec) with
    | false => simp [hd] at hs
    | true =>
      simp only [hd, ↓reduceIte, Option.some.injEq, Prod.mk.injEq,
        and_true] at hs
      obtain ⟨j, hj, hdj⟩ := List.any_eq_true.mp hd
      simp only [dedupes, Bool.and_eq_true, decide_eq_true_eq] at hdj
      exact ⟨hs.symm, j, hj, hdj.1.2, hdj.1.1.2, hdj.2⟩

/-- A collapsed request has a job of its type and key pending or running
beside it, and one is claimed from then on, or still owed at the end,
exactly when one is pending at some moment from the collapse on. -/
theorem collapsed_owed (acts rest : List Action) (spec : JobSpec)
    (newId : Id) (now : Timestamp) (s s₁ s' : Sys) (evs evs' : List Event)
    (hrun : machine.run init acts = some (s, evs))
    (hcollapse : step s (.enqueue spec newId now)
      = some (s₁, [.collapsed spec.jobType spec.dedupeKey]))
    (hrest : machine.run s₁ rest = some (s', evs')) :
    (∃ j ∈ s.jobs, j.jobType = spec.jobType ∧ j.dedupeKey = spec.dedupeKey
        ∧ j.status.inFlight = true) ∧
      ((ClaimedFor spec.jobType spec.dedupeKey evs'
          ∨ PendingFor spec.jobType spec.dedupeKey s')
        ↔ PendingDuring spec.jobType spec.dedupeKey s₁ rest) := by
  obtain ⟨rfl, hj⟩ := collapsed_inv hcollapse
  have hI := inv_run hrun
  refine ⟨hj, ?_, ?_⟩
  · rintro (hc | hp)
    · exact claimed_run_pending hrest hc
    · exact ⟨rest, List.prefix_refl _, s', evs', hrest, hp⟩
  · rintro ⟨pre, hpre, s₂, evs₂, hrun₂, hp⟩
    have hI₂ : Inv s₂ (evs ++ evs₂) := machine.run_history Inv
      (fun _ _ _ _ _ hI hs => inv_step hI (step_effect hs)) hI hrun₂
    obtain ⟨rest₂, evs₃, hrun₃, rfl⟩ :=
      Lib.Machine.run_prefix_inv hpre hrest hrun₂
    rcases pending_run hI₂ hrun₃ hp with hc | hp'
    · exact .inl hc.append_left
    · exact .inr hp'

-- ------ a request while one is running

/-- A graph sync of one neighbourhood. -/
def syncAgain : JobSpec where
  jobType := .syncGraph
  dedupeKey := some (.syncGraph [7])
  dedupeKey_nonempty := by nofun

/-- It is claimed and its handler started. -/
def syncStarted : List Action :=
  [.enqueue syncAgain 1 0, .claim "a" 1 10 none [], .start "a"]

/-- The state the request meets. -/
def syncRunning : Sys := ((machine.run init syncStarted).getD (init, [])).1

/-- The state after the running handler finishes. -/
def syncFinished : Sys :=
  ((machine.run syncRunning [.settle "a" .success 0 "" "" 3]).getD
    (init, [])).1

theorem collapsed_owed_running :
    (∃ j ∈ syncRunning.jobs, j.jobType = syncAgain.jobType
        ∧ j.dedupeKey = syncAgain.dedupeKey ∧ j.status.inFlight = true) ∧
      ((ClaimedFor syncAgain.jobType syncAgain.dedupeKey
            [.wrote 1 1 "a" .complete]
          ∨ PendingFor syncAgain.jobType syncAgain.dedupeKey syncFinished)
        ↔ PendingDuring syncAgain.jobType syncAgain.dedupeKey syncRunning
            [.settle "a" .success 0 "" "" 3]) :=
  collapsed_owed syncStarted [.settle "a" .success 0 "" "" 3] syncAgain 2 2
    syncRunning syncRunning syncFinished
    [.enqueued 1, .claimed 1 1 "a" .syncGraph (some (.syncGraph [7])),
      .started 1 1 "a"]
    [.wrote 1 1 "a" .complete] rfl rfl rfl

/-- A request that collapsed into a running job is owed nothing once that
job completes. -/
theorem collapsed_not_owed :
    ¬ ∀ (acts rest : List Action) (spec : JobSpec) (newId : Id)
        (now : Timestamp) (s s₁ s' : Sys) (evs evs' : List Event),
      machine.run init acts = some (s, evs) →
      step s (.enqueue spec newId now)
        = some (s₁, [.collapsed spec.jobType spec.dedupeKey]) →
      machine.run s₁ rest = some (s', evs') →
      ClaimedFor spec.jobType spec.dedupeKey evs'
        ∨ PendingFor spec.jobType spec.dedupeKey s' := by
  intro hclaim
  have howed := hclaim syncStarted [.settle "a" .success 0 "" "" 3] syncAgain
    2 2 syncRunning syncRunning syncFinished
    [.enqueued 1, .claimed 1 1 "a" .syncGraph (some (.syncGraph [7])),
      .started 1 1 "a"]
    [.wrote 1 1 "a" .complete] rfl rfl rfl
  rcases howed with ⟨id, n, w, hm⟩ | ⟨j, hj, -, -, hp⟩
  · rw [List.mem_singleton] at hm
    cases hm
  · have hall : ∀ i ∈ syncFinished.jobs, i.status = .succeeded := by decide
    rw [hall j hj] at hp
    cases hp

end MemoryOS.Worker
