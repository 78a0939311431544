/-
What a step of the queue leaves of a row, and of what its worker holds.

No statement rewrites a job's id, type, payload or key, and two kinds of
write take a row out of flight: the one that completes it and the one
that gives it up.
-/
import MemoryOS.Jobs.Worker

namespace MemoryOS

/-- A row before and after: the columns no statement rewrites. -/
structure SameJob (j j' : Job) : Prop where
  id : j'.id = j.id
  jobType : j'.jobType = j.jobType
  payload : j'.payload = j.payload
  dedupeKey : j'.dedupeKey = j.dedupeKey

theorem SameJob.refl (j : Job) : SameJob j j := ⟨rfl, rfl, rfl, rfl⟩

namespace Worker

open Queue

/-- Whether a step gives a job up: the worker dead-letters it, or its
lease has run out and its budget with it. -/
def givesUp (q : Sys) (a : Action) (j : Job) : Bool :=
  match a with
  | .noHandler w _ _ _ =>
    match q.workers w with
    | .busy sn false _ => ownedBy sn.id w j
    | _ => false
  | .settle w outcome _ _ _ _ =>
    match q.workers w with
    | .busy sn true _ =>
      decide (settlement sn outcome = .deadLetter) && ownedBy sn.id w j
    | _ => false
  | .reclaim now limit locked =>
    decide (j.id ∈ expiredIds q.jobs now limit locked)
      && decide (j.maxAttempts ≤ j.attempts)
  | _ => false

/-- Whether a step completes a job. -/
def completes (q : Sys) (a : Action) (j : Job) : Bool :=
  match a with
  | .settle w outcome _ _ _ _ =>
    match q.workers w with
    | .busy sn true _ =>
      decide (settlement sn outcome = .complete) && ownedBy sn.id w j
    | _ => false
  | _ => false

theorem completes_some {q : Sys} {a : Action} {j : Job}
    (h : completes q a j = true) :
    ∃ w runAfter error tb now sn lost,
      a = .settle w .success runAfter error tb now
        ∧ q.workers w = .busy sn true lost ∧ sn.id = j.id := by
  unfold completes at h
  split at h
  case h_1 w outcome runAfter error tb now =>
    split at h
    case h_1 sn lost hb =>
      rw [Bool.and_eq_true, decide_eq_true_eq] at h
      obtain ⟨hset, howned⟩ := h
      have hout : outcome = .success := by
        cases outcome with
        | success => rfl
        | permanentError => cases hset
        | transientError =>
          unfold settlement at hset
          simp only at hset
          split at hset <;> cases hset
        | otherError =>
          unfold settlement at hset
          simp only at hset
          split at hset <;> cases hset
      subst hout
      exact ⟨w, runAfter, error, tb, now, sn, lost, rfl, hb,
        (ownedBy_iff.mp howned).1.symm⟩
    case h_2 => cases h
  case h_2 => cases h

/-- What a step that is no enqueue does to the rows. -/
def RowsMoved (q : Sys) (a : Action) (jobs : List Job) : Prop :=
  ∃ f : Job → Job, jobs = q.jobs.map f ∧ (∀ j, SameJob j (f j))
    ∧ (∀ j, j.status.inFlight = true → givesUp q a j = false →
        completes q a j = false → (f j).status.inFlight = true)
    ∧ ∀ j, givesUp q a j = true → (f j).status.inFlight = false

variable {q q' : Sys} {a : Action} {es : List Event}

theorem RowsMoved.same (h : ∀ j, givesUp q a j = false) :
    RowsMoved q a q.jobs := by
  refine ⟨id, (List.map_id _).symm, SameJob.refl, fun _ hj _ _ => hj,
    fun j hj => ?_⟩
  rw [h j] at hj
  cases hj

theorem RowsMoved.write {p : Job → Bool} {g : Job → Job}
    (hsame : ∀ j, SameJob j (g j))
    (hstatus : ∀ j, p j = true → givesUp q a j = false →
      completes q a j = false → (g j).status.inFlight = true)
    (hgone : ∀ j, givesUp q a j = true →
      p j = true ∧ (g j).status.inFlight = false) :
    RowsMoved q a (q.jobs.map fun j => if p j then g j else j) := by
  refine ⟨_, rfl, fun j => ?_, fun j hj hg hc => ?_, fun j hg => ?_⟩
  · split
    case isTrue => exact hsame j
    case isFalse => exact .refl j
  · split
    case isTrue hp => exact hstatus j hp hg hc
    case isFalse => exact hj
  · obtain ⟨hp, hout⟩ := hgone j hg
    rw [if_pos hp]
    exact hout

theorem step_rows (h : step q a = some (q', es))
    (hne : ∀ spec newId now, a ≠ .enqueue spec newId now) :
    RowsMoved q a q'.jobs := by
  cases a with
  | enqueue spec newId now => exact absurd rfl (hne spec newId now)
  | claim w now lease only locked =>
    simp only [step] at h
    split at h
    case h_1 =>
      split at h
      case h_1 =>
        cases h
        exact .same fun _ => rfl
      case h_2 jobs j hclaim =>
        cases h
        unfold claim at hclaim
        split at hclaim
        case h_1 => cases hclaim
        case h_2 k hk =>
          cases hclaim
          -- the claimed row is running, and so in flight
          refine ⟨fun i => if i.id = k.id then claimed w now lease i else i,
            rfl, fun i => ?_, fun i hi _ _ => ?_,
            fun i hg => Bool.noConfusion hg⟩
          · dsimp only
            split
            case isTrue => exact ⟨rfl, rfl, rfl, rfl⟩
            case isFalse => exact .refl i
          · dsimp only
            split
            case isTrue => rfl
            case isFalse => exact hi
    case h_2 => cases h
  | start w =>
    simp only [step] at h
    split at h
    case h_1 =>
      cases h
      exact .same fun _ => rfl
    case h_2 => cases h
  | heartbeat w now lease =>
    simp only [step] at h
    split at h
    case h_1 sn hb =>
      cases h
      refine RowsMoved.write (fun j => ⟨rfl, rfl, rfl, rfl⟩)
        (fun j hj _ _ => ?_) fun j hg => Bool.noConfusion hg
      show j.status.inFlight = true
      rw [(ownedBy_iff.mp hj).2.2]
      rfl
    case h_2 => cases h
  | noHandler w error tb now =>
    simp only [step] at h
    split at h
    case h_1 sn lost hb =>
      cases h
      refine RowsMoved.write (fun j => ⟨rfl, rfl, rfl, rfl⟩)
        (fun j hj hg _ => ?_) (fun j hg => ?_)
      · simp only [givesUp, hb] at hg
        rw [hj] at hg
        cases hg
      · simp only [givesUp, hb] at hg
        exact ⟨hg, rfl⟩
    case h_2 => cases h
  | settle w outcome runAfter error tb now =>
    simp only [step] at h
    split at h
    case h_1 sn lost hb =>
      cases h
      refine RowsMoved.write (fun j => ?_) (fun j hj hg hc => ?_)
        (fun j hg => ?_)
      · cases settlement sn outcome <;> exact ⟨rfl, rfl, rfl, rfl⟩
      · simp only [givesUp, completes, hb, hj, Bool.and_true,
          decide_eq_false_iff_not] at hg hc
        cases hset : settlement sn outcome with
        | heartbeat =>
          show j.status.inFlight = true
          rw [(ownedBy_iff.mp hj).2.2]
          rfl
        | complete => exact absurd hset hc
        | reschedule => rfl
        | deadLetter => exact absurd hset hg
      · simp only [givesUp, hb, Bool.and_eq_true, decide_eq_true_eq] at hg
        rw [hg.1]
        exact ⟨hg.2, rfl⟩
    case h_2 => cases h
  | abandon w =>
    simp only [step] at h
    split at h
    case h_1 =>
      cases h
      exact .same fun _ => rfl
    case h_2 => cases h
  | crash w =>
    cases h
    exact .same fun _ => rfl
  | reclaim now limit locked =>
    cases h
    refine ⟨fun j => if j.id ∈ expiredIds q.jobs now limit locked then
        reclaimed now j else j, rfl, fun j => ?_, fun j hj hg _ => ?_,
      fun j hg => ?_⟩
    · dsimp only
      split
      case isTrue => exact ⟨rfl, rfl, rfl, rfl⟩
      case isFalse => exact .refl j
    · dsimp only
      split
      case isTrue hin =>
        simp only [givesUp, hin, decide_true, Bool.true_and,
          decide_eq_false_iff_not] at hg
        simp only [reclaimed, hg, ↓reduceIte]
        rfl
      case isFalse => exact hj
    · simp only [givesUp, Bool.and_eq_true, decide_eq_true_eq] at hg
      simp only [hg.1, ↓reduceIte, reclaimed, hg.2]
      rfl

/-- Where a busy worker's job comes from: it held the job before, or it
has just claimed the row. Its handler had started, unless the step is what
starts it. -/
def HeldFrom (q : Sys) (a : Action) (w : String) (sn : Job)
    (started : Bool) : Prop :=
  (∃ started' lost, q.workers w = .busy sn started' lost
      ∧ (started = true → started' = true ∨ a = .start w))
    ∨ started = false ∧ ∃ j ∈ q.jobs, SameJob j sn

theorem step_workers (h : step q a = some (q', es)) {w : String} {sn : Job}
    {started lost : Bool} (hb : q'.workers w = .busy sn started lost) :
    HeldFrom q a w sn started := by
  have hsame : q'.workers = q.workers → HeldFrom q a w sn started :=
    fun heq => .inl ⟨started, lost, heq ▸ hb, fun hs => .inl hs⟩
  have hset : ∀ v x, q'.workers = setWorker q.workers v x → w ≠ v →
      HeldFrom q a w sn started := fun v x heq hv =>
    .inl ⟨started, lost, by rw [← setWorker_other q.workers x hv, ← heq, hb],
      fun hs => .inl hs⟩
  cases a with
  | enqueue spec newId now =>
    refine hsame ?_
    simp only [step] at h
    split at h
    case isTrue => cases h
    case isFalse =>
      split at h <;>
      · cases h
        rfl
  | claim v now lease only locked =>
    simp only [step] at h
    split at h
    case h_1 hidle =>
      split at h
      case h_1 =>
        cases h
        exact hsame rfl
      case h_2 jobs j hclaim =>
        cases h
        by_cases hv : w = v
        · subst hv
          simp only [setWorker_same, WorkerState.busy.injEq] at hb
          obtain ⟨rfl, rfl, -⟩ := hb
          unfold claim at hclaim
          split at hclaim
          case h_1 => cases hclaim
          case h_2 k hk =>
            cases hclaim
            exact .inr ⟨rfl, k, (candidate_mem hk).1, ⟨rfl, rfl, rfl, rfl⟩⟩
        · exact hset v _ rfl hv
    case h_2 => cases h
  | start v =>
    simp only [step] at h
    split at h
    case h_1 j lost' hbv =>
      cases h
      by_cases hv : w = v
      · subst hv
        simp only [setWorker_same, WorkerState.busy.injEq] at hb
        obtain ⟨rfl, -, -⟩ := hb
        exact .inl ⟨false, lost', hbv, fun _ => .inr rfl⟩
      · exact hset v _ rfl hv
    case h_2 => cases h
  | heartbeat v now lease =>
    simp only [step] at h
    split at h
    case h_1 j hbv =>
      cases h
      by_cases hv : w = v
      · subst hv
        simp only [setWorker_same, WorkerState.busy.injEq] at hb
        obtain ⟨rfl, -, -⟩ := hb
        exact .inl ⟨true, false, hbv, fun _ => .inl rfl⟩
      · exact hset v _ rfl hv
    case h_2 => cases h
  | noHandler v error tb now =>
    simp only [step] at h
    split at h
    case h_1 j lost' hbv =>
      cases h
      by_cases hv : w = v
      · subst hv
        simp at hb
      · exact hset v _ rfl hv
    case h_2 => cases h
  | settle v outcome runAfter error tb now =>
    simp only [step] at h
    split at h
    case h_1 j lost' hbv =>
      cases h
      by_cases hv : w = v
      · subst hv
        simp at hb
      · exact hset v _ rfl hv
    case h_2 => cases h
  | abandon v =>
    simp only [step] at h
    split at h
    case h_1 =>
      cases h
      by_cases hv : w = v
      · subst hv
        simp at hb
      · exact hset v _ rfl hv
    case h_2 => cases h
  | crash v =>
    cases h
    by_cases hv : w = v
    · subst hv
      simp at hb
    · exact hset v _ rfl hv
  | reclaim now limit locked =>
    cases h
    exact hsame rfl

end Worker

end MemoryOS
