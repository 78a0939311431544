/-
Safety of the queue over any run: what every row satisfies, who may
write to a claim, and how often a handler starts.

# The invariant

`Inv s h` ties the table, the workers and the history together.

- Every row is well formed (`JobOk`) and ids are unique.
- `held`: the snapshot a busy worker holds is of a row whose budget it
  knows and whose attempts it has not overtaken, and while the row still
  carries that worker's lock the two agree on `attempts`. This is what
  makes the worker's budget test (`attempts_exhausted`, on the snapshot)
  agree with the sweeper's (`attempts >= max_attempts`, on the row).
- A claim is named by a job's id and its attempt number. The history
  names one worker for each claim, and every lock, snapshot, start and
  fenced write belongs to a claim of its own worker.

`attempts` grows at a claim and nowhere else, so the claim a step makes
is always a new one; everything else is a case of `Worker.Effect`.
-/
import Mathlib.Data.List.Nodup
import Mathlib.Order.Interval.Finset.Nat
import MemoryOS.Jobs.Worker

namespace MemoryOS.Worker

open Queue

-- ========= one row

/-- What the queue promises of every row. -/
structure JobOk (j : Job) : Prop where
  attempts_le : j.attempts ≤ j.maxAttempts
  pending_lt : j.status = .pending → j.attempts < j.maxAttempts
  locked_iff : j.lockedBy.isSome ↔ j.status = .running
  lease_iff : j.leaseExpiresAt.isSome ↔ j.status = .running
  completed_iff : j.completedAt.isSome ↔ j.status.terminal = true

variable {j : Job} {now lease : Timestamp} {w : String}

theorem pendingJob_ok (spec : JobSpec) (newId : Id) (now : Timestamp) :
    JobOk (pendingJob spec newId now) := by
  have hpos := spec.maxAttempts_pos
  refine ⟨Nat.zero_le _, fun _ => ?_, ?_, ?_, ?_⟩
  · show 0 < spec.maxAttempts
    omega
  · simp [pendingJob]
  · simp [pendingJob]
  · simp [pendingJob, JobStatus.terminal]

theorem claimed_ok (h : JobOk j) (hp : j.status = .pending) :
    JobOk (claimed w now lease j) := by
  have hlt := h.pending_lt hp
  have hc := h.completed_iff
  rw [hp] at hc
  refine ⟨?_, fun hs => ?_, ?_, ?_, ?_⟩
  · show j.attempts + 1 ≤ j.maxAttempts
    omega
  · cases hs
  · simp [claimed]
  · simp [claimed]
  · simpa [claimed, JobStatus.terminal] using hc

theorem written_ok {write : Write} {runAfter : Timestamp} {e tb : String}
    (h : JobOk j) (hr : j.status = .running)
    (hb : write = .reschedule → j.attempts < j.maxAttempts) :
    JobOk (written write runAfter e tb now lease j) := by
  have hle := h.attempts_le
  have hc := h.completed_iff
  have hl := h.locked_iff
  rw [hr] at hc hl
  cases write with
  | heartbeat =>
    constructor <;> simp_all [written, extended, JobStatus.terminal]
  | complete =>
    constructor <;> simp_all [written, completed, JobStatus.terminal]
  | reschedule =>
    constructor <;> simp_all [written, rescheduled, JobStatus.terminal]
  | deadLetter =>
    constructor <;> simp_all [written, deadLettered, JobStatus.terminal]

theorem reclaimed_ok (h : JobOk j) : JobOk (reclaimed now j) := by
  have hle := h.attempts_le
  by_cases hx : j.maxAttempts ≤ j.attempts
  · constructor <;> simp [reclaimed, hx, JobStatus.terminal, hle]
  · refine ⟨hle, fun _ => ?_, ?_, ?_, ?_⟩
    · show j.attempts < j.maxAttempts
      omega
    · simp [reclaimed, hx]
    · simp [reclaimed, hx]
    · simp [reclaimed, hx, JobStatus.terminal]

-- ====== the fields a write keeps

@[simp] theorem written_id {write : Write} {t : Timestamp} {e tb : String} :
    (written write t e tb now lease j).id = j.id := by
  cases write <;> rfl

@[simp] theorem written_attempts {write : Write} {t : Timestamp}
    {e tb : String} :
    (written write t e tb now lease j).attempts = j.attempts := by
  cases write <;> rfl

@[simp] theorem written_maxAttempts {write : Write} {t : Timestamp}
    {e tb : String} :
    (written write t e tb now lease j).maxAttempts = j.maxAttempts := by
  cases write <;> rfl

theorem written_lockedBy {write : Write} {t : Timestamp} {e tb v : String}
    (h : (written write t e tb now lease j).lockedBy = some v) :
    j.lockedBy = some v := by
  cases write with
  | heartbeat => exact h
  | complete => cases h
  | reschedule => cases h
  | deadLetter => cases h

-- ====== tables, rewritten

theorem ids_map {jobs : List Job} {f : Job → Job}
    (hf : ∀ j, (f j).id = j.id) :
    (jobs.map f).map (·.id) = jobs.map (·.id) := by
  rw [List.map_map]
  exact List.map_congr_left fun j _ => hf j

theorem row_unique {jobs : List Job} (hnd : (jobs.map (·.id)).Nodup)
    {a b : Job} (ha : a ∈ jobs) (hb : b ∈ jobs) (h : a.id = b.id) :
    a = b :=
  List.inj_on_of_nodup_map hnd ha hb h

-- ====== the invariant

/-- The attempt numbers at which handlers of `id` started. -/
def startsOf (h : List Event) (id : Id) : List Nat :=
  h.filterMap fun
    | .started i n _ => if i = id then some n else none
    | _ => none

/-- The table, the workers and the history, tied together. -/
structure Inv (s : Sys) (h : List Event) : Prop where
  ids : (s.jobs.map (·.id)).Nodup
  rows : ∀ j ∈ s.jobs, JobOk j
  held : ∀ w sn st lost, s.workers w = .busy sn st lost →
    ∃ j ∈ s.jobs, j.id = sn.id ∧ j.maxAttempts = sn.maxAttempts ∧
      (j.lockedBy = some w → j.attempts = sn.attempts)
  heldClaim : ∀ w sn st lost, s.workers w = .busy sn st lost →
    ∃ t k, Event.claimed sn.id sn.attempts w t k ∈ h
  unstarted : ∀ w sn lost, s.workers w = .busy sn false lost →
    sn.attempts ∉ startsOf h sn.id
  claimRow : ∀ id n w t k, Event.claimed id n w t k ∈ h →
    ∃ j ∈ s.jobs, j.id = id ∧ n ≤ j.attempts
  claimOnce : ∀ id n w t k w' t' k', Event.claimed id n w t k ∈ h →
    Event.claimed id n w' t' k' ∈ h → w = w'
  claimPos : ∀ id n w t k, Event.claimed id n w t k ∈ h → 1 ≤ n
  lockClaim : ∀ j ∈ s.jobs, ∀ w, j.lockedBy = some w →
    ∃ t k, Event.claimed j.id j.attempts w t k ∈ h
  writeClaim : ∀ id n w write, Event.wrote id n w write ∈ h →
    ∃ t k, Event.claimed id n w t k ∈ h
  startClaim : ∀ id n, n ∈ startsOf h id →
    ∃ w t k, Event.claimed id n w t k ∈ h
  startOnce : ∀ id, (startsOf h id).Nodup

theorem startsOf_append (h es : List Event) (id : Id) :
    startsOf (h ++ es) id = startsOf h id ++ startsOf es id :=
  List.filterMap_append

theorem startsOf_of_no_start {es : List Event}
    (h : ∀ i n w, Event.started i n w ∉ es) (id : Id) :
    startsOf es id = [] := by
  unfold startsOf
  rw [List.filterMap_eq_nil_iff]
  intro e he
  cases e with
  | started i n w => exact absurd he (h i n w)
  | enqueued => rfl
  | collapsed => rfl
  | claimed => rfl
  | wrote => rfl

theorem inv_init : Inv init [] := by
  constructor <;> simp [init, startsOf]

-- ====== what keeps the invariant

section Keep

variable {s : Sys} {h : List Event}

theorem Inv.emit (hI : Inv s h) {es : List Event}
    (hc : ∀ id n w t k, Event.claimed id n w t k ∉ es)
    (hs : ∀ id n w, Event.started id n w ∉ es)
    (hw : ∀ id n w write, Event.wrote id n w write ∈ es →
      ∃ t k, Event.claimed id n w t k ∈ h) :
    Inv s (h ++ es) := by
  have hmem : ∀ id n w t k, Event.claimed id n w t k ∈ h ++ es →
      Event.claimed id n w t k ∈ h := by
    intro id n w t k he
    exact (List.mem_append.mp he).resolve_right (hc id n w t k)
  have hst : ∀ id, startsOf (h ++ es) id = startsOf h id := by
    intro id
    rw [startsOf_append, startsOf_of_no_start hs, List.append_nil]
  constructor
  case ids => exact hI.ids
  case rows => exact hI.rows
  case held => exact hI.held
  case heldClaim =>
    intro w sn st lost hb
    obtain ⟨t, k, hm⟩ := hI.heldClaim w sn st lost hb
    exact ⟨t, k, List.mem_append_left es hm⟩
  case unstarted =>
    intro w sn lost hb
    rw [hst]
    exact hI.unstarted w sn lost hb
  case claimRow =>
    exact fun id n w t k hm => hI.claimRow id n w t k (hmem _ _ _ _ _ hm)
  case claimOnce =>
    exact fun id n w t k w' t' k' hm hm' =>
      hI.claimOnce id n w t k w' t' k' (hmem _ _ _ _ _ hm) (hmem _ _ _ _ _ hm')
  case claimPos =>
    exact fun id n w t k hm => hI.claimPos id n w t k (hmem _ _ _ _ _ hm)
  case lockClaim =>
    intro j hj w hl
    obtain ⟨t, k, hm⟩ := hI.lockClaim j hj w hl
    exact ⟨t, k, List.mem_append_left es hm⟩
  case writeClaim =>
    intro id n w write hm
    rcases List.mem_append.mp hm with hm | hm
    · obtain ⟨t, k, hc'⟩ := hI.writeClaim id n w write hm
      exact ⟨t, k, List.mem_append_left es hc'⟩
    · obtain ⟨t, k, hc'⟩ := hw id n w write hm
      exact ⟨t, k, List.mem_append_left es hc'⟩
  case startClaim =>
    intro id n hn
    rw [hst] at hn
    obtain ⟨w, t, k, hm⟩ := hI.startClaim id n hn
    exact ⟨w, t, k, List.mem_append_left es hm⟩
  case startOnce =>
    intro id
    rw [hst]
    exact hI.startOnce id

theorem Inv.emit_writes (hI : Inv s h) (id : Id) (w : String)
    (write : Write) : Inv s (h ++ writeEvents s.jobs id w write) := by
  have hform : ∀ e ∈ writeEvents s.jobs id w write, ∃ j ∈ s.jobs,
      j.lockedBy = some w ∧ e = .wrote j.id j.attempts w write := by
    intro e he
    obtain ⟨j, hj, rfl⟩ := List.mem_map.mp he
    obtain ⟨hmem, hown⟩ := List.mem_filter.mp hj
    exact ⟨j, hmem, (ownedBy_iff.mp hown).2.1, rfl⟩
  apply hI.emit
  · intro i n v t k he
    obtain ⟨_, _, _, heq⟩ := hform _ he
    cases heq
  · intro i n v he
    obtain ⟨_, _, _, heq⟩ := hform _ he
    cases heq
  · intro i n v write' he
    obtain ⟨j, hj, hl, heq⟩ := hform _ he
    cases heq
    exact hI.lockClaim j hj w hl

theorem Inv.rewrite (hI : Inv s h) {f : Job → Job}
    (hid : ∀ j, (f j).id = j.id)
    (hat : ∀ j, (f j).attempts = j.attempts)
    (hmax : ∀ j, (f j).maxAttempts = j.maxAttempts)
    (hlock : ∀ j v, (f j).lockedBy = some v → j.lockedBy = some v)
    (hok : ∀ j ∈ s.jobs, JobOk (f j)) :
    Inv { s with jobs := s.jobs.map f } h := by
  constructor
  case ids =>
    show ((s.jobs.map f).map (·.id)).Nodup
    rw [ids_map hid]
    exact hI.ids
  case rows =>
    intro j hj
    obtain ⟨i, hi, rfl⟩ := List.mem_map.mp hj
    exact hok i hi
  case held =>
    intro w sn st lost hb
    obtain ⟨j, hj, h1, h2, h3⟩ := hI.held w sn st lost hb
    refine ⟨f j, List.mem_map_of_mem hj, ?_, ?_, fun hl => ?_⟩
    · rw [hid, h1]
    · rw [hmax, h2]
    · rw [hat]
      exact h3 (hlock j w hl)
  case heldClaim => exact hI.heldClaim
  case unstarted => exact hI.unstarted
  case claimRow =>
    intro id n w t k hm
    obtain ⟨j, hj, h1, h2⟩ := hI.claimRow id n w t k hm
    refine ⟨f j, List.mem_map_of_mem hj, ?_, ?_⟩
    · rw [hid, h1]
    · rw [hat]
      exact h2
  case claimOnce => exact hI.claimOnce
  case claimPos => exact hI.claimPos
  case lockClaim =>
    intro j hj w hl
    obtain ⟨i, hi, rfl⟩ := List.mem_map.mp hj
    rw [hid, hat]
    exact hI.lockClaim i hi w (hlock i w hl)
  case writeClaim => exact hI.writeClaim
  case startClaim => exact hI.startClaim
  case startOnce => exact hI.startOnce

theorem Inv.move (hI : Inv s h) {w : String} {x : WorkerState}
    (hx : ∀ sn st lost, x = .busy sn st lost → ∃ st' lost',
      s.workers w = .busy sn st' lost' ∧ (st = false → st' = false)) :
    Inv { s with workers := setWorker s.workers w x } h := by
  have hback : ∀ v sn st lost,
      setWorker s.workers w x v = .busy sn st lost → ∃ st' lost',
        s.workers v = .busy sn st' lost' ∧ (st = false → st' = false) := by
    intro v sn st lost hb
    by_cases hv : v = w
    · subst hv
      rw [setWorker_same] at hb
      exact hx sn st lost hb
    · rw [setWorker_other _ _ hv] at hb
      exact ⟨st, lost, hb, id⟩
  constructor
  case ids => exact hI.ids
  case rows => exact hI.rows
  case held =>
    intro v sn st lost hb
    obtain ⟨st', lost', hb', -⟩ := hback v sn st lost hb
    exact hI.held v sn st' lost' hb'
  case heldClaim =>
    intro v sn st lost hb
    obtain ⟨st', lost', hb', -⟩ := hback v sn st lost hb
    exact hI.heldClaim v sn st' lost' hb'
  case unstarted =>
    intro v sn lost hb
    obtain ⟨st', lost', hb', hst⟩ := hback v sn false lost hb
    rw [hst rfl] at hb'
    exact hI.unstarted v sn lost' hb'
  case claimRow => exact hI.claimRow
  case claimOnce => exact hI.claimOnce
  case claimPos => exact hI.claimPos
  case lockClaim => exact hI.lockClaim
  case writeClaim => exact hI.writeClaim
  case startClaim => exact hI.startClaim
  case startOnce => exact hI.startOnce

-- ====== the steps that add

theorem Inv.insert (hI : Inv s h) (spec : JobSpec) {newId : Id}
    (now : Timestamp) (hfresh : ∀ j ∈ s.jobs, j.id ≠ newId) :
    Inv { s with jobs := s.jobs ++ [pendingJob spec newId now] } h := by
  constructor
  case ids =>
    show ((s.jobs ++ [pendingJob spec newId now]).map (·.id)).Nodup
    rw [List.map_append, List.nodup_append]
    refine ⟨hI.ids, by simp, fun a ha b hb => ?_⟩
    obtain ⟨j, hj, rfl⟩ := List.mem_map.mp ha
    rw [List.mem_singleton.mp hb]
    exact hfresh j hj
  case rows =>
    intro j hj
    rcases List.mem_append.mp hj with hj | hj
    · exact hI.rows j hj
    · rw [List.mem_singleton.mp hj]
      exact pendingJob_ok spec newId now
  case held =>
    intro w sn st lost hb
    obtain ⟨j, hj, hrest⟩ := hI.held w sn st lost hb
    exact ⟨j, List.mem_append_left _ hj, hrest⟩
  case heldClaim => exact hI.heldClaim
  case unstarted => exact hI.unstarted
  case claimRow =>
    intro id n w t k hm
    obtain ⟨j, hj, hrest⟩ := hI.claimRow id n w t k hm
    exact ⟨j, List.mem_append_left _ hj, hrest⟩
  case claimOnce => exact hI.claimOnce
  case claimPos => exact hI.claimPos
  case lockClaim =>
    intro j hj w hl
    rcases List.mem_append.mp hj with hj | hj
    · exact hI.lockClaim j hj w hl
    · rw [List.mem_singleton.mp hj] at hl
      cases hl
  case writeClaim => exact hI.writeClaim
  case startClaim => exact hI.startClaim
  case startOnce => exact hI.startOnce

theorem Inv.start (hI : Inv s h) {w : String} {sn : Job} {lost : Bool}
    (hb : s.workers w = .busy sn false lost) :
    Inv { s with workers := setWorker s.workers w (.busy sn true lost) }
      (h ++ [.started sn.id sn.attempts w]) := by
  have hI' : Inv { s with workers := setWorker s.workers w (.busy sn true lost) }
      h := by
    apply hI.move
    intro sn' st lost' hx
    cases hx
    exact ⟨false, lost, hb, fun _ => rfl⟩
  have hst : ∀ id, startsOf (h ++ [.started sn.id sn.attempts w]) id
      = if sn.id = id then startsOf h id ++ [sn.attempts] else startsOf h id := by
    intro id
    rw [startsOf_append]
    by_cases hid : sn.id = id <;> simp [startsOf, hid]
  have hold : ∀ id n v t k,
      Event.claimed id n v t k ∈ h ++ [.started sn.id sn.attempts w] →
      Event.claimed id n v t k ∈ h := by
    intro id n v t k hm
    simpa using hm
  constructor
  case ids => exact hI'.ids
  case rows => exact hI'.rows
  case held => exact hI'.held
  case heldClaim =>
    intro v sn' st lost' hv
    obtain ⟨t, k, hm⟩ := hI'.heldClaim v sn' st lost' hv
    exact ⟨t, k, List.mem_append_left _ hm⟩
  case unstarted =>
    -- another worker holding the same claim unstarted would share its name
    intro v sn' lost' hv
    have hne : v ≠ w := by
      rintro rfl
      simp at hv
    have hn := hI'.unstarted v sn' lost' hv
    rw [hst]
    by_cases hid : sn.id = sn'.id
    · rw [if_pos hid, List.mem_append, not_or]
      refine ⟨hn, fun heq => ?_⟩
      obtain ⟨t, k, hm⟩ := hI'.heldClaim v sn' false lost' hv
      obtain ⟨t', k', hm'⟩ := hI.heldClaim w sn false lost hb
      rw [List.mem_singleton.mp heq, ← hid] at hm
      exact hne (hI.claimOnce _ _ v t k w t' k' hm hm')
    · rw [if_neg hid]
      exact hn
  case claimRow =>
    exact fun id n v t k hm => hI'.claimRow id n v t k (hold _ _ _ _ _ hm)
  case claimOnce =>
    exact fun id n v t k v' t' k' hm hm' =>
      hI.claimOnce id n v t k v' t' k' (hold _ _ _ _ _ hm) (hold _ _ _ _ _ hm')
  case claimPos =>
    exact fun id n v t k hm => hI.claimPos id n v t k (hold _ _ _ _ _ hm)
  case lockClaim =>
    intro j hj v hl
    obtain ⟨t, k, hm⟩ := hI'.lockClaim j hj v hl
    exact ⟨t, k, List.mem_append_left _ hm⟩
  case writeClaim =>
    intro id n v write hm
    obtain ⟨t, k, hc⟩ := hI.writeClaim id n v write (by simpa using hm)
    exact ⟨t, k, List.mem_append_left _ hc⟩
  case startClaim =>
    intro id n hn
    rw [hst] at hn
    by_cases hid : sn.id = id
    · subst hid
      rw [if_pos rfl] at hn
      rcases List.mem_append.mp hn with hn | hn
      · obtain ⟨v, t, k, hm⟩ := hI.startClaim _ n hn
        exact ⟨v, t, k, List.mem_append_left _ hm⟩
      · obtain ⟨t, k, hm⟩ := hI.heldClaim w sn false lost hb
        rw [List.mem_singleton.mp hn]
        exact ⟨w, t, k, List.mem_append_left _ hm⟩
    · rw [if_neg hid] at hn
      obtain ⟨v, t, k, hm⟩ := hI.startClaim id n hn
      exact ⟨v, t, k, List.mem_append_left _ hm⟩
  case startOnce =>
    intro id
    rw [hst]
    by_cases hid : sn.id = id
    · subst hid
      rw [if_pos rfl, List.nodup_append]
      refine ⟨hI.startOnce _, by simp, fun a ha b hb' => ?_⟩
      rw [List.mem_singleton.mp hb']
      rintro rfl
      exact hI.unstarted w sn lost hb ha
    · rw [if_neg hid]
      exact hI.startOnce id

/-- A claim is a new one: its attempt number is above every claim of the
row so far, since `attempts` bounds them and grows by one. -/
theorem Inv.claim (hI : Inv s h) {w : String} {j : Job}
    {now lease : Timestamp} (hidle : s.workers w = .idle)
    (hmem : j ∈ s.jobs) (hp : j.status = .pending) :
    Inv ⟨updateId s.jobs j.id (claimed w now lease),
        setWorker s.workers w (.busy (claimed w now lease j) false false)⟩
      (h ++ [.claimed j.id (j.attempts + 1) w j.jobType j.dedupeKey]) := by
  set f : Job → Job := fun i => if i.id = j.id then claimed w now lease i else i
  have hfid : ∀ i, (f i).id = i.id := by
    intro i
    by_cases hi : i.id = j.id <;> simp [f, hi]
  have hfother : ∀ i, i.id ≠ j.id → f i = i := fun i hi => by simp [f, hi]
  have hfj : f j = claimed w now lease j := by simp [f]
  have hone : ∀ i ∈ s.jobs, i.id = j.id → i = j :=
    fun i hi h => row_unique hI.ids hi hmem h
  have hheld : ∀ v sn st lost,
      setWorker s.workers w (.busy (claimed w now lease j) false false) v
        = .busy sn st lost →
      (v = w ∧ sn = claimed w now lease j)
        ∨ (v ≠ w ∧ s.workers v = .busy sn st lost) := by
    intro v sn st lost hb
    by_cases hv : v = w
    · subst hv
      simp only [setWorker_same, WorkerState.busy.injEq] at hb
      exact .inl ⟨rfl, hb.1.symm⟩
    · rw [setWorker_other _ _ hv] at hb
      exact .inr ⟨hv, hb⟩
  -- every claim of this row so far has a smaller number
  have hbelow : ∀ n v t k, Event.claimed j.id n v t k ∈ h → n ≤ j.attempts := by
    intro n v t k hm
    obtain ⟨i, hi, hid, hle⟩ := hI.claimRow j.id n v t k hm
    rw [← hone i hi hid]
    exact hle
  have hst : ∀ id, startsOf
      (h ++ [.claimed j.id (j.attempts + 1) w j.jobType j.dedupeKey]) id
      = startsOf h id := by
    intro id
    rw [startsOf_append]
    simp [startsOf]
  have hsplit : ∀ id n v t k, Event.claimed id n v t k ∈
      h ++ [.claimed j.id (j.attempts + 1) w j.jobType j.dedupeKey] →
      Event.claimed id n v t k ∈ h ∨
        (id = j.id ∧ n = j.attempts + 1 ∧ v = w) := by
    intro id n v t k hm
    rcases List.mem_append.mp hm with hm | hm
    · exact .inl hm
    · rw [List.mem_singleton] at hm
      cases hm
      exact .inr ⟨rfl, rfl, rfl⟩
  constructor
  case ids =>
    show ((s.jobs.map f).map (·.id)).Nodup
    rw [ids_map hfid]
    exact hI.ids
  case rows =>
    intro i hi
    obtain ⟨k, hk, rfl⟩ := List.mem_map.mp hi
    by_cases hid : k.id = j.id
    · obtain rfl := hone k hk hid
      rw [if_pos rfl]
      exact claimed_ok (hI.rows k hk) hp
    · rw [if_neg hid]
      exact hI.rows k hk
  case held =>
    intro v sn st lost hb
    rcases hheld v sn st lost hb with ⟨rfl, rfl⟩ | ⟨hv, hb⟩
    · refine ⟨f j, List.mem_map_of_mem hmem, ?_, ?_, ?_⟩
      · rw [hfj]
      · rw [hfj]
      · rw [hfj]
        exact fun _ => rfl
    · obtain ⟨i, hi, h1, h2, h3⟩ := hI.held v sn st lost hb
      refine ⟨f i, List.mem_map_of_mem hi, ?_, ?_, fun hl => ?_⟩
      · rw [hfid, h1]
      · by_cases hid : i.id = j.id
        · simpa [f, hid, claimed] using h2
        · rw [hfother i hid, h2]
      · by_cases hid : i.id = j.id
        · simp only [f, hid, ↓reduceIte, claimed, Option.some.injEq] at hl
          exact absurd hl.symm hv
        · rw [hfother i hid] at hl ⊢
          exact h3 hl
  case heldClaim =>
    intro v sn st lost hb
    rcases hheld v sn st lost hb with ⟨rfl, rfl⟩ | ⟨-, hb⟩
    · exact ⟨j.jobType, j.dedupeKey, by simp [claimed]⟩
    · obtain ⟨t, k, hm⟩ := hI.heldClaim v sn st lost hb
      exact ⟨t, k, List.mem_append_left _ hm⟩
  case unstarted =>
    intro v sn lost hb
    rw [hst]
    rcases hheld v sn false lost hb with ⟨rfl, rfl⟩ | ⟨-, hb⟩
    · intro hn
      obtain ⟨v', t, k, hm⟩ := hI.startClaim _ _ hn
      have hlt : j.attempts + 1 ≤ j.attempts := hbelow _ v' t k hm
      omega
    · exact hI.unstarted v sn lost hb
  case claimRow =>
    intro id n v t k hm
    rcases hsplit id n v t k hm with hm | ⟨rfl, rfl, rfl⟩
    · obtain ⟨i, hi, h1, h2⟩ := hI.claimRow id n v t k hm
      refine ⟨f i, List.mem_map_of_mem hi, by rw [hfid, h1], ?_⟩
      by_cases hid : i.id = j.id
      · show n ≤ (f i).attempts
        simp only [f, hid, ↓reduceIte, claimed]
        omega
      · rw [hfother i hid]
        exact h2
    · refine ⟨f j, List.mem_map_of_mem hmem, by rw [hfid], ?_⟩
      rw [hfj]
      exact Nat.le_refl _
  case claimOnce =>
    intro id n v t k v' t' k' hm hm'
    rcases hsplit id n v t k hm with ho | ⟨rfl, rfl, rfl⟩
    · rcases hsplit id n v' t' k' hm' with ho' | ⟨rfl, rfl, rfl⟩
      · exact hI.claimOnce id n v t k v' t' k' ho ho'
      · have hle := hbelow _ v t k ho
        omega
    · rcases hsplit _ _ v' t' k' hm' with ho' | ⟨-, -, rfl⟩
      · have hle := hbelow _ v' t' k' ho'
        omega
      · rfl
  case claimPos =>
    intro id n v t k hm
    rcases hsplit id n v t k hm with hm | ⟨-, rfl, -⟩
    · exact hI.claimPos id n v t k hm
    · omega
  case lockClaim =>
    intro i hi v hl
    obtain ⟨k, hk, rfl⟩ := List.mem_map.mp hi
    by_cases hid : k.id = j.id
    · obtain rfl := hone k hk hid
      simp only [↓reduceIte, claimed, Option.some.injEq] at hl ⊢
      subst hl
      exact ⟨k.jobType, k.dedupeKey, by simp⟩
    · simp only [if_neg hid] at hl ⊢
      obtain ⟨t, c, hm⟩ := hI.lockClaim k hk v hl
      exact ⟨t, c, List.mem_append_left _ hm⟩
  case writeClaim =>
    intro id n v write hm
    obtain ⟨t, k, hc⟩ := hI.writeClaim id n v write (by simpa using hm)
    exact ⟨t, k, List.mem_append_left _ hc⟩
  case startClaim =>
    intro id n hn
    rw [hst] at hn
    obtain ⟨v, t, k, hm⟩ := hI.startClaim id n hn
    exact ⟨v, t, k, List.mem_append_left _ hm⟩
  case startOnce =>
    intro id
    rw [hst]
    exact hI.startOnce id

theorem Inv.write (hI : Inv s h) {w : String} {sn : Job}
    {started lost : Bool} {x : WorkerState} {write : Write}
    {runAfter : Timestamp} {error tb : String} {now lease : Timestamp}
    (hb : s.workers w = .busy sn started lost)
    (hx : x = .idle ∨ ∃ lost', x = .busy sn true lost')
    (hbudget : write = .reschedule → sn.attemptsExhausted = false) :
    Inv ⟨(fencedUpdate s.jobs sn.id w
          (written write runAfter error tb now lease)).1,
        setWorker s.workers w x⟩
      (h ++ writeEvents s.jobs sn.id w write) := by
  set f : Job → Job := fun j =>
    if ownedBy sn.id w j then written write runAfter error tb now lease j else j
  have hok : ∀ j ∈ s.jobs, JobOk (f j) := by
    intro j hj
    cases ho : ownedBy sn.id w j with
    | false =>
      simp only [f, ho]
      exact hI.rows j hj
    | true =>
      obtain ⟨hid, hl, hr⟩ := ownedBy_iff.mp ho
      simp only [f, ho, ↓reduceIte]
      refine written_ok (hI.rows j hj) hr fun hre => ?_
      obtain ⟨i, hi, hid', hmax, hat⟩ := hI.held w sn started lost hb
      obtain rfl := row_unique hI.ids hi hj (hid'.trans hid.symm)
      have hsn := hbudget hre
      simp only [Job.attemptsExhausted, decide_eq_false_iff_not] at hsn
      rw [hat hl, hmax]
      omega
  have hrw : Inv { s with jobs := s.jobs.map f }
      (h ++ writeEvents s.jobs sn.id w write) := by
    apply (hI.emit_writes sn.id w write).rewrite _ _ _ _ hok
    · intro j
      cases ho : ownedBy sn.id w j <;> simp [f, ho]
    · intro j
      cases ho : ownedBy sn.id w j <;> simp [f, ho]
    · intro j
      cases ho : ownedBy sn.id w j <;> simp [f, ho]
    · intro j v hl
      cases ho : ownedBy sn.id w j with
      | false => simpa [f, ho] using hl
      | true =>
        simp only [f, ho, ↓reduceIte] at hl
        exact written_lockedBy hl
  refine hrw.move fun sn' st lost' hxb => ?_
  rcases hx with rfl | ⟨l, rfl⟩
  · cases hxb
  · cases hxb
    exact ⟨started, lost, hb, fun hf => by cases hf⟩

theorem Inv.reclaim (hI : Inv s h) (now : Timestamp) (limit : Nat)
    (locked : List Id) :
    Inv { s with jobs := (reclaimExpired s.jobs now limit locked).1 } h := by
  apply hI.rewrite
  · intro j
    split <;> rfl
  · intro j
    split <;> rfl
  · intro j
    split <;> rfl
  · intro j v hl
    split at hl
    case isTrue => cases hl
    case isFalse => exact hl
  · intro j hj
    split
    case isTrue => exact reclaimed_ok (hI.rows j hj)
    case isFalse => exact hI.rows j hj

end Keep

theorem inv_step {s s' : Sys} {h es : List Event} (hI : Inv s h)
    (he : Effect s s' es) : Inv s' (h ++ es) := by
  cases he with
  | quiet _ hes =>
    apply hI.emit
    · rcases hes with rfl | ⟨t, k, rfl⟩ <;> simp
    · rcases hes with rfl | ⟨t, k, rfl⟩ <;> simp
    · rcases hes with rfl | ⟨t, k, rfl⟩ <;> simp
  | insert spec newId now hfresh =>
    exact (hI.insert spec now hfresh).emit (by simp) (by simp) (by simp)
  | claim w j now lease hidle hmem hp => exact hI.claim hidle hmem hp
  | start w j lost hb => exact hI.start hb
  | write w j started lost x write runAfter error tb now lease hb hx _ hbudget =>
    exact hI.write hb hx hbudget
  | leave w x hx =>
    rw [List.append_nil]
    apply hI.move
    rcases hx with rfl | rfl <;> simp
  | reclaim now limit locked =>
    rw [List.append_nil]
    exact hI.reclaim now limit locked

theorem inv_run {s : Sys} {acts : List Action} {evs : List Event}
    (hrun : machine.run init acts = some (s, evs)) : Inv s evs := by
  simpa using machine.run_history Inv
    (fun s a s' h es hI hs => inv_step hI (step_effect hs)) inv_init hrun

-- ====== terminal rows stay

/-- A row in a terminal state, which no later step changes. -/
def Settled (j : Job) (s : Sys) : Prop :=
  j ∈ s.jobs ∧ j.status.terminal = true

theorem settled_step {s s' : Sys} {h es : List Event} {j : Job}
    (hI : Inv s h) (he : Effect s s' es) (hj : Settled j s) :
    Settled j s' := by
  obtain ⟨hmem, ht⟩ := hj
  have hne : ∀ {st : JobStatus}, st.terminal = false → j.status ≠ st := by
    intro st hst heq
    rw [heq, hst] at ht
    cases ht
  refine ⟨?_, ht⟩
  cases he with
  | quiet => exact hmem
  | insert spec newId now hfresh => exact List.mem_append_left _ hmem
  | claim w i now lease hidle hi hp =>
    have hid : j.id ≠ i.id := by
      intro heq
      rw [row_unique hI.ids hmem hi heq] at hne
      exact hne rfl hp
    exact List.mem_map.mpr ⟨j, hmem, if_neg hid⟩
  | start => exact hmem
  | write w sn started lost x write runAfter error tb now lease hb hx _ hbudget =>
    have ho : ownedBy sn.id w j = false := by
      rw [Bool.eq_false_iff]
      exact fun ho => hne rfl (ownedBy_iff.mp ho).2.2
    exact List.mem_map.mpr ⟨j, hmem, by simp [ho]⟩
  | leave => exact hmem
  | reclaim now limit locked =>
    have hid : j.id ∉ expiredIds s.jobs now limit locked := by
      intro hin
      obtain ⟨i, hi, heq, hr⟩ := mem_expiredIds hin
      rw [row_unique hI.ids hi hmem heq] at hr
      exact hne rfl hr
    exact List.mem_map.mpr ⟨j, hmem, if_neg hid⟩

theorem settled_run {s s' : Sys} {acts : List Action}
    {h evs : List Event} {j : Job} (hI : Inv s h)
    (hrun : machine.run s acts = some (s', evs)) (hj : Settled j s) :
    Settled j s' :=
  (machine.run_history (fun s h => Inv s h ∧ Settled j s)
    (fun _ _ _ _ _ hI hs => ⟨inv_step hI.1 (step_effect hs),
      settled_step hI.1 (step_effect hs) hI.2⟩) ⟨hI, hj⟩ hrun).2

-- ======= how often

theorem startsOf_bounded {s : Sys} {h : List Event} (hI : Inv s h)
    {j : Job} (hj : j ∈ s.jobs) :
    (startsOf h j.id).length ≤ j.maxAttempts := by
  have hrange : ∀ n ∈ startsOf h j.id, 1 ≤ n ∧ n ≤ j.maxAttempts := by
    intro n hn
    obtain ⟨w, t, k, hm⟩ := hI.startClaim j.id n hn
    obtain ⟨i, hi, hid, hle⟩ := hI.claimRow j.id n w t k hm
    obtain rfl := row_unique hI.ids hi hj hid
    exact ⟨hI.claimPos _ n w t k hm, hle.trans (hI.rows i hi).attempts_le⟩
  have hsub : (startsOf h j.id).toFinset ⊆ Finset.Icc 1 j.maxAttempts := by
    intro n hn
    exact Finset.mem_Icc.mpr (hrange n (List.mem_toFinset.mp hn))
  have hcard := Finset.card_le_card hsub
  rw [List.toFinset_card_of_nodup (hI.startOnce j.id), Nat.card_Icc] at hcard
  omega

-- ======= the claim

/-- What the queue promises of a state and the history that led to it. -/
structure QueueSafe (s : Sys) (evs : List Event) : Prop where
  /-- Attempts, locks, leases and completion agree with the status. -/
  rows : ∀ j ∈ s.jobs, JobOk j
  /-- One claim, a job and its attempt, is written by one worker. -/
  fenced : ∀ id n w write w' write', Event.wrote id n w write ∈ evs →
    Event.wrote id n w' write' ∈ evs → w = w'
  /-- The budget bounds the handler runs. -/
  starts : ∀ j ∈ s.jobs, (startsOf evs j.id).length ≤ j.maxAttempts

/-- The queue is safe after any run, and a row that is terminal anywhere
along it is the same row at its end. -/
theorem queue_safe (acts rest : List Action) (s s' : Sys)
    (evs evs' : List Event)
    (hrun : machine.run init acts = some (s, evs))
    (hrest : machine.run s rest = some (s', evs')) :
    QueueSafe s evs ∧
      ∀ j ∈ s.jobs, j.status.terminal = true → j ∈ s'.jobs := by
  have hI := inv_run hrun
  refine ⟨⟨hI.rows, ?_, fun j hj => startsOf_bounded hI hj⟩, ?_⟩
  · intro id n w write w' write' hm hm'
    obtain ⟨t, k, hc⟩ := hI.writeClaim id n w write hm
    obtain ⟨t', k', hc'⟩ := hI.writeClaim id n w' write' hm'
    exact hI.claimOnce id n w t k w' t' k' hc hc'
  · intro j hj ht
    exact (settled_run hI hrest ⟨hj, ht⟩).1

-- ------ a lease that runs out

/-- A worker claims a job and loses its lease; another claims it again,
and both settle. -/
def lateOwnerRun : List Action :=
  [.enqueue { jobType := .noop } 1 0,
   .claim "a" 1 10 none [],
   .start "a",
   .reclaim 20 100 [],
   .claim "b" 21 10 none [],
   .start "b",
   .settle "a" .success 0 "" "" 22,
   .settle "b" .success 0 "" "" 23]

/-- Where that run ends. -/
def lateOwnerEnd : Sys × List Event :=
  (machine.run init lateOwnerRun).getD (init, [])

/-- The late owner's write is refused: one claim, one writer. -/
example : lateOwnerEnd.2.filter (fun | .wrote .. => true | _ => false)
    = [.wrote 1 2 "b" .complete] := by decide

theorem queue_safe_late_owner :
    QueueSafe lateOwnerEnd.1 lateOwnerEnd.2 ∧
      ∀ j ∈ lateOwnerEnd.1.jobs, j.status.terminal = true →
        j ∈ lateOwnerEnd.1.jobs :=
  queue_safe lateOwnerRun [] lateOwnerEnd.1 lateOwnerEnd.1 lateOwnerEnd.2 []
    rfl rfl

end MemoryOS.Worker
