/-
Every chunk without a vector has a job that will embed it.

`_store` queues `EMBED_MEMORY` for the version it cuts chunks for, in the
same transaction. `_adopt_from_previous_version` moves chunks to another
version and queues nothing: a chunk that has its vector takes it along,
one that is still waiting has its job name the version it was taken from,
whose run then finds nothing to embed.

# Runs in the order of the log

While an item's versions are run in the order they were observed, the
newest one that has been run is up to date: it has the hash of its text,
and chunks unless the text is blank. So a run finds work to do only on a
version that has not been run before.

# The invariant

A version is cut into chunks once (runs in order find it up to date
afterwards), so its one embed job is queued when its first chunks are
stored, and whatever a worker has read for it stays all there is to embed.
-/
import MemoryOS.Jobs.Proofs.Rows
import MemoryOS.Pipeline.Proofs.Calm
import MemoryOS.Pipeline.Proofs.Holder
import MemoryOS.Pipeline.System

namespace MemoryOS.Pipeline

open NormalizeMemory

/-- What runs in order leave of one item. -/
structure UpToDate (ports : Ports) (blobs : Blobs) (rows : List Memory)
    (held : List Held) : Prop where
  versions : ∀ h ∈ held, h.version = ports.chunker.version
  newest : ∀ r ∈ rows, r.normalizedHash ≠ none →
    (∀ x ∈ rows, r.id < x.id → x.normalizedHash = none) →
    ∃ doc, parse ports blobs r = .ok doc
      ∧ r.normalizedHash = some ⟨doc.text⟩
      ∧ (heldVersions held r.id = [] → isBlank doc.text = true)

theorem upToDate_nil (ports : Ports) (blobs : Blobs) :
    UpToDate ports blobs [] [] := by
  constructor
  · intro h hh
    cases hh
  · intro r hr
    cases hr

variable {ports : Ports} {blobs blobs' : Blobs} {rows rows' : List Memory}
  {held held' : List Held}

theorem UpToDate.moreBlobs (h : UpToDate ports blobs rows held)
    (hget : ∀ r ∈ rows, ∀ data, blobs.get r.contentHash = some data →
      blobs'.get r.contentHash = some data) :
    UpToDate ports blobs' rows held := by
  refine ⟨h.versions, fun r hr hrun hlast => ?_⟩
  obtain ⟨doc, hdoc, hrest⟩ := h.newest r hr hrun hlast
  exact ⟨doc, parse_get (hget r hr) hdoc, hrest⟩

theorem UpToDate.add (h : UpToDate ports blobs rows held) {r : Memory}
    (hhash : r.normalizedHash = none) :
    UpToDate ports blobs (rows ++ [r]) held := by
  refine ⟨h.versions, fun x hx hrun hlast => ?_⟩
  rcases List.mem_append.mp hx with hx | hx
  · exact h.newest x hx hrun fun y hy =>
      hlast y (List.mem_append_left _ hy)
  · rw [List.mem_singleton.mp hx] at hrun
    exact absurd hhash hrun

theorem newest_stamped {m r : Memory} {text : Text}
    (hids : (rows.map (·.id)).Nodup) (hm : m ∈ rows)
    (horder : ∀ x ∈ rows, m.id < x.id → x.normalizedHash = none)
    (hr : r ∈ stamped m.id text rows) (hrun : r.normalizedHash ≠ none)
    (hlast : ∀ x ∈ stamped m.id text rows, r.id < x.id →
      x.normalizedHash = none) :
    r = { m with normalizedHash := some ⟨text⟩ } := by
  obtain ⟨x, hx, rfl⟩ := mem_stamped.mp hr
  by_cases hid : x.id = m.id
  · rw [row_unique hids hx hm hid, if_pos rfl]
  · rw [if_neg hid] at hrun hlast
    rcases Nat.lt_or_gt_of_ne hid with hlt | hgt
    · have hnone := hlast _ (mem_stamped.mpr ⟨m, hm, rfl⟩)
        (by rw [if_pos rfl]; exact hlt)
      rw [if_pos rfl] at hnone
      cases hnone
    · exact absurd (horder x hx hgt) hrun

theorem UpToDate.run (h : UpToDate ports blobs rows held) {m : Memory}
    (hids : (rows.map (·.id)).Nodup) (hm : m ∈ rows)
    (horder : ∀ x ∈ rows, m.id < x.id → x.normalizedHash = none)
    (hrun : OwnRun ports blobs m rows held rows' held') :
    UpToDate ports blobs rows' held' := by
  cases hrun with
  | skipped => exact h
  | reused doc hdoc previous hrow hne hhash hheld =>
    refine ⟨fun x hx => ?_, fun r hr hnorm hlast => ?_⟩
    · obtain ⟨y, hy, rfl⟩ := List.mem_map.mp hx
      rw [← h.versions y hy]
      split <;> rfl
    · rw [newest_stamped hids hm horder hr hnorm hlast]
      refine ⟨doc, hdoc, rfl, fun hnone => ?_⟩
      -- the chunks it took are its own now
      obtain ⟨x, hx, hid⟩ := heldVersions_ne_nil hheld
      have hmoved : ({ x with memoryId := m.id } : Held)
          ∈ moved previous.id m.id held :=
        List.mem_map.mpr ⟨x, hx, if_pos hid⟩
      have hver : x.version ∈ heldVersions (moved previous.id m.id held)
          m.id :=
        List.mem_map.mpr ⟨_, List.mem_filter.mpr
          ⟨hmoved, decide_eq_true rfl⟩, rfl⟩
      rw [show heldVersions (moved previous.id m.id held) m.id = []
        from hnone] at hver
      cases hver
  | chunked doc hdoc hstale =>
    refine ⟨fun x hx => ?_, fun r hr hnorm hlast => ?_⟩
    · obtain ⟨c, hc, rfl⟩ := List.mem_map.mp hx
      rfl
    · rw [newest_stamped hids hm horder hr hnorm hlast]
      refine ⟨doc, hdoc, rfl, fun hnone => ?_⟩
      rw [← Chunker.chunk_eq_nil_iff ports.chunker]
      cases hcut : ports.chunker.chunk doc with
      | nil => rfl
      | cons c rest =>
        rw [hcut] at hnone
        simp [heldVersions, cutFor] at hnone

-- ======= the table

variable {s s' : Store} {db : Db} {i : Item} {id : Id} {m : Memory}

theorem later_unrun (hm : db.memory id = some m)
    (horder : inLogOrder db id = true) :
    ∀ x ∈ itemRows db m.item, m.id < x.id → x.normalizedHash = none := by
  intro x hx hlt
  obtain ⟨y, hy, hi, rfl⟩ := mem_itemRows.mp hx
  unfold inLogOrder at horder
  simp only [hm, List.all_eq_true] at horder
  simpa [hi, show m.id < y.id from hlt] using horder y hy

theorem run_isCurrent
    (h : UpToDate ports blobs (itemRows db m.item) (itemHeld db m.item))
    (hm : db.memory id = some m) (hrun : m.normalizedHash ≠ none)
    (horder : inLogOrder db id = true) {doc : ParsedDocument}
    (hdoc : parse ports blobs m = .ok doc) :
    isCurrent ports db m doc = true := by
  obtain ⟨hmem, -⟩ := Db.memory_mem hm
  have hrow : m.base ∈ itemRows db m.item :=
    mem_itemRows.mpr ⟨m, hmem, rfl, rfl⟩
  obtain ⟨doc', hdoc', hhash, hblank⟩ :=
    h.newest m.base hrow hrun (later_unrun hm horder)
  have hsame : doc' = doc := by
    rw [show parse ports blobs m.base = parse ports blobs m from rfl,
      hdoc] at hdoc'
    exact (Except.ok.inj hdoc').symm
  subst hsame
  have hhash' : m.normalizedHash = some (normalizedHash doc'.text) := hhash
  unfold isCurrent
  rw [if_neg (not_not.mpr hhash'), chunkVersions_eq hmem rfl]
  simp only
  split
  case isTrue hnone =>
    exact hblank (by simpa using hnone)
  case isFalse hsome =>
    rw [only_eq_true]
    refine ⟨by simpa using hsome, fun v hv => ?_⟩
    obtain ⟨x, hx, rfl⟩ := List.mem_map.mp hv
    exact h.versions x (List.mem_filter.mp hx).1

theorem UpToDate.other
    (h : UpToDate ports s.blobs (itemRows s.db i) (itemHeld s.db i))
    (hs : ItemStep i s.db s'.db)
    (hget : ∀ r ∈ itemRows s'.db i, ∀ data,
      s.blobs.get r.contentHash = some data →
      s'.blobs.get r.contentHash = some data) :
    UpToDate ports s'.blobs (itemRows s'.db i) (itemHeld s'.db i) := by
  refine UpToDate.moreBlobs ?_ hget
  cases hs with
  | same hs =>
    rw [hs.rows, hs.held]
    exact h
  | added hs =>
    obtain ⟨r, -, hhash, hrows⟩ := hs.row
    rw [hrows, hs.held]
    exact h.add hhash
  | gone hs =>
    rw [hs.rows, hs.held]
    exact upToDate_nil ports s.blobs

theorem UpToDate.normalize
    (h : UpToDate ports s.blobs (itemRows s.db i) (itemHeld s.db i))
    (hv : Versions (keyed s.db) s.db.nextId)
    (horder : inLogOrder s.db id = true) {now : Timestamp}
    {r : Db × Outcome} (hr : call ports true s.blobs s.db id now = .ok r) :
    UpToDate ports s.blobs (itemRows r.1 i) (itemHeld r.1 i) := by
  obtain ⟨m, hm, hcase⟩ := call_cases hr
  obtain ⟨hmem, -⟩ := Db.memory_mem hm
  by_cases hi : m.item = i
  · subst hi
    by_cases hdel : m.deletedAt = none
    · exact h.run (itemRows_ids hv) (mem_itemRows.mpr ⟨m, hmem, rfl, rfl⟩)
        (later_unrun hm horder) (normalize_item_own hr hm rfl hdel)
    · obtain ⟨heq, -⟩ | ⟨hno, -⟩ := hcase
      · rw [heq]
        exact h
      · exact absurd hno hdel
  · have hs := normalize_item_other hv hr fun m' hm' => by
      rw [hm, Option.some.injEq] at hm'
      exact hm' ▸ hi
    rw [hs.rows, hs.held]
    exact h

-- ====== what is owed

/-- Every chunk without a vector of a current, undeleted memory has a job
in flight that names the memory. -/
structure EmbedOwed (db : Db) : Prop where
  owed : ∀ c m, Unembedded db c m →
    ∃ j ∈ db.jobs, j.status.inFlight = true ∧ EmbedJob j m.id
  drained : (∀ j ∈ db.jobs, j.status.inFlight = false) →
    ∀ c m, ¬ Unembedded db c m

/-- The chunks a run would adopt for a current version have their
vectors. -/
def AdoptsEmbedded (ports : Ports) (s : Store) (id : Id) : Prop :=
  ∀ m doc previous, s.db.memory id = some m → m.isCurrent = true →
    m.deletedAt = none → parse ports s.blobs m = .ok doc →
    isCurrent ports s.db m doc = false →
    previousVersion s.db m doc = some previous →
    only ports.chunker.version (chunkVersions s.db previous.id) = true →
    ordinalsClash s.db m.id previous.id = false →
    ∀ c ∈ s.db.chunks, c.memoryId = previous.id → c.embedding ≠ none

/-- A step that adopts only chunks with vectors, and gives up no embed job
that is still needed. -/
def Careful (ports : Ports) (s : Sys) : Action → Prop
  | .op (.normalize id _) => AdoptsEmbedded ports s.store id
  | .queue a => ∀ j ∈ s.store.db.jobs, ∀ id, EmbedJob j id →
      Worker.givesUp s.queue a j = true →
      ∀ c m, Unembedded s.store.db c m → m.id ≠ id
  | _ => True

-- ====== the job table

/-- What holds of the job rows. -/
structure JobsOk (db : Db) : Prop where
  ids : (db.jobs.map (·.id)).Nodup
  fresh : ∀ j ∈ db.jobs, j.id < db.nextId
  /-- An embed job's key and payload name one memory. -/
  keyed : ∀ j ∈ db.jobs, j.jobType = .embedMemory →
    ∃ id, j.payload.memoryId = some id ∧ j.dedupeKey = some (.embed id)
  single : ∀ j ∈ db.jobs, ∀ k ∈ db.jobs, ∀ id, EmbedJob j id →
    EmbedJob k id → j = k
  /-- A memory with an embed job has been run. -/
  run : ∀ j ∈ db.jobs, ∀ id, EmbedJob j id → id < db.nextId
    ∧ ∀ m ∈ db.memories, m.id = id → m.normalizedHash ≠ none

variable {db db' : Db}

variable {doc : ParsedDocument} {id : Id} {m : Memory} {a : Worker.Action}
  {w : String} {now : Timestamp}

theorem jobsOk_start (sources : List Source) :
    JobsOk (Live.start sources).db := by
  constructor <;> simp [Live.start]

theorem job_unique (h : JobsOk db) {j k : Job} (hj : j ∈ db.jobs)
    (hk : k ∈ db.jobs) (hid : j.id = k.id) : j = k :=
  List.inj_on_of_nodup_map h.ids hj hk hid

theorem JobsOk.queued (h : JobsOk db) (hq : Queued db db') : JobsOk db' := by
  obtain ⟨extra, hjobs, hextra, hnodup⟩ := hq.jobs
  -- an embed job is an old one
  have hold : ∀ j ∈ db'.jobs, j.jobType = .embedMemory → j ∈ db.jobs := by
    intro j hj ht
    rw [hjobs] at hj
    rcases List.mem_append.mp hj with hj | hj
    · exact hj
    · exact absurd ht (hextra j hj).1
  constructor
  case ids =>
    rw [hjobs, List.map_append, List.nodup_append]
    refine ⟨h.ids, hnodup, fun a ha b hb => ?_⟩
    obtain ⟨j, hj, rfl⟩ := List.mem_map.mp ha
    obtain ⟨k, hk, rfl⟩ := List.mem_map.mp hb
    exact Nat.ne_of_lt (Nat.lt_of_lt_of_le (h.fresh j hj) (hextra k hk).2.1)
  case fresh =>
    intro j hj
    rw [hjobs] at hj
    rcases List.mem_append.mp hj with hj | hj
    · exact Nat.lt_of_lt_of_le (h.fresh j hj) hq.next
    · exact (hextra j hj).2.2
  case keyed => exact fun j hj ht => h.keyed j (hold j hj ht) ht
  case single =>
    exact fun j hj k hk id he he' =>
      h.single j (hold j hj he.1) k (hold k hk he'.1) id he he'
  case run =>
    intro j hj id he
    obtain ⟨hlt, hrun⟩ := h.run j (hold j hj he.1) id he
    refine ⟨Nat.lt_of_lt_of_le hlt hq.next, fun m' hm' hid hnone => ?_⟩
    rcases hq.rows m' hm' hnone with hle | ⟨m, hm, hid', hnone'⟩
    · rw [hid] at hle
      exact Nat.lt_irrefl _ (Nat.lt_of_lt_of_le hlt hle)
    · exact hrun m hm (hid'.trans hid) hnone'

theorem JobsOk.embed (h : JobsOk db) (now : Timestamp)
    (hlt : id < db.nextId)
    (hrun : ∀ m ∈ db.memories, m.id = id → m.normalizedHash ≠ none)
    (hnone : ∀ j ∈ db.jobs, ¬ EmbedJob j id) :
    JobsOk (db.enqueue (embedSpec id) now) := by
  rcases enqueue_jobs db (embedSpec id) now with ⟨heq, -⟩ | heq
  · constructor
    case ids => exact heq ▸ h.ids
    case fresh =>
      exact fun j hj => Nat.lt_succ_of_lt (h.fresh j (heq ▸ hj))
    case keyed => exact fun j hj => h.keyed j (heq ▸ hj)
    case single =>
      exact fun j hj k hk => h.single j (heq ▸ hj) k (heq ▸ hk)
    case run =>
      intro j hj k he
      obtain ⟨hlt', hrun'⟩ := h.run j (heq ▸ hj) k he
      exact ⟨Nat.lt_succ_of_lt hlt', hrun'⟩
  · set new := Queue.pendingJob (embedSpec id) db.nextId now with hnew
    have hcase : ∀ j ∈ (db.enqueue (embedSpec id) now).jobs,
        j ∈ db.jobs ∨ j = new := by
      intro j hj
      rw [heq] at hj
      rcases List.mem_append.mp hj with hj | hj
      · exact .inl hj
      · exact .inr (List.mem_singleton.mp hj)
    have hpay : ∀ k, EmbedJob new k → k = id := by
      rintro k ⟨-, hk⟩
      exact (Option.some.inj hk).symm
    constructor
    case ids =>
      rw [heq, List.map_append, List.nodup_append]
      refine ⟨h.ids, List.nodup_singleton _, fun a ha b hb => ?_⟩
      obtain ⟨j, hj, rfl⟩ := List.mem_map.mp ha
      rw [List.map_cons, List.map_nil, List.mem_singleton] at hb
      rw [hb]
      exact Nat.ne_of_lt (h.fresh j hj)
    case fresh =>
      intro j hj
      rcases hcase j hj with hj | rfl
      · exact Nat.lt_succ_of_lt (h.fresh j hj)
      · exact Nat.lt_succ_self _
    case keyed =>
      intro j hj ht
      rcases hcase j hj with hj | rfl
      · exact h.keyed j hj ht
      · exact ⟨id, rfl, rfl⟩
    case single =>
      intro j hj k hk x he he'
      rcases hcase j hj with hj | rfl
      · rcases hcase k hk with hk | rfl
        · exact h.single j hj k hk x he he'
        · rw [hpay x he'] at he
          exact absurd he (hnone j hj)
      · rcases hcase k hk with hk | rfl
        · rw [hpay x he] at he'
          exact absurd he' (hnone k hk)
        · rfl
    case run =>
      intro j hj k he
      rcases hcase j hj with hj | rfl
      · obtain ⟨hlt', hrun'⟩ := h.run j hj k he
        exact ⟨Nat.lt_succ_of_lt hlt', hrun'⟩
      · rw [hpay k he]
        exact ⟨Nat.lt_succ_of_lt hlt, hrun⟩

theorem enqueue_inFlight (h : JobsOk db) (now : Timestamp) :
    ∃ j ∈ (db.enqueue (embedSpec id) now).jobs,
      j.status.inFlight = true ∧ EmbedJob j id := by
  rcases enqueue_jobs db (embedSpec id) now with ⟨heq, hany⟩ | heq
  · obtain ⟨j, hj, hd⟩ := List.any_eq_true.mp hany
    simp only [Queue.dedupes, Bool.and_eq_true, decide_eq_true_eq] at hd
    obtain ⟨⟨⟨-, hkey⟩, ht⟩, hflight⟩ := hd
    obtain ⟨k, hpay, hkey'⟩ := h.keyed j hj ht
    rw [hkey', show (embedSpec id).dedupeKey = some (.embed id) from rfl,
      Option.some.injEq, DedupeKey.embed.injEq] at hkey
    exact ⟨j, heq ▸ hj, hflight, ht, hkey ▸ hpay⟩
  · exact ⟨_, heq ▸ List.mem_append_right _ List.mem_cons_self, rfl, rfl, rfl⟩

theorem JobsOk.moved (h : JobsOk db) {q : Worker.Sys}
    {jobs : List Job} (hq : q.jobs = db.jobs)
    (hm : Worker.RowsMoved q a jobs) : JobsOk { db with jobs := jobs } := by
  obtain ⟨f, rfl, hsame, -⟩ := hm
  rw [hq]
  have hembed : ∀ {j : Job} {id : Id}, EmbedJob (f j) id → EmbedJob j id := by
    rintro j id ⟨ht, hp⟩
    exact ⟨(hsame j).jobType ▸ ht, (hsame j).payload ▸ hp⟩
  constructor
  case ids =>
    show ((db.jobs.map f).map (·.id)).Nodup
    rw [List.map_map]
    exact (List.map_congr_left fun j _ => (hsame j).id) ▸ h.ids
  case fresh =>
    intro j' hj'
    obtain ⟨j, hj, rfl⟩ := List.mem_map.mp hj'
    rw [(hsame j).id]
    exact h.fresh j hj
  case keyed =>
    intro j' hj' ht
    obtain ⟨j, hj, rfl⟩ := List.mem_map.mp hj'
    rw [(hsame j).payload, (hsame j).dedupeKey]
    exact h.keyed j hj ((hsame j).jobType ▸ ht)
  case single =>
    intro j' hj' k' hk' id he he'
    obtain ⟨j, hj, rfl⟩ := List.mem_map.mp hj'
    obtain ⟨k, hk, rfl⟩ := List.mem_map.mp hk'
    rw [h.single j hj k hk id (hembed he) (hembed he')]
  case run =>
    intro j' hj' id he
    obtain ⟨j, hj, rfl⟩ := List.mem_map.mp hj'
    exact h.run j hj id (hembed he)

-- ====== the invariant

/-- The chunks a handler has still to write, or may still read. -/
def Phase.covers : Phase → Id → Prop
  | .reading, _ => True
  | .writing pending, id => id ∈ pending.map (·.1)
  | .finished, _ => False

/-- What holds throughout a run. -/
structure Inv (ports : Ports) (s : Sys) : Prop where
  faithful : Faithful s.store.db
  chunks : ChunksOwned s.store.db
  upToDate : ∀ i, UpToDate ports s.store.blobs (itemRows s.store.db i)
    (itemHeld s.store.db i)
  jobs : JobsOk s.store.db
  /-- What a worker holds is a row as it once was. -/
  held : ∀ w sn started lost, s.workers w = .busy sn started lost →
    ∃ j ∈ s.store.db.jobs, SameJob j sn
  owed : ∀ c m, Unembedded s.store.db c m →
    ∃ j ∈ s.store.db.jobs, j.status.inFlight = true ∧ EmbedJob j m.id
  covered : ∀ w sn lost id, s.workers w = .busy sn true lost →
    EmbedJob sn id → ∀ c m, Unembedded s.store.db c m → m.id = id →
    (s.phase w).covers c.id

variable {ports : Ports} {s s' : Sys}

theorem inv_init (ports : Ports) (sources : List Source) :
    Inv ports (init sources) := by
  have hnone : ∀ c m, ¬ Unembedded (init sources).store.db c m := by
    intro c m hu
    cases hu.chunk
  constructor
  case faithful => exact faithful_start sources
  case chunks => exact .empty rfl
  case upToDate => exact fun i => upToDate_nil ports _
  case jobs => exact jobsOk_start sources
  case held =>
    intro w sn started lost hb
    cases hb
  case owed => exact fun c m hu => absurd hu (hnone c m)
  case covered =>
    intro w sn lost id hb
    cases hb

theorem Inv.embedOwed (h : Inv ports s) : EmbedOwed s.store.db := by
  refine ⟨h.owed, fun hdrained c m hu => ?_⟩
  obtain ⟨j, hj, hflight, -⟩ := h.owed c m hu
  rw [hdrained j hj] at hflight
  cases hflight

theorem Inv.heldJob (h : Inv ports s) {sn : Job}
    {started lost : Bool} (hb : s.workers w = .busy sn started lost) (he : EmbedJob sn id) :
    ∃ j ∈ s.store.db.jobs, SameJob j sn ∧ EmbedJob j id := by
  obtain ⟨j, hj, hsame⟩ := h.held w sn started lost hb
  exact ⟨j, hj, hsame, hsame.jobType ▸ he.1, hsame.payload ▸ he.2⟩

theorem Inv.calm (h : Inv ports s) {store : Store}
    (hf : Faithful store.db) (hc : ChunksOwned store.db)
    (hu : ∀ i, UpToDate ports store.blobs (itemRows store.db i)
      (itemHeld store.db i))
    (hcalm : Calm s.store.db store.db) : Inv ports (s.withStore store) := by
  obtain ⟨extra, hjobs, -, -⟩ := hcalm.jobs
  have hkeep : ∀ j ∈ s.store.db.jobs, j ∈ store.db.jobs := fun j hj =>
    hjobs ▸ List.mem_append_left _ hj
  constructor
  case faithful => exact hf
  case chunks => exact hc
  case upToDate => exact hu
  case jobs => exact h.jobs.queued hcalm.toQueued
  case held =>
    intro w sn started lost hb
    obtain ⟨j, hj, hsame⟩ := h.held w sn started lost hb
    exact ⟨j, hkeep j hj, hsame⟩
  case owed =>
    intro c' m' hu'
    obtain ⟨c, m, hun, -, hid⟩ := hcalm.chunks c' m' hu'
    obtain ⟨j, hj, hflight, he⟩ := h.owed c m hun
    exact ⟨j, hkeep j hj, hflight, hid ▸ he⟩
  case covered =>
    intro w sn lost id hb he c' m' hu' hid'
    obtain ⟨c, m, hun, hcid, hmid⟩ := hcalm.chunks c' m' hu'
    rw [← hcid]
    exact h.covered w sn lost id hb he c m hun (hmid.trans hid')

theorem Inv.withPhase (h : Inv ports s) {p : Phase}
    (hp : ∀ sn lost id, s.workers w = .busy sn true lost → EmbedJob sn id →
      ∀ c m, Unembedded s.store.db c m → m.id = id → p.covers c.id) :
    Inv ports (s.withPhase w p) := by
  refine { h with covered := ?_ }
  intro v sn lost id hb he c m hu hid
  show (if v = w then p else s.phase v).covers c.id
  split
  case isTrue hv =>
    subst hv
    exact hp sn lost id hb he c m hu hid
  case isFalse => exact h.covered v sn lost id hb he c m hu hid

-- ====== normalizing

theorem Inv.firstRun (h : Inv ports s) (hm : s.store.db.memory id = some m)
    (horder : inLogOrder s.store.db id = true)
    (hdoc : parse ports s.store.blobs m = .ok doc)
    (hstale : isCurrent ports s.store.db m doc = false) :
    m.normalizedHash = none := by
  by_contra hrun
  rw [run_isCurrent (h.upToDate m.item) hm hrun horder hdoc] at hstale
  cases hstale

theorem Inv.noEmbedJob (h : Inv ports s)
    (hm : s.store.db.memory id = some m) (hnone : m.normalizedHash = none) :
    ∀ j ∈ s.store.db.jobs, ¬ EmbedJob j m.id := by
  intro j hj he
  exact (h.jobs.run j hj m.id he).2 m (Db.memory_mem hm).1 rfl hnone

theorem documented_mem {r' : Memory}
    (h : r' ∈ (documented db id doc).memories) :
    (∃ r ∈ db.memories, RowFrom r r')
      ∧ (r'.id = id → r'.normalizedHash ≠ none) := by
  obtain ⟨r, hr, rfl⟩ := List.mem_map.mp h
  by_cases hid : r.id = id
  · rw [if_pos hid]
    exact ⟨⟨r, hr, ⟨rfl, nofun, fun h => h, fun h => h⟩⟩, fun _ => nofun⟩
  · rw [if_neg hid]
    exact ⟨⟨r, hr, .refl r⟩, fun hid' => absurd hid' hid⟩

theorem adopt_calm {previous : Memory}
    (hm : m ∈ db.memories) (hv : Versions (keyed db) db.nextId)
    (hembedded : m.isCurrent = true → m.deletedAt = none →
      ∀ c ∈ db.chunks, c.memoryId = previous.id → c.embedding ≠ none) :
    Calm db (documented (moveChunks db previous.id m.id) m.id doc) := by
  refine .mk (.mk (Nat.le_refl _) ?rows (noJobs rfl)) ?chunks
  case rows =>
    intro r' hr' hnone
    obtain ⟨⟨r, hr, hfrom⟩, -⟩ := documented_mem hr'
    exact .inr ⟨r, hr, hfrom.id, hfrom.hash hnone⟩
  case chunks =>
    intro c' m' hu
    obtain ⟨⟨r, hr, hfrom⟩, -⟩ := documented_mem hu.memory
    have hcur := hfrom.current hu.current
    have halive := hfrom.alive hu.alive
    have howner := hu.owner
    have hvec := hu.vector
    obtain ⟨c, hc, rfl⟩ := List.mem_map.mp hu.chunk
    by_cases hmoved : c.memoryId = previous.id
    · rw [if_pos hmoved] at howner hvec
      -- the chunk has come to the version of the run
      have hrm : r = m := memory_unique hv hr hm (hfrom.id.trans howner)
      subst hrm
      exact absurd hvec (hembedded hcur halive c hc hmoved)
    · rw [if_neg hmoved] at howner hvec ⊢
      exact ⟨c, r, ⟨hc, hvec, hr, hfrom.id.trans howner, hcur, halive⟩, rfl,
        hfrom.id⟩

theorem Inv.store (h : Inv ports s)
    {cs : List TextChunk} {db' : Db}
    (heq : db' = NormalizeMemory.store ports true s.store.db m doc cs now)
    (hm : m ∈ s.store.db.memories)
    (hnojob : ∀ j ∈ s.store.db.jobs, ¬ EmbedJob j m.id)
    (hf : Faithful db') (hc : ChunksOwned db')
    (hu : ∀ i, UpToDate ports s.store.blobs (itemRows db' i)
      (itemHeld db' i)) :
    Inv ports (s.withDb db') := by
  set stored := NormalizeMemory.store ports false s.store.db m doc cs now
    with hstored
  have henqueue : db' = stored.enqueue (embedSpec m.id) now := heq
  have hjobs : stored.jobs = s.store.db.jobs := rfl
  have hqueued : Queued s.store.db stored := by
    refine ⟨Nat.le_add_right _ _, fun r' hr' hnone => ?_, noJobs hjobs⟩
    obtain ⟨⟨r, hr, hfrom⟩, -⟩ := documented_mem hr'
    exact .inr ⟨r, hr, hfrom.id, hfrom.hash hnone⟩
  have hok := h.jobs.queued hqueued
  have hkeep : ∀ j ∈ s.store.db.jobs, j ∈ db'.jobs := by
    intro j hj
    rw [henqueue]
    rcases enqueue_jobs stored (embedSpec m.id) now with ⟨hsame, -⟩ | hmore
    · rw [hsame]
      exact hj
    · rw [hmore]
      exact List.mem_append_left _ hj
  -- a chunk is an old one of another item, or has just been cut
  have hchunk : ∀ c' m', Unembedded db' c' m' →
      (∃ c m₀, Unembedded s.store.db c m₀ ∧ c.id = c'.id ∧ m₀.id = m'.id)
        ∨ m'.id = m.id := by
    intro c' m' hun
    rw [henqueue] at hun
    obtain ⟨⟨r, hr, hfrom⟩, -⟩ := documented_mem hun.memory
    rcases List.mem_append.mp hun.chunk with hmem | hmem
    · have hold := (List.mem_filter.mp hmem).1
      exact .inl ⟨c', r, ⟨hold, hun.vector, hr, hfrom.id.trans hun.owner,
        hfrom.current hun.current, hfrom.alive hun.alive⟩, rfl, hfrom.id⟩
    · exact .inr (hun.owner.trans (chunkRows_mem hmem).1)
  constructor
  case faithful => exact hf
  case chunks => exact hc
  case upToDate => exact hu
  case jobs =>
    show JobsOk db'
    rw [henqueue]
    refine hok.embed now ?_ (fun r hr hid => (documented_mem hr).2 hid) hnojob
    exact Nat.lt_of_lt_of_le
      (h.faithful.versions.fresh (m.id, m.view) (List.mem_map_of_mem hm))
      hqueued.next
  case held =>
    intro w sn started lost hb
    obtain ⟨j, hj, hsame⟩ := h.held w sn started lost hb
    exact ⟨j, hkeep j hj, hsame⟩
  case owed =>
    intro c' m' hun
    rcases hchunk c' m' hun with ⟨c, m₀, hold, -, hid⟩ | hid
    · obtain ⟨j, hj, hflight, he⟩ := h.owed c m₀ hold
      exact ⟨j, hkeep j hj, hflight, hid ▸ he⟩
    · rw [hid]
      show ∃ j ∈ db'.jobs, _
      rw [henqueue]
      exact enqueue_inFlight hok now
  case covered =>
    intro w sn lost id hb he c' m' hun hid'
    rcases hchunk c' m' hun with ⟨c, m₀, hold, hcid, hmid⟩ | hid
    · rw [← hcid]
      exact h.covered w sn lost id hb he c m₀ hold (hmid.trans hid')
    · -- no worker has a job for a version that had none
      obtain ⟨j, hj, -, hej⟩ := h.heldJob hb he
      rw [← hid', hid] at hej
      exact absurd hej (hnojob j hj)

theorem Inv.normalize (h : Inv ports s)
    (horder : inLogOrder s.store.db id = true)
    (hcareful : AdoptsEmbedded ports s.store id) :
    Inv ports (s.withStore (Live.step ports s.store (.normalize id now))) := by
  unfold Live.step
  simp only
  split
  case h_1 => exact h
  case h_2 r hr =>
    have hf := h.faithful.same (normalize_same hr)
    have hc := call_owned h.chunks hr
    have hu : ∀ i, UpToDate ports s.store.blobs (itemRows r.1 i)
        (itemHeld r.1 i) := fun i =>
      (h.upToDate i).normalize h.faithful.versions horder hr
    obtain ⟨m, hm, ⟨heq, -⟩ | ⟨hdel, doc, hdoc, hstale, hcase⟩⟩ :=
      call_cases hr
    · exact h.calm hf hc hu (heq ▸ .refl _)
    · have hmem := (Db.memory_mem hm).1
      obtain ⟨previous, hp, honly, hclash, heq⟩ | ⟨-, heq⟩ := hcase
      · refine h.calm hf hc hu ?_
        show Calm s.store.db r.1
        rw [heq]
        exact adopt_calm hmem h.faithful.versions fun hcur _ =>
          hcareful m doc previous hm hcur hdel hdoc hstale hp honly hclash
      · exact h.store heq hmem
          (h.noEmbedJob hm (h.firstRun hm horder hdoc hstale)) hf hc hu

-- ======= the queue

theorem Inv.queue (h : Inv ports s) {q : Worker.Sys}
    {es : List Worker.Event} {phase : String → Phase}
    (hs : Worker.step s.queue a = some (q, es))
    (hne : ∀ spec newId now, a ≠ .enqueue spec newId now)
    (hcareful : Careful ports s (.queue a))
    (hreport : ∀ w outcome runAfter error tb now,
      a = .settle w outcome runAfter error tb now →
      mayReport s w outcome = true)
    (hphase : ∀ v, phase v = s.phase v ∨ phase v = .reading)
    (hstart : ∀ w, a = .start w → phase w = .reading) :
    Inv ports { s.withQueue q with phase := phase } := by
  have hrows := Worker.step_rows hs hne
  have hjobs := h.jobs.moved rfl hrows
  obtain ⟨f, hq, hsame, hflight, -⟩ := hrows
  have hmem : ∀ j ∈ s.store.db.jobs, f j ∈ q.jobs := by
    intro j hj
    rw [hq]
    exact List.mem_map_of_mem hj
  have hembed : ∀ j id, EmbedJob j id → EmbedJob (f j) id := by
    rintro j id ⟨ht, hp⟩
    exact ⟨(hsame j).jobType.trans ht, (hsame j).payload ▸ hp⟩
  constructor
  case faithful => exact h.faithful.same ⟨rfl, rfl, rfl, Nat.le_refl _⟩
  case chunks => exact h.chunks.keep rfl (Nat.le_refl _) fun _ hk => hk
  case upToDate => exact h.upToDate
  case jobs => exact hjobs
  case held =>
    intro w sn started lost hb
    rcases Worker.step_workers hs hb with ⟨st, l, hb', -⟩ | ⟨-, j, hj, hjsn⟩
    · obtain ⟨j, hj, hjsn⟩ := h.held w sn st l hb'
      exact ⟨f j, hmem j hj, hjsn.id.trans (hsame j).id.symm,
        hjsn.jobType.trans (hsame j).jobType.symm,
        hjsn.payload.trans (hsame j).payload.symm,
        hjsn.dedupeKey.trans (hsame j).dedupeKey.symm⟩
    · exact ⟨f j, hmem j hj, hjsn.id.trans (hsame j).id.symm,
        hjsn.jobType.trans (hsame j).jobType.symm,
        hjsn.payload.trans (hsame j).payload.symm,
        hjsn.dedupeKey.trans (hsame j).dedupeKey.symm⟩
  case owed =>
    intro c m hu
    have hu' : Unembedded s.store.db c m := ⟨hu.chunk, hu.vector, hu.memory,
      hu.owner, hu.current, hu.alive⟩
    obtain ⟨j, hj, hin, he⟩ := h.owed c m hu'
    refine ⟨f j, hmem j hj, hflight j hin ?_ ?_, hembed j m.id he⟩
    · rw [Bool.eq_false_iff]
      exact fun hg => hcareful j hj m.id he hg c m hu' rfl
    · rw [Bool.eq_false_iff]
      intro hc
      obtain ⟨w, runAfter, error, tb, now, sn, lost, rfl, hb, hid⟩ :=
        Worker.completes_some hc
      -- the worker that completes it holds this job, and has come to its end
      obtain ⟨k, hk, hksn⟩ := h.held w sn true lost hb
      have hkj : k = j := job_unique h.jobs hk hj (hksn.id.symm.trans hid)
      subst hkj
      have hesn : EmbedJob sn m.id :=
        ⟨hksn.jobType.trans he.1, hksn.payload ▸ he.2⟩
      have hmay := hreport w _ _ _ _ _ rfl
      unfold mayReport at hmay
      simp only [show s.workers w = .busy sn true lost from hb, hesn.1,
        ne_eq, not_true_eq_false, decide_false, Bool.false_or,
        decide_eq_true_eq] at hmay
      have hcov := h.covered w sn lost m.id hb hesn c m hu' rfl
      rw [hmay] at hcov
      exact hcov
  case covered =>
    intro w sn lost id hb he c m hu hid
    have hu' : Unembedded s.store.db c m := ⟨hu.chunk, hu.vector, hu.memory,
      hu.owner, hu.current, hu.alive⟩
    show (phase w).covers c.id
    rcases Worker.step_workers hs hb with ⟨st, l, hb', hst⟩ | ⟨hno, -⟩
    · rcases hst rfl with rfl | rfl
      · rcases hphase w with hp | hp
        · rw [hp]
          exact h.covered w sn l id hb' he c m hu' hid
        · rw [hp]
          trivial
      · rw [hstart w rfl]
        trivial
    · cases hno

theorem read_covers {embedder : Embedder} {db : Db}
    {out : EmbedMemory.Outcome} {pending : List (Id × Text)}
    (hv : Versions (keyed db) db.nextId)
    (hread : EmbedMemory.read embedder db id = .ok (out, pending))
    {c : MemoryChunk} (hu : Unembedded db c m) (hid : m.id = id) :
    out = .embedded ∧ c.id ∈ pending.map (·.1) := by
  have hpending : (c.id, c.content)
      ∈ EmbedMemory.pendingChunks embedder db id := by
    refine List.mem_map.mpr ⟨c, List.mem_filter.mpr ⟨hu.chunk, ?_⟩, rfl⟩
    rw [Bool.and_eq_true, decide_eq_true_eq]
    refine ⟨hu.owner.symm.trans hid, ?_⟩
    unfold EmbedMemory.isPending
    rw [hu.vector]
    rfl
  unfold EmbedMemory.read at hread
  split at hread
  case h_1 => cases hread
  case h_2 x hx =>
    obtain ⟨hxm, hxid⟩ := Db.memory_mem hx
    obtain rfl := memory_unique hv hxm hu.memory (hxid.trans hid.symm)
    simp only [hu.alive, Option.isSome_none, Bool.false_eq_true,
      ↓reduceIte] at hread
    split at hread
    case isTrue hnone =>
      rw [List.isEmpty_iff] at hnone
      rw [hnone] at hpending
      cases hpending
    case isFalse =>
      cases hread
      exact ⟨rfl, List.mem_map_of_mem hpending⟩

theorem Inv.embedWrite (h : Inv ports s) {j : Job} {lost : Bool}
    {pending : List (Id × Text)}
    (hb : s.workers w = .busy j true lost)
    (hphase : s.phase w = .writing pending) :
    Inv ports ((s.withDb (EmbedMemory.finish ports.embedder true s.store.db
      id pending now)).withPhase w .finished) := by
  have hitems : ∀ i, UpToDate ports s.store.blobs
      (itemRows (EmbedMemory.finish ports.embedder true s.store.db id pending
        now) i)
      (itemHeld (EmbedMemory.finish ports.embedder true s.store.db id pending
        now) i) := by
    intro i
    have hitem := @finish_item s.store.db i ports.embedder true id pending now
    rw [hitem.rows, hitem.held]
    exact h.upToDate i
  have hwritten : Inv ports (s.withDb (EmbedMemory.finish ports.embedder true
      s.store.db id pending now)) :=
    h.calm
      (h.faithful.same
        (finish_same ports.embedder true s.store.db id pending now))
      (EmbedMemory.finish_owned ports.embedder true id pending now h.chunks)
      hitems (finish_calm ports.embedder id pending now)
  refine hwritten.withPhase fun sn lost' k hb' he c' m hu hmk => ?_
  -- a chunk that has no vector now was not read, and would have been
  obtain rfl : j = sn := by
    have hsame := hb.symm.trans hb'
    cases hsame
    rfl
  obtain ⟨c, hc, hcid, howner, hvec, hnot⟩ := finish_chunks hu.chunk hu.vector
  have hmem : m ∈ s.store.db.memories :=
    finish_memories ports.embedder id pending now ▸ hu.memory
  have hu' : Unembedded s.store.db c m := ⟨hc, hvec, hmem,
    hu.owner.trans howner.symm, hu.current, hu.alive⟩
  have hcov := h.covered w j lost k hb he c m hu' hmk
  rw [hphase] at hcov
  exact hnot hcov

-- ======== the step

theorem Inv.op (h : Inv ports s) {op : Live.Op}
    (hop : ∀ id now, op ≠ .normalize id now) :
    Inv ports (s.withStore (Live.step ports s.store op)) :=
  h.calm (step_faithful h.faithful) (step_owned h.chunks)
    (fun i => (h.upToDate i).other
      (step_item ports i h.faithful h.chunks op hop)
      fun _ hr _ hget => step_get ports op hr hget)
    (step_calm ports h.faithful h.chunks op hop)

theorem queueStep_some (hs : queueStep s a = some s') :
    ∃ q es, Worker.step s.queue a = some (q, es) ∧ s' = s.withQueue q := by
  unfold queueStep at hs
  obtain ⟨⟨q, es⟩, hq, rfl⟩ := Option.map_eq_some_iff.mp hs
  exact ⟨q, es, hq, rfl⟩

theorem Inv.embedRead (h : Inv ports s)
    (hs : step ports s (.embedRead w) = some s') : Inv ports s' := by
  unfold step at hs
  simp only at hs
  split at hs
  case h_2 => cases hs
  case h_1 j lost hb _ =>
    split at hs
    case isFalse => cases hs
    case isTrue =>
      -- the memory the handler is for is the one its payload names
      have hcovers : ∀ out pending,
          j.payload.memoryId.map
              (EmbedMemory.read ports.embedder s.store.db)
            = some (.ok (out, pending)) →
          ∀ sn lost' id, s.workers w = .busy sn true lost' → EmbedJob sn id →
          ∀ c m, Unembedded s.store.db c m → m.id = id →
          out = .embedded ∧ c.id ∈ pending.map (·.1) := by
        intro out pending hread sn lost' id hb' he c m hu hid
        obtain rfl : j = sn := by
          have hsame := hb.symm.trans hb'
          cases hsame
          rfl
        rw [he.2, Option.map_some, Option.some.injEq] at hread
        exact read_covers h.faithful.versions hread hu hid
      split at hs
      case h_1 pending hread =>
        cases hs
        exact h.withPhase fun sn lost' id hb' he c m hu hid =>
          (hcovers _ pending hread sn lost' id hb' he c m hu hid).2
      case h_2 r hother hread =>
        cases hs
        obtain ⟨out, pending⟩ := r
        refine h.withPhase fun sn lost' id hb' he c m hu hid => ?_
        have hout := (hcovers out pending hread sn lost' id hb' he c m hu hid).1
        exact hother pending (by rw [hout])
      case h_3 => cases hs

theorem Inv.step (h : Inv ports s) {a : Action}
    (hs : step ports s a = some s') (hcareful : Careful ports s a) :
    Inv ports s' := by
  cases a with
  | op op =>
    cases op with
    | normalize id now =>
      unfold Pipeline.step at hs
      simp only at hs
      split at hs
      case isTrue horder =>
        cases hs
        exact h.normalize horder hcareful
      case isFalse => cases hs
    | embed => cases hs
    | _ =>
      cases hs
      refine h.op fun _ _ heq => ?_
      cases heq
  | queue a =>
    cases a with
    | enqueue => cases hs
    | start w =>
      unfold Pipeline.step at hs
      obtain ⟨s₁, hs₁, rfl⟩ := Option.map_eq_some_iff.mp hs
      obtain ⟨q, es, hq, rfl⟩ := queueStep_some hs₁
      refine h.queue hq (fun _ _ _ heq => ?_) hcareful
        (fun _ _ _ _ _ _ heq => ?_) (fun v => ?_) fun v hv => ?_
      · cases heq
      · cases heq
      · by_cases hv : v = w
        · exact .inr (if_pos hv)
        · exact .inl (if_neg hv)
      · cases hv
        exact if_pos rfl
    | settle w outcome runAfter error tb now =>
      unfold Pipeline.step at hs
      simp only at hs
      split at hs
      case isTrue hmay =>
        obtain ⟨q, es, hq, rfl⟩ := queueStep_some hs
        refine h.queue hq (fun _ _ _ heq => ?_) hcareful
          (fun _ _ _ _ _ _ heq => ?_) (fun v => .inl rfl) fun _ heq => ?_
        · cases heq
        · cases heq
          exact hmay
        · cases heq
      case isFalse => cases hs
    | _ =>
      obtain ⟨q, es, hq, rfl⟩ := queueStep_some hs
      refine h.queue hq (fun _ _ _ heq => ?_) hcareful
        (fun _ _ _ _ _ _ heq => ?_) (fun v => .inl rfl) fun _ heq => ?_
      · cases heq
      · cases heq
      · cases heq
  | embedRead w => exact h.embedRead hs
  | embedWrite w now =>
    unfold Pipeline.step at hs
    simp only at hs
    split at hs
    case h_1 j lost pending hb hphase =>
      obtain ⟨id, hid, rfl⟩ := Option.map_eq_some_iff.mp hs
      exact h.embedWrite hb hphase
    case h_2 => cases hs

theorem Inv.careful (h : Inv ports s) {a : Action}
    (hs : Pipeline.step ports s a = some s') (howed : EmbedOwed s'.store.db) :
    Careful ports s a := by
  cases a with
  | op op =>
    cases op with
    | normalize id now =>
      intro m doc previous hm hcur hdel hdoc hstale hp honly hclash c hc
        howner hvec
      unfold Pipeline.step at hs
      simp only at hs
      split at hs
      case isFalse => cases hs
      case isTrue horder =>
        cases hs
        -- the chunk comes to a version that has no embed job
        have hnojob := h.noEmbedJob hm (h.firstRun hm horder hdoc hstale)
        have hadopt : Live.step ports s.store (.normalize id now)
            = ⟨documented (moveChunks s.store.db previous.id m.id) m.id
                doc, s.store.blobs⟩ := by
          unfold Live.step call adopt
          simp [hm, hdel, hdoc, hstale, hp, honly, hclash]
        rw [hadopt] at howed
        have hu : Unembedded
            (documented (moveChunks s.store.db previous.id m.id) m.id doc)
            { c with memoryId := m.id } (applyDocument doc m) := by
          exact ⟨List.mem_map.mpr ⟨c, hc, if_pos howner⟩, hvec,
            List.mem_map.mpr ⟨m, (Db.memory_mem hm).1, if_pos rfl⟩, rfl,
            hcur, hdel⟩
        obtain ⟨j, hj, -, he⟩ := howed.owed _ _ hu
        exact hnojob j hj he
    | _ => trivial
  | queue a =>
    intro j hj id he hgives c m hu hid
    subst hid
    have hqueue : ∃ q es, Worker.step s.queue a = some (q, es)
        ∧ s'.store = { s.store with db :=
            { s.store.db with jobs := q.jobs } }
        ∧ ∀ spec newId now, a ≠ .enqueue spec newId now := by
      cases a with
      | enqueue => cases hs
      | start w => cases hgives
      | settle w outcome runAfter error tb now =>
        unfold Pipeline.step at hs
        simp only at hs
        split at hs
        case isFalse => cases hs
        case isTrue =>
          obtain ⟨q, es, hq, rfl⟩ := queueStep_some hs
          exact ⟨q, es, hq, rfl, fun _ _ _ heq => by cases heq⟩
      | _ =>
        obtain ⟨q, es, hq, rfl⟩ := queueStep_some hs
        exact ⟨q, es, hq, rfl, fun _ _ _ heq => by cases heq⟩
    obtain ⟨q, es, hq, hstore, hne⟩ := hqueue
    obtain ⟨f, hjobs, hsame, -, hout⟩ := Worker.step_rows hq hne
    rw [hstore] at howed
    have hu' : Unembedded { s.store.db with jobs := q.jobs } c m :=
      ⟨hu.chunk, hu.vector, hu.memory, hu.owner, hu.current, hu.alive⟩
    obtain ⟨k', hk', hflight, hek'⟩ := howed.owed c m hu'
    rw [hjobs] at hk'
    obtain ⟨k, hk, rfl⟩ := List.mem_map.mp hk'
    -- the memory's one job is the one that was given up
    have hek : EmbedJob k m.id :=
      ⟨(hsame k).jobType ▸ hek'.1, (hsame k).payload ▸ hek'.2⟩
    rw [← h.jobs.single j hj k hk m.id he hek, hout j hgives] at hflight
    cases hflight
  | embedRead w => trivial
  | embedWrite w now => trivial

/-- Throughout a run every chunk that has no vector has its job, exactly
when no run adopts chunks that are waiting for theirs and no job that is
needed is given up. -/
theorem embed_owed_iff (ports : Ports) (sources : List Source)
    (acts : List Action) :
    (machine ports).Always (fun s => EmbedOwed s.store.db) (init sources) acts
      ↔ (machine ports).EveryStep (Careful ports) (init sources) acts := by
  have hstep : ∀ (s : Sys) (a : Action) (s' : Sys) (es : List Unit),
      (machine ports).step s a = some (s', es) →
      step ports s a = some s' := by
    intro s a s' es hs
    obtain ⟨s₁, hs₁, heq⟩ := Option.map_eq_some_iff.mp hs
    cases heq
    exact hs₁
  exact Lib.Machine.always_iff_everyStep (Inv ports)
    (fun _ h => h.embedOwed)
    (fun s a s' es h hs hc => h.step (hstep s a s' es hs) hc)
    (fun s a s' es h hs hP => h.careful (hstep s a s' es hs) hP)
    (inv_init ports sources)

-- ------ a change of line endings

/-- Plain text whose line endings do not matter. -/
def anyLineEnding : Ports where
  parse data media key := Ports.plain.parse (data.filter (· ≠ 13)) media key
  chunker := Ports.plain.chunker
  embedder := Ports.plain.embedder

/-- A note is saved with other line endings before its embed job has run;
then the job runs. -/
def savedAgain : List Action := [
  .op (.ingest 1 (Live.note "a.md" "h1" [104, 13, 10]) 0),
  .op (.normalize 1 1),
  .op (.ingest 1 (Live.note "a.md" "h2" [104, 10]) 2),
  .op (.normalize 6 3),
  .queue (.claim "w" 4 60 (some [.embedMemory]) []),
  .queue (.start "w"),
  .embedRead "w",
  .queue (.settle "w" .success 0 "" "" 5)]

/-- The job succeeds, and the current version's chunk has no vector and no
job. -/
theorem embed_not_owed :
    ¬ ∀ (ports : Ports) (sources : List Source) (acts : List Action),
      (machine ports).Always (fun s => EmbedOwed s.store.db) (init sources)
        acts := by
  intro hclaim
  have hrun : ∃ r ∈ (machine anyLineEnding).run (init []) savedAgain,
      ∃ c ∈ r.1.store.db.chunks, c.embedding = none
        ∧ ∃ m ∈ r.1.store.db.memories, m.id = c.memoryId
          ∧ m.isCurrent = true ∧ m.deletedAt = none
          ∧ ∀ j ∈ r.1.store.db.jobs, j.jobType = .embedMemory →
              j.status = .succeeded := by
    decide +kernel
  obtain ⟨⟨s, evs⟩, hrun, c, hc, hvec, m, hm, howner, hcur, halive, hjobs⟩ :=
    hrun
  have hlast := (hclaim anyLineEnding [] savedAgain).last hrun
  obtain ⟨j, hj, hflight, he⟩ :=
    hlast.owed c m ⟨hc, hvec, hm, howner, hcur, halive⟩
  rw [hjobs j hj he.1] at hflight
  cases hflight

end MemoryOS.Pipeline
