/-
A sweep's tombstones, and those a replay makes of the log it leaves.

A replay applies an ITEM_DELETED event to the version that is current at
that point of the log. The sweep stamps the memory it read before. The two
are one as long as no version of the key was recorded in between.

# The condition

`sweep_agrees_iff`: along every interleaving of sweeps and recorded items,
the live tombstones are those of a complete replay exactly when each
tombstone is made on the key's current version, and not on a key that was
purged, which a replay leaves out.
-/
import Mathlib.Data.List.Dedup
import MemoryOS.Corpus.Proofs.Recorded
import MemoryOS.Replay.Proofs.Faithful

namespace MemoryOS.SyncSource

open Projection Lib KeyedLog ReplayCorpus

-- ====== what is meant

/-- The item's version of this number is marked deleted. -/
def Tombstoned (db : Db) (i : Item) (version : Nat) : Prop :=
  ∃ m ∈ db.memories, m.item = i ∧ m.version = version
    ∧ m.deletedAt.isSome = true

instance (db : Db) (i : Item) (version : Nat) :
    Decidable (Tombstoned db i version) :=
  inferInstanceAs (Decidable (∃ m ∈ db.memories, m.item = i
    ∧ m.version = version ∧ m.deletedAt.isSome = true))

/-- The live tombstones are those of every complete replay that ends, and
none is of a version observed after the event that made it. -/
structure Agrees (s : Sweep) : Prop where
  replayed : ∀ (ports : Ports) (blobs : Blobs) (clearCache : Bool)
    (now : Timestamp) (db' : Db),
    inPlace ports blobs {} clearCache now s.store.db = (db', none) →
    ∀ i n, Tombstoned db' i n ↔ Tombstoned s.store.db i n
  earlier : ∀ seq id, .deleted seq id ∈ s.trace → ∀ seq',
    .observed seq' id ∈ s.trace → seq' < seq

/-- The condition on one transaction: the memory the sweep read for the key
is still its current version, and the key was never purged. -/
def OnCurrent (s : Sweep) : Action → Prop
  | .tombstone _ => ∀ k rest id, s.missing = k :: rest →
      Deletion.knownId s.known k = some id →
      (currentRow s.store.db s.sourceId k).map (·.id) = some id
        ∧ ¬ Purged s.store.db.events ⟨s.sourceId, k⟩
  | _ => True

-- ====== what a replay has

section Replayed

variable {ports : Ports} {blobs : Blobs} {clearCache : Bool}
  {now : Timestamp} {db db' : Db}

theorem replay_rows (hpos : ∀ e ∈ db.events, 0 < e.seq)
    (h : inPlace ports blobs {} clearCache now db = (db', none)) (i : Item) :
    rowsOf item i (views db')
      = if Purged db.events i then [] else rowsOf item i (corpusOf db.events)
    := by
  rw [inPlace_eq ports blobs clearCache now hpos] at h
  split at h
  case isFalse => cases h
  case isTrue =>
    have hstart := rebuilt_truncated clearCache db
    have hpurges : ∀ e ∈ db.events, e.eventType = .itemPurged →
        e.item ∈ purgedKeys db {} none := fun e he ht =>
      (mem_purgedKeys_iff hpos e.item).mpr ⟨e, he, rfl, ht⟩
    obtain ⟨db₁, hrun, -, hviews⟩ := rebuild_fold ports blobs now hstart
      (rebuild_reads ports blobs now hstart hpurges (congrArg Prod.snd h))
    rw [hrun] at h
    cases h
    rw [hviews]
    show rowsOf item i (List.foldl Projection.apply [] _) = _
    unfold corpusOf
    rw [apply_local.rowsOf_foldl, apply_local.rowsOf_foldl,
      eventsOf_unskipped]
    by_cases hp : Purged db.events i
    · rw [if_pos hp,
        if_pos (decide_eq_true ((mem_purgedKeys_iff hpos i).mpr hp))]
      rfl
    · rw [if_neg hp, if_neg]
      rw [decide_eq_true_eq, mem_purgedKeys_iff hpos]
      exact hp

theorem replay_exists (hpos : ∀ e ∈ db.events, 0 < e.seq)
    (hcontent : ∀ e ∈ db.events, e.eventType = .artifactObserved →
      e.contentHash.isSome) :
    ∃ blobs db', inPlace .plain blobs {} false 0 db = (db', none) := by
  have hget : ∀ (hashes : List ContentHash) h, h ∈ hashes →
      Blobs.get (hashes.map fun h => (h, ([] : Bytes))) h = some [] := by
    intro hashes h hh
    unfold Blobs.get
    rw [List.find?_map]
    cases hf : hashes.find? ((fun b : ContentHash × Bytes =>
        decide (b.1 = h)) ∘ fun h => (h, [])) with
    | none =>
      have hno := List.find?_eq_none.mp hf h hh
      simp at hno
    | some x => rfl
  have hpresent : ∀ e ∈ db.events, ∀ h, e.contentHash = some h →
      Blobs.get ((db.events.filterMap (·.contentHash)).map fun h =>
        (h, ([] : Bytes))) h = some [] := fun e he h hh =>
    hget _ h (List.mem_filterMap.mpr ⟨e, he, hh⟩)
  generalize (db.events.filterMap (·.contentHash)).map
    (fun h => (h, ([] : Bytes))) = blobs at hpresent
  refine ⟨blobs, ?_⟩
  have hholds : BlobsPresent ⟨db, blobs⟩ := by
    intro e he _ hash hh
    obtain ⟨b, hb, -⟩ := Option.map_eq_some_iff.mp (hpresent e he hash hh)
    exact Blobs.holds_iff.mpr ⟨b, List.mem_of_find?_eq_some hb,
      by simpa using List.find?_some hb⟩
  rw [inPlace_all (s := ⟨db, blobs⟩) .plain false 0 hpos hholds]
  have hlog : Rebuildable .plain blobs (purgedKeys db {} none) db.events := by
    constructor
    case purges =>
      exact fun e he ht =>
        (mem_purgedKeys_iff hpos e.item).mpr ⟨e, he, rfl, ht⟩
    case reads =>
      intro e he ht _
      obtain ⟨h, hh⟩ := Option.isSome_iff_exists.mp (hcontent e he ht)
      unfold readable memoryFromEvent NormalizeMemory.parse
      simp only [hh, Option.map_some, hpresent e he h hh]
      rfl
  obtain ⟨db', hrun, -, -⟩ := rebuild_fold .plain blobs 0
    (rebuilt_truncated false db) hlog
  exact ⟨db', hrun⟩

theorem tombstoned_iff {i : Item} {n : Nat} : Tombstoned db i n ↔
    ∃ v ∈ rowsOf item i (views db), v.version = n
      ∧ v.deletedAt.isSome = true := by
  unfold rowsOf views
  constructor
  · rintro ⟨m, hm, hi, hn, hd⟩
    exact ⟨m.view, List.mem_filter.mpr ⟨List.mem_map_of_mem hm,
      decide_eq_true hi⟩, hn, hd⟩
  · rintro ⟨v, hv, hn, hd⟩
    obtain ⟨hv, hi⟩ := List.mem_filter.mp hv
    obtain ⟨m, hm, rfl⟩ := List.mem_map.mp hv
    exact ⟨m, hm, of_decide_eq_true hi, hn, hd⟩

end Replayed

-- ====== the invariant

/-- What the transactions keep while every tombstone is on a current,
unpurged version. -/
structure Inv (s : Sweep) : Prop where
  faithful : Faithful s.store.db
  /-- What a replay leaves out has no tombstone. -/
  unpurged : ∀ i, Purged s.store.db.events i → ∀ n,
    ¬ Tombstoned s.store.db i n
  /-- What is yet to be tombstoned was read, and has no tombstone. -/
  pending : ∀ k ∈ s.missing, ∃ m ∈ s.store.db.memories,
    Deletion.knownId s.known k = some m.id ∧ m.item = ⟨s.sourceId, k⟩
      ∧ m.deletedAt = none
  distinct : s.missing.Nodup
  deletedBefore : ∀ seq id, .deleted seq id ∈ s.trace →
    seq < s.store.db.nextSeq ∧ id < s.store.db.nextId
  observedBefore : ∀ seq id, .observed seq id ∈ s.trace →
    seq < s.store.db.nextSeq
  earlier : ∀ seq id, .deleted seq id ∈ s.trace → ∀ seq',
    .observed seq' id ∈ s.trace → seq' < seq

section Invariant

variable {s s' : Sweep}

theorem rows_numbered {db : Db} (h : Faithful db) (i : Item) :
    Numbered (rowsOf item i (views db)) := by
  rw [h.folded]
  unfold corpusOf
  rw [apply_local.rowsOf_foldl]
  refine (numbered_fold (i := i) (fun e he => ?_) numbered_nil nofun).1
  exact of_decide_eq_true (List.mem_filter.mp he).2

theorem Inv.agrees (h : Inv s) : Agrees s := by
  refine ⟨fun ports blobs clearCache now db' hrun i n => ?_, h.earlier⟩
  rw [tombstoned_iff, replay_rows h.faithful.positive hrun]
  by_cases hp : Purged s.store.db.events i
  · rw [if_pos hp]
    refine ⟨fun ⟨v, hv, _⟩ => absurd hv List.not_mem_nil, fun ht => ?_⟩
    exact absurd ht (h.unpurged i hp n)
  · rw [if_neg hp, ← h.faithful.folded, ← tombstoned_iff]

-- ------ a new version

theorem Inv.ingest (h : Inv s) {sourceId : Id} {item : ObservedItem}
    {now : Timestamp} (hs : step s (.ingest sourceId item now) = some s') :
    Inv s' := by
  unfold step at hs
  cases hin : ingestItem s.store sourceId item now with
  | error e =>
    simp only [hin, Option.some.injEq] at hs
    exact hs ▸ h
  | ok p =>
    obtain ⟨store, out⟩ := p
    have hfaith : Faithful store.db := ingestItem_faithful h.faithful hin
    rcases ingestItem_recorded hin with ⟨rfl, rfl⟩ | ⟨r, rfl, hrec⟩
    · simp only [hin, Option.some.injEq] at hs
      exact hs ▸ h
    · simp only [hin, Option.some.injEq] at hs
      subst hs
      obtain ⟨e, hev, het⟩ := hrec.events
      have hpurged : ∀ i, Purged store.db.events i →
          Purged s.store.db.events i := by
        rw [hev]
        rintro i ⟨p, hp, hpi, hpt⟩
        rcases List.mem_append.mp hp with hp | hp
        · exact ⟨p, hp, hpi, hpt⟩
        · rw [List.mem_singleton.mp hp, het] at hpt
          cases hpt
      constructor
      case faithful => exact hfaith
      case unpurged =>
        rintro i hp n ⟨x, hx, hi, hn, hd⟩
        rcases hrec.back x hx with hnone | ⟨x₀, hx₀, -, hi₀, hn₀, hd₀⟩
        · rw [hnone] at hd
          cases hd
        · refine h.unpurged i (hpurged i hp) n
            ⟨x₀, hx₀, hi₀.trans hi, hn₀.trans hn, ?_⟩
          rw [hd₀]
          exact hd
      case pending =>
        intro k hk
        obtain ⟨x, hx, hknown, hi, hd⟩ := h.pending k hk
        obtain ⟨x', hx', hid', hi', hd'⟩ := hrec.forth x hx
        exact ⟨x', hx', hid'.symm ▸ hknown, hi'.trans hi, hd'.trans hd⟩
      case distinct => exact h.distinct
      case deletedBefore =>
        intro seq id hmem
        show seq < store.db.nextSeq ∧ id < store.db.nextId
        have hgrow := hrec.nextId
        rw [hrec.newId] at hgrow
        rw [hrec.nextSeq]
        rcases List.mem_append.mp hmem with hmem | hmem
        · obtain ⟨hseq, hid⟩ := h.deletedBefore seq id hmem
          exact ⟨Nat.lt_succ_of_lt hseq, Nat.lt_trans hid hgrow⟩
        · cases List.mem_singleton.mp hmem
      case observedBefore =>
        intro seq id hmem
        show seq < store.db.nextSeq
        rw [hrec.nextSeq]
        rcases List.mem_append.mp hmem with hmem | hmem
        · exact Nat.lt_succ_of_lt (h.observedBefore seq id hmem)
        · cases List.mem_singleton.mp hmem
          exact Nat.lt_succ_self _
      case earlier =>
        intro seq id hdel seq' hobs
        rcases List.mem_append.mp hdel with hdel | hdel
        · rcases List.mem_append.mp hobs with hobs | hobs
          · exact h.earlier seq id hdel seq' hobs
          · -- the new version's id is above every id a tombstone names
            cases List.mem_singleton.mp hobs
            exact absurd hrec.newId
              (Nat.ne_of_lt (h.deletedBefore seq _ hdel).2)
        · cases List.mem_singleton.mp hdel

theorem Inv.detect (h : Inv s) {sourceId : Id} {observed : List String}
    (hs : step s (.detect sourceId observed) = some s') : Inv s' := by
  simp only [step] at hs
  split at hs
  case isFalse => cases hs
  case isTrue =>
    cases hs
    constructor
    case faithful => exact h.faithful
    case unpurged => exact h.unpurged
    case pending =>
      intro k hk
      obtain ⟨m, hm, hknown⟩ := knownId_of_missing hk
      obtain ⟨hm, hp⟩ := List.mem_filter.mp hm
      obtain ⟨hmem, hlive⟩ := List.mem_filter.mp hm
      simp only [Bool.and_eq_true, decide_eq_true_eq,
        Option.isNone_iff_eq_none] at hlive hp
      refine ⟨m, hmem, hknown, ?_, hlive.2⟩
      unfold Memory.item
      rw [hlive.1.1, hp]
    case distinct =>
      show (missingKeys _ _).Nodup
      unfold missingKeys
      rw [(List.mergeSort_perm _ _).nodup_iff]
      exact (List.nodup_dedup _).filter _
    case deletedBefore => exact h.deletedBefore
    case observedBefore => exact h.observedBefore
    case earlier => exact h.earlier

-- ------ a tombstone

theorem purged_iff_of_stamped {db db' : Db} {i j : Item} {id : Id}
    (h : Stamped db db' i id) : Purged db'.events j ↔ Purged db.events j := by
  obtain ⟨e, hev, het, -, -⟩ := h.events
  rw [hev]
  constructor
  · rintro ⟨p, hp, hpi, hpt⟩
    rcases List.mem_append.mp hp with hp | hp
    · exact ⟨p, hp, hpi, hpt⟩
    · rw [List.mem_singleton.mp hp, het] at hpt
      cases hpt
  · rintro ⟨p, hp, hpi, hpt⟩
    exact ⟨p, List.mem_append_left _ hp, hpi, hpt⟩

theorem Inv.tombstone_step (h : Inv s) {now : Timestamp}
    (hs : step s (.tombstone now) = some s') :
    ∃ k rest m, s.missing = k :: rest ∧ m ∈ s.store.db.memories
      ∧ Deletion.knownId s.known k = some m.id
      ∧ m.item = ⟨s.sourceId, k⟩ ∧ m.deletedAt = none
      ∧ Stamped s.store.db s'.store.db ⟨s.sourceId, k⟩ m.id
      ∧ s' = { s with
          store := { s.store with
            db := Deletion.markDeleted s.store.db ⟨s.sourceId, k⟩ m.id now }
          missing := rest
          trace := s.trace ++ [.deleted s.store.db.nextSeq m.id] } := by
  cases hmiss : s.missing with
  | nil =>
    simp only [step, hmiss] at hs
    cases hs
  | cons k rest =>
    obtain ⟨m, hm, hknown, hi, hd⟩ :=
      h.pending k (hmiss ▸ List.mem_cons_self)
    simp only [step, hmiss, Option.some.injEq] at hs
    unfold Deletion.sweepOne at hs
    simp only [hknown] at hs
    subst hs
    exact ⟨k, rest, m, rfl, hm, hknown, hi, hd,
      markDeleted_stamped h.faithful.nextSeq _ _ _, rfl⟩

theorem Inv.tombstone (h : Inv s) {now : Timestamp}
    (hs : step s (.tombstone now) = some s')
    (hc : OnCurrent s (.tombstone now)) : Inv s' := by
  obtain ⟨k, rest, m, hmiss, hm, hknown, hi, hd, hst, rfl⟩ :=
    h.tombstone_step hs
  obtain ⟨hcur, hunp⟩ := hc k rest m.id hmiss hknown
  obtain ⟨c, hrow, hcid⟩ := Option.map_eq_some_iff.mp hcur
  obtain ⟨at_, hrows⟩ := hst.rows
  have hdist := h.distinct
  rw [hmiss, List.nodup_cons] at hdist
  constructor
  case faithful =>
    show Faithful (Deletion.markDeleted s.store.db ⟨s.sourceId, k⟩ m.id now)
    rw [← hcid]
    exact markDeleted_faithful h.faithful hrow
  case unpurged =>
    rintro i hp n ⟨x, hx, hxi, hxn, hxd⟩
    rw [purged_iff_of_stamped hst] at hp
    rw [hrows] at hx
    obtain ⟨x₀, hx₀, rfl⟩ := List.mem_map.mp hx
    by_cases hid : x₀.id = m.id
    · have hitem : x₀.item = i := by
        rw [if_pos hid] at hxi
        exact hxi
      rw [row_inj h.faithful.versions hx₀ hm hid, hi] at hitem
      exact hunp (hitem ▸ hp)
    · rw [if_neg hid] at hxi hxn hxd
      exact h.unpurged i hp n ⟨x₀, hx₀, hxi, hxn, hxd⟩
  case pending =>
    intro k' hk'
    obtain ⟨x, hx, hxk, hxi, hxd⟩ :=
      h.pending k' (hmiss ▸ List.mem_cons_of_mem k hk')
    have hid : x.id ≠ m.id := by
      intro hid
      rw [row_inj h.faithful.versions hx hm hid, hi] at hxi
      cases hxi
      exact hdist.1 hk'
    refine ⟨x, ?_, hxk, hxi, hxd⟩
    rw [hrows]
    exact List.mem_map.mpr ⟨x, hx, if_neg hid⟩
  case distinct => exact hdist.2
  case deletedBefore =>
    intro seq id hmem
    show seq < _ + 1 ∧ id < _ + 1
    rcases List.mem_append.mp hmem with hmem | hmem
    · obtain ⟨hseq, hid⟩ := h.deletedBefore seq id hmem
      exact ⟨Nat.lt_succ_of_lt hseq, Nat.lt_succ_of_lt hid⟩
    · cases List.mem_singleton.mp hmem
      refine ⟨Nat.lt_succ_self _, Nat.lt_succ_of_lt ?_⟩
      exact h.faithful.versions.fresh (m.id, m.view) (List.mem_map_of_mem hm)
  case observedBefore =>
    intro seq id hmem
    show seq < _ + 1
    rcases List.mem_append.mp hmem with hmem | hmem
    · exact Nat.lt_succ_of_lt (h.observedBefore seq id hmem)
    · cases List.mem_singleton.mp hmem
  case earlier =>
    intro seq id hdel seq' hobs
    rcases List.mem_append.mp hobs with hobs | hobs
    · rcases List.mem_append.mp hdel with hdel | hdel
      · exact h.earlier seq id hdel seq' hobs
      · cases List.mem_singleton.mp hdel
        exact h.observedBefore seq' _ hobs
    · cases List.mem_singleton.mp hobs

theorem Inv.onCurrent_of_agrees (h : Inv s) {now : Timestamp}
    (hs : step s (.tombstone now) = some s') (ha : Agrees s') :
    OnCurrent s (.tombstone now) := by
  obtain ⟨k, rest, m, hmiss, hm, hknown, hi, hd, hst, hs'⟩ :=
    h.tombstone_step hs
  intro k' rest' id hmiss' hknown'
  cases hmiss.symm.trans hmiss'
  cases hknown.symm.trans hknown'
  obtain ⟨at_, hrows⟩ := hst.rows
  obtain ⟨e, hev, het, hei, hseq⟩ := hst.events
  have hlive : Tombstoned s'.store.db ⟨s.sourceId, k⟩ m.version := by
    refine ⟨{ m with deletedAt := some at_ }, ?_, hi, rfl, rfl⟩
    rw [hrows]
    exact List.mem_map.mpr ⟨m, hm, if_pos rfl⟩
  have hpos : ∀ e ∈ s'.store.db.events, 0 < e.seq := by
    rw [hev]
    intro x hx
    rcases List.mem_append.mp hx with hx | hx
    · exact h.faithful.positive x hx
    · rw [List.mem_singleton.mp hx]
      exact hseq
  have hcontent : ∀ e ∈ s'.store.db.events, e.eventType = .artifactObserved →
      e.contentHash.isSome := by
    rw [hev]
    intro x hx ht
    rcases List.mem_append.mp hx with hx | hx
    · exact h.faithful.content x hx ht
    · rw [List.mem_singleton.mp hx, het] at ht
      cases ht
  obtain ⟨blobs, db', hrun⟩ := replay_exists hpos hcontent
  have hrep := (ha.replayed .plain blobs false 0 db' hrun _ _).mpr hlive
  rw [tombstoned_iff, replay_rows hpos hrun] at hrep
  obtain ⟨v, hv, hvn, hvd⟩ := hrep
  by_cases hp : Purged s'.store.db.events ⟨s.sourceId, k⟩
  · rw [if_pos hp] at hv
    cases hv
  rw [if_neg hp] at hv
  refine ⟨?_, fun hp' => hp ((purged_iff_of_stamped hst).mpr hp')⟩
  -- the replayed row that is stamped was current, and is the one that was read
  rw [hev, corpusOf_concat, ← h.faithful.folded, ← hei,
    apply_local.own, hei] at hv
  unfold Projection.apply at hv
  simp only [het] at hv
  obtain ⟨v₀, hv₀, rfl⟩ := List.mem_map.mp hv
  have hmv : m.view ∈ rowsOf item ⟨s.sourceId, k⟩ (views s.store.db) :=
    List.mem_filter.mpr ⟨List.mem_map_of_mem hm, decide_eq_true hi⟩
  have hversion : v₀.version = m.view.version := by
    refine Eq.trans ?_ hvn
    split <;> rfl
  obtain rfl := (rows_numbered h.faithful _).inj hv₀ hmv hversion
  have hcur : currentOf ⟨s.sourceId, k⟩ m.view = true := by
    by_contra hno
    rw [hei, if_neg hno] at hvd
    have hnone : m.view.deletedAt = none := hd
    rw [hnone] at hvd
    cases hvd
  cases hrow : currentRow s.store.db s.sourceId k with
  | none =>
    rw [currentRow_none hrow hm] at hcur
    cases hcur
  | some c =>
    have hid := (id_eq_current h.faithful.versions hrow hm).mpr hcur
    exact congrArg some hid.symm

end Invariant

-- ======= the claim

/-- Along every interleaving, the live tombstones are those a complete
replay makes exactly when every tombstone is on its key's current version,
and on no purged key. -/
theorem sweep_agrees_iff (store : Store) (acts : List Action)
    (hstore : Faithful store.db)
    (hunpurged : ∀ i, Purged store.db.events i → ∀ n,
      ¬ Tombstoned store.db i n) :
    machine.Always Agrees { store := store } acts
      ↔ machine.EveryStep OnCurrent { store := store } acts := by
  have hstep : ∀ {s s' : Sweep} {a : Action} {es : List Unit},
      machine.step s a = some (s', es) → step s a = some s' := by
    intro s s' a es hs
    obtain ⟨t, ht, heq⟩ := Option.map_eq_some_iff.mp hs
    cases heq
    exact ht
  apply Machine.always_iff_everyStep Inv
  · exact fun s hs => hs.agrees
  · intro s a s' es hs hm hc
    cases a with
    | ingest sourceId item now => exact hs.ingest (hstep hm)
    | detect sourceId observed => exact hs.detect (hstep hm)
    | tombstone now => exact hs.tombstone (hstep hm) hc
  · intro s a s' es hs hm ha
    cases a with
    | ingest sourceId item now => trivial
    | detect sourceId observed => trivial
    | tombstone now => exact hs.onCurrent_of_agrees (hstep hm) ha
  · constructor
    case faithful => exact hstore
    case unpurged => exact hunpurged
    case pending => exact fun k hk => absurd hk List.not_mem_nil
    case distinct => exact List.nodup_nil
    case deletedBefore => exact fun _ _ h => absurd h List.not_mem_nil
    case observedBefore => exact fun _ _ h => absurd h List.not_mem_nil
    case earlier => exact fun _ _ h => absurd h List.not_mem_nil

-- ------ a version between read and write

/-- A source with one note. -/
def oneNote : Store :=
  Live.run .plain [] [.ingest 1 (Live.note "a.md" "h1" [104, 105]) 0]

/-- The sweep does not see the note; before it acts on that, the note is
written again. -/
def rewrittenMeanwhile : List Action := [
  .detect 1 [],
  .ingest 1 (Live.note "a.md" "h2" [98, 121, 101]) 1,
  .tombstone 2]

theorem oneNote_unpurged : ∀ i, Purged oneNote.db.events i → ∀ n,
    ¬ Tombstoned oneNote.db i n := by
  intro i hp n ht
  obtain ⟨m, hm, -, -, hd⟩ := ht
  revert m
  decide +kernel

theorem sweep_agrees_iff_oneNote :
    machine.Always Agrees { store := oneNote } rewrittenMeanwhile
      ↔ machine.EveryStep OnCurrent { store := oneNote } rewrittenMeanwhile :=
  sweep_agrees_iff oneNote rewrittenMeanwhile (run_faithful _ _ _)
    oneNote_unpurged

/-- The sweep tombstones version 1, and the replay version 2. -/
theorem sweep_disagrees :
    ¬ ∀ (store : Store) (acts : List Action), Faithful store.db →
      (∀ i, Purged store.db.events i → ∀ n, ¬ Tombstoned store.db i n) →
      machine.Always Agrees { store := store } acts := by
  intro hclaim
  have hall := hclaim oneNote rewrittenMeanwhile (run_faithful _ _ _)
    oneNote_unpurged
  have hfacts : (machine.run { store := oneNote } rewrittenMeanwhile).any
      (fun p =>
        let r := inPlace .plain p.1.store.blobs {} false 9 p.1.store.db
        decide (r.2 = none ∧ Tombstoned p.1.store.db ⟨1, "a.md"⟩ 1
          ∧ ¬ Tombstoned r.1 ⟨1, "a.md"⟩ 1)) = true := by
    decide +kernel
  obtain ⟨⟨s', evs⟩, hrun, hp⟩ := (Option.any_eq_true _ _).mp hfacts
  obtain ⟨hend, hlive, hreplayed⟩ := of_decide_eq_true hp
  exact hreplayed (((hall.last hrun).replayed .plain s'.store.blobs false 9 _
    (Prod.ext rfl hend) _ _).mpr hlive)

end MemoryOS.SyncSource
