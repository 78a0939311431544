/-
Which version holds an item's chunks.

A run that finds its version out of date makes it the holder, whatever
the order of versions is. So the holder is the version of the last run,
leaving aside a repeat run of a version without text, which finds nothing
to do while another version's chunks are there.
-/
import MemoryOS.Pipeline.Proofs.ItemView

namespace MemoryOS.NormalizeMemory

-- ====== the writer

/-- The version that decided who holds the chunks; the newest run first. -/
def lastWriter (blank : Id → Bool) : List Id → Option Id
  | [] => none
  | v :: older =>
    if blank v && decide (v ∈ older) then lastWriter blank older else some v

variable {blank blank' : Id → Bool} {runs : List Id}

variable {r : Memory} {id : Id}

theorem lastWriter_congr (h : ∀ v ∈ runs, blank v = blank' v) :
    lastWriter blank runs = lastWriter blank' runs := by
  induction runs with
  | nil => rfl
  | cons v older ih =>
    unfold lastWriter
    rw [h v List.mem_cons_self,
      ih fun x hx => h x (List.mem_cons_of_mem v hx)]

theorem lastWriter_some {v : Id} (h : v ∈ runs) :
    ∃ w ∈ runs, lastWriter blank runs = some w := by
  induction runs generalizing v with
  | nil => cases h
  | cons x older ih =>
    unfold lastWriter
    split
    case isTrue hx =>
      simp only [Bool.and_eq_true, decide_eq_true_eq] at hx
      obtain ⟨w, hw, heq⟩ := ih hx.2
      exact ⟨w, List.mem_cons_of_mem x hw, heq⟩
    case isFalse => exact ⟨x, List.mem_cons_self, rfl⟩

-- ====== the invariant

/-- Whether a row's own text, once normalized, is blank. -/
def blankRow (rows : List Memory) (id : Id) : Bool :=
  rows.any fun r => decide (r.id = id)
    && (r.normalizedHash.map fun h => isBlank h.text).getD false

/-- What an item's runs leave, the newest run first. -/
structure Holding (ports : Ports) (blobs : Blobs) (rows : List Memory)
    (held : List Held) (runs : List Id) : Prop where
  ids : (rows.map (·.id)).Nodup
  ran : ∀ v ∈ runs, v ∈ rows.map (·.id)
  done : ∀ r ∈ rows, r.id ∈ runs → ∃ doc, parse ports blobs r = .ok doc
    ∧ r.normalizedHash = some ⟨doc.text⟩
  todo : ∀ r ∈ rows, r.id ∉ runs → r.normalizedHash = none
  versions : ∀ h ∈ held, h.version = ports.chunker.version
  unheld : runs = [] → held = []
  writer : ∀ w, lastWriter (blankRow rows) runs = some w →
    (∀ h ∈ held, h.memoryId = w) ∧ ∃ r ∈ rows, r.id = w
      ∧ ∃ v ∈ rows, ∃ doc, parse ports blobs v = .ok doc
        ∧ r.normalizedHash = some ⟨doc.text⟩
        ∧ held.map (·.span) = ports.chunker.chunk doc

variable {ports : Ports} {blobs blobs' : Blobs} {rows : List Memory}
  {held : List Held}

theorem row_unique (hids : (rows.map (·.id)).Nodup) {r' : Memory}
    (hr : r ∈ rows) (hr' : r' ∈ rows) (hid : r.id = r'.id) : r = r' :=
  List.inj_on_of_nodup_map hids hr hr' hid

theorem blankRow_of_mem (hids : (rows.map (·.id)).Nodup)
    (hr : r ∈ rows) : blankRow rows r.id
      = (r.normalizedHash.map fun h => isBlank h.text).getD false := by
  unfold blankRow
  rw [Bool.eq_iff_iff, List.any_eq_true]
  constructor
  · rintro ⟨r', hr', h⟩
    simp only [Bool.and_eq_true, decide_eq_true_eq] at h
    rw [row_unique hids hr' hr h.1] at h
    exact h.2
  · intro h
    exact ⟨r, hr, by simp [h]⟩

theorem holding_nil : Holding ports blobs [] [] [] := by
  constructor <;> simp [lastWriter]

theorem parse_get {doc : ParsedDocument}
    (hget : ∀ data, blobs.get r.contentHash = some data →
      blobs'.get r.contentHash = some data)
    (hdoc : parse ports blobs r = .ok doc) :
    parse ports blobs' r = .ok doc := by
  unfold parse at hdoc ⊢
  cases hg : blobs.get r.contentHash with
  | none => simp [hg] at hdoc
  | some data =>
    rw [hget data hg]
    rw [hg] at hdoc
    exact hdoc

theorem Holding.moreBlobs (h : Holding ports blobs rows held runs)
    (hget : ∀ r ∈ rows, ∀ data, blobs.get r.contentHash = some data →
      blobs'.get r.contentHash = some data) :
    Holding ports blobs' rows held runs := by
  have hparse : ∀ r ∈ rows, ∀ doc, parse ports blobs r = .ok doc →
      parse ports blobs' r = .ok doc := fun r hr doc => parse_get (hget r hr)
  refine { h with done := ?_, writer := ?_ }
  · intro r hr hrun
    obtain ⟨doc, hdoc, hhash⟩ := h.done r hr hrun
    exact ⟨doc, hparse r hr doc hdoc, hhash⟩
  · intro w hw
    obtain ⟨hall, r, hr, hid, v, hv, doc, hdoc, hrest⟩ := h.writer w hw
    exact ⟨hall, r, hr, hid, v, hv, doc, hparse v hv doc hdoc, hrest⟩

theorem Holding.add (h : Holding ports blobs rows held runs)
    (hid : r.id ∉ rows.map (·.id)) (hhash : r.normalizedHash = none) :
    Holding ports blobs (rows ++ [r]) held runs := by
  have hrun : r.id ∉ runs := fun hr => hid (h.ran _ hr)
  have hblank : ∀ v ∈ runs, blankRow (rows ++ [r]) v = blankRow rows v := by
    intro v _
    unfold blankRow
    rw [List.any_append]
    simp [hhash]
  constructor
  · rw [List.map_append, List.nodup_append]
    refine ⟨h.ids, by simp, fun a ha b hb => ?_⟩
    rw [List.map_cons, List.map_nil, List.mem_singleton] at hb
    rintro rfl
    exact hid (hb ▸ ha)
  · intro v hv
    rw [List.map_append]
    exact List.mem_append_left _ (h.ran v hv)
  · intro x hx hr
    rcases List.mem_append.mp hx with hx | hx
    · exact h.done x hx hr
    · rw [List.mem_singleton.mp hx] at hr
      exact absurd hr hrun
  · intro x hx hr
    rcases List.mem_append.mp hx with hx | hx
    · exact h.todo x hx hr
    · rw [List.mem_singleton.mp hx]
      exact hhash
  · exact h.versions
  · exact h.unheld
  · intro w hw
    rw [lastWriter_congr hblank] at hw
    obtain ⟨hall, x, hx, hid', v, hv, hrest⟩ := h.writer w hw
    exact ⟨hall, x, List.mem_append_left _ hx, hid', v,
      List.mem_append_left _ hv, hrest⟩

theorem mem_stamped {text : Text} {r' : Memory} :
    r' ∈ stamped id text rows ↔ ∃ r ∈ rows, r' = if r.id = id then
      { r with normalizedHash := some ⟨text⟩ } else r := by
  unfold stamped
  rw [List.mem_map]
  exact exists_congr fun r => and_congr_right fun _ => eq_comm

theorem parse_stamp (id : Id) (text : Text) (r : Memory) :
    parse ports blobs (if r.id = id then
      { r with normalizedHash := some ⟨text⟩ } else r)
      = parse ports blobs r := by
  split <;> rfl

theorem Holding.stamp (h : Holding ports blobs rows held runs) {m : Memory}
    {doc doc' : ParsedDocument} {held' : List Held} {v : Memory}
    (hm : m ∈ rows) (hdoc : parse ports blobs m = .ok doc)
    (hrepeat : m.id ∈ runs → isBlank doc.text = false)
    (hversions : ∀ x ∈ held', x.version = ports.chunker.version)
    (howner : ∀ x ∈ held', x.memoryId = m.id)
    (hv : v ∈ rows) (hdoc' : parse ports blobs v = .ok doc')
    (htext : doc'.text = doc.text)
    (hspans : held'.map (·.span) = ports.chunker.chunk doc') :
    Holding ports blobs (stamped m.id doc.text rows) held' (m.id :: runs) := by
  have hids : ((stamped m.id doc.text rows).map (·.id)).Nodup := by
    rw [stamped_ids]
    exact h.ids
  have hmrow : ({ m with normalizedHash := some ⟨doc.text⟩ } : Memory)
      ∈ stamped m.id doc.text rows :=
    mem_stamped.mpr ⟨m, hm, by rw [if_pos rfl]⟩
  have hwriter : lastWriter (blankRow (stamped m.id doc.text rows))
      (m.id :: runs) = some m.id := by
    unfold lastWriter
    rw [if_neg]
    rw [Bool.and_eq_true, decide_eq_true_eq, not_and]
    intro hblank hrun
    have hrow := blankRow_of_mem hids hmrow
    rw [hrow] at hblank
    rw [show isBlank doc.text = true from hblank] at hrepeat
    exact Bool.noConfusion (hrepeat hrun)
  constructor
  · exact hids
  · intro x hx
    rw [stamped_ids]
    rcases List.mem_cons.mp hx with rfl | hx
    · exact List.mem_map_of_mem hm
    · exact h.ran x hx
  · intro r' hr' hrun
    obtain ⟨r, hr, rfl⟩ := mem_stamped.mp hr'
    rw [parse_stamp]
    by_cases hid : r.id = m.id
    · rw [row_unique h.ids hr hm hid]
      exact ⟨doc, hdoc, by rw [if_pos rfl]⟩
    · rw [if_neg hid] at hrun ⊢
      exact h.done r hr ((List.mem_cons.mp hrun).resolve_left hid)
  · intro r' hr' hrun
    obtain ⟨r, hr, rfl⟩ := mem_stamped.mp hr'
    by_cases hid : r.id = m.id
    · rw [if_pos hid] at hrun
      exact absurd (List.mem_cons.mpr (.inl hid)) hrun
    · rw [if_neg hid] at hrun ⊢
      exact h.todo r hr fun hr => hrun (List.mem_cons_of_mem _ hr)
  · exact hversions
  · exact nofun
  · intro w hw
    rw [hwriter, Option.some.injEq] at hw
    subst hw
    refine ⟨howner, _, hmrow, rfl, _, mem_stamped.mpr ⟨v, hv, rfl⟩, doc', ?_,
      ?_, hspans⟩
    · rw [parse_stamp]
      exact hdoc'
    · rw [htext]

theorem heldVersions_ne_nil (h : heldVersions held id ≠ []) :
    ∃ x ∈ held, x.memoryId = id := by
  obtain ⟨v, hv⟩ := List.exists_mem_of_ne_nil _ h
  obtain ⟨x, hx, -⟩ := List.mem_map.mp hv
  obtain ⟨hx, hid⟩ := List.mem_filter.mp hx
  exact ⟨x, hx, by simpa using hid⟩

theorem Holding.owner (h : Holding ports blobs rows held runs) {x : Held}
    (hx : x ∈ held) : lastWriter (blankRow rows) runs = some x.memoryId := by
  have hne : runs ≠ [] := by
    rintro rfl
    rw [h.unheld rfl] at hx
    cases hx
  obtain ⟨v, hv⟩ := List.exists_mem_of_ne_nil _ hne
  obtain ⟨w, -, hw⟩ := @lastWriter_some (blankRow rows) runs v hv
  rw [hw, (h.writer w hw).1 x hx]

theorem Holding.run (h : Holding ports blobs rows held runs) {m : Memory}
    {rows' : List Memory} {held' : List Held} (hm : m ∈ rows)
    (hrun : OwnRun ports blobs m rows held rows' held') :
    Holding ports blobs rows' held' (m.id :: runs) := by
  cases hrun with
  | skipped doc hdoc hhash hblank =>
    -- what is up to date has been run before
    have hran : m.id ∈ runs := by
      by_contra hno
      rw [h.todo m hm hno] at hhash
      cases hhash
    refine { h with ran := ?_, done := ?_, todo := ?_, unheld := nofun,
                    writer := ?_ }
    · intro v hv
      rcases List.mem_cons.mp hv with rfl | hv
      · exact List.mem_map_of_mem hm
      · exact h.ran v hv
    · intro r hr hrun
      rcases List.mem_cons.mp hrun with hid | hrun
      · exact h.done r hr (hid ▸ hran)
      · exact h.done r hr hrun
    · exact fun r hr hrun =>
        h.todo r hr fun hno => hrun (List.mem_cons_of_mem _ hno)
    · intro w hw
      unfold lastWriter at hw
      split at hw
      case isTrue => exact h.writer w hw
      case isFalse hno =>
        cases hw
        have htext : isBlank doc.text = false := by
          rw [Bool.and_eq_true, decide_eq_true_eq, not_and] at hno
          have hnb : blankRow rows m.id ≠ true := fun hb => hno hb hran
          rw [blankRow_of_mem h.ids hm, hhash] at hnb
          simpa using hnb
        have hheld : heldVersions held m.id ≠ [] := by
          intro hnone
          rw [hblank hnone] at htext
          cases htext
        obtain ⟨x, hx, hid⟩ := heldVersions_ne_nil hheld
        exact h.writer m.id (hid ▸ h.owner hx)
  | reused doc hdoc previous hrow hne hhash hheld =>
    obtain ⟨x, hx, hid⟩ := heldVersions_ne_nil hheld
    obtain ⟨hall, r, hr, hrid, v, hv, doc', hdoc', hhash', hspans⟩ :=
      h.writer previous.id (hid ▸ h.owner hx)
    rw [row_unique h.ids hr hrow hrid, hhash, Option.some.injEq,
      TextHash.mk.injEq] at hhash'
    have hspans' : (moved previous.id m.id held).map (·.span)
        = ports.chunker.chunk doc' := by
      rw [← hspans]
      unfold moved
      rw [List.map_map]
      refine List.map_congr_left fun y _ => ?_
      show (if y.memoryId = previous.id then _ else y).span = y.span
      split <;> rfl
    refine h.stamp hm hdoc (fun _ => ?_) ?_ ?_ hv hdoc' hhash'.symm hspans'
    · -- there were chunks to take, so there is text
      rw [hhash']
      have hcut : ports.chunker.chunk doc' ≠ [] := by
        rw [← hspans]
        exact List.ne_nil_of_mem (List.mem_map_of_mem hx)
      rw [ne_eq, Chunker.chunk_eq_nil_iff] at hcut
      simpa using hcut
    · intro y hy
      obtain ⟨z, hz, rfl⟩ := List.mem_map.mp hy
      rw [← h.versions z hz]
      split <;> rfl
    · intro y hy
      obtain ⟨z, hz, rfl⟩ := List.mem_map.mp hy
      rw [if_pos (hall z hz)]
  | chunked doc hdoc hstale =>
    refine h.stamp hm hdoc (fun hran => ?_) ?_ ?_ hm hdoc rfl ?_
    · obtain ⟨doc', hdoc', hhash'⟩ := h.done m hm hran
      rw [hdoc, Except.ok.injEq] at hdoc'
      refine (hstale (hdoc' ▸ hhash') fun v hv => ?_).2
      obtain ⟨x, hx, rfl⟩ := List.mem_map.mp hv
      exact h.versions x (List.mem_filter.mp hx).1
    · intro x hx
      obtain ⟨c, hc, rfl⟩ := List.mem_map.mp hx
      rfl
    · intro x hx
      obtain ⟨c, hc, rfl⟩ := List.mem_map.mp hx
      rfl
    · unfold cutFor
      rw [List.map_map]
      exact List.map_id _

-- ========= the run

/-- The runs that were of an item's versions. -/
def runsOf (rows : List Memory) (all : List Id) : List Id :=
  all.filter fun v => decide (v ∈ rows.map (·.id))

/-- What holds of an item throughout a live run. -/
structure ItemInv (ports : Ports) (i : Item) (s : Store) (all : List Id) :
    Prop where
  faithful : Faithful s.db
  owned : ChunksOwned s.db
  fresh : ∀ v ∈ all, v < s.db.nextId
  holding : Holding ports s.blobs (itemRows s.db i) (itemHeld s.db i)
    (runsOf (itemRows s.db i) all)

variable {i : Item} {s s' : Store} {all : List Id}

theorem itemInv_start (ports : Ports) (i : Item) (sources : List Source) :
    ItemInv ports i (Live.start sources) [] :=
  ⟨faithful_start sources, .empty rfl, nofun, holding_nil⟩

theorem runsOf_add {rows : List Memory}
    (hfresh : ∀ v ∈ all, v < r.id) :
    runsOf (rows ++ [r]) all = runsOf rows all := by
  unfold runsOf
  refine List.filter_congr fun v hv => ?_
  simp [Nat.ne_of_lt (hfresh v hv)]

theorem runsOf_nil (all : List Id) : runsOf [] all = [] := by
  unfold runsOf
  rw [List.filter_eq_nil_iff]
  intro v _
  simp

theorem ItemInv.other (h : ItemInv ports i s all) (hf : Faithful s'.db)
    (ho : ChunksOwned s'.db) (hs : ItemStep i s.db s'.db)
    (hget : ∀ r ∈ itemRows s'.db i, ∀ data,
      s.blobs.get r.contentHash = some data →
      s'.blobs.get r.contentHash = some data) : ItemInv ports i s' all := by
  have hfresh : s.db.nextId ≤ s'.db.nextId → ∀ v ∈ all, v < s'.db.nextId :=
    fun hle v hv => Nat.lt_of_lt_of_le (h.fresh v hv) hle
  cases hs with
  | same hs =>
    refine ⟨hf, ho, hfresh hs.next, Holding.moreBlobs ?_ hget⟩
    rw [hs.rows, hs.held]
    exact h.holding
  | added hs =>
    obtain ⟨r, hid, hhash, hrows⟩ := hs.row
    have hnew : r.id ∉ (itemRows s.db i).map (·.id) := by
      intro hmem
      obtain ⟨x, hx, hxid⟩ := List.mem_map.mp hmem
      have hlt := itemRows_fresh h.faithful.versions x hx
      rw [hxid, hid] at hlt
      exact Nat.lt_irrefl _ hlt
    refine ⟨hf, ho, hfresh hs.next, Holding.moreBlobs ?_ hget⟩
    rw [hrows, hs.held, runsOf_add fun v hv => hid ▸ h.fresh v hv]
    exact h.holding.add hnew hhash
  | gone hs =>
    refine ⟨hf, ho, hfresh hs.next, ?_⟩
    rw [hs.rows, hs.held, runsOf_nil]
    exact holding_nil

theorem ItemInv.normalize (h : ItemInv ports i s all)
    {now : Timestamp} {r : Db × Outcome}
    (hr : call ports true s.blobs s.db id now = .ok r)
    (hout : r.2 ≠ .deleted) :
    ItemInv ports i { s with db := r.1 } (id :: all) := by
  have hsame := normalize_same hr
  have hf := h.faithful.same hsame
  have ho := call_owned h.owned hr
  obtain ⟨m, hm, -⟩ := call_cases hr
  obtain ⟨hmem, hid⟩ := Db.memory_mem hm
  have hfresh : ∀ v ∈ id :: all, v < r.1.nextId := by
    intro v hv
    refine Nat.lt_of_lt_of_le ?_ hsame.nextId
    rcases List.mem_cons.mp hv with rfl | hv
    · rw [← hid]
      exact h.faithful.versions.fresh (m.id, m.view) (List.mem_map_of_mem hmem)
    · exact h.fresh v hv
  refine ⟨hf, ho, hfresh, ?_⟩
  show Holding ports s.blobs (itemRows r.1 i) (itemHeld r.1 i)
    (runsOf (itemRows r.1 i) (id :: all))
  by_cases hi : m.item = i
  · have hdel : m.deletedAt = none := by
      rw [ne_eq, call_deleted_iff hr hm] at hout
      simpa using hout
    have hown := normalize_item_own hr hm hi hdel
    have hmrow : m.base ∈ itemRows s.db i :=
      mem_itemRows.mpr ⟨m, hmem, hi, rfl⟩
    have hruns : runsOf (itemRows r.1 i) (id :: all)
        = id :: runsOf (itemRows s.db i) all := by
      unfold runsOf
      rw [hown.ids, List.filter_cons_of_pos]
      rw [decide_eq_true_eq, ← hid]
      exact List.mem_map.mpr ⟨m.base, hmrow, rfl⟩
    have hrun := h.holding.run hmrow hown
    rw [hruns, ← hid]
    exact hrun
  · have hs := normalize_item_other h.faithful.versions hr fun m' hm' => by
      rw [hm, Option.some.injEq] at hm'
      exact hm' ▸ hi
    have hno : id ∉ (itemRows r.1 i).map (·.id) := by
      rw [hs.rows, ← hid]
      exact not_mem_rows h.faithful.versions hmem hi
    have hruns : runsOf (itemRows r.1 i) (id :: all)
        = runsOf (itemRows r.1 i) all := by
      unfold runsOf
      rw [List.filter_cons_of_neg (by simpa using hno)]
    rw [hruns, hs.rows, hs.held]
    exact h.holding

theorem purge_get {items : List (Item × Timestamp)}
    (hr : r ∈ itemRows (Deletion.purge s items).db i) :
    (Deletion.purge s items).blobs.get r.contentHash
      = s.blobs.get r.contentHash := by
  unfold Deletion.purge at hr ⊢
  simp only at hr ⊢
  split
  case isFalse => rfl
  case isTrue hall =>
    simp only [hall, ↓reduceIte] at hr
    obtain ⟨m, hm, -, rfl⟩ := mem_itemRows.mp hr
    refine Blobs.get_foldl_delete fun hmem => ?_
    obtain ⟨-, hno⟩ := List.mem_filter.mp hmem
    have href : Deletion.stillReferenced (Deletion.purgeLoop s.db items).1
        m.contentHash = true := by
      unfold Deletion.stillReferenced
      rw [Bool.or_eq_true, List.any_eq_true]
      exact .inl ⟨m, hm, by simp⟩
    rw [Memory.base_contentHash, href] at hno
    cases hno

theorem step_get (ports : Ports) (op : Live.Op) {data : Bytes}
    (hr : r ∈ itemRows (Live.step ports s op).db i)
    (hget : s.blobs.get r.contentHash = some data) :
    (Live.step ports s op).blobs.get r.contentHash = some data := by
  have hin : ∀ {sourceId item now out s'},
      ingestItem s sourceId item now = .ok (s', out) →
      s'.blobs.get r.contentHash = some data := by
    intro sourceId item now out s' hin
    obtain ⟨-, rfl, -⟩ | ⟨-, artifacts, blobs, hblobs, rfl, -⟩ :=
      ingestItem_cases hin
    · exact hget
    · rcases hblobs with rfl | ⟨data', rfl⟩
      · exact hget
      · exact Blobs.get_put hget
  cases op with
  | upload hash data' => exact Blobs.get_put hget
  | ingest sourceId item now =>
    unfold Live.step
    simp only
    split
    case h_1 => exact hget
    case h_2 r' hr' => exact hin hr'
  | detectDeletions sourceId observed clock => exact hget
  | tombstone memoryId now =>
    unfold Live.step
    simp only
    split <;> exact hget
  | restore memoryId now =>
    unfold Live.step
    simp only
    split
    case h_1 => exact hget
    case h_2 s' hs' =>
      obtain ⟨_, _, _, hres⟩ := restore_cases hs'
      exact hin hres
  | purge items => exact (purge_get hr).trans hget
  | normalize memoryId now =>
    unfold Live.step
    simp only
    split <;> exact hget
  | embed memoryId now =>
    unfold Live.step
    simp only
    split <;> exact hget

theorem step_item (ports : Ports) (i : Item) (h : Faithful s.db)
    (hc : ChunksOwned s.db) (op : Live.Op)
    (hop : ∀ id now, op ≠ .normalize id now) :
    ItemStep i s.db (Live.step ports s op).db := by
  cases op with
  | upload hash data => exact .same (.refl i _)
  | ingest sourceId item now =>
    unfold Live.step
    simp only
    split
    case h_1 => exact .same (.refl i _)
    case h_2 r hr => exact ingestItem_item h hc hr
  | detectDeletions sourceId observed clock => exact .same detectDeletions_item
  | tombstone memoryId now =>
    unfold Live.step
    simp only
    split
    case h_1 => exact .same (.refl i _)
    case h_2 db hdb => exact .same (tombstone_item hdb)
  | restore memoryId now =>
    unfold Live.step
    simp only
    split
    case h_1 => exact .same (.refl i _)
    case h_2 s' hs' =>
      obtain ⟨_, _, _, hin⟩ := restore_cases hs'
      exact ingestItem_item h hc hin
  | purge items =>
    have hdb : (Deletion.purge s items).db
        = (Deletion.purgeLoop s.db items).1 := by
      unfold Deletion.purge
      simp only
      split <;> rfl
    show ItemStep i s.db (Deletion.purge s items).db
    rw [hdb]
    exact (purgeLoop_item i h).elim .same .gone
  | normalize memoryId now => exact absurd rfl (hop memoryId now)
  | embed memoryId now =>
    unfold Live.step
    simp only
    split
    case h_1 => exact .same (.refl i _)
    case h_2 r hr => exact .same (embed_item hr)

theorem ItemInv.step (h : ItemInv ports i s all) (op : Live.Op) :
    ItemInv ports i (Live.step ports s op)
      ((Live.normalized ports s op).toList ++ all) := by
  by_cases hop : ∀ id now, op ≠ .normalize id now
  · have hnone : Live.normalized ports s op = none := by
      cases op with
      | normalize id now => exact absurd rfl (hop id now)
      | _ => rfl
    rw [hnone]
    exact h.other (step_faithful h.faithful) (step_owned h.owned)
      (step_item ports i h.faithful h.owned op hop)
      fun r hr data hget => step_get ports op hr hget
  · simp only [ne_eq, not_forall, not_not] at hop
    obtain ⟨memoryId, now, rfl⟩ := hop
    unfold Live.step Live.normalized
    simp only
    cases hr : call ports true s.blobs s.db memoryId now with
    | error e => exact h
    | ok r =>
      obtain ⟨db', out⟩ := r
      by_cases hout : out = .deleted
      · -- the version is deleted: the run did nothing
        subst hout
        obtain ⟨m, hm, -⟩ := call_cases hr
        have hdel := (call_deleted_iff hr hm).mp rfl
        have hdb : db' = s.db := by
          unfold call at hr
          simp only [hm, hdel, ↓reduceIte, Except.ok.injEq,
            Prod.mk.injEq] at hr
          exact hr.1.symm
        subst hdb
        exact h
      · have hn := h.normalize hr hout
        cases out with
        | deleted => exact absurd rfl hout
        | skipped => exact hn
        | reused => exact hn
        | chunked => exact hn

theorem ItemInv.run (h : ItemInv ports i s all) (ops : List Live.Op) :
    ItemInv ports i (ops.foldl (Live.step ports) s)
      (Live.completions ports s ops ++ all) := by
  induction ops generalizing s all with
  | nil => exact h
  | cons op rest ih =>
    unfold Live.completions
    rw [List.foldl_cons, List.append_assoc]
    exact ih (h.step op)

-- ====== who holds the chunks

/-- Whether a version's text is blank. -/
def blankVersion (ports : Ports) (s : Store) (id : Id) : Bool :=
  match s.db.memory id with
  | none => false
  | some m =>
    match parse ports s.blobs m with
    | .error _ => false
    | .ok doc => isBlank doc.text

/-- The completed runs of an item's versions, the newest first. -/
def itemRuns (db : Db) (i : Item) (all : List Id) : List Id :=
  all.filter fun v => decide (Deletion.itemOfMemory db v = some i)

/-- Every chunk of the item is its current version's, and the chunks are
cut from a document of the item that has the current version's normalized
text. -/
def ChunksCurrent (ports : Ports) (s : Store) (i : Item) (current : Memory) :
    Prop :=
  (∀ c ∈ s.db.chunks, ofItem s.db (i.sourceId, i.externalKey) c = true →
    c.memoryId = current.id)
  ∧ ∃ v ∈ Deletion.versionsOf s.db i, ∃ doc, parse ports s.blobs v = .ok doc
    ∧ current.normalizedHash = some (normalizedHash doc.text)
    ∧ (s.db.chunks.filter (ofItem s.db (i.sourceId, i.externalKey))).map
        MemoryChunk.span = ports.chunker.chunk doc

/-- The current version has been run, and was the last to decide who holds
the chunks, or neither it nor the last has any text. -/
def WroteLast (ports : Ports) (s : Store) (i : Item) (current : Memory)
    (all : List Id) : Prop :=
  current.id ∈ all ∧ ∃ w,
    lastWriter (blankVersion ports s) (itemRuns s.db i all) = some w
    ∧ (w = current.id ∨ blankVersion ports s w = true
        ∧ blankVersion ports s current.id = true)

theorem memory_of_row {db : Db} (h : Versions (keyed db) db.nextId) (hr : r ∈ itemRows db i) :
    ∃ m, db.memory r.id = some m ∧ m.base = r ∧ m.item = i := by
  obtain ⟨m, hm, hi, rfl⟩ := mem_itemRows.mp hr
  have hsome : (db.memory m.id).isSome = true := by
    rw [memory_isSome_iff]
    unfold keyed
    rw [List.map_map]
    exact List.mem_map_of_mem hm
  obtain ⟨x, hx⟩ := Option.isSome_iff_exists.mp hsome
  obtain ⟨hxm, hid⟩ := Db.memory_mem hx
  rw [memory_unique h hxm hm hid] at hx
  exact ⟨m, hx, rfl, hi⟩

theorem itemRuns_eq {db : Db} (h : Versions (keyed db) db.nextId)
    (all : List Id) : itemRuns db i all = runsOf (itemRows db i) all := by
  unfold itemRuns runsOf
  refine List.filter_congr fun v _ => ?_
  rw [decide_eq_decide]
  unfold Deletion.itemOfMemory
  rw [Option.map_eq_some_iff, List.mem_map]
  constructor
  · rintro ⟨m, hm, hi⟩
    obtain ⟨hmem, hid⟩ := Db.memory_mem hm
    exact ⟨m.base, mem_itemRows.mpr ⟨m, hmem, hi, rfl⟩, hid⟩
  · rintro ⟨r, hr, rfl⟩
    obtain ⟨m, hm, -, hi⟩ := memory_of_row h hr
    exact ⟨m, hm, hi⟩

theorem blankVersion_run (h : ItemInv ports i s all)
    (hr : r ∈ itemRows s.db i) (hrun : r.id ∈ all) :
    blankVersion ports s r.id
      = (r.normalizedHash.map fun x => isBlank x.text).getD false := by
  have hruns : r.id ∈ runsOf (itemRows s.db i) all :=
    List.mem_filter.mpr ⟨hrun, decide_eq_true (List.mem_map_of_mem hr)⟩
  obtain ⟨doc, hdoc, hhash⟩ := h.holding.done r hr hruns
  obtain ⟨m, hm, hbase, -⟩ := memory_of_row h.faithful.versions hr
  have hdoc' : parse ports s.blobs m = .ok doc := by
    rw [← hbase] at hdoc
    exact hdoc
  unfold blankVersion
  simp only [hm, hdoc', hhash]
  rfl

theorem chunksCurrent_iff (h : ItemInv ports i s all) {current : Memory}
    (hmem : current ∈ s.db.memories) (hi : current.item = i) :
    ChunksCurrent ports s i current ↔ WroteLast ports s i current all := by
  have hver := h.faithful.versions
  have hH := h.holding
  have hrow : current.base ∈ itemRows s.db i :=
    mem_itemRows.mpr ⟨current, hmem, hi, rfl⟩
  have hruns : ∀ v, v ∈ runsOf (itemRows s.db i) all ↔
      v ∈ all ∧ v ∈ (itemRows s.db i).map (·.id) := by
    intro v
    unfold runsOf
    rw [List.mem_filter, decide_eq_true_eq]
  have hwriter : lastWriter (blankVersion ports s) (itemRuns s.db i all)
      = lastWriter (blankRow (itemRows s.db i))
        (runsOf (itemRows s.db i) all) := by
    rw [itemRuns_eq hver]
    refine lastWriter_congr fun v hv => ?_
    obtain ⟨hall, hids⟩ := (hruns v).mp hv
    obtain ⟨r, hr, rfl⟩ := List.mem_map.mp hids
    rw [blankVersion_run h hr hall, blankRow_of_mem hH.ids hr]
  have hof : ofItem s.db (i.sourceId, i.externalKey)
      = ofRows (itemRows s.db i) := by
    funext c
    have heq := ofItem_eq s.db current c
    rw [hi] at heq
    rw [← heq, ← hi]
    rfl
  have hspans : (s.db.chunks.filter (ofRows (itemRows s.db i))).map
      MemoryChunk.span = (itemHeld s.db i).map (·.span) := by
    unfold itemHeld
    rw [List.map_map]
    rfl
  have hheld : ∀ c ∈ s.db.chunks, ofRows (itemRows s.db i) c = true →
      c.held ∈ itemHeld s.db i := fun c hc hofc =>
    List.mem_map_of_mem (List.mem_filter.mpr ⟨hc, hofc⟩)
  have hblank : ∀ (r : Memory) (doc : ParsedDocument), r ∈ itemRows s.db i →
      r.id ∈ all → r.normalizedHash = some ⟨doc.text⟩ →
      blankVersion ports s r.id = isBlank doc.text := by
    intro r doc hr hall hhash
    rw [blankVersion_run h hr hall, hhash]
    rfl
  unfold ChunksCurrent WroteLast
  rw [hwriter, hof, hspans]
  constructor
  · rintro ⟨howner, v, hv, doc, hdoc, hhash, hcut⟩
    have hran : current.id ∈ runsOf (itemRows s.db i) all := by
      by_contra hno
      have hnone := hH.todo current.base hrow hno
      rw [Memory.base_normalizedHash, hhash] at hnone
      cases hnone
    have hall := ((hruns _).mp hran).1
    obtain ⟨w, hwr, hw⟩ := @lastWriter_some (blankRow (itemRows s.db i)) _ _ hran
    obtain ⟨hwall, r, hr, hid, v', hv', doc', hdoc', hhash', hcut'⟩ :=
      hH.writer w hw
    refine ⟨hall, w, hw, ?_⟩
    cases hcs : itemHeld s.db i with
    | nil =>
      -- no chunks: neither the last writer's text nor the current one's
      rw [hcs, List.map_nil] at hcut hcut'
      have hb := (Chunker.chunk_eq_nil_iff _ _).mp hcut.symm
      have hb' := (Chunker.chunk_eq_nil_iff _ _).mp hcut'.symm
      refine .inr ⟨?_, ?_⟩
      · rw [← hid, hblank r doc' hr (hid ▸ ((hruns w).mp hwr).1) hhash']
        exact hb'
      · exact (hblank current.base doc hrow hall hhash).trans hb
    | cons x rest =>
      have hx : x ∈ itemHeld s.db i := hcs ▸ List.mem_cons_self
      obtain ⟨c, hc, rfl⟩ := List.mem_map.mp hx
      obtain ⟨hc, hofc⟩ := List.mem_filter.mp hc
      exact .inl ((hwall _ hx).symm.trans (howner c hc hofc))
  · rintro ⟨hall, w, hw, hcase⟩
    have hran : current.id ∈ runsOf (itemRows s.db i) all :=
      (hruns _).mpr ⟨hall, List.mem_map.mpr ⟨current.base, hrow, rfl⟩⟩
    obtain ⟨hwall, r, hr, hid, v', hv', doc', hdoc', hhash', hcut'⟩ :=
      hH.writer w hw
    obtain rfl | ⟨hbw, hbc⟩ := hcase
    · have hrc : r = current.base := row_unique hH.ids hr hrow hid
      obtain ⟨m, hm, hi', rfl⟩ := mem_itemRows.mp hv'
      refine ⟨fun c hc hofc => hwall _ (hheld c hc hofc), m,
        List.mem_filter.mpr ⟨hm, decide_eq_true hi'⟩, doc', hdoc', ?_, hcut'⟩
      rw [hrc] at hhash'
      exact hhash'
    · -- neither has text, so there are no chunks and none are due
      obtain ⟨doc, hdoc, hhash⟩ := hH.done current.base hrow hran
      have hwr : w ∈ runsOf (itemRows s.db i) all := by
        obtain ⟨w', hw', heq⟩ :=
          @lastWriter_some (blankRow (itemRows s.db i)) _ _ hran
        rw [hw, Option.some.injEq] at heq
        exact heq ▸ hw'
      rw [← hid, hblank r doc' hr (hid ▸ ((hruns w).mp hwr).1) hhash'] at hbw
      have hbc' := (hblank current.base doc hrow hall hhash).symm.trans hbc
      have hnone : (itemHeld s.db i).map (·.span) = [] := by
        rw [hcut', Chunker.chunk_eq_nil_iff]
        exact hbw
      refine ⟨fun c hc hofc => ?_, current,
        List.mem_filter.mpr ⟨hmem, decide_eq_true hi⟩, doc, hdoc, hhash, ?_⟩
      · have hx := hheld c hc hofc
        rw [List.map_eq_nil_iff.mp hnone] at hx
        cases hx
      · rw [hnone, eq_comm, Chunker.chunk_eq_nil_iff]
        exact hbc'

/-- After any run of operations, an item's chunks are its current
version's and of its text exactly when that version's run wrote last. -/
theorem chunks_current_iff (ports : Ports) (sources : List Source)
    (ops : List Live.Op) (i : Item) (current : Memory)
    (hcurrent : currentRow (Live.run ports sources ops).db i.sourceId
      i.externalKey = some current) :
    ChunksCurrent ports (Live.run ports sources ops) i current
      ↔ WroteLast ports (Live.run ports sources ops) i current
        (Live.completions ports (Live.start sources) ops) := by
  have hinv := (itemInv_start ports i sources).run ops
  rw [List.append_nil] at hinv
  obtain ⟨hmem, hs, hk, -⟩ := currentRow_some hcurrent
  exact chunksCurrent_iff hinv hmem (by rw [Memory.item, hs, hk])

-- ------ an older version last

/-- A note and its edit, each normalized when it is observed. -/
def editedNote : List Live.Op := [
  .ingest 1 (Live.note "a.md" "h1" [104, 105]) 0, .normalize 1 1,
  .ingest 1 (Live.note "a.md" "h2" [98, 121, 101]) 2, .normalize 4 3]

theorem chunks_current_iff_edited :
    ∃ current, currentRow (Live.run .plain [] editedNote).db 1 "a.md"
        = some current
      ∧ (ChunksCurrent .plain (Live.run .plain [] editedNote) ⟨1, "a.md"⟩
          current
        ↔ WroteLast .plain (Live.run .plain [] editedNote) ⟨1, "a.md"⟩ current
          (Live.completions .plain (Live.start []) editedNote)) := by
  have hsome : (currentRow (Live.run .plain [] editedNote).db 1
      "a.md").isSome = true := by
    decide +kernel
  obtain ⟨current, hcurrent⟩ := Option.isSome_iff_exists.mp hsome
  exact ⟨current, hcurrent,
    chunks_current_iff .plain [] editedNote ⟨1, "a.md"⟩ current hcurrent⟩

/-- A note and its edit, observed before either is normalized; the older
version's job comes last. -/
def lateFirstVersion : List Live.Op := [
  .ingest 1 (Live.note "a.md" "h1" [104, 105]) 0,
  .ingest 1 (Live.note "a.md" "h2" [98, 121, 101]) 1,
  .normalize 4 2, .normalize 1 3]

/-- Every version's job has completed, and the chunks are the superseded
version's. -/
theorem chunks_not_current :
    ¬ ∀ (ports : Ports) (sources : List Source) (ops : List Live.Op)
        (i : Item) (current : Memory),
      currentRow (Live.run ports sources ops).db i.sourceId i.externalKey
        = some current →
      (∀ m ∈ Deletion.versionsOf (Live.run ports sources ops).db i,
        m.id ∈ Live.completions ports (Live.start sources) ops) →
      ChunksCurrent ports (Live.run ports sources ops) i current := by
  intro hclaim
  have hid : (currentRow (Live.run .plain [] lateFirstVersion).db 1
      "a.md").map (·.id) = some 4 := by
    decide +kernel
  obtain ⟨current, hcurrent, hid⟩ := Option.map_eq_some_iff.mp hid
  obtain ⟨howner, -⟩ := hclaim .plain [] lateFirstVersion ⟨1, "a.md"⟩ current
    hcurrent (by decide +kernel)
  have hold : ∃ c ∈ (Live.run .plain [] lateFirstVersion).db.chunks,
      ofItem (Live.run .plain [] lateFirstVersion).db (1, "a.md") c = true
        ∧ c.memoryId = 1 := by
    decide +kernel
  obtain ⟨c, hc, hof, hc1⟩ := hold
  have hc4 := howner c hc hof
  rw [hid, hc1] at hc4
  exact absurd hc4 (by decide)

end MemoryOS.NormalizeMemory
