/-
What the corpus holds of a source's files, whatever its runs do.

A run states a file before it reads it, and no two writes give a file the
same fingerprint. So an item that was yielded under the fingerprint the
file still has is of the bytes the file still has, whenever it was read,
and so is a version that was recorded under it (`Sound.held`). A run that
skips a file goes by the cursor, which says what was recorded as far as the
run knew that saved it.
-/
import MemoryOS.Corpus.Runs
import MemoryOS.Lib.Outcome
import MemoryOS.Corpus.Proofs.Sync

namespace MemoryOS.SyncRuns

open Filesystem SyncSource

-- ====== current content

/-- The item's current version is live and has this content. -/
def Held (db : Db) (i : Item) (hash : ContentHash) : Prop :=
  ∃ m ∈ db.memories, m.item = i ∧ m.isCurrent = true ∧ m.deletedAt = none
    ∧ m.contentHash = hash

/-- The row a known key would be tombstoned through is one of its item's. -/
def Known (db : Db) (sourceId : Id) (known : List Memory) : Prop :=
  ∀ key id, Deletion.knownId known key = some id →
    ∃ m ∈ db.memories, m.id = id ∧ m.item = ⟨sourceId, key⟩

variable {db db' : Db} {store store' : Store} {sourceId : Id} {next : Id}
  {item : ObservedItem} {now : Timestamp} {hash : ContentHash}
  {known : List Memory}

variable {i : Nat} {out : Option Ingested} {key : String}

theorem Held.currentRow (h : Held db ⟨sourceId, key⟩ hash)
    (hv : Versions (keyed db) next) :
    ∃ m, currentRow db sourceId key = some m ∧ m.deletedAt = none
      ∧ m.contentHash = hash := by
  obtain ⟨m, hm, hitem, hcurrent, hlive, hhash⟩ := h
  unfold Memory.item at hitem
  obtain ⟨hsource, hkey⟩ := Item.mk.inj hitem
  cases hc : MemoryOS.currentRow db sourceId key with
  | none =>
    have hno := currentRow_none hc hm
    rw [← isCurrentOf_eq] at hno
    simp [isCurrentOf, hsource, hkey, hcurrent] at hno
  | some c =>
    have hid : m.id = c.id := by
      rw [id_eq_current hv hc hm, ← isCurrentOf_eq]
      simp [isCurrentOf, hsource, hkey, hcurrent]
    have hsame := row_inj hv hm (currentRow_some hc).1 hid
    exact ⟨c, rfl, hsame ▸ hlive, hsame ▸ hhash⟩

theorem ingestItem_held
    (hin : ingestItem store sourceId item now = .ok (store', out)) :
    Held store'.db ⟨sourceId, item.externalKey⟩ item.contentHash := by
  obtain ⟨hu, rfl, -⟩ | ⟨-, artifacts, blobs, -, rfl, -⟩ := ingestItem_cases hin
  · -- nothing changed: it was so before
    unfold unchanged at hu
    obtain ⟨-, hcurrent⟩ := Bool.and_eq_true_iff.1 hu
    split at hcurrent
    case h_1 => cases hcurrent
    case h_2 c hc =>
      obtain ⟨hmem, hsource, hkey, hcur⟩ := currentRow_some hc
      simp only [Bool.and_eq_true, decide_eq_true_eq,
        Option.isNone_iff_eq_none] at hcurrent
      refine ⟨c, hmem, ?_, hcur, hcurrent.2, hcurrent.1⟩
      unfold Memory.item
      rw [hsource, hkey]
  · have hadd : ∀ (db : Db) (m : Memory), ∃ x ∈ (addVersion db m).memories,
        x.item = m.item ∧ x.isCurrent = true ∧ x.deletedAt = m.deletedAt
          ∧ x.contentHash = m.contentHash := by
      intro db m
      unfold addVersion
      split
      case h_1 =>
        exact ⟨_, List.mem_append_right _ List.mem_cons_self, rfl, rfl, rfl,
          rfl⟩
      case h_2 =>
        exact ⟨_, List.mem_append_right _ List.mem_cons_self, rfl, rfl, rfl,
          rfl⟩
    exact hadd _ _

theorem Held.ingest {i : Item}
    (h : Held store.db i hash) (hv : Versions (keyed store.db) store.db.nextId)
    (hin : ingestItem store sourceId item now = .ok (store', out))
    (hi : i ≠ ⟨sourceId, item.externalKey⟩) : Held store'.db i hash := by
  obtain ⟨m, hm, hitem, hrest⟩ := h
  exact ⟨m, ((ingestItem_elsewhere hv hin).2 m (hitem ▸ hi)).2 hm, hitem, hrest⟩

theorem Known.ingest (h : Known store.db sourceId known)
    (hin : ingestItem store sourceId item now = .ok (store', out)) :
    Known store'.db sourceId known := by
  rcases ingestItem_recorded hin with ⟨rfl, -⟩ | ⟨r, -, hrec⟩
  · exact h
  · intro key id hid
    obtain ⟨m₀, hm₀, hid₀, hitem₀⟩ := h key id hid
    obtain ⟨m, hm, hmid, hmitem, -⟩ := hrec.forth m₀ hm₀
    exact ⟨m, hm, hmid.trans hid₀, hmitem.trans hitem₀⟩

theorem known_of (hv : Versions (keyed db) next) (sourceId : Id) :
    Known db sourceId (Deletion.knownOf db sourceId) := by
  intro key id hid
  unfold Deletion.knownId at hid
  obtain ⟨m, hlast, rfl⟩ := Option.map_eq_some_iff.1 hid
  have hm := List.mem_filter.1 (List.mem_of_getLast? hlast)
  have hmem := (List.mem_filter.1 hm.1).1
  exact ⟨m, hmem, rfl, knownId_item hv hmem hid⟩

-- ====== tombstones

theorem sweepOne_versions (hv : Versions (keyed db) db.nextId)
    (known : List Memory) (key : String) (now : Timestamp) :
    Versions (keyed (Deletion.sweepOne sourceId known db key now))
      (Deletion.sweepOne sourceId known db key now).nextId := by
  unfold Deletion.sweepOne
  split
  case h_1 => exact hv
  case h_2 id hid =>
    exact (tombstoneRow_versions hv).mono (Nat.le_succ _)

theorem Known.sweep (h : Known db sourceId known) {known' : List Memory}
    (key : String) (now : Timestamp) :
    Known (Deletion.sweepOne sourceId known' db key now) sourceId known := by
  intro k id hk
  obtain ⟨m, hm, hid, hitem⟩ := h k id hk
  unfold Deletion.sweepOne
  split
  case h_1 => exact ⟨m, hm, hid, hitem⟩
  case h_2 id' _ =>
    refine ⟨_, List.mem_map_of_mem hm, ?_, ?_⟩
    · split <;> exact hid
    · split <;> exact hitem

theorem Held.sweep {i : Item} (h : Held db i hash)
    (hv : Versions (keyed db) next) (hknown : Known db sourceId known) (hi : i ≠ ⟨sourceId, key⟩) :
    Held (Deletion.sweepOne sourceId known db key now) i hash := by
  obtain ⟨m, hm, hitem, hrest⟩ := h
  unfold Deletion.sweepOne
  split
  case h_1 => exact ⟨m, hm, hitem, hrest⟩
  case h_2 id hid =>
    obtain ⟨m', hm', hid', hitem'⟩ := hknown key id hid
    have hne : m.id ≠ id := by
      intro heq
      rw [row_inj hv hm hm' (heq.trans hid'.symm), hitem'] at hitem
      exact hi hitem.symm
    exact ⟨m, List.mem_map.2 ⟨m, hm, if_neg hne⟩, hitem, hrest⟩

theorem detectDeletions_versions (hv : Versions (keyed db) db.nextId)
    (observed : List String) (clock : String → Timestamp) :
    Versions (keyed (Deletion.detectDeletions db sourceId observed clock))
      (Deletion.detectDeletions db sourceId observed clock).nextId := by
  unfold Deletion.detectDeletions
  simp only
  generalize List.mergeSort _ _ = keys
  generalize Deletion.knownOf db sourceId = known
  induction keys generalizing db with
  | nil => exact hv
  | cons k rest ih => exact ih (sweepOne_versions hv known k (clock k))

theorem detectDeletions_held {key : String} {observed : List String}
    {clock : String → Timestamp} (h : Held db ⟨sourceId, key⟩ hash)
    (hv : Versions (keyed db) db.nextId) (hkey : key ∈ observed) :
    Held (Deletion.detectDeletions db sourceId observed clock)
      ⟨sourceId, key⟩ hash := by
  have hmissing : key ∉ missingKeys (Deletion.knownOf db sourceId) observed :=
    fun hin => ((mem_missingKeys).1 hin).2 hkey
  have hknown := known_of hv sourceId
  show Held ((missingKeys (Deletion.knownOf db sourceId) observed).foldl
    _ db) _ _
  generalize missingKeys (Deletion.knownOf db sourceId) observed = keys
    at hmissing ⊢
  generalize Deletion.knownOf db sourceId = known at hknown ⊢
  induction keys generalizing db with
  | nil => exact h
  | cons k rest ih =>
    obtain ⟨hne, hrest⟩ := not_or.1 (List.mem_cons.not.1 hmissing)
    refine ih ?_ (sweepOne_versions hv known k (clock k)) hrest
      (hknown.sweep k (clock k))
    exact h.sweep hv hknown fun heq => hne (Item.mk.inj heq).2

-- ====== a run on its own

section Call

variable (env : Env) (clock : Clock) (source : SyncedSource) (full : Bool)

/-- What the loop does at one file, when nothing fails. -/
structure Step (f : Found) (p q : Progress) : Prop where
  versions : Versions (keyed q.store.db) q.store.db.nextId
  others : ∀ key hash, key ≠ f.externalKey →
    Held p.store.db ⟨source.id, key⟩ hash →
    Held q.store.db ⟨source.id, key⟩ hash
  errors : p.report.errors ≤ q.report.errors

theorem syncFile_step {p : Progress} (f : Found)
    (hv : Versions (keyed p.store.db) p.store.db.nextId) :
    Step source f p (syncFile env clock source full p f)
      ∧ ((syncFile env clock source full p f).report.errors = p.report.errors →
        ∀ data, f.bytes = some data →
          (full = false → source.seen.lookup f.externalKey
              = some f.stat.fingerprint →
            Held p.store.db ⟨source.id, f.externalKey⟩ (env.digest data)) →
          Held (syncFile env clock source full p f).store.db
            ⟨source.id, f.externalKey⟩ (env.digest data)) := by
  unfold syncFile observeFile
  split
  case isTrue hskip =>
    simp only [Bool.and_eq_true, Bool.not_eq_true', decide_eq_true_eq] at hskip
    exact ⟨⟨hv, fun _ _ _ h => h, Nat.le_refl _⟩,
      fun _ data _ hheld => hheld hskip.1 hskip.2⟩
  case isFalse =>
    split
    case h_1 hnone =>
      refine ⟨⟨hv, fun _ _ _ h => h, Nat.le_refl _⟩, fun _ data hdata => ?_⟩
      rw [hnone] at hdata
      cases hdata
    case h_2 bytes hbytes =>
      simp only [SyncSource.record]
      split
      case h_1 e hin =>
        refine ⟨⟨hv, fun _ _ _ h => h, Nat.le_succ _⟩, fun herr => ?_⟩
        exact absurd herr (Nat.succ_ne_self _)
      case h_2 store' out hin =>
        refine ⟨⟨(ingestItem_elsewhere (by exact hv) hin).1,
          fun key hash hne h => ?_, ?_⟩, fun _ data hdata _ => ?_⟩
        · exact Held.ingest (by exact h) (by exact hv) hin
            fun heq => hne (Item.mk.inj heq).2
        · dsimp only
          split <;> exact Nat.le_refl _
        · rw [hbytes] at hdata
          cases hdata
          exact ingestItem_held hin

theorem syncFiles_held {found : List Found} {p : Progress}
    (hkeys : (found.map (·.externalKey)).Nodup)
    (hv : Versions (keyed p.store.db) p.store.db.nextId)
    (hread : ∀ f ∈ found, f.bytes.isSome = true)
    (hheld : ∀ f ∈ found, ∀ data, f.bytes = some data → full = false →
      source.seen.lookup f.externalKey = some f.stat.fingerprint →
      Held p.store.db ⟨source.id, f.externalKey⟩ (env.digest data)) :
    let q := found.foldl (syncFile env clock source full) p
    Versions (keyed q.store.db) q.store.db.nextId
      ∧ p.report.errors ≤ q.report.errors
      ∧ (∀ key hash, key ∉ found.map (·.externalKey) →
          Held p.store.db ⟨source.id, key⟩ hash →
          Held q.store.db ⟨source.id, key⟩ hash)
      ∧ (q.report.errors = p.report.errors →
          ∀ f ∈ found, ∀ data, f.bytes = some data →
            Held q.store.db ⟨source.id, f.externalKey⟩ (env.digest data)) := by
  induction found generalizing p with
  | nil => exact ⟨hv, Nat.le_refl _, fun _ _ _ h => h, fun _ => nofun⟩
  | cons f rest ih =>
    obtain ⟨hfirst, hrestKeys⟩ := List.nodup_cons.1 hkeys
    obtain ⟨hstep, hone⟩ := syncFile_step env clock source full f hv
    have hother : ∀ g ∈ rest, g.externalKey ≠ f.externalKey :=
      fun g hg heq => hfirst (List.mem_map.2 ⟨g, hg, heq⟩)
    obtain ⟨hv', herr', hothers', hheld'⟩ := ih hrestKeys hstep.versions
      (fun g hg => hread g (List.mem_cons_of_mem _ hg))
      (fun g hg data hdata hfull hseen => hstep.others _ _ (hother g hg)
        (hheld g (List.mem_cons_of_mem _ hg) data hdata hfull hseen))
    refine ⟨hv', Nat.le_trans hstep.errors herr', ?_, ?_⟩
    · intro key hash hkey h
      obtain ⟨hne, hrest⟩ := not_or.1 (List.mem_cons.not.1 hkey)
      exact hothers' key hash hrest (hstep.others key hash hne h)
    · -- no error in the whole loop is none at this file and none later
      intro herrors
      have hhere := Nat.le_antisymm (Nat.le_trans herr' (Nat.le_of_eq herrors))
        hstep.errors
      rw [List.forall_mem_cons]
      constructor
      · intro data hdata
        refine hothers' _ _ hfirst (hone hhere data hdata ?_)
        exact hheld f List.mem_cons_self data hdata
      · exact hheld' (herrors.trans hhere.symm)

theorem filesOf_ok {config : SourceConfig} {rules : FilesystemConfig}
    (h : FilesystemConfig.fromDict config = .ok rules) (root : Root) :
    filesOf config root = walk rules root := by
  simp only [filesOf, h]

theorem call_held {store : Store} {root : Root}
    {out : Store × SyncedSource × SyncReport}
    (hkeys : ((filesOf source.config root).map (·.externalKey)).Nodup)
    (hv : Versions (keyed store.db) store.db.nextId)
    (hcall : call env clock store source root full = .ok out)
    (hread : ∀ f ∈ filesOf source.config root, f.bytes.isSome = true)
    (herrors : out.2.2.errors = 0)
    (hheld : ∀ f ∈ filesOf source.config root, ∀ data, f.bytes = some data →
      full = false →
      source.seen.lookup f.externalKey = some f.stat.fingerprint →
      Held store.db ⟨source.id, f.externalKey⟩ (env.digest data)) :
    ∀ f ∈ filesOf source.config root, ∀ data, f.bytes = some data →
      ∃ m, currentRow out.1.db source.id f.externalKey = some m
        ∧ m.deletedAt = none ∧ m.contentHash = env.digest data := by
  unfold call at hcall
  split at hcall
  case h_1 => cases hcall
  case h_2 config hconfig =>
    rw [filesOf_ok hconfig] at hkeys hread hheld ⊢
    split at hcall
    case isTrue => cases hcall
    case isFalse =>
      obtain ⟨hv', -, -, hloop⟩ := @syncFiles_held env clock source full _
        { store := store, cursorSeen := source.seen } hkeys hv hread hheld
      change Versions (keyed (syncFiles env clock source full store
        (walk config root)).store.db) _ at hv'
      change (syncFiles env clock source full store
        (walk config root)).report.errors = 0 → _ at hloop
      split at hcall
      case isTrue hfull =>
        subst hfull
        cases hcall
        intro f hf data hdata
        have hobserved : f.externalKey ∈ (syncFiles env clock source true store
            (walk config root)).observedKeys :=
          syncFiles_observedKeys.2 ⟨f, hf, rfl, hread f hf⟩
        have hfinal := @detectDeletions_held _ source.id _ _ _ clock.deleted
          (hloop herrors f hf data hdata) hv' hobserved
        exact hfinal.currentRow (detectDeletions_versions hv' _ _)
      case isFalse hfull =>
        cases hcall
        intro f hf data hdata
        exact (hloop herrors f hf data hdata).currentRow hv'

end Call

-- ====== the invariant

variable {env : Env} {s s' : System} {r r' : Run}

/-- What a run in progress goes by is true, or of the past. -/
structure RunSound (env : Env) (s : System) (r : Run) : Prop where
  cursor : ∀ m ∈ r.cursorSeen, m ∈ s.past
  found : ∀ f ∈ r.found, mark f ∈ s.past
  pending : ∀ item fingerprint,
    r.phase = .observing (some (item, fingerprint)) →
    (item.externalKey, fingerprint) ∈ s.past
      ∧ ∀ f ∈ s.files, mark f = (item.externalKey, fingerprint) →
        ∀ data, f.bytes = some data → item.contentHash = env.digest data
  known : ∀ known missing, r.phase = .sweeping known missing →
    Known s.store.db s.source.id known

/-- What holds in every state of a run of the machine. -/
structure Sound (env : Env) (s : System) : Prop where
  versions : Versions (keyed s.store.db) s.store.db.nextId
  keys : (s.files.map (·.externalKey)).Nodup
  filesPast : ∀ f ∈ s.files, mark f ∈ s.past
  cursorPast : ∀ m ∈ s.source.seen, m ∈ s.past
  recordedPast : ∀ m ∈ s.recorded, m ∈ s.past
  runs : ∀ r ∈ s.runs, RunSound env s r
  held : ∀ f ∈ s.files, mark f ∈ s.recorded → ∀ data, f.bytes = some data →
    Held s.store.db ⟨s.source.id, f.externalKey⟩ (env.digest data)
  quiet : Quiet s → vouched s s.source.seen = true

theorem mem_of_lookup {cursor : List (String × Fingerprint)}
    {fingerprint : Fingerprint} (h : cursor.lookup key = some fingerprint) :
    (key, fingerprint) ∈ cursor := by
  induction cursor with
  | nil => cases h
  | cons m rest ih =>
    rw [List.lookup_cons] at h
    split at h
    case h_1 heq =>
      cases h
      rw [beq_iff_eq] at heq
      exact heq ▸ List.mem_cons_self
    case h_2 => exact List.mem_cons_of_mem _ (ih h)

theorem vouched_iff {cursor : List (String × Fingerprint)} :
    vouched s cursor = true ↔ ∀ f ∈ s.files,
      cursor.lookup f.externalKey = some f.stat.fingerprint →
        mark f ∈ s.recorded := by
  unfold vouched
  simp only [List.all_eq_true, decide_eq_true_eq]

theorem sound_init (id : Id) (config : SourceConfig) :
    Sound env (init id config) := by
  have hfiles : (init id config).files = [] := by
    show filesOf config { entries := .nil } = []
    cases hrules : FilesystemConfig.fromDict config with
    | error _ => simp only [filesOf, hrules]
    | ok rules =>
      simp [filesOf_ok hrules, walk, walkFiles, walkDirs, Tree.filenames]
  have hnone : ∀ {P : Found → Prop}, ∀ f ∈ (init id config).files, P f :=
    fun f hf => absurd (hfiles ▸ hf) List.not_mem_nil
  exact {
    versions := Versions.empty _
    keys := hfiles ▸ List.nodup_nil
    filesPast := hnone
    cursorPast := fun _ hm => absurd hm List.not_mem_nil
    recordedPast := fun _ hm => absurd hm List.not_mem_nil
    runs := fun _ hr => absurd hr List.not_mem_nil
    held := hnone
    quiet := fun _ => vouched_iff.2 hnone }

theorem Sound.progress (h : Sound env s) (hi : s.runs[i]? = some r)
    (hopen : r'.isEnded = false) {store : Store}
    {recorded : List (String × Fingerprint)}
    (hversions : Versions (keyed store.db) store.db.nextId)
    (hknown : ∀ known, Known s.store.db s.source.id known →
      Known store.db s.source.id known)
    (hrecorded : ∀ m ∈ recorded, m ∈ s.past)
    (hheld : ∀ f ∈ s.files, mark f ∈ recorded → ∀ data, f.bytes = some data →
      Held store.db ⟨s.source.id, f.externalKey⟩ (env.digest data))
    (hr : RunSound env { s with store := store } r') :
    Sound env { s.move i r' with store := store, recorded := recorded } := by
  refine ⟨hversions, h.keys, h.filesPast, h.cursorPast, hrecorded, ?_, hheld,
    fun hquiet => ?_⟩
  · intro x hx
    rcases List.mem_or_eq_of_mem_set hx with hx | rfl
    · have hold := h.runs x hx
      exact ⟨hold.cursor, hold.found, hold.pending, fun known missing hphase =>
        hknown known (hold.known known missing hphase)⟩
    · exact ⟨hr.cursor, hr.found, hr.pending, hr.known⟩
  · -- the run is still in progress
    obtain ⟨hlt, -⟩ := List.getElem?_eq_some_iff.1 hi
    have hended := hquiet r' (List.mem_set hlt r')
    rw [hopen] at hended
    cases hended

theorem Sound.move (h : Sound env s) (hi : s.runs[i]? = some r)
    (hopen : r'.isEnded = false) (hr : RunSound env s r') :
    Sound env (s.move i r') :=
  h.progress hi hopen h.versions (fun _ hk => hk) h.recordedPast h.held
    ⟨hr.cursor, hr.found, hr.pending, hr.known⟩

-- ======= the steps

theorem file_some {f : Found} (h : s.file key = some f) :
    f ∈ s.files ∧ f.externalKey = key := by
  have hp := List.find?_some h
  exact ⟨List.mem_of_find?_eq_some h, of_decide_eq_true hp⟩

theorem Sound.file (h : Sound env s) {f : Found} (hf : f ∈ s.files) :
    s.file f.externalKey = some f := by
  cases hg : s.file f.externalKey with
  | none =>
    have hno := List.find?_eq_none.1 hg f hf
    simp at hno
  | some g =>
    obtain ⟨hmem, hkey⟩ := file_some hg
    rw [List.inj_on_of_nodup_map h.keys hmem hf hkey]

theorem Sound.write (h : Sound env s) {root : Root}
    (hwritten : Written s.files (filesOf s.source.config root))
    (hnew : newWrites s (.write root) = true) :
    Sound env { s with
      root := root
      past := s.past ++ (filesOf s.source.config root).map mark } := by
  obtain ⟨hkeys, hsame⟩ := hwritten
  -- a file with an old mark is as it was
  have hold : ∀ f ∈ filesOf s.source.config root, mark f ∈ s.past →
      ∃ g ∈ s.files, mark g = mark f ∧ f.bytes = g.bytes := by
    intro f hf hpast
    have hcase := List.all_eq_true.1 hnew f hf
    simp only [Bool.or_eq_true, decide_eq_true_eq] at hcase
    obtain ⟨g, hg, hmark⟩ :=
      List.mem_map.1 (hcase.resolve_right fun hno => hno hpast)
    exact ⟨g, hg, hmark, hsame f hf g hg hmark.symm⟩
  refine ⟨h.versions, hkeys, fun f hf => ?_, ?_, ?_, fun r hr => ?_, ?_, ?_⟩
  · exact List.mem_append_right _ (List.mem_map_of_mem hf)
  · exact fun m hm => List.mem_append_left _ (h.cursorPast m hm)
  · exact fun m hm => List.mem_append_left _ (h.recordedPast m hm)
  · have hrun := h.runs r hr
    refine ⟨fun m hm => List.mem_append_left _ (hrun.cursor m hm),
      fun f hf => List.mem_append_left _ (hrun.found f hf), ?_, hrun.known⟩
    intro item fingerprint hphase
    obtain ⟨hpast, htrue⟩ := hrun.pending item fingerprint hphase
    refine ⟨List.mem_append_left _ hpast, fun f hf hmark data hdata => ?_⟩
    obtain ⟨g, hg, hgf, hbytes⟩ := hold f hf (hmark ▸ hpast)
    exact htrue g hg (hgf.trans hmark) data (hbytes ▸ hdata)
  · intro f hf hrec data hdata
    obtain ⟨g, hg, hgf, hbytes⟩ := hold f hf (h.recordedPast _ hrec)
    have hkey : g.externalKey = f.externalKey := (Prod.mk.inj hgf).1
    have hheld := h.held g hg (hgf ▸ hrec) data (hbytes ▸ hdata)
    rw [hkey] at hheld
    exact hheld
  · intro hquiet
    have hvouched := vouched_iff.1 (h.quiet hquiet)
    refine vouched_iff.2 fun f hf hseen => ?_
    have hpast := h.cursorPast _ (mem_of_lookup hseen)
    obtain ⟨g, hg, hgf, -⟩ := hold f hf hpast
    obtain ⟨hkey, hprint⟩ := Prod.mk.inj hgf
    have hrec := hvouched g hg (by rw [hkey, hprint]; exact hseen)
    rw [hgf] at hrec
    exact hrec

theorem Sound.observe (h : Sound env s) (hi : s.runs[i]? = some r)
    {other : Option Bytes} {fails : Bool}
    (hstep : runStep env s i r (.observe i other fails) = some s') :
    Sound env s' := by
  have hrun := h.runs r (List.mem_of_getElem? hi)
  simp only [runStep] at hstep
  split at hstep
  case h_1 f rest hphase hfound =>
    cases hstep
    have hf : mark f ∈ s.past := hrun.found f (hfound ▸ List.mem_cons_self)
    refine h.progress hi rfl h.versions (fun _ hk => hk) h.recordedPast h.held
      ⟨hrun.cursor, fun g hg => hrun.found g
        (hfound ▸ List.mem_cons_of_mem _ hg), ?_, nofun⟩
    intro item fingerprint hpending
    have hyield := Phase.observing.inj hpending
    unfold observeFile at hyield
    split at hyield
    case isTrue => cases hyield
    case isFalse =>
      split at hyield
      case h_1 => cases hyield
      case h_2 data hdata =>
        cases hyield
        refine ⟨hf, fun g hg hmark data' hdata' => ?_⟩
        have hkey : g.externalKey = f.externalKey := (Prod.mk.inj hmark).1
        have hnow := h.file hg
        rw [hkey] at hnow
        -- the file is there, so its own bytes were read
        simp only [System.bytesOf, hnow] at hdata
        cases fails with
        | true => cases hdata
        | false =>
          rw [show g.bytes = some data from hdata] at hdata'
          cases hdata'
          rfl
  case h_2 => cases hstep

theorem Sound.record (h : Sound env s) (hi : s.runs[i]? = some r)
    {item : ObservedItem} {fingerprint : Fingerprint} (now : Timestamp)
    (hphase : r.phase = .observing (some (item, fingerprint))) :
    Sound env (s.record i r item fingerprint now) := by
  have hrun := h.runs r (List.mem_of_getElem? hi)
  obtain ⟨hpast, htrue⟩ := hrun.pending item fingerprint hphase
  unfold System.record SyncSource.record
  cases hin : ingestItem s.store s.source.id item now with
  | error e =>
    simp only [hin]
    exact h.progress hi rfl h.versions (fun _ hk => hk) h.recordedPast h.held
      ⟨hrun.cursor, hrun.found, nofun, nofun⟩
  | ok p =>
    obtain ⟨store, out⟩ := p
    simp only [hin]
    have hcursor : ∀ m ∈ setSeen r.cursorSeen item.externalKey fingerprint,
        m ∈ s.past := by
      intro m hm
      rcases List.mem_append.1 hm with hm | hm
      · exact hrun.cursor m (List.mem_filter.1 hm).1
      · rw [List.mem_singleton.1 hm]
        exact hpast
    have hnoted : ∀ m ∈ noted s.recorded item.externalKey fingerprint out,
        m = (item.externalKey, fingerprint)
          ∨ m ∈ s.recorded ∧ (out = none ∨ m.1 ≠ item.externalKey) := by
      intro m hm
      unfold noted at hm
      split at hm
      case h_1 =>
        exact (List.mem_cons.1 hm).imp_right fun hm => ⟨hm, .inl rfl⟩
      case h_2 =>
        refine (List.mem_cons.1 hm).imp_right fun hm => ?_
        obtain ⟨hm, hne⟩ := List.mem_filter.1 hm
        exact ⟨hm, .inr (of_decide_eq_true hne)⟩
    refine h.progress hi rfl (ingestItem_elsewhere h.versions hin).1
      (fun _ hk => hk.ingest hin) (fun m hm => ?_)
      (fun f hf hrec data hdata => ?_) ⟨hcursor, hrun.found, nofun, nofun⟩
    · rcases hnoted m hm with rfl | ⟨hm, -⟩
      · exact hpast
      · exact h.recordedPast m hm
    · rcases hnoted _ hrec with hmark | ⟨hrec, hkeep⟩
      · -- recorded under the fingerprint the file has
        have hheld := ingestItem_held hin
        have hkey : f.externalKey = item.externalKey := (Prod.mk.inj hmark).1
        rw [← htrue f hf hmark data hdata, hkey]
        exact hheld
      · have hold := h.held f hf hrec data hdata
        rcases hkeep with rfl | hne
        · obtain ⟨rfl, -⟩ | ⟨r, hr, -⟩ := ingestItem_recorded hin
          · exact hold
          · cases hr
        · exact hold.ingest h.versions hin
            fun heq => hne (Item.mk.inj heq).2

theorem Sound.tombstone (h : Sound env s) (hi : s.runs[i]? = some r)
    {known : List Memory} {missing : List String}
    {report : SyncReport} (now : Timestamp)
    (hphase : r.phase = .sweeping known (key :: missing)) :
    Sound env { s.move i { r with
        phase := .sweeping known missing, report := report } with
      store := { s.store with
        db := Deletion.sweepOne s.source.id known s.store.db key now }
      recorded := s.recorded.filter fun m => decide (m.1 ≠ key) } := by
  have hrun := h.runs r (List.mem_of_getElem? hi)
  have hknown := hrun.known known _ hphase
  refine h.progress hi rfl (sweepOne_versions h.versions known key now)
    (fun _ hk => hk.sweep key now) (fun m hm => ?_)
    (fun f hf hrec data hdata => ?_) ⟨hrun.cursor, hrun.found, nofun, ?_⟩
  · exact h.recordedPast m (List.mem_filter.1 hm).1
  · obtain ⟨hrec, hne⟩ := List.mem_filter.1 hrec
    refine (h.held f hf hrec data hdata).sweep h.versions hknown fun heq => ?_
    exact of_decide_eq_true hne (Item.mk.inj heq).2
  · intro known' missing' hphase'
    cases hphase'
    exact hknown.sweep key now

theorem quiet_of_set {x : Run}
    (hquiet : ∀ y ∈ s.runs.set i x, y.isEnded = true) :
    lastRun s i = true := by
  unfold lastRun
  rw [List.all_eq_true]
  intro y hy
  obtain ⟨j, hne, hj⟩ := List.mem_eraseIdx_iff_getElem?.1 hy
  refine hquiet y (List.mem_of_getElem? (i := j) ?_)
  rw [List.getElem?_set_ne (Ne.symm hne)]
  exact hj

theorem RunSound.saved (h : RunSound env s r) : ∀ m ∈ r.saved, m ∈ s.past := by
  intro m hm
  unfold Run.saved at hm
  split at hm
  case isTrue => exact h.cursor m (List.mem_filter.1 hm).1
  case isFalse => exact h.cursor m hm

theorem Sound.leave (h : Sound env s) (hr : RunSound env s r)
    {source : SyncedSource}
    (hid : source.id = s.source.id) (hconfig : source.config = s.source.config)
    (hcursor : ∀ m ∈ source.seen, m ∈ s.past)
    (hvouched : lastRun s i = true → vouched s source.seen = true) :
    Sound env { s.move i { r with phase := .ended } with source := source } := by
  have hfiles : System.files
      { s.move i { r with phase := .ended } with source := source }
      = s.files := by
    show filesOf source.config s.root = filesOf s.source.config s.root
    rw [hconfig]
  refine ⟨h.versions, hfiles ▸ h.keys, hfiles ▸ h.filesPast, hcursor,
    h.recordedPast, fun x hx => ?_, fun f hf => ?_, fun hquiet => ?_⟩
  · rcases List.mem_or_eq_of_mem_set hx with hx | rfl
    · have hold := h.runs x hx
      refine ⟨hold.cursor, hold.found, ?_, ?_⟩
      · rw [hfiles]
        exact hold.pending
      · rw [hid]
        exact hold.known
    · exact ⟨hr.cursor, hr.found, nofun, nofun⟩
  · rw [hfiles] at hf
    rw [hid]
    exact h.held f hf
  · rw [vouched_iff, hfiles]
    exact vouched_iff.1 (hvouched (quiet_of_set hquiet))

theorem Sound.runStep (h : Sound env s) (hi : s.runs[i]? = some r)
    {a : Action} (ha : a.run = some i)
    (hstep : SyncRuns.runStep env s i r a = some s')
    (hc : endsVouched s a = true) : Sound env s' := by
  have hrun := h.runs r (List.mem_of_getElem? hi)
  cases a with
  | write root => cases ha
  | start full => cases ha
  | look j key =>
    simp only [SyncRuns.runStep] at hstep
    split at hstep
    case h_1 f hphase hfile =>
      cases hstep
      refine h.move hi (by rw [Run.isEnded, hphase]) ⟨hrun.cursor, ?_, ?_, ?_⟩
      · intro g hg
        rcases List.mem_append.1 hg with hg | hg
        · exact hrun.found g hg
        · rw [List.mem_singleton.1 hg]
          exact h.filesPast f (file_some hfile).1
      · exact hrun.pending
      · exact hrun.known
    case h_2 => cases hstep
  | walked j =>
    simp only [SyncRuns.runStep] at hstep
    split at hstep
    case h_1 =>
      cases hstep
      exact h.move hi rfl ⟨hrun.cursor, hrun.found, nofun, nofun⟩
    case h_2 => cases hstep
  | observe j other fails =>
    cases ha
    exact h.observe hi hstep
  | ingest j fails now =>
    simp only [SyncRuns.runStep] at hstep
    split at hstep
    case h_1 item fingerprint hphase =>
      split at hstep
      case isTrue =>
        cases hstep
        exact h.move hi rfl ⟨hrun.cursor, hrun.found, nofun, nofun⟩
      case isFalse =>
        cases hstep
        exact h.record hi now hphase
    case h_2 => cases hstep
  | detect j =>
    simp only [SyncRuns.runStep] at hstep
    split at hstep
    case h_1 =>
      split at hstep
      case isTrue =>
        cases hstep
        refine h.move hi rfl ⟨hrun.cursor, hrun.found, nofun, ?_⟩
        intro known missing hphase
        cases hphase
        exact known_of h.versions s.source.id
      case isFalse => cases hstep
    case h_2 => cases hstep
  | tombstone j now =>
    simp only [SyncRuns.runStep] at hstep
    split at hstep
    case h_1 known key missing hphase =>
      cases hstep
      exact h.tombstone hi now hphase
    case h_2 => cases hstep
  | finish j now =>
    cases ha
    simp only [SyncRuns.runStep] at hstep
    split at hstep
    case isTrue =>
      cases hstep
      refine h.leave hrun rfl rfl hrun.saved fun hlast => ?_
      simp only [endsVouched, hlast, hi, Bool.not_true, Bool.false_or,
        Option.all_some] at hc
      exact hc
    case isFalse => cases hstep
  | stop j =>
    cases ha
    simp only [SyncRuns.runStep] at hstep
    split at hstep
    case isTrue => cases hstep
    case isFalse =>
      cases hstep
      refine h.leave hrun rfl rfl h.cursorPast fun hlast => ?_
      simp only [endsVouched, hlast, Bool.not_true, Bool.false_or] at hc
      exact hc

theorem Sound.step (h : Sound env s) {a : Action}
    (hstep : SyncRuns.step env s a = some s') (hnew : newWrites s a = true)
    (hc : endsVouched s a = true) : Sound env s' := by
  unfold SyncRuns.step at hstep
  split at hstep
  case h_1 root =>
    simp only at hstep
    split at hstep
    case isTrue hwritten =>
      cases hstep
      exact h.write hwritten hnew
    case isFalse => cases hstep
  case h_2 full =>
    split at hstep
    case isTrue =>
      cases hstep
      refine ⟨h.versions, h.keys, h.filesPast, h.cursorPast, h.recordedPast,
        fun x hx => ?_, h.held, fun hquiet => ?_⟩
      · rcases List.mem_append.1 hx with hx | hx
        · have hold := h.runs x hx
          exact ⟨hold.cursor, hold.found, hold.pending, hold.known⟩
        · rw [List.mem_singleton.1 hx]
          exact ⟨h.cursorPast, nofun, nofun, nofun⟩
      · -- the new run is in progress
        have hended := hquiet _ (List.mem_append_right _ List.mem_cons_self)
        cases hended
    case isFalse => cases hstep
  case h_3 =>
    obtain ⟨i, hi, hrest⟩ := Option.bind_eq_some_iff.1 hstep
    obtain ⟨r, hr, hown⟩ := Option.bind_eq_some_iff.1 hrest
    exact h.runStep hr hi hown hc

/-- **An incremental sync misses no change.** Whatever is written, whatever
fails, and however runs of the source overlap or follow one another: if no
write gives a file a modification time and a size it has had, and the last
run in progress always leaves a cursor that vouches only for what is
recorded, then a run that nothing overlaps or fails in leaves the current
version of every file at the file's bytes, and so just what a full sync from
an empty cursor would leave. -/
theorem sync_misses_nothing (env : Env) (id : Id) (config : SourceConfig)
    {acts : List Action} {s : System} {evs : List Unit}
    (hnew : (machine env).EveryStep (fun s a => newWrites s a = true)
      (init id config) acts)
    (hends : (machine env).EveryStep (fun s a => endsVouched s a = true)
      (init id config) acts)
    (hrun : (machine env).run (init id config) acts = some (s, evs))
    (hquiet : Quiet s) {clock : Clock} {full : Bool}
    {out : Store × SyncedSource × SyncReport}
    (hcall : call env clock s.store s.source s.root full = .ok out)
    (hread : ∀ f ∈ s.files, f.bytes.isSome = true)
    (herrors : out.2.2.errors = 0) :
    Agrees env s out.1.db ∧ ∀ clock' out',
      call env clock' s.store { s.source with seen := [] } s.root true
        = .ok out' →
      out'.2.2.errors = 0 → ∀ f ∈ s.files,
        currentContent s out.1.db f.externalKey
          = currentContent s out'.1.db f.externalKey := by
  have hsound : Sound env s := by
    have hinv : (machine env).Always (Sound env) (init id config) acts := by
      refine Lib.Machine.always_of_everyStep (fun s a s' es h hstep hc => ?_)
        (sound_init id config) (hnew.and hends)
      obtain ⟨t, ht, heq⟩ := Option.map_eq_some_iff.1 hstep
      cases heq
      exact h.step ht hc.1 hc.2
    exact hinv.last hrun
  have hvouched := vouched_iff.1 (hsound.quiet hquiet)
  have hagrees : Agrees env s out.1.db :=
    call_held env clock s.source full hsound.keys hsound.versions hcall hread
      herrors fun f hf data hdata _ hseen =>
        hsound.held f hf (hvouched f hf hseen) data hdata
  refine ⟨hagrees, fun clock' out' hcall' herrors' f hf => ?_⟩
  obtain ⟨data, hdata⟩ := Option.isSome_iff_exists.1 (hread f hf)
  obtain ⟨m, hm, hlive, hhash⟩ := hagrees f hf data hdata
  obtain ⟨m', hm', hlive', hhash'⟩ := call_held env clock'
    { s.source with seen := [] } true hsound.keys hsound.versions hcall' hread
    herrors' (fun _ _ _ _ => nofun) f hf data hdata
  unfold currentContent
  rw [hm, hm', Option.map_some, Option.map_some, hlive, hlive', hhash, hhash']

-- ------ example two runs at once

/-- Content under its own bytes. -/
def byBytes : Env where
  digest data := String.ofList (data.map fun b => Char.ofNat b.toNat)
  guessType _ := none

/-- A note, written at a time. -/
def noteAt (time : Int) (byte : UInt8) : Root where
  entries := .file "a.md"
    { stat := some ⟨time, time, 1⟩, bytes := some [byte] } .nil

/-- A run comes to the note and reads it. -/
def reads (i : Nat) : List Action :=
  [.start false, .look i "a.md", .walked i, .observe i none false]

/-- The run that read the older bytes records them last, and the one that
read the newer saves its cursor last. -/
def crossed : List Action :=
  .write (noteAt 1 65) :: reads 0 ++ .write (noteAt 2 66) :: reads 1
    ++ [.ingest 1 false 1, .ingest 0 false 2, .finish 0 3, .finish 1 4]

/-- One run after another, with a write and a failure in between. -/
def apart : List Action :=
  .write (noteAt 1 65) :: reads 0 ++ [.ingest 0 false 1, .finish 0 2]
    ++ .write (noteAt 2 66) :: reads 1 ++ [.ingest 1 true 3, .finish 1 4]

/-- The configuration of the note's source. -/
def notesConfig : SourceConfig := { root := "notes" }

/-- When the run after some others comes. -/
def later : Clock := ⟨fun _ => 9, fun _ => 9, 9⟩

/-- Whether that run, with nothing failing, leaves a file's current version
at other bytes. -/
def astray (s : System) (out : Store × SyncedSource × SyncReport) : Bool :=
  decide (out.2.2.errors = 0) && s.files.all (·.bytes.isSome)
    && s.files.any fun f => f.bytes.any fun data =>
      (currentRow out.1.db s.source.id f.externalKey).all fun m =>
        decide (m.contentHash ≠ byBytes.digest data)

theorem not_agrees_of_astray {s : System}
    {out : Store × SyncedSource × SyncReport} (h : astray s out = true) :
    (∀ f ∈ s.files, f.bytes.isSome = true) ∧ out.2.2.errors = 0
      ∧ ¬ Agrees byBytes s out.1.db := by
  unfold astray at h
  simp only [Bool.and_eq_true, decide_eq_true_eq, List.all_eq_true,
    List.any_eq_true, Option.any_eq_true] at h
  obtain ⟨⟨herrors, hread⟩, f, hf, data, hdata, hother⟩ := h
  refine ⟨hread, herrors, fun hagrees => ?_⟩
  obtain ⟨m, hm, -, hhash⟩ := hagrees f hf data hdata
  rw [hm, Option.all_some, decide_eq_true_eq] at hother
  exact hother hhash

/-- So an incremental sync may miss a change for good. -/
theorem sync_misses_change :
    ¬ ∀ (env : Env) (id : Id) (config : SourceConfig) (acts : List Action)
      (s : System) (evs : List Unit),
      (machine env).EveryStep (fun s a => newWrites s a = true)
        (init id config) acts →
      (machine env).run (init id config) acts = some (s, evs) → Quiet s →
      ∀ (clock : Clock) (full : Bool)
        (out : Store × SyncedSource × SyncReport),
        call env clock s.store s.source s.root full = .ok out →
        (∀ f ∈ s.files, f.bytes.isSome = true) → out.2.2.errors = 0 →
        Agrees env s out.1.db := by
  intro hall
  have hrun : ((machine byBytes).run (init 1 notesConfig) crossed).map
      (fun r => decide (Quiet r.1)
        && (call byBytes later r.1.store r.1.source r.1.root false
          ).toOption.any (astray r.1)) = some true := by decide +kernel
  obtain ⟨⟨s, evs⟩, hr, hends⟩ := Option.map_eq_some_iff.1 hrun
  obtain ⟨hquiet, hany⟩ := Bool.and_eq_true_iff.1 hends
  obtain ⟨out, hout, hastray⟩ := Option.any_eq_true _ _ |>.1 hany
  obtain ⟨hread, herrors, hno⟩ := not_agrees_of_astray hastray
  exact hno (hall byBytes 1 notesConfig crossed s evs (by decide +kernel) hr
    (of_decide_eq_true hquiet) later false out (Lib.ok_of_toOption hout) hread
    herrors)

/-- Runs that come one after another, with a write and a failed item, leave
the next one at the files' bytes. -/
theorem sync_misses_nothing_apart :
    ∃ s evs out, (machine byBytes).run (init 1 notesConfig) apart
        = some (s, evs)
      ∧ call byBytes later s.store s.source s.root false = .ok out
      ∧ s.files ≠ [] ∧ Agrees byBytes s out.1.db := by
  have hrun : ((machine byBytes).run (init 1 notesConfig) apart).map
      (fun r => decide (Quiet r.1)
        && ((call byBytes later r.1.store r.1.source r.1.root false
          ).toOption.any fun out => decide (out.2.2.errors = 0)
            && r.1.files.all (·.bytes.isSome) && !r.1.files.isEmpty))
      = some true := by decide +kernel
  obtain ⟨⟨s, evs⟩, hr, hends⟩ := Option.map_eq_some_iff.1 hrun
  obtain ⟨hquiet, hany⟩ := Bool.and_eq_true_iff.1 hends
  obtain ⟨out, hout, hfine⟩ := Option.any_eq_true _ _ |>.1 hany
  simp only [Bool.and_eq_true, decide_eq_true_eq, List.all_eq_true,
    Bool.not_eq_true'] at hfine
  obtain ⟨⟨herrors, hread⟩, hsome⟩ := hfine
  have hcall := Lib.ok_of_toOption hout
  refine ⟨s, evs, out, hr, hcall, ?_,
    (sync_misses_nothing byBytes 1 notesConfig (by decide +kernel)
      (by decide +kernel) hr (of_decide_eq_true hquiet) hcall hread
      herrors).1⟩
  rintro hnil
  rw [hnil] at hsome
  cases hsome

end MemoryOS.SyncRuns
