/-
What the kept summaries say, while the corpus goes on.

A row is as good as the texts it was generated from. Recording an item
leaves every version the text it has, and normalizing one changes that
version's alone (`Keeps`, `normalize_text`). So a row goes stale in two
ways: one of its versions gets another text, or it is stored after that.
-/
import MemoryOS.Corpus.Proofs.Recorded
import MemoryOS.Evolution.Summaries
import MemoryOS.Pipeline.Proofs.Chunks

namespace MemoryOS.Evolution

open Lib

-- ====== what a version keeps

/-- Every version is still there under the name it had, and those of `same`
with the text they had. -/
def Keeps (same : Id → Prop) (db db' : Db) : Prop :=
  ∀ id m, db.memory id = some m → ∃ m', db'.memory id = some m'
    ∧ m'.sourceId = m.sourceId ∧ m'.externalKey = m.externalKey
    ∧ m'.version = m.version ∧ (same id → m'.content = m.content)

variable {diff : VersionDiff} {k : Kept} {summaries : List Kept}

theorem Keeps.refl (same : Id → Prop) (db : Db) : Keeps same db db :=
  fun _ m hm => ⟨m, hm, rfl, rfl, rfl, fun _ => rfl⟩

theorem Keeps.trans {same : Id → Prop} {a b c : Db} (h : Keeps same a b)
    (h' : Keeps same b c) : Keeps same a c := by
  intro id m hm
  obtain ⟨m₁, hm₁, hsource, hkey, hversion, htext⟩ := h id m hm
  obtain ⟨m₂, hm₂, hsource', hkey', hversion', htext'⟩ := h' id m₁ hm₁
  exact ⟨m₂, hm₂, hsource'.trans hsource, hkey'.trans hkey,
    hversion'.trans hversion, fun hid => (htext' hid).trans (htext hid)⟩

theorem Keeps.names {same : Id → Prop} {a b : Db} (h : Keeps same a b) :
    Keeps (fun _ => False) a b := by
  intro id m hm
  obtain ⟨m', hm', hsource, hkey, hversion, -⟩ := h id m hm
  exact ⟨m', hm', hsource, hkey, hversion, False.elim⟩

variable {db db' : Db} {same : Id → Prop} {id : Id}

theorem Keeps.text (h : Keeps same db db') (hid : same id)
    (hsome : (db.memory id).isSome = true) :
    textNow db' id = textNow db id := by
  obtain ⟨m, hm⟩ := Option.isSome_iff_exists.1 hsome
  obtain ⟨m', hm', -, -, -, htext⟩ := h id m hm
  unfold textNow textOf
  rw [hm, hm', Option.map_some, Option.map_some, htext hid]

theorem Keeps.isSome (h : Keeps same db db')
    (hsome : (db.memory id).isSome = true) : (db'.memory id).isSome = true := by
  obtain ⟨m, hm⟩ := Option.isSome_iff_exists.1 hsome
  obtain ⟨m', hm', -⟩ := h id m hm
  exact Option.isSome_iff_exists.2 ⟨m', hm'⟩

theorem memory_id {m : Memory} (hm : db.memory id = some m) : m.id = id := by
  have hp := List.find?_some hm
  exact of_decide_eq_true hp

theorem Keeps.read (h : Keeps same db db')
    (hsome : (db.memory id).isSome = true)
    (htext : textNow db id = textNow db' id) :
    (db'.memory id).map read = (db.memory id).map read := by
  obtain ⟨m, hm⟩ := Option.isSome_iff_exists.1 hsome
  obtain ⟨m', hm', hsource, hkey, hversion, -⟩ := h id m hm
  have hid := memory_id hm
  have hid' := memory_id hm'
  unfold textNow at htext
  rw [hm, hm'] at htext
  rw [hm, hm']
  simp only [Option.map_some, Option.getD_some] at htext ⊢
  unfold Evolution.read
  rw [hsource, hkey, hversion, hid, hid', htext]

theorem Keeps.rows {f : Memory → Memory} (more : List Memory)
    (hf : ∀ m, (f m).id = m.id ∧ (f m).sourceId = m.sourceId
      ∧ (f m).externalKey = m.externalKey ∧ (f m).version = m.version
      ∧ (same m.id → (f m).content = m.content))
    (hrows : db'.memories = db.memories.map f ++ more) :
    Keeps same db db' := by
  intro id m hm
  have hid := memory_id hm
  have hfound : (db.memories.map f).find? (fun x => decide (x.id = id))
      = some (f m) := by
    unfold Db.memory at hm
    rw [List.find?_map]
    have hp : ((fun x : Memory => decide (x.id = id)) ∘ f)
        = fun x => decide (x.id = id) := by
      funext x
      exact congrArg (fun i => decide (i = id)) (hf x).1
    rw [hp, hm, Option.map_some]
  obtain ⟨-, hsource, hkey, hversion, htext⟩ := hf m
  refine ⟨f m, ?_, hsource, hkey, hversion, fun h => htext (hid ▸ h)⟩
  unfold Db.memory
  rw [hrows, List.find?_append, hfound, Option.some_or]

-- ====== the corpus

theorem addVersion_keeps (db : Db) (new : Memory) :
    Keeps (fun _ => True) db (addVersion db new) := by
  unfold addVersion
  split
  case h_1 =>
    exact Keeps.rows (f := fun m => m) _
      (fun m => ⟨rfl, rfl, rfl, rfl, fun _ => rfl⟩)
      (congrArg (· ++ _) (List.map_id' db.memories).symm)
  case h_2 c hc =>
    refine Keeps.rows _ (fun m => ?_) rfl
    split <;> exact ⟨rfl, rfl, rfl, rfl, fun _ => rfl⟩

theorem ingest_keeps (s : Store) (sourceId : Id) (item : ObservedItem)
    (now : Timestamp) (ports : Ports) :
    Keeps (fun _ => True) s.db
      (Live.step ports s (.ingest sourceId item now)).db := by
  simp only [Live.step]
  split
  case h_1 => exact .refl _ _
  case h_2 r hr =>
    obtain ⟨store, out⟩ := r
    obtain ⟨-, hs, -⟩ | ⟨-, artifacts, blobs, -, hs, -⟩ := ingestItem_cases hr
    · rw [hs]
      exact .refl _ _
    · rw [hs]
      obtain ⟨db₁, m, hrows, -, -, hadd, -⟩ := recordVersion_row
        { s.db with artifacts := artifacts } sourceId item now
      have hkeeps := addVersion_keeps db₁ m
      unfold Keeps Db.memory at hkeeps ⊢
      rw [hrows] at hkeeps
      rw [hadd]
      exact hkeeps

theorem normalize_keeps (s : Store) (ports : Ports) (memoryId : Id)
    (now : Timestamp) :
    Keeps (· ≠ memoryId) s.db
      (Live.step ports s (.normalize memoryId now)).db := by
  have hdocumented : ∀ (db' : Db) doc,
      db'.memories
        = (NormalizeMemory.documented s.db memoryId doc).memories →
      Keeps (· ≠ memoryId) s.db db' := by
    intro db' doc hrows
    refine Keeps.rows [] (fun m => ?_)
      (hrows.trans (List.append_nil _).symm)
    split
    case isTrue hid => exact ⟨rfl, rfl, rfl, rfl, fun hne => absurd hid hne⟩
    case isFalse => exact ⟨rfl, rfl, rfl, rfl, fun _ => rfl⟩
  simp only [Live.step]
  split
  case h_1 => exact .refl _ _
  case h_2 r hr =>
    obtain ⟨m, hm, ⟨hdb, -⟩ | ⟨-, doc, -, -, ⟨previous, -, -, -, hdb⟩ |
      ⟨-, hdb⟩⟩⟩ := NormalizeMemory.call_cases hr
    · rw [hdb]
      exact .refl _ _
    · refine hdocumented _ doc ?_
      rw [hdb, memory_id hm]
      rfl
    · refine hdocumented _ doc ?_
      rw [hdb, NormalizeMemory.store_memories, memory_id hm]

-- ====== the invariant

variable {lib : Difflib} {script : Script} {s s' : Service}

/-- A diff of versions that are still there. -/
structure Known (lib : Difflib) (db : Db) (made : Made) : Prop where
  diff : diffVersions lib made.source made.diff.before made.diff.after
    = .ok made.diff
  keeps : Keeps (fun _ => False) made.source db

/-- A row that says what its own caller was told. -/
structure Kept.Faithful (lib : Difflib) (db : Db) (k : Kept) : Prop where
  known : Known lib db k.made
  row : k.row = rowOf k.made.diff k.returned
  notTrivial : k.returned.grounding.trivial_ = false

/-- The diff a request is about. -/
def Call.made : Call → Option Made
  | .diffed made => some made
  | .asked _ _ made => some made
  | .answered => none

/-- What every undisturbed step keeps. -/
structure Sound (lib : Difflib) (s : Service) : Prop where
  rows : ∀ k ∈ s.summaries, k.Faithful lib s.store.db
  fresh : Fresh s
  calls : ∀ c ∈ s.calls, ∀ made, c.made = some made →
    Known lib s.store.db made

theorem sound_init (sources : List Source) : Sound lib (init sources) :=
  ⟨nofun, nofun, nofun⟩

theorem sameTexts_trans {a b c : Db}
    (h : sameTexts a b diff = true) (h' : sameTexts b c diff = true) :
    sameTexts a c diff = true := by
  simp only [sameTexts, Bool.and_eq_true, decide_eq_true_eq] at *
  exact ⟨h.1.trans h'.1, h.2.trans h'.2⟩

theorem Known.isSome {made : Made} (h : Known lib db made) :
    (db.memory made.diff.before).isSome = true
      ∧ (db.memory made.diff.after).isSome = true := by
  obtain ⟨-, -, hbefore, hafter⟩ := diffVersions_ok h.diff
  exact ⟨h.keeps.isSome hbefore, h.keeps.isSome hafter⟩

theorem Known.later {made : Made} (h : Known lib db made)
    (hkeeps : Keeps same db db') : Known lib db' made :=
  ⟨h.diff, h.keeps.trans hkeeps.names⟩

theorem Known.again {made : Made} (h : Known lib db made)
    (htexts : sameTexts made.source db made.diff = true) :
    diffVersions lib db made.diff.before made.diff.after = .ok made.diff := by
  obtain ⟨-, -, hbefore, hafter⟩ := diffVersions_ok h.diff
  simp only [sameTexts, Bool.and_eq_true, decide_eq_true_eq] at htexts
  rw [diffVersions_congr lib (h.keeps.read hbefore htexts.1)
    (h.keeps.read hafter htexts.2)]
  exact h.diff

theorem Sound.corpus (h : Sound lib s) {ports : Ports} {op : Live.Op}
    (hkeeps : Keeps same s.store.db (s.corpus ports op).store.db)
    (htexts : ∀ k ∈ s.summaries,
      sameTexts s.store.db (s.corpus ports op).store.db k.made.diff = true) :
    Sound lib (s.corpus ports op) := by
  refine ⟨fun k hk => ?_, fun k hk => ?_, fun c hc made hmade => ?_⟩
  · have hrow := h.rows k hk
    exact ⟨hrow.known.later hkeeps, hrow.row, hrow.notTrivial⟩
  · exact sameTexts_trans (h.fresh k hk) (htexts k hk)
  · exact (h.calls c hc made hmade).later hkeeps

theorem Sound.untouched (h : Sound lib s) (hkeeps : Keeps same s.store.db db) (hk : k ∈ s.summaries) (hbefore : same k.made.diff.before)
    (hafter : same k.made.diff.after) :
    sameTexts s.store.db db k.made.diff = true := by
  obtain ⟨hsome, hsome'⟩ := (h.rows k hk).known.isSome
  simp only [sameTexts, Bool.and_eq_true, decide_eq_true_eq]
  exact ⟨(hkeeps.text hbefore hsome).symm, (hkeeps.text hafter hsome').symm⟩

theorem Kept.Faithful.names (h : k.Faithful lib db) (id : Id) :
    k.names id = false
      ↔ k.made.diff.before ≠ id ∧ k.made.diff.after ≠ id := by
  unfold Kept.names
  rw [Bool.or_eq_false_iff, decide_eq_false_iff_not, decide_eq_false_iff_not,
    h.row]
  exact Iff.rfl

theorem Sound.normalize (h : Sound lib s) {ports : Ports} {memoryId : Id}
    {now : Timestamp}
    (hc : undisturbed s (.normalize ports memoryId now) = true) :
    Sound lib (s.corpus ports (.normalize memoryId now)) := by
  have hkeeps := normalize_keeps s.store ports memoryId now
  refine h.corpus hkeeps fun k hk => ?_
  rcases Bool.or_eq_true_iff.1 hc with hc | hc
  · -- the version keeps its text, so every version does
    have hall : ∀ id, (s.store.db.memory id).isSome = true →
        textNow s.store.db id
          = textNow (s.corpus ports (.normalize memoryId now)).store.db id := by
      intro id hsome
      by_cases hid : id = memoryId
      · rw [hid]
        exact (of_decide_eq_true hc).symm
      · exact (hkeeps.text hid hsome).symm
    obtain ⟨hsome, hsome'⟩ := (h.rows k hk).known.isSome
    simp only [sameTexts, Bool.and_eq_true, decide_eq_true_eq]
    exact ⟨hall _ hsome, hall _ hsome'⟩
  · obtain ⟨hbefore, hafter⟩ := ((h.rows k hk).names memoryId).1
      (by simpa using List.all_eq_true.1 hc k hk)
    exact h.untouched hkeeps hk hbefore hafter

-- ====== the requests

theorem Sound.move (h : Sound lib s) {i : Nat} {c : Call}
    (hc : ∀ made, c.made = some made →
      Known lib s.store.db made) : Sound lib (s.move i c) := by
  refine ⟨h.rows, h.fresh, fun c' hc' made hmade => ?_⟩
  rcases List.mem_or_eq_of_mem_set hc' with hin | rfl
  · exact h.calls c' hin made hmade
  · exact hc made hmade

theorem cached_some {version : String}
    (h : cached summaries diff version = some k) :
    k ∈ summaries ∧ k.row.key = (diff.before, diff.after, version) := by
  have hp := List.find?_some h
  exact ⟨List.mem_of_find?_eq_some h, of_decide_eq_true hp⟩

theorem Sound.served (h : Sound lib s) {version : String} (hk : cached s.summaries diff version = some k) :
    Current lib ⟨diff, k.row.served, some k, s.store.db⟩ k := by
  obtain ⟨hin, hkey⟩ := cached_some hk
  have hrow := h.rows k hin
  have hpair : k.made.diff.before = diff.before
      ∧ k.made.diff.after = diff.after := by
    rw [hrow.row] at hkey
    simp only [SummaryRow.key, rowOf, Prod.mk.injEq] at hkey
    exact ⟨hkey.1, hkey.2.1⟩
  have htexts := h.fresh k hin
  refine ⟨?_, ?_, ?_, ?_⟩
  · unfold sameTexts at htexts ⊢
    rw [← hpair.1, ← hpair.2]
    exact htexts
  · rw [← hpair.1, ← hpair.2]
    exact hrow.known.again htexts
  · show k.row.summary = k.returned.text
    rw [hrow.row]
    rfl
  · -- the row holds the unsupported terms; the rest of the verdict is theirs
    have hterms : k.row.unsupportedTerms = k.returned.grounding.unsupported := by
      rw [hrow.row]
      rfl
    simp only [SummaryRow.served, SummaryCheck.verdict, SummaryCheck.grounded,
      hterms, hrow.notTrivial]

theorem any_key_iff (summaries : List Kept) (diff : VersionDiff)
    (summary : ChangeSummary) :
    (summaries.any fun k => decide (k.row.key = (rowOf diff summary).key))
      = (cached summaries diff summary.summarizerVersion).isSome := by
  unfold cached
  rw [Bool.eq_iff_iff, List.find?_isSome, List.any_eq_true]
  exact Iff.rfl

theorem mem_storeSummary {kept : Kept}
    {replace : Bool} (h : k ∈ storeSummary summaries kept replace) :
    k ∈ summaries ∨ k = kept := by
  unfold storeSummary at h
  split at h
  case isTrue =>
    split at h
    case isTrue =>
      obtain ⟨k₀, hk₀, rfl⟩ := List.mem_map.1 h
      split
      case isTrue => exact .inr rfl
      case isFalse => exact .inl hk₀
    case isFalse => exact .inl h
  case isFalse => exact (List.mem_append.1 h).imp_right List.mem_singleton.1

theorem self_mem_storeSummary {kept : Kept}
    {replace : Bool}
    (h : replace = true ∨ (summaries.any fun k =>
      decide (k.row.key = kept.row.key)) = false) :
    kept ∈ storeSummary summaries kept replace := by
  unfold storeSummary
  split
  case isTrue hany =>
    rw [hany] at h
    rw [if_pos (h.resolve_right nofun)]
    obtain ⟨k, hk, hkey⟩ := List.any_eq_true.1 hany
    exact List.mem_map.2 ⟨k, hk, if_pos (of_decide_eq_true hkey)⟩
  case isFalse => exact List.mem_append_right _ (List.mem_singleton.2 rfl)

theorem Sound.reply (h : Sound lib s) {i : Nat} {text : Text} {z : Summarizer}
    {refresh : Bool} {made : Made} (script : Script)
    (hi : s.calls[i]? = some (.asked z refresh made))
    (hc : undisturbed s (.reply i text) = true) :
    Sound lib { s.move i .answered with
      summaries := storeSummary s.summaries
        ⟨rowOf made.diff (z.generated script made.diff text), made,
          z.generated script made.diff text⟩ refresh } := by
  have hmoved : Sound lib (s.move i .answered) := h.move nofun
  have hknown := h.calls _ (List.mem_of_getElem? hi) made rfl
  simp only [undisturbed, hi, Bool.or_eq_true, Bool.and_eq_true,
    Bool.not_eq_true'] at hc
  rcases hc with htexts | ⟨rfl, hsome⟩
  · refine ⟨fun k hk => ?_, fun k hk => ?_, hmoved.calls⟩
    · rcases mem_storeSummary hk with hk | rfl
      · exact h.rows k hk
      · exact ⟨hknown, rfl, rfl⟩
    · rcases mem_storeSummary hk with hk | rfl
      · exact h.fresh k hk
      · exact htexts
  · -- the row that is there stays
    have hsame : storeSummary s.summaries
        ⟨rowOf made.diff (z.generated script made.diff text), made,
          z.generated script made.diff text⟩ false = s.summaries := by
      unfold storeSummary
      rw [any_key_iff]
      exact if_pos hsome
    rw [hsame]
    exact hmoved

-- ====== the machine

theorem Sound.step (h : Sound lib s) {a : Action} {es : List Served}
    (hstep : Evolution.step lib script s a = some (s', es))
    (hc : undisturbed s a = true) :
    Sound lib s' ∧ ∀ e ∈ es, e.summary.cached = true →
      ∃ k, e.row = some k ∧ Current lib e k := by
  unfold Evolution.step at hstep
  split at hstep
  case h_1 hash data =>
    cases hstep
    exact ⟨h.corpus (.refl (fun _ => True) _) fun k hk =>
      h.untouched (.refl (fun _ => True) _) hk trivial trivial, nofun⟩
  case h_2 sourceId item now =>
    cases hstep
    have hkeeps := ingest_keeps s.store sourceId item now .plain
    exact ⟨h.corpus hkeeps fun k hk => h.untouched hkeeps hk trivial trivial,
      nofun⟩
  case h_3 ports memoryId now =>
    cases hstep
    exact ⟨h.normalize hc, nofun⟩
  case h_4 a b =>
    split at hstep
    case h_1 => cases hstep
    case h_2 diff hdiff =>
      cases hstep
      obtain ⟨ha, hb, -⟩ := diffVersions_ok hdiff
      refine ⟨⟨h.rows, h.fresh, fun c hc made hmade => ?_⟩, nofun⟩
      rcases List.mem_append.1 hc with hc | hc
      · exact h.calls c hc made hmade
      · rw [List.mem_singleton.1 hc] at hmade
        cases hmade
        rw [← ha, ← hb] at hdiff
        exact ⟨hdiff, .refl _ _⟩
  case h_5 i z refresh =>
    split at hstep
    case h_1 made hi =>
      have hknown := h.calls _ (List.mem_of_getElem? hi) made rfl
      split at hstep
      case isTrue =>
        cases hstep
        refine ⟨h.move nofun, fun e he hcached => ?_⟩
        rw [List.mem_singleton.1 he] at hcached
        cases hcached
      case isFalse =>
        have hlook := Option.some.inj hstep
        unfold Service.look at hlook
        split at hlook
        case h_1 k hk =>
          cases hlook
          refine ⟨h.move nofun, fun e he _ => ?_⟩
          rw [List.mem_singleton.1 he]
          split at hk
          case isTrue => cases hk
          case isFalse => exact ⟨k, rfl, h.served hk⟩
        case h_2 =>
          cases hlook
          refine ⟨h.move fun made' hmade => ?_, nofun⟩
          cases hmade
          exact hknown
    case h_2 => cases hstep
  case h_6 i text =>
    split at hstep
    case h_1 z refresh made hi =>
      cases hstep
      refine ⟨h.reply script hi hc, fun e he hcached => ?_⟩
      rw [List.mem_singleton.1 he] at hcached
      cases hcached
    case h_2 => cases hstep

theorem Sound.undisturbed (h : Sound lib s) {a : Action} {es : List Served}
    (hstep : Evolution.step lib script s a = some (s', es)) (h' : Fresh s') :
    undisturbed s a = true := by
  cases a with
  | upload | ingest | diff | summarize => rfl
  | normalize ports memoryId now =>
    cases hstep
    by_contra hno
    simp only [undisturbed, Bool.or_eq_true, not_or] at hno
    obtain ⟨hchanged, hnamed⟩ := hno
    refine hnamed (List.all_eq_true.2 fun k hk => ?_)
    rw [Bool.not_eq_true']
    rw [(h.rows k hk).names]
    have hold := h.fresh k hk
    have hnew := h' k hk
    simp only [sameTexts, Bool.and_eq_true, decide_eq_true_eq] at hold hnew
    constructor
    · rintro rfl
      exact hchanged (decide_eq_true (hnew.1.symm.trans hold.1))
    · rintro rfl
      exact hchanged (decide_eq_true (hnew.2.symm.trans hold.2))
  | reply i text =>
    simp only [Evolution.step] at hstep
    unfold Evolution.undisturbed
    split at hstep
    case h_1 z refresh made hi =>
      simp only [Option.some.injEq, Prod.mk.injEq] at hstep
      obtain ⟨rfl, -⟩ := hstep
      simp only [hi, Bool.or_eq_true, Bool.and_eq_true, Bool.not_eq_true']
      by_cases hstays : refresh = false
          ∧ (cached s.summaries made.diff z.version).isSome = true
      · exact .inr hstays
      · refine .inl (h' _ (self_mem_storeSummary ?_))
        rw [any_key_iff]
        cases refresh with
        | true => exact .inl rfl
        | false =>
          have hnone := (not_and.1 hstays) rfl
          exact .inr (Bool.eq_false_iff.2 hnone)
    case h_2 => cases hstep

theorem summaries_fresh_iff (lib : Difflib) (script : Script)
    (sources : List Source) (acts : List Action) :
    (machine lib script).Always Fresh (init sources) acts
      ↔ (machine lib script).EveryStep (fun s a => undisturbed s a = true)
        (init sources) acts :=
  Machine.always_iff_everyStep (Sound lib) (fun _ h => h.fresh)
    (fun _ _ _ _ h hstep hc => (h.step hstep hc).1)
    (fun _ _ _ _ h hstep h' => h.undisturbed hstep h') (sound_init sources)

/-- **A cached change summary is of the texts it is served for.** In a run of
undisturbed steps, whatever is ingested, normalized and summarized in
between, a summary read from the table was generated from the diff of the
texts its two versions have when it is served, and is served with the
verdict its own caller was given. -/
theorem cached_summaries_current (lib : Difflib) (script : Script)
    (sources : List Source) {acts : List Action} {s' : Service}
    {evs : List Served}
    (hsteps : (machine lib script).EveryStep (fun s a => undisturbed s a = true)
        (init sources) acts)
    (hrun : (machine lib script).run (init sources) acts = some (s', evs)) :
    ∀ e ∈ evs, e.summary.cached = true →
      ∃ k, e.row = some k ∧ Current lib e k :=
  Machine.events_of_everyStep (Sound lib)
    (fun _ _ _ _ h hstep hc => h.step hstep hc) (sound_init sources) hsteps hrun

-- ------ example a kept summary

/-- `difflib` on two texts that share no line: everything of the one was
replaced by everything of the other. -/
def Difflib.whole : Difflib where
  opcodes a b :=
    if a = b then [⟨.equal, 0, a.length, 0, b.length⟩]
    else if a.isEmpty then [⟨.insert, 0, 0, 0, b.length⟩]
    else if b.isEmpty then [⟨.delete, 0, a.length, 0, 0⟩]
    else [⟨.replace, 0, a.length, 0, b.length⟩]
  unifiedDiff a b aLabel bLabel _ :=
    let range := fun n => if n = 1 then "1".toList
      else if n = 0 then "0,0".toList else ("1," ++ toString n).toList
    if a = b then []
    else ["--- ".toList ++ aLabel ++ ['\n'], "+++ ".toList ++ bLabel ++ ['\n'],
      "@@ -".toList ++ range a.length ++ " +".toList ++ range b.length
        ++ " @@\n".toList] ++ a.map ('-' :: ·) ++ b.map ('+' :: ·)

/-- Two versions of a note, `a` and then `b`. -/
def twoVersions : List Action := [
  .ingest 1 (Live.note "n.md" "a" [97]) 1,
  .ingest 1 (Live.note "n.md" "b" [98]) 2]

/-- A request for what changed between them, the `i`-th. -/
def request (i : Nat) : List Action :=
  [.diff 1 4, .summarize i { modelId := "m" } false]

/-- The later version is summarized before it has a text, and normalized
then. -/
def tooEarly : List Action :=
  twoVersions ++ [.normalize .plain 1 3] ++ request 0
    ++ [.reply 0 "Everything was removed.".toList, .normalize .plain 4 4]
    ++ request 1

/-- Both versions have their texts first. -/
def inTime : List Action :=
  twoVersions ++ [.normalize .plain 1 3, .normalize .plain 4 4] ++ request 0
    ++ [.reply 0 "The line was replaced.".toList] ++ request 1

/-- The note's source. -/
def vault : List Source := [⟨1, .filesystem, "vault"⟩]

/-- So a summary may be served of texts the versions no longer have. -/
theorem cached_summaries_not_current :
    ¬ ∀ (lib : Difflib) (script : Script) (sources : List Source)
      (acts : List Action) (s' : Service) (evs : List Served),
      (machine lib script).run (init sources) acts = some (s', evs) →
      ∀ e ∈ evs, e.summary.cached = true →
        ∃ k, e.row = some k ∧ Current lib e k := by
  intro hall
  have hrun : ((machine .whole .ascii).run (init vault) tooEarly).map
      (fun r => r.2.any Served.stale) = some true := by decide +kernel
  obtain ⟨⟨s', evs⟩, hr, hstale⟩ := Option.map_eq_some_iff.1 hrun
  obtain ⟨e, he, hs⟩ := List.any_eq_true.1 hstale
  obtain ⟨hcached, hrow⟩ := Bool.and_eq_true_iff.1 hs
  obtain ⟨k, hk, hcurrent⟩ := hall _ _ _ _ _ _ hr e he hcached
  rw [hk, Option.any_some, hcurrent.texts] at hrow
  cases hrow

/-- Summaries asked for once both versions have their texts are current. -/
theorem cached_summaries_current_inTime :
    ∃ s' evs, (machine .whole .ascii).run (init vault) inTime = some (s', evs)
      ∧ (∃ e ∈ evs, e.summary.cached = true)
      ∧ ∀ e ∈ evs, e.summary.cached = true →
        ∃ k, e.row = some k ∧ Current .whole e k := by
  have hrun : ((machine .whole .ascii).run (init vault) inTime).map
      (fun r => r.2.any (·.summary.cached)) = some true := by decide +kernel
  obtain ⟨⟨s', evs⟩, hr, hcached⟩ := Option.map_eq_some_iff.1 hrun
  exact ⟨s', evs, hr, List.any_eq_true.1 hcached,
    cached_summaries_current .whole .ascii vault (by decide +kernel) hr⟩

end MemoryOS.Evolution
