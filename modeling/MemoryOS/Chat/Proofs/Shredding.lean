/-
What becomes of the bytes, whoever is at work.

Bytes are there from the moment they are staged: a writer finds what it
staged and leaves the blob store alone, and only `shred` takes bytes away.
So nothing is lost exactly when nothing is shredded that somebody wants.
-/
import MemoryOS.Chat.Shredding
import MemoryOS.Chat.Proofs.Steps
import MemoryOS.Corpus.Proofs.Bytes

namespace MemoryOS.Shredding

open Chat Uploads
open Filesystem (Found Fingerprint observeFile)

variable {ports : ChatPorts} {guessType : String → Option String}
  {s s' : System} {store store' : Store}

-- ====== the blob store

variable {hash : ContentHash} {now clock : Timestamp} {blobs : Blobs}
  {sourceId : Id}

theorem holds_of_get {data : Bytes}
    (h : blobs.get hash = some data) : blobs.holds hash = true := by
  unfold Blobs.get at h
  obtain ⟨b, hb, -⟩ := Option.map_eq_some_iff.1 h
  have hkey := List.find?_some hb
  exact Blobs.holds_iff.2
    ⟨b, List.mem_of_find?_eq_some hb, of_decide_eq_true hkey⟩

/-- Every blob lies under its own digest. -/
def Hashed (ports : ChatPorts) (blobs : Blobs) : Prop :=
  ∀ b ∈ blobs, ports.digest b.2 = b.1

theorem Hashed.put (h : Hashed ports blobs) (data : Bytes) :
    Hashed ports (blobs.put (ports.digest data) data) := by
  unfold Blobs.put
  split
  case isTrue => exact h
  case isFalse =>
    intro b hb
    rcases List.mem_append.1 hb with hb | hb
    · exact h b hb
    · rw [List.mem_singleton.1 hb]

theorem Hashed.complete_iff (h : Hashed ports blobs)
    (hash : ContentHash) :
    Complete ports blobs hash ↔ blobs.holds hash = true := by
  constructor
  · rintro ⟨data, hget, -⟩
    exact holds_of_get hget
  · rw [Blobs.holds_iff]
    unfold Complete Blobs.get
    rintro ⟨b, hb, rfl⟩
    have hfound : (blobs.find? fun c => decide (c.1 = b.1)).isSome = true :=
      List.find?_isSome.2 ⟨b, hb, decide_eq_true rfl⟩
    obtain ⟨c, hc⟩ := Option.isSome_iff_exists.1 hfound
    have hkey := List.find?_some hc
    refine ⟨c.2, by rw [hc, Option.map_some], ?_⟩
    rw [h c (List.mem_of_find?_eq_some hc)]
    exact of_decide_eq_true hkey

theorem not_holds_delete (blobs : Blobs) (hash : ContentHash) :
    (blobs.delete hash).holds hash = false := by
  rw [← Bool.not_eq_true]
  intro h
  have hno := (@Blobs.holds_foldl_delete blobs [hash] hash).1 h
  exact hno.2 (List.mem_singleton.2 rfl)

theorem holds_delete {x : ContentHash}
    (h : blobs.holds x = true) (hne : x ≠ hash) :
    (blobs.delete hash).holds x = true :=
  (@Blobs.holds_foldl_delete blobs [hash] x).2
    ⟨h, fun hin => hne (List.mem_singleton.1 hin)⟩

-- ====== transactions

/-- Recording what is staged leaves the blob store alone, and every memory
its bytes. -/
structure Keeps (store store' : Store) : Prop where
  blobs : store'.blobs = store.blobs
  bytes : HasBytes store → HasBytes store'

theorem Keeps.refl (store : Store) : Keeps store store := ⟨rfl, id⟩

theorem Keeps.trans {a b c : Store} (h : Keeps a b) (h' : Keeps b c) :
    Keeps a c :=
  ⟨h'.blobs.trans h.blobs, fun ha => h'.bytes (h.bytes ha)⟩

theorem Keeps.db {db : Db} (h : db.memories = store.db.memories) :
    Keeps store { store with db := db } := by
  refine ⟨rfl, fun hb m hm => hb m ?_⟩
  rw [← h]
  exact hm

theorem ingestItem_keeps {item : ObservedItem} {out : Option Ingested}
    (hheld : store.blobs.holds item.contentHash = true)
    (hin : ingestItem store sourceId item now = .ok (store', out)) :
    Keeps store store' := by
  cases out with
  | none =>
    obtain ⟨-, rfl, -⟩ | ⟨-, _, _, -, -, hout⟩ := ingestItem_cases hin
    · exact .refl store'
    · cases hout
  | some out =>
    refine ⟨?_, fun h => ingestItem_hasBytes h hin fun _ => hheld⟩
    obtain ⟨-, -, hout⟩ | ⟨-, artifacts, blobs, hblobs, rfl, -⟩ :=
      ingestItem_cases hin
    · cases hout
    · rcases hblobs with rfl | ⟨data, rfl⟩
      · rfl
      · exact if_pos hheld

theorem recordAll_keeps {staged : List Staged} {files : List Stored}
    (hheld : ∀ x ∈ staged, store.blobs.holds x.2.1 = true)
    (h : recordAll ports store sourceId now clock staged
      = .ok (store', files)) : Keeps store store' := by
  induction staged generalizing store files with
  | nil =>
    cases h
    exact .refl store'
  | cons x rest ih =>
    obtain ⟨upload, hash, byteSize⟩ := x
    obtain ⟨hfirst, hrest⟩ := List.forall_mem_cons.1 hheld
    unfold recordAll at h
    split at h
    case h_1 => cases h
    case h_2 s₁ stored hone =>
      have hkeeps : Keeps store s₁ := by
        unfold record storeItem at hone
        simp only at hone
        split at hone
        case h_1 => cases hone
        case h_2 s₀ hstore =>
          cases hone
          split at hstore
          case h_1 => cases hstore
          case h_2 => cases hstore
          case h_3 out hin =>
            cases hstore
            refine Keeps.trans ?_ (ingestItem_keeps ?_ hin)
            · exact .db rfl
            · exact hfirst
      split at h
      case h_1 => cases h
      case h_2 s₂ more hmore =>
        cases h
        refine hkeeps.trans (ih (fun x hx => ?_) hmore)
        rw [hkeeps.blobs]
        exact hrest x hx

theorem attachTurn_keeps {staged : List Staged}
    {sessionId : Option Id} {newSession : Bool}
    {turn : ChatMessage}
    (hheld : ∀ x ∈ staged, store.blobs.holds x.2.1 = true)
    (h : attachTurn ports store sourceId staged [] .statement none sessionId
      newSession now clock = .ok (store', turn)) : Keeps store store' := by
  unfold attachTurn at h
  split at h
  case h_1 => cases h
  case h_2 db₁ record hsession =>
    have hopened : Keeps store { store with db := db₁ } :=
      .db (resolveSession_corpus hsession).1
    simp only [storeText] at h
    split at h
    case h_1 => cases h
    case h_2 s₃ files hrecorded =>
      have hfiles : Keeps { store with db := db₁ } s₃ :=
        recordAll_keeps (fun x hx => hheld x hx) hrecorded
      split at h
      case h_1 => cases h
      case h_2 db₄ hturn =>
        cases h
        exact (hopened.trans hfiles).trans (.db (addTurn_corpus hturn).1)

-- ====== the invariant

/-- Nothing is lost, and every blob lies under its digest. -/
structure Intact (ports : ChatPorts) (s : System) : Prop where
  hashed : Hashed ports s.store.blobs
  memories : HasBytes s.store
  staged : ∀ i ∈ s.ingestions, ∀ hash ∈ i.hashes,
    s.store.blobs.holds hash = true

theorem Intact.nothingLost (h : Intact ports s) : NothingLost ports s :=
  ⟨fun m hm => (h.hashed.complete_iff _).2 (h.memories m hm),
    fun i hi hash hin => (h.hashed.complete_iff _).2 (h.staged i hi hash hin)⟩

theorem intact_init (sources : List Source) : Intact ports (init sources) :=
  ⟨List.forall_mem_nil _, List.forall_mem_nil _, List.forall_mem_nil _⟩

theorem Intact.setPurge (h : Intact ports s) (k : Nat) (p : Purge) :
    Intact ports (s.setPurge k p) := ⟨h.hashed, h.memories, h.staged⟩

theorem Intact.setIngestion (h : Intact ports s) {i : Nat} {x : Ingestion}
    (hx : ∀ hash ∈ x.hashes, s.store.blobs.holds hash = true) :
    Intact ports (s.setIngestion i x) := by
  refine ⟨h.hashed, h.memories, fun y hy hash hin => ?_⟩
  rcases List.mem_or_eq_of_mem_set hy with hy | rfl
  · exact h.staged y hy hash hin
  · exact hx hash hin

theorem Intact.put (h : Intact ports s) (data : Bytes) :
    Intact ports
      (s.withBlobs (s.store.blobs.put (ports.digest data) data)) :=
  ⟨h.hashed.put data, fun m hm => Blobs.holds_put.2 (.inl (h.memories m hm)),
    fun i hi hash hin =>
      Blobs.holds_put.2 (.inl (h.staged i hi hash hin))⟩

theorem Intact.commit (h : Intact ports s) {r : Option Store}
    (hr : ∀ store, r = some store → Keeps s.store store) :
    Intact ports (s.commit r) := by
  cases r with
  | none => exact h
  | some store =>
    obtain ⟨hblobs, hbytes⟩ := hr store rfl
    refine ⟨?_, hbytes h.memories, ?_⟩
    · show Hashed ports store.blobs
      rw [hblobs]
      exact h.hashed
    · intro i hi hash hin
      show store.blobs.holds hash = true
      rw [hblobs]
      exact h.staged i hi hash hin

-- ====== the writers

theorem Intact.stage (h : Intact ports s) {i : Nat} {upload : Upload}
    (hstep : step ports guessType s (.stage i upload) = some s') :
    Intact ports s' := by
  have hput : Intact ports
      (s.withBlobs (Uploads.stage ports s.store.blobs upload).1) := by
    unfold Uploads.stage
    split
    case isTrue => exact h
    case isFalse =>
      split
      case isTrue => exact h
      case isFalse =>
        simp only
        split <;> exact h.put upload.data
  simp only [step] at hstep
  split at hstep
  case h_1 sourceId staged hi =>
    cases hstep
    refine hput.setIngestion fun hash hin => ?_
    split at hin
    case h_1 => cases hin
    case h_2 file hok =>
      simp only [Ingestion.hashes, List.map_append, List.mem_append,
        List.map_cons, List.map_nil, List.mem_singleton] at hin
      rcases hin with hin | rfl
      · exact hput.staged _ (List.mem_of_getElem? hi) hash hin
      · exact (stage_holds (Prod.ext rfl hok)).2.1
  case h_2 => cases hstep

theorem Intact.observe (h : Intact ports s) (sourceId : Id) (full : Bool)
    (seen : List (String × Fingerprint)) (found : Found) {s' : System}
    (hstep : step ports guessType s (.observe sourceId full seen found)
      = some s') : Intact ports s' := by
  simp only [step, Option.some.injEq] at hstep
  rw [← hstep]
  unfold observeFile
  split
  case isTrue =>
    exact ⟨h.hashed, h.memories, fun i hi =>
      h.staged i ((List.mem_append.1 hi).resolve_right nofun)⟩
  case isFalse =>
    split
    case h_1 =>
      exact ⟨h.hashed, h.memories, fun i hi =>
        h.staged i ((List.mem_append.1 hi).resolve_right nofun)⟩
    case h_2 data hdata =>
      have hput := h.put data
      refine ⟨hput.hashed, hput.memories, fun i hi hash hin => ?_⟩
      rcases List.mem_append.1 hi with hi | hi
      · exact hput.staged i hi hash hin
      · simp only [Option.toList_some, List.map_cons, List.map_nil,
          List.mem_singleton] at hi
        rw [hi] at hin
        rw [List.mem_singleton.1 hin]
        exact Blobs.holds_put.2 (.inr rfl)

-- ====== the purges

theorem Intact.removeRows (h : Intact ports s) {item : Item} {r : Db × List ContentHash}
    (hr : Deletion.purgeOne s.store.db item clock = .ok r) :
    Intact ports (s.withDb r.1) := by
  refine ⟨h.hashed, fun m hm => h.memories m ?_, h.staged⟩
  have hrows := purgeOne_memories hr
  change m ∈ r.1.memories at hm
  rw [hrows] at hm
  exact (List.mem_filter.1 hm).1

theorem Intact.delete (h : Intact ports s)
    (hunwanted : wanted s hash = false) :
    Intact ports (s.withBlobs (s.store.blobs.delete hash)) := by
  obtain ⟨hmemories, hstaged⟩ := Bool.or_eq_false_iff.1 hunwanted
  rw [List.any_eq_false] at hmemories hstaged
  refine ⟨fun b hb => h.hashed b (List.mem_filter.1 hb).1, fun m hm => ?_,
    fun i hi x hin => ?_⟩
  · refine holds_delete (h.memories m hm) fun heq => ?_
    exact hmemories m hm (decide_eq_true heq)
  · refine holds_delete (h.staged i hi x hin) fun heq => ?_
    exact hstaged i hi (decide_eq_true (heq ▸ hin))

theorem lost_of_delete (ports : ChatPorts)
    (hwanted : wanted s hash = true) :
    ¬ NothingLost ports (s.withBlobs (s.store.blobs.delete hash)) := by
  rintro ⟨hrecorded, hstaged⟩
  have hgone : ¬ Complete ports (s.store.blobs.delete hash) hash := by
    rintro ⟨data, hget, -⟩
    have hholds := holds_of_get hget
    rw [not_holds_delete] at hholds
    cases hholds
  rcases Bool.or_eq_true_iff.1 hwanted with hw | hw
  · obtain ⟨m, hm, heq⟩ := List.any_eq_true.1 hw
    exact hgone (of_decide_eq_true heq ▸ hrecorded m hm)
  · obtain ⟨i, hi, hin⟩ := List.any_eq_true.1 hw
    exact hgone (hstaged i hi hash (of_decide_eq_true hin))

-- ====== the machine

theorem Intact.step (h : Intact ports s) {a : Action}
    (hstep : Shredding.step ports guessType s a = some s')
    (hc : unwanted s a = true) : Intact ports s' := by
  cases a with
  | attach =>
    cases hstep
    refine ⟨h.hashed, fun m hm => h.memories m ?_, fun i hi hash hin => ?_⟩
    · have hrows := (ensureSource_corpus s.store.db .upload "uploads").1
      change m ∈ (ensureSource s.store.db .upload "uploads").1.memories at hm
      rw [hrows] at hm
      exact hm
    · rcases List.mem_append.1 hi with hi | hi
      · exact h.staged i hi hash hin
      · rw [List.mem_singleton.1 hi] at hin
        cases hin
  | stage i upload => exact h.stage hstep
  | recordTurn i sessionId newSession now clock =>
    unfold Shredding.step at hstep
    simp only at hstep
    split at hstep
    case h_1 sourceId staged hi =>
      cases hstep
      refine Intact.setIngestion (h.commit fun store hr => ?_) nofun
      obtain ⟨⟨_, turn⟩, hok, rfl⟩ := Lib.ok_of_toOption_map hr
      refine attachTurn_keeps (fun x hx => ?_) hok
      exact h.staged _ (List.mem_of_getElem? hi) _ (List.mem_map_of_mem hx)
    case h_2 => cases hstep
  | observe sourceId full seen found =>
    exact h.observe sourceId full seen found hstep
  | recordFile i clock =>
    unfold Shredding.step at hstep
    simp only at hstep
    split at hstep
    case h_1 sourceId item hi =>
      cases hstep
      refine Intact.setIngestion (h.commit fun store hr => ?_) nofun
      obtain ⟨⟨_, out⟩, hok, rfl⟩ := Lib.ok_of_toOption_map hr
      refine ingestItem_keeps ?_ hok
      exact h.staged _ (List.mem_of_getElem? hi) _ List.mem_cons_self
    case h_2 => cases hstep
  | abandon i =>
    cases hstep
    exact h.setIngestion nofun
  | purge items =>
    cases hstep
    exact ⟨h.hashed, h.memories, h.staged⟩
  | purgeOne k clock =>
    unfold Shredding.step at hstep
    simp only at hstep
    split at hstep
    case h_1 item left shred hk =>
      split at hstep
      case h_1 =>
        cases hstep
        exact h.setPurge k .ended
      case h_2 db hashes hdb =>
        cases hstep
        exact (h.removeRows hdb).setPurge k _
    case h_2 => cases hstep
  | ask k =>
    unfold Shredding.step at hstep
    simp only at hstep
    split at hstep
    case h_1 hash left hk =>
      cases hstep
      exact h.setPurge k _
    case h_2 => cases hstep
  | shred k raises =>
    unfold Shredding.step at hstep
    simp only at hstep
    split at hstep
    case h_1 hash left hk =>
      cases hstep
      refine Intact.setPurge ?_ k _
      cases raises with
      | true => exact h
      | false =>
        simp only [unwanted, hk, Bool.not_eq_true'] at hc
        exact h.delete hc
    case h_2 => cases hstep

theorem unwanted_of_nothingLost {a : Action}
    (hstep : Shredding.step ports guessType s a = some s')
    (h' : NothingLost ports s') : unwanted s a = true := by
  unfold unwanted
  split
  case h_1 k =>
    split
    case h_1 hash left hk =>
      simp only [Shredding.step, hk, Option.some.injEq] at hstep
      by_contra hno
      have hwanted : wanted s hash = true := by simpa using hno
      rw [← hstep] at h'
      exact lost_of_delete ports hwanted ⟨h'.1, h'.2⟩
    case h_2 => rfl
  case h_2 => rfl

theorem nothing_lost_iff (ports : ChatPorts)
    (guessType : String → Option String) (sources : List Source)
    (acts : List Action) :
    (machine ports guessType).Always (NothingLost ports) (init sources) acts
      ↔ (machine ports guessType).EveryStep (fun s a => unwanted s a = true)
        (init sources) acts := by
  refine Lib.Machine.always_iff_everyStep (Intact ports)
    (fun _ h => h.nothingLost) ?_ ?_ (intact_init sources)
  · intro s a s' es h hstep hc
    obtain ⟨t, ht, heq⟩ := Option.map_eq_some_iff.1 hstep
    cases heq
    exact h.step ht hc
  · intro s a s' es h hstep h'
    obtain ⟨t, ht, heq⟩ := Option.map_eq_some_iff.1 hstep
    cases heq
    exact unwanted_of_nothingLost ht h'

/-- **No upload loses its bytes to a purge.** Whatever is attached, synced
and purged at one time, and in whatever order its steps come: if no purge
deletes bytes that a memory has or that a writer has staged, then at every
point, and so once every call has finished, every memory that is recorded
and not purged has its complete bytes. -/
theorem uploads_keep_bytes (ports : ChatPorts)
    (guessType : String → Option String) (sources : List Source)
    {acts : List Action} {s' : System} {evs : List Unit}
    (hsteps : (machine ports guessType).EveryStep
      (fun s a => unwanted s a = true) (init sources) acts)
    (hrun : (machine ports guessType).run (init sources) acts
      = some (s', evs)) : Recorded ports s' :=
  (((nothing_lost_iff ports guessType sources acts).2 hsteps).last hrun).1

-- ------ example one content, shared

/-- The bytes are their own digest. -/
def plainPorts : ChatPorts where
  day _ := "2026-08-17"
  uuid _ := "0198"
  digest data := String.ofList (data.map fun b => Char.ofNat b.toNat)
  day_plain := fun _ => by decide
  uuid_plain := fun _ => by decide

/-- A file with one byte in it, under the note's key. -/
def noteFile : Found := ⟨"n.md", "n.md", ⟨1, 1, 1⟩, some [97]⟩

/-- The same byte, dropped into the chat. -/
def sameBytes : Upload := ⟨"copy.md".toList, none, [97]⟩

/-- A file is synced. Its bytes are attached to a turn too, and the file is
purged: nothing refers to the bytes when the purge asks. -/
def purgedMeanwhile : List Action := [
  .observe 1 false [] noteFile, .recordFile 0 1,
  .attach, .stage 1 sameBytes,
  .purge [⟨1, "n.md"⟩], .purgeOne 0 2, .ask 0]

/-- The turn is recorded before the bytes are deleted. -/
def overtaken : List Action :=
  purgedMeanwhile ++ [.recordTurn 1 none false 3 3, .shred 0 false]

/-- The turn begins after the bytes are deleted. -/
def inTurn : List Action := [
  .observe 1 false [] noteFile, .recordFile 0 1,
  .purge [⟨1, "n.md"⟩], .purgeOne 0 2, .ask 0, .shred 0 false,
  .attach, .stage 1 sameBytes, .recordTurn 1 none false 3 3]

/-- The files of the example's source. -/
def vault : List Source := [⟨1, .filesystem, "vault"⟩]

/-- So an upload may lose its bytes to a purge that asked before it was
recorded. -/
theorem uploads_lose_bytes :
    ¬ ∀ (ports : ChatPorts) (guessType : String → Option String)
      (sources : List Source) (acts : List Action) (s' : System)
      (evs : List Unit),
      (machine ports guessType).run (init sources) acts = some (s', evs) →
      Finished s' → Recorded ports s' := by
  intro hall
  have hrun : ((machine plainPorts fun _ => none).run (init vault)
      overtaken).map (fun r => decide (Finished r.1)
        && r.1.store.db.memories.any fun m =>
          !r.1.store.blobs.holds m.contentHash) = some true := by
    decide +kernel
  obtain ⟨⟨s', evs⟩, hr, hlost⟩ := Option.map_eq_some_iff.1 hrun
  obtain ⟨hfinished, hany⟩ := Bool.and_eq_true_iff.1 hlost
  obtain ⟨m, hm, hgone⟩ := List.any_eq_true.1 hany
  obtain ⟨data, hget, -⟩ :=
    hall _ _ _ _ _ _ hr (of_decide_eq_true hfinished) m hm
  rw [Bool.not_eq_true'] at hgone
  have hheld := holds_of_get hget
  rw [hgone] at hheld
  cases hheld

/-- Where the bytes are deleted first and staged again, nothing is lost. -/
theorem uploads_keep_bytes_inTurn :
    ∃ s' evs, (machine plainPorts fun _ => none).run (init vault) inTurn
        = some (s', evs)
      ∧ Finished s' ∧ s'.store.db.memories ≠ [] ∧ Recorded plainPorts s' := by
  have hrun : ((machine plainPorts fun _ => none).run (init vault)
      inTurn).map (fun r => decide (Finished r.1)
        && !r.1.store.db.memories.isEmpty) = some true := by decide +kernel
  obtain ⟨⟨s', evs⟩, hr, hends⟩ := Option.map_eq_some_iff.1 hrun
  obtain ⟨hfinished, hsome⟩ := Bool.and_eq_true_iff.1 hends
  refine ⟨s', evs, hr, of_decide_eq_true hfinished, ?_,
    uploads_keep_bytes plainPorts (fun _ => none) vault
      (by decide +kernel) hr⟩
  rintro hnil
  rw [hnil] at hsome
  cases hsome

end MemoryOS.Shredding
