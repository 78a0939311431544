/-
Whether every memory has its bytes.

Three stores meet here. An artifact's row is kept for ever, a memory's
until its item is purged, and the bytes until nothing refers to them. A
writer asks the first before it writes the third, so the bytes of content
that was shredded are not written again: a run keeps every memory's bytes
exactly when it observes no such content (`Supplied`).
-/
import MemoryOS.Corpus.Proofs.Live

namespace MemoryOS

/-- Every memory's content is in the blob store. -/
def HasBytes (s : Store) : Prop :=
  ∀ m ∈ s.db.memories, s.blobs.holds m.contentHash = true

namespace Live

/-- The content an operation returned an `Ingested` for. -/
def ingested (s : Store) : Op → Option ContentHash
  | .ingest sourceId item now =>
    match ingestItem s sourceId item now with
    | .ok (_, some _) => some item.contentHash
    | _ => none
  | _ => none

/-- What an operation observes is new, or its bytes are still there. -/
def Supplied (s : Store) : Op → Prop
  | .ingest _ item _ => item.wellFormed = true →
      artifactKnown s.db item.contentHash = true →
      s.blobs.holds item.contentHash = true
  | _ => True

/-- Throughout a run every memory has its bytes, and so has whatever was
just recorded. -/
def BytesKept (ports : Ports) (sources : List Source) (ops : List Op) :
    Prop :=
  ∀ pre op post, ops = pre ++ op :: post →
    HasBytes (run ports sources (pre ++ [op]))
      ∧ ∀ hash, ingested (run ports sources pre) op = some hash →
        (run ports sources (pre ++ [op])).blobs.holds hash = true

end Live

variable {s s' : Store} {hash : ContentHash}

variable {now : Timestamp} {items : List (Item × Timestamp)}
  {item : ObservedItem} {sourceId : Id} {op : Op}

theorem hasBytes_iff : HasBytes s
    ↔ ∀ v ∈ views s.db, s.blobs.holds v.contentHash = true := by
  unfold HasBytes views
  rw [List.forall_mem_map]
  rfl

theorem HasBytes.keep (h : HasBytes s) (hviews : ∀ v ∈ views s'.db,
      ∃ v' ∈ views s.db, v'.contentHash = v.contentHash)
    (hblobs : s'.blobs = s.blobs) : HasBytes s' := by
  rw [hasBytes_iff] at h ⊢
  intro v hv
  obtain ⟨v', hv', heq⟩ := hviews v hv
  rw [hblobs, ← heq]
  exact h v' hv'

-- ======= recording

theorem recordVersion_hashes {db : Db} {sourceId : Id} {item : ObservedItem}
    {now : Timestamp} {hash : ContentHash} :
    (∃ m ∈ (recordVersion db sourceId item now).1.memories,
        m.contentHash = hash)
      ↔ (∃ m ∈ db.memories, m.contentHash = hash)
        ∨ hash = item.contentHash := by
  have hadd : ∀ (db : Db) (m : Memory),
      (∃ x ∈ (addVersion db m).memories, x.contentHash = hash)
        ↔ (∃ x ∈ db.memories, x.contentHash = hash)
          ∨ hash = m.contentHash := by
    intro db m
    unfold addVersion
    split
    case h_1 =>
      simp only [List.mem_append, List.mem_singleton, or_and_right, exists_or,
        exists_eq_left]
      exact or_congr_right eq_comm
    case h_2 c hc =>
      simp only [List.mem_append, List.mem_singleton, or_and_right, exists_or,
        exists_eq_left]
      refine or_congr ?_ eq_comm
      simp only [List.mem_map, exists_exists_and_eq_and]
      refine exists_congr fun x => and_congr_right fun _ => ?_
      split <;> rfl
  exact hadd _ _

theorem ingestItem_holds {sourceId : Id} {item : ObservedItem}
    {now : Timestamp} {out : Ingested}
    (hin : ingestItem s sourceId item now = .ok (s', some out))
    (hsup : artifactKnown s.db item.contentHash = true →
      s.blobs.holds item.contentHash = true) :
    s'.blobs.holds item.contentHash = true := by
  unfold ingestItem at hin
  simp only at hin
  split at hin
  case isTrue => cases hin
  case isFalse =>
    split at hin
    case h_1 => cases hin
    case h_2 s₁ hs₁ =>
      split at hin
      case isTrue => cases hin
      case isFalse =>
        cases hin
        show s₁.blobs.holds _ = true
        unfold storeArtifact at hs₁
        split at hs₁
        case isTrue hknown =>
          cases hs₁
          exact hsup hknown
        case isFalse =>
          simp only at hs₁
          split at hs₁
          case isTrue hholds =>
            cases hs₁
            exact hholds
          case isFalse =>
            split at hs₁
            case h_1 => cases hs₁
            case h_2 data hdata =>
              cases hs₁
              exact Blobs.holds_put.mpr (.inr rfl)

theorem ingestItem_wellFormed {out : Ingested}
    (hin : ingestItem s sourceId item now = .ok (s', some out)) :
    item.wellFormed = true := by
  unfold ingestItem at hin
  simp only at hin
  split at hin
  case isTrue => cases hin
  case isFalse =>
    split at hin
    case h_1 => cases hin
    case h_2 =>
      split at hin
      case isTrue => cases hin
      case isFalse hwell => simpa using hwell

theorem ingestItem_hasBytes {out : Option Ingested} (h : HasBytes s)
    (hin : ingestItem s sourceId item now = .ok (s', out))
    (hsup : artifactKnown s.db item.contentHash = true →
      s.blobs.holds item.contentHash = true) : HasBytes s' := by
  have hholds := fun o (ho : out = some o) =>
    @ingestItem_holds s s' sourceId item now o (ho ▸ hin) hsup
  obtain ⟨-, rfl, -⟩ | ⟨-, artifacts, blobs, hblobs, rfl, hout⟩ :=
    ingestItem_cases hin
  · exact h
  · intro m hm
    obtain ⟨x, hx, hxm⟩ | hm :=
      recordVersion_hashes.mp ⟨m, hm, rfl⟩
    · have hold := h x hx
      rw [hxm] at hold
      obtain rfl | ⟨data, rfl⟩ := hblobs
      · exact hold
      · exact Blobs.holds_put.mpr (.inl hold)
    · rw [hm]
      exact hholds _ hout

theorem restore_hasBytes {id : Id} (h : HasBytes s)
    (hr : Deletion.restore s id now = .ok s') : HasBytes s' := by
  unfold Deletion.restore at hr
  split at hr
  case h_1 => cases hr
  case h_2 item hitem =>
    split at hr
    case h_1 => cases hr
    case h_2 current hc =>
      split at hr
      case isTrue => cases hr
      case isFalse =>
        split at hr
        case isTrue => cases hr
        case isFalse hholds =>
          simp only at hr
          split at hr
          case h_1 => cases hr
          case h_2 => cases hr
          case h_3 s₁ out hin =>
            cases hr
            exact ingestItem_hasBytes h hin fun _ => by simpa using hholds

-- ======== deleting

theorem markDeleted_hashes (db : Db) (i : Item) (id : Id) (now : Timestamp) :
    ∀ v ∈ views (Deletion.markDeleted db i id now),
      ∃ v' ∈ views db, v'.contentHash = v.contentHash := by
  intro v hv
  obtain ⟨m, hm, rfl⟩ := List.mem_map.mp hv
  obtain ⟨x, hx, rfl⟩ := List.mem_map.mp hm
  refine ⟨x.view, List.mem_map_of_mem hx, ?_⟩
  split <;> rfl

theorem detectDeletions_hashes {observed : List String}
    {clock : String → Timestamp} (db : Db) :
    ∀ v ∈ views (Deletion.detectDeletions db sourceId observed clock),
      ∃ v' ∈ views db, v'.contentHash = v.contentHash := by
  unfold Deletion.detectDeletions
  simp only
  generalize List.mergeSort _ _ = missing
  generalize Deletion.knownOf db sourceId = known
  induction missing generalizing db with
  | nil => exact fun v hv => ⟨v, hv, rfl⟩
  | cons k rest ih =>
    rw [List.foldl_cons]
    intro v hv
    obtain ⟨v₁, hv₁, heq₁⟩ := ih _ v hv
    unfold Deletion.sweepOne at hv₁
    split at hv₁
    case h_1 => exact ⟨v₁, hv₁, heq₁⟩
    case h_2 =>
      obtain ⟨v₂, hv₂, heq₂⟩ := markDeleted_hashes _ _ _ _ v₁ hv₁
      exact ⟨v₂, hv₂, heq₂.trans heq₁⟩

theorem purgeOne_memories {db : Db} {i : Item}
    {r : Db × List ContentHash} (hp : Deletion.purgeOne db i now = .ok r) :
    r.1.memories = db.memories.filter fun m => !decide (m.item = i) := by
  unfold Deletion.purgeOne at hp
  simp only at hp
  split at hp
  case isTrue => cases hp
  case isFalse =>
    cases hp
    rfl

theorem purgeLoop_memories {db : Db} :
    ∀ m ∈ (Deletion.purgeLoop db items).1.memories, m ∈ db.memories := by
  induction items generalizing db with
  | nil => exact fun m hm => hm
  | cons x rest ih =>
    obtain ⟨i, now⟩ := x
    unfold Deletion.purgeLoop
    split
    case h_1 => exact fun m hm => hm
    case h_2 db₁ hashes hp =>
      intro m hm
      have hm₁ := ih m hm
      rw [purgeOne_memories hp] at hm₁
      exact (List.mem_filter.mp hm₁).1

theorem purge_hasBytes (h : HasBytes s) :
    HasBytes (Deletion.purge s items) := by
  unfold Deletion.purge
  simp only
  split
  case isTrue =>
    intro m hm
    refine Blobs.holds_foldl_delete.mpr
      ⟨h m (purgeLoop_memories m hm), fun hmem => ?_⟩
    obtain ⟨-, hno⟩ := List.mem_filter.mp hmem
    unfold Deletion.stillReferenced at hno
    rw [Bool.not_eq_true', Bool.or_eq_false_iff, List.any_eq_false] at hno
    exact hno.1 m hm (decide_eq_true rfl)
  case isFalse => exact fun m hm => h m (purgeLoop_memories m hm)

-- ========= the run

namespace Live

theorem step_hasBytes (ports : Ports) (h : HasBytes s)
    (hsup : Supplied s op) : HasBytes (step ports s op) := by
  cases op with
  | upload hash data =>
    exact fun m hm => Blobs.holds_put.mpr (.inl (h m hm))
  | ingest sourceId item now =>
    unfold step
    simp only
    cases hin : ingestItem s sourceId item now with
    | error e => exact h
    | ok r =>
      obtain ⟨s', out⟩ := r
      cases out with
      | none =>
        obtain ⟨-, rfl, -⟩ | ⟨-, _, _, -, -, hout⟩ :=
          ingestItem_cases hin
        · exact h
        · cases hout
      | some out =>
        exact ingestItem_hasBytes h hin
          (hsup (ingestItem_wellFormed hin))
  | detectDeletions sourceId observed clock =>
    exact h.keep (detectDeletions_hashes s.db) rfl
  | tombstone memoryId now =>
    unfold step
    simp only
    split
    case h_1 => exact h
    case h_2 db hdb =>
      obtain rfl | ⟨i, c, -, rfl⟩ := tombstone_cases hdb
      · exact h
      · exact h.keep (markDeleted_hashes _ _ _ _) rfl
  | restore memoryId now =>
    unfold step
    simp only
    split
    case h_1 => exact h
    case h_2 s' hs' => exact restore_hasBytes h hs'
  | purge items => exact purge_hasBytes h
  | normalize memoryId now =>
    unfold step
    simp only
    split
    case h_1 => exact h
    case h_2 r hr =>
      refine h.keep (fun v hv => ⟨v, ?_, rfl⟩) rfl
      rw [← (normalize_same hr).views]
      exact hv
  | embed memoryId now =>
    unfold step
    simp only
    split
    case h_1 => exact h
    case h_2 r hr =>
      refine h.keep (fun v hv => ⟨v, ?_, rfl⟩) rfl
      rw [← (embed_same hr).views]
      exact hv

theorem supplied_of_hasBytes (ports : Ports) (h : HasBytes s)
    (h' : HasBytes (step ports s op)) : Supplied s op := by
  cases op with
  | ingest sourceId item now =>
    intro hwell hknown
    cases hu : unchanged s.db sourceId item with
    | true =>
      -- the current row has this content already
      unfold unchanged at hu
      rw [hknown, Bool.true_and] at hu
      split at hu
      case h_1 => cases hu
      case h_2 current hc =>
        rw [Bool.and_eq_true, decide_eq_true_eq] at hu
        rw [← hu.1]
        exact h current (currentRow_some hc).1
    | false =>
      have hin : ingestItem s sourceId item now
          = .ok ({ s with db := (recordVersion s.db sourceId item now).1 },
            some ⟨(recordVersion s.db sourceId item now).2,
              (currentRow s.db sourceId item.externalKey).isSome⟩) := by
        unfold ingestItem storeArtifact
        simp [hu, hknown, hwell]
      unfold step at h'
      simp only [hin] at h'
      obtain ⟨m, hm, hhash⟩ :=
        (@recordVersion_hashes s.db sourceId item now _).mpr (.inr rfl)
      rw [← hhash]
      exact h' m hm
  | upload hash data => trivial
  | detectDeletions sourceId observed clock => trivial
  | tombstone memoryId now => trivial
  | restore memoryId now => trivial
  | purge items => trivial
  | normalize memoryId now => trivial
  | embed memoryId now => trivial

theorem ingested_inv (h : ingested s op = some hash) :
    ∃ sourceId item now s' out, op = .ingest sourceId item now
      ∧ ingestItem s sourceId item now = .ok (s', some out)
      ∧ hash = item.contentHash := by
  cases op with
  | ingest sourceId item now =>
    simp only [ingested] at h
    cases hin : ingestItem s sourceId item now with
    | error e =>
      rw [hin] at h
      cases h
    | ok r =>
      obtain ⟨s', out⟩ := r
      rw [hin] at h
      cases out with
      | none => cases h
      | some out =>
        cases h
        exact ⟨sourceId, item, now, s', out, rfl, hin, rfl⟩
  | _ => cases h

theorem run_concat (ports : Ports) (sources : List Source) (pre : List Op)
    (op : Op) : run ports sources (pre ++ [op])
      = step ports (run ports sources pre) op := by
  unfold run
  rw [List.foldl_append]
  rfl

theorem hasBytes_start (sources : List Source) : HasBytes (start sources) :=
  fun _ hm => by cases hm

theorem run_hasBytes (ports : Ports) (sources : List Source)
    {ops : List Op} (hsup : ∀ pre op post, ops = pre ++ op :: post →
      Supplied (run ports sources pre) op) :
    HasBytes (run ports sources ops) := by
  induction ops using List.reverseRecOn with
  | nil => exact hasBytes_start sources
  | append_singleton pre op ih =>
    rw [run_concat]
    refine step_hasBytes ports (ih fun pre' op' post hsplit => ?_)
      (hsup pre op [] rfl)
    exact hsup pre' op' (post ++ [op]) (by rw [hsplit]; simp)

/-- In every run each memory has its bytes after each operation, and what
was recorded has them, exactly when no operation observes content that is
known and whose bytes are gone. -/
theorem bytes_kept_iff (ports : Ports) (sources : List Source)
    (ops : List Op) : BytesKept ports sources ops
      ↔ ∀ pre op post, ops = pre ++ op :: post →
        Supplied (run ports sources pre) op := by
  constructor
  · intro h pre op post hops
    have hbefore : HasBytes (run ports sources pre) := by
      rcases List.eq_nil_or_concat pre with rfl | ⟨init, last, rfl⟩
      · exact hasBytes_start sources
      · rw [List.concat_eq_append] at hops ⊢
        exact (h init last (op :: post) (by rw [hops]; simp)).1
    have hafter := (h pre op post hops).1
    rw [run_concat] at hafter
    exact supplied_of_hasBytes ports hbefore hafter
  · intro hsup pre op post hops
    have hafter : HasBytes (run ports sources (pre ++ [op])) :=
      run_hasBytes ports sources fun pre' op' post' hsplit =>
        hsup pre' op' (post' ++ post) (by
          rw [hops, show pre ++ op :: post = (pre ++ [op]) ++ post by simp,
            hsplit]
          simp)
    refine ⟨hafter, fun hash hout => ?_⟩
    obtain ⟨sourceId, item, now, s', out, rfl, hin, rfl⟩ :=
      ingested_inv hout
    rw [run_concat]
    unfold step
    simp only [hin]
    exact ingestItem_holds hin (hsup pre _ post hops
      (ingestItem_wellFormed hin))

-- ------ written again

/-- A note, purged and then found again as it was. -/
def sameNoteAgain : List Op := [
  .ingest 1 (note "a.md" "h1" [104, 105]) 0,
  .purge [(⟨1, "a.md"⟩, 1)],
  .ingest 1 (note "a.md" "h1" [104, 105]) 2]

/-- It is recorded, and its bytes are not written. -/
theorem bytes_not_kept :
    ¬ ∀ (ports : Ports) (sources : List Source) (ops : List Op),
      (∀ op ∈ ops, ∀ sourceId item now, op = .ingest sourceId item now →
        item.readBytes.isSome = true) →
      BytesKept ports sources ops := by
  intro hclaim
  obtain ⟨hafter, -⟩ := hclaim .plain [] sameNoteAgain
    (by
      intro op hop sourceId item now heq
      subst heq
      simp only [sameNoteAgain, List.mem_cons, Op.ingest.injEq, reduceCtorEq,
        List.not_mem_nil, or_false, false_or] at hop
      obtain ⟨-, rfl, -⟩ | ⟨-, rfl, -⟩ := hop <;> rfl)
    (sameNoteAgain.take 2) (.ingest 1 (note "a.md" "h1" [104, 105]) 2) [] rfl
  have hlost : ∃ m ∈ (run .plain [] sameNoteAgain).db.memories,
      (run .plain [] sameNoteAgain).blobs.holds m.contentHash = false := by
    decide +kernel
  obtain ⟨m, hm, hlost⟩ := hlost
  exact Bool.noConfusion (hlost.symm.trans (hafter m hm))

end Live

end MemoryOS
