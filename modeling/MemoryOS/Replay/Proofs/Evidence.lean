/-
When a failed shadow replay gives the evidence back.

The links are deleted before the attempt and re-created by natural key,
which reaches current, undeleted memories only. So a link survives a
failure exactly when its natural key leads back to the ids it holds: a
link to a tombstoned item is dropped, and one to a superseded version is
moved to the current version, or dropped with its chunk.
-/
import Mathlib.Data.List.Nodup
import MemoryOS.Replay.Rebuild

namespace MemoryOS.ReplayCorpus

/-- A row up to its own id. -/
def upToId (row : EvidenceRow) : EvidenceRow := { row with id := 0 }

/-- The row's natural key leads to the memory and the chunk it holds. -/
structure Resolves (db : Db) (row : EvidenceRow) : Prop where
  memory : memoryOf db row.sourceName row.externalKey = some row.memoryId
  chunk : row.chunkId = row.chunkOrdinal.bind (chunkOf db row.memoryId)
  found : row.chunkOrdinal.isSome → row.chunkId.isSome

variable {db : Db} {row : EvidenceRow}

theorem relink_iff :
    relink db (evidenceLink row) = some (row.memoryId, row.chunkId)
      ↔ Resolves db row := by
  unfold relink evidenceLink
  constructor
  · intro h
    cases hm : memoryOf db row.sourceName row.externalKey with
    | none => simp [hm] at h
    | some m =>
      cases ho : row.chunkOrdinal with
      | none =>
        simp only [hm, ho, Option.some.injEq, Prod.mk.injEq] at h
        obtain ⟨rfl, hc⟩ := h
        exact ⟨hm, by rw [← hc, ho]; rfl, by simp [ho]⟩
      | some o =>
        cases hk : chunkOf db m o with
        | none => simp [hm, ho, hk] at h
        | some k =>
          simp only [hm, ho, hk, Option.some.injEq, Prod.mk.injEq] at h
          obtain ⟨rfl, hc⟩ := h
          refine ⟨hm, ?_, fun _ => by rw [← hc]; rfl⟩
          rw [← hc, ho, Option.bind_some, hk]
  · rintro ⟨hm, hc, hf⟩
    rw [hm]
    cases ho : row.chunkOrdinal with
    | none =>
      rw [ho, Option.bind_none] at hc
      rw [hc]
    | some o =>
      rw [ho, Option.bind_some] at hc
      have hsome := hf (by rw [ho]; rfl)
      rw [hc] at hsome ⊢
      obtain ⟨k, hk⟩ := Option.isSome_iff_exists.mp hsome
      simp only [hk]

theorem resolves_upToId : Resolves db (upToId row) ↔ Resolves db row := by
  rw [← relink_iff, ← relink_iff]
  exact Iff.rfl

theorem resolves_frame {evidence : List EvidenceRow} {next : Id} :
    Resolves { db with evidence := evidence, nextId := next } row
      ↔ Resolves db row := by
  rw [← relink_iff, ← relink_iff]
  exact Iff.rfl

-- ======== the loop

theorem restoreLoop_resolves {links : List EvidenceLink} {n n' : Nat}
    {db db' : Db} (h : restoreLoop db links n = .ok (db', n'))
    (hold : ∀ r ∈ db.evidence, Resolves db r) :
    ∀ r ∈ db'.evidence, Resolves db r := by
  induction links generalizing db n with
  | nil =>
    cases h
    exact hold
  | cons link rest ih =>
    unfold restoreLoop at h
    cases hl : relink db link with
    | none =>
      simp only [hl] at h
      exact ih h hold
    | some p =>
      obtain ⟨m, c⟩ := p
      simp only [hl] at h
      split at h
      case isTrue => cases h
      case isFalse =>
        have hrest := ih h fun r hr => ?_
        · exact fun r hr => resolves_frame.mp (hrest r hr)
        · rw [resolves_frame]
          rcases List.mem_append.mp hr with hr | hr
          · exact hold r hr
          · rw [List.mem_singleton.mp hr, ← relink_iff]
            exact hl

theorem restoreLoop_complete {rows : List EvidenceRow} (n : Nat) (db : Db)
    (hres : ∀ r ∈ rows, Resolves db r)
    (hkeys : ((db.evidence ++ rows).map uniqueKey).Nodup) :
    ∃ db' n', restoreLoop db (rows.map evidenceLink) n = .ok (db', n')
      ∧ db'.evidence.map upToId = (db.evidence ++ rows).map upToId := by
  induction rows generalizing db n with
  | nil => exact ⟨db, n, rfl, by rw [List.append_nil]⟩
  | cons r rest ih =>
    set new : EvidenceRow := { r with id := db.nextId } with hnew
    have hkey : uniqueKey new = uniqueKey r := rfl
    have hfree : (db.evidence.any fun x =>
        decide (uniqueKey x = uniqueKey new)) = false := by
      rw [List.any_eq_false]
      intro x hx heq
      rw [decide_eq_true_eq, hkey] at heq
      rw [List.map_append, List.nodup_append] at hkeys
      exact hkeys.2.2 _ (List.mem_map_of_mem hx) _
        (List.mem_map_of_mem List.mem_cons_self) heq
    have hl := relink_iff.mpr (hres r List.mem_cons_self)
    have hkeys' : ((db.evidence ++ [new] ++ rest).map uniqueKey).Nodup := by
      rw [List.append_assoc, List.singleton_append, List.map_append,
        List.map_cons, hkey, ← List.map_cons, ← List.map_append]
      exact hkeys
    obtain ⟨db', n', hrun, hview⟩ := ih (n + 1)
      { db with evidence := db.evidence ++ [new],
                nextId := db.nextId + 1 }
      (fun x hx => resolves_frame.mpr
        (hres x (List.mem_cons_of_mem r hx))) hkeys'
    refine ⟨db', n', ?_, ?_⟩
    · rw [List.map_cons]
      unfold restoreLoop
      simp only [hl]
      rw [if_neg (by
        show ¬ (db.evidence.any fun x =>
          decide (uniqueKey x = uniqueKey new)) = true
        rw [hfree]
        exact Bool.false_ne_true)]
      exact hrun
    · rw [hview]
      simp [upToId, hnew]

-- ====== the snapshot

/-- The rows in the order `_preserve_evidence` reads them. -/
def preservedRows (db : Db) : List EvidenceRow :=
  evidenceTables.flatMap fun table =>
    db.evidence.filter fun row => decide (row.table = table)

theorem preservedRows_perm (db : Db) :
    (preservedRows db).Perm db.evidence := by
  unfold preservedRows evidenceTables
  simp only [List.flatMap_cons, List.flatMap_nil, List.append_nil]
  generalize db.evidence = l
  induction l with
  | nil => exact .nil
  | cons x l ih =>
    cases hx : x.table with
    | decisionEvidence =>
      simpa [List.filter_cons, hx] using ih
    | outcomeEvidence =>
      simp only [List.filter_cons, hx, reduceCtorEq, decide_false,
        decide_true, Bool.false_eq_true, ↓reduceIte, List.cons_append]
      exact List.perm_middle.trans (ih.cons x)
    | assumptionEvidence =>
      simp only [List.filter_cons, hx, reduceCtorEq, decide_false,
        decide_true, Bool.false_eq_true, ↓reduceIte]
      rw [← List.append_assoc] at ih ⊢
      exact List.perm_middle.trans (ih.cons x)

theorem preserveEvidence_links (db : Db) :
    (preserveEvidence db).2 = (preservedRows db).map evidenceLink := by
  unfold preserveEvidence preservedRows
  rw [List.map_flatMap]

-- ======= the claim

/-- After a replay that raised before the swap, the evidence is what it
was, up to row ids, exactly when every link's natural key leads to the
memory and the chunk the link holds. -/
theorem failed_replay_keeps_evidence_iff (db : Db)
    (attempt : Db → Except Failure Db) (raised : Failure)
    (hkeys : (db.evidence.map uniqueKey).Nodup)
    (hfail : attempt (preserveEvidence db).1 = .error raised) :
    ((call attempt db).1.evidence.map upToId).Perm (db.evidence.map upToId)
      ↔ ∀ row ∈ db.evidence, Resolves db row := by
  have hperm := preservedRows_perm db
  unfold call
  simp only [hfail]
  rw [preserveEvidence_links]
  unfold restoreEvidence
  constructor
  · intro hback
    cases hr : restoreLoop (preserveEvidence db).1
        ((preservedRows db).map evidenceLink) 0 with
    | error e =>
      -- nothing was written back, so there was nothing to lose
      simp only [hr] at hback
      have hnil : db.evidence = [] := by
        simpa [preserveEvidence] using hback
      rw [hnil]
      exact fun _ h => absurd h List.not_mem_nil
    | ok p =>
      simp only [hr] at hback
      have hres := restoreLoop_resolves hr
        (fun r hr => absurd hr List.not_mem_nil)
      intro row hrow
      have hmem := hback.mem_iff.mpr (List.mem_map_of_mem hrow)
      obtain ⟨new, hnew, heq⟩ := List.mem_map.mp hmem
      rw [← resolves_upToId, ← heq, resolves_upToId]
      exact resolves_frame.mp (hres new hnew)
  · intro hres
    have hres' : ∀ r ∈ preservedRows db, Resolves (preserveEvidence db).1 r :=
      fun r hr => resolves_frame.mpr (hres r (hperm.mem_iff.mp hr))
    have hnd : (((preserveEvidence db).1.evidence ++ preservedRows db).map
        uniqueKey).Nodup := by
      show ((preservedRows db).map uniqueKey).Nodup
      exact (hperm.map uniqueKey).nodup_iff.mpr hkeys
    obtain ⟨db', n', hrun, hview⟩ := restoreLoop_complete 0 _ hres' hnd
    simp only [hrun]
    rw [hview]
    exact hperm.map upToId

-- ------ a link to a tombstoned memory

/-- One memory, a decision that cites it, and whether it was removed from
view since. -/
def citedMemory (deletedAt : Option Timestamp) : Db where
  sources := [⟨1, .filesystem, "notes"⟩]
  memories := [{
    id := 2, sourceId := 1, externalKey := "a.md", version := 1
    isCurrent := true, contentHash := "h", normalizedHash := none
    kind := .note, title := none, content := none, occurredAt := none
    occurredAtSource := .unknown, ingestedAt := 0, mediaType := none
    parsed := none, deletedAt := deletedAt, entityExtractorVersion := none
    relationshipExtractorVersion := none }]
  evidence := [{
    id := 3, table := .decisionEvidence, owner := 9, memoryId := 2
    chunkId := none, sourceName := "notes", externalKey := "a.md"
    chunkOrdinal := none, columns := .decision .informed 0 }]
  nextId := 10

theorem failed_replay_keeps_evidence_cited :
    ((call (fun _ => .error .refused) (citedMemory none)).1.evidence.map
        upToId).Perm ((citedMemory none).evidence.map upToId)
      ↔ ∀ row ∈ (citedMemory none).evidence,
        Resolves (citedMemory none) row :=
  failed_replay_keeps_evidence_iff (citedMemory none)
    (fun _ => .error .refused) .refused (by decide) rfl

/-- The link to a tombstoned memory does not come back. -/
theorem failed_replay_drops_evidence :
    ¬ ∀ (db : Db) (attempt : Db → Except Failure Db) (raised : Failure),
      (db.evidence.map uniqueKey).Nodup →
      attempt (preserveEvidence db).1 = .error raised →
      ((call attempt db).1.evidence.map upToId).Perm
        (db.evidence.map upToId) := by
  intro hclaim
  have hback := hclaim (citedMemory (some 5)) (fun _ => .error .refused)
    .refused (by decide) rfl
  have hlen := hback.length_eq
  have hnone : (call (fun _ => .error .refused)
      (citedMemory (some 5))).1.evidence = [] := by decide
  rw [hnone] at hlen
  cases hlen

end MemoryOS.ReplayCorpus
