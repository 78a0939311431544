/-
A change is counted in the chunks it touched, and a deletion where there is a
chunk to count it in.

What a span adds lies at positions of the newer text, and those that are no
whitespace lie in chunks. A pure deletion has a position only, and it may be
the end of the text or lie between two chunks; it is counted exactly when a
chunk has it (`landed_iff`), and then in one only.
-/
import MemoryOS.Evolution.Proofs.Lines

namespace MemoryOS.Evolution

-- ====== statement vocabulary

/-- The chunks tile a text: in order, apart, not empty, and every character
that is no whitespace is in one. -/
structure TilesText (chunks : List MemoryChunk) (text : Text) : Prop where
  ordered : chunks.Pairwise fun a b => a.charEnd ≤ b.charStart
  nonempty : ∀ chunk ∈ chunks, chunk.charStart < chunk.charEnd
  covers : ∀ i c, text[i]? = some c → isSpace c = false →
    ∃ chunk ∈ chunks, chunk.charStart ≤ i ∧ i < chunk.charEnd

/-- A span meets an interval: it has a position of it, or, if it has no width,
it is at one. -/
def Meets (s : Span) (start stop : Nat) : Prop :=
  (s.bStart = s.bEnd ∧ start ≤ s.bStart ∧ s.bStart < stop)
    ∨ ∃ i ∈ List.range stop, start ≤ i ∧ s.bStart ≤ i ∧ i < s.bEnd

instance (s : Span) (start stop : Nat) : Decidable (Meets s start stop) := by
  unfold Meets
  infer_instance

/-- Every addition is counted, every pure deletion in one chunk if there is
any, and a chunk is reported with as many spans as meet it. -/
structure Landed (chunks : List MemoryChunk) (spans : List Span)
    (affected : List AffectedChunk) : Prop where
  added : ∀ s ∈ spans, (∃ c ∈ s.bText, isSpace c = false) →
    ∃ a ∈ affected, Meets s a.charStart a.charEnd
  deleted : chunks ≠ [] → ∀ s ∈ spans, s.bStart = s.bEnd →
    (affected.filter fun a => decide (Meets s a.charStart a.charEnd)).length = 1
  counted : ∀ chunk ∈ chunks, ∀ n, 0 < n →
    (reported chunk n ∈ affected
      ↔ (spans.filter fun s =>
        decide (Meets s chunk.charStart chunk.charEnd)).length = n)

/-- Every pure deletion is at a position that some chunk has, if there is any
chunk. -/
def Placed (chunks : List MemoryChunk) (spans : List Span) : Prop :=
  chunks ≠ [] → ∀ s ∈ spans, s.bStart = s.bEnd →
    ∃ chunk ∈ chunks, chunk.charStart ≤ s.bStart ∧ s.bStart < chunk.charEnd

variable {s : Span} {spans : List Span} {chunk : MemoryChunk}
  {chunks : List MemoryChunk} {start stop : Nat} {db : Db} {memoryId : Id}
  {text : Text} {a : AffectedChunk}

-- ======== overlaps

theorem meets_deletion (h : s.bStart = s.bEnd) :
    Meets s start stop ↔ start ≤ s.bStart ∧ s.bStart < stop := by
  unfold Meets
  constructor
  · intro hmeets
    rcases hmeets with ⟨-, hin⟩ | ⟨i, -, -, hlow, hhigh⟩
    · exact hin
    · omega
  · exact fun hin => .inl ⟨h, hin⟩

theorem overlaps_iff (hspan : s.bStart ≤ s.bEnd) (hchunk : start < stop) :
    overlaps s.bStart s.bEnd start stop = true ↔ Meets s start stop := by
  by_cases hwidth : s.bStart = s.bEnd
  · rw [meets_deletion hwidth, overlaps, if_pos hwidth]
    simp only [Bool.or_eq_true, Bool.and_eq_true, decide_eq_true_eq]
    omega
  · rw [overlaps, if_neg hwidth]
    unfold Meets
    simp only [Bool.and_eq_true, decide_eq_true_eq, List.mem_range]
    constructor
    · intro h
      right
      exact ⟨max s.bStart start, by omega, by omega, by omega, by omega⟩
    · intro h
      rcases h with ⟨hsame, -⟩ | ⟨i, hstop, hstart, hlow, hhigh⟩
      · exact absurd hsame hwidth
      · omega

-- ========= reports

theorem touching_eq (hspans : ∀ s ∈ spans, s.bStart ≤ s.bEnd)
    (hchunk : chunk.charStart < chunk.charEnd) :
    touching spans chunk = (spans.filter fun s =>
      decide (Meets s chunk.charStart chunk.charEnd)).length := by
  unfold touching
  congr 1
  apply List.filter_congr
  intro s hs
  rw [Bool.eq_iff_iff, decide_eq_true_eq]
  exact overlaps_iff (hspans s hs) hchunk

theorem mem_affectedChunks : a ∈ affectedChunks db memoryId spans
    ↔ ∃ chunk ∈ chunkRows db memoryId, touching spans chunk ≠ 0
      ∧ a = reported chunk (touching spans chunk) := by
  unfold affectedChunks
  cases hspans : spans.isEmpty with
  | true =>
    rw [List.isEmpty_iff.1 hspans, if_pos rfl]
    simp [touching]
  | false =>
    rw [if_neg Bool.false_ne_true, List.mem_filterMap]
    constructor
    · intro h
      obtain ⟨chunk, hchunk, hsome⟩ := h
      split at hsome
      case isTrue => cases hsome
      case isFalse hne => exact ⟨chunk, hchunk, hne, (Option.some.inj hsome).symm⟩
    · intro h
      obtain ⟨chunk, hchunk, hne, rfl⟩ := h
      exact ⟨chunk, hchunk, if_neg hne⟩

theorem exists_reported (hspans : ∀ s ∈ spans, s.bStart ≤ s.bEnd) (hs : s ∈ spans)
    (hchunk : chunk ∈ chunkRows db memoryId)
    (hwidth : chunk.charStart < chunk.charEnd)
    (hmeets : Meets s chunk.charStart chunk.charEnd) :
    reported chunk (touching spans chunk) ∈ affectedChunks db memoryId spans := by
  refine mem_affectedChunks.2 ⟨chunk, hchunk, fun hnone => ?_, rfl⟩
  rw [touching_eq hspans hwidth] at hnone
  have hnil := List.eq_nil_of_length_eq_zero hnone
  have hmem : s ∈ spans.filter fun s =>
      decide (Meets s chunk.charStart chunk.charEnd) :=
    List.mem_filter.2 ⟨hs, decide_eq_true hmeets⟩
  rw [hnil] at hmem
  cases hmem

theorem pairwise_affected (h : TilesText (chunkRows db memoryId) text) :
    (affectedChunks db memoryId spans).Pairwise
      fun a b => a.charEnd ≤ b.charStart := by
  unfold affectedChunks
  split
  case isTrue => exact List.Pairwise.nil
  case isFalse =>
    apply List.Pairwise.filterMap _ _ h.ordered
    intro x y hxy a ha b hb
    split at ha
    case isTrue => cases ha
    case isFalse =>
      split at hb
      case isTrue => cases hb
      case isFalse =>
        rw [← Option.some.inj ha, ← Option.some.inj hb]
        exact hxy

theorem length_filter_le_one {affected : List AffectedChunk} {i : Nat}
    (h : affected.Pairwise fun a b => a.charEnd ≤ b.charStart) :
    (affected.filter fun a =>
      decide (a.charStart ≤ i ∧ i < a.charEnd)).length ≤ 1 := by
  induction affected with
  | nil => exact Nat.zero_le 1
  | cons a rest ih =>
    obtain ⟨hfirst, hrest⟩ := List.pairwise_cons.1 h
    by_cases ha : a.charStart ≤ i ∧ i < a.charEnd
    · have hnone : (rest.filter fun a =>
          decide (a.charStart ≤ i ∧ i < a.charEnd)) = [] := by
        apply List.filter_eq_nil_iff.2
        intro b hb
        have hapart := hfirst b hb
        rw [decide_eq_true_eq]
        omega
      rw [List.filter_cons, if_pos (decide_eq_true ha), hnone]
      exact Nat.le_refl 1
    · rw [List.filter_cons, if_neg (by simpa using ha)]
      exact ih hrest

-- ======= the claim

section
variable {lib : Difflib} {before after : Text}

theorem span_le (h : Aligned (lib.opcodes (linesOf before) (linesOf after))
      (linesOf before) (linesOf after)) :
    ∀ s ∈ diffSpans lib before after, s.bStart ≤ s.bEnd := by
  intro s hs
  obtain ⟨op, hop, kind, rfl⟩ := mem_diffSpans h hs
  exact (locates_spanOf h hop kind).2.2.1

theorem exists_position (h : Aligned (lib.opcodes (linesOf before) (linesOf after))
      (linesOf before) (linesOf after)) (hs : s ∈ diffSpans lib before after)
    {c : Char} (hc : c ∈ s.bText) :
    ∃ i, s.bStart ≤ i ∧ i < s.bEnd ∧ after[i]? = some c := by
  obtain ⟨op, hop, kind, rfl⟩ := mem_diffSpans h hs
  have hlocates := (locates_spanOf h hop kind).2.2.2.2.2
  rw [hlocates] at hc
  obtain ⟨k, hk, hget⟩ := List.getElem_of_mem hc
  have hsome : (slice after (spanOf before after op kind).bStart
      (spanOf before after op kind).bEnd)[k]? = some c := by
    rw [List.getElem?_eq_getElem hk, hget]
  unfold slice at hsome hk
  rw [List.length_take] at hk
  rw [List.getElem?_take_of_lt (by omega), List.getElem?_drop] at hsome
  exact ⟨_, Nat.le_add_right _ k, by omega, hsome⟩

theorem landed_added
    (h : Aligned (lib.opcodes (linesOf before) (linesOf after))
      (linesOf before) (linesOf after))
    (htiles : TilesText (chunkRows db memoryId) after)
    (hs : s ∈ diffSpans lib before after)
    (hadds : ∃ c ∈ s.bText, isSpace c = false) :
    ∃ a ∈ affectedChunks db memoryId (diffSpans lib before after),
      Meets s a.charStart a.charEnd := by
  obtain ⟨c, hc, hvisible⟩ := hadds
  obtain ⟨i, hlow, hhigh, hget⟩ := exists_position h hs hc
  obtain ⟨chunk, hchunk, hstart, hend⟩ := htiles.covers i c hget hvisible
  have hmeets : Meets s chunk.charStart chunk.charEnd :=
    .inr ⟨i, List.mem_range.2 hend, hstart, hlow, hhigh⟩
  exact ⟨_, exists_reported (span_le h) hs hchunk
    (htiles.nonempty chunk hchunk) hmeets, hmeets⟩

theorem landed_counted
    (h : Aligned (lib.opcodes (linesOf before) (linesOf after))
      (linesOf before) (linesOf after))
    (htiles : TilesText (chunkRows db memoryId) after)
    (hchunk : chunk ∈ chunkRows db memoryId) {n : Nat} (hn : 0 < n) :
    reported chunk n ∈ affectedChunks db memoryId (diffSpans lib before after)
      ↔ ((diffSpans lib before after).filter fun s =>
        decide (Meets s chunk.charStart chunk.charEnd)).length = n := by
  rw [← touching_eq (span_le h) (htiles.nonempty chunk hchunk), mem_affectedChunks]
  constructor
  · intro hreported
    obtain ⟨other, -, -, heq⟩ := hreported
    have hstart : chunk.charStart = other.charStart :=
      congrArg AffectedChunk.charStart heq
    have hend : chunk.charEnd = other.charEnd := congrArg AffectedChunk.charEnd heq
    have hspans : n = touching (diffSpans lib before after) other :=
      congrArg AffectedChunk.spans heq
    rw [hspans]
    unfold touching
    rw [hstart, hend]
  · intro htouching
    exact ⟨chunk, hchunk, by omega, by rw [htouching]⟩

theorem landed_deleted
    (h : Aligned (lib.opcodes (linesOf before) (linesOf after))
      (linesOf before) (linesOf after))
    (htiles : TilesText (chunkRows db memoryId) after)
    (hs : s ∈ diffSpans lib before after) (hwidth : s.bStart = s.bEnd) :
    ((affectedChunks db memoryId (diffSpans lib before after)).filter fun a =>
        decide (Meets s a.charStart a.charEnd)).length = 1
      ↔ ∃ chunk ∈ chunkRows db memoryId,
        chunk.charStart ≤ s.bStart ∧ s.bStart < chunk.charEnd := by
  have hmeets : (fun a : AffectedChunk => decide (Meets s a.charStart a.charEnd))
      = fun a => decide (a.charStart ≤ s.bStart ∧ s.bStart < a.charEnd) := by
    funext a
    exact decide_eq_decide.2 (meets_deletion hwidth)
  rw [hmeets]
  constructor
  · intro hone
    obtain ⟨a, ha⟩ := List.length_eq_one_iff.1 hone
    have hmem := List.mem_filter.1 (ha ▸ List.mem_singleton_self a)
    obtain ⟨chunk, hchunk, -, rfl⟩ := mem_affectedChunks.1 hmem.1
    exact ⟨chunk, hchunk, of_decide_eq_true hmem.2⟩
  · intro hplaced
    obtain ⟨chunk, hchunk, hin⟩ := hplaced
    have hreported := exists_reported (span_le h) hs hchunk
      (htiles.nonempty chunk hchunk) ((meets_deletion hwidth).2 hin)
    have hmem : reported chunk (touching (diffSpans lib before after) chunk)
        ∈ (affectedChunks db memoryId (diffSpans lib before after)).filter fun a =>
          decide (a.charStart ≤ s.bStart ∧ s.bStart < a.charEnd) :=
      List.mem_filter.2 ⟨hreported, decide_eq_true hin⟩
    exact Nat.le_antisymm (length_filter_le_one (pairwise_affected htiles))
      (List.length_pos_of_mem hmem)

/-- Changes land in the chunks they touched exactly when every pure deletion is
at a position that a chunk has. -/
theorem landed_iff (lib : Difflib) (db : Db) (memoryId : Id) (before after : Text)
    (h : Aligned (lib.opcodes (linesOf before) (linesOf after))
      (linesOf before) (linesOf after))
    (htiles : TilesText (chunkRows db memoryId) after) :
    Landed (chunkRows db memoryId) (diffSpans lib before after)
        (affectedChunks db memoryId (diffSpans lib before after))
      ↔ Placed (chunkRows db memoryId) (diffSpans lib before after) := by
  constructor
  · intro hlanded hne s hs hwidth
    exact (landed_deleted h htiles hs hwidth).1 (hlanded.deleted hne s hs hwidth)
  · intro hplaced
    exact
      { added := fun s hs hadds => landed_added h htiles hs hadds
        deleted := fun hne s hs hwidth =>
          (landed_deleted h htiles hs hwidth).2 (hplaced hne s hs hwidth)
        counted := fun chunk hchunk n hn => landed_counted h htiles hchunk hn }

end

-- ------ a last line is deleted, or one before it

/-- The opcodes for a second line that is deleted at the end. -/
def lastDeleted : Difflib where
  opcodes _ _ := [⟨.equal, 0, 1, 0, 1⟩, ⟨.delete, 1, 2, 1, 1⟩]
  unifiedDiff _ _ _ _ _ := []

/-- The opcodes for a first line that is deleted. -/
def firstDeleted : Difflib where
  opcodes _ _ := [⟨.delete, 0, 1, 0, 0⟩, ⟨.equal, 1, 2, 0, 1⟩]
  unifiedDiff _ _ _ _ _ := []

/-- The chunk of a text of one line. -/
def oneLine : MemoryChunk where
  id := 1
  memoryId := 7
  ordinal := 0
  content := "x".toList
  tokenCount := 1
  charStart := 0
  charEnd := 2
  prefixChars := 0
  chunkerVersion := "structural"
  contentHash := ⟨"x".toList⟩
  metadata := []
  embedding := none
  embeddingModel := none
  embeddedAt := none

/-- The newer version's chunks. -/
def oneChunk : Db := { chunks := [oneLine] }

theorem tiles_oneLine : TilesText (chunkRows oneChunk 7) "x\n".toList := by
  have hrows : chunkRows oneChunk 7 = [oneLine] := by decide +kernel
  rw [hrows]
  refine ⟨List.pairwise_singleton _ _, ?_, ?_⟩
  · intro chunk hchunk
    rw [List.mem_singleton.1 hchunk]
    decide
  · intro i c hget _
    have hlength := (List.getElem?_eq_some_iff.1 hget).1
    exact ⟨oneLine, List.mem_singleton_self _, Nat.zero_le i, hlength⟩

theorem landed_iff_first :
    Landed (chunkRows oneChunk 7)
      (diffSpans firstDeleted "y\nx\n".toList "x\n".toList)
      (affectedChunks oneChunk 7
        (diffSpans firstDeleted "y\nx\n".toList "x\n".toList)) := by
  have h : Aligned (firstDeleted.opcodes (linesOf "y\nx\n".toList)
      (linesOf "x\n".toList)) (linesOf "y\nx\n".toList) (linesOf "x\n".toList) :=
    .cons (x := ⟨false, 0, 1, 0, 0⟩) (by decide) (by decide)
      (fun h => absurd h Bool.false_ne_true)
      (.cons (x := ⟨true, 1, 2, 0, 1⟩) (by decide) (by decide)
        (fun _ => by decide +kernel) .nil)
  apply (landed_iff firstDeleted oneChunk 7 _ _ h tiles_oneLine).2
  intro _ s hs _
  have hspans : diffSpans firstDeleted "y\nx\n".toList "x\n".toList
      = [⟨.removed, 0, 2, 0, 0, "y\n".toList, []⟩] := by
    decide +kernel
  rw [hspans] at hs
  obtain rfl := List.mem_singleton.1 hs
  have hrows : chunkRows oneChunk 7 = [oneLine] := by decide +kernel
  rw [hrows]
  exact ⟨oneLine, List.mem_singleton_self _, by decide⟩

/-- A last line that is deleted is counted in no chunk. -/
theorem not_landed :
    TilesText (chunkRows oneChunk 7) "x\n".toList
      ∧ ¬ Landed (chunkRows oneChunk 7)
        (diffSpans lastDeleted "x\ny\n".toList "x\n".toList)
        (affectedChunks oneChunk 7
          (diffSpans lastDeleted "x\ny\n".toList "x\n".toList)) := by
  refine ⟨tiles_oneLine, fun h => ?_⟩
  have hspans : diffSpans lastDeleted "x\ny\n".toList "x\n".toList
      = [⟨.removed, 2, 4, 2, 2, "y\n".toList, []⟩] := by
    decide +kernel
  have hone := h.deleted (by decide +kernel)
    ⟨.removed, 2, 4, 2, 2, "y\n".toList, []⟩
    (by rw [hspans]; exact List.mem_singleton_self _) rfl
  have hnone : affectedChunks oneChunk 7
      (diffSpans lastDeleted "x\ny\n".toList "x\n".toList) = [] := by
    decide +kernel
  rw [hnone] at hone
  cases hone

end MemoryOS.Evolution
