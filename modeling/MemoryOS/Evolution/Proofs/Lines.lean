/-
The lines of a diff.

The spans of a diff are a patch, in both directions (`diff_spans`). `difflib` is
taken at its word: its opcodes walk both lists of lines from their beginnings to
their ends, and an "equal" one has the same lines on both sides. Everything else
about the pairing is left open.

# Printed lines

Lines printed one after another are read back (`str.splitlines`). A line is text
without breaks and what ends it (`Row`). Printed rows are read back as they were
where each but the last has its break (`linesOf_flatten_rows`); one that has none
is read as one line with the next (`glue`).
-/
import MemoryOS.Evolution.Summaries

namespace MemoryOS

namespace Evolution

open Lib

-- ====== statement vocabulary

/-- An opcode as a block of an alignment. -/
def Opcode.block (op : Opcode) : Block :=
  ⟨decide (op.tag = .equal), op.i₁, op.i₂, op.j₁, op.j₂⟩

/-- The opcodes are an ordered alignment of two lists of lines. -/
def Aligned (ops : List Opcode) (a b : List Text) : Prop :=
  Aligns a b 0 0 (ops.map Opcode.block)

/-- Replace each span's range of the older text by its newer text. -/
def patched (before : Text) (spans : List Span) : Text :=
  patch before (spans.map fun s => ⟨s.aStart, s.aEnd, s.bText⟩)

/-- Replace each span's range of the newer text by its older text. -/
def unpatched (after : Text) (spans : List Span) : Text :=
  patch after (spans.map fun s => ⟨s.bStart, s.bEnd, s.aText⟩)

/-- Each span ends, in both texts, before the next begins. -/
def Ordered (spans : List Span) : Prop :=
  spans.Pairwise fun s t => s.aEnd ≤ t.aStart ∧ s.bEnd ≤ t.bStart

/-- The span lies in both texts, and says what stands there. -/
def Locates (before after : Text) (s : Span) : Prop :=
  s.aStart ≤ s.aEnd ∧ s.aEnd ≤ before.length
    ∧ s.bStart ≤ s.bEnd ∧ s.bEnd ≤ after.length
    ∧ s.aText = slice before s.aStart s.aEnd
    ∧ s.bText = slice after s.bStart s.bEnd

-- ========= offsets

theorem linesOf_flatten (text : Text) : (linesOf text).flatten = text := by
  unfold linesOf
  rw [CodeBoundaries.splitLinesFrom_flatten, List.nil_append]

theorem offsetsFrom_getD (lines : List Text) (start : Nat) {i : Nat}
    (h : i ≤ lines.length) :
    (offsetsFrom start lines).getD i 0 = start + offset lines i := by
  induction lines generalizing start i with
  | nil =>
    have hi : i = 0 := by simpa using h
    subst hi
    simp [offsetsFrom, offset]
  | cons line rest ih =>
    cases i with
    | zero => simp [offsetsFrom, offset]
    | succ i =>
      have hrest := ih (start + line.length) (Nat.le_of_succ_le_succ h)
      simp only [offsetsFrom, List.getD_cons_succ, hrest]
      simp only [offset, List.take_succ_cons, List.flatten_cons,
        List.length_append]
      omega

-- =========== spans

/-- The span of an opcode that changes something. -/
def spanOf (before after : Text) (op : Opcode) (kind : ChangeKind) : Span where
  kind := kind
  aStart := offset (linesOf before) op.i₁
  aEnd := offset (linesOf before) op.i₂
  bStart := offset (linesOf after) op.j₁
  bEnd := offset (linesOf after) op.j₂
  aText := cut before (offset (linesOf before) op.i₁)
    (offset (linesOf before) op.i₂)
  bText := cut after (offset (linesOf after) op.j₁)
    (offset (linesOf after) op.j₂)

theorem kinds_eq_none {tag : Tag} : kinds tag = none ↔ tag = .equal := by
  cases tag <;> simp [kinds]

variable {lib : Difflib} {before after : Text}

theorem diffSpans_eq
    (h : Aligned (lib.opcodes (linesOf before) (linesOf after))
      (linesOf before) (linesOf after)) :
    diffSpans lib before after
      = (lib.opcodes (linesOf before) (linesOf after)).filterMap fun op =>
          (kinds op.tag).map (spanOf before after op) := by
  unfold diffSpans
  apply List.filterMap_congr
  intro op hop
  have hbounds := h.bounds (List.mem_map_of_mem hop)
  simp only [Opcode.block] at hbounds
  have hi₁ := offsetsFrom_getD (linesOf before) 0 (i := op.i₁)
    (by omega)
  have hi₂ := offsetsFrom_getD (linesOf before) 0 (i := op.i₂)
    (by omega)
  have hj₁ := offsetsFrom_getD (linesOf after) 0 (i := op.j₁)
    (by omega)
  have hj₂ := offsetsFrom_getD (linesOf after) 0 (i := op.j₂)
    (by omega)
  rw [Nat.zero_add] at hi₁ hi₂ hj₁ hj₂
  simp only [hi₁, hi₂, hj₁, hj₂]
  rfl

theorem map_spans {f : Span → Edit Char} {g : Block → Edit Char}
    (hfg : ∀ op kind, f (spanOf before after op kind) = g op.block)
    (ops : List Opcode) :
    (ops.filterMap fun op => (kinds op.tag).map (spanOf before after op)).map f
      = ((ops.map Opcode.block).filter fun x => !x.same).map g := by
  induction ops with
  | nil => rfl
  | cons op rest ih =>
    cases hkind : kinds op.tag with
    | none =>
      have htag := kinds_eq_none.1 hkind
      simp only [List.filterMap_cons, hkind, Option.map_none, ih]
      simp [Opcode.block, htag]
    | some kind =>
      have htag : op.tag ≠ .equal := by
        intro hequal
        simp [hequal, kinds] at hkind
      simp only [List.filterMap_cons, hkind, Option.map_some,
        List.map_cons, ih, hfg]
      simp [Opcode.block, htag]

theorem mem_diffSpans
    (h : Aligned (lib.opcodes (linesOf before) (linesOf after))
      (linesOf before) (linesOf after)) {s : Span}
    (hs : s ∈ diffSpans lib before after) :
    ∃ op ∈ lib.opcodes (linesOf before) (linesOf after), ∃ kind,
      s = spanOf before after op kind := by
  rw [diffSpans_eq h] at hs
  obtain ⟨op, hop, hsome⟩ := List.mem_filterMap.1 hs
  obtain ⟨kind, -, rfl⟩ := Option.map_eq_some_iff.1 hsome
  exact ⟨op, hop, kind, rfl⟩

theorem locates_spanOf
    (h : Aligned (lib.opcodes (linesOf before) (linesOf after))
      (linesOf before) (linesOf after)) {op : Opcode}
    (hop : op ∈ lib.opcodes (linesOf before) (linesOf after))
    (kind : ChangeKind) : Locates before after (spanOf before after op kind) := by
  have hbounds := h.bounds (List.mem_map_of_mem hop)
  simp only [Opcode.block] at hbounds
  have hbefore := offset_le_length (linesOf before) op.i₂
  have hafter := offset_le_length (linesOf after) op.j₂
  rw [linesOf_flatten] at hbefore hafter
  exact ⟨offset_le hbounds.2.1, hbefore, offset_le hbounds.2.2.2.2.1, hafter,
    rfl, rfl⟩

theorem ordered_diffSpans
    (h : Aligned (lib.opcodes (linesOf before) (linesOf after))
      (linesOf before) (linesOf after)) :
    Ordered (diffSpans lib before after) := by
  rw [diffSpans_eq h]
  have hpairs := List.pairwise_map.1 h.pairwise
  refine List.Pairwise.filterMap _ ?_ hpairs
  intro x y hxy s hs t ht
  obtain ⟨kind, -, rfl⟩ := Option.map_eq_some_iff.1 hs
  obtain ⟨kind', -, rfl⟩ := Option.map_eq_some_iff.1 ht
  exact ⟨offset_le hxy.1, offset_le hxy.2⟩

/-- The spans of a diff, under any alignment of the two texts' lines, are
ordered, disjoint, exact, and patch each text into the other. -/
theorem spans_patch (lib : Difflib) (before after : Text)
    (h : Aligned (lib.opcodes (linesOf before) (linesOf after))
      (linesOf before) (linesOf after)) :
    Ordered (diffSpans lib before after)
      ∧ (∀ s ∈ diffSpans lib before after, Locates before after s)
      ∧ patched before (diffSpans lib before after) = after
      ∧ unpatched after (diffSpans lib before after) = before := by
  refine ⟨ordered_diffSpans h, ?_, ?_, ?_⟩
  · intro s hs
    obtain ⟨op, hop, kind, rfl⟩ := mem_diffSpans h hs
    exact locates_spanOf h hop kind
  · have hpatch := Aligns.patch h
    rw [linesOf_flatten, linesOf_flatten] at hpatch
    unfold patched
    rw [diffSpans_eq h, map_spans (g := Block.edit (linesOf before)
      (linesOf after))]
    · exact hpatch
    · intro op kind
      simp [Block.edit, Opcode.block, spanOf, linesOf_flatten]
  · have hpatch := (Aligns.flip h).patch
    rw [linesOf_flatten, linesOf_flatten, edits_flip] at hpatch
    unfold unpatched
    rw [diffSpans_eq h, map_spans (g := fun x => x.flip.edit (linesOf after)
      (linesOf before))]
    · exact hpatch
    · intro op kind
      simp [Block.edit, Block.flip, Opcode.block, spanOf, linesOf_flatten]

-- ------ one line changed, one added at the end

/-- The opcodes for `"a\nb\n"` and `"a\nc\nd"`. -/
def twoTexts : Difflib where
  opcodes _ _ := [⟨.equal, 0, 1, 0, 1⟩, ⟨.replace, 1, 2, 1, 3⟩]
  unifiedDiff _ _ _ _ _ := []

theorem spans_patch_twoTexts :
    patched "a\nb\n".toList
        (diffSpans twoTexts "a\nb\n".toList "a\nc\nd".toList)
      = "a\nc\nd".toList := by
  have h : Aligned (twoTexts.opcodes (linesOf "a\nb\n".toList)
      (linesOf "a\nc\nd".toList)) (linesOf "a\nb\n".toList)
      (linesOf "a\nc\nd".toList) :=
    .cons (x := ⟨true, 0, 1, 0, 1⟩) (by decide) (by decide)
      (fun _ => by decide +kernel)
      (.cons (x := ⟨false, 1, 2, 1, 3⟩) (by decide) (by decide)
        (fun h => absurd h Bool.false_ne_true) .nil)
  exact (spans_patch twoTexts "a\nb\n".toList "a\nc\nd".toList h).2.2.1

end Evolution

end MemoryOS

namespace MemoryOS

namespace Evolution

open CodeBoundaries (isLineBreak splitLinesFrom)

-- ============ rows

/-- What ends a line: one break, the pair, or the end of the text. -/
def Ending (ending : Text) : Prop :=
  ending = [] ∨ ending = ['\r', '\n'] ∨ ∃ c, isLineBreak c = true ∧ ending = [c]

/-- Text without breaks, and what ends it. -/
def Row (row : Text) : Prop :=
  ∃ body ending, row = body ++ ending
    ∧ (∀ c ∈ body, isLineBreak c = false) ∧ Ending ending

/-- Whether a line has its break. -/
def isEnded (row : Text) : Bool := row.getLast?.any isLineBreak

variable {c : Char} {line row body ending rest : Text} {rows : List Text}

theorem isEnded_ending (hbody : ∀ c ∈ body, isLineBreak c = false)
    (hending : Ending ending) :
    isEnded (body ++ ending) = true ↔ ending ≠ [] := by
  rcases hending with rfl | rfl | ⟨c, hc, rfl⟩
  · have hlast : isEnded body = false := by
      unfold isEnded
      cases hlast : body.getLast? with
      | none => rfl
      | some c => exact hbody c (List.mem_of_getLast? hlast)
    simp [hlast]
  · have hlf : isLineBreak '\n' = true := by decide
    simp [isEnded, hlf]
  · simp [isEnded, hc]

theorem withoutBreak_row (hbody : ∀ c ∈ body, isLineBreak c = false)
    (hending : Ending ending) : withoutBreak (body ++ ending) = body := by
  rcases hending with rfl | rfl | ⟨c, hc, rfl⟩
  · rw [List.append_nil]
    unfold withoutBreak
    split
    case h_1 rest hrev =>
      have hmem : '\n' ∈ body :=
        List.mem_reverse.1 (by rw [hrev]; exact List.mem_cons_self)
      exact absurd (hbody _ hmem) (by decide)
    case h_2 c rest hno hrev =>
      have hmem : c ∈ body :=
        List.mem_reverse.1 (by rw [hrev]; exact List.mem_cons_self)
      rw [if_neg (by rw [hbody c hmem]; exact Bool.false_ne_true)]
    case h_3 hrev => exact (List.reverse_eq_nil_iff.1 hrev).symm
  · unfold withoutBreak
    simp
  · unfold withoutBreak
    rw [List.reverse_append, List.reverse_singleton, List.singleton_append]
    split
    case h_1 rest hrev =>
      have htail := (List.cons.inj hrev).2
      have hmem : '\r' ∈ body :=
        List.mem_reverse.1 (by rw [htail]; exact List.mem_cons_self)
      exact absurd (hbody _ hmem) (by decide)
    case h_2 d rest hno hrev =>
      obtain ⟨rfl, rfl⟩ := List.cons.inj hrev
      rw [if_pos hc, List.reverse_reverse]
    case h_3 hrev => cases hrev

-- ====== reading rows

theorem splitLinesFrom_body (hbody : ∀ c ∈ body, isLineBreak c = false) :
    splitLinesFrom line (body ++ rest) = splitLinesFrom (line ++ body) rest := by
  induction body generalizing line with
  | nil => rw [List.nil_append, List.append_nil]
  | cons c body ih =>
    obtain ⟨hc, hbody⟩ := List.forall_mem_cons.1 hbody
    rw [List.cons_append, splitLinesFrom, hc, Bool.false_and,
      if_neg Bool.false_ne_true, ih hbody, List.append_assoc]
    rfl

theorem splitLinesFrom_break (hc : isLineBreak c = true)
    (hcrlf : ¬ (c = '\r' ∧ rest.head? = some '\n')) :
    splitLinesFrom line (c :: rest) = (line ++ [c]) :: splitLinesFrom [] rest := by
  have hno := not_and_or.1 hcrlf
  rw [splitLinesFrom, if_pos]
  simpa [hc] using hno

theorem splitLinesFrom_row (hrow : Row row) (hended : isEnded row = true)
    (hrest : rest.head? ≠ some '\n') :
    splitLinesFrom line (row ++ rest) = (line ++ row) :: splitLinesFrom [] rest := by
  obtain ⟨body, ending, rfl, hbody, hending⟩ := hrow
  have hne := (isEnded_ending hbody hending).1 hended
  rw [List.append_assoc, splitLinesFrom_body hbody, ← List.append_assoc]
  rcases hending with rfl | rfl | ⟨c, hc, rfl⟩
  · exact absurd rfl hne
  · have hcr : splitLinesFrom (line ++ body) ('\r' :: '\n' :: rest)
        = splitLinesFrom (line ++ body ++ ['\r']) ('\n' :: rest) := by
      rw [splitLinesFrom, if_neg (by simp)]
    rw [List.cons_append, List.singleton_append, hcr,
      splitLinesFrom_break (by decide) (fun h => absurd h.1 (by decide)),
      List.append_assoc]
    rfl
  · rw [List.singleton_append, splitLinesFrom_break hc fun h => hrest h.2]

theorem splitLinesFrom_unended (hrow : Row row) (hended : isEnded row = false) :
    splitLinesFrom line (row ++ rest) = splitLinesFrom (line ++ row) rest := by
  obtain ⟨body, ending, rfl, hbody, hending⟩ := hrow
  have hnil : ending = [] := by
    by_contra hne
    rw [(isEnded_ending hbody hending).2 hne] at hended
    cases hended
  rw [hnil, List.append_nil, splitLinesFrom_body hbody]

/-- What rows are read as, one after another, with what is left of the rows
before. -/
def glue (line : Text) : List Text → List Text
  | [] => if line.isEmpty then [] else [line]
  | row :: rows =>
    if isEnded row then (line ++ row) :: glue [] rows
    else glue (line ++ row) rows

/-- The text of a row, before and after which a line can end. -/
def Printed (row : Text) : Prop :=
  Row row ∧ ∃ c rest, row = c :: rest ∧ c ≠ '\n'

theorem splitLinesFrom_rows (h : ∀ row ∈ rows, Printed row) :
    splitLinesFrom line rows.flatten = glue line rows := by
  induction rows generalizing line with
  | nil => rfl
  | cons row rows ih =>
    obtain ⟨hrow, hrows⟩ := List.forall_mem_cons.1 h
    have hhead : rows.flatten.head? ≠ some '\n' := by
      cases rows with
      | nil => simp
      | cons next rows =>
        obtain ⟨c, rest, rfl, hc⟩ := (hrows next List.mem_cons_self).2
        simpa using hc
    rw [List.flatten_cons, glue]
    by_cases hended : isEnded row = true
    · rw [if_pos hended, splitLinesFrom_row hrow.1 hended hhead, ih hrows]
    · rw [if_neg hended, splitLinesFrom_unended hrow.1
        (Bool.eq_false_iff.2 hended), ih hrows]

-- ====== lines of a text

/-- The line so far: text without breaks, and a carriage return where the
line feed comes next. -/
def Open (line text : Text) : Prop :=
  (∀ c ∈ line, isLineBreak c = false)
    ∨ (text.head? = some '\n'
      ∧ ∃ body, (∀ c ∈ body, isLineBreak c = false) ∧ line = body ++ ['\r'])

theorem row_of_open {text : Text} (hc : isLineBreak c = true)
    (hopen : Open line (c :: text)) : Row (line ++ [c]) := by
  rcases hopen with hline | ⟨hhead, body, hbody, rfl⟩
  · exact ⟨line, [c], rfl, hline, .inr (.inr ⟨c, hc, rfl⟩)⟩
  · obtain rfl : c = '\n' := Option.some.inj hhead
    exact ⟨body, ['\r', '\n'], by simp, hbody, .inr (.inl rfl)⟩

theorem splitLinesFrom_lines {text : Text} (hopen : Open line text) :
    (∀ row ∈ splitLinesFrom line text, Row row ∧ row ≠ [])
      ∧ ∀ before row after, splitLinesFrom line text = before ++ row :: after →
        isEnded row = false → after = [] := by
  induction text generalizing line with
  | nil =>
    rw [splitLinesFrom]
    have hline : ∀ c ∈ line, isLineBreak c = false := by
      rcases hopen with hline | ⟨hhead, -⟩
      · exact hline
      · cases hhead
    split
    case isTrue =>
      refine ⟨by simp, fun before row after h _ => ?_⟩
      exact absurd h.symm (by simp)
    case isFalse hne =>
      constructor
      · intro row hrow
        obtain rfl := List.mem_singleton.1 hrow
        exact ⟨⟨row, [], by simp, hline, .inl rfl⟩, by simpa using hne⟩
      · intro before row after h _
        have hlength := congrArg List.length h
        rw [List.length_singleton, List.length_append, List.length_cons]
          at hlength
        exact List.eq_nil_of_length_eq_zero (by omega)
  | cons c text ih =>
    by_cases hbreak : isLineBreak c = true ∧ ¬ (c = '\r' ∧ text.head? = some '\n')
    · rw [splitLinesFrom_break hbreak.1 hbreak.2]
      have hnew : Open [] text := .inl (by simp)
      obtain ⟨hrows, hlast⟩ := ih hnew
      have hrow := row_of_open hbreak.1 hopen
      constructor
      · intro row hmem
        rcases List.mem_cons.1 hmem with rfl | hmem
        · exact ⟨hrow, by simp⟩
        · exact hrows row hmem
      · intro before row after h hended
        cases before with
        | nil =>
          obtain ⟨rfl, -⟩ := List.cons.inj h
          have htrue : isEnded (line ++ [c]) = true := by
            simp [isEnded, hbreak.1]
          rw [htrue] at hended
          cases hended
        | cons first before =>
          exact hlast before row after (List.cons.inj h).2 hended
    · have hon : splitLinesFrom line (c :: text)
          = splitLinesFrom (line ++ [c]) text := by
        rw [splitLinesFrom, if_neg]
        simpa using fun hc => not_and.1 hbreak hc
      rw [hon]
      apply ih
      have hline : ∀ c ∈ line, isLineBreak c = false := by
        rcases hopen with hline | ⟨hhead, body, hbody, rfl⟩
        · exact hline
        · obtain rfl : c = '\n' := Option.some.inj hhead
          exact absurd ⟨by decide, fun h => absurd h.1 (by decide)⟩ hbreak
      cases hc : isLineBreak c with
      | false =>
        left
        intro d hd
        rcases List.mem_append.1 hd with hd | hd
        · exact hline d hd
        · rw [List.mem_singleton.1 hd, hc]
      | true =>
        right
        have hcrlf := not_not.1 (not_and.1 hbreak hc)
        exact ⟨hcrlf.2, line, hline, by rw [hcrlf.1]⟩

theorem linesOf_rows {text : Text} (h : row ∈ linesOf text) :
    Row row ∧ row ≠ [] :=
  (splitLinesFrom_lines (.inl (by simp))).1 row h

theorem linesOf_last {text : Text} {lines after : List Text}
    (h : linesOf text = lines ++ row :: after) (hended : isEnded row = false) :
    after = [] :=
  (splitLinesFrom_lines (.inl (by simp))).2 lines row after h hended

end Evolution

end MemoryOS
