/-
What a summary is checked against is the change (`_split_diff`).

The diff is printed line by line and read back by what each line begins with.
A line that is printed with its sign may look like the diff's own framing
then, and one without a break runs into the next. Nothing else is lost
(`described_iff`): the change is read back as it was, line by line, and what
is left is common to both texts. For the converse the lines are counted: each
one that is skipped or runs into another is one less to be found.
-/
import MemoryOS.Evolution.Proofs.Printing

namespace MemoryOS.Evolution

open Lib

-- ====== statement vocabulary

/-- The evidence is the change: each line of it is among the lines of the
changed side, the context has common lines only, and a term counts as changed
only if it stands in a line of the change. -/
structure Described (before after : Text) (changes : List Change)
    (evidence : Text) : Prop where
  changed : (changes.map fun c => withoutBreak c.line).Sublist
    ((splitDiff evidence).1.splitOn '\n')
  context : ∃ lines, (splitDiff evidence).2 = ['\n'].intercalate lines
    ∧ ∀ line ∈ lines, line ∈ (linesOf before).map withoutBreak
      ∧ line ∈ (linesOf after).map withoutBreak
  supported : ∀ (script : Script) summary,
    ∀ t ∈ (checkSummary script summary evidence).terms,
      t ∉ (checkSummary script summary evidence).unsupported →
      t ∉ (checkSummary script summary evidence).contextOnly →
      ∃ c ∈ changes, t <:+: withoutBreak c.line

/-- A line that is like the diff's own framing, once it is signed. -/
def Change.masked (c : Change) : Bool :=
  (if c.removed then "--" else "++").toList.isPrefixOf (withoutBreak c.line)

/-- No line of the change looks like the diff's framing, and none but the
last is without its break. -/
def Legible (changes : List Change) : Prop :=
  (∀ c ∈ changes, c.masked = false)
    ∧ ∀ earlier c later, changes = earlier ++ c :: later →
      isEnded c.line = false → later = []

variable {a b : List Text} {before after : Text} {row line : Text}

-- ====== reading back

/-- The changed line a row is read as. -/
def readChange (row : Text) : Option Text :=
  let line := withoutBreak row
  if framing.any fun start => start.toList.isPrefixOf line then none
  else if isChange line then some (line.drop 1) else none

/-- The context line a row is read as. -/
def readContext (row : Text) : Option Text :=
  let line := withoutBreak row
  if framing.any fun start => start.toList.isPrefixOf line then none
  else if isChange line then none
  else some (if line.head? = some ' ' then line.drop 1 else line)

theorem splitDiff_eq (evidence : Text) : splitDiff evidence
    = (['\n'].intercalate ((linesOf evidence).filterMap readChange),
      ['\n'].intercalate ((linesOf evidence).filterMap readContext)) := by
  have hread : ∀ rows : List Text,
      (((rows.map withoutBreak).filter fun line =>
          !framing.any fun start => start.toList.isPrefixOf line).filter
            isChange).map (·.drop 1) = rows.filterMap readChange
      ∧ (((rows.map withoutBreak).filter fun line =>
          !framing.any fun start => start.toList.isPrefixOf line).filter
            fun l => !isChange l).map (fun l =>
              if l.head? = some ' ' then l.drop 1 else l)
        = rows.filterMap readContext := by
    intro rows
    induction rows with
    | nil => exact ⟨rfl, rfl⟩
    | cons row rows ih =>
      rw [List.map_cons, List.filterMap_cons, List.filterMap_cons, ← ih.1,
        ← ih.2]
      unfold readChange readContext
      by_cases hframing : (framing.any fun start =>
          start.toList.isPrefixOf (withoutBreak row)) = true
      · simp [hframing]
      · by_cases hchange : isChange (withoutBreak row) = true
        · simp [hframing, hchange]
        · simp [hframing, hchange]
  rw [← (hread _).1, ← (hread _).2]
  rfl

theorem readChange_framing (h : Framing row) : readChange row = none := by
  obtain ⟨body, rfl, hbody, hframing⟩ := h
  have hline : withoutBreak (body ++ ['\n']) = body :=
    withoutBreak_row hbody (.inr (.inr ⟨'\n', by decide, rfl⟩))
  rw [readChange, hline, if_pos hframing]

theorem readContext_framing (h : Framing row) : readContext row = none := by
  obtain ⟨body, rfl, hbody, hframing⟩ := h
  have hline : withoutBreak (body ++ ['\n']) = body :=
    withoutBreak_row hbody (.inr (.inr ⟨'\n', by decide, rfl⟩))
  rw [readContext, hline, if_pos hframing]

theorem withoutBreak_cons {c : Char} (h : Row line)
    (hc : CodeBoundaries.isLineBreak c = false) :
    withoutBreak (c :: line) = c :: withoutBreak line := by
  obtain ⟨body, ending, rfl, hbody, hending⟩ := h
  rw [withoutBreak_row hbody hending, ← List.cons_append,
    withoutBreak_row (List.forall_mem_cons.2 ⟨hc, hbody⟩) hending]

theorem framing_kept : (framing.any fun start =>
    start.toList.isPrefixOf (' ' :: line)) = false := by
  simp [framing, List.isPrefixOf]

theorem read_kept (h : Row line) : readChange (' ' :: line) = none
    ∧ readContext (' ' :: line) = some (withoutBreak line) := by
  rw [readChange, readContext, withoutBreak_cons h (by decide)]
  simp [framing_kept, isChange]

theorem framing_change (c : Change) : (framing.any fun start =>
    start.toList.isPrefixOf ((if c.removed then '-' else '+')
      :: withoutBreak c.line)) = c.masked := by
  unfold Change.masked
  cases c.removed <;> simp [framing, List.isPrefixOf]

theorem read_change {c : Change} (h : Row c.line) :
    readChange (Shown.change c).row
        = (if c.masked then none else some (withoutBreak c.line))
      ∧ readContext (Shown.change c).row = none := by
  have hsign : CodeBoundaries.isLineBreak (if c.removed then '-' else '+')
      = false := by
    cases c.removed <;> decide
  have hchange : isChange ((if c.removed then '-' else '+')
      :: withoutBreak c.line) = true := by
    cases c.removed <;> simp [isChange]
  simp only [readChange, readContext, Shown.row, withoutBreak_cons h hsign,
    framing_change, hchange]
  cases c.masked <;> simp

-- ====== rows that are lines

/-- A printed row of two texts. -/
structure Readable (a b : List Text) (s : Shown) : Prop where
  of : s.Of a b
  framing : ∀ row, s = .framing row → Framing row

/-- Every line of the texts is a row, and holds something. -/
def Rows (a : List Text) : Prop := ∀ line ∈ a, Row line ∧ line ≠ []

theorem printed_cons {c : Char} (h : Row line)
    (hc : CodeBoundaries.isLineBreak c = false) : Printed (c :: line) := by
  obtain ⟨body, ending, rfl, hbody, hending⟩ := h
  refine ⟨⟨c :: body, ending, rfl, List.forall_mem_cons.2 ⟨hc, hbody⟩, hending⟩,
    c, body ++ ending, rfl, ?_⟩
  rintro rfl
  exact absurd hc (by decide)

theorem printed_framing (h : Framing row) : Printed row := by
  obtain ⟨body, rfl, hbody, hframing⟩ := h
  cases body with
  | nil => exact absurd hframing (by decide)
  | cons c body =>
    obtain ⟨hc, hrest⟩ := List.forall_mem_cons.1 hbody
    have hrow : Row (body ++ ['\n']) :=
      ⟨body, ['\n'], rfl, hrest, .inr (.inr ⟨'\n', by decide, rfl⟩)⟩
    exact printed_cons hrow hc

theorem Readable.of_change {c : Change} (ha : Rows a) (hb : Rows b)
    (h : Readable a b (.change c)) : Row c.line ∧ c.line ≠ [] := by
  have hline : c.line ∈ (if c.removed then a else b) := h.of
  split at hline
  case isTrue => exact ha _ hline
  case isFalse => exact hb _ hline

theorem Readable.printed {s : Shown} (ha : Rows a) (hb : Rows b) (h : Readable a b s) :
    Printed s.row := by
  cases s with
  | framing row => exact printed_framing (h.framing row rfl)
  | kept line => exact printed_cons (ha line h.of.1).1 (by decide)
  | change c =>
    refine printed_cons (h.of_change ha hb).1 ?_
    cases c.removed <;> decide

theorem isEnded_cons {c : Char} (h : line ≠ []) : isEnded (c :: line) = isEnded line := by
  unfold isEnded
  rw [List.getLast?_cons, List.getLast?_eq_some_getLast h, Option.getD_some]

theorem Readable.isEnded {s : Shown} (ha : Rows a) (hb : Rows b) (h : Readable a b s) :
    isEnded s.row = s.ended := by
  cases s with
  | framing row =>
    obtain ⟨body, rfl, -, -⟩ := h.framing row rfl
    have hlf : CodeBoundaries.isLineBreak '\n' = true := by decide
    simp [Shown.row, Shown.ended, Evolution.isEnded, hlf]
  | kept line => exact isEnded_cons (ha line h.of.1).2
  | change c => exact isEnded_cons (h.of_change ha hb).2

theorem Readable.read {s : Shown} (ha : Rows a) (hb : Rows b) (h : Readable a b s) :
    readChange s.row = (s.change?.bind fun c =>
        if c.masked then none else some (withoutBreak c.line))
      ∧ ∀ line, readContext s.row = some line →
        line ∈ a.map withoutBreak ∧ line ∈ b.map withoutBreak := by
  cases s with
  | framing row =>
    have hnone : readContext (Shown.framing row).row = none :=
      readContext_framing (h.framing row rfl)
    refine ⟨readChange_framing (h.framing row rfl), fun line hline => ?_⟩
    rw [hnone] at hline
    cases hline
  | kept line =>
    have hread := read_kept (ha line h.of.1).1
    refine ⟨hread.1, fun other hother => ?_⟩
    rw [Shown.row, hread.2] at hother
    obtain rfl := Option.some.inj hother
    exact ⟨List.mem_map_of_mem h.of.1, List.mem_map_of_mem h.of.2⟩
  | change c =>
    have hread := read_change (h.of_change ha hb).1
    refine ⟨hread.1, fun line hline => ?_⟩
    rw [hread.2] at hline
    cases hline

-- ====== whole rows

/-- No row but the last is without its break. -/
def Whole : List Shown → Prop
  | [] => True
  | s :: rest => (s.ended = false → rest = []) ∧ Whole rest

variable {shown : List Shown}

theorem glue_whole (ha : Rows a) (hb : Rows b) (hsound : ∀ s ∈ shown, Readable a b s)
    (hwhole : Whole shown) : glue [] (shown.map Shown.row) = shown.map Shown.row := by
  induction shown with
  | nil => rfl
  | cons s rest ih =>
    obtain ⟨hs, hrest⟩ := List.forall_mem_cons.1 hsound
    rw [List.map_cons, glue, hs.isEnded ha hb]
    cases hended : s.ended with
    | true => rw [if_pos rfl, ih hrest hwhole.2, List.nil_append]
    | false =>
      obtain ⟨-, c, more, hrow, -⟩ := hs.printed ha hb
      rw [if_neg Bool.false_ne_true, hwhole.1 hended, List.map_nil, glue,
        List.nil_append, hrow]
      rfl

theorem length_glue (line : Text) (rows : List Text) :
    (glue line rows).length ≤ rows.length + 1
      ∧ (rows ≠ [] ∨ line = [] → (glue line rows).length ≤ rows.length) := by
  induction rows generalizing line with
  | nil =>
    rw [glue]
    split
    case isTrue => exact ⟨Nat.zero_le _, fun _ => Nat.le_refl _⟩
    case isFalse hne =>
      refine ⟨Nat.le_refl _, fun h => ?_⟩
      rcases h with h | h
      · exact absurd rfl h
      · exact absurd (by rw [h]; rfl) hne
  | cons row rows ih =>
    rw [glue]
    split
    case isTrue =>
      have hrest := (ih []).2 (.inr rfl)
      rw [List.length_cons, List.length_cons]
      exact ⟨by omega, fun _ => by omega⟩
    case isFalse =>
      have hrest := (ih (line ++ row)).1
      rw [List.length_cons]
      exact ⟨by omega, fun _ => hrest⟩

theorem length_changes (h : ∀ s ∈ shown, s.change?.isSome = true) :
    (shown.filterMap Shown.change?).length = shown.length := by
  induction shown with
  | nil => rfl
  | cons s rest ih =>
    obtain ⟨hs, hrest⟩ := List.forall_mem_cons.1 h
    obtain ⟨c, hc⟩ := Option.isSome_iff_exists.1 hs
    rw [List.filterMap_cons_some hc, List.length_cons, List.length_cons, ih hrest]

theorem length_glued (ha : Rows a) (hb : Rows b)
    (hsound : ∀ s ∈ shown, Readable a b s) (htight : Tight shown)
    (hwhole : ¬ Whole shown) :
    max 1 ((glue [] (shown.map Shown.row)).filterMap readChange).length
      < (shown.filterMap Shown.change?).length := by
  induction shown with
  | nil => exact absurd trivial hwhole
  | cons s rest ih =>
    obtain ⟨hs, hrest⟩ := List.forall_mem_cons.1 hsound
    rw [List.map_cons, glue, hs.isEnded ha hb]
    cases hended : s.ended with
    | true =>
      have hno : ¬ Whole rest := by
        intro hrest
        exact hwhole ⟨fun h => absurd (hended.symm.trans h) (by decide), hrest⟩
      have hlater := ih hrest htight.2 hno
      have hread := (hs.read ha hb).1
      rw [if_pos rfl, List.nil_append, List.filterMap_cons, List.filterMap_cons,
        hread]
      cases s.change? with
      | none => exact hlater
      | some c =>
        simp only [Option.bind_some]
        split
        case h_1 =>
          rw [List.length_cons]
          omega
        case h_2 =>
          rw [List.length_cons, List.length_cons]
          omega
    | false =>
      rcases htight.1 hended with hnil | ⟨hchange, hall⟩
      · exact absurd (by rw [hnil]; exact ⟨fun _ => rfl, trivial⟩) hwhole
      · have hne : rest ≠ [] := by
          rintro rfl
          exact hwhole ⟨fun _ => rfl, trivial⟩
        have hcount : ((s :: rest).filterMap Shown.change?).length
            = (s :: rest).length := by
          exact length_changes (List.forall_mem_cons.2 ⟨hchange, hall⟩)
        have hglue := (length_glue ([] ++ s.row) (rest.map Shown.row)).2
          (.inl (by simpa using hne))
        have hread := List.length_filterMap_le readChange
          (glue ([] ++ s.row) (rest.map Shown.row))
        have hpos := List.length_pos_of_ne_nil hne
        rw [if_neg Bool.false_ne_true, hcount, List.length_cons]
        rw [List.length_map] at hglue
        omega

theorem whole_of_tight (htight : Tight shown)
    (hlast : ∀ earlier c later,
      shown.filterMap Shown.change? = earlier ++ c :: later →
      isEnded c.line = false → later = []) : Whole shown := by
  induction shown with
  | nil => trivial
  | cons s rest ih =>
    refine ⟨fun hended => ?_, ih htight.2 fun earlier c later hsplit => ?_⟩
    · rcases htight.1 hended with hnil | ⟨hchange, hall⟩
      · exact hnil
      · obtain ⟨c, rfl⟩ : ∃ c, s = .change c := by
          cases s with
          | framing row => cases hchange
          | kept line => cases hchange
          | change c => exact ⟨c, rfl⟩
        have hnone := hlast [] c _ rfl hended
        apply List.eq_nil_of_length_eq_zero
        rw [← length_changes hall, hnone]
        rfl
    · cases hchange : s.change? with
      | none =>
        apply hlast earlier c later
        rw [List.filterMap_cons_none hchange, hsplit]
      | some d =>
        apply hlast (d :: earlier) c later
        rw [List.filterMap_cons_some hchange, hsplit]
        rfl

theorem last_of_whole (hwhole : Whole shown) {earlier later : List Change}
    {c : Change} (hsplit : shown.filterMap Shown.change? = earlier ++ c :: later)
    (hended : isEnded c.line = false) : later = [] := by
  induction shown generalizing earlier with
  | nil => exact absurd hsplit (by simp)
  | cons s rest ih =>
    cases hchange : s.change? with
    | none =>
      rw [List.filterMap_cons_none hchange] at hsplit
      exact ih hwhole.2 hsplit
    | some d =>
      rw [List.filterMap_cons_some hchange] at hsplit
      cases earlier with
      | cons first earlier => exact ih hwhole.2 (List.cons.inj hsplit).2
      | nil =>
        obtain ⟨rfl, rfl⟩ := List.cons.inj hsplit
        have hs : s = .change d := by
          cases s with
          | framing row => cases hchange
          | kept line => cases hchange
          | change c => exact congrArg _ (Option.some.inj hchange)
        rw [hwhole.1 (by rw [hs]; exact hended)]
        rfl

/-- What is read of the change. -/
def Change.read (c : Change) : Option Text :=
  if c.masked then none else some (withoutBreak c.line)

theorem read_rows (ha : Rows a) (hb : Rows b) (hsound : ∀ s ∈ shown, Readable a b s) :
    (shown.map Shown.row).filterMap readChange
      = (shown.filterMap Shown.change?).filterMap Change.read := by
  rw [List.filterMap_map, List.filterMap_filterMap]
  apply List.filterMap_congr
  intro s hs
  exact ((hsound s hs).read ha hb).1

theorem read_all {changes : List Change} (h : ∀ c ∈ changes, c.masked = false) :
    changes.filterMap Change.read = changes.map fun c => withoutBreak c.line := by
  rw [← List.filterMap_eq_map]
  apply List.filterMap_congr
  intro c hc
  unfold Change.read
  rw [h c hc, if_neg Bool.false_ne_true]
  rfl

theorem length_read {changes : List Change} {c : Change} (hc : c ∈ changes)
    (hmasked : c.masked = true) :
    (changes.filterMap Change.read).length < changes.length := by
  obtain ⟨earlier, later, rfl⟩ := List.append_of_mem hc
  have hskip : Change.read c = none := if_pos hmasked
  have hearlier := List.length_filterMap_le Change.read earlier
  have hlater := List.length_filterMap_le Change.read later
  rw [List.filterMap_append, List.filterMap_cons_none hskip, List.length_append,
    List.length_append, List.length_cons]
  omega

-- ====== terms of a line

theorem infix_of_joined {t : Text} {lines : List Text} (hne : t ≠ [])
    (ht : '\n' ∉ t) (h : t <:+: ['\n'].intercalate lines) :
    ∃ line ∈ lines, t <:+: line := by
  induction lines with
  | nil =>
    rw [List.intercalate_nil] at h
    exact absurd (List.eq_nil_of_infix_nil h) hne
  | cons line lines ih =>
    cases lines with
    | nil =>
      rw [List.intercalate_singleton] at h
      exact ⟨line, List.mem_cons_self, h⟩
    | cons next rest =>
      have hjoined : ['\n'].intercalate (line :: next :: rest)
          = line ++ '\n' :: ['\n'].intercalate (next :: rest) := by
        simp [List.intercalate]
      obtain ⟨before, after, hsplit⟩ := h
      rw [hjoined, List.append_eq_append_iff] at hsplit
      rcases hsplit with ⟨more, hline, -⟩ | ⟨more, hfront, hback⟩
      · exact ⟨line, List.mem_cons_self, before, more, hline.symm⟩
      cases more with
      | nil =>
        rw [List.append_nil] at hfront
        exact ⟨line, List.mem_cons_self, before, [], by simpa using hfront⟩
      | cons c more =>
        obtain ⟨rfl, hlater⟩ := List.cons.inj hback
        rcases List.append_eq_append_iff.1 hfront with
          ⟨gap, -, hgap⟩ | ⟨gap, -, hgap⟩
        · exact absurd (by rw [hgap]; simp) ht
        cases gap with
        | nil =>
          rw [List.nil_append] at hgap
          exact absurd (by rw [← hgap]; simp) ht
        | cons d gap =>
          obtain ⟨other, hother, hin⟩ := ih
            ⟨gap, after, by rw [hlater, (List.cons.inj hgap).2]; rfl⟩
          exact ⟨other, List.mem_cons_of_mem line hother, hin⟩

theorem takes_term (script : Script) : (term script).Takes (· ≠ '\n') := by
  have hchar : ∀ {q : Char → Bool}, q '\n' = false →
      (Matcher.char q).Takes (· ≠ '\n') := by
    intro q hq
    apply Matcher.takes_char
    rintro c hc rfl
    exact absurd (hq.symm.trans hc) (by decide)
  have hboundary : (boundary script).Takes (· ≠ '\n') := Matcher.takes_look _
  have hlower : (Matcher.plus (.char fun c => c.isLower || c.isDigit)).Takes
      (· ≠ '\n') := (hchar (by decide)).plus
  unfold term
  apply Matcher.takes_oneOf
  simp only [List.forall_mem_cons]
  refine ⟨?_, ?_, ?_, ?_, by simp⟩
  all_goals
    apply Matcher.takes_all
    simp only [List.forall_mem_cons]
  · exact ⟨hchar (by decide), hchar (by decide), hchar (by decide),
      (hchar (by decide)).upTo 78, hchar (by decide), by simp⟩
  · refine ⟨hboundary, hchar (by decide), (hchar (by decide)).star,
      (Matcher.takes_all ?_).plus, hboundary, by simp⟩
    simp only [List.forall_mem_cons]
    exact ⟨hchar (by decide), (hchar (by decide)).plus, by simp⟩
  · refine ⟨hboundary, hlower, (Matcher.takes_all ?_).plus, hboundary, by simp⟩
    simp only [List.forall_mem_cons]
    exact ⟨hchar (by decide), hlower, by simp⟩
  · refine ⟨hboundary, Matcher.takes_oneOf ?_, hboundary, by simp⟩
    simp only [List.forall_mem_cons]
    refine ⟨Matcher.takes_all ?_, Matcher.takes_all ?_, by simp⟩
    · simp only [List.forall_mem_cons]
      exact ⟨(hchar (by decide)).plus, hchar (by decide),
        (hchar (by decide)).star, by simp⟩
    · simp only [List.forall_mem_cons]
      exact ⟨hchar (by decide), hlower, hchar (by decide),
        (hchar (by decide)).star, by simp⟩

theorem term_line {script : Script} {summary t : Text}
    (h : t ∈ termsOf script summary) : t ≠ [] ∧ '\n' ∉ t := by
  have hfound : ∀ found ∈ (term script).findall summary,
      '\n' ∉ strip (groupOf found) := by
    intro found hfound hbreak
    have hmem : '\n' ∈ found := by
      have hgroup := mem_of_mem_strip hbreak
      unfold groupOf at hgroup
      split at hgroup
      case h_1 => exact hgroup
      case h_2 c rest =>
        split at hgroup
        case isTrue =>
          exact List.mem_cons_of_mem c (List.mem_of_mem_dropLast hgroup)
        case isFalse => exact hgroup
    exact (takes_term script).of_mem_findall hfound _ hmem rfl
  unfold termsOf at h
  -- the terms so far are of one line, and so is the next one
  suffices hfold : ∀ (all : List Text) (terms : List Text),
      (∀ found ∈ all, '\n' ∉ strip (groupOf found)) →
      (∀ t ∈ terms, t ≠ [] ∧ '\n' ∉ t) →
      ∀ t ∈ all.foldl (fun terms found =>
        let term := strip (groupOf found)
        if decide (term.length < 3)
            || notATerm.any (fun t => decide (t.toList = script.lower term))
            || terms.contains term then terms
        else terms ++ [term]) terms, t ≠ [] ∧ '\n' ∉ t from
    hfold _ [] hfound (by simp) t h
  intro all
  induction all with
  | nil => exact fun terms _ hterms => hterms
  | cons found all ih =>
    intro terms hall hterms
    obtain ⟨hone, hall⟩ := List.forall_mem_cons.1 hall
    rw [List.foldl_cons]
    apply ih _ hall
    simp only
    split
    case isTrue => exact hterms
    case isFalse hlong =>
      intro t ht
      rcases List.mem_append.1 ht with ht | ht
      · exact hterms t ht
      · obtain rfl := List.mem_singleton.1 ht
        refine ⟨fun hnil => hlong ?_, hone⟩
        simp [hnil]

-- ====== the evidence

section
variable {opcodes junk : List Text → List Text → List Opcode}
  {aLabel bLabel : Text}

variable (opcodes) in
theorem lines_unified
    (haLabel : ∀ c ∈ aLabel, CodeBoundaries.isLineBreak c = false)
    (hbLabel : ∀ c ∈ bLabel, CodeBoundaries.isLineBreak c = false)
    (h : Paired (junk (linesOf before) (linesOf after)) (linesOf before)
      (linesOf after)) :
    ∃ shown : List Shown,
      linesOf (unified (difflib opcodes junk) before after aLabel bLabel)
          = glue [] (shown.map Shown.row)
        ∧ shown.filterMap Shown.change?
          = changesOf (linesOf before) (linesOf after)
            (junk (linesOf before) (linesOf after))
        ∧ Tight shown ∧ ∀ s ∈ shown, Readable (linesOf before) (linesOf after) s := by
  have hheader : ∀ (start : Text) {label : Text}, start.all
        (fun c => !CodeBoundaries.isLineBreak c) = true →
      (framing.any fun begins => begins.toList.isPrefixOf (start ++ label)) = true →
      (∀ c ∈ label, CodeBoundaries.isLineBreak c = false) →
      Framing (start ++ label ++ "\n".toList) := by
    intro start label hstart hframing hlabel
    refine ⟨start ++ label, rfl, fun c hc => ?_, hframing⟩
    exact (List.mem_append.1 hc).elim (unbroken hstart c) (hlabel c)
  obtain ⟨shown, hrows, hchanges, htight, hsound⟩ := shown_unifiedDiff (n := 2)
    (fun _ _ _ => linesOf_last) (fun _ _ _ => linesOf_last)
    (hheader "--- ".toList (by decide) (by simp [framing]) haLabel)
    (hheader "+++ ".toList (by decide) (by simp [framing]) hbLabel) h
  have hsound : ∀ s ∈ shown, Readable (linesOf before) (linesOf after) s :=
    fun s hs => ⟨(hsound s hs).1, (hsound s hs).2⟩
  refine ⟨shown, ?_, hchanges, htight, hsound⟩
  have htext : unified (difflib opcodes junk) before after aLabel bLabel
      = (shown.map Shown.row).flatten := by
    rw [← hrows]
    rfl
  rw [htext]
  apply splitLinesFrom_rows
  intro row hrow
  obtain ⟨s, hs, rfl⟩ := List.mem_map.1 hrow
  exact (hsound s hs).printed (fun _ => linesOf_rows) (fun _ => linesOf_rows)

theorem break_withoutBreak (h : Row line) : '\n' ∉ withoutBreak line := by
  obtain ⟨body, ending, rfl, hbody, hending⟩ := h
  rw [withoutBreak_row hbody hending]
  intro hbreak
  exact absurd (hbody _ hbreak) (by decide)

theorem break_readChange {evidence t : Text}
    (h : t ∈ (linesOf evidence).filterMap readChange) : '\n' ∉ t := by
  obtain ⟨row, hrow, hread⟩ := List.mem_filterMap.1 h
  have hline := break_withoutBreak (linesOf_rows hrow).1
  unfold readChange at hread
  simp only at hread
  split at hread
  case isTrue => cases hread
  case isFalse =>
    split at hread
    case isTrue =>
      obtain rfl := Option.some.inj hread
      exact fun hbreak => hline (List.mem_of_mem_drop hbreak)
    case isFalse => cases hread

theorem splitOn_changed {evidence : Text} :
    (splitDiff evidence).1.splitOn '\n'
      = if (linesOf evidence).filterMap readChange = [] then [[]]
        else (linesOf evidence).filterMap readChange := by
  rw [splitDiff_eq]
  by_cases hnil : (linesOf evidence).filterMap readChange = []
  · rw [if_pos hnil, hnil, List.intercalate_nil]
    rfl
  · rw [if_neg hnil]
    exact List.splitOn_intercalate '\n' (fun _ ht => break_readChange ht) hnil

theorem described_of_legible
    (haLabel : ∀ c ∈ aLabel, CodeBoundaries.isLineBreak c = false)
    (hbLabel : ∀ c ∈ bLabel, CodeBoundaries.isLineBreak c = false)
    (h : Paired (junk (linesOf before) (linesOf after)) (linesOf before)
      (linesOf after))
    (hlegible : Legible (changesOf (linesOf before) (linesOf after)
      (junk (linesOf before) (linesOf after)))) :
    Described before after
      (changesOf (linesOf before) (linesOf after)
        (junk (linesOf before) (linesOf after)))
      (unified (difflib opcodes junk) before after aLabel bLabel) := by
  obtain ⟨shown, hlines, hchanges, htight, hsound⟩ :=
    lines_unified opcodes haLabel hbLabel h
  generalize unified (difflib opcodes junk) before after aLabel bLabel = evidence
    at hlines ⊢
  rw [← hchanges] at hlegible ⊢
  have ha : Rows (linesOf before) := fun _ => linesOf_rows
  have hb : Rows (linesOf after) := fun _ => linesOf_rows
  have hwhole := whole_of_tight htight hlegible.2
  rw [glue_whole ha hb hsound hwhole] at hlines
  have hread : (linesOf evidence).filterMap readChange
      = (shown.filterMap Shown.change?).map fun c => withoutBreak c.line := by
    rw [hlines, read_rows ha hb hsound, read_all hlegible.1]
  refine ⟨?_, ⟨(linesOf evidence).filterMap readContext, ?_, ?_⟩, ?_⟩
  · rw [splitOn_changed, hread]
    split
    case isTrue hnil => exact hnil ▸ List.nil_sublist _
    case isFalse => exact List.Sublist.refl _
  · rw [splitDiff_eq]
  · intro line hline
    rw [hlines, List.filterMap_map] at hline
    obtain ⟨s, hs, hline⟩ := List.mem_filterMap.1 hline
    exact ((hsound s hs).read ha hb).2 line hline
  · intro script summary t ht hsupported hcontext
    have hchanged : t <:+: (splitDiff evidence).1 := by
      by_contra hno
      by_cases hin : t <:+: (splitDiff evidence).2
      · exact hcontext (List.mem_filter.2 ⟨ht, by simp [hno, hin]⟩)
      · exact hsupported (List.mem_filter.2 ⟨ht, by simp [hno, hin]⟩)
    rw [splitDiff_eq, hread] at hchanged
    obtain ⟨hne, hbreak⟩ := term_line ht
    obtain ⟨line, hline, hin⟩ := infix_of_joined hne hbreak hchanged
    obtain ⟨c, hc, rfl⟩ := List.mem_map.1 hline
    exact ⟨c, hc, hin⟩

theorem legible_of_described
    (haLabel : ∀ c ∈ aLabel, CodeBoundaries.isLineBreak c = false)
    (hbLabel : ∀ c ∈ bLabel, CodeBoundaries.isLineBreak c = false)
    (h : Paired (junk (linesOf before) (linesOf after)) (linesOf before)
      (linesOf after))
    (hdescribed : Described before after
      (changesOf (linesOf before) (linesOf after)
        (junk (linesOf before) (linesOf after)))
      (unified (difflib opcodes junk) before after aLabel bLabel)) :
    Legible (changesOf (linesOf before) (linesOf after)
      (junk (linesOf before) (linesOf after))) := by
  obtain ⟨shown, hlines, hchanges, htight, hsound⟩ :=
    lines_unified opcodes haLabel hbLabel h
  have hchanged := hdescribed.changed
  generalize unified (difflib opcodes junk) before after aLabel bLabel = evidence
    at hlines hchanged
  rw [← hchanges] at hchanged ⊢
  have ha : Rows (linesOf before) := fun _ => linesOf_rows
  have hb : Rows (linesOf after) := fun _ => linesOf_rows
  have hcount := hchanged.length_le
  rw [List.length_map, splitOn_changed] at hcount
  have hwhole : Whole shown := by
    by_contra hno
    have hlost := length_glued ha hb hsound htight hno
    rw [← hlines] at hlost
    split at hcount
    case isTrue =>
      rw [List.length_singleton] at hcount
      omega
    case isFalse => omega
  refine ⟨fun c hc => ?_, fun _ _ _ => last_of_whole hwhole⟩
  rw [glue_whole ha hb hsound hwhole] at hlines
  have hread : (linesOf evidence).filterMap readChange
      = (shown.filterMap Shown.change?).filterMap Change.read := by
    rw [hlines, read_rows ha hb hsound]
  by_contra hmasked
  have hmasked : c.masked = true := by simpa using hmasked
  have hlost := length_read hc hmasked
  rw [hread] at hcount
  split at hcount
  case isFalse => omega
  case isTrue hnil =>
    -- one line, read as the empty one
    rw [List.length_singleton] at hcount
    have hpos := List.length_pos_of_mem hc
    obtain ⟨d, hone⟩ := List.length_eq_one_iff.1 (Nat.le_antisymm hcount hpos)
    rw [hone] at hc hread hchanged
    obtain rfl := List.mem_singleton.1 hc
    rw [splitOn_changed, hread, if_pos (by rw [← hone]; exact hnil)] at hchanged
    have hblank : withoutBreak c.line = [] := by
      simpa using hchanged.mem List.mem_cons_self
    unfold Change.masked at hmasked
    rw [hblank] at hmasked
    cases hremoved : c.removed <;> simp [hremoved] at hmasked

/-- The evidence of a change is the change exactly when the change is legible:
no deleted line begins with `--`, no inserted one with `++`, and none but the
last is without its break. -/
theorem described_iff (opcodes junk : List Text → List Text → List Opcode)
    (before after : Text)
    (h : Paired (junk (linesOf before) (linesOf after)) (linesOf before)
      (linesOf after)) :
    Described before after
        (changesOf (linesOf before) (linesOf after)
          (junk (linesOf before) (linesOf after)))
        (unified (difflib opcodes junk) before after "before".toList
          "after".toList)
      ↔ Legible (changesOf (linesOf before) (linesOf after)
        (junk (linesOf before) (linesOf after))) :=
  ⟨legible_of_described (unbroken (by decide)) (unbroken (by decide)) h,
    described_of_legible (unbroken (by decide)) (unbroken (by decide)) h⟩

-- ------ a line after the first is added, or is deleted

/-- The opcodes for a second line that is added. -/
def secondAdded (_ _ : List Text) : List Opcode :=
  [⟨.equal, 0, 1, 0, 1⟩, ⟨.insert, 1, 1, 1, 2⟩]

/-- The opcodes for a second line that is deleted. -/
def secondDeleted (_ _ : List Text) : List Opcode :=
  [⟨.equal, 0, 1, 0, 1⟩, ⟨.delete, 1, 2, 1, 1⟩]

theorem described_iff_added :
    Described "x\n".toList "x\ny\n".toList [⟨false, "y\n".toList⟩]
      (unified (difflib secondAdded secondAdded) "x\n".toList "x\ny\n".toList
        "before".toList "after".toList) := by
  have h : Paired (secondAdded (linesOf "x\n".toList) (linesOf "x\ny\n".toList))
      (linesOf "x\n".toList) (linesOf "x\ny\n".toList) :=
    ⟨.cons (x := ⟨true, 0, 1, 0, 1⟩) (by decide) (by decide)
      (fun _ => by decide +kernel)
      (.cons (x := ⟨false, 1, 1, 1, 2⟩) (by decide) (by decide)
        (fun h => absurd h Bool.false_ne_true) .nil), by decide⟩
  apply (described_iff secondAdded secondAdded _ _ h).2
  refine ⟨by decide +kernel, fun earlier c later hsplit hended => ?_⟩
  have hlength := congrArg List.length hsplit
  rw [List.length_append, List.length_cons] at hlength
  have hone : (changesOf (linesOf "x\n".toList) (linesOf "x\ny\n".toList)
      (secondAdded (linesOf "x\n".toList)
        (linesOf "x\ny\n".toList))).length = 1 := by
    decide +kernel
  exact List.eq_nil_of_length_eq_zero (by omega)

/-- A comment of two dashes that is deleted looks like a header of the diff. -/
theorem not_described :
    Paired (secondDeleted (linesOf "x\n-- y\n".toList) (linesOf "x\n".toList))
        (linesOf "x\n-- y\n".toList) (linesOf "x\n".toList)
      ∧ ¬ Described "x\n-- y\n".toList "x\n".toList [⟨true, "-- y\n".toList⟩]
        (unified (difflib secondDeleted secondDeleted) "x\n-- y\n".toList
          "x\n".toList "before".toList "after".toList) := by
  constructor
  · exact ⟨.cons (x := ⟨true, 0, 1, 0, 1⟩) (by decide) (by decide)
      (fun _ => by decide +kernel)
      (.cons (x := ⟨false, 1, 2, 1, 1⟩) (by decide) (by decide)
        (fun h => absurd h Bool.false_ne_true) .nil), by decide⟩
  · intro h
    have hlost : (splitDiff (unified (difflib secondDeleted secondDeleted)
        "x\n-- y\n".toList "x\n".toList "before".toList
        "after".toList)).1 = [] := by
      decide +kernel
    have hchanged := h.changed
    rw [hlost] at hchanged
    exact absurd (hchanged.mem List.mem_cons_self) (by decide +kernel)

end

end MemoryOS.Evolution
