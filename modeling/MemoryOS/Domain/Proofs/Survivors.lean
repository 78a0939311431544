/-
Which characters `normalize_text` leaves, said at once.

Whether a composed character survives is read off its place (`survives`): a
mark at the start, the CR of a CRLF, whitespace with nothing visible after it
on its line, and a break with nothing visible before it or on the next two
lines go. The six rewrites leave exactly the others (`normalizeText_kept`).
The proof goes from the end of the text, where each rewrite decides by what
is left after the character (`settle_eq_keptRight`); the breaks that start
the text come last (`keptIn_eq`).
-/
import MemoryOS.Domain.Proofs.Normalization

namespace MemoryOS

-- ====== statement vocabulary

/-- One of the next `n` lines, the rest of this one included, is not blank. -/
def visibleWithin (n : Nat) (after : Text) : Bool :=
  ((pieces after).take n).any fun line => !isBlank line

/-- Whether a character of composed text is left, by what stands before and
after it. -/
def survives (before : Text) (c : Char) (after : Text) : Bool :=
  if c = byteOrderMark then !before.isEmpty
  else if c = '\r' ∧ after.head? = some '\n' then false
  else if c = '\r' ∨ c = '\n' then
    !isBlank (dropMark before) && visibleWithin 2 after
  else if isSpace c = true then visibleWithin 1 after
  else true

/-- A character as it is written. -/
def written (c : Char) : Char := if c = '\r' then '\n' else c

/-- What is left of a part of a composed text. -/
def keptIn (before : Text) : Text → Text → Text
  | [], _ => []
  | c :: text, after =>
    if survives before c (text ++ after) then
      written c :: keptIn (before ++ [c]) text after
    else keptIn (before ++ [c]) text after

/-- How many characters go of a part of a composed text. -/
def lostIn (before : Text) : Text → Text → Nat
  | [], _ => 0
  | c :: text, after =>
    if survives before c (text ++ after) then
      lostIn (before ++ [c]) text after
    else lostIn (before ++ [c]) text after + 1

variable {nfc : Text → Text} {c : Char} {text before after : Text}

theorem length_keptIn (before text after : Text) :
    (keptIn before text after).length + lostIn before text after
      = text.length := by
  induction text generalizing before with
  | nil => rfl
  | cons c text ih =>
    have hrest := ih (before ++ [c])
    rw [keptIn, lostIn]
    split
    case isTrue =>
      rw [List.length_cons, List.length_cons]
      omega
    case isFalse =>
      rw [List.length_cons]
      omega

theorem keptIn_append (before text more after : Text) :
    keptIn before (text ++ more) after
      = keptIn before text (more ++ after) ++ keptIn (before ++ text) more after := by
  induction text generalizing before with
  | nil => simp [keptIn]
  | cons c text ih =>
    have hrest := ih (before ++ [c])
    rw [List.cons_append, keptIn, keptIn, hrest, List.append_assoc,
      List.append_assoc, List.singleton_append]
    split
    case isTrue => rfl
    case isFalse => rfl

-- ====== from the end of the text

/-- Whether a character is left but for the breaks that start the text. -/
def stays (c : Char) (after : Text) : Bool :=
  if c = '\r' ∧ after.head? = some '\n' then false
  else if c = '\r' ∨ c = '\n' then visibleWithin 2 after
  else if isSpace c = true then visibleWithin 1 after
  else true

/-- What stays of a text. -/
def keptRight : Text → Text
  | [] => []
  | c :: text =>
    if stays c text then written c :: keptRight text else keptRight text

/-- The lines of a text without trailing whitespace. -/
def trimmed (text : Text) : Text :=
  ['\n'].intercalate ((pieces text).map rstrip)

theorem sift_trimmed :
    sift trailingSpace (replaceCr (replaceCrlf text)) = trimmed text := by
  rw [← rstripLines_eq, rstripLines, pieces_eq, trimmed]

theorem settle_crlf (h : c = '\r' ∧ text.head? = some '\n') :
    settle (c :: text) = settle text := by
  unfold settle
  rw [replaceCrlf, if_pos h]

theorem settle_break (hc : c = '\r' ∨ c = '\n')
    (hcrlf : ¬ (c = '\r' ∧ text.head? = some '\n')) :
    settle (c :: text)
      = if ['\n', '\n'] <+: trimmed text ∨ settle text = [] then settle text
        else '\n' :: settle text := by
  have hwritten : (if c = '\r' then '\n' else c) = '\n' := by
    rcases hc with rfl | rfl <;> rfl
  have hspace : ∀ kept, trailingSpace '\n' kept = false := by
    simp [trailingSpace]
  have hthird : thirdBreak '\n' (sift thirdBreak (trimmed text)) = true
      ↔ ['\n', '\n'] <+: trimmed text := by
    rw [thirdBreak, isPrefixOf_sift_thirdBreak]
    simp
  unfold settle
  rw [replaceCrlf, if_neg hcrlf, replaceCr, List.map_cons, hwritten, ← replaceCr,
    sift_cons_keep (hspace _), sift_trimmed]
  by_cases hgo : ['\n', '\n'] <+: trimmed text
  · rw [if_pos (.inl hgo), sift_cons_drop (hthird.2 hgo)]
  · rw [sift_cons_keep (Bool.eq_false_iff.2 fun h => hgo (hthird.1 h))]
    by_cases hnil : sift trailingBreak (sift thirdBreak (trimmed text)) = []
    · rw [if_pos (.inr hnil), sift_cons_drop (by simp [trailingBreak, hnil])]
    · rw [if_neg (not_or.2 ⟨hgo, hnil⟩),
        sift_cons_keep (by simp [trailingBreak, hnil])]

theorem settle_space (hspace : isSpace c = true) (hc : ¬ (c = '\r' ∨ c = '\n')) :
    settle (c :: text)
      = if (trimmed text).head?.all (· == '\n') = true then settle text
        else c :: settle text := by
  have hcr : c ≠ '\r' := fun h => hc (.inl h)
  have hlf : c ≠ '\n' := fun h => hc (.inr h)
  unfold settle
  rw [replaceCrlf, if_neg fun h => hcr h.1, replaceCr, List.map_cons, if_neg hcr,
    ← replaceCr]
  by_cases hgo : (trimmed text).head?.all (· == '\n') = true
  · rw [if_pos hgo, sift_cons_drop]
    rw [sift_trimmed, trailingSpace, hgo]
    simp [hspace, hlf]
  · have hkeep : trailingSpace c (trimmed text) = false := by
      rw [trailingSpace, Bool.eq_false_iff.2 hgo, Bool.and_false]
    rw [if_neg hgo, sift_cons_keep (by rw [sift_trimmed]; exact hkeep),
      sift_cons_keep (by simp [thirdBreak, hlf]),
      sift_cons_keep (by simp [trailingBreak, hlf])]

theorem visibleWithin_one : visibleWithin 1 text = true
    ↔ ¬ (trimmed text).head?.all (· == '\n') = true := by
  obtain ⟨line, lines, hlines⟩ := List.exists_cons_of_ne_nil (pieces_ne_nil text)
  have hline : '\n' ∉ rstrip line :=
    not_mem_rstrip (break_notMem_pieces (by rw [hlines]; exact List.mem_cons_self))
  rw [visibleWithin, trimmed, hlines, List.map_cons, head?_intercalate _ hline,
    rstrip_eq_nil]
  simp

theorem mem_of_mem_pieces {line : Text} (hline : line ∈ pieces text)
    (hc : c ∈ line) : c ∈ text := by
  induction text generalizing line with
  | nil =>
    obtain rfl := List.mem_singleton.1 hline
    exact hc
  | cons d text ih =>
    rw [pieces] at hline
    split at hline
    case isTrue => exact List.mem_cons_of_mem _ (ih hline hc)
    case isFalse =>
      split at hline
      case isTrue =>
        rcases List.mem_cons.1 hline with rfl | hline
        · cases hc
        · exact List.mem_cons_of_mem _ (ih hline hc)
      case isFalse =>
        obtain ⟨first, lines, hlines⟩ := List.exists_cons_of_ne_nil
          (pieces_ne_nil text)
        rw [hlines, List.modifyHead_cons] at hline
        rw [hlines] at ih
        rcases List.mem_cons.1 hline with rfl | hline
        · rcases List.mem_cons.1 hc with rfl | hc
          · exact List.mem_cons_self
          · exact List.mem_cons_of_mem _ (ih List.mem_cons_self hc)
        · exact List.mem_cons_of_mem _ (ih (List.mem_cons_of_mem _ hline) hc)

theorem keptRight_ne_nil (hc : c ∈ text) (hspace : isSpace c = false) :
    keptRight text ≠ [] := by
  induction text with
  | nil => cases hc
  | cons d text ih =>
    rw [keptRight]
    split
    case isTrue => exact List.cons_ne_nil _ _
    case isFalse hgo =>
      rcases List.mem_cons.1 hc with rfl | hc
      · have hcr : c ≠ '\r' := by
          rintro rfl
          exact absurd hspace (by decide)
        have hlf : c ≠ '\n' := by
          rintro rfl
          exact absurd hspace (by decide)
        exact absurd (by simp [stays, hcr, hlf, hspace]) hgo
      · exact ih hc

theorem visible_of_within {n : Nat} (h : visibleWithin n text = true) :
    ∃ c ∈ text, isSpace c = false := by
  obtain ⟨line, hline, hvisible⟩ := List.any_eq_true.1 h
  by_contra hno
  have hblank : isBlank line = true := by
    rw [isBlank_iff]
    intro c hc
    by_contra hspace
    exact hno ⟨c, mem_of_mem_pieces (List.mem_of_mem_take hline) hc,
      by simpa using hspace⟩
  rw [hblank] at hvisible
  cases hvisible

theorem visibleWithin_two (h : settle text = keptRight text) :
    visibleWithin 2 text = true
      ↔ ¬ (['\n', '\n'] <+: trimmed text ∨ settle text = []) := by
  have hsettle := settle_eq text
  rw [← trimmed] at hsettle
  have hsome : visibleWithin 2 text = true → settle text ≠ [] := by
    intro hwithin
    obtain ⟨c, hc, hspace⟩ := visible_of_within hwithin
    rw [h]
    exact keptRight_ne_nil hc hspace
  have hlines : ∀ line ∈ pieces text, '\n' ∉ rstrip line :=
    fun line hline => not_mem_rstrip (break_notMem_pieces hline)
  have hwithin : visibleWithin 2 text
      = ((pieces text).take 2).any fun line => !isBlank line := rfl
  rw [trimmed] at hsettle ⊢
  obtain ⟨first, lines, hpieces⟩ := List.exists_cons_of_ne_nil (pieces_ne_nil text)
  rw [hpieces] at hsettle hlines hwithin ⊢
  obtain ⟨hfirst, hlines⟩ := List.forall_mem_cons.1 hlines
  cases hblank : isBlank first with
  | false =>
    have hhead := head?_intercalate (lines.map rstrip) hfirst
    rw [rstrip_eq_nil, hblank] at hhead
    have htrue : visibleWithin 2 text = true := by
      rw [hwithin]
      simp [hblank]
    refine iff_of_true htrue (not_or.2 ⟨?_, hsome htrue⟩)
    rintro ⟨rest, hrest⟩
    rw [List.map_cons] at hrest
    rw [← hrest] at hhead
    exact absurd (hhead.1 rfl) Bool.false_ne_true
  | true =>
    rw [List.map_cons, rstrip_eq_nil.2 hblank] at hsettle ⊢
    cases lines with
    | nil =>
      have hfalse : visibleWithin 2 text = false := by
        rw [hwithin]
        simp [hblank]
      rw [hfalse, hsettle]
      simp [sift]
    | cons second lines =>
      have hsecond := hlines second List.mem_cons_self
      have hhead := head?_intercalate (lines.map rstrip) hsecond
      rw [List.map_cons, List.intercalate_cons_cons] at hsettle ⊢
      cases hblank' : isBlank second with
      | false =>
        rw [rstrip_eq_nil, hblank'] at hhead
        have htrue : visibleWithin 2 text = true := by
          rw [hwithin]
          simp [hblank']
        refine iff_of_true htrue (not_or.2 ⟨?_, hsome htrue⟩)
        rintro ⟨rest, hrest⟩
        have hrest' : '\n' :: rest
            = ['\n'].intercalate (rstrip second :: lines.map rstrip) := by
          simpa using hrest
        rw [← hrest'] at hhead
        exact absurd (hhead.1 rfl) Bool.false_ne_true
      | true =>
        have hfalse : visibleWithin 2 text = false := by
          rw [hwithin]
          simp [hblank, hblank']
        rw [hfalse]
        rw [rstrip_eq_nil.2 hblank'] at hsettle ⊢
        refine iff_of_false Bool.false_ne_true (not_not.2 ?_)
        cases lines with
        | nil =>
          right
          rw [hsettle]
          decide
        | cons third lines =>
          left
          rw [List.map_cons, List.intercalate_cons_cons]
          exact ⟨_, rfl⟩

theorem settle_eq_keptRight (text : Text) : settle text = keptRight text := by
  induction text with
  | nil => rfl
  | cons c text ih =>
    rw [keptRight]
    by_cases hcrlf : c = '\r' ∧ text.head? = some '\n'
    · rw [settle_crlf hcrlf, stays, if_pos hcrlf, ih]
      rfl
    · by_cases hbreak : c = '\r' ∨ c = '\n'
      · have hwritten : written c = '\n' := by
          rcases hbreak with rfl | rfl <;> rfl
        rw [settle_break hbreak hcrlf, stays, if_neg hcrlf, if_pos hbreak,
          hwritten, ← ih]
        by_cases hgo : ['\n', '\n'] <+: trimmed text ∨ settle text = []
        · rw [if_pos hgo, if_neg fun h => (visibleWithin_two ih).1 h hgo]
        · rw [if_neg hgo, if_pos ((visibleWithin_two ih).2 hgo)]
      · have hwritten : written c = c := if_neg fun h => hbreak (.inl h)
        rw [stays, if_neg hcrlf, if_neg hbreak, hwritten, ← ih]
        by_cases hspace : isSpace c = true
        · rw [settle_space hspace hbreak, if_pos hspace]
          by_cases hgo : (trimmed text).head?.all (· == '\n') = true
          · rw [if_pos hgo, if_neg fun h => visibleWithin_one.1 h hgo]
          · rw [if_neg hgo, if_pos (visibleWithin_one.2 hgo)]
        · rw [settle_cons (Bool.eq_false_iff.2 hspace), if_neg hspace, if_pos rfl]

-- ====== the start of the text

theorem isBlank_concat : isBlank (text ++ [c]) = (isBlank text && isSpace c) := by
  rw [Bool.eq_iff_iff, Bool.and_eq_true, isBlank_iff, isBlank_iff]
  simp only [List.mem_append, List.mem_singleton]
  constructor
  · exact fun h => ⟨fun d hd => h d (.inl hd), h c (.inr rfl)⟩
  · rintro ⟨h, hc⟩ d (hd | rfl)
    · exact h d hd
    · exact hc

theorem isBlank_dropMark_concat (h : before ≠ [] ∨ c ≠ byteOrderMark) :
    isBlank (dropMark (before ++ [c]))
      = (isBlank (dropMark before) && isSpace c) := by
  cases before with
  | nil =>
    have hc : c ≠ byteOrderMark := h.resolve_left fun hne => hne rfl
    have hself : dropMark [c] = [c] := by rw [dropMark, if_neg hc]
    have hconcat : isBlank ([] ++ [c]) = (isBlank [] && isSpace c) :=
      isBlank_concat
    rw [List.nil_append, hself]
    exact hconcat
  | cons d before =>
    rw [List.cons_append, dropMark, dropMark]
    split
    case isTrue => exact isBlank_concat
    case isFalse => rw [← List.cons_append, isBlank_concat]

theorem dropWhile_keptRight (h : visibleWithin 1 text = true) :
    (keptRight text).dropWhile (· == '\n') = keptRight text := by
  cases text with
  | nil => rfl
  | cons c text =>
    have hcrlf : ¬ (c = '\r' ∧ text.head? = some '\n') := by
      intro hcrlf
      obtain ⟨rest, rfl⟩ : ∃ rest, text = '\n' :: rest := by
        cases text with
        | nil => cases hcrlf.2
        | cons d rest => exact ⟨rest, by rw [Option.some.inj hcrlf.2]⟩
      rw [visibleWithin, pieces, if_pos hcrlf, pieces,
        if_neg fun h => absurd h.1 (by decide), if_pos (.inr rfl)] at h
      cases h
    have hbreak : ¬ (c = '\r' ∨ c = '\n') := by
      intro hbreak
      rw [visibleWithin, pieces, if_neg hcrlf, if_pos hbreak] at h
      cases h
    have hstays : stays c text = true := by
      rw [stays, if_neg hcrlf, if_neg hbreak]
      by_cases hspace : isSpace c = true
      · rw [if_pos hspace]
        obtain ⟨first, lines, hlines⟩ := List.exists_cons_of_ne_nil
          (pieces_ne_nil text)
        rw [visibleWithin, pieces, if_neg hcrlf, if_neg hbreak, hlines] at h
        rw [visibleWithin, hlines]
        have hfirst : isBlank first = false := by
          by_contra hblank
          have hall := isBlank_iff.1 ((Bool.not_eq_false _).mp hblank)
          have hline : isBlank (c :: first) = true :=
            isBlank_iff.2 (List.forall_mem_cons.2 ⟨hspace, hall⟩)
          simp [hline] at h
        simp [hfirst]
      · rw [if_neg hspace]
    have hwritten : written c = c := if_neg fun h => hbreak (.inl h)
    rw [keptRight, if_pos hstays, hwritten, List.dropWhile_cons_of_neg]
    simpa using fun h => hbreak (.inr h)

theorem keptIn_eq (h : before ≠ [] ∨ text.head? ≠ some byteOrderMark) :
    keptIn before text []
      = if isBlank (dropMark before) then (keptRight text).dropWhile (· == '\n')
        else keptRight text := by
  induction text generalizing before with
  | nil =>
    rw [keptIn, keptRight]
    split <;> rfl
  | cons c text ih =>
    have hmark : before ≠ [] ∨ c ≠ byteOrderMark := by
      rcases h with h | h
      · exact .inl h
      · exact .inr fun hc => h (by rw [hc]; rfl)
    have hrest : keptIn (before ++ [c]) text []
        = if isBlank (dropMark (before ++ [c])) then
            (keptRight text).dropWhile (· == '\n')
          else keptRight text := ih (.inl (by simp))
    rw [isBlank_dropMark_concat hmark] at hrest
    rw [keptIn, keptRight, List.append_nil, hrest]
    by_cases hspace : isSpace c = true
    case neg =>
      -- visible: it stays, and so does what stays after it
      have hcr : c ≠ '\r' := by
        rintro rfl
        exact hspace (by decide)
      have hlf : c ≠ '\n' := by
        rintro rfl
        exact hspace (by decide)
      have hstays : stays c text = true := by simp [stays, hcr, hlf, hspace]
      have hsurvives : survives before c text = true := by
        rw [survives]
        by_cases hc : c = byteOrderMark
        · rw [if_pos hc]
          simpa using hmark.resolve_right fun h => h hc
        · simp [hc, hcr, hlf, hspace]
      rw [if_pos hstays, if_pos hsurvives, Bool.eq_false_iff.2 hspace,
        Bool.and_false, if_neg Bool.false_ne_true, List.dropWhile_cons_of_neg]
      · simp
      · simpa [written, hcr] using hlf
    case pos =>
      have hc : c ≠ byteOrderMark := by
        rintro rfl
        exact absurd hspace (by decide)
      rw [hspace, Bool.and_true, survives, if_neg hc, stays]
      by_cases hcrlf : c = '\r' ∧ text.head? = some '\n'
      · rw [if_pos hcrlf, if_pos hcrlf]
        rfl
      · rw [if_neg hcrlf, if_neg hcrlf]
        by_cases hbreak : c = '\r' ∨ c = '\n'
        · have hwritten : written c = '\n' := by
            rcases hbreak with rfl | rfl <;> rfl
          rw [if_pos hbreak, if_pos hbreak, hwritten]
          cases isBlank (dropMark before) <;> cases visibleWithin 2 text <;> rfl
        · have hwritten : written c = c := if_neg fun h => hbreak (.inl h)
          have hfirst : (c :: keptRight text).dropWhile (· == '\n')
              = c :: keptRight text :=
            List.dropWhile_cons_of_neg (by simpa using fun h => hbreak (.inr h))
          rw [if_neg hbreak, if_neg hbreak, if_pos hspace, hwritten]
          cases hvisible : visibleWithin 1 text with
          | false => rfl
          | true =>
            rw [dropWhile_keptRight hvisible, if_pos rfl, if_pos rfl, hfirst,
              ite_self, ite_self]

theorem normalizeText_kept : normalizeText nfc text = keptIn [] (nfc text) [] := by
  rw [normalizeText_eq, settle_eq_keptRight]
  by_cases hmark : (nfc text).head? = some byteOrderMark
  · obtain ⟨rest, hrest⟩ : ∃ rest, nfc text = byteOrderMark :: rest := by
      cases hnfc : nfc text with
      | nil =>
        rw [hnfc] at hmark
        cases hmark
      | cons c rest =>
        rw [hnfc] at hmark
        exact ⟨rest, by rw [Option.some.inj hmark]⟩
    rw [hrest, dropMark_cons, keptIn, if_neg (by simp [survives]), List.nil_append,
      keptIn_eq (.inl (by simp)), dropMark_cons]
    rfl
  · have hsame : dropMark (nfc text) = nfc text := by
      cases hnfc : nfc text with
      | nil => rfl
      | cons c rest =>
        rw [dropMark, if_neg fun hc => hmark (by rw [hnfc, hc]; rfl)]
    rw [hsame, keptIn_eq (.inr hmark)]
    rfl

end MemoryOS
