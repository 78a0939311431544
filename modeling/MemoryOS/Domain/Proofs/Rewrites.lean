/-
The rewrites of `normalize_text` as sifts, and what they leave.

Whitespace at the end of a line, a third break and a break at the end of the
text each go by the character and by what is kept after it (`rstripLines_eq`,
`collapseBreaks_eq`, `stripBreaks_eq`). So each rewrite is the identity on
what it left, and the later ones keep it so (`Settled`, `settled_settle`): a
second round finds nothing to do (`settle_eq_self`) but at the start of the
text.
-/
import MemoryOS.Domain.Text
import MemoryOS.Lib.Sift

namespace MemoryOS

variable {c : Char} {text kept : Text}

-- ======= the sifts

/-- Whitespace that ends a line or the text. -/
def trailingSpace (c : Char) (kept : Text) : Bool :=
  isSpace c && c != '\n' && kept.head?.all (· == '\n')

/-- A break with two more after it. -/
def thirdBreak (c : Char) (kept : Text) : Bool :=
  c == '\n' && ['\n', '\n'].isPrefixOf kept

/-- A break that ends the text. -/
def trailingBreak (c : Char) (kept : Text) : Bool :=
  c == '\n' && kept.isEmpty

theorem splitOn_break : ('\n' :: text).splitOn '\n' = [] :: text.splitOn '\n' := by
  rw [List.splitOn_cons_eq_if_modifyHead, if_pos (by rfl)]

theorem splitOn_char (hc : c ≠ '\n') :
    (c :: text).splitOn '\n' = (text.splitOn '\n').modifyHead (c :: ·) := by
  rw [List.splitOn_cons_eq_if_modifyHead, if_neg (by simpa using hc)]

theorem break_notMem_line {line : Text} (h : line ∈ text.splitOn '\n') :
    '\n' ∉ line := by
  induction text generalizing line with
  | nil =>
    obtain rfl := List.mem_singleton.1 h
    exact List.not_mem_nil
  | cons c text ih =>
    by_cases hc : c = '\n'
    · subst hc
      rw [splitOn_break] at h
      rcases List.mem_cons.1 h with rfl | h
      · exact List.not_mem_nil
      · exact ih h
    · obtain ⟨first, lines, hlines⟩ := List.exists_cons_of_ne_nil
        (List.splitOn_ne_nil '\n' text)
      rw [splitOn_char hc, hlines, List.modifyHead_cons] at h
      rw [hlines] at ih
      rcases List.mem_cons.1 h with rfl | h
      · have hfirst := ih List.mem_cons_self
        simpa [hfirst] using Ne.symm hc
      · exact ih (List.mem_cons_of_mem _ h)

theorem rstrip_cons : rstrip (c :: text)
    = if rstrip text = [] ∧ isSpace c = true then [] else c :: rstrip text := by
  unfold rstrip
  rw [List.reverse_cons, List.dropWhile_append]
  by_cases hnil : text.reverse.dropWhile isSpace = []
  · rw [hnil]
    by_cases hc : isSpace c = true
    · simp [hc]
    · simp [hc]
  · have hrev : (text.reverse.dropWhile isSpace).reverse ≠ [] := by
      simpa using hnil
    rw [if_neg (by simpa using hnil), if_neg (fun h => hrev h.1)]
    simp

theorem not_mem_rstrip (h : c ∉ text) : c ∉ rstrip text := by
  intro hmem
  exact h (List.mem_reverse.1
    ((List.dropWhile_sublist _).mem (List.mem_reverse.1 hmem)))

theorem head?_intercalate {line : Text} (lines : List Text) (h : '\n' ∉ line) :
    (['\n'].intercalate (line :: lines)).head?.all (· == '\n') = true
      ↔ line = [] := by
  cases line with
  | nil =>
    cases lines with
    | nil => simp
    | cons next lines => simp [List.intercalate_cons_cons]
  | cons d line =>
    have hd : d ≠ '\n' := fun hd => h (by simp [hd])
    cases lines with
    | nil => simp [hd]
    | cons next lines => simp [List.intercalate_cons_cons, hd]

theorem intercalate_modifyHead {line : Text} {lines : List Text} :
    ['\n'].intercalate ((c :: line) :: lines)
      = c :: ['\n'].intercalate (line :: lines) := by
  cases lines with
  | nil => simp
  | cons next lines => simp [List.intercalate_cons_cons]

theorem rstripLines_eq : rstripLines text = sift trailingSpace text := by
  induction text with
  | nil => rfl
  | cons c text ih =>
    rw [sift, ← ih]
    unfold rstripLines
    obtain ⟨line, lines, hlines⟩ := List.exists_cons_of_ne_nil
      (List.splitOn_ne_nil '\n' text)
    by_cases hc : c = '\n'
    · subst hc
      rw [if_neg (by simp [trailingSpace]), splitOn_break, hlines]
      simp [List.intercalate_cons_cons, rstrip]
    · have hline : '\n' ∉ rstrip line :=
        not_mem_rstrip (break_notMem_line (by rw [hlines]; exact List.mem_cons_self))
      have hgo : trailingSpace c
          (['\n'].intercalate (rstrip line :: lines.map rstrip)) = true
            ↔ rstrip line = [] ∧ isSpace c = true := by
        rw [trailingSpace, Bool.and_eq_true, head?_intercalate _ hline]
        simp [hc, and_comm]
      rw [splitOn_char hc, hlines]
      simp only [List.modifyHead_cons, List.map_cons, rstrip_cons, hgo]
      by_cases h : rstrip line = [] ∧ isSpace c = true
      · rw [if_pos h, if_pos h, h.1]
      · rw [if_neg h, if_neg h, intercalate_modifyHead]

theorem head?_sift_thirdBreak : (sift thirdBreak text).head? = text.head? := by
  apply head?_sift
  intro c kept h
  simp only [thirdBreak, Bool.and_eq_true, beq_iff_eq] at h
  obtain ⟨rest, rfl⟩ := List.isPrefixOf_iff_prefix.1 h.2
  rw [h.1]
  rfl

theorem isPrefixOf_sift_thirdBreak :
    ['\n', '\n'].isPrefixOf (sift thirdBreak text)
      = ['\n', '\n'].isPrefixOf text := by
  induction text with
  | nil => rfl
  | cons c text ih =>
    by_cases hdrop : thirdBreak c (sift thirdBreak text) = true
    · rw [sift_cons_drop hdrop]
      simp only [thirdBreak, Bool.and_eq_true, beq_iff_eq] at hdrop
      rw [hdrop.2]
      rw [ih] at hdrop
      obtain ⟨rest, rfl⟩ := List.isPrefixOf_iff_prefix.1 hdrop.2
      rw [hdrop.1]
      rfl
    · rw [sift_cons_keep (Bool.eq_false_iff.2 hdrop)]
      have hhead : (sift thirdBreak text).head? = text.head? :=
        head?_sift_thirdBreak
      revert hhead
      cases sift thirdBreak text <;> cases text <;>
        simp_all [List.isPrefixOf]

theorem collapseBreaks_eq : collapseBreaks text = sift thirdBreak text := by
  induction text with
  | nil => rfl
  | cons c text ih =>
    rw [collapseBreaks, sift, ih]
    simp only [thirdBreak, isPrefixOf_sift_thirdBreak, Bool.and_eq_true,
      beq_iff_eq]

theorem stripBreaks_eq : stripBreaks text
    = (sift trailingBreak text).dropWhile (· == '\n') := by
  have hend : ∀ text : Text, (text.reverse.dropWhile (· == '\n')).reverse
      = sift trailingBreak text := by
    intro text
    induction text with
    | nil => rfl
    | cons c text ih =>
      rw [sift, ← ih, List.reverse_cons, List.dropWhile_append]
      by_cases hnil : text.reverse.dropWhile (· == '\n') = []
      · by_cases hc : c = '\n' <;> simp [hnil, hc, trailingBreak]
      · simp [hnil, trailingBreak]
  rw [stripBreaks, hend]

-- ======== settling

/-- The rewrites after the mark, up to the breaks that start the text. -/
def settle (text : Text) : Text :=
  sift trailingBreak (sift thirdBreak (sift trailingSpace
    (replaceCr (replaceCrlf text))))

theorem normalizeText_eq {nfc : Text → Text} : normalizeText nfc text
    = (settle (dropMark (nfc text))).dropWhile (· == '\n') := by
  unfold normalizeText settle
  rw [stripBreaks_eq, collapseBreaks_eq, rstripLines_eq]

/-- There is nothing for the rewrites to do, but at the start of the text. -/
structure Settled (text : Text) : Prop where
  noReturn : '\r' ∉ text
  spaces : Sifted trailingSpace text
  breaks : Sifted thirdBreak text
  ending : Sifted trailingBreak text

theorem Settled.of_append {earlier : Text} (h : Settled (earlier ++ text)) :
    Settled text where
  noReturn := fun hmem => h.noReturn (List.mem_append_right _ hmem)
  spaces := h.spaces.of_append
  breaks := h.breaks.of_append
  ending := h.ending.of_append

theorem Settled.dropWhile (h : Settled text) (p : Char → Bool) :
    Settled (text.dropWhile p) := by
  rw [← List.takeWhile_append_dropWhile (p := p) (l := text)] at h
  exact h.of_append

theorem return_notMem_replaceCr : '\r' ∉ replaceCr text := by
  intro h
  obtain ⟨c, -, hc⟩ := List.mem_map.1 h
  by_cases hcr : c = '\r'
  · rw [if_pos hcr] at hc
    exact absurd hc (by decide)
  · rw [if_neg hcr] at hc
    exact hcr hc

theorem replaceCrlf_eq_self (h : '\r' ∉ text) : replaceCrlf text = text := by
  induction text with
  | nil => rfl
  | cons c text ih =>
    rw [replaceCrlf, ih fun hmem => h (List.mem_cons_of_mem _ hmem),
      if_neg fun hc => h (by rw [hc.1]; exact List.mem_cons_self)]

theorem replaceCr_eq_self (h : '\r' ∉ text) : replaceCr text = text := by
  unfold replaceCr
  calc text.map (fun c => if c = '\r' then '\n' else c) = text.map id := by
        apply List.map_congr_left
        intro c hc
        exact if_neg fun hcr => h (by rw [← hcr]; exact hc)
    _ = text := List.map_id text

theorem sift_trailingBreak_prefix : sift trailingBreak text <+: text := by
  induction text with
  | nil => exact List.prefix_refl _
  | cons c text ih =>
    by_cases hdrop : trailingBreak c (sift trailingBreak text) = true
    · rw [sift_cons_drop hdrop]
      simp only [trailingBreak, Bool.and_eq_true, List.isEmpty_iff] at hdrop
      rw [hdrop.2]
      exact List.nil_prefix
    · rw [sift_cons_keep (Bool.eq_false_iff.2 hdrop)]
      exact List.prefix_cons_inj c |>.2 ih

theorem Settled.settle_eq_self (h : Settled text) : settle text = text := by
  unfold settle
  rw [replaceCrlf_eq_self h.noReturn, replaceCr_eq_self h.noReturn,
    sift_eq_self h.spaces, sift_eq_self h.breaks, sift_eq_self h.ending]

theorem trailingSpace_sift_thirdBreak (h : trailingSpace c kept = false) :
    trailingSpace c (sift thirdBreak kept) = false := by
  rw [trailingSpace, head?_sift_thirdBreak]
  exact h

theorem trailingSpace_sift_trailingBreak (h : trailingSpace c kept = false) :
    trailingSpace c (sift trailingBreak kept) = false := by
  cases kept with
  | nil => exact h
  | cons d kept =>
    by_cases hd : d = '\n'
    · have hc : (isSpace c && c != '\n') = false := by
        simpa [trailingSpace, hd] using h
      rw [trailingSpace, hc, Bool.false_and]
    · rw [sift_cons_keep (by simp [trailingBreak, hd])]
      simpa [trailingSpace] using h

theorem thirdBreak_sift_trailingBreak (h : thirdBreak c kept = false) :
    thirdBreak c (sift trailingBreak kept) = false := by
  by_contra hthird
  have hthird : c = '\n' ∧ ['\n', '\n'] <+: sift trailingBreak kept := by
    simpa [thirdBreak] using hthird
  have hkept : thirdBreak c kept = true := by
    simpa [thirdBreak] using
      And.intro hthird.1 (hthird.2.trans sift_trailingBreak_prefix)
  rw [h] at hkept
  cases hkept

theorem settled_settle : Settled (settle text) := by
  have hspaces : Sifted trailingSpace
      (sift trailingSpace (replaceCr (replaceCrlf text))) := sifted_sift
  have hbreaks : Sifted thirdBreak (sift thirdBreak
      (sift trailingSpace (replaceCr (replaceCrlf text)))) := sifted_sift
  refine ⟨fun h => ?_, ?_, ?_, sifted_sift⟩
  · exact return_notMem_replaceCr (sift_sublist.mem (sift_sublist.mem
      (sift_sublist.mem h)))
  · apply (hspaces.sift fun _ _ => trailingSpace_sift_thirdBreak).sift
    exact fun _ _ => trailingSpace_sift_trailingBreak
  · exact hbreaks.sift fun _ _ => thirdBreak_sift_trailingBreak

theorem settle_cons (hc : isSpace c = false) : settle (c :: text) = c :: settle text := by
  have hcr : c ≠ '\r' := by
    rintro rfl
    exact absurd hc (by decide)
  have hlf : c ≠ '\n' := by
    rintro rfl
    exact absurd hc (by decide)
  unfold settle
  rw [replaceCrlf, if_neg fun h => hcr h.1, replaceCr, List.map_cons, if_neg hcr,
    sift_cons_keep (by simp [trailingSpace, hc]),
    sift_cons_keep (by simp [thirdBreak, hlf]),
    sift_cons_keep (by simp [trailingBreak, hlf])]
  rfl

end MemoryOS
