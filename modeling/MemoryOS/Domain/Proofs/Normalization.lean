/-
How far `normalize_text` is a canonical form.

Each rewrite is the identity on what it left (`Rewrites`) and keeps composed
text composed (`stable_sift`), so the form is a fixed point but for the mark:
one is dropped, before the breaks that start the text are. `Exposed` texts
have another one where the text begins once both are gone; on these the form
starts with a mark and the next application drops it. Texts that look alike
have forms that meet after some more applications (`Meets`), so on all other
texts they have one form (`canonical_iff`).
-/
import Mathlib.Data.List.DropRight
import Mathlib.Logic.Function.Iterate
import Mathlib.Logic.Relation
import MemoryOS.Domain.Proofs.Rewrites

namespace MemoryOS

-- ====== statement vocabulary

/-- What is documented of NFC and used here. -/
structure LawfulNfc (nfc : Text → Text) : Prop where
  idempotent : ∀ text, nfc (nfc text) = nfc text
  /-- A part of a composed text is composed. -/
  substring : ∀ text part, part <:+: nfc text → nfc part = part
  /-- Nothing composes with whitespace or with the mark, or across them. -/
  boundary : ∀ before c after, isSpace c = true ∨ c = byteOrderMark →
    nfc (before ++ c :: after) = nfc before ++ nfc [c] ++ nfc after
  /-- ASCII and the mark are their own composed form. -/
  fixed : ∀ c, c.toNat < 128 ∨ c = byteOrderMark → nfc [c] = [c]
  /-- No line end comes of anything else. -/
  source : ∀ text c, c = '\r' ∨ c = '\n' → c ∈ nfc text → c ∈ text
  /-- Whitespace becomes whitespace. -/
  space : ∀ c, isSpace c = true → ∃ d, isSpace d = true ∧ nfc [c] = [d]
  /-- Something is left of something. -/
  nonempty : ∀ text, nfc text = [] → text = []

/-- The lines of a text, whichever of CRLF, CR and LF ends them. -/
def pieces : Text → List Text
  | [] => [[]]
  | c :: rest =>
    if c = '\r' ∧ rest.head? = some '\n' then pieces rest
    else if c = '\r' ∨ c = '\n' then [] :: pieces rest
    else (pieces rest).modifyHead (c :: ·)

/-- Two texts differ in one of the ways a reader does not see. -/
inductive Cosmetic (nfc : Text → Text) : Text → Text → Prop
  /-- Composed and decomposed characters. -/
  | composed {t t' : Text} (h : nfc t = nfc t') : Cosmetic nfc t t'
  /-- CRLF, CR and LF. -/
  | lineEnds {t t' : Text} (h : pieces t = pieces t') : Cosmetic nfc t t'
  /-- Trailing whitespace on lines. -/
  | trailing {t t' : Text} (h : (pieces t).map rstrip = (pieces t').map rstrip) :
      Cosmetic nfc t t'
  /-- A leading byte-order mark. -/
  | mark (t : Text) : Cosmetic nfc (byteOrderMark :: t) t

/-- Two texts differ only in what a reader does not see. -/
def LooksLike (nfc : Text → Text) : Text → Text → Prop :=
  Relation.EqvGen (Cosmetic nfc)

/-- What the canonical form has none of. -/
structure Clean (text : Text) : Prop where
  noReturn : '\r' ∉ text
  trimmed : ∀ line ∈ text.splitOn '\n', ∀ c ∈ line.getLast?, isSpace c = false
  noRun : ¬ ['\n', '\n', '\n'] <:+: text
  noLeading : text.head? ≠ some '\n'
  noTrailing : text.getLast? ≠ some '\n'
  noMark : text.head? ≠ some byteOrderMark

/-- The two texts have one form, and it is clean and a fixed point. -/
def OneForm (nfc : Text → Text) (text text' : Text) : Prop :=
  normalizeText nfc text = normalizeText nfc text'
    ∧ ∀ t, t = text ∨ t = text' →
      normalizeText nfc (normalizeText nfc t) = normalizeText nfc t
        ∧ Clean (normalizeText nfc t)

/-- The first character of the first line that is not blank. -/
def firstVisible (lines : List Text) : Option Char :=
  (lines.find? fun line => !isBlank line).bind List.head?

/-- Once one leading mark is gone, the first line that is not blank starts
with a mark. -/
def Exposed (nfc : Text → Text) (text : Text) : Prop :=
  firstVisible (pieces (dropMark (nfc text))) = some byteOrderMark

variable {nfc : Text → Text} {c : Char} {text text' kept before after : Text}

-- ====== composed stays composed

namespace LawfulNfc

variable {line rest : Text}

theorem left (laws : LawfulNfc nfc) (h : nfc (before ++ after) = before ++ after) :
    nfc before = before :=
  laws.substring (before ++ after) before
    (by rw [h]; exact (List.prefix_append before after).isInfix)

theorem right (laws : LawfulNfc nfc) (h : nfc (before ++ after) = before ++ after) :
    nfc after = after :=
  laws.substring (before ++ after) after
    (by rw [h]; exact (List.suffix_append before after).isInfix)

theorem nil (laws : LawfulNfc nfc) : nfc [] = [] :=
  laws.substring [] [] List.nil_infix

theorem join (laws : LawfulNfc nfc) (hbefore : nfc before = before)
    (hafter : nfc after = after) :
    nfc (before ++ '\n' :: after) = before ++ '\n' :: after := by
  rw [laws.boundary before '\n' after (.inl (by decide)), hbefore, hafter,
    laws.fixed '\n' (.inl (by decide)), List.append_assoc]
  rfl

theorem skip (laws : LawfulNfc nfc) (hhead : kept.head?.all (· == '\n') = true)
    (h : nfc (before ++ c :: kept) = before ++ c :: kept) :
    nfc (before ++ kept) = before ++ kept := by
  have hbefore := laws.left h
  cases kept with
  | nil => simpa using hbefore
  | cons d kept =>
    obtain rfl : d = '\n' := by simpa using hhead
    have hsplit : before ++ c :: '\n' :: kept = (before ++ [c, '\n']) ++ kept := by
      simp
    rw [hsplit] at h
    exact laws.join hbefore (laws.right h)

theorem stable_sift (laws : LawfulNfc nfc) {drop : Char → Text → Bool}
    (hdrop : ∀ c kept, drop c kept = true → kept.head?.all (· == '\n') = true)
    (before : Text) (h : nfc (before ++ text) = before ++ text) :
    nfc (before ++ sift drop text) = before ++ sift drop text := by
  induction text generalizing before with
  | nil => exact h
  | cons c text ih =>
    have hkept : nfc (before ++ c :: sift drop text)
        = before ++ c :: sift drop text := by
      have hlater := ih (before ++ [c]) (by rw [List.append_assoc]; exact h)
      rwa [List.append_assoc] at hlater
    by_cases hgo : drop c (sift drop text) = true
    · rw [sift_cons_drop hgo]
      exact laws.skip (hdrop c _ hgo) hkept
    · rw [sift_cons_keep (Bool.eq_false_iff.2 hgo)]
      exact hkept

theorem stable_replaceCrlf (laws : LawfulNfc nfc) (before : Text)
    (h : nfc (before ++ text) = before ++ text) :
    nfc (before ++ replaceCrlf text) = before ++ replaceCrlf text := by
  induction text generalizing before with
  | nil => exact h
  | cons c text ih =>
    have hkept : nfc (before ++ c :: replaceCrlf text)
        = before ++ c :: replaceCrlf text := by
      have hlater := ih (before ++ [c]) (by rw [List.append_assoc]; exact h)
      rwa [List.append_assoc] at hlater
    rw [replaceCrlf]
    split
    case isTrue hgo =>
      obtain ⟨rest, rfl⟩ : ∃ rest, text = '\n' :: rest := by
        cases text with
        | nil => cases hgo.2
        | cons d rest => exact ⟨rest, by rw [Option.some.inj hgo.2]⟩
      exact laws.skip (by simp [replaceCrlf]) hkept
    case isFalse => exact hkept

theorem stable_replaceCr (laws : LawfulNfc nfc) (before : Text)
    (h : nfc (before ++ text) = before ++ text) :
    nfc (before ++ replaceCr text) = before ++ replaceCr text := by
  induction text generalizing before with
  | nil => exact h
  | cons c text ih =>
    have hkept : nfc ((before ++ [c]) ++ replaceCr text)
        = (before ++ [c]) ++ replaceCr text :=
      ih (before ++ [c]) (by rw [List.append_assoc]; exact h)
    rw [replaceCr, List.map_cons]
    by_cases hc : c = '\r'
    · rw [if_pos hc]
      rw [List.append_assoc] at hkept
      have hbefore := laws.left hkept
      rw [← List.append_assoc] at hkept
      exact laws.join hbefore (laws.right hkept)
    · rw [if_neg hc]
      rwa [List.append_assoc] at hkept

theorem stable_settle (laws : LawfulNfc nfc) (h : nfc text = text) :
    nfc (settle text) = settle text := by
  have hreturns := laws.stable_replaceCr [] (laws.stable_replaceCrlf [] h)
  have hspaces : ∀ c kept, trailingSpace c kept = true →
      kept.head?.all (· == '\n') = true := by
    intro c kept hgo
    rw [trailingSpace, Bool.and_eq_true] at hgo
    exact hgo.2
  have hbreaks : ∀ c kept, thirdBreak c kept = true →
      kept.head?.all (· == '\n') = true := by
    intro c kept hgo
    rw [thirdBreak, Bool.and_eq_true] at hgo
    obtain ⟨rest, rfl⟩ := List.isPrefixOf_iff_prefix.1 hgo.2
    rfl
  have hending : ∀ c kept, trailingBreak c kept = true →
      kept.head?.all (· == '\n') = true := by
    intro c kept hgo
    rw [trailingBreak, Bool.and_eq_true, List.isEmpty_iff] at hgo
    rw [hgo.2]
    rfl
  exact laws.stable_sift hending []
    (laws.stable_sift hbreaks [] (laws.stable_sift hspaces [] hreturns))

theorem stable_dropMark (laws : LawfulNfc nfc) :
    nfc (dropMark (nfc text)) = dropMark (nfc text) := by
  have hstable := laws.idempotent text
  generalize nfc text = composed at hstable ⊢
  cases composed with
  | nil => exact hstable
  | cons c rest =>
    rw [dropMark]
    by_cases hc : c = byteOrderMark
    · rw [if_pos hc]
      have hsplit : nfc ([c] ++ rest) = [c] ++ rest := hstable
      exact laws.right hsplit
    · rw [if_neg hc]
      exact hstable

theorem stable_normalizeText (laws : LawfulNfc nfc) :
    nfc (normalizeText nfc text) = normalizeText nfc text := by
  rw [normalizeText_eq]
  have hsettled : nfc (settle (dropMark (nfc text)))
      = settle (dropMark (nfc text)) := laws.stable_settle laws.stable_dropMark
  rw [← List.takeWhile_append_dropWhile (p := (· == '\n'))
    (l := settle (dropMark (nfc text)))] at hsettled
  exact laws.right hsettled

end LawfulNfc

-- ====== what the form is

theorem pieces_eq : (replaceCr (replaceCrlf text)).splitOn '\n' = pieces text := by
  induction text with
  | nil => rfl
  | cons c rest ih =>
    rw [replaceCrlf, pieces]
    by_cases hcrlf : c = '\r' ∧ rest.head? = some '\n'
    · rw [if_pos hcrlf, if_pos hcrlf, ih]
    · rw [if_neg hcrlf, if_neg hcrlf, replaceCr, List.map_cons]
      by_cases hcr : c = '\r'
      · rw [if_pos hcr, if_pos (.inl hcr), splitOn_break, ← ih]
        rfl
      · rw [if_neg hcr]
        by_cases hlf : c = '\n'
        · rw [if_pos (.inr hlf), hlf, splitOn_break, ← ih]
          rfl
        · rw [if_neg (not_or.2 ⟨hcr, hlf⟩), splitOn_char hlf, ← ih]
          rfl

theorem pieces_ne_nil (text : Text) : pieces text ≠ [] := by
  rw [← pieces_eq]
  exact List.splitOn_ne_nil _ _

theorem break_notMem_pieces (h : line ∈ pieces text) : '\n' ∉ line :=
  break_notMem_line (by rw [pieces_eq]; exact h)

theorem settle_eq (text : Text) : settle text = sift trailingBreak (sift thirdBreak
    (['\n'].intercalate ((pieces text).map rstrip))) := by
  rw [settle, ← rstripLines_eq, rstripLines, pieces_eq]

theorem rstrip_eq_nil :
    rstrip line = [] ↔ isBlank line = true := by
  rw [isBlank_iff]
  unfold rstrip
  rw [List.reverse_eq_nil_iff, List.dropWhile_eq_nil_iff]
  simp

theorem head?_rstrip (h : isBlank line = false) :
    (rstrip line).head? = line.head? := by
  cases line with
  | nil => rfl
  | cons c line =>
    rw [rstrip_cons]
    split
    case isTrue hgo =>
      have hblank : isBlank (c :: line) = true := by
        rw [← rstrip_eq_nil, rstrip_cons, if_pos hgo]
      rw [h] at hblank
      cases hblank
    case isFalse => rfl

theorem head?_lines {lines : List Text} (h : ∀ line ∈ lines, '\n' ∉ line) :
    ((['\n'].intercalate (lines.map rstrip)).dropWhile (· == '\n')).head?
      = firstVisible lines := by
  unfold firstVisible
  induction lines with
  | nil => rfl
  | cons line lines ih =>
    obtain ⟨hline, hlines⟩ := List.forall_mem_cons.1 h
    cases hblank : isBlank line with
    | true =>
      rw [List.find?_cons_of_neg (by simp [hblank]), ← ih hlines,
        List.map_cons, rstrip_eq_nil.2 hblank]
      cases lines with
      | nil => rfl
      | cons next lines =>
        rw [List.map_cons, List.intercalate_cons_cons]
        rfl
    | false =>
      rw [List.find?_cons_of_pos (by simp [hblank]), Option.bind_some,
        ← head?_rstrip hblank, List.map_cons]
      obtain ⟨c, rest, hcons⟩ : ∃ c rest, rstrip line = c :: rest := by
        apply List.exists_cons_of_ne_nil
        rw [ne_eq, rstrip_eq_nil, hblank]
        exact Bool.false_ne_true
      have hc : c ≠ '\n' := by
        rintro rfl
        exact not_mem_rstrip hline (by rw [hcons]; exact List.mem_cons_self)
      rw [hcons, intercalate_modifyHead,
        List.dropWhile_cons_of_neg (by simpa using hc)]
      rfl

theorem head?_normalizeText : (normalizeText nfc text).head?
    = firstVisible (pieces (dropMark (nfc text))) := by
  rw [normalizeText_eq, settle_eq, head?_dropWhile_sift, head?_dropWhile_sift,
    head?_lines fun _ => break_notMem_pieces]
  · intro c kept hgo
    rw [thirdBreak, Bool.and_eq_true] at hgo
    exact hgo.1
  · intro c kept hgo
    rw [trailingBreak, Bool.and_eq_true] at hgo
    exact hgo.1

theorem settled_normalizeText : Settled (normalizeText nfc text) := by
  rw [normalizeText_eq]
  exact settled_settle.dropWhile _

theorem rstrip_last (h : rstrip line = line) :
    ∀ c ∈ line.getLast?, isSpace c = false := by
  intro c hc
  rw [← h, rstrip, List.getLast?_reverse] at hc
  have hlast := List.head?_dropWhile_not isSpace line.reverse
  rwa [Option.mem_def.1 hc] at hlast

theorem clean_iff : Clean (normalizeText nfc text)
    ↔ (normalizeText nfc text).head? ≠ some byteOrderMark := by
  refine ⟨fun h => h.noMark, fun hmark => ?_⟩
  have hsettled : Settled (normalizeText nfc text) := settled_normalizeText
  constructor
  case noReturn => exact hsettled.noReturn
  case trimmed =>
    intro line hline
    have hlines : (normalizeText nfc text).splitOn '\n'
        = ((normalizeText nfc text).splitOn '\n').map rstrip := by
      have hself : rstripLines (normalizeText nfc text) = normalizeText nfc text := by
        rw [rstripLines_eq, sift_eq_self hsettled.spaces]
      have hsplit : (rstripLines (normalizeText nfc text)).splitOn '\n'
          = ((normalizeText nfc text).splitOn '\n').map rstrip := by
        apply List.splitOn_intercalate
        · intro line hline
          obtain ⟨line, hmem, rfl⟩ := List.mem_map.1 hline
          exact not_mem_rstrip (break_notMem_line hmem)
        · simp [List.splitOn_ne_nil]
      rwa [hself] at hsplit
    have hsame := hlines.symm.trans (List.map_id _).symm
    exact rstrip_last (List.map_inj_left.1 hsame line hline)
  case noRun =>
    rintro ⟨before, after, hrun⟩
    have hbreaks := hsettled.breaks
    rw [← hrun, List.append_assoc] at hbreaks
    exact absurd hbreaks.of_append.1 (by simp [thirdBreak])
  case noLeading =>
    intro hhead
    rw [normalizeText_eq] at hhead
    have hfirst := List.head?_dropWhile_not (· == '\n')
      (settle (dropMark (nfc text)))
    rw [hhead] at hfirst
    exact absurd hfirst (by simp)
  case noTrailing =>
    intro hlast
    obtain ⟨before, hform⟩ := List.getLast?_eq_some_iff.1 hlast
    have hending := hsettled.ending
    rw [hform] at hending
    exact absurd hending.of_append.1 (by simp [trailingBreak])
  case noMark => exact hmark

-- ====== one more round

theorem normalizeText_idem (laws : LawfulNfc nfc)
    (h : (normalizeText nfc text).head? ≠ some byteOrderMark) :
    normalizeText nfc (normalizeText nfc text) = normalizeText nfc text := by
  have hsettled : Settled (normalizeText nfc text) := settled_normalizeText
  have hmark : dropMark (normalizeText nfc text) = normalizeText nfc text := by
    cases hform : normalizeText nfc text with
    | nil => rfl
    | cons c rest =>
      rw [hform] at h
      rw [dropMark, if_neg fun hc => h (by rw [hc]; rfl)]
  calc normalizeText nfc (normalizeText nfc text)
      = (settle (dropMark (nfc (normalizeText nfc text)))).dropWhile
          (· == '\n') := normalizeText_eq
    _ = (normalizeText nfc text).dropWhile (· == '\n') := by
        rw [laws.stable_normalizeText, hmark, hsettled.settle_eq_self]
    _ = normalizeText nfc text := by
        rw [normalizeText_eq]
        exact List.dropWhile_idempotent _ _

theorem dropMark_cons : dropMark (byteOrderMark :: text) = text := by
  rw [dropMark, if_pos rfl]

theorem settle_mark : settle (byteOrderMark :: text)
    = byteOrderMark :: settle text := settle_cons (by decide)

theorem dropWhile_mark : (byteOrderMark :: text).dropWhile (· == '\n')
    = byteOrderMark :: text := List.dropWhile_cons_of_neg (by decide)

theorem normalizeText_mark (laws : LawfulNfc nfc)
    (h : normalizeText nfc text = byteOrderMark :: kept) :
    normalizeText nfc (normalizeText nfc text) = kept.dropWhile (· == '\n') := by
  have hsettled : Settled ([byteOrderMark] ++ kept) := by
    have hform : Settled (normalizeText nfc text) := settled_normalizeText
    rwa [h] at hform
  rw [normalizeText_eq, laws.stable_normalizeText, h, dropMark_cons,
    hsettled.of_append.settle_eq_self]

theorem normalizeText_idem_iff (laws : LawfulNfc nfc) :
    normalizeText nfc (normalizeText nfc text) = normalizeText nfc text
      ↔ (normalizeText nfc text).head? ≠ some byteOrderMark := by
  constructor
  · intro hidem hhead
    obtain ⟨kept, hform⟩ : ∃ kept, normalizeText nfc text
        = byteOrderMark :: kept := by
      cases hform : normalizeText nfc text with
      | nil =>
        rw [hform] at hhead
        cases hhead
      | cons c kept =>
        rw [hform] at hhead
        exact ⟨kept, by rw [Option.some.inj hhead]⟩
    have hshort := (List.dropWhile_sublist (l := kept) (· == '\n')).length_le
    rw [← normalizeText_mark laws hform, hidem, hform, List.length_cons] at hshort
    omega
  · exact normalizeText_idem laws

-- ====== what looks alike

theorem pieces_append (h : ∀ c ∈ line, ¬ (c = '\r' ∨ c = '\n')) :
    pieces (line ++ rest) = (pieces rest).modifyHead (line ++ ·) := by
  induction line with
  | nil =>
    obtain ⟨first, lines, hlines⟩ := List.exists_cons_of_ne_nil
      (pieces_ne_nil rest)
    rw [List.nil_append, hlines]
    rfl
  | cons c line ih =>
    obtain ⟨hc, hline⟩ := List.forall_mem_cons.1 h
    rw [List.cons_append, pieces, if_neg (fun hcrlf => hc (.inl hcrlf.1)),
      if_neg hc, ih hline, List.modifyHead_modifyHead]
    rfl

theorem pieces_line (h : ∀ c ∈ line, ¬ (c = '\r' ∨ c = '\n')) :
    pieces line = [line] := by
  have hline : pieces (line ++ []) = (pieces []).modifyHead (line ++ ·) :=
    pieces_append h
  simpa [pieces] using hline

theorem pieces_cons (h : ∀ c ∈ line, ¬ (c = '\r' ∨ c = '\n'))
    (hc : c = '\r' ∨ c = '\n') (hcrlf : ¬ (c = '\r' ∧ rest.head? = some '\n')) :
    pieces (line ++ c :: rest) = line :: pieces rest := by
  rw [pieces_append h, pieces, if_neg hcrlf, if_pos hc]
  simp

theorem pieces_crlf (h : ∀ c ∈ line, ¬ (c = '\r' ∨ c = '\n')) :
    pieces (line ++ '\r' :: '\n' :: rest) = line :: pieces rest := by
  rw [pieces_append h, pieces, if_pos ⟨rfl, rfl⟩, pieces,
    if_neg (fun hcrlf => absurd hcrlf.1 (by decide)), if_pos (.inr rfl)]
  simp

namespace LawfulNfc

theorem lineEnd (laws : LawfulNfc nfc) (hc : c = '\r' ∨ c = '\n') :
    nfc (before ++ c :: after) = nfc before ++ c :: nfc after := by
  have hspace : isSpace c = true := by
    rcases hc with rfl | rfl <;> decide
  have hfixed : nfc [c] = [c] := by
    apply laws.fixed c (.inl _)
    rcases hc with rfl | rfl <;> decide
  rw [laws.boundary before c after (.inl hspace), hfixed, List.append_assoc]
  rfl

theorem head?_break (laws : LawfulNfc nfc) (h : (nfc text).head? = some '\n') :
    text.head? = some '\n' := by
  have hmem := laws.source text '\n' (.inr rfl) (List.mem_of_mem_head? h)
  obtain ⟨before, after, rfl, hno⟩ := List.eq_append_cons_of_mem hmem
  rw [laws.lineEnd (.inr rfl)] at h
  have hnil : nfc before = [] := by
    cases hbefore : nfc before with
    | nil => rfl
    | cons d rest =>
      rw [hbefore] at h
      obtain rfl : d = '\n' := Option.some.inj h
      exact absurd (laws.source before '\n' (.inr rfl)
        (by rw [hbefore]; exact List.mem_cons_self)) hno
  rw [laws.nonempty before hnil]
  rfl

theorem pieces_nfc (laws : LawfulNfc nfc) (text : Text) :
    pieces (nfc text) = (pieces text).map nfc := by
  -- on the length: the rest after a line end is shorter
  induction hn : text.length using Nat.strong_induction_on generalizing text with
  | _ n ih =>
    have hline : ∀ c ∈ text.takeWhile (fun c => !(c == '\r' || c == '\n')),
        ¬ (c = '\r' ∨ c = '\n') := by
      intro c hc
      simpa using List.mem_takeWhile_imp hc
    have hwhole := List.takeWhile_append_dropWhile
      (p := fun c => !(c == '\r' || c == '\n')) (l := text)
    have hbreak := List.head?_dropWhile_not
      (fun c => !(c == '\r' || c == '\n')) text
    generalize text.takeWhile (fun c => !(c == '\r' || c == '\n')) = line
      at hline hwhole
    generalize text.dropWhile (fun c => !(c == '\r' || c == '\n')) = rest
      at hwhole hbreak
    subst hwhole
    have hcomposed : ∀ c ∈ nfc line, ¬ (c = '\r' ∨ c = '\n') :=
      fun c hc hbreak => hline c (laws.source line c hbreak hc) hbreak
    cases rest with
    | nil =>
      rw [List.append_nil, pieces_line hline, pieces_line hcomposed]
      rfl
    | cons c after =>
      have hc : c = '\r' ∨ c = '\n' :=
        or_iff_not_imp_left.2 (by simpa using hbreak)
      rw [laws.lineEnd hc]
      rw [List.length_append, List.length_cons] at hn
      by_cases hcrlf : c = '\r' ∧ after.head? = some '\n'
      · obtain ⟨later, rfl⟩ : ∃ later, after = '\n' :: later := by
          cases after with
          | nil => cases hcrlf.2
          | cons d later => exact ⟨later, by rw [Option.some.inj hcrlf.2]⟩
        have hlater : nfc ('\n' :: later) = '\n' :: nfc later := by
          have hsplit : nfc ([] ++ '\n' :: later) = nfc [] ++ '\n' :: nfc later :=
            laws.lineEnd (.inr rfl)
          rwa [laws.nil] at hsplit
        rw [List.length_cons] at hn
        rw [hcrlf.1, hlater, pieces_crlf hline, pieces_crlf hcomposed,
          List.map_cons, ih later.length (by omega) later rfl]
      · rw [pieces_cons hline hc hcrlf, pieces_cons hcomposed hc
          (fun h => hcrlf ⟨h.1, laws.head?_break h.2⟩), List.map_cons,
          ih after.length (by omega) after rfl]

end LawfulNfc

theorem rstrip_concat : rstrip (line ++ [c])
    = if isSpace c = true then rstrip line else line ++ [c] := by
  unfold rstrip
  rw [List.reverse_append, List.reverse_singleton, List.singleton_append]
  split
  case isTrue hc => rw [List.dropWhile_cons_of_pos hc]
  case isFalse hc =>
    rw [List.dropWhile_cons_of_neg hc]
    simp

theorem rstrip_nfc (laws : LawfulNfc nfc) (line : Text) :
    rstrip (nfc line) = rstrip (nfc (rstrip line)) := by
  induction line using List.reverseRecOn with
  | nil => rfl
  | append_singleton line c ih =>
    rw [rstrip_concat]
    split
    case isTrue hc =>
      obtain ⟨d, hd, hspace⟩ := laws.space c hc
      rw [laws.boundary line c [] (.inl hc), hspace, laws.nil, List.append_nil,
        rstrip_concat, if_pos hd, ih]
    case isFalse => rfl

theorem pieces_dropMark :
    pieces (dropMark text) = (pieces text).modifyHead dropMark := by
  have hnil : ∀ lines : List Text,
      ([] :: lines).modifyHead dropMark = [] :: lines := fun _ => rfl
  cases text with
  | nil => rfl
  | cons c rest =>
    rw [dropMark]
    by_cases hc : c = byteOrderMark
    · have hother : ¬ (c = '\r' ∨ c = '\n') := by
        rw [hc]
        decide
      rw [if_pos hc, pieces, if_neg fun hcrlf => hother (.inl hcrlf.1),
        if_neg hother, List.modifyHead_modifyHead, hc]
      obtain ⟨first, lines, hlines⟩ := List.exists_cons_of_ne_nil
        (pieces_ne_nil rest)
      rw [hlines, List.modifyHead_cons, Function.comp_apply, dropMark_cons]
    · rw [if_neg hc, pieces]
      split
      case isTrue hcrlf =>
        obtain ⟨later, rfl⟩ : ∃ later, rest = '\n' :: later := by
          cases rest with
          | nil => cases hcrlf.2
          | cons d later => exact ⟨later, by rw [Option.some.inj hcrlf.2]⟩
        have hlines : pieces ('\n' :: later) = [] :: pieces later := by
          rw [pieces, if_neg (fun h => absurd h.1 (by decide)), if_pos (.inr rfl)]
        rw [hlines, hnil]
      case isFalse =>
        split
        case isTrue => rw [hnil]
        case isFalse =>
          rw [List.modifyHead_modifyHead]
          congr 1
          funext line
          rw [Function.comp_apply, dropMark, if_neg hc]

theorem rstrip_dropMark :
    rstrip (dropMark line) = dropMark (rstrip line) := by
  cases line with
  | nil => rfl
  | cons c line =>
    rw [dropMark, rstrip_cons]
    by_cases hc : c = byteOrderMark
    · have hspace : isSpace c = false := by
        rw [hc]
        decide
      rw [if_pos hc, if_neg fun h => absurd (hspace ▸ h.2) Bool.false_ne_true,
        hc, dropMark_cons]
    · rw [if_neg hc, rstrip_cons]
      split
      case isTrue => rfl
      case isFalse => rw [dropMark, if_neg hc]

/-- The forms of the texts are one after some more rounds. -/
def Meets (nfc : Text → Text) (text text' : Text) : Prop :=
  ∃ m n, Nat.iterate (normalizeText nfc) m (normalizeText nfc text)
    = Nat.iterate (normalizeText nfc) n (normalizeText nfc text')

theorem normalizeText_congr (laws : LawfulNfc nfc)
    (h : (pieces text).map rstrip = (pieces text').map rstrip) :
    normalizeText nfc text = normalizeText nfc text' := by
  have hstripped : ∀ t : Text, (pieces (nfc t)).map rstrip
      = ((pieces t).map rstrip).map fun line => rstrip (nfc line) := by
    intro t
    rw [laws.pieces_nfc, List.map_map, List.map_map]
    exact List.map_congr_left fun line _ => rstrip_nfc laws line
  have hunmarked : ∀ t : Text, (pieces (dropMark t)).map rstrip
      = ((pieces t).map rstrip).modifyHead dropMark := by
    intro t
    obtain ⟨first, lines, hlines⟩ := List.exists_cons_of_ne_nil
      (pieces_ne_nil t)
    rw [pieces_dropMark, hlines, List.modifyHead_cons, List.map_cons,
      rstrip_dropMark, List.map_cons, List.modifyHead_cons]
  have hlines : (pieces (dropMark (nfc text))).map rstrip
      = (pieces (dropMark (nfc text'))).map rstrip := by
    rw [hunmarked, hunmarked, hstripped, hstripped, h]
  rw [normalizeText_eq, normalizeText_eq, settle_eq, settle_eq, hlines]

theorem meets_mark (laws : LawfulNfc nfc) :
    Meets nfc (byteOrderMark :: text) text := by
  have hcomposed : nfc (byteOrderMark :: text) = byteOrderMark :: nfc text := by
    have hsplit := laws.boundary [] byteOrderMark text (.inr rfl)
    rwa [laws.nil, laws.fixed _ (.inr rfl)] at hsplit
  have hform : normalizeText nfc (byteOrderMark :: text)
      = (settle (nfc text)).dropWhile (· == '\n') := by
    rw [normalizeText_eq, hcomposed, dropMark_cons]
  by_cases hmark : ∃ rest, nfc text = byteOrderMark :: rest
  · obtain ⟨rest, hrest⟩ := hmark
    rw [hrest, settle_mark, dropWhile_mark] at hform
    refine ⟨1, 0, ?_⟩
    show normalizeText nfc (normalizeText nfc (byteOrderMark :: text))
      = normalizeText nfc text
    rw [normalizeText_mark laws hform, normalizeText_eq, hrest, dropMark_cons]
  · refine ⟨0, 0, ?_⟩
    show normalizeText nfc (byteOrderMark :: text) = normalizeText nfc text
    have hsame : dropMark (nfc text) = nfc text := by
      cases hnfc : nfc text with
      | nil => rfl
      | cons c rest =>
        rw [dropMark, if_neg fun hc => hmark ⟨rest, by rw [hnfc, hc]⟩]
    rw [hform, normalizeText_eq, hsame]

theorem Cosmetic.meets (laws : LawfulNfc nfc) (h : Cosmetic nfc text text') :
    Meets nfc text text' := by
  cases h with
  | composed h => exact ⟨0, 0, by unfold normalizeText; rw [h]⟩
  | lineEnds h => exact ⟨0, 0, normalizeText_congr laws (by rw [h])⟩
  | trailing h => exact ⟨0, 0, normalizeText_congr laws h⟩
  | mark => exact meets_mark laws

theorem LooksLike.meets (laws : LawfulNfc nfc) (h : LooksLike nfc text text') :
    Meets nfc text text' := by
  induction h with
  | rel _ _ h => exact h.meets laws
  | refl => exact ⟨0, 0, rfl⟩
  | symm _ _ _ ih =>
    obtain ⟨m, n, h⟩ := ih
    exact ⟨n, m, h.symm⟩
  | trans _ _ _ _ _ ih ih' =>
    obtain ⟨m, n, h⟩ := ih
    obtain ⟨m', n', h'⟩ := ih'
    refine ⟨m' + m, n + n', ?_⟩
    rw [Function.iterate_add_apply, Function.iterate_add_apply, h, ← h',
      ← Function.iterate_add_apply, ← Function.iterate_add_apply, Nat.add_comm]

theorem exposed_iff : Exposed nfc text
    ↔ (normalizeText nfc text).head? = some byteOrderMark := by
  rw [Exposed, head?_normalizeText]

/-- Texts that look alike have one form, and it is clean and a fixed point,
exactly when neither shows a second mark where it begins. -/
theorem canonical_iff (laws : LawfulNfc nfc) (h : LooksLike nfc text text') :
    OneForm nfc text text' ↔ ¬ Exposed nfc text ∧ ¬ Exposed nfc text' := by
  rw [exposed_iff, exposed_iff]
  constructor
  · rintro ⟨-, hforms⟩
    exact ⟨(hforms text (.inl rfl)).2.noMark, (hforms text' (.inr rfl)).2.noMark⟩
  · rintro ⟨hmark, hmark'⟩
    constructor
    · obtain ⟨m, n, hmeet⟩ := h.meets laws
      rwa [Function.iterate_fixed (normalizeText_idem laws hmark),
        Function.iterate_fixed (normalizeText_idem laws hmark')] at hmeet
    · rintro t (rfl | rfl)
      · exact ⟨normalizeText_idem laws hmark, clean_iff.2 hmark⟩
      · exact ⟨normalizeText_idem laws hmark', clean_iff.2 hmark'⟩

-- ------- two texts

theorem lawfulNfc_id : LawfulNfc id where
  idempotent := fun _ => rfl
  substring := fun _ _ _ => rfl
  boundary := fun before c after _ => by simp
  fixed := fun _ _ => rfl
  source := fun _ _ _ h => h
  space := fun c hc => ⟨c, hc, rfl⟩
  nonempty := fun _ h => h

/-- Trailing spaces and another line end. -/
theorem canonical_iff_trailing :
    OneForm id "a  \r\nb".toList "a\nb ".toList :=
  (canonical_iff lawfulNfc_id (.rel _ _ (.trailing (by decide)))).2
    ⟨by unfold Exposed; decide, by unfold Exposed; decide⟩

/-- A mark after a blank line is left at the start of the form. -/
theorem not_canonical :
    ¬ ∀ nfc, LawfulNfc nfc → ∀ text text', LooksLike nfc text text' →
      OneForm nfc text text' := by
  intro h
  have hform := h id lawfulNfc_id ['\n', byteOrderMark, 'a']
    ['\n', byteOrderMark, 'a'] (.refl _)
  exact absurd (hform.2 _ (.inl rfl)).1 (by decide)

end MemoryOS
