/-
When every citation of an answer is checked.

# The result

`checked_iff`: every number that a citation of the whole answer names is
either supplied or reported, by `verifyCitations` and by `checkReflection`,
and what they call grounded or writable names supplied numbers only, exactly
when each number that is not supplied also stands in a citation without a
line break.

Citations are searched for after the text was split. A separator is a run of
whitespace that begins at a line break or after a mark that ends a sentence
(`Separates`); no citation holds such a mark, so a citation without a line
break is whole in some sentence, and one with a line break in none
(`mem_indices_pieces`).
-/
import MemoryOS.Domain.Grounding
import MemoryOS.Lib.Recognises

namespace MemoryOS

open Lib Matcher Computability

namespace Grounding

variable {script : Script} {answer : Text} {valid : List Nat}

-- ====== statement vocabulary

/-- What ends a sentence. -/
def endsSentence (c : Char) : Bool := c == '.' || c == '!' || c == '?'

/-- The decimal digits of a script are neither brackets nor marks that end a
sentence. -/
def Digits (script : Script) : Prop :=
  ∀ c, (script.decimal c).isSome = true →
    opensCitation c = false ∧ closesCitation c = false
      ∧ endsSentence c = false

/-- The numbers of one citation. -/
def numbersIn (script : Script) (found : Text) : List Nat :=
  ((found.drop 1).dropLast.splitOn ',').map (number script)

/-- The numbers of the citations without a line break. -/
def unbroken (script : Script) (text : Text) : List Nat :=
  (((citation script).findall text).filter fun found =>
    decide ('\n' ∉ found)).flatMap (numbersIn script)

/-- Every citation of the whole answer is checked. -/
structure Checked (script : Script) (answer : Text) (valid : List Nat) :
    Prop where
  hallucinated : ∀ i ∈ indices script answer, i ∉ valid →
    i ∈ (verifyCitations script answer valid).hallucinatedIndices
  outOfEvidence : ∀ i ∈ indices script answer, i ∉ valid →
    i ∈ (checkReflection script answer valid).outOfEvidence
  grounded : (verifyCitations script answer valid).grounded = true →
    ∀ i ∈ indices script answer, i ∈ valid
  writable : (checkReflection script answer valid).writable = true →
    ∀ i ∈ indices script answer, i ∈ valid

-- ====== the citations

/-- What stands between the brackets of a citation. -/
def inner (script : Script) (c : Char) : Prop :=
  (script.decimal c).isSome = true ∨ isSpace c = true ∨ c = ','

/-- `\d+`. -/
def digits (script : Script) : Language Char :=
  oneOfClass (fun c => (script.decimal c).isSome)
    * (oneOfClass fun c => (script.decimal c).isSome)∗

/-- What stands between the brackets: numbers, with commas between. -/
def numbers (script : Script) : Language Char :=
  digits script * ((oneOfClass isSpace)∗ * (oneOfClass (· == ',')
    * ((oneOfClass isSpace)∗ * (digits script * 1))))∗

/-- The citations. -/
def citations (script : Script) : Language Char :=
  oneOfClass opensCitation * (numbers script * oneOfClass closesCitation)

variable {text found : Text} {i : Nat} {m : Matcher} {c : Char}

theorem nil_not_mem_class (p : Char → Bool) : [] ∉ oneOfClass p := by
  rintro ⟨c, -, h⟩
  cases h

theorem recognises_digits (script : Script) :
    Recognises (plus (char fun c => (script.decimal c).isSome))
      (digits script) :=
  (recognises_char _).plus (nil_not_mem_class _)

theorem recognises_bracketed (script : Script) (opens closes : Char → Bool) :
    Recognises (.andThen (.char opens) (.all [
        plus (char fun c => (script.decimal c).isSome),
        star (.all [star space, .char (· == ','), star space,
          plus (char fun c => (script.decimal c).isSome)]), .char closes]))
      (oneOfClass opens * (numbers script * oneOfClass closes)) := by
  have hspaces : Recognises (star space) (oneOfClass isSpace)∗ :=
    (recognises_char _).star (nil_not_mem_class _)
  have hnext := hspaces.andThen ((recognises_char (· == ',')).andThen
    (hspaces.andThen ((recognises_digits script).andThen recognises_nil)))
  have hne : [] ∉ (oneOfClass isSpace)∗ * (oneOfClass (· == ',')
      * ((oneOfClass isSpace)∗ * (digits script * 1))) := by
    intro hnil
    obtain ⟨u, -, v, hv, huv⟩ := Language.mem_mul.1 hnil
    obtain ⟨-, rfl⟩ := List.append_eq_nil_iff.1 huv
    obtain ⟨x, hx, y, -, hxy⟩ := Language.mem_mul.1 hv
    obtain ⟨rfl, -⟩ := List.append_eq_nil_iff.1 hxy
    exact nil_not_mem_class _ hx
  have h := (recognises_char opens).andThen
    ((recognises_digits script).andThen ((hnext.star hne).andThen
      ((recognises_char closes).andThen recognises_nil)))
  unfold numbers
  rw [mul_assoc (digits script)]
  rw [mul_one (oneOfClass closes)] at h
  exact h

theorem recognises_citation (script : Script) :
    Recognises (citation script) (citations script) :=
  recognises_bracketed script opensCitation closesCitation

theorem over_numbers (script : Script) : Over (inner script) (numbers script) := by
  have hdigits : Over (inner script) (digits script) :=
    (over_oneOfClass fun _ => .inl).mul (over_oneOfClass fun _ => .inl).kstar
  have hspaces : Over (inner script) (oneOfClass isSpace)∗ :=
    (over_oneOfClass fun _ h => .inr (.inl h)).kstar
  have hcomma : Over (inner script) (oneOfClass (· == ',')) :=
    over_oneOfClass fun _ h => .inr (.inr (eq_of_beq h))
  exact hdigits.mul (hspaces.mul (hcomma.mul (hspaces.mul
    (hdigits.mul over_one)))).kstar

theorem citation_shape (h : found ∈ citations script) :
    ∃ first body last, found = first :: (body ++ [last])
      ∧ opensCitation first = true ∧ closesCitation last = true
      ∧ ∀ c ∈ body, inner script c := by
  obtain ⟨u, ⟨first, hfirst, rfl⟩, v, hv, rfl⟩ := Language.mem_mul.1 h
  obtain ⟨body, hbody, x, ⟨last, hlast, rfl⟩, rfl⟩ := Language.mem_mul.1 hv
  exact ⟨first, body, last, rfl, hfirst, hlast, over_numbers script body hbody⟩

theorem opens_apart (h : opensCitation c = true) :
    isSpace c = false ∧ closesCitation c = false ∧ endsSentence c = false := by
  rcases Bool.or_eq_true _ _ ▸ h with h | h <;> rw [eq_of_beq h] <;> decide

theorem closes_apart (h : closesCitation c = true) :
    isSpace c = false ∧ opensCitation c = false ∧ endsSentence c = false := by
  rcases Bool.or_eq_true _ _ ▸ h with h | h <;> rw [eq_of_beq h] <;> decide

theorem ends_not_space (h : endsSentence c = true) :
    isSpace c = false := by
  rcases Bool.or_eq_true _ _ ▸ h with h | h
  · rcases Bool.or_eq_true _ _ ▸ h with h | h <;> rw [eq_of_beq h] <;> decide
  · rw [eq_of_beq h]
    decide

theorem inner_apart (hdigits : Digits script)
    (h : inner script c) :
    opensCitation c = false ∧ closesCitation c = false
      ∧ endsSentence c = false := by
  rcases h with h | h | rfl
  · exact hdigits c h
  · refine ⟨?_, ?_, ?_⟩ <;> rw [← Bool.not_eq_true] <;> intro hc
    · exact absurd h (by rw [(opens_apart hc).1]; decide)
    · exact absurd h (by rw [(closes_apart hc).1]; decide)
    · exact absurd h (by rw [ends_not_space hc]; decide)
  · decide

theorem citation_ends (hdigits : Digits script)
    (h : found ∈ citations script) : ∀ c ∈ found, endsSentence c = false := by
  obtain ⟨first, body, last, rfl, hfirst, hlast, hbody⟩ := citation_shape h
  intro c hc
  rcases List.mem_cons.1 hc with rfl | hc
  · exact (opens_apart hfirst).2.2
  · rcases List.mem_append.1 hc with hc | hc
    · exact (inner_apart hdigits (hbody c hc)).2.2
    · rw [List.mem_singleton.1 hc]
      exact (closes_apart hlast).2.2

theorem delimited_citations (hdigits : Digits script) :
    Delimited (fun c => opensCitation c = true) (citations script) := by
  constructor
  · intro w hw
    obtain ⟨first, body, last, rfl, hfirst, hlast, hbody⟩ := citation_shape hw
    refine ⟨first, _, rfl, hfirst, fun c hc => ?_⟩
    rw [Bool.not_eq_true]
    rcases List.mem_append.1 hc with hc | hc
    · exact (inner_apart hdigits (hbody c hc)).1
    · rw [List.mem_singleton.1 hc]
      exact (closes_apart hlast).2.1
  · intro u hu v hv r s huv
    obtain ⟨first, body, last, rfl, -, hlast, hbody⟩ := citation_shape hu
    obtain ⟨first', body', last', rfl, -, hlast', hbody'⟩ := citation_shape hv
    -- a closing bracket is in neither body
    have hclosed : ∀ {body : Text}, (∀ c ∈ body, inner script c) →
        ∀ {last : Char}, closesCitation last = true → last ∉ body := by
      intro body hbody last hlast hin
      rw [(inner_apart hdigits (hbody last hin)).2.1] at hlast
      cases hlast
    simp only [List.cons_append, List.append_assoc, List.nil_append,
      List.cons.injEq] at huv
    obtain ⟨rfl, huv⟩ := huv
    rcases List.append_eq_append_iff.1 huv with ⟨x, rfl, hx⟩ | ⟨x, rfl, hx⟩
    · cases x with
      | nil =>
        obtain ⟨rfl, -⟩ := List.cons.inj hx
        rw [List.append_nil]
      | cons c x =>
        obtain ⟨rfl, -⟩ := List.cons.inj hx
        exact absurd (List.mem_append_right _ (List.mem_cons_self ..))
          (hclosed hbody' hlast)
    · cases x with
      | nil =>
        obtain ⟨rfl, -⟩ := List.cons.inj hx
        rw [List.append_nil]
      | cons c x =>
        obtain ⟨rfl, -⟩ := List.cons.inj hx
        exact absurd (List.mem_append_right _ (List.mem_cons_self ..))
          (hclosed hbody hlast')

theorem mem_citations (hdigits : Digits script) :
    found ∈ (citation script).findall text
      ↔ found ∈ citations script ∧ found <:+: text :=
  (delimited_citations hdigits).mem_findall (recognises_citation script)

theorem mem_indices (hdigits : Digits script) :
    i ∈ indices script text
      ↔ ∃ found ∈ citations script, found <:+: text
        ∧ i ∈ numbersIn script found := by
  unfold indices
  rw [List.mem_flatMap]
  simp only [mem_citations hdigits, and_assoc]
  rfl

theorem mem_unbroken (hdigits : Digits script) :
    i ∈ unbroken script text
      ↔ ∃ found ∈ citations script, found <:+: text ∧ '\n' ∉ found
        ∧ i ∈ numbersIn script found := by
  unfold unbroken
  rw [List.mem_flatMap]
  simp only [List.mem_filter, mem_citations hdigits, decide_eq_true_eq,
    and_assoc]

-- ====== the separators

/-- A separator is whitespace, and begins at a line break or after the end of
a sentence. Every line break is one. -/
structure Separates (m : Matcher) : Prop where
  spaces : ∀ prev text p after, (p, after) ∈ m prev text →
    ∃ c w, text = c :: w ++ after ∧ (∀ d ∈ c :: w, isSpace d = true)
      ∧ (c = '\n' ∨ prev.any endsSentence = true)
  breaks : ∀ prev rest, m prev ('\n' :: rest) ≠ []

theorem mem_plus_char {q : Char → Bool} {prev p : Option Char}
    {text after : List Char} (h : (p, after) ∈ plus (char q) prev text) :
    ∃ c w, text = c :: w ++ after ∧ ∀ d ∈ c :: w, q d = true := by
  obtain ⟨w, hw, rfl⟩ := ((recognises_char q).plus (nil_not_mem_class _) prev
    text after).1 ⟨p, h⟩
  have hover := (over_oneOfClass (p := fun c => q c = true) fun _ h => h)
  have hall := hover.mul hover.kstar w hw
  obtain ⟨u, ⟨c, -, rfl⟩, v, -, rfl⟩ := Language.mem_mul.1 hw
  exact ⟨c, v, rfl, hall⟩

theorem breaks_ne_nil (prev : Option Char) (rest : List Char) :
    plus (char (· == '\n')) prev ('\n' :: rest) ≠ [] := by
  have hbreak : ['\n'] ∈ oneOfClass (· == '\n') := ⟨'\n', by decide, rfl⟩
  obtain ⟨p, hp⟩ := ((recognises_char (· == '\n')).plus (nil_not_mem_class _)
    prev ('\n' :: rest) rest).2 ⟨['\n'] ++ [], Language.append_mem_mul hbreak
      (Language.nil_mem_kstar _), rfl⟩
  exact List.ne_nil_of_mem hp

theorem separates_of {first : Matcher}
    (hfirst : ∀ prev text p after, (p, after) ∈ first prev text →
      (p, after) ∈ plus space prev text
        ∧ prev.any endsSentence = true) :
    Separates (.oneOf [first, .plus (.char (· == '\n'))]) := by
  constructor
  · intro prev text p after h
    obtain ⟨m, hm, hmatch⟩ := List.mem_flatMap.1 h
    rcases List.mem_cons.1 hm with rfl | hm
    · obtain ⟨hrun, hprev⟩ := hfirst prev text p after hmatch
      obtain ⟨c, w, htext, hspace⟩ := mem_plus_char hrun
      exact ⟨c, w, htext, hspace, .inr hprev⟩
    · obtain rfl := List.mem_singleton.1 hm
      obtain ⟨c, w, htext, hbreak⟩ := mem_plus_char hmatch
      refine ⟨c, w, htext, fun d hd => ?_, .inl (eq_of_beq
        (hbreak c (List.mem_cons_self ..)))⟩
      rw [eq_of_beq (hbreak d hd)]
      decide
  · intro prev rest h
    exact breaks_ne_nil prev rest (List.flatMap_eq_nil_iff.1 h _
      (List.mem_cons_of_mem _ (List.mem_singleton_self _)))

theorem separates_sentence : Separates sentence := by
  refine separates_of fun prev text p after h => ?_
  obtain ⟨q, hq, h⟩ := List.mem_flatMap.1 h
  obtain ⟨r, hr, h⟩ := List.mem_flatMap.1 h
  cases List.mem_singleton.1 h
  unfold look at hq
  split at hq
  case isTrue hprev =>
    cases List.mem_singleton.1 hq
    exact ⟨hr, hprev⟩
  case isFalse => cases hq

theorem separates_reflectionSentence : Separates reflectionSentence := by
  refine separates_of fun prev text p after h => ?_
  obtain ⟨q, hq, h⟩ := List.mem_flatMap.1 h
  obtain ⟨r, hr, h⟩ := List.mem_flatMap.1 h
  obtain ⟨t, ht, h⟩ := List.mem_flatMap.1 h
  cases List.mem_singleton.1 h
  unfold look at hq ht
  split at hq
  case isTrue hprev =>
    cases List.mem_singleton.1 hq
    split at ht
    case isTrue =>
      cases List.mem_singleton.1 ht
      exact ⟨hr, hprev⟩
    case isFalse => cases ht
  case isFalse => cases hq

theorem Separates.citation_iff (hm : Separates m)
    (hdigits : Digits script)
    (hfound : found ∈ citations script) :
    (∃ piece ∈ m.split text, found <:+: piece)
      ↔ found <:+: text ∧ '\n' ∉ found := by
  constructor
  · rintro ⟨piece, hpiece, hin⟩
    exact ⟨hin.trans (infix_of_mem_split hpiece),
      fun hbreak => not_mem_split hm.breaks hpiece (hin.subset hbreak)⟩
  · rintro ⟨⟨before, after, rfl⟩, hbreak⟩
    obtain ⟨first, rest, heq, hopens, -⟩ :=
      (delimited_citations hdigits).opened found hfound
    have hends := citation_ends hdigits hfound
    rw [List.append_assoc]
    refine mem_split_of_whole ?_ ?_
    · intro prev x y hbody hy hprev
      by_contra hne
      obtain ⟨⟨p, left⟩, hmatch⟩ := List.exists_mem_of_ne_nil _ hne
      obtain ⟨c, w, htext, hspace, hwhy⟩ := hm.spaces prev _ p left hmatch
      obtain ⟨d, y, rfl⟩ := List.exists_cons_of_ne_nil hy
      obtain ⟨rfl, -⟩ := List.cons.inj htext
      have hc : isSpace d = true := hspace d (List.mem_cons_self ..)
      rcases hwhy with rfl | hwhy
      · refine hbreak ?_
        rw [hbody]
        exact List.mem_append_right _ (List.mem_cons_self ..)
      · rcases List.eq_nil_or_concat x with rfl | ⟨z, e, rfl⟩
        · -- a citation does not begin with whitespace
          rw [List.nil_append, heq] at hbody
          obtain ⟨rfl, -⟩ := List.cons.inj hbody
          rw [(opens_apart hopens).1] at hc
          cases hc
        · -- and holds no end of a sentence
          rw [hprev e (by simp), Option.any_some] at hwhy
          rw [hends e (by rw [hbody]; simp)] at hwhy
          cases hwhy
    · intro prev l left more p hl hmatch
      obtain ⟨c, w, htext, hspace, -⟩ := hm.spaces prev _ p left
        (hmatch ▸ List.mem_cons_self ..)
      rcases List.append_eq_append_iff.1 htext with ⟨x, hx, hy⟩ | ⟨x, -, rfl⟩
      · cases x with
        | nil =>
          rw [List.nil_append] at hy
          rw [hy]
        | cons e x =>
          rw [heq] at hy
          obtain ⟨rfl, -⟩ := List.cons.inj hy
          have hin := hspace first (by
            rw [hx]
            exact List.mem_append_right _ (List.mem_cons_self ..))
          rw [(opens_apart hopens).1] at hin
          cases hin
      · exact (List.suffix_append x _).length_le

-- ====== the sentences

theorem infix_dropWhile {first : Char} {rest : Text}
    (hfirst : isSpace first = false) :
    first :: rest <:+: text.dropWhile isSpace ↔ first :: rest <:+: text := by
  constructor
  · exact fun h => h.trans (List.dropWhile_suffix isSpace).isInfix
  · rintro ⟨before, after, rfl⟩
    induction before with
    | nil =>
      rw [List.nil_append, List.cons_append, List.dropWhile_cons_of_neg
        (by rw [hfirst]; decide)]
      exact (List.prefix_append (first :: rest) after).isInfix
    | cons c before ih =>
      rw [List.cons_append, List.cons_append, List.dropWhile_cons]
      split
      case isTrue => exact ih
      case isFalse => exact ⟨c :: before, after, rfl⟩

theorem citation_strip (hfound : found ∈ citations script) :
    found <:+: strip text ↔ found <:+: text := by
  obtain ⟨first, body, last, rfl, hfirst, hlast, -⟩ := citation_shape hfound
  unfold strip
  have hreverse : (first :: (body ++ [last])).reverse
      = last :: (body.reverse ++ [first]) := by simp
  rw [← List.reverse_infix, List.reverse_reverse, hreverse,
    infix_dropWhile (closes_apart hlast).1, ← hreverse, List.reverse_infix,
    infix_dropWhile (opens_apart hfirst).1]

/-- The sentences that a pattern leaves. -/
def pieces (m : Matcher) (text : Text) : List Text :=
  ((m.split (strip text)).map strip).filter fun s => !s.isEmpty

theorem infix_pieces_iff (hm : Separates m)
    (hdigits : Digits script) (hfound : found ∈ citations script) :
    (∃ s ∈ pieces m text, found <:+: s) ↔ found <:+: text ∧ '\n' ∉ found := by
  unfold pieces
  constructor
  · intro h
    obtain ⟨s, hs, hin⟩ := h
    obtain ⟨piece, hpiece, rfl⟩ := List.mem_map.1 (List.mem_of_mem_filter hs)
    rw [citation_strip hfound] at hin
    obtain ⟨htext, hbreak⟩ := (hm.citation_iff hdigits hfound).1
      ⟨piece, hpiece, hin⟩
    exact ⟨(citation_strip hfound).1 htext, hbreak⟩
  · intro h
    obtain ⟨hin, hbreak⟩ := h
    obtain ⟨piece, hpiece, hpin⟩ := (hm.citation_iff hdigits hfound).2
      ⟨(citation_strip hfound).2 hin, hbreak⟩
    have hstrip := (citation_strip hfound).2 hpin
    refine ⟨strip piece, List.mem_filter.2 ⟨List.mem_map_of_mem hpiece, ?_⟩, hstrip⟩
    rw [Bool.not_eq_true', List.isEmpty_eq_false_iff]
    intro hnil
    rw [hnil, List.infix_nil] at hstrip
    exact (delimited_citations hdigits).nil_not_mem (hstrip ▸ hfound)

theorem mem_indices_pieces (hm : Separates m)
    (hdigits : Digits script) :
    i ∈ (pieces m text).flatMap (indices script)
      ↔ i ∈ unbroken script text := by
  rw [mem_unbroken hdigits, List.mem_flatMap]
  simp only [mem_indices hdigits]
  constructor
  · intro h
    obtain ⟨s, hs, found, hfound, hin, hi⟩ := h
    obtain ⟨htext, hbreak⟩ := (infix_pieces_iff hm hdigits hfound).1 ⟨s, hs, hin⟩
    exact ⟨found, hfound, htext, hbreak, hi⟩
  · intro h
    obtain ⟨found, hfound, hin, hbreak, hi⟩ := h
    obtain ⟨s, hs, hin⟩ := (infix_pieces_iff hm hdigits hfound).2 ⟨hin, hbreak⟩
    exact ⟨s, hs, found, hfound, hin, hi⟩

theorem pieces_blank (h : strip text = []) :
    pieces m text = [] := by
  unfold pieces
  rw [h]
  rfl

theorem mem_reported {cited valid : List Nat} :
    i ∈ ((cited.filter fun i => decide (i ∉ valid)).dedup).insertionSort
        (· ≤ ·)
      ↔ i ∈ cited ∧ i ∉ valid := by
  rw [List.mem_insertionSort, List.mem_dedup, List.mem_filter,
    decide_eq_true_eq]

theorem mem_hallucinated (hdigits : Digits script) :
    i ∈ (verifyCitations script answer valid).hallucinatedIndices
      ↔ i ∈ unbroken script answer ∧ i ∉ valid := by
  rw [← mem_indices_pieces separates_sentence hdigits]
  unfold verifyCitations
  simp only
  split
  case isTrue hblank =>
    rw [pieces_blank (List.isEmpty_iff.1 hblank)]
    exact iff_of_false List.not_mem_nil fun h => List.not_mem_nil h.1
  case isFalse => exact mem_reported

theorem mem_outOfEvidence (hdigits : Digits script) :
    i ∈ (checkReflection script answer valid).outOfEvidence
      ↔ i ∈ unbroken script answer ∧ i ∉ valid := by
  have hstrip : i ∈ unbroken script (strip answer)
      ↔ i ∈ unbroken script answer := by
    rw [mem_unbroken hdigits, mem_unbroken hdigits]
    exact exists_congr fun found => and_congr_right fun hfound =>
      and_congr_left fun _ => citation_strip hfound
  rw [← hstrip, ← mem_indices_pieces separates_reflectionSentence hdigits]
  unfold checkReflection
  simp only
  split
  case isTrue hblank =>
    have hblank := List.isEmpty_iff.1 hblank
    rw [pieces_blank (by rw [hblank]; rfl)]
    exact iff_of_false List.not_mem_nil fun h => List.not_mem_nil h.1
  case isFalse => exact mem_reported

/-- Every citation is checked exactly when the numbers that were not supplied
also stand in citations without a line break. -/
theorem checked_iff (script : Script) (hdigits : Digits script)
    (answer : Text) (valid : List Nat) :
    Checked script answer valid
      ↔ ∀ i ∈ indices script answer, i ∉ valid →
        i ∈ unbroken script answer := by
  constructor
  · intro h i hi hvalid
    exact ((mem_hallucinated hdigits).1 (h.hallucinated i hi hvalid)).1
  · intro h
    refine ⟨fun i hi hvalid => ?_, fun i hi hvalid => ?_, ?_, ?_⟩
    · exact (mem_hallucinated hdigits).2 ⟨h i hi hvalid, hvalid⟩
    · exact (mem_outOfEvidence hdigits).2 ⟨h i hi hvalid, hvalid⟩
    · intro hgrounded i hi
      by_contra hvalid
      have hin := (mem_hallucinated hdigits).2 ⟨h i hi hvalid, hvalid⟩
      have hnil := List.isEmpty_iff.1 (Bool.and_eq_true_iff.1 hgrounded).1
      rw [hnil] at hin
      cases hin
    · intro hwritable i hi
      by_contra hvalid
      have hin := (mem_outOfEvidence hdigits).2 ⟨h i hi hvalid, hvalid⟩
      have hnil := List.isEmpty_iff.1 (Bool.and_eq_true_iff.1 hwritable).1
      rw [hnil] at hin
      cases hin

theorem digits_ascii : Digits Script.ascii := by
  intro c hc
  have hdigit : c.isDigit = true := by
    by_contra h
    have hnone : Script.ascii.decimal c = none := if_neg h
    rw [hnone] at hc
    cases hc
  refine ⟨?_, ?_, ?_⟩ <;> rw [← Bool.not_eq_true] <;> intro h
  · rcases Bool.or_eq_true _ _ ▸ h with h | h <;>
      rw [eq_of_beq h] at hdigit <;> exact absurd hdigit (by decide)
  · rcases Bool.or_eq_true _ _ ▸ h with h | h <;>
      rw [eq_of_beq h] at hdigit <;> exact absurd hdigit (by decide)
  · rcases Bool.or_eq_true _ _ ▸ h with h | h
    · rcases Bool.or_eq_true _ _ ▸ h with h | h <;>
        rw [eq_of_beq h] at hdigit <;> exact absurd hdigit (by decide)
    · rw [eq_of_beq h] at hdigit
      exact absurd hdigit (by decide)

/-- For an answer that cites two passages, of which it had one. -/
theorem checked_iff_shipped :
    Checked Script.ascii "You shipped it [1, 2].".toList [1]
      ↔ ∀ i ∈ indices Script.ascii "You shipped it [1, 2].".toList, i ∉ [1] →
        i ∈ unbroken Script.ascii "You shipped it [1, 2].".toList :=
  checked_iff Script.ascii digits_ascii _ _

-- ------ example a citation over two lines

/-- An answer that cites passage 9, of two. -/
def brokenAnswer : Text := "You shipped it [1][2,\n9].".toList

/-- It is called grounded, and could be stored. -/
theorem not_checked :
    ¬ ∀ (script : Script), Digits script → ∀ (answer : Text)
      (valid : List Nat), Checked script answer valid := by
  intro hall
  have h := hall Script.ascii digits_ascii brokenAnswer [1, 2]
  have hgrounded : (verifyCitations Script.ascii brokenAnswer [1, 2]).grounded
      = true := by decide +kernel
  have hcited : 9 ∈ indices Script.ascii brokenAnswer := by decide +kernel
  exact absurd (h.grounded hgrounded 9 hcited) (by decide)

end Grounding

end MemoryOS
