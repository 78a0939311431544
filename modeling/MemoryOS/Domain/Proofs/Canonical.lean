/-
Which names a canonical form tells apart, and which it is a fixed point of
(`canonicalize`).

Of Unicode the proofs use five facts (`Lawful`): what ASCII text becomes, and
that a lowered text stays as it is. A name is told from all others exactly
when it is plain (`told_apart_iff`); for the converse every other name is
confused with its own canonical form, spelt letter by letter so that no word
of it can be taken for decoration.
-/
import MemoryOS.Domain.Proofs.Stripping

namespace MemoryOS

/-- What is documented of Unicode's tables and used here. -/
structure UnicodeData.Lawful (data : UnicodeData) : Prop where
  /-- `str.isalnum` of ASCII. -/
  alnum_ascii : ∀ c : Char, c.toNat < 128 → data.isAlnum c = c.isAlphanum
  /-- NFKC leaves ASCII as it is. -/
  nfkc_ascii : ∀ text : Text, (∀ c ∈ text, c.toNat < 128) → data.nfkc text = text
  /-- Lowering leaves ASCII without capitals as it is. -/
  lower_ascii : ∀ text : Text, (∀ c ∈ text, c.toNat < 128 ∧ c.isUpper = false) →
    data.lower text = text
  /-- The characters of a lowered text are not lowered further. -/
  lower_lowered : ∀ text part : Text, (∀ c ∈ part, c ∈ data.lower text) →
    data.lower part = part
  /-- Lowering leaves something of something. -/
  lower_ne_nil : ∀ text : Text, text ≠ [] → data.lower text ≠ []
  /-- NFKC turns no letter or digit into whitespace. -/
  nfkc_visible : ∀ text : Text, (∃ c ∈ text, data.isAlnum c = true) →
    ∃ c ∈ data.nfkc text, isSpace c = false

namespace Canonicalize

variable {data : UnicodeData} {type : EntityType} {name : Text} {c : Char}

-- ====== statement vocabulary

/-- The letters and digits, in Unicode's sense, of what is left of a name
when articles and decorations are stripped, decorations being recognised by
all of a word's letters. -/
def letters (data : UnicodeData) (type : EntityType) (name : Text) : Text :=
  (survivors data.isAlnum data type name).flatten.filter data.isAlnum

/-- The name has no letter `a` to `z` and no digit `0` to `9`, or no other
letter or digit and one of these outside articles and decorations. -/
def Plain (data : UnicodeData) (type : EntityType) (name : Text) : Prop :=
  (∀ c ∈ lowered data name, isPlain c = false)
    ∨ ((∀ c ∈ lowered data name, data.isAlnum c = true → isPlain c = true)
      ∧ ∃ c ∈ (survivors isPlain data type name).flatten, isPlain c = true)

theorem plain_of_check {data : UnicodeData} {type : EntityType} {name : Text}
    (h : ((lowered data name).all (fun c => !data.isAlnum c || isPlain c)
      && (survivors isPlain data type name).flatten.any isPlain) = true) :
    Plain data type name := by
  obtain ⟨hall, hany⟩ := Bool.and_eq_true_iff.1 h
  refine .inr ⟨fun c hc halnum => ?_, List.any_eq_true.1 hany⟩
  simpa [halnum] using List.all_eq_true.1 hall c hc

-- =========== words

theorem bare_intercalate {p : Char → Bool} (hp : p ' ' = false)
    (words : List Text) :
    bare p ([' '].intercalate words) = bare p words.flatten := by
  induction words with
  | nil => rfl
  | cons word rest ih =>
    cases rest with
    | nil => simp
    | cons next rest =>
      rw [List.intercalate_cons_cons, List.flatten_cons]
      unfold bare at ih ⊢
      simp only [List.filter_append, ih]
      simp [hp]

theorem bare_splitOn {p : Char → Bool} (hp : p ' ' = false) (text : Text) :
    bare p (text.splitOn ' ').flatten = bare p text := by
  rw [← bare_intercalate hp, List.intercalate_splitOn]

theorem mem_splitOn (hc : c ≠ ' ') {text : Text} (h : c ∈ text) :
    c ∈ (text.splitOn ' ').flatten := by
  have hmem : c ∈ bare (· != ' ') text := mem_bare.2 ⟨h, by simpa using hc⟩
  rw [← bare_splitOn (by decide)] at hmem
  exact (mem_bare.1 hmem).1

theorem mem_of_splitOn {text : Text} (h : c ∈ (text.splitOn ' ').flatten) :
    c ∈ text := by
  suffices c ∈ [' '].intercalate (text.splitOn ' ') by
    rwa [List.intercalate_splitOn] at this
  generalize text.splitOn ' ' = words at h ⊢
  induction words with
  | nil => exact h
  | cons word rest ih =>
    cases rest with
    | nil => simpa using h
    | cons next rest =>
      rw [List.intercalate_cons_cons]
      rw [List.flatten_cons, List.mem_append] at h
      rcases h with h | h
      · simp [h]
      · simp [ih h]

theorem mem_of_survivors {p : Char → Bool}
    (h : c ∈ (survivors p data type name).flatten) : c ∈ lowered data name :=
  mem_of_splitOn (mem_of_stripArticles (mem_of_stripForType h))

theorem survivors_congr {p q : Char → Bool}
    (h : ∀ c ∈ lowered data name, p c = q c) :
    survivors p data type name = survivors q data type name :=
  stripForType_congr fun c hc => h c (mem_of_splitOn (mem_of_stripArticles hc))

-- ====== the branches

theorem isUpper_iff : c.isUpper = true ↔ 65 ≤ c.toNat ∧ c.toNat ≤ 90 := by
  unfold Char.isUpper
  simp [UInt32.le_iff_toNat_le, ← Char.toNat_val]

theorem isAlphanum_iff : c.isAlphanum = true
    ↔ (65 ≤ c.toNat ∧ c.toNat ≤ 90) ∨ (97 ≤ c.toNat ∧ c.toNat ≤ 122)
      ∨ (48 ≤ c.toNat ∧ c.toNat ≤ 57) := by
  unfold Char.isAlphanum Char.isAlpha Char.isUpper Char.isLower Char.isDigit
  simp [UInt32.le_iff_toNat_le, ← Char.toNat_val, or_assoc]

theorem isPlain_ascii (h : isPlain c = true) :
    c.toNat < 128 ∧ c.isUpper = false ∧ c.isAlphanum = true := by
  have hc := isPlain_iff.1 h
  refine ⟨by omega, ?_, ?_⟩
  · rw [Bool.eq_false_iff, ne_eq, isUpper_iff]
    omega
  · unfold isPlain at h
    unfold Char.isAlphanum Char.isAlpha
    rw [Bool.or_eq_true] at h
    simp only [Bool.or_eq_true]
    tauto

theorem alnum_plain (laws : data.Lawful) (h : isPlain c = true) :
    data.isAlnum c = true := by
  obtain ⟨hascii, -, halnum⟩ := isPlain_ascii h
  rw [laws.alnum_ascii c hascii, halnum]

theorem canonicalize_eq : canonicalize data name type
    = if lowered data name = [] then []
      else if bare isPlain (survivors isPlain data type name).flatten ≠ [] then
        bare isPlain (survivors isPlain data type name).flatten
      else if bare isPlain (lowered data name) ≠ [] then
        bare isPlain (lowered data name)
      else lowered data name := by
  unfold canonicalize
  rw [bare_intercalate (by decide)]
  simp only [List.isEmpty_iff, Bool.not_eq_true', ne_eq, List.isEmpty_eq_false_iff]

theorem canonicalize_survivors
    (h : ∃ c ∈ (survivors isPlain data type name).flatten, isPlain c = true) :
    canonicalize data name type
      = bare isPlain (survivors isPlain data type name).flatten := by
  obtain ⟨c, hc, hplain⟩ := h
  have hmem := mem_bare.2 ⟨hc, hplain⟩
  rw [canonicalize_eq, if_neg (List.ne_nil_of_mem (mem_of_survivors hc)),
    if_pos (List.ne_nil_of_mem hmem)]

theorem canonicalize_whole
    (hnone : ∀ c ∈ (survivors isPlain data type name).flatten, isPlain c = false)
    (h : ∃ c ∈ lowered data name, isPlain c = true) :
    canonicalize data name type = bare isPlain (lowered data name) := by
  obtain ⟨c, hc, hplain⟩ := h
  have hnil : bare isPlain (survivors isPlain data type name).flatten = [] :=
    List.filter_eq_nil_iff.2 fun x hx => by rw [hnone x hx]; simp
  rw [canonicalize_eq, if_neg (List.ne_nil_of_mem hc), if_neg (not_not.2 hnil),
    if_pos (List.ne_nil_of_mem (mem_bare.2 ⟨hc, hplain⟩))]

theorem canonicalize_lowered (h : ∀ c ∈ lowered data name, isPlain c = false) :
    canonicalize data name type = lowered data name := by
  have hwhole : bare isPlain (lowered data name) = [] :=
    List.filter_eq_nil_iff.2 fun x hx => by rw [h x hx]; simp
  have hnil : bare isPlain (survivors isPlain data type name).flatten = [] :=
    List.filter_eq_nil_iff.2 fun x hx => by
      rw [h x (mem_of_survivors hx)]; simp
  rw [canonicalize_eq, if_neg (not_not.2 hnil), if_neg (not_not.2 hwhole)]
  split
  case isTrue hempty => exact hempty.symm
  case isFalse => rfl

theorem canonicalize_plain (h : ∃ c ∈ lowered data name, isPlain c = true) :
    canonicalize data name type ≠ []
      ∧ ∀ c ∈ canonicalize data name type, isPlain c = true := by
  by_cases hs : ∃ c ∈ (survivors isPlain data type name).flatten,
      isPlain c = true
  · rw [canonicalize_survivors hs]
    obtain ⟨c, hc, hplain⟩ := hs
    exact ⟨List.ne_nil_of_mem (mem_bare.2 ⟨hc, hplain⟩),
      fun x hx => (mem_bare.1 hx).2⟩
  · have hnone : ∀ c ∈ (survivors isPlain data type name).flatten,
        isPlain c = false := by
      intro c hc
      by_contra hne
      exact hs ⟨c, hc, by simpa using hne⟩
    rw [canonicalize_whole hnone h]
    obtain ⟨c, hc, hplain⟩ := h
    exact ⟨List.ne_nil_of_mem (mem_bare.2 ⟨hc, hplain⟩),
      fun x hx => (mem_bare.1 hx).2⟩

-- ====== plain names

theorem letters_plain (laws : data.Lawful)
    (h : ∀ c ∈ lowered data name, data.isAlnum c = true → isPlain c = true) :
    letters data type name
      = bare isPlain (survivors isPlain data type name).flatten := by
  have hagree : ∀ c ∈ lowered data name, data.isAlnum c = isPlain c := by
    intro c hc
    rw [Bool.eq_iff_iff]
    exact ⟨h c hc, alnum_plain laws⟩
  unfold letters
  rw [survivors_congr hagree]
  exact bare_congr fun c hc => hagree c (mem_of_survivors hc)

theorem letters_congr {other : Text}
    (h : lowered data name = lowered data other) :
    letters data type name = letters data type other := by
  unfold letters survivors
  rw [h]

theorem letters_eq_of_plain (laws : data.Lawful) {other : Text}
    (hname : Plain data type name) (hother : Plain data type other)
    (heq : canonicalize data name type = canonicalize data other type) :
    letters data type name = letters data type other := by
  rcases hname with hname | ⟨hname, hsome⟩
  · rcases hother with hother | ⟨hother, hsome'⟩
    · rw [canonicalize_lowered hname, canonicalize_lowered hother] at heq
      exact letters_congr heq
    · -- one form has no plain letter, the other nothing else
      obtain ⟨c, hc, hplain⟩ := hsome'
      rw [canonicalize_lowered hname,
        canonicalize_survivors ⟨c, hc, hplain⟩] at heq
      have hmem := mem_bare.2 ⟨hc, hplain⟩
      rw [← heq] at hmem
      exact absurd hplain (by rw [hname c hmem]; simp)
  · rcases hother with hother | ⟨hother, hsome'⟩
    · obtain ⟨c, hc, hplain⟩ := hsome
      rw [canonicalize_lowered hother,
        canonicalize_survivors ⟨c, hc, hplain⟩] at heq
      have hmem := mem_bare.2 ⟨hc, hplain⟩
      rw [heq] at hmem
      exact absurd hplain (by rw [hother c hmem]; simp)
    · rw [letters_plain laws hname, letters_plain laws hother,
        ← canonicalize_survivors hsome, ← canonicalize_survivors hsome', heq]

-- ====== a name spelt out

/-- A form spelt letter by letter, each marked as a word of its own. -/
def spelled : Text → Text
  | [] => []
  | [c] => ['-', c]
  | c :: rest => '-' :: c :: ' ' :: spelled rest

/-- The words of a name spelt out. -/
def spelledWords (form : Text) : List Text := form.map fun c => ['-', c]

variable {form : Text}

theorem spelled_eq (form : Text) :
    spelled form = [' '].intercalate (spelledWords form) := by
  fun_induction spelled form with
  | case1 => rfl
  | case2 c => rfl
  | case3 c rest hne ih =>
    cases rest with
    | nil => exact absurd rfl hne
    | cons d rest =>
      rw [ih]
      rfl

theorem spelled_ascii (h : ∀ c ∈ form, isPlain c = true) :
    ∀ c ∈ spelled form, c.toNat < 128 ∧ c.isUpper = false := by
  fun_induction spelled form with
  | case1 => exact fun c hc => absurd hc List.not_mem_nil
  | case2 d =>
    intro c hc
    simp only [List.mem_cons, List.not_mem_nil, or_false] at hc
    rcases hc with rfl | rfl
    · decide
    · obtain ⟨hlt, hupper, -⟩ := isPlain_ascii (h c List.mem_cons_self)
      exact ⟨hlt, hupper⟩
  | case3 d rest _ ih =>
    obtain ⟨hd, hrest⟩ := List.forall_mem_cons.1 h
    intro c hc
    simp only [List.mem_cons] at hc
    rcases hc with rfl | rfl | rfl | hc
    · decide
    · obtain ⟨hlt, hupper, -⟩ := isPlain_ascii hd
      exact ⟨hlt, hupper⟩
    · decide
    · exact ih hrest c hc

theorem spelled_head (h : form ≠ []) : ∃ rest, spelled form = '-' :: rest := by
  fun_induction spelled form with
  | case1 => exact absurd rfl h
  | case2 c => exact ⟨_, rfl⟩
  | case3 c rest _ _ => exact ⟨_, rfl⟩

theorem spelled_last (hform : form ≠ []) (h : ∀ c ∈ form, isPlain c = true) :
    ∃ init c, spelled form = init ++ [c] ∧ isPlain c = true := by
  fun_induction spelled form with
  | case1 => exact absurd rfl hform
  | case2 c => exact ⟨['-'], c, rfl, h c List.mem_cons_self⟩
  | case3 c rest hne ih =>
    obtain ⟨init, d, heq, hd⟩ := ih (fun hnil => hne hnil)
      (List.forall_mem_cons.1 h).2
    exact ⟨'-' :: c :: ' ' :: init, d, by rw [heq]; rfl, hd⟩

theorem collapse_spelled (h : ∀ c ∈ form, isPlain c = true) :
    collapseWhitespace (spelled form) = spelled form := by
  have hdash : isSpace '-' = false := by decide
  have hspace : isSpace ' ' = true := by decide
  fun_induction spelled form with
  | case1 => rfl
  | case2 c =>
    have hc := isSpace_plain (h c List.mem_cons_self)
    simp [collapseWhitespace, hdash, hc]
  | case3 c rest hne ih =>
    obtain ⟨hc, hrest⟩ := List.forall_mem_cons.1 h
    have hc := isSpace_plain hc
    obtain ⟨more, hmore⟩ := spelled_head (fun hnil => hne hnil)
    have hlater := ih hrest
    rw [hmore] at hlater ⊢
    simp [collapseWhitespace, hdash, hspace, hc] at hlater ⊢
    exact hlater

theorem strip_eq_self {text : Text}
    (hhead : ∀ c, text.head? = some c → isSpace c = false)
    (hlast : ∀ c, text.getLast? = some c → isSpace c = false) :
    strip text = text := by
  have hdrop : ∀ l : Text, (∀ c, l.head? = some c → isSpace c = false) →
      l.dropWhile isSpace = l := by
    intro l hl
    cases l with
    | nil => rfl
    | cons c rest => simp [hl c rfl]
  unfold strip
  rw [hdrop text hhead, hdrop text.reverse, List.reverse_reverse]
  intro c hc
  rw [List.head?_reverse] at hc
  exact hlast c hc

theorem lowered_spelled (laws : data.Lawful) (hform : form ≠ [])
    (h : ∀ c ∈ form, isPlain c = true) :
    lowered data (spelled form) = spelled form := by
  have hascii := spelled_ascii h
  have hstrip : strip (spelled form) = spelled form := by
    apply strip_eq_self
    · intro c hc
      obtain ⟨rest, hrest⟩ := spelled_head hform
      rw [hrest] at hc
      obtain rfl := Option.some.inj hc
      decide
    · intro c hc
      obtain ⟨init, d, hd, hplain⟩ := spelled_last hform h
      rw [hd, List.getLast?_concat] at hc
      obtain rfl := Option.some.inj hc
      exact isSpace_plain hplain
  unfold lowered
  rw [laws.nfkc_ascii _ fun c hc => (hascii c hc).1, collapse_spelled h, hstrip,
    laws.lower_ascii _ hascii]

theorem mem_spelledWords {word : Text} (h : word ∈ spelledWords form) :
    ∃ c ∈ form, word = ['-', c] := by
  obtain ⟨c, hc, rfl⟩ := List.mem_map.1 h
  exact ⟨c, hc, rfl⟩

section Spelled

variable {p : Char → Bool} (hdash : p '-' = false)
  (hp : ∀ c, isPlain c = true → p c = true)

include hdash hp

theorem bare_spelledWord (h : ∀ c ∈ form, isPlain c = true) {word : Text}
    (hword : word ∈ spelledWords form) : (bare p word).length = 1 := by
  obtain ⟨c, hc, rfl⟩ := mem_spelledWords hword
  simp [bare, hdash, hp c (h c hc)]

theorem survivors_spelled (laws : data.Lawful) (hform : form ≠ [])
    (h : ∀ c ∈ form, isPlain c = true) :
    survivors p data type (spelled form) = spelledWords form := by
  have hshort : ∀ decorations, Spelt decorations →
      ∀ word ∈ spelledWords form, bare p word ∉ decorations := by
    intro decorations hd word hword hmem
    have := (hd _ hmem).1
    rw [bare_spelledWord hdash hp h hword] at this
    omega
  have hwords : (spelled form).splitOn ' ' = spelledWords form := by
    rw [spelled_eq]
    apply List.splitOn_intercalate
    · intro word hword hspace
      obtain ⟨c, hc, rfl⟩ := mem_spelledWords hword
      have hne : ¬ ' ' = c := by
        rintro rfl
        exact absurd (h ' ' hc) (by decide)
      simp [hne] at hspace
    · simpa [spelledWords] using hform
  have harticles : stripArticles (spelledWords form) = spelledWords form := by
    unfold stripArticles
    split
    case h_1 word next rest heq =>
      have hword : word ∈ spelledWords form := by
        rw [heq]
        simp
      have hno : ¬ articles.contains word = true := by
        intro harticle
        obtain ⟨c, -, rfl⟩ := mem_spelledWords hword
        exact absurd (plain_articles _ (List.contains_iff_mem.1 harticle) '-'
          List.mem_cons_self) (by decide)
      rw [if_neg hno, heq]
    case h_2 => rfl
  unfold survivors
  rw [lowered_spelled laws hform h, hwords, harticles]
  unfold stripForType
  split
  case h_1 =>
    unfold stripPerson
    rw [dropLeading_eq_self (hshort _ spelt_titles),
      dropTrailing_eq_self (hshort _ spelt_suffixes)]
  case h_2 =>
    apply stripTech_eq_self (hshort _ spelt_techNouns)
      (hshort _ spelt_techSuffixes)
    intro word hword
    have := bare_spelledWord hdash hp h hword
    omega
  case h_3 =>
    apply stripFile_eq_self
    intro word hword hdot
    obtain ⟨c, hc, rfl⟩ := mem_spelledWords hword
    have hne : ¬ '.' = c := by
      rintro rfl
      exact absurd (h '.' hc) (by decide)
    simp [hne] at hdot
  case h_4 => rfl

theorem letters_spelledWords (h : ∀ c ∈ form, isPlain c = true) :
    bare p (spelledWords form).flatten = form := by
  induction form with
  | nil => rfl
  | cons c rest ih =>
    obtain ⟨hc, hrest⟩ := List.forall_mem_cons.1 h
    have hlater := ih hrest
    unfold bare spelledWords at hlater ⊢
    simp only [List.map_cons, List.flatten_cons, List.filter_append, hlater]
    simp [hdash, hp c hc]

end Spelled

-- ====== told apart

theorem spelled_spec (laws : data.Lawful) (hform : form ≠ [])
    (h : ∀ c ∈ form, isPlain c = true) :
    Plain data type (spelled form)
      ∧ canonicalize data (spelled form) type = form
      ∧ letters data type (spelled form) = form := by
  have hdash : data.isAlnum '-' = false := by
    rw [laws.alnum_ascii '-' (by decide)]
    decide
  have hplain : survivors isPlain data type (spelled form)
      = spelledWords form :=
    survivors_spelled (by decide) (fun _ hc => hc) laws hform h
  have halnum : survivors data.isAlnum data type (spelled form)
      = spelledWords form :=
    survivors_spelled hdash (fun _ hc => alnum_plain laws hc) laws hform h
  have hsome : ∃ c ∈ (survivors isPlain data type (spelled form)).flatten,
      isPlain c = true := by
    obtain ⟨c, rest, rfl⟩ := List.exists_cons_of_ne_nil hform
    rw [hplain]
    exact ⟨c, by simp [spelledWords], h c List.mem_cons_self⟩
  refine ⟨.inr ⟨fun c hc hcalnum => ?_, hsome⟩, ?_, ?_⟩
  · rw [lowered_spelled laws hform h] at hc
    have hascii := spelled_ascii h c hc
    rw [laws.alnum_ascii c hascii.1] at hcalnum
    unfold Char.isAlphanum Char.isAlpha at hcalnum
    rwa [hascii.2, Bool.false_or] at hcalnum
  · rw [canonicalize_survivors hsome, hplain]
    exact letters_spelledWords (by decide) (fun _ hc => hc) h
  · unfold letters
    rw [halnum]
    exact letters_spelledWords hdash (fun _ hc => alnum_plain laws hc) h

theorem mem_letters (laws : data.Lawful) (hc : c ∈ lowered data name)
    (halnum : data.isAlnum c = true) (hplain : isPlain c = false) :
    c ∈ letters data type name := by
  have hne : ∀ d : Char, d.toNat < 128 → d.isAlphanum = false → c ≠ d := by
    rintro d hd hno rfl
    rw [laws.alnum_ascii c hd, hno] at halnum
    cases halnum
  apply List.mem_filter.2
  refine ⟨mem_stripForType (fun part hpart => ?_) halnum
    (hne '.' (by decide) (by decide)) hplain (mem_stripArticles hplain
      (mem_splitOn (hne ' ' (by decide) (by decide)) hc)), halnum⟩
  exact laws.lower_lowered _ part fun x hx =>
    mem_of_splitOn (mem_of_stripArticles (hpart x hx))

/-- A name is told from every plain name of other letters exactly when it is
plain itself. -/
theorem told_apart_iff (laws : data.Lawful) (type : EntityType) (name : Text) :
    Plain data type name ↔ ∀ other, Plain data type other →
      canonicalize data name type = canonicalize data other type →
      letters data type name = letters data type other := by
  constructor
  · exact fun h other hother heq => letters_eq_of_plain laws h hother heq
  · intro h
    by_contra hno
    have hsome : ∃ c ∈ lowered data name, isPlain c = true := by
      by_contra hnone
      refine hno (.inl fun c hc => ?_)
      by_contra hc'
      exact hnone ⟨c, hc, by simpa using hc'⟩
    obtain ⟨hne, hform⟩ := canonicalize_plain hsome
    obtain ⟨hplain, hcanon, hletters⟩ := spelled_spec laws hne hform
    have hsame := (h _ hplain hcanon.symm).trans hletters
    have hall : ∀ c ∈ lowered data name, data.isAlnum c = true →
        isPlain c = true := by
      intro c hc halnum
      by_contra hc'
      -- such a letter is in the name's letters, and in no form
      have hmem : c ∈ letters data type name :=
        mem_letters laws hc halnum (by simpa using hc')
      rw [hsame] at hmem
      exact hc' (hform c hmem)
    rw [letters_plain laws hall] at hsame
    obtain ⟨c, rest, hcons⟩ := List.exists_cons_of_ne_nil hne
    have hmem : c ∈ bare isPlain (survivors isPlain data type name).flatten := by
      rw [hsame, hcons]
      exact List.mem_cons_self
    exact hno (.inr ⟨hall, c, mem_bare.1 hmem⟩)

-- ------ names of Latin letters

/-- A capital of Latin-1. -/
def isLatinUpper (c : Char) : Bool :=
  c.isUpper || (decide (0xC0 ≤ c.toNat) && decide (c.toNat ≤ 0xDE)
    && decide (c.toNat ≠ 0xD7))

/-- Unicode's tables for letters of Latin-1. -/
def latin : UnicodeData where
  isAlnum c := c.isAlphanum || (decide (0xC0 ≤ c.toNat)
    && decide (c.toNat ≤ 0xFF) && decide (c.toNat ≠ 0xD7)
    && decide (c.toNat ≠ 0xF7))
  lower := List.map fun c =>
    if isLatinUpper c then Char.ofNat (c.toNat + 32) else c
  nfkc := id

theorem lower_latin (c : Char) :
    isLatinUpper (if isLatinUpper c then Char.ofNat (c.toNat + 32) else c)
      = false := by
  split
  case isTrue h =>
    have hc : c.toNat ≤ 0xDE := by
      simp only [isLatinUpper, Bool.or_eq_true, isUpper_iff, Bool.and_eq_true,
        decide_eq_true_eq] at h
      omega
    have hvalid : (c.toNat + 32).isValidChar := by
      left
      omega
    have hnat : (Char.ofNat (c.toNat + 32)).toNat = c.toNat + 32 := by
      rw [Char.ofNat, dif_pos hvalid]
      rfl
    rw [← Bool.not_eq_true]
    simp only [isLatinUpper, Bool.or_eq_true, isUpper_iff, Bool.and_eq_true,
      decide_eq_true_eq, hnat] at h ⊢
    omega
  case isFalse h => exact Bool.eq_false_iff.2 h

theorem latin_lawful : latin.Lawful where
  alnum_ascii c hc := by
    have hno : ¬ 0xC0 ≤ c.toNat := by omega
    simp [latin, hno]
  nfkc_ascii _ _ := rfl
  lower_ascii text h := by
    refine (List.map_congr_left fun c hc => ?_).trans (List.map_id text)
    have hno : isLatinUpper c = false := by
      have hc' := h c hc
      have hlow : ¬ 0xC0 ≤ c.toNat := by omega
      simp [isLatinUpper, hc'.2, hlow]
    rw [hno]
    rfl
  lower_lowered text part h := by
    refine (List.map_congr_left fun c hc => ?_).trans (List.map_id part)
    obtain ⟨d, -, rfl⟩ := List.mem_map.1 (h c hc)
    rw [lower_latin d]
    rfl
  lower_ne_nil text h := by
    simpa [latin] using h
  nfkc_visible := by
    rintro text ⟨c, hc, halnum⟩
    refine ⟨c, hc, ?_⟩
    simp only [latin, Bool.or_eq_true, isAlphanum_iff, Bool.and_eq_true,
      decide_eq_true_eq] at halnum
    simp only [isSpace, Bool.or_eq_false_iff, Bool.and_eq_false_iff,
      decide_eq_false_iff_not, beq_eq_false_iff_ne]
    omega

/-- Two spellings of one person. -/
theorem told_apart_iff_title :
    letters latin .person "Dr. Ada".toList = letters latin .person "ada".toList :=
  (told_apart_iff latin_lawful .person "Dr. Ada".toList).1
    (plain_of_check (by decide +kernel)) "ada".toList
    (plain_of_check (by decide +kernel)) (by decide +kernel)

/-- Two people, one without the accent and one without the letter. -/
theorem not_told_apart :
    ¬ ∀ name other : Text,
      canonicalize latin name .person = canonicalize latin other .person →
      letters latin .person name = letters latin .person other := by
  intro h
  exact absurd (h "José".toList "Jos".toList (by decide +kernel))
    (by decide +kernel)

-- ====== fixed points

/-- The form does not change when it is taken for a name: a technology's
letters do not end in a decoration that more is left without, and lowering a
name without letters of ASCII's is done in one pass. -/
def Settled (data : UnicodeData) (type : EntityType) (name : Text) : Prop :=
  (type = .technology →
      if (survivors isPlain data type name).flatten.any isPlain then
        gluedSuffix (bare isPlain (survivors isPlain data type name).flatten)
          = none
      else gluedSuffix (bare isPlain (lowered data name)) = none)
    ∧ ((∀ c ∈ lowered data name, isPlain c = false) →
      lowered data (lowered data name) = lowered data name)

theorem lowered_plain (laws : data.Lawful) (h : ∀ c ∈ form, isPlain c = true) :
    lowered data form = form := by
  have hcollapse : collapseWhitespace form = form := by
    induction form with
    | nil => rfl
    | cons c rest ih =>
      obtain ⟨hc, hrest⟩ := List.forall_mem_cons.1 h
      simp [collapseWhitespace, isSpace_plain hc, ih hrest]
  have hstrip : strip form = form := by
    apply strip_eq_self
    · exact fun c hc => isSpace_plain (h c (List.mem_of_mem_head? hc))
    · exact fun c hc => isSpace_plain (h c (List.mem_of_getLast? hc))
  unfold lowered
  rw [laws.nfkc_ascii _ fun c hc => (isPlain_ascii (h c hc)).1, hcollapse,
    hstrip, laws.lower_ascii _ fun c hc =>
      ⟨(isPlain_ascii (h c hc)).1, (isPlain_ascii (h c hc)).2.1⟩]

theorem survivors_plain (laws : data.Lawful) (h : ∀ c ∈ form, isPlain c = true) :
    survivors isPlain data type form
      = if type = .technology then unglue isPlain [form] else [form] := by
  have hsplit : form.splitOn ' ' = [form] :=
    List.splitOn_eq_singleton fun hspace =>
      absurd (h ' ' hspace) (by decide)
  have hdot : ∀ word ∈ [form], '.' ∉ word := by
    intro word hword hdot
    rw [List.mem_singleton.1 hword] at hdot
    exact absurd (h '.' hdot) (by decide)
  unfold survivors
  rw [lowered_plain laws h, hsplit]
  cases type
  case technology => rfl
  case file => exact stripFile_eq_self hdot
  all_goals rfl

theorem bare_plain (h : ∀ c ∈ form, isPlain c = true) : bare isPlain form = form :=
  List.filter_eq_self.2 h

theorem canonicalize_plain_iff (laws : data.Lawful) (hform : form ≠ [])
    (h : ∀ c ∈ form, isPlain c = true) :
    canonicalize data form type = form
      ↔ (type = .technology → gluedSuffix form = none) := by
  have hsurvivors : survivors isPlain data type form
      = if type = .technology then unglue isPlain [form] else [form] :=
    survivors_plain laws h
  -- whatever is left of the word has a letter, and is the form
  have hleft : ∀ word : Text, word ≠ [] → (∀ c ∈ word, c ∈ form) →
      survivors isPlain data type form = [word] →
      canonicalize data form type = word := by
    intro word hword hmem heq
    obtain ⟨c, rest, rfl⟩ := List.exists_cons_of_ne_nil hword
    have hplain : ∀ x ∈ c :: rest, isPlain x = true :=
      fun x hx => h x (hmem x hx)
    rw [canonicalize_survivors, heq, List.flatten_singleton, bare_plain hplain]
    exact ⟨c, by rw [heq]; simp, hplain c List.mem_cons_self⟩
  by_cases htype : type = .technology
  · rw [if_pos htype] at hsurvivors
    unfold unglue at hsurvivors
    simp only [List.getLast?_singleton, Option.map_some, Option.getD_some,
      bare_plain h] at hsurvivors
    cases hglued : gluedSuffix form with
    | none =>
      rw [hglued] at hsurvivors
      exact iff_of_true (hleft form hform (fun _ hc => hc) hsurvivors)
        fun _ => rfl
    | some suffix =>
      obtain ⟨hsuffix, hsplit, hthree⟩ := gluedSuffix_spec hglued
      rw [hglued] at hsurvivors
      have hne : form.take (form.length - suffix.length) ≠ [] := by
        intro hnil
        rw [hnil] at hthree
        simp at hthree
      rw [hleft _ hne (fun _ hc => List.mem_of_mem_take hc) hsurvivors]
      have htwo := (spelt_techSuffixes _ hsuffix).1
      refine iff_of_false (fun heq => ?_) fun himp => by cases himp htype
      have hlength := congrArg List.length hsplit
      rw [List.length_append, heq] at hlength
      omega
  · rw [if_neg htype] at hsurvivors
    exact iff_of_true (hleft form hform (fun _ hc => hc) hsurvivors)
      fun h => absurd h htype

theorem lowered_ne_nil (laws : data.Lawful)
    (h : ∃ c ∈ name, data.isAlnum c = true) : lowered data name ≠ [] := by
  obtain ⟨c, hc, hspace⟩ := laws.nfkc_visible name h
  apply laws.lower_ne_nil
  have hcollapse : ∀ text : Text, c ∈ text → c ∈ collapseWhitespace text := by
    intro text hmem
    fun_induction collapseWhitespace text with
    | case1 => exact hmem
    | case2 d hd =>
      obtain rfl := List.mem_singleton.1 hmem
      rw [hspace] at hd
      cases hd
    | case3 d hd e rest he ih =>
      rcases List.mem_cons.1 hmem with rfl | hmem
      · rw [hspace] at hd
        cases hd
      · exact ih hmem
    | case4 d hd e rest he ih =>
      rcases List.mem_cons.1 hmem with rfl | hmem
      · rw [hspace] at hd
        cases hd
      · exact List.mem_cons_of_mem _ (ih hmem)
    | case5 d rest hd ih =>
      rcases List.mem_cons.1 hmem with rfl | hmem
      · exact List.mem_cons_self
      · exact List.mem_cons_of_mem _ (ih hmem)
  intro hblank
  have hall := isBlank_iff.1 (show isBlank (collapseWhitespace (data.nfkc name))
    = true by rw [isBlank, hblank]; rfl)
  rw [hall c (hcollapse _ hc)] at hspace
  cases hspace

/-- No name with a letter or digit loses its form, and the form is a fixed
point exactly when the name is settled. -/
theorem fixed_iff (laws : data.Lawful) (type : EntityType) (name : Text)
    (h : ∃ c ∈ name, data.isAlnum c = true) :
    (canonicalize data (canonicalize data name type) type
        = canonicalize data name type
      ∧ canonicalize data name type ≠ []) ↔ Settled data type name := by
  have hlowered := lowered_ne_nil laws h
  by_cases hsome : ∃ c ∈ lowered data name, isPlain c = true
  · obtain ⟨hne, hform⟩ := canonicalize_plain hsome
    have hsecond : ¬ ∀ c ∈ lowered data name, isPlain c = false := by
      obtain ⟨c, hc, hplain⟩ := hsome
      intro hall
      rw [hall c hc] at hplain
      cases hplain
    rw [canonicalize_plain_iff laws hne hform]
    unfold Settled
    by_cases hs : ∃ c ∈ (survivors isPlain data type name).flatten,
        isPlain c = true
    · rw [if_pos (List.any_eq_true.2 hs), canonicalize_survivors hs]
      rw [canonicalize_survivors hs] at hne
      exact ⟨fun h => ⟨h.1, fun hall => absurd hall hsecond⟩,
        fun h => ⟨h.1, hne⟩⟩
    · have hnone : ∀ c ∈ (survivors isPlain data type name).flatten,
          isPlain c = false := by
        intro c hc
        by_contra hc'
        exact hs ⟨c, hc, by simpa using hc'⟩
      rw [if_neg (fun h => hs (List.any_eq_true.1 h)),
        canonicalize_whole hnone hsome]
      rw [canonicalize_whole hnone hsome] at hne
      exact ⟨fun h => ⟨h.1, fun hall => absurd hall hsecond⟩,
        fun h => ⟨h.1, hne⟩⟩
  · have hnone : ∀ c ∈ lowered data name, isPlain c = false := by
      intro c hc
      by_contra hc'
      exact hsome ⟨c, hc, by simpa using hc'⟩
    rw [canonicalize_lowered hnone]
    constructor
    · rintro ⟨heq, -⟩
      refine ⟨fun _ => ?_, fun _ => ?_⟩
      · have hs : ¬ ∃ c ∈ (survivors isPlain data type name).flatten,
            isPlain c = true :=
          fun ⟨c, hc, hplain⟩ => hsome ⟨c, mem_of_survivors hc, hplain⟩
        have hnil : bare isPlain (lowered data name) = [] :=
          List.filter_eq_nil_iff.2 fun c hc => by rw [hnone c hc]; simp
        rw [if_neg (fun h => hs (List.any_eq_true.1 h)), hnil]
        decide
      · by_cases hagain : ∃ c ∈ lowered data (lowered data name),
            isPlain c = true
        · -- a form of plain letters is no lowered name without any
          obtain ⟨c, rest, hcons⟩ := List.exists_cons_of_ne_nil hlowered
          have hc : c ∈ lowered data name := by
            rw [hcons]
            exact List.mem_cons_self
          have hplain := (canonicalize_plain hagain).2 c
            (by rw [heq]; exact hc)
          rw [hnone c hc] at hplain
          cases hplain
        · rw [canonicalize_lowered] at heq
          · exact heq
          · intro c hc
            by_contra hc'
            exact hagain ⟨c, hc, by simpa using hc'⟩
    · rintro ⟨-, hsettled⟩
      have hagain := hsettled hnone
      refine ⟨?_, hlowered⟩
      rw [canonicalize_lowered, hagain]
      rw [hagain]
      exact hnone

theorem fixed_iff_react :
    canonicalize latin (canonicalize latin "React.js".toList .technology)
        .technology = canonicalize latin "React.js".toList .technology
      ∧ canonicalize latin "React.js".toList .technology ≠ [] :=
  (fixed_iff latin_lawful .technology "React.js".toList
    ⟨'R', by decide, by decide⟩).2
      ⟨by decide +kernel,
        fun h => absurd (h 'r' (by decide +kernel)) (by decide)⟩

/-- One decoration of two is stripped, and then the other. -/
theorem not_fixed :
    ¬ ∀ (type : EntityType) (name : Text),
      (∃ c ∈ name, latin.isAlnum c = true) →
      canonicalize latin (canonicalize latin name type) type
          = canonicalize latin name type
        ∧ canonicalize latin name type ≠ [] := by
  intro h
  exact absurd (h .technology "Mongo DB JS".toList ⟨'M', by decide, by decide⟩).1
    (by decide +kernel)

end Canonicalize

end MemoryOS
