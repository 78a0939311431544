/-
What stripping a name's words can and cannot do, for any class of
characters `_bare` keeps.

Everything it drops is a decoration, and a decoration is spelt in ASCII:
no other letter is ever dropped (`mem_survivors`). Over words whose letters
are ASCII the class does not matter (`stripForType_congr`).
-/
import Mathlib.Data.List.Basic
import MemoryOS.Domain.Canonicalize

namespace MemoryOS.Canonicalize

variable {p q : Char → Bool} {words : List Text} {c : Char}

-- ====== plain characters

variable {unicode : Unicode} {decorations : List Text} {type : EntityType}
  {word : Text}

theorem isPlain_iff : isPlain c = true
    ↔ (97 ≤ c.toNat ∧ c.toNat ≤ 122) ∨ (48 ≤ c.toNat ∧ c.toNat ≤ 57) := by
  unfold isPlain Char.isLower Char.isDigit
  simp [UInt32.le_iff_toNat_le,
    ← Char.toNat_val]

theorem isSpace_plain (h : isPlain c = true) : isSpace c = false := by
  rw [isPlain_iff] at h
  simp only [isSpace, Bool.or_eq_false_iff, Bool.and_eq_false_iff,
    decide_eq_false_iff_not, beq_eq_false_iff_ne]
  omega

/-- Every word of the lists is spelt in plain characters, two at least. -/
def Spelt (decorations : List Text) : Prop :=
  ∀ d ∈ decorations, 2 ≤ d.length ∧ ∀ c ∈ d, isPlain c = true

theorem spelt_of_check
    (h : decorations.all (fun d => 2 ≤ d.length && d.all isPlain) = true) :
    Spelt decorations := by
  simpa [Spelt] using h

theorem spelt_titles : Spelt titles := spelt_of_check (by decide)

theorem spelt_suffixes : Spelt suffixes := spelt_of_check (by decide)

theorem spelt_techSuffixes : Spelt techSuffixes := spelt_of_check (by decide)

theorem spelt_techNouns : Spelt techNouns := spelt_of_check (by decide)

theorem spelt_fileExtensions : Spelt fileExtensions := spelt_of_check (by decide)

theorem plain_articles : ∀ a ∈ articles, ∀ c ∈ a, isPlain c = true := by
  have h : articles.all (fun a => a.all isPlain) = true := by decide
  simpa using h

-- ======== dropping

theorem mem_bare : c ∈ bare p word ↔ c ∈ word ∧ p c = true :=
  List.mem_filter

theorem dropLeading_suffix (decorations : List Text) (words : List Text) :
    dropLeading p decorations words <:+ words := by
  fun_induction dropLeading p decorations words with
  | case1 word next rest h ih => exact ih.trans (List.suffix_cons word _)
  | case2 => exact List.suffix_refl _
  | case3 => exact List.suffix_refl _

theorem dropTrailing_initial (decorations : List Text) (words : List Text) :
    dropTrailing p decorations words <+: words := by
  unfold dropTrailing
  have h := dropLeading_suffix (p := p) decorations words.reverse
  rw [← List.reverse_prefix, List.reverse_reverse] at h
  exact h

theorem mem_dropLeading (hd : Spelt decorations)
    (hp : p c = true) (hc : isPlain c = false) (h : c ∈ words.flatten) :
    c ∈ (dropLeading p decorations words).flatten := by
  fun_induction dropLeading p decorations words with
  | case1 word next rest hdrop ih =>
    rw [List.flatten_cons, List.mem_append] at h
    rcases h with h | h
    · -- the dropped word is spelt in plain characters
      have hplain := (hd _ (List.contains_iff_mem.1 hdrop)).2 c (mem_bare.2 ⟨h, hp⟩)
      rw [hc] at hplain
      cases hplain
    · exact ih h
  | case2 => exact h
  | case3 => exact h

theorem mem_flatten_reverse : c ∈ words.reverse.flatten ↔ c ∈ words.flatten := by
  simp [List.mem_flatten]

theorem mem_dropTrailing (hd : Spelt decorations)
    (hp : p c = true) (hc : isPlain c = false) (h : c ∈ words.flatten) :
    c ∈ (dropTrailing p decorations words).flatten := by
  unfold dropTrailing
  rw [mem_flatten_reverse]
  exact mem_dropLeading hd hp hc (mem_flatten_reverse.2 h)

theorem mem_stripArticles (hc : isPlain c = false) (h : c ∈ words.flatten) :
    c ∈ (stripArticles words).flatten := by
  unfold stripArticles
  split
  case h_1 word next rest =>
    split
    case isTrue hdrop =>
      rw [List.flatten_cons, List.mem_append] at h
      rcases h with h | h
      · have hplain := plain_articles word (List.contains_iff_mem.1 hdrop) c h
        rw [hc] at hplain
        cases hplain
      · exact h
    case isFalse => exact h
  case h_2 => exact h

-- ====== the last word, glued

theorem flatten_dropLast {last : Text} (h : words.getLast? = some last) :
    words.flatten = words.dropLast.flatten ++ last := by
  have hne : words ≠ [] := by
    rintro rfl
    cases h
  have hlast : words.getLast hne = last :=
    Option.some.inj ((List.getLast?_eq_some_getLast hne).symm.trans h)
  conv_lhs => rw [← List.dropLast_append_getLast hne, hlast]
  simp

theorem gluedSuffix_spec {last suffix : Text} (h : gluedSuffix last = some suffix) :
    suffix ∈ techSuffixes
      ∧ last = last.take (last.length - suffix.length) ++ suffix
      ∧ 3 ≤ (last.take (last.length - suffix.length)).length := by
  have hmem := List.mem_of_find?_eq_some h
  have hfound := List.find?_some h
  rw [Bool.and_eq_true, decide_eq_true_eq, List.isSuffixOf_iff_suffix] at hfound
  obtain ⟨⟨stem, hstem⟩, hlength⟩ := hfound
  refine ⟨hmem, ?_, ?_⟩
  · have htake : last.take (last.length - suffix.length) = stem := by
      rw [← hstem]
      simp
    rw [htake, hstem]
  · rw [List.length_take]
    omega

theorem mem_unglue (hp : p c = true) (hc : isPlain c = false)
    (h : c ∈ words.flatten) : c ∈ (unglue p words).flatten := by
  unfold unglue
  simp only
  split
  case h_1 suffix hglued =>
    cases hlast : words.getLast? with
    | none =>
      rw [List.getLast?_eq_none_iff.1 hlast] at h
      cases h
    | some last =>
      rw [hlast] at hglued
      simp only [Option.map_some, Option.getD_some] at hglued ⊢
      obtain ⟨hsuffix, hsplit, -⟩ := gluedSuffix_spec hglued
      rw [flatten_dropLast hlast, List.mem_append] at h
      rw [List.flatten_append, List.mem_append]
      rcases h with h | h
      · exact .inl h
      · right
        have hbare := mem_bare.2 ⟨h, hp⟩
        rw [hsplit, List.mem_append] at hbare
        rcases hbare with hbare | hbare
        · simpa using hbare
        · have hplain := (spelt_techSuffixes _ hsuffix).2 c hbare
          rw [hc] at hplain
          cases hplain
  case h_2 => exact h

theorem mem_stripTech (hp : p c = true) (hc : isPlain c = false)
    (h : c ∈ words.flatten) : c ∈ (stripTech p words).flatten := by
  unfold stripTech
  apply mem_unglue hp hc
  have hnouns := mem_dropTrailing spelt_techNouns hp hc h
  split
  case isTrue hsuffix =>
    rw [Bool.and_eq_true, decide_eq_true_eq, List.contains_iff_mem] at hsuffix
    cases hlast : (dropTrailing p techNouns words).getLast? with
    | none =>
      rw [List.getLast?_eq_none_iff.1 hlast] at hnouns
      cases hnouns
    | some last =>
      rw [hlast, Option.getD_some] at hsuffix
      rw [flatten_dropLast hlast, List.mem_append] at hnouns
      rcases hnouns with hnouns | hnouns
      · exact hnouns
      · have hplain := (spelt_techSuffixes _ hsuffix.2).2 c
          (mem_bare.2 ⟨hnouns, hp⟩)
        rw [hc] at hplain
        cases hplain
  case isFalse => exact hnouns

-- ====== file extensions

theorem rpartition_spec (h : (rpartition word).1 ≠ []) :
    word = (rpartition word).1 ++ '.' :: (rpartition word).2 := by
  have hsplit := List.takeWhile_append_dropWhile (p := fun c => c != '.')
    (l := word.reverse)
  have hdrop : word.reverse.drop
      (word.reverse.takeWhile fun c => c != '.').length
      = word.reverse.dropWhile fun c => c != '.' := by
    have hdropped := congrArg (List.drop
      (word.reverse.takeWhile fun c => c != '.').length) hsplit
    rw [List.drop_left] at hdropped
    exact hdropped.symm
  unfold rpartition at h ⊢
  simp only [hdrop] at h ⊢
  cases hrest : word.reverse.dropWhile fun c => c != '.' with
  | nil =>
    rw [hrest] at h
    exact absurd rfl h
  | cons d rest =>
    have hdot : d = '.' := by
      have hhead := List.head?_dropWhile_not (fun c => c != '.') word.reverse
      rw [hrest] at hhead
      simpa using hhead
    rw [hrest, hdot] at hsplit
    have hword := congrArg List.reverse hsplit
    rw [List.reverse_reverse] at hword
    exact hword.symm.trans (by simp)

theorem mem_stripFile (hlower : ∀ part : Text, (∀ c ∈ part, c ∈ words.flatten) →
      unicode.lower part = part)
    (hdot : c ≠ '.') (hc : isPlain c = false) (h : c ∈ words.flatten) :
    c ∈ (stripFile unicode words).flatten := by
  unfold stripFile
  split
  case h_1 => exact h
  case h_2 last hlast =>
    simp only
    split
    case isTrue hfile =>
      rw [Bool.and_eq_true, List.contains_iff_mem] at hfile
      have hne : (rpartition last).1 ≠ [] := by
        intro hnil
        rw [hnil] at hfile
        exact absurd hfile.1 (by simp)
      have hsplit := rpartition_spec hne
      have hflat := flatten_dropLast hlast
      have hparts : ∀ x ∈ (rpartition last).2, x ∈ words.flatten := by
        intro x hx
        rw [hflat, hsplit]
        simp [hx]
      rw [hlower _ hparts] at hfile
      rw [hflat, hsplit] at h
      rw [List.flatten_append, List.mem_append]
      simp only [List.mem_append, List.mem_cons] at h
      rcases h with h | h | h | h
      · exact .inl h
      · exact .inr (by simpa using h)
      · exact absurd h hdot
      · have hplain := (spelt_fileExtensions _ hfile.2).2 c h
        rw [hc] at hplain
        cases hplain
    case isFalse => exact h

-- ====== every type

theorem mem_stripForType
    (hlower : ∀ part : Text, (∀ c ∈ part, c ∈ words.flatten) →
      unicode.lower part = part)
    (hp : p c = true) (hdot : c ≠ '.') (hc : isPlain c = false)
    (h : c ∈ words.flatten) :
    c ∈ (stripForType p unicode type words).flatten := by
  unfold stripForType
  split
  case h_1 =>
    exact mem_dropTrailing spelt_suffixes hp hc
      (mem_dropLeading spelt_titles hp hc h)
  case h_2 => exact mem_stripTech hp hc h
  case h_3 => exact mem_stripFile hlower hdot hc h
  case h_4 => exact h

-- ====== nothing to strip

theorem dropLeading_eq_self (h : ∀ word ∈ words, bare p word ∉ decorations) :
    dropLeading p decorations words = words := by
  fun_induction dropLeading p decorations words with
  | case1 word next rest hdrop =>
    exact absurd (List.contains_iff_mem.1 hdrop) (h word List.mem_cons_self)
  | case2 => rfl
  | case3 => rfl

theorem dropTrailing_eq_self (h : ∀ word ∈ words, bare p word ∉ decorations) :
    dropTrailing p decorations words = words := by
  unfold dropTrailing
  rw [dropLeading_eq_self fun word hword => h word (List.mem_reverse.1 hword),
    List.reverse_reverse]

theorem stripTech_eq_self (hnouns : ∀ word ∈ words, bare p word ∉ techNouns)
    (hsuffixes : ∀ word ∈ words, bare p word ∉ techSuffixes)
    (hshort : ∀ word ∈ words, (bare p word).length < 3) :
    stripTech p words = words := by
  unfold stripTech
  simp only [dropTrailing_eq_self hnouns]
  cases hlast : words.getLast? with
  | none =>
    rw [List.getLast?_eq_none_iff.1 hlast]
    rfl
  | some last =>
    have hmem := List.mem_of_getLast? hlast
    have hno : techSuffixes.contains (bare p ((some last).getD [])) = false := by
      simpa using hsuffixes last hmem
    rw [hno, Bool.and_false, if_neg Bool.false_ne_true]
    have hglued : gluedSuffix (bare p last) = none := by
      unfold gluedSuffix
      rw [List.find?_eq_none]
      intro suffix _ hfound
      rw [Bool.and_eq_true, decide_eq_true_eq] at hfound
      have := hshort last hmem
      omega
    unfold unglue
    simp only [hlast, Option.map_some, Option.getD_some, hglued]

theorem stripFile_eq_self
    (h : ∀ word ∈ words, '.' ∉ word) : stripFile unicode words = words := by
  unfold stripFile
  split
  case h_1 => rfl
  case h_2 last hlast =>
    have hnil : (rpartition last).1 = [] := by
      by_contra hne
      apply h last (List.mem_of_getLast? hlast)
      rw [rpartition_spec hne]
      simp
    simp [hnil]

-- ====== what stripping looks at

theorem mem_of_sublist {words' : List Text} (hsub : words'.Sublist words)
    (h : c ∈ words'.flatten) : c ∈ words.flatten := by
  obtain ⟨word, hword, hc⟩ := List.mem_flatten.1 h
  exact List.mem_flatten.2 ⟨word, hsub.subset hword, hc⟩

theorem bare_congr (h : ∀ c ∈ word, p c = q c) :
    bare p word = bare q word := List.filter_congr h

theorem dropLeading_congr (decorations : List Text)
    (h : ∀ c ∈ words.flatten, p c = q c) :
    dropLeading p decorations words = dropLeading q decorations words := by
  fun_induction dropLeading p decorations words with
  | case1 word next rest hdrop ih =>
    have hbare : bare p word = bare q word :=
      bare_congr fun c hc => h c (by simp [hc])
    rw [dropLeading, if_pos (hbare ▸ hdrop)]
    exact ih fun c hc => h c (by simp only [List.flatten_cons] at hc ⊢; simp [hc])
  | case2 word next rest hkeep =>
    have hbare : bare p word = bare q word :=
      bare_congr fun c hc => h c (by simp [hc])
    rw [dropLeading, if_neg (hbare ▸ hkeep)]
  | case3 words hshort =>
    cases words with
    | nil => rfl
    | cons word rest =>
      cases rest with
      | nil => rfl
      | cons next rest => exact (hshort word next rest rfl).elim

theorem dropTrailing_congr (decorations : List Text)
    (h : ∀ c ∈ words.flatten, p c = q c) :
    dropTrailing p decorations words = dropTrailing q decorations words := by
  unfold dropTrailing
  rw [dropLeading_congr decorations fun c hc => h c (mem_flatten_reverse.1 hc)]

theorem bare_last_congr (h : ∀ c ∈ words.flatten, p c = q c) :
    words.getLast?.map (bare p) = words.getLast?.map (bare q) := by
  cases hlast : words.getLast? with
  | none => rfl
  | some last =>
    have hflat := flatten_dropLast hlast
    have hbare : bare p last = bare q last := by
      apply bare_congr
      intro c hc
      apply h
      rw [hflat]
      exact List.mem_append_right _ hc
    rw [Option.map_some, Option.map_some, hbare]

theorem unglue_congr (h : ∀ c ∈ words.flatten, p c = q c) :
    unglue p words = unglue q words := by
  unfold unglue
  rw [bare_last_congr h]

theorem stripTech_congr (h : ∀ c ∈ words.flatten, p c = q c) :
    stripTech p words = stripTech q words := by
  have hsub := (dropTrailing_initial (p := q) techNouns words).sublist
  have hleft : ∀ c ∈ (dropTrailing q techNouns words).flatten, p c = q c :=
    fun c hc => h c (mem_of_sublist hsub hc)
  have hlast : bare p ((dropTrailing q techNouns words).getLast?.getD [])
      = bare q ((dropTrailing q techNouns words).getLast?.getD []) := by
    cases hlast : (dropTrailing q techNouns words).getLast? with
    | none => rfl
    | some last =>
      have hmap := bare_last_congr hleft
      rw [hlast] at hmap
      exact Option.some.inj hmap
  unfold stripTech
  simp only [dropTrailing_congr techNouns h, hlast]
  apply unglue_congr
  split
  case isTrue =>
    exact fun c hc => hleft c (mem_of_sublist (List.dropLast_sublist _) hc)
  case isFalse => exact hleft

theorem stripForType_congr (h : ∀ c ∈ words.flatten, p c = q c) :
    stripForType p unicode type words = stripForType q unicode type words := by
  unfold stripForType
  split
  case h_1 =>
    have hsub := (dropLeading_suffix (p := q) titles words).sublist
    unfold stripPerson
    rw [dropLeading_congr titles h]
    exact dropTrailing_congr suffixes fun c hc => h c (mem_of_sublist hsub hc)
  case h_2 => exact stripTech_congr h
  case h_3 => rfl
  case h_4 => rfl

-- ====== nothing is added

theorem mem_of_unglue (h : c ∈ (unglue p words).flatten) : c ∈ words.flatten := by
  unfold unglue at h
  simp only at h
  split at h
  case h_1 suffix hglued =>
    cases hlast : words.getLast? with
    | none =>
      rw [List.getLast?_eq_none_iff.1 hlast] at h
      simp at h
    | some last =>
      rw [hlast] at h
      simp only [Option.map_some, Option.getD_some, List.flatten_append,
        List.mem_append, List.flatten_singleton] at h
      rw [flatten_dropLast hlast, List.mem_append]
      exact h.imp id fun hc => (mem_bare.1 (List.mem_of_mem_take hc)).1
  case h_2 => exact h

theorem mem_of_stripTech (h : c ∈ (stripTech p words).flatten) :
    c ∈ words.flatten := by
  unfold stripTech at h
  have hin := mem_of_unglue h
  have hnouns : c ∈ (dropTrailing p techNouns words).flatten := by
    split at hin
    case isTrue => exact mem_of_sublist (List.dropLast_sublist _) hin
    case isFalse => exact hin
  exact mem_of_sublist (dropTrailing_initial techNouns words).sublist hnouns

theorem mem_of_stripFile
    (h : c ∈ (stripFile unicode words).flatten) : c ∈ words.flatten := by
  unfold stripFile at h
  split at h
  case h_1 => exact h
  case h_2 last hlast =>
    simp only at h
    split at h
    case isTrue =>
      rw [flatten_dropLast hlast, List.mem_append]
      rw [List.flatten_append, List.mem_append, List.flatten_singleton] at h
      refine h.imp id fun hc => ?_
      unfold rpartition at hc
      exact List.mem_reverse.1 (List.mem_of_mem_drop
        (List.mem_of_mem_drop (List.mem_reverse.1 hc)))
    case isFalse => exact h

theorem mem_of_stripForType
    (h : c ∈ (stripForType p unicode type words).flatten) :
    c ∈ words.flatten := by
  unfold stripForType at h
  split at h
  case h_1 =>
    exact mem_of_sublist (dropLeading_suffix titles words).sublist
      (mem_of_sublist (dropTrailing_initial suffixes _).sublist h)
  case h_2 => exact mem_of_stripTech h
  case h_3 => exact mem_of_stripFile h
  case h_4 => exact h

theorem mem_of_stripArticles (h : c ∈ (stripArticles words).flatten) :
    c ∈ words.flatten := by
  unfold stripArticles at h
  split at h
  case h_1 word next rest =>
    split at h
    case isTrue => exact List.mem_append_right _ h
    case isFalse => exact h
  case h_2 => exact h

end MemoryOS.Canonicalize
