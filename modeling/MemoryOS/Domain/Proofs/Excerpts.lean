/-
An excerpt quotes exactly (`build_excerpt`).

The two edges are bounded first: whatever break they move to, they stay
between where the window began and the span (`snapStart_bounds`,
`snapEnd_bounds`). The rest is arithmetic on slices.
-/
import MemoryOS.Domain.Citation

namespace MemoryOS.Citation

open Lib

-- ====== statement vocabulary

/-- The excerpt is a piece of the text, told apart from what was left out;
its span is the quoted characters, in their place; and each side has so much
context at most. -/
structure Quotes (memoryText : Text) (charStart charEnd contextChars : Nat)
    (e : Excerpt) : Prop where
  /-- The text is contiguous, and the flags say what was left out. -/
  contiguous : ∃ before after, memoryText = before ++ e.text ++ after
    ∧ (e.truncatedStart = true ↔ before ≠ [])
    ∧ (e.truncatedEnd = true ↔ after ≠ [])
    ∧ (before.length : Int) + e.spanStart = min charStart memoryText.length
  span : e.span = slice memoryText charStart charEnd
  ordered : 0 ≤ e.spanStart ∧ e.spanStart ≤ e.spanEnd
    ∧ e.spanEnd ≤ e.text.length
  contextBefore : e.spanStart ≤ contextChars
  contextAfter : e.text.length - e.spanEnd ≤ contextChars

-- ========== slices

theorem slice_nat (text : Text) (i j : Nat) :
    slice text i j = (text.take j).drop i := by
  unfold slice
  have hj : ¬ (j : Int) < 0 := by omega
  simp [hj]

theorem length_slice (text : Text) (i j : Nat) :
    (slice text i j).length = min j text.length - i := by
  rw [slice_nat, List.length_drop, List.length_take]

theorem slice_slice {text : Text} {w i j v : Nat} (hi : w ≤ i) (hj : j ≤ v) :
    slice (slice text w v) (i - w) ((j - w : Nat) : Int) = slice text i j := by
  simp only [slice_nat]
  apply List.ext_getElem?
  intro n
  simp only [List.getElem?_drop, List.getElem?_take]
  have hsum : w + (i - w + n) = i + n := by omega
  rw [hsum]
  by_cases hn : i + n < j
  · rw [if_pos (by omega), if_pos (by omega), if_pos hn]
  · rw [if_neg (by omega), if_neg hn]

theorem around_slice (text : Text) {w v : Nat} (h : w ≤ v) :
    text = text.take w ++ slice text w v ++ text.drop v := by
  rw [slice_nat]
  have hw : text.take w = (text.take v).take w := by
    rw [List.take_take, Nat.min_eq_left h]
  rw [hw, List.take_append_drop, List.take_append_drop]

theorem slice_min (text : Text) (i j : Nat) :
    slice text (min i text.length)
        ((max (min i text.length) (min j text.length) : Nat) : Int)
      = slice text i j := by
  simp only [slice_nat]
  apply List.ext_getElem?
  intro n
  simp only [List.getElem?_drop, List.getElem?_take]
  by_cases hi : i ≤ text.length
  · rw [Nat.min_eq_left hi]
    by_cases hn : i + n < j
    · by_cases hlen : i + n < text.length
      · rw [if_pos (by omega), if_pos hn]
      · have hnone : text[i + n]? = none := List.getElem?_eq_none (by omega)
        rw [hnone, ite_self, ite_self]
    · rw [if_neg (by omega), if_neg hn]
  · have hnone : text[i + n]? = none := List.getElem?_eq_none (by omega)
    rw [if_neg (by omega), hnone, ite_self]

-- ======= the edges

theorem snapStart_bounds {text : Text} {windowStart spanStart : Nat}
    (hle : windowStart ≤ spanStart) (hspan : spanStart ≤ text.length) :
    windowStart ≤ snapStart text windowStart spanStart
      ∧ snapStart text windowStart spanStart ≤ spanStart := by
  have hlength := length_slice text windowStart spanStart
  unfold snapStart
  split
  case isTrue hzero => omega
  case isFalse =>
    simp only
    split
    case h_1 found hfound =>
      have hmatch := Matcher.spans_bounds (List.mem_of_mem_head? hfound)
      have hreach := length_slice (slice text windowStart spanStart) 0
        (max 1 ((slice text windowStart spanStart).length / 2))
      omega
    case h_2 =>
      split
      case h_1 space hspace =>
        have hlt := (List.findIdx?_eq_some_iff_findIdx_eq.1 hspace).1
        split
        case isTrue => omega
        case isFalse => omega
      case h_2 => omega

theorem rfind_lt {region : Text} {space : Nat} (h : rfind region = some space) :
    space < region.length := by
  unfold rfind at h
  obtain ⟨i, hi, rfl⟩ := Option.map_eq_some_iff.1 h
  have hlt := (List.findIdx?_eq_some_iff_findIdx_eq.1 hi).1
  rw [List.length_reverse] at hlt
  omega

theorem snapEnd_bounds {text : Text} {spanEnd windowEnd : Nat}
    (hle : spanEnd ≤ windowEnd) (hwindow : windowEnd ≤ text.length) :
    spanEnd ≤ snapEnd text spanEnd windowEnd
      ∧ snapEnd text spanEnd windowEnd ≤ windowEnd := by
  have hlength := length_slice text spanEnd windowEnd
  unfold snapEnd
  split
  case isTrue hend => omega
  case isFalse =>
    simp only
    split
    case h_1 found hfound =>
      have hmatch := Matcher.spans_bounds (List.mem_of_getLast? hfound)
      omega
    case h_2 =>
      split
      case h_1 space hspace =>
        have := rfind_lt hspace
        omega
      case h_2 => omega

-- ====== the excerpt

theorem quotes_window {memoryText : Text} {charStart charEnd contextChars : Nat}
    {start stop w v : Nat} (hstart : start = min charStart memoryText.length)
    (hstop : stop = max start (min charEnd memoryText.length))
    (hw : start - contextChars ≤ w) (hw' : w ≤ start) (hv : stop ≤ v)
    (hv' : v ≤ min memoryText.length (stop + contextChars)) :
    Quotes memoryText charStart charEnd contextChars {
      text := slice memoryText w v
      spanStart := (start : Int) - w
      spanEnd := (stop : Int) - w
      truncatedStart := decide (0 < w)
      truncatedEnd := decide (v < memoryText.length) } := by
  have hlength := length_slice memoryText w v
  refine ⟨⟨memoryText.take w, memoryText.drop v, ?_, ?_, ?_, ?_⟩, ?_, ?_, ?_, ?_⟩
  · exact around_slice memoryText (by omega)
  · simp only [decide_eq_true_eq, ne_eq, List.take_eq_nil_iff, not_or]
    constructor
    · intro hpos
      refine ⟨by omega, fun hnil => ?_⟩
      subst hnil
      simp only [List.length_nil] at hstart
      omega
    · intro hne
      omega
  · simp only [decide_eq_true_eq, ne_eq, List.drop_eq_nil_iff]
    omega
  · rw [List.length_take]
    simp only
    omega
  · have hend : (stop : Int) - w = ((stop - w : Nat) : Int) := by omega
    have hbegin : ((start : Int) - w).toNat = start - w := by omega
    unfold Excerpt.span
    simp only [hend, hbegin]
    rw [slice_slice hw' hv, hstop, hstart]
    exact slice_min memoryText charStart charEnd
  · simp only
    omega
  · simp only
    omega
  · simp only
    omega

/-- Every excerpt of a valid span is there, and quotes it. -/
theorem buildExcerpt_quotes (memoryText : Text) (charStart charEnd : Nat)
    (contextChars : Nat) (h : charStart ≤ charEnd) :
    ∃ e, buildExcerpt memoryText charStart charEnd contextChars = .ok e
      ∧ Quotes memoryText charStart charEnd contextChars e := by
  have hvalid : (decide ((charStart : Int) < 0)
      || decide ((charEnd : Int) < charStart)) = false := by
    simp only [Bool.or_eq_false_iff, decide_eq_false_iff_not]
    omega
  unfold buildExcerpt
  rw [hvalid, if_neg Bool.false_ne_true]
  simp only [Int.toNat_natCast]
  obtain ⟨hleft, hleft'⟩ := @snapStart_bounds memoryText
    (min charStart memoryText.length - contextChars)
    (min charStart memoryText.length) (by omega) (by omega)
  obtain ⟨hright, hright'⟩ := @snapEnd_bounds memoryText
    (max (min charStart memoryText.length) (min charEnd memoryText.length))
    (min memoryText.length (max (min charStart memoryText.length)
      (min charEnd memoryText.length) + contextChars)) (by omega) (by omega)
  exact ⟨_, rfl, quotes_window rfl rfl hleft hleft' hright hright'⟩

-- ------ a word in the middle of a sentence

theorem buildExcerpt_quotes_word :
    ∃ e, buildExcerpt "The second approach is better. It scales.".toList
        4 10 12 = .ok e
      ∧ Quotes "The second approach is better. It scales.".toList 4 10 12 e :=
  buildExcerpt_quotes _ 4 10 12 (by decide)

example : (buildExcerpt "One. Two three four five six. Seven.".toList
    15 19 9).toOption.map (fun e => (e.text, e.spanStart, e.truncatedEnd))
    = some ("three four five".toList, 6, true) := by decide +kernel

end MemoryOS.Citation
