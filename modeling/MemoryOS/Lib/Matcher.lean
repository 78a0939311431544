/-
Regular expressions as backtracking matchers.

A matcher is given the character before a position and the text from there,
and returns every way to match, the preferred one first: what comes after
the match, with the character before that. Greedy repetition prefers more
turns. `search`, `findall` and `split` try every position from the left, as
the functions of those names do.
-/
import Mathlib.Data.List.Basic

namespace MemoryOS.Lib

/-- The ways to match at a position. -/
abbrev Matcher := Option Char → List Char → List (Option Char × List Char)

namespace Matcher

/-- One character of a class. -/
def char (p : Char → Bool) : Matcher
  | _, [] => []
  | _, c :: rest => if p c then [(some c, rest)] else []

/-- Nothing, where the neighbours are as they should be. -/
def look (p : Option Char → Option Char → Bool) : Matcher := fun prev text =>
  if p prev text.head? then [(prev, text)] else []

/-- One matcher after another. -/
def andThen (m n : Matcher) : Matcher := fun prev text =>
  (m prev text).flatMap fun r => n r.1 r.2

/-- The first that matches. -/
def oneOf (ms : List Matcher) : Matcher := fun prev text =>
  ms.flatMap fun m => m prev text

/-- `m{0,n}`. -/
def upTo (m : Matcher) : Nat → Matcher
  | 0, prev, text => [(prev, text)]
  | n + 1, prev, text =>
    (m prev text).flatMap (fun r => upTo m n r.1 r.2) ++ [(prev, text)]

/-- `m*`, of a matcher that takes a character at least. -/
def star (m : Matcher) : Matcher := fun prev text =>
  upTo m text.length prev text

/-- `m+`. -/
def plus (m : Matcher) : Matcher := andThen m (star m)

/-- A sequence. -/
def all : List Matcher → Matcher
  | [] => fun prev text => [(prev, text)]
  | m :: ms => andThen m (all ms)

-- ====== every position

/-- `re.search(…) is not None`. -/
def search (m : Matcher) : Option Char → List Char → Bool
  | prev, [] => !(m prev []).isEmpty
  | prev, c :: rest => !(m prev (c :: rest)).isEmpty || search m (some c) rest

/-- The loop of `findall`: so many characters are part of the last match. -/
def findFrom (m : Matcher) : Option Char → Nat → List Char → List (List Char)
  | _, _, [] => []
  | _, skip + 1, c :: rest => findFrom m (some c) skip rest
  | prev, 0, c :: rest =>
    match m prev (c :: rest) with
    | [] => findFrom m (some c) 0 rest
    | (_, after) :: _ =>
      let taken := (c :: rest).length - after.length
      (c :: rest).take taken :: findFrom m (some c) (taken - 1) rest

/-- What `finditer` matches, left to right; `m` matches no empty text. -/
def findall (m : Matcher) (text : List Char) : List (List Char) :=
  findFrom m none 0 text

/-- The loop of `finditer`: the position, and so many characters that are
part of the last match. -/
def spansFrom (m : Matcher) :
    Option Char → Nat → Nat → List Char → List (Nat × Nat)
  | _, _, _, [] => []
  | _, pos, skip + 1, c :: rest => spansFrom m (some c) (pos + 1) skip rest
  | prev, pos, 0, c :: rest =>
    match m prev (c :: rest) with
    | [] => spansFrom m (some c) (pos + 1) 0 rest
    | (_, after) :: _ =>
      let taken := (c :: rest).length - after.length
      (pos, pos + taken) :: spansFrom m (some c) (pos + 1) (taken - 1) rest

/-- `re.finditer(text, pos)`, where each match begins and ends; `m` matches
no empty text. What is before `pos` can be looked at. -/
def spans (m : Matcher) (text : List Char) (pos : Nat) : List (Nat × Nat) :=
  spansFrom m (if pos = 0 then none else text[pos - 1]?) pos 0 (text.drop pos)

/-- The loop of `split`: the piece so far, the last character first. -/
def splitFrom (m : Matcher) :
    Option Char → Nat → List Char → List Char → List (List Char)
  | _, _, piece, [] => [piece.reverse]
  | _, skip + 1, piece, c :: rest => splitFrom m (some c) skip piece rest
  | prev, 0, piece, c :: rest =>
    match m prev (c :: rest) with
    | [] => splitFrom m (some c) 0 (c :: piece) rest
    | (_, after) :: _ =>
      let taken := (c :: rest).length - after.length
      piece.reverse :: splitFrom m (some c) (taken - 1) [] rest

/-- `re.split`; `m` matches no empty text. -/
def split (m : Matcher) (text : List Char) : List (List Char) :=
  splitFrom m none 0 [] text

-- ====== beginnings

/-- Every match begins with a character of the class. -/
def Begins (p : Char → Prop) (m : Matcher) : Prop :=
  ∀ prev text, m prev text ≠ [] → ∃ c rest, text = c :: rest ∧ p c

variable {text : List Char} {m : Matcher}

theorem begins_char (p : Char → Bool) :
    Begins (fun c => p c = true) (char p) := by
  intro prev text h
  cases text with
  | nil => exact absurd rfl h
  | cons c rest =>
    refine ⟨c, rest, rfl, ?_⟩
    by_contra hc
    exact h (if_neg hc)

theorem Begins.andThen {p : Char → Prop} (h : Begins p m)
    (n : Matcher) : Begins p (andThen m n) := by
  intro prev text hne
  refine h prev text fun hnil => hne ?_
  unfold Matcher.andThen
  rw [hnil]
  rfl

theorem findall_eq_nil {p : Char → Prop} (h : Begins p m) (htext : ∀ c ∈ text, ¬ p c) : findall m text = [] := by
  suffices hfrom : ∀ prev, findFrom m prev 0 text = [] from hfrom none
  induction text with
  | nil => exact fun _ => rfl
  | cons c rest ih =>
    intro prev
    obtain ⟨hc, hrest⟩ := List.forall_mem_cons.1 htext
    have hnone : m prev (c :: rest) = [] := by
      by_contra hne
      obtain ⟨d, rest', heq, hd⟩ := h prev _ hne
      exact hc ((List.cons.inj heq).1 ▸ hd)
    unfold findFrom
    rw [hnone]
    exact ih hrest (some c)

-- ====== characters

/-- Every character of a match is of the class. -/
def Takes (p : Char → Prop) (m : Matcher) : Prop :=
  ∀ prev text r, r ∈ m prev text → ∃ w, text = w ++ r.2 ∧ ∀ c ∈ w, p c

section
variable {p : Char → Prop} {m n : Matcher}

theorem takes_char {q : Char → Bool} (h : ∀ c, q c = true → p c) :
    Takes p (char q) := by
  intro prev text r hr
  cases text with
  | nil => cases hr
  | cons c rest =>
    by_cases hc : q c = true
    · rw [char, if_pos hc] at hr
      obtain rfl := List.mem_singleton.1 hr
      exact ⟨[c], rfl, by simpa using h c hc⟩
    · rw [char, if_neg hc] at hr
      cases hr

theorem takes_look (q : Option Char → Option Char → Bool) :
    Takes p (look q) := by
  intro prev text r hr
  unfold look at hr
  split at hr
  case isTrue =>
    obtain rfl := List.mem_singleton.1 hr
    exact ⟨[], rfl, by simp⟩
  case isFalse => cases hr

theorem Takes.andThen (hm : Takes p m) (hn : Takes p n) :
    Takes p (andThen m n) := by
  intro prev text r hr
  obtain ⟨r', hr', hr⟩ := List.mem_flatMap.1 hr
  obtain ⟨w, htext, hw⟩ := hm prev text r' hr'
  obtain ⟨v, hlater, hv⟩ := hn r'.1 r'.2 r hr
  refine ⟨w ++ v, by rw [htext, hlater, List.append_assoc], fun c hc => ?_⟩
  exact (List.mem_append.1 hc).elim (hw c) (hv c)

theorem takes_oneOf {ms : List Matcher} (h : ∀ m ∈ ms, Takes p m) :
    Takes p (oneOf ms) := by
  intro prev text r hr
  obtain ⟨m, hm, hr⟩ := List.mem_flatMap.1 hr
  exact h m hm prev text r hr

theorem Takes.upTo (hm : Takes p m) (turns : Nat) : Takes p (upTo m turns) := by
  induction turns with
  | zero =>
    intro prev text r hr
    obtain rfl := List.mem_singleton.1 hr
    exact ⟨[], rfl, by simp⟩
  | succ turns ih =>
    intro prev text r hr
    rcases List.mem_append.1 hr with hr | hr
    · exact hm.andThen ih prev text r hr
    · obtain rfl := List.mem_singleton.1 hr
      exact ⟨[], rfl, by simp⟩

theorem Takes.star (hm : Takes p m) : Takes p (star m) :=
  fun prev text => hm.upTo text.length prev text

theorem Takes.plus (hm : Takes p m) : Takes p (plus m) := hm.andThen hm.star

theorem takes_all {ms : List Matcher} (h : ∀ m ∈ ms, Takes p m) :
    Takes p (all ms) := by
  induction ms with
  | nil =>
    intro prev text r hr
    obtain rfl := List.mem_singleton.1 hr
    exact ⟨[], rfl, by simp⟩
  | cons m ms ih =>
    obtain ⟨hm, hms⟩ := List.forall_mem_cons.1 h
    exact hm.andThen (ih hms)

theorem Takes.of_mem_findall (hm : Takes p m) {found : List Char}
    (hfound : found ∈ findall m text) : ∀ c ∈ found, p c := by
  suffices hfrom : ∀ prev skip, found ∈ findFrom m prev skip text →
      ∀ c ∈ found, p c from hfrom none 0 hfound
  clear hfound
  induction text with
  | nil =>
    intro prev skip h
    unfold findFrom at h
    cases h
  | cons d rest ih =>
    intro prev skip h
    cases skip with
    | succ skip => exact ih _ _ h
    | zero =>
      unfold findFrom at h
      split at h
      case h_1 => exact ih _ _ h
      case h_2 prev' after more heq =>
        rcases List.mem_cons.1 h with rfl | h
        · obtain ⟨w, htext, hw⟩ := hm prev (d :: rest) (prev', after)
            (by rw [heq]; exact List.mem_cons_self)
          rw [htext, List.length_append, Nat.add_sub_cancel, List.take_left]
          exact hw
        · exact ih _ _ h

end

theorem spansFrom_bounds (m : Matcher) {prev : Option Char} {pos skip : Nat} {s : Nat × Nat} (hs : s ∈ spansFrom m prev pos skip text) :
    pos ≤ s.1 ∧ s.1 ≤ s.2 ∧ s.2 ≤ pos + text.length := by
  induction text generalizing prev pos skip with
  | nil =>
    unfold spansFrom at hs
    cases hs
  | cons c rest ih =>
    rw [List.length_cons]
    cases skip with
    | succ skip =>
      have := ih (show s ∈ spansFrom m (some c) (pos + 1) skip rest from hs)
      omega
    | zero =>
      unfold spansFrom at hs
      split at hs
      case h_1 =>
        have := ih hs
        omega
      case h_2 =>
        rw [List.length_cons] at hs
        rcases List.mem_cons.1 hs with rfl | hs
        · simp only
          omega
        · have := ih hs
          omega

theorem spans_bounds {pos : Nat}
    {s : Nat × Nat} (hs : s ∈ spans m text pos) :
    pos ≤ s.1 ∧ s.1 ≤ s.2 ∧ s.2 ≤ text.length := by
  have hfrom := spansFrom_bounds m hs
  rw [List.length_drop] at hfrom
  by_cases hpos : pos ≤ text.length
  · omega
  · -- nothing is left to search
    unfold spans at hs
    rw [List.drop_of_length_le (by omega)] at hs
    unfold spansFrom at hs
    cases hs

theorem mem_of_mem_split {piece : List Char} {c : Char}
    (hpiece : piece ∈ split m text) (hc : c ∈ piece) : c ∈ text := by
  suffices hfrom : ∀ (text : List Char) prev skip (start : List Char),
      piece ∈ splitFrom m prev skip start text → c ∈ start ∨ c ∈ text from
    (hfrom text none 0 [] hpiece).resolve_left List.not_mem_nil
  intro text
  induction text with
  | nil =>
    intro prev skip start h
    have h : piece = start.reverse := by
      cases skip <;> exact List.mem_singleton.1 h
    rw [h] at hc
    exact .inl (List.mem_reverse.1 hc)
  | cons d rest ih =>
    intro prev skip start h
    cases skip with
    | succ skip =>
      exact (ih _ _ _ h).imp id (List.mem_cons_of_mem d)
    | zero =>
      unfold splitFrom at h
      split at h
      case h_1 =>
        rcases ih _ _ _ h with h | h
        · rcases List.mem_cons.1 h with rfl | h
          · exact .inr (List.mem_cons_self ..)
          · exact .inl h
        · exact .inr (List.mem_cons_of_mem d h)
      case h_2 =>
        rcases List.mem_cons.1 h with h | h
        · rw [h] at hc
          exact .inl (List.mem_reverse.1 hc)
        · exact .inr (List.mem_cons_of_mem d
            ((ih _ _ _ h).resolve_left List.not_mem_nil))

theorem filter_flatten_split {p : Char → Bool}
    (hm : ∀ prev text r after, (r, after) ∈ m prev text →
      ∃ c w, text = c :: w ++ after ∧ ∀ d ∈ c :: w, p d = false) (text : List Char) :
    (split m text).flatten.filter p = text.filter p := by
  suffices hfrom : ∀ (text : List Char) prev skip (start : List Char),
      (splitFrom m prev skip start text).flatten.filter p
        = start.reverse.filter p ++ (text.drop skip).filter p from
    hfrom text none 0 []
  intro text
  induction text with
  | nil =>
    intro prev skip start
    rw [List.drop_nil, List.filter_nil, List.append_nil]
    cases skip <;> simp [splitFrom]
  | cons c rest ih =>
    intro prev skip start
    cases skip with
    | succ skip =>
      rw [List.drop_succ_cons]
      exact ih (some c) skip start
    | zero =>
      unfold splitFrom
      split
      case h_1 =>
        rw [ih (some c) 0 (c :: start), List.reverse_cons, List.filter_append,
          List.append_assoc, ← List.filter_append]
        rfl
      case h_2 r after more hmatch =>
        obtain ⟨d, w, htext, hw⟩ := hm prev (c :: rest) r after
          (hmatch ▸ List.mem_cons_self)
        have hrest : rest = w ++ after := (List.cons.inj htext).2
        have htaken : (c :: rest).length - after.length - 1 = w.length := by
          rw [hrest, List.length_cons, List.length_append]
          omega
        have hnone : (d :: w).filter p = [] :=
          List.filter_eq_nil_iff.2 fun e he => by
            rw [hw e he]
            exact Bool.false_ne_true
        rw [List.flatten_cons, List.filter_append, htaken,
          ih (some c) w.length [], List.drop_zero, htext, List.filter_append,
          hnone, hrest, List.drop_left]
        rfl

end Matcher

end MemoryOS.Lib
