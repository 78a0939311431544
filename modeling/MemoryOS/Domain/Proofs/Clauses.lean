/-
The clauses of a message (`domain/message_intent.py`), and the line that is one
of them.

`_BOUNDARY` looks at what is around a match, so what a line is split into
depends on the text it stands in. A line that is one clause on its own stays one
in every text, but for the whitespace around it (`exists_clause`): nothing in it
is a boundary (`Unbroken`), and a boundary that comes over its break takes only
whitespace of it.
-/
import MemoryOS.Domain.MessageIntent

namespace MemoryOS.MessageIntent

-- ====== statement vocabulary

/-- The clauses of a text that are not blank. -/
def clauses (text : Text) : List Text :=
  (clausesFrom [] none 0 text).filter fun c => !isBlank c

/-- On a line of its own, the line is one clause. -/
def OneClause (line : Text) : Prop :=
  clausesFrom [] none 0 ('\n' :: line ++ ['\n']) = [[], line, []]

-- ====== whitespace

section
variable {text u v w : Text}

theorem wordsFrom_spaced (word : Text) (hv : Whitespace v) :
    wordsFrom word v = if word.isEmpty then [] else [word.reverse] := by
  induction v generalizing word with
  | nil => rfl
  | cons c rest ih =>
    have hc : isSpace c = true := hv c List.mem_cons_self
    have hnil := ih [] fun d hd => hv d (List.mem_cons_of_mem _ hd)
    rw [wordsFrom, if_pos hc, hnil]
    rfl

theorem wordsFrom_trailing (word : Text) (hv : Whitespace v) :
    wordsFrom word (u ++ v) = wordsFrom word u := by
  induction u generalizing word with
  | nil => exact wordsFrom_spaced word hv
  | cons c rest ih =>
    rw [List.cons_append, wordsFrom, wordsFrom, ih, ih]

theorem words_leading (hw : Whitespace w) : words (w ++ u) = words u := by
  induction w with
  | nil => rfl
  | cons c rest ih =>
    have hc : isSpace c = true := hw c List.mem_cons_self
    have hrest := ih fun d hd => hw d (List.mem_cons_of_mem _ hd)
    unfold words at hrest ⊢
    rw [List.cons_append, wordsFrom, if_pos hc]
    exact hrest

theorem words_strip (text : Text) : words (strip text) = words text := by
  obtain ⟨w, v, hw, hv, htext⟩ := exists_around text
  conv_rhs => rw [htext, List.append_assoc, words_leading hw]
  exact (wordsFrom_trailing [] hv).symm

theorem not_blank_of_substantial (h : isSubstantial text = true) :
    isBlank text = false := by
  by_contra hblank
  rw [Bool.not_eq_false] at hblank
  have hnil : words text = [] := wordsFrom_spaced [] (isBlank_iff.1 hblank)
  unfold isSubstantial at h
  rw [hnil] at h
  cases h

end
-- ====== boundaries

section
variable {p : Option Char} {rest after m w d v : Text} {n : Nat} {c x : Char}

/-- `[;\n]`. -/
def isBreak (c : Char) : Bool := c == ';' || c == '\n'

/-- `--` or a dash. -/
def Dash (d : Text) : Prop := d = ['-', '-'] ∨ ∃ c, isDash c = true ∧ d = [c]

/-- How much `\s+[—–]\s+|\s+--\s+` matches at the head of a text. -/
def dashed (rest : Text) : Option Nat :=
  match spaces rest with
  | none => none
  | some (before, after) =>
    match after with
    | '-' :: '-' :: more => (spaces more).map fun r => before + 2 + r.1
    | c :: more =>
      if isDash c then (spaces more).map fun r => before + 1 + r.1 else none
    | [] => none

/-- How much `[;\n]+` matches at the head of a text. -/
def breaks (rest : Text) : Option Nat :=
  match rest.takeWhile isBreak with
  | [] => none
  | run => some run.length

/-- What a boundary can be. -/
inductive Boundary : Text → Prop
  | spaces {m : Text} (hm : Whitespace m) : Boundary m
  | dash {w d v : Text} (hw : Whitespace w) (hd : Dash d) (hv : Whitespace v)
      (hne : v ≠ []) : Boundary (w ++ d ++ v)
  | breaks {m : Text} (hm : ∀ c ∈ m, isBreak c = true) : Boundary m

theorem boundaryLength_eq : boundaryLength p rest
    = (if p.any (· ∈ ".!?".toList) then (spaces rest).map (·.1)
        else dashed rest).or (breaks rest) := by
  unfold boundaryLength dashed breaks isBreak
  cases spaces rest with
  | none =>
    rw [Option.map_none, ite_self]
    rfl
  | some run =>
    obtain ⟨before, after⟩ := run
    dsimp only
    by_cases h : p.any (· ∈ ".!?".toList) = true
    · rw [if_pos h, if_pos h]
      rfl
    · rw [if_neg h, if_neg h]
      split
      case h_1 n hn =>
        split at hn
        case h_1 more =>
          show some n = ((spaces more).map fun r => before + 2 + r.1).or _
          rw [hn]
          rfl
        case h_2 c more hc => simp [hn]
        case h_3 => cases hn
      case h_2 hn =>
        split at hn
        case h_1 more =>
          show _ = ((spaces more).map fun r => before + 2 + r.1).or _
          rw [hn]
          rfl
        case h_2 c more hc =>
          simp only [hn]
          rfl
        case h_3 => rfl

theorem spaces_spec (h : spaces rest = some (n, after)) :
    ∃ w, Whitespace w ∧ w ≠ [] ∧ rest = w ++ after ∧ w.length = n := by
  unfold spaces at h
  split at h
  case h_1 => cases h
  case h_2 run hrun =>
    cases h
    refine ⟨_, fun c hc => List.mem_takeWhile_imp hc, hrun, ?_, rfl⟩
    exact List.takeWhile_append_dropWhile.symm

theorem spaces_around (hw : Whitespace w) (hne : w ≠ []) (hx : isSpace x = false) :
    spaces (w ++ x :: rest) = some (w.length, x :: rest) := by
  have htake : (w ++ x :: rest).takeWhile isSpace = w := by
    rw [List.takeWhile_append_of_pos hw]
    simp [hx]
  unfold spaces
  rw [htake, dropWhile_whitespace hw]
  cases w with
  | nil => exact absurd rfl hne
  | cons => simp [hx]

theorem spaces_isSome (hx : isSpace x = true) :
    (spaces (x :: rest)).isSome = true := by
  unfold spaces
  rw [List.takeWhile_cons_of_pos hx]
  rfl

theorem dashed_spec (h : dashed rest = some n) :
    ∃ w d v after, Whitespace w ∧ w ≠ [] ∧ Dash d ∧ Whitespace v ∧ v ≠ []
      ∧ rest = w ++ d ++ v ++ after ∧ n = (w ++ d ++ v).length := by
  unfold dashed at h
  split at h
  case h_1 => cases h
  case h_2 before after hspaces =>
    obtain ⟨w, hw, hwne, hrest, hlength⟩ := spaces_spec hspaces
    split at h
    case h_1 more =>
      obtain ⟨r, hr, hn⟩ := Option.map_eq_some_iff.1 h
      obtain ⟨v, hv, hvne, hmore, hvlength⟩ := spaces_spec hr
      refine ⟨w, ['-', '-'], v, r.2, hw, hwne, .inl rfl, hv, hvne, ?_, ?_⟩
      · rw [hrest, hmore]
        simp
      · rw [← hn, ← hlength, ← hvlength]
        simp only [List.length_append, List.length_cons, List.length_nil]
    case h_2 c more hc =>
      split at h
      case isTrue hdash =>
        obtain ⟨r, hr, hn⟩ := Option.map_eq_some_iff.1 h
        obtain ⟨v, hv, hvne, hmore, hvlength⟩ := spaces_spec hr
        refine ⟨w, [c], v, r.2, hw, hwne, .inr ⟨c, hdash, rfl⟩, hv, hvne,
          ?_, ?_⟩
        · rw [hrest, hmore]
          simp
        · rw [← hn, ← hlength, ← hvlength]
          simp only [List.length_append, List.length_cons, List.length_nil]
      case isFalse => cases h
    case h_3 => cases h

theorem isSpace_of_isDash (h : isDash c = true) : isSpace c = false := by
  unfold isDash at h
  rw [Bool.or_eq_true, beq_iff_eq, beq_iff_eq] at h
  rcases h with rfl | rfl
  · decide
  · decide

theorem dashed_ne_none (hw : Whitespace w) (hne : w ≠ []) (hd : Dash d)
    (hx : isSpace x = true) : dashed (w ++ d ++ x :: rest) ≠ none := by
  have hmore := @spaces_isSome rest x hx
  obtain ⟨r, hr⟩ := Option.isSome_iff_exists.1 hmore
  rcases hd with rfl | ⟨c, hc, rfl⟩
  · have hspaces : spaces (w ++ ['-', '-'] ++ x :: rest)
        = some (w.length, '-' :: '-' :: x :: rest) := by
      rw [List.append_assoc]
      exact spaces_around hw hne (by decide)
    unfold dashed
    rw [hspaces]
    simp [hr]
  · have hspaces : spaces (w ++ [c] ++ x :: rest)
      = some (w.length, c :: x :: rest) := by
      rw [List.append_assoc]
      exact spaces_around hw hne (isSpace_of_isDash hc)
    have hhyphen : c ≠ '-' := by
      rintro rfl
      exact absurd hc (by decide)
    unfold dashed
    rw [hspaces]
    simp [hr, hc, hhyphen]

theorem breaks_spec (h : breaks rest = some n) :
    ∃ m after, rest = m ++ after ∧ m.length = n
      ∧ ∀ c ∈ m, isBreak c = true := by
  unfold breaks at h
  split at h
  case h_1 => cases h
  case h_2 =>
    cases h
    exact ⟨_, _, List.takeWhile_append_dropWhile.symm, rfl,
      fun c hc => List.mem_takeWhile_imp hc⟩

theorem boundary_spec (h : boundaryLength p rest = some n) :
    ∃ m after, rest = m ++ after ∧ m.length = n ∧ Boundary m := by
  rw [boundaryLength_eq, Option.or_eq_some_iff] at h
  rcases h with h | ⟨-, h⟩
  · split at h
    case isTrue =>
      obtain ⟨r, hr, rfl⟩ := Option.map_eq_some_iff.1 h
      obtain ⟨w, hw, -, hrest, hlength⟩ := spaces_spec hr
      exact ⟨w, r.2, hrest, hlength, .spaces hw⟩
    case isFalse =>
      obtain ⟨w, d, v, after, hw, -, hd, hv, hvne, hrest, hlength⟩ :=
        dashed_spec h
      exact ⟨w ++ d ++ v, after, hrest, hlength.symm, .dash hw hd hv hvne⟩
  · obtain ⟨m, after, hrest, hlength, hm⟩ := breaks_spec h
    exact ⟨m, after, hrest, hlength, .breaks hm⟩

theorem isBreak_break : isBreak '\n' = true := by decide

theorem boundaryLength_break (hc : isBreak c = true) :
    ∃ n, boundaryLength p (c :: rest) = some n := by
  have hbreaks : ∃ n, breaks (c :: rest) = some n := by
    unfold breaks
    rw [List.takeWhile_cons_of_pos hc]
    exact ⟨_, rfl⟩
  obtain ⟨n, hn⟩ := hbreaks
  rw [boundaryLength_eq, hn]
  cases (if p.any (· ∈ ".!?".toList) then (spaces (c :: rest)).map (·.1)
    else dashed (c :: rest)) with
  | none => exact ⟨n, rfl⟩
  | some k => exact ⟨k, rfl⟩

end

-- ======== the line

section
variable {p : Option Char} {line after before a b m text : Text} {n skip : Nat}
  {c x : Char}

/-- The character before what comes after `a`. -/
def lastOf (p : Option Char) (a : Text) : Option Char := a.getLast?.or p

theorem lastOf_cons : lastOf (some c) a = lastOf p (c :: a) := by
  unfold lastOf
  rw [List.getLast?_cons]
  cases a.getLast? with
  | none => rfl
  | some d => rfl

/-- What holds of a line that is one clause: nothing in it is a boundary. -/
structure Unbroken (line : Text) : Prop where
  blank : isBlank line = false
  first : ∀ x ∈ line.head?, isBreak x = false
  dashed : dashed ('\n' :: line ++ ['\n']) = none
  within : ∀ a b, line = a ++ b → b ≠ [] →
    boundaryLength (lastOf (some '\n') a) (b ++ ['\n']) = none

theorem length_clausesFrom (clause : Text) (p : Option Char) (skip : Nat) :
    (clausesFrom clause p skip (text ++ ['\n'])).flatten.length
      ≤ clause.length + (text.length - skip) := by
  induction text generalizing clause p skip with
  | nil =>
    cases skip with
    | zero =>
      obtain ⟨n, hn⟩ := @boundaryLength_break p [] '\n' isBreak_break
      rw [List.nil_append, clausesFrom, hn]
      simp [clausesFrom]
    | succ skip => simp [clausesFrom]
  | cons c rest ih =>
    cases skip with
    | zero =>
      rw [List.cons_append, clausesFrom]
      split
      case h_1 n hn =>
        have hrest := ih [] (some c) (n - 1)
        rw [List.flatten_cons, List.length_append, List.length_reverse,
          List.length_cons]
        rw [List.length_nil] at hrest
        omega
      case h_2 =>
        have hrest := ih (c :: clause) (some c) 0
        rw [List.length_cons] at hrest ⊢
        omega
    | succ skip =>
      have hrest := ih clause (some c) skip
      rw [List.cons_append, clausesFrom, List.length_cons]
      omega

theorem within_of_clause {clause : Text}
    (h : clausesFrom clause p 0 (line ++ ['\n'])
      = [clause.reverse ++ line, []]) :
    ∀ a b, line = a ++ b → b ≠ [] →
      boundaryLength (lastOf p a) (b ++ ['\n']) = none := by
  induction line generalizing clause p with
  | nil =>
    intro a b hab hb
    exact absurd (List.append_eq_nil_iff.1 hab.symm).2 hb
  | cons c rest ih =>
    rw [List.cons_append, clausesFrom] at h
    split at h
    case h_1 n hn =>
      -- the clause would end before the line does
      have hclause := (List.cons.inj h).1
      rw [List.self_eq_append_right] at hclause
      cases hclause
    case h_2 hnone =>
      intro a b hab hb
      cases a with
      | nil =>
        rw [List.nil_append] at hab
        rw [← hab]
        exact hnone
      | cons d a =>
        obtain ⟨rfl, htail⟩ := List.cons.inj hab
        rw [← lastOf_cons]
        refine @ih (some c) (c :: clause) ?_ a b htail hb
        rw [h]
        simp

theorem OneClause.unbroken (h : OneClause line)
    (hblank : isBlank line = false) :
    Unbroken line := by
  have hne : line ≠ [] := by
    rintro rfl
    cases hblank
  obtain ⟨n, hn⟩ := @boundaryLength_break none (line ++ ['\n']) '\n'
    isBreak_break
  have hclauses : clausesFrom [] (some '\n') (n - 1) (line ++ ['\n'])
    = [line, []] := by
    unfold OneClause at h
    rw [List.cons_append, clausesFrom, hn] at h
    exact (List.cons.inj h).2
  have hskip : n - 1 = 0 := by
    have hlength := @length_clausesFrom line [] (some '\n') (n - 1)
    rw [hclauses] at hlength
    have hpos := List.length_pos_iff.2 hne
    simp only [List.flatten_cons, List.flatten_nil, List.append_nil,
      List.length_nil] at hlength
    omega
  rw [hskip] at hclauses
  have hshape := hn
  rw [boundaryLength_eq] at hshape
  have hdashed : dashed ('\n' :: line ++ ['\n']) = none := by
    by_contra hsome
    obtain ⟨k, hk⟩ := Option.ne_none_iff_exists'.1 hsome
    obtain ⟨w, d, v, after, -, hw, -, -, hv, -, hlength⟩ := dashed_spec hk
    have hwpos := List.length_pos_iff.2 hw
    have hvpos := List.length_pos_iff.2 hv
    have heq : k = n := by
      rw [List.cons_append] at hk
      simpa [hk] using hshape
    rw [List.length_append, List.length_append] at hlength
    omega
  refine ⟨hblank, ?_, hdashed, within_of_clause hclauses⟩
  intro x hx
  by_contra hbreak
  rw [Bool.not_eq_false] at hbreak
  cases line with
  | nil => exact hne rfl
  | cons y rest =>
    obtain rfl : y = x := Option.some.inj hx
    have hbreaks : breaks ('\n' :: y :: rest ++ ['\n']) = some n := by
      rw [← List.cons_append, hdashed] at hshape
      simpa using hshape
    unfold breaks at hbreaks
    rw [List.cons_append, List.cons_append,
      List.takeWhile_cons_of_pos isBreak_break,
      List.takeWhile_cons_of_pos hbreak] at hbreaks
    have hlength := Option.some.inj hbreaks
    rw [List.length_cons, List.length_cons] at hlength
    omega

end

-- ======= around it

section
variable {p : Option Char} {line after before a b m d v w s text rest : Text}
  {n skip : Nat} {c x y : Char}

/-- Nothing, or more lines. -/
def Ends (s : Text) : Prop := s = [] ∨ ∃ rest, s = '\n' :: rest

theorem not_spaced (h : isBlank b = false) : ¬Whitespace b := by
  intro hspaced
  rw [isBlank_iff.2 hspaced] at h
  cases h

theorem dash_break (hd : Dash d) : '\n' ∉ d := by
  rcases hd with rfl | ⟨c, hc, rfl⟩
  · decide
  · intro hmem
    rw [← List.mem_singleton.1 hmem] at hc
    exact absurd hc (by decide)

theorem spaces_none : spaces (x :: rest) = none ↔ isSpace x = false := by
  unfold spaces
  cases hx : isSpace x with
  | true => simp [hx]
  | false => simp [hx]

theorem breaks_none : breaks (x :: rest) = none ↔ isBreak x = false := by
  unfold breaks
  cases hx : isBreak x with
  | true => simp [hx]
  | false => simp [hx]

theorem dashed_context (hb : isBlank b = false) (hs : Ends s)
    (h : dashed (b ++ ['\n']) = none) : dashed (b ++ s) = none := by
  by_contra hsome
  obtain ⟨k, hk⟩ := Option.ne_none_iff_exists'.1 hsome
  obtain ⟨w, d, v, after, hw, hwne, hd, hv, hvne, hrest, -⟩ := dashed_spec hk
  -- the dash begins within `b`, which is not blank, and ends there too
  have hwithin : ∃ a y t, b = w ++ d ++ a ∧ a ++ ['\n'] = y :: t
      ∧ isSpace y = true := by
    rw [List.append_assoc, List.append_assoc] at hrest
    rcases List.append_eq_append_iff.1 hrest with ⟨a, ha, -⟩ | ⟨a, ha, hrest⟩
    · exact absurd (fun c hc => hw c (ha ▸ List.mem_append_left a hc))
        (not_spaced hb)
    · have hane : a ≠ [] := by
        rintro rfl
        rw [List.append_nil] at ha
        exact not_spaced hb (ha ▸ hw)
      rcases List.append_eq_append_iff.1 hrest with ⟨e, he, hend⟩
        | ⟨e, he, hend⟩
      · refine ⟨e, ?_⟩
        cases e with
        | nil => exact ⟨'\n', [], by rw [ha, he, List.append_assoc], rfl,
          by decide⟩
        | cons y t =>
          refine ⟨y, t ++ ['\n'], by rw [ha, he, List.append_assoc], rfl, ?_⟩
          cases v with
          | nil => exact absurd rfl hvne
          | cons z v =>
            obtain ⟨rfl, -⟩ := List.cons.inj hend
            exact hv _ List.mem_cons_self
      · cases e with
        | nil =>
          rw [List.append_nil] at he
          exact ⟨[], '\n', [], by rw [ha, he, List.append_nil], rfl,
            by decide⟩
        | cons y t =>
          rcases hs with rfl | ⟨more, rfl⟩
          · cases hend
          · obtain ⟨rfl, -⟩ := List.cons.inj hend
            have hmem : '\n' ∈ d := by
              rw [he]
              exact List.mem_append_right a List.mem_cons_self
            exact absurd hmem (dash_break hd)
  obtain ⟨a, y, t, hsplit, hnext, hy⟩ := hwithin
  rw [hsplit, List.append_assoc, hnext] at h
  exact dashed_ne_none hw hwne hd hy h

theorem boundary_context (hb : isBlank b = false) (hs : Ends s)
    (h : boundaryLength p (b ++ ['\n']) = none) :
    boundaryLength p (b ++ s) = none := by
  rw [boundaryLength_eq, Option.or_eq_none_iff] at h ⊢
  obtain ⟨hspaced, hbreaks⟩ := h
  cases b with
  | nil => cases hb
  | cons y b =>
    refine ⟨?_, breaks_none.2 (breaks_none.1 hbreaks)⟩
    split at hspaced
    case isTrue hstops =>
      rw [if_pos hstops, Option.map_eq_none_iff]
      exact spaces_none.2 (spaces_none.1 (Option.map_eq_none_iff.1 hspaced))
    case isFalse hstops =>
      rw [if_neg hstops]
      exact dashed_context hb hs hspaced

theorem Unbroken.spaced (hline : Unbroken line) (hs : Ends s)
    (h : Boundary (before ++ '\n' :: m)) (hrest : line ++ s = m ++ after) :
    Whitespace m := by
  generalize hM : before ++ '\n' :: m = M at h
  cases h with
  | spaces hm =>
    intro c hc
    apply hm c
    rw [← hM]
    exact List.mem_append_right before (List.mem_cons_of_mem _ hc)
  | breaks hm =>
    cases m with
    | nil => exact fun c hc => absurd hc List.not_mem_nil
    | cons y m =>
      have hy : isBreak y = true := by
        apply hm y
        rw [← hM]
        simp
      have hblank := hline.blank
      have hfirst := hline.first
      cases line with
      | nil => cases hblank
      | cons z line =>
        obtain ⟨rfl, -⟩ := List.cons.inj hrest
        rw [hfirst z rfl] at hy
        cases hy
  | @dash w d v hw hd hv hvne =>
    rcases List.append_eq_append_iff.1 hM with ⟨e, he, hend⟩ | ⟨e, he, hend⟩
    · cases e with
      | nil =>
        -- the break is the first of the whitespace after the dash
        intro c hc
        apply hv c
        rw [List.nil_append] at hend
        rw [← hend]
        exact List.mem_cons_of_mem _ hc
      | cons y e =>
        obtain ⟨rfl, hm⟩ := List.cons.inj hend
        rcases List.append_eq_append_iff.1 he with ⟨f, hf, hd'⟩
          | ⟨f, hf, hw'⟩
        · have hmem : '\n' ∈ d := by
            rw [hd']
            exact List.mem_append_right f List.mem_cons_self
          exact absurd hmem (dash_break hd)
        · cases f with
          | nil =>
            have hmem : '\n' ∈ d := by
              rw [List.nil_append] at hw'
              rw [← hw']
              exact List.mem_cons_self
            exact absurd hmem (dash_break hd)
          | cons z f =>
            obtain ⟨rfl, hef⟩ := List.cons.inj hw'
            exfalso
            -- so the line itself begins with the dash
            have hblank : isBlank ('\n' :: line) = false := by
              rw [Bool.eq_false_iff, Ne, isBlank_iff]
              exact fun hall => not_spaced hline.blank fun c hc =>
                hall c (List.mem_cons_of_mem _ hc)
            have hnone := dashed_context hblank hs hline.dashed
            cases v with
            | nil => exact hvne rfl
            | cons x v =>
              have hspaced : Whitespace ('\n' :: f) := fun c hc =>
                hw c (hf ▸ List.mem_append_right before hc)
              have hfound := @dashed_ne_none (v ++ after) _ d x hspaced
                (List.cons_ne_nil _ _) hd (hv x List.mem_cons_self)
              apply hfound
              rw [← hnone]
              congr 1
              show _ = '\n' :: (line ++ s)
              rw [hrest, hm, hef]
              simp
    · intro c hc
      apply hv c
      rw [hend]
      exact List.mem_append_right e (List.mem_cons_of_mem _ hc)

end

-- ======== the walk

section
variable {p : Option Char} {line after before a b m u v w s text rest : Text}
  {n skip : Nat} {c x y : Char}

/-- What is skipped is left of a boundary. -/
def Skipping (skip : Nat) (text : Text) : Prop :=
  skip = 0 ∨ ∃ before m after,
    text = m ++ after ∧ m.length = skip ∧ Boundary (before ++ m)

theorem skipping_of_match (h : boundaryLength p (c :: rest) = some n) :
    Skipping (n - 1) rest := by
  obtain ⟨m, after, hrest, hlength, hm⟩ := boundary_spec h
  cases m with
  | nil =>
    left
    rw [← hlength]
    rfl
  | cons d m =>
    obtain ⟨rfl, htail⟩ := List.cons.inj hrest
    rw [← hlength]
    exact .inr ⟨[c], m, after, htail, rfl, hm⟩

theorem Skipping.tail (h : Skipping (skip + 1) (c :: rest)) :
    Skipping skip rest := by
  rcases h with h | ⟨before, m, after, hrest, hlength, hm⟩
  · cases h
  · cases m with
    | nil => cases hlength
    | cons d m =>
      obtain ⟨rfl, htail⟩ := List.cons.inj hrest
      refine .inr ⟨before ++ [c], m, after, htail, Nat.succ.inj hlength, ?_⟩
      rw [List.append_assoc]
      exact hm

theorem clausesFrom_break (before : Text) {clause : Text}
    (hskip : Skipping skip (before ++ '\n' :: rest))
    (hclause : skip = 0 ∨ clause = []) :
    ∃ cs start m after, clausesFrom clause p skip (before ++ '\n' :: rest)
        = cs ++ clausesFrom [] (some '\n') m.length rest
      ∧ rest = m ++ after ∧ Boundary (start ++ '\n' :: m) := by
  induction before generalizing clause p skip with
  | nil =>
    rw [List.nil_append] at hskip ⊢
    cases skip with
    | zero =>
      obtain ⟨n, hn⟩ := @boundaryLength_break p rest '\n' isBreak_break
      obtain ⟨m, after, hrest, hlength, hm⟩ := boundary_spec hn
      rw [clausesFrom, hn]
      cases m with
      | nil =>
        refine ⟨[clause.reverse], [], [], rest, ?_, rfl, .breaks ?_⟩
        · rw [← hlength]
          rfl
        · intro c hc
          rw [List.mem_singleton.1 hc]
          exact isBreak_break
      | cons d m =>
        obtain ⟨rfl, htail⟩ := List.cons.inj hrest
        refine ⟨[clause.reverse], [], m, after, ?_, htail, hm⟩
        rw [← hlength]
        rfl
    | succ skip =>
      obtain rfl : clause = [] :=
        hclause.resolve_left (Nat.succ_ne_zero skip)
      rcases hskip with h | ⟨start, m, after, hrest, hlength, hm⟩
      · cases h
      · cases m with
        | nil => cases hlength
        | cons d m =>
          obtain ⟨rfl, htail⟩ := List.cons.inj hrest
          refine ⟨[], start, m, after, ?_, htail, hm⟩
          rw [← Nat.succ.inj hlength]
          rfl
  | cons c before ih =>
    rw [List.cons_append] at hskip ⊢
    cases skip with
    | zero =>
      rw [clausesFrom]
      split
      case h_1 n hn =>
        obtain ⟨cs, start, m, after, hcs, hrest⟩ :=
          ih (skipping_of_match hn) (.inr rfl)
        exact ⟨clause.reverse :: cs, start, m, after, by rw [hcs]; rfl,
          hrest⟩
      case h_2 => exact ih (.inl rfl) (.inl rfl)
    | succ skip =>
      obtain rfl : clause = [] :=
        hclause.resolve_left (Nat.succ_ne_zero skip)
      exact ih hskip.tail (.inr rfl)

theorem lastOf_append : lastOf (lastOf p a) b = lastOf p (a ++ b) := by
  unfold lastOf
  rw [List.getLast?_append, Option.or_assoc]

theorem clausesFrom_skip {clause : Text} :
    clausesFrom clause p m.length (m ++ rest)
    = clausesFrom clause (lastOf p m) 0 rest := by
  induction m generalizing p with
  | nil => rfl
  | cons c m ih =>
    rw [List.cons_append, List.length_cons, clausesFrom, ih, ← lastOf_cons]

theorem clausesFrom_line {clause : Text} (hs : Ends s)
    (h : ∀ a b, line = a ++ b → b ≠ [] →
      boundaryLength (lastOf p a) (b ++ ['\n']) = none) :
    ∃ u v cs, line = u ++ v ∧ Whitespace v
      ∧ clausesFrom clause p 0 (line ++ s) = (clause.reverse ++ u) :: cs := by
  induction line generalizing clause p with
  | nil =>
    have hspaced : Whitespace [] := fun c hc => absurd hc List.not_mem_nil
    rcases hs with rfl | ⟨more, rfl⟩
    · refine ⟨[], [], [], rfl, hspaced, ?_⟩
      rw [List.append_nil, List.append_nil, clausesFrom]
    · obtain ⟨n, hn⟩ := @boundaryLength_break p more '\n' isBreak_break
      refine ⟨[], [], clausesFrom [] (some '\n') (n - 1) more, rfl,
        hspaced, ?_⟩
      rw [List.nil_append, clausesFrom, hn, List.append_nil]
  | cons c line ih =>
    rw [List.cons_append, clausesFrom]
    split
    case h_1 n hn =>
      -- only what is blank to the end is taken by a boundary
      have hblank : isBlank (c :: line) = true := by
        by_contra hnot
        rw [Bool.not_eq_true] at hnot
        have hnone := boundary_context hnot hs
          (h [] (c :: line) rfl (List.cons_ne_nil _ _))
        rw [List.cons_append] at hnone
        exact absurd (hn.symm.trans hnone) (Option.some_ne_none n)
      exact ⟨[], c :: line, _, rfl, isBlank_iff.1 hblank,
        by rw [List.append_nil]⟩
    case h_2 =>
      obtain ⟨u, v, cs, hline, hv, hcs⟩ :=
        @ih (some c) (c :: clause) fun a b hab hb => by
        rw [lastOf_cons]
        exact h (c :: a) b (by rw [hab]; rfl) hb
      refine ⟨c :: u, v, cs, by rw [hline]; rfl, hv, ?_⟩
      rw [hcs, List.reverse_cons, List.append_assoc]
      rfl

theorem clausesFrom_none {clause : Text} :
    clausesFrom clause none skip text
      = clausesFrom clause (some '\n') skip text := by
  cases text with
  | nil => rfl
  | cons c rest =>
    cases skip with
    | zero =>
      have hsame : boundaryLength none (c :: rest)
          = boundaryLength (some '\n') (c :: rest) := by
        have hstops : (some '\n').any (· ∈ ".!?".toList) = false := by
          decide
        rw [boundaryLength_eq, boundaryLength_eq, hstops]
        rfl
      rw [clausesFrom, clausesFrom, hsame]
    | succ skip => rfl

theorem exists_lines (before : List Text) (line : Text) (after : List Text) :
    ∃ start s, (start = [] ∨ ∃ t, start = t ++ ['\n']) ∧ Ends s
      ∧ ['\n'].intercalate (before ++ line :: after) = start ++ line ++ s := by
  induction before with
  | nil =>
    cases after with
    | nil =>
      refine ⟨[], [], .inl rfl, .inl rfl, ?_⟩
      simp
    | cons next after =>
      refine ⟨[], '\n' :: ['\n'].intercalate (next :: after), .inl rfl,
        .inr ⟨_, rfl⟩, ?_⟩
      simp [List.intercalate_cons_cons]
  | cons head before ih =>
    obtain ⟨start, s, hstart, hs, hlines⟩ := ih
    refine ⟨head ++ '\n' :: start, s, .inr ?_, hs, ?_⟩
    · rcases hstart with rfl | ⟨t, rfl⟩
      · exact ⟨head, rfl⟩
      · exact ⟨head ++ '\n' :: t, by simp⟩
    · have hcons : ['\n'].intercalate (head :: (before ++ line :: after))
          = head ++ '\n' :: ['\n'].intercalate (before ++ line :: after) := by
        cases before with
        | nil => simp [List.intercalate_cons_cons]
        | cons next before => simp [List.intercalate_cons_cons]
      rw [List.cons_append, hcons, hlines]
      simp

theorem exists_clause {before after : List Text} {line : Text}
    (hone : OneClause line) (hblank : isBlank line = false) :
    ∃ c ∈ clauses (['\n'].intercalate (before ++ line :: after)),
      strip c = strip line := by
  have hline := hone.unbroken hblank
  obtain ⟨start, s, hstart, hs, hlines⟩ := exists_lines before line after
  rw [hlines]
  have hreach : ∃ cs w rest, Whitespace w ∧ line = w ++ rest
      ∧ clausesFrom [] none 0 (start ++ line ++ s)
        = cs ++ clausesFrom [] (lastOf (some '\n') w) 0 (rest ++ s) := by
    rcases hstart with rfl | ⟨t, rfl⟩
    · refine ⟨[], [], line, fun c hc => absurd hc List.not_mem_nil, rfl, ?_⟩
      exact clausesFrom_none
    · obtain ⟨cs, from', m, after, hcs, hrest, hm⟩ :=
        @clausesFrom_break none (line ++ s) 0 t [] (.inl rfl) (.inl rfl)
      have hspaced := hline.spaced hs hm hrest
      rcases List.append_eq_append_iff.1 hrest with ⟨e, he, -⟩ | ⟨e, he, hend⟩
      · refine absurd (fun c hc => hspaced c ?_) (not_spaced hblank)
        rw [he]
        exact List.mem_append_left e hc
      · refine ⟨cs, m, e, hspaced, he, ?_⟩
        rw [← clausesFrom_skip, ← List.append_assoc, ← he, ← hcs]
        simp
  obtain ⟨cs, w, rest, hw, hsplit, hcs⟩ := hreach
  obtain ⟨u, v, more, hrest, hv, hmore⟩ :=
    @clausesFrom_line (lastOf (some '\n') w)
    rest s [] hs fun a b hab hb => by
      rw [lastOf_append]
      exact hline.within (w ++ a) b (by rw [hsplit, hab, List.append_assoc]) hb
  have hstrip : strip u = strip line := by
    rw [hsplit, hrest, ← List.append_assoc]
    exact (strip_around hw hv).symm
  refine ⟨u, List.mem_filter.2 ⟨?_, ?_⟩, hstrip⟩
  · rw [hcs, hmore]
    exact List.mem_append_right cs List.mem_cons_self
  · unfold isBlank at hblank ⊢
    rw [hstrip, hblank]
    rfl

end

end MemoryOS.MessageIntent
