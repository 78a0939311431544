/-
The language of a matcher.

A matcher recognises a language when what it can leave of a text is the text
without one of the language's words, whatever stands before. Sequence and
repetition of matchers recognise product and star. Where a word's first
character stands nowhere else in a word, and no word is another's beginning,
`findall` finds every word of the language that occurs (`mem_findall`).

`split` keeps an occurrence whole when no match begins in it and none before
it reaches into it (`mem_split_of_whole`).
-/
import Mathlib.Computability.Language
import MemoryOS.Lib.Matcher

namespace MemoryOS.Lib

open Computability

namespace Matcher

/-- What is left after a match, of a language that does not look around. -/
def Recognises (m : Matcher) (l : Language Char) : Prop :=
  ∀ prev text after,
    (∃ p, (p, after) ∈ m prev text) ↔ ∃ w ∈ l, text = w ++ after

/-- The words of one character. -/
def oneOfClass (p : Char → Bool) : Language Char :=
  {w | ∃ c, p c = true ∧ w = [c]}

variable {m n : Matcher} {l k : Language Char}

theorem recognises_char (p : Char → Bool) :
    Recognises (char p) (oneOfClass p) := by
  intro prev text after
  cases text with
  | nil =>
    apply iff_of_false
    · intro h
      obtain ⟨_, h⟩ := h
      exact List.not_mem_nil h
    · rintro ⟨w, ⟨c, -, rfl⟩, h⟩
      cases h
  | cons c rest =>
    simp only [char]
    by_cases hc : p c = true
    · rw [if_pos hc]
      constructor
      · rintro ⟨q, hq⟩
        cases List.mem_singleton.1 hq
        exact ⟨[c], ⟨c, hc, rfl⟩, rfl⟩
      · rintro ⟨w, ⟨d, -, rfl⟩, h⟩
        obtain ⟨rfl, rfl⟩ := List.cons.inj h
        exact ⟨_, List.mem_singleton_self _⟩
    · rw [if_neg hc]
      apply iff_of_false
      · intro h
        obtain ⟨_, h⟩ := h
        exact List.not_mem_nil h
      · rintro ⟨w, ⟨d, hd, rfl⟩, h⟩
        obtain ⟨rfl, -⟩ := List.cons.inj h
        exact hc hd

theorem Recognises.andThen (hm : Recognises m l) (hn : Recognises n k) :
    Recognises (andThen m n) (l * k) := by
  intro prev text after
  unfold Matcher.andThen
  constructor
  · rintro ⟨p, hp⟩
    obtain ⟨⟨q, between⟩, hq, hafter⟩ := List.mem_flatMap.1 hp
    obtain ⟨u, hu, rfl⟩ := (hm prev text between).1 ⟨q, hq⟩
    obtain ⟨v, hv, rfl⟩ := (hn q between after).1 ⟨p, hafter⟩
    exact ⟨u ++ v, Language.append_mem_mul hu hv, (List.append_assoc ..).symm⟩
  · rintro ⟨w, hw, rfl⟩
    obtain ⟨u, hu, v, hv, rfl⟩ := Language.mem_mul.1 hw
    obtain ⟨q, hq⟩ := (hm prev _ (v ++ after)).2
      ⟨u, hu, List.append_assoc ..⟩
    obtain ⟨p, hp⟩ := (hn q _ after).2 ⟨v, hv, rfl⟩
    exact ⟨p, List.mem_flatMap.2 ⟨_, hq, hp⟩⟩

theorem recognises_nil : Recognises (all []) 1 := by
  intro prev text after
  unfold all
  constructor
  · rintro ⟨p, hp⟩
    cases List.mem_singleton.1 hp
    exact ⟨[], Language.mem_one _ |>.2 rfl, rfl⟩
  · rintro ⟨w, hw, rfl⟩
    obtain rfl := (Language.mem_one _).1 hw
    exact ⟨prev, List.mem_singleton_self _⟩

theorem Recognises.mem_upTo (hm : Recognises m l) (turns : Nat)
    (prev : Option Char) (text after : List Char) :
    (∃ p, (p, after) ∈ upTo m turns prev text)
      ↔ ∃ ws : List (List Char), ws.length ≤ turns ∧ (∀ w ∈ ws, w ∈ l)
        ∧ text = ws.flatten ++ after := by
  induction turns generalizing prev text with
  | zero =>
    unfold upTo
    constructor
    · rintro ⟨p, hp⟩
      cases List.mem_singleton.1 hp
      exact ⟨[], le_refl _, nofun, rfl⟩
    · rintro ⟨ws, hlen, -, rfl⟩
      rw [List.eq_nil_of_length_eq_zero (Nat.le_zero.1 hlen)]
      exact ⟨prev, List.mem_singleton_self _⟩
  | succ turns ih =>
    unfold upTo
    constructor
    · rintro ⟨p, hp⟩
      rcases List.mem_append.1 hp with hp | hp
      · obtain ⟨⟨q, between⟩, hq, hafter⟩ := List.mem_flatMap.1 hp
        obtain ⟨w, hw, rfl⟩ := (hm prev text between).1 ⟨q, hq⟩
        obtain ⟨ws, hlen, hws, rfl⟩ := (ih q between).1 ⟨p, hafter⟩
        exact ⟨w :: ws, Nat.succ_le_succ hlen,
          List.forall_mem_cons.2 ⟨hw, hws⟩, (List.append_assoc ..).symm⟩
      · cases List.mem_singleton.1 hp
        exact ⟨[], Nat.zero_le _, nofun, rfl⟩
    · rintro ⟨ws, hlen, hws, rfl⟩
      cases ws with
      | nil => exact ⟨prev, List.mem_append_right _ (List.mem_singleton_self _)⟩
      | cons w ws =>
        obtain ⟨hw, hws⟩ := List.forall_mem_cons.1 hws
        obtain ⟨q, hq⟩ := (hm prev ((w :: ws).flatten ++ after)
          (ws.flatten ++ after)).2
          ⟨w, hw, by rw [List.flatten_cons, List.append_assoc]⟩
        obtain ⟨p, hp⟩ := (ih q _).2 ⟨ws, Nat.le_of_succ_le_succ hlen, hws,
          rfl⟩
        exact ⟨p, List.mem_append_left _ (List.mem_flatMap.2 ⟨_, hq, hp⟩)⟩

theorem length_le_flatten {ws : List (List Char)} (h : ∀ w ∈ ws, w ≠ []) :
    ws.length ≤ ws.flatten.length := by
  induction ws with
  | nil => exact le_refl _
  | cons w ws ih =>
    obtain ⟨hw, hws⟩ := List.forall_mem_cons.1 h
    rw [List.flatten_cons, List.length_append, List.length_cons]
    have := List.length_pos_of_ne_nil hw
    have := ih hws
    omega

theorem Recognises.star (hm : Recognises m l) (hne : [] ∉ l) :
    Recognises (star m) l∗ := by
  intro prev text after
  unfold Matcher.star
  rw [hm.mem_upTo]
  constructor
  · rintro ⟨ws, -, hws, htext⟩
    exact ⟨ws.flatten, Language.join_mem_kstar hws, htext⟩
  · rintro ⟨w, hw, rfl⟩
    obtain ⟨ws, rfl, hws⟩ := Language.mem_kstar.1 hw
    refine ⟨ws, ?_, hws, rfl⟩
    have := length_le_flatten fun w hw (hnil : w = []) => hne (hnil ▸ hws w hw)
    rw [List.length_append]
    omega

theorem Recognises.plus (hm : Recognises m l) (hne : [] ∉ l) :
    Recognises (plus m) (l * l∗) :=
  hm.andThen (hm.star hne)

-- ========= classes

/-- The words are made of a class. -/
def Over (p : Char → Prop) (l : Language Char) : Prop :=
  ∀ w ∈ l, ∀ c ∈ w, p c

variable {p : Char → Prop}

theorem Over.mul (hl : Over p l) (hk : Over p k) : Over p (l * k) := by
  intro w hw c hc
  obtain ⟨u, hu, v, hv, rfl⟩ := Language.mem_mul.1 hw
  exact (List.mem_append.1 hc).elim (hl u hu c) (hk v hv c)

theorem Over.kstar (hl : Over p l) : Over p l∗ := by
  intro w hw c hc
  obtain ⟨ws, rfl, hws⟩ := Language.mem_kstar.1 hw
  obtain ⟨v, hv, hcv⟩ := List.mem_flatten.1 hc
  exact hl v (hws v hv) c hcv

theorem over_one : Over p 1 := by
  intro w hw c hc
  obtain rfl := (Language.mem_one _).1 hw
  cases hc

theorem over_oneOfClass {q : Char → Bool} (h : ∀ c, q c = true → p c) :
    Over p (oneOfClass q) := by
  rintro w ⟨c, hc, rfl⟩ d hd
  exact List.mem_singleton.1 hd ▸ h c hc

-- ========= findall

/-- A word's first character is nowhere else in a word, and no word begins
another. -/
structure Delimited (opens : Char → Prop) (l : Language Char) : Prop where
  opened : ∀ w ∈ l, ∃ c rest, w = c :: rest ∧ opens c ∧ ∀ d ∈ rest, ¬ opens d
  prefixFree : ∀ u ∈ l, ∀ v ∈ l, ∀ r s : List Char, u ++ r = v ++ s → u = v

namespace Delimited

variable {opens : Char → Prop} (hl : Delimited opens l)

include hl in
theorem mono {k : Language Char} (hk : ∀ w ∈ k, w ∈ l) : Delimited opens k where
  opened w hw := hl.opened w (hk w hw)
  prefixFree u hu v hv := hl.prefixFree u (hk u hu) v (hk v hv)

include hl in
theorem nil_not_mem : [] ∉ l := by
  intro hnil
  obtain ⟨c, rest, h, -⟩ := hl.opened [] hnil
  cases h

include hl in
theorem infix_append {u w after : List Char} (hu : u ∈ l) (hw : w ∈ l)
    (h : w <:+: u ++ after) : w = u ∨ w <:+: after := by
  obtain ⟨x, z, heq⟩ := h
  rw [List.append_assoc] at heq
  obtain ⟨c, wrest, rfl, hc, -⟩ := hl.opened w hw
  obtain ⟨d, urest, rfl, -, hrest⟩ := hl.opened u hu
  cases x with
  | nil => exact .inl (hl.prefixFree _ hw _ hu _ _ heq)
  | cons e x =>
    right
    obtain ⟨-, heq⟩ := List.cons.inj heq
    rcases List.append_eq_append_iff.1 heq with ⟨y, hy, hz⟩ | ⟨y, rfl, hy⟩
    · -- the word would begin inside the other
      cases y with
      | nil => exact ⟨[], z, by simpa using hz⟩
      | cons f y =>
        obtain ⟨rfl, -⟩ := List.cons.inj hz
        refine absurd hc (hrest c ?_)
        rw [hy]
        exact List.mem_append_right _ (List.mem_cons_self ..)
    · exact ⟨y, z, by rw [hy, List.append_assoc]⟩

include hl in
theorem mem_findall (hm : Recognises m l) {text w : List Char} :
    w ∈ findall m text ↔ w ∈ l ∧ w <:+: text := by
  suffices hfrom : ∀ (text : List Char) prev skip,
      w ∈ findFrom m prev skip text ↔ w ∈ l ∧ w <:+: text.drop skip from
    hfrom text none 0
  clear text
  intro text
  induction text with
  | nil =>
    intro prev skip
    rw [List.drop_nil, List.infix_nil]
    refine iff_of_false ?_ ?_
    · cases skip <;> exact List.not_mem_nil
    · rintro ⟨hw, rfl⟩
      exact hl.nil_not_mem hw
  | cons c rest ih =>
    intro prev skip
    cases skip with
    | succ skip => exact ih _ _
    | zero =>
      rw [List.drop_zero]
      unfold findFrom
      split
      case h_1 hnone =>
        rw [ih, List.drop_zero]
        refine and_congr_right fun hw => ?_
        rw [List.infix_cons_iff]
        refine (or_iff_right fun ⟨after, hafter⟩ => ?_).symm
        obtain ⟨p, hp⟩ := (hm prev _ after).2 ⟨w, hw, hafter.symm⟩
        rw [hnone] at hp
        cases hp
      case h_2 q after more hmatch =>
        obtain ⟨u, hu, hcons⟩ := (hm prev (c :: rest) after).1
          ⟨q, hmatch ▸ List.mem_cons_self ..⟩
        obtain ⟨d, urest, rfl, -⟩ := hl.opened u hu
        obtain ⟨rfl, hrest⟩ := List.cons.inj hcons
        replace hrest : rest = urest ++ after := hrest
        subst hrest
        have htaken : (c :: (urest ++ after)).length - after.length
            = urest.length + 1 := by
          rw [List.length_cons, List.length_append]
          omega
        simp only [htaken]
        rw [List.mem_cons, Nat.add_sub_cancel, ih, List.drop_left,
          List.take_succ_cons, List.take_left]
        constructor
        · rintro (rfl | ⟨hw, hin⟩)
          · exact ⟨hu, [], after, rfl⟩
          · exact ⟨hw, hin.trans (List.suffix_append (c :: urest) after).isInfix⟩
        · rintro ⟨hw, hin⟩
          exact (hl.infix_append hu hw hin).imp_right fun h => ⟨hw, h⟩

end Delimited

-- =========== split

theorem infix_of_mem_split {text piece : List Char}
    (hpiece : piece ∈ split m text) : piece <:+: text := by
  suffices hfrom : ∀ (text : List Char) prev skip (start : List Char),
      (skip = 0 ∨ start = []) → piece ∈ splitFrom m prev skip start text →
      piece <:+: start.reverse ++ text from
    hfrom text none 0 [] (.inl rfl) hpiece
  clear hpiece text
  intro text
  induction text with
  | nil =>
    intro prev skip start _ h
    have h : piece = start.reverse := by
      cases skip <;> exact List.mem_singleton.1 h
    rw [h, List.append_nil]
  | cons c rest ih =>
    intro prev skip start hstart h
    cases skip with
    | succ skip =>
      obtain rfl := hstart.resolve_left (Nat.succ_ne_zero skip)
      exact (ih _ _ [] (.inr rfl) h).trans (List.suffix_cons c rest).isInfix
    | zero =>
      unfold splitFrom at h
      split at h
      case h_1 =>
        have hin := ih _ _ _ (.inl rfl) h
        rw [List.reverse_cons, List.append_assoc] at hin
        exact hin
      case h_2 =>
        rcases List.mem_cons.1 h with rfl | h
        · exact (List.prefix_append _ _).isInfix
        · exact (ih _ _ [] (.inr rfl) h).trans
            ((List.suffix_cons c rest).isInfix.trans
              (List.suffix_append _ _).isInfix)

theorem not_mem_split {c : Char} (hc : ∀ prev rest, m prev (c :: rest) ≠ [])
    {text piece : List Char} (hpiece : piece ∈ split m text) : c ∉ piece := by
  suffices hfrom : ∀ (text : List Char) prev skip (start : List Char),
      c ∉ start → piece ∈ splitFrom m prev skip start text → c ∉ piece from
    hfrom text none 0 [] List.not_mem_nil hpiece
  clear hpiece text
  intro text
  induction text with
  | nil =>
    intro prev skip start hstart h
    have h : piece = start.reverse := by
      cases skip <;> exact List.mem_singleton.1 h
    rw [h, List.mem_reverse]
    exact hstart
  | cons d rest ih =>
    intro prev skip start hstart h
    cases skip with
    | succ skip => exact ih _ _ _ hstart h
    | zero =>
      unfold splitFrom at h
      split at h
      case h_1 hnone =>
        refine ih _ _ _ ?_ h
        rintro (_ | ⟨_, hin⟩)
        · exact hc _ _ hnone
        · exact hstart hin
      case h_2 =>
        rcases List.mem_cons.1 h with rfl | h
        · rw [List.mem_reverse]
          exact hstart
        · exact ih _ _ _ List.not_mem_nil h

theorem splitFrom_append {body after : List Char}
    (hwhole : ∀ prev x y, body = x ++ y → y ≠ [] →
      (∀ c, x.getLast? = some c → prev = some c) → m prev (y ++ after) = []) :
    ∀ x y prev start, body = x ++ y →
      (∀ c, x.getLast? = some c → prev = some c) →
      ∃ prev', splitFrom m prev 0 start (y ++ after)
        = splitFrom m prev' 0 (y.reverse ++ start) after := by
  intro x y
  induction y generalizing x with
  | nil => exact fun prev start _ _ => ⟨prev, rfl⟩
  | cons c y ih =>
    intro prev start hbody hprev
    have hnone := hwhole prev x (c :: y) hbody (by simp) hprev
    obtain ⟨prev', h⟩ := ih (x ++ [c]) (some c) (c :: start)
      (by rw [hbody, List.append_assoc]; rfl) fun d hd => by
        rw [List.getLast?_append, List.getLast?_singleton, Option.some_or] at hd
        exact hd
    refine ⟨prev', ?_⟩
    rw [List.cons_append] at hnone ⊢
    rw [splitFrom, hnone]
    simp only
    rw [h, List.reverse_cons, List.append_assoc]
    rfl

theorem splitFrom_start (m : Matcher) (start text : List Char) (prev) :
    ∃ more pieces, splitFrom m prev 0 start text
      = (start.reverse ++ more) :: pieces := by
  induction text generalizing start prev with
  | nil => exact ⟨[], [], by rw [splitFrom, List.append_nil]⟩
  | cons c rest ih =>
    unfold splitFrom
    split
    case h_1 =>
      obtain ⟨more, pieces, h⟩ := ih (c :: start) (some c)
      refine ⟨c :: more, pieces, ?_⟩
      rw [h, List.reverse_cons, List.append_assoc]
      rfl
    case h_2 => exact ⟨[], _, by rw [List.append_nil]⟩

theorem mem_split_of_whole {before body after : List Char}
    (hwhole : ∀ prev x y, body = x ++ y → y ≠ [] →
      (∀ c, x.getLast? = some c → prev = some c) → m prev (y ++ after) = [])
    (hbefore : ∀ prev l left more p, l ≠ [] →
      m prev (l ++ (body ++ after)) = (p, left) :: more →
      (body ++ after).length ≤ left.length) :
    ∃ piece ∈ split m (before ++ (body ++ after)), body <:+: piece := by
  suffices hfrom : ∀ (before : List Char) prev skip start,
      skip ≤ before.length →
      ∃ piece ∈ splitFrom m prev skip start (before ++ (body ++ after)),
        body <:+: piece from hfrom before none 0 [] (Nat.zero_le _)
  clear before
  intro before
  induction before with
  | nil =>
    intro prev skip start hskip
    obtain rfl := Nat.le_zero.1 hskip
    obtain ⟨prev', hbody⟩ := splitFrom_append hwhole [] body prev start rfl
      nofun
    obtain ⟨more, pieces, hpieces⟩ :=
      splitFrom_start m (body.reverse ++ start) after prev'
    rw [List.nil_append, hbody, hpieces]
    refine ⟨_, List.mem_cons_self .., ?_⟩
    rw [List.reverse_append, List.reverse_reverse]
    exact List.infix_append start.reverse body more
  | cons c before ih =>
    intro prev skip start hskip
    cases skip with
    | succ skip => exact ih _ _ _ (Nat.le_of_succ_le_succ hskip)
    | zero =>
      rw [List.cons_append]
      unfold splitFrom
      split
      case h_1 => exact ih _ _ _ (Nat.zero_le _)
      case h_2 p left more hmatch =>
        have hreach := hbefore prev (c :: before) left more p (by simp)
          hmatch
        obtain ⟨piece, hpiece, hin⟩ := ih (some c)
          ((c :: (before ++ (body ++ after))).length - left.length - 1) [] (by
            rw [List.length_cons, List.length_append]
            omega)
        exact ⟨piece, List.mem_cons_of_mem _ hpiece, hin⟩

end Matcher

end MemoryOS.Lib
