/-
A thought is not thrown away (`domain/message_intent.py`).

`_is_question` looks for a query phrase at the front of a clause without asking
that the phrase ends there, so `listening to music …` is taken for `list …`. A
text keeps what it claims where no clause runs a phrase on like that, or where
another clause is kept anyway (`kept_iff`).
-/
import MemoryOS.Domain.Proofs.Clauses

namespace MemoryOS.MessageIntent

variable (unicode : Unicode)

-- ====== statement vocabulary

/-- A text begins with a phrase, and no word goes on after it. -/
def beginsWhole (phrase text : Text) : Bool :=
  phrase.isPrefixOf text && (text.drop phrase.length).head?.all fun c =>
    !unicode.isWord c

/-- A clause asks: it ends in the mark, or what it opens with is a whole
interrogative, a whole query phrase, or an auxiliary and its subject. -/
inductive Asks (clause : Text) : Prop
  | mark (h : (strip clause).getLast? = some '?')
  | interrogative (first : String) (rest : List String)
      (hwords : (words (opening unicode clause)).map String.ofList
        = first :: rest)
      (h : first ∈ interrogative)
  | query (phrase : String) (hphrase : phrase ∈ queryImperative)
      (h : beginsWhole unicode phrase.toList (opening unicode clause) = true)
  | auxiliary (first second : String) (rest : List String)
      (hwords : (words (opening unicode clause)).map String.ofList
        = first :: second :: rest)
      (hfirst : first ∈ auxiliary) (hsecond : second ∈ subject)

/-- A clause does not ask, and opens with a query phrase that runs on. -/
structure RunsOn (clause : Text) : Prop where
  phrase : ∃ phrase ∈ queryImperative,
    phrase.toList.isPrefixOf (opening unicode clause) = true
  exclamatory : exclamatory unicode (strip clause) = false
  asks : ¬Asks unicode clause

/-- A text is not taken for a question while it says something that does not
ask, and no line can be added to it that does. -/
structure Kept (text : Text) : Prop where
  asked : classify unicode text = .question →
    ∀ c ∈ clauses text, isSubstantial c = true → Asks unicode c
  stored : ∀ before line after,
    text = ['\n'].intercalate (before ++ line :: after) → OneClause line →
      isSubstantial line = true → ¬Asks unicode line →
        classify unicode text ≠ .question

/-- Where a clause runs a phrase on, another clause is no question. -/
def Spared (text : Text) : Prop :=
  (∃ c ∈ clauses text, isSubstantial c = true ∧ RunsOn unicode c) →
    ∃ c ∈ clauses text, isSubstantial c = true ∧ isQuestion unicode c = false
-- ======= questions

section
variable {unicode} {text c line : Text} {x : Char}

theorem opening_strip : opening unicode (strip c) = opening unicode c := by
  unfold opening
  rw [strip_strip]

theorem opening_congr (h : strip c = strip line) :
    opening unicode c = opening unicode line := by
  rw [← opening_strip, h, opening_strip]

theorem isSubstantial_congr (h : strip c = strip line) :
    isSubstantial c = isSubstantial line := by
  unfold isSubstantial
  rw [← words_strip c, h, words_strip]

theorem Asks.congr (h : strip c = strip line) (hc : Asks unicode c) :
    Asks unicode line := by
  have hopening := @opening_congr unicode _ _ h
  cases hc with
  | mark hmark => exact .mark (h ▸ hmark)
  | interrogative first rest hwords hfirst =>
    exact .interrogative first rest (hopening ▸ hwords) hfirst
  | query phrase hphrase hbegins =>
    exact .query phrase hphrase (hopening ▸ hbegins)
  | auxiliary first second rest hwords hfirst hsecond =>
    exact .auxiliary first second rest (hopening ▸ hwords) hfirst hsecond

theorem asks_or_runsOn (h : isQuestion unicode c = true) :
    Asks unicode c ∨ RunsOn unicode c := by
  by_cases hasks : Asks unicode c
  · exact .inl hasks
  · right
    unfold isQuestion at h
    dsimp only at h
    rw [opening_strip] at h
    split at h
    case isTrue => cases h
    case isFalse =>
      split at h
      case isTrue hmark => exact absurd (.mark (beq_iff_eq.1 hmark)) hasks
      case isFalse =>
        split at h
        case isTrue => cases h
        case isFalse hexclamatory =>
          split at h
          case h_1 => cases h
          case h_2 first rest hwords =>
            rw [Bool.or_eq_true, Bool.or_eq_true] at h
            rcases h with (h | h) | h
            · exact absurd (.interrogative first rest hwords (of_decide_eq_true h))
                hasks
            · obtain ⟨phrase, hphrase, hbegins⟩ := List.any_eq_true.1 h
              exact ⟨⟨phrase, hphrase, hbegins⟩,
                Bool.eq_false_iff.2 hexclamatory,
                hasks⟩
            · rw [Bool.and_eq_true, decide_eq_true_eq] at h
              obtain ⟨hfirst, h⟩ := h
              cases rest with
              | nil => cases h
              | cons second rest =>
                exact absurd (.auxiliary first second rest hwords hfirst
                  (of_decide_eq_true h)) hasks

theorem wordsFrom_ne_nil {word : Text} (h : word ≠ []) :
    wordsFrom word text ≠ [] := by
  induction text generalizing word with
  | nil => simp [wordsFrom, h]
  | cons c rest ih =>
    rw [wordsFrom]
    split
    case isTrue => simp [h]
    case isFalse => exact ih (List.cons_ne_nil _ _)

theorem words_ne_nil (h : isSpace x = false) : words (x :: text) ≠ [] := by
  unfold words
  rw [wordsFrom, if_neg (by simp [h])]
  exact wordsFrom_ne_nil (List.cons_ne_nil _ _)

theorem phrase_head {phrase : String} (h : phrase ∈ queryImperative) :
    ∃ x rest, phrase.toList = x :: rest ∧ isSpace x = false := by
  have hall : queryImperative.all (fun phrase =>
      phrase.toList.head?.any fun x => !isSpace x) = true := by decide
  have hhead := List.all_eq_true.1 hall phrase h
  cases hphrase : phrase.toList with
  | nil =>
    rw [hphrase] at hhead
    cases hhead
  | cons x rest =>
    rw [hphrase] at hhead
    exact ⟨x, rest, rfl, by simpa using hhead⟩

theorem RunsOn.isQuestion (h : RunsOn unicode c) (hblank : isBlank c = false) :
    isQuestion unicode c = true := by
  obtain ⟨phrase, hphrase, hbegins⟩ := h.phrase
  obtain ⟨x, rest, hx, hspace⟩ := phrase_head hphrase
  have hopens : words (opening unicode c) ≠ [] := by
    obtain ⟨after, hafter⟩ := List.isPrefixOf_iff_prefix.1 hbegins
    rw [← hafter, hx, List.cons_append]
    exact words_ne_nil hspace
  unfold MessageIntent.isQuestion
  dsimp only
  rw [opening_strip, if_neg (by simpa [isBlank] using hblank)]
  split
  case isTrue => rfl
  case isFalse =>
    rw [if_neg (by simp [h.exclamatory])]
    split
    case h_1 hwords => exact absurd (List.map_eq_nil_iff.1 hwords) hopens
    case h_2 =>
      rw [Bool.or_eq_true, Bool.or_eq_true]
      exact .inl (.inr (List.any_eq_true.2 ⟨phrase, hphrase, hbegins⟩))

theorem classify_question : classify unicode text = .question
    ↔ (∃ c ∈ clauses text, isQuestion unicode c = true)
      ∧ ∀ c ∈ clauses text, isSubstantial c = true →
          isQuestion unicode c = true := by
  show (if !(clauses text).any (isQuestion unicode) then MessageIntent.statement
    else if (clauses text).any fun c => !isQuestion unicode c && isSubstantial c
      then .both else .question) = .question ↔ _
  rw [← List.any_eq_true]
  split
  case isTrue hnone => simp_all
  case isFalse hsome =>
    rw [Bool.not_eq_true, Bool.not_eq_false'] at hsome
    rw [hsome]
    split
    case isTrue hclaim =>
      obtain ⟨c, hc, h⟩ := List.any_eq_true.1 hclaim
      rw [Bool.and_eq_true, Bool.not_eq_true'] at h
      refine iff_of_false MessageIntent.noConfusion fun hall => ?_
      rw [hall.2 c hc h.2] at h
      cases h.1
    case isFalse hclaim =>
      refine iff_of_true rfl ⟨rfl, fun c hc hsubstantial => ?_⟩
      by_contra hquestion
      exact hclaim (List.any_eq_true.2 ⟨c, hc,
        by simp [hquestion, hsubstantial]⟩)

end
-- ====== what is kept

/-- A text keeps what it claims exactly where no clause of it that runs a phrase
on is all there is. -/
theorem kept_iff (text : Text) : Kept unicode text ↔ Spared unicode text := by
  constructor
  · rintro h ⟨c, hc, hsubstantial, hruns⟩
    by_contra hnone
    push Not at hnone
    apply hruns.asks
    refine h.asked (classify_question.2 ⟨⟨c, hc, ?_⟩, fun d hd hd' => ?_⟩) c hc
      hsubstantial
    · exact hruns.isQuestion (not_blank_of_substantial hsubstantial)
    · exact (Bool.not_eq_false _).mp (hnone d hd hd')
  · intro h
    have hasked : classify unicode text = .question →
        ∀ c ∈ clauses text, isSubstantial c = true → Asks unicode c := by
      intro hquestion c hc hsubstantial
      obtain ⟨-, hall⟩ := classify_question.1 hquestion
      rcases asks_or_runsOn (hall c hc hsubstantial) with hasks | hruns
      · exact hasks
      · obtain ⟨d, hd, hd', hnot⟩ := h ⟨c, hc, hsubstantial, hruns⟩
        rw [hall d hd hd'] at hnot
        cases hnot
    refine ⟨hasked, ?_⟩
    rintro before line after rfl hone hsubstantial hasks hquestion
    obtain ⟨c, hc, hstrip⟩ := @exists_clause before after line hone
      (not_blank_of_substantial hsubstantial)
    have hc' : isSubstantial c = true :=
      (isSubstantial_congr hstrip).trans hsubstantial
    exact hasks ((hasked hquestion c hc hc').congr hstrip)

-- ------- listening

/-- Listening is not listing. -/
def listening : Text := "listening to music helps me".toList

theorem not_asks : ¬Asks .ascii listening := by
  intro h
  cases h with
  | mark hmark => exact absurd hmark (by decide +kernel)
  | interrogative first rest hwords hfirst =>
    have hhead : ((words (opening .ascii listening)).map String.ofList).head?.all
        (fun w => decide (w ∉ MessageIntent.interrogative)) = true := by
      decide +kernel
    rw [hwords] at hhead
    exact absurd hfirst (of_decide_eq_true hhead)
  | query phrase hphrase hbegins =>
    have hall : queryImperative.all (fun phrase =>
        !beginsWhole .ascii phrase.toList (opening .ascii listening))
          = true := by
      decide +kernel
    have hnone := List.all_eq_true.1 hall phrase hphrase
    rw [hbegins] at hnone
    cases hnone
  | auxiliary first second rest hwords hfirst =>
    have hhead : ((words (opening .ascii listening)).map String.ofList).head?.all
        (fun w => decide (w ∉ MessageIntent.auxiliary)) = true := by
      decide +kernel
    rw [hwords] at hhead
    exact absurd hfirst (of_decide_eq_true hhead)

theorem not_kept : ¬∀ text, Kept .ascii text := by
  intro h
  have hclause : listening ∈ clauses listening := by decide +kernel
  exact not_asks ((h listening).asked (by decide +kernel) listening hclause
    (by decide +kernel))

end MemoryOS.MessageIntent
