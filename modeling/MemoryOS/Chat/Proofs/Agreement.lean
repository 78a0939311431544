/-
When an inline and a streamed answer agree.

# The result

`agree_iff`: for a question that is sent, the two ways give the model the
same question and turns, leave the same turn, and present no withdrawn draft
as an answer, exactly when either neither search finds a passage, or the
session's count does not reach past the question, cutting at it loses
nothing, and what the model says cites nothing.

The count is one past the question unless a turn was deleted for good, so
`/chat/ask` reads the question among the turns before it; its row has no
citations; and the inline way keeps a draft the stream withdraws.
-/
import MemoryOS.Chat.Answering
import MemoryOS.Chat.Proofs.Remembered

namespace MemoryOS

open Lib Grounding

namespace Chat

-- ====== statement vocabulary

/-- The rows `_history` reads. -/
def rowsRead (db : Db) (sessionId : Id) (before : Nat) : List ChatMessage :=
  (newestFirst (turnsBefore db sessionId before)).take
    (defaultHistoryTurns * 2)

/-- What `history_for` cuts at. -/
def countOf (db : Db) (sessionId : Id) : Nat :=
  match sessionOf db sessionId with
  | none => 0
  | some record => record.messageCount

/-- The turns before an ordinal, as a call carries them. -/
def turnsBelow (db : Db) (user : ChatMessage) (before : Nat) :
    List ConversationTurn :=
  recent (history db user.sessionId before defaultHistoryTurns)

/-- A draft that cites what it was not given is not what the turn says. -/
def Honest (e : Exchanged) : Prop :=
  ∀ draft answer, e.draft = some draft → e.recorded = some answer →
    draft.hallucinatedIndices ≠ [] → answer.content ≠ draft.text

/-- The two ways agree on a question. -/
structure Agree (s : AnswerSetup) (db : Db) (user : ChatMessage) : Prop where
  /-- The model is given the same question and the same turns. -/
  given : ((answerInline s db user).call.map fun c => (c.question, c.turns))
    = (answerStreamed s db user).call.map fun c => (c.question, c.turns)
  /-- The question is not one of them. -/
  apart : (answerInline s db user).call.isSome →
    user ∉ rowsRead db user.sessionId user.ordinal
  apart' : (answerStreamed s db user).call.isSome →
    user ∉ rowsRead db user.sessionId (countOf db user.sessionId)
  /-- The same turn is left. -/
  recorded : ((answerInline s db user).recorded.map fun a =>
      (a.content, a.citations, a.refused))
    = (answerStreamed s db user).recorded.map fun a =>
      (a.content, a.citations, a.refused)
  honest : Honest (answerInline s db user)
  honest' : Honest (answerStreamed s db user)

/-- The passage numbers a text cites. -/
def cites (s : AnswerSetup) (text : Text) : List Nat :=
  (sentencesOf text).flatMap (indices s.script)

/-- The searches fail, or find no passage. -/
def FindsNothing (s : AnswerSetup) (question : Text)
    (turns turns' : List ConversationTurn) : Prop :=
  (∃ e e', retrieve s defaultK question turns = .error e
      ∧ retrieve s defaultK question turns' = .error e')
    ∨ ∃ c c', retrieve s defaultK question turns = .ok c
      ∧ retrieve s defaultK question turns' = .ok c'
      ∧ c.passages = [] ∧ c'.passages = []

/-- What makes the two ways one. -/
structure Undisturbed (s : AnswerSetup) (db : Db) (user : ChatMessage) :
    Prop where
  /-- The count does not reach past the question. -/
  count : countOf db user.sessionId ≤ user.ordinal
  /-- It cuts no turn off. -/
  turns : turnsBelow db user (countOf db user.sessionId)
    = turnsBelow db user user.ordinal
  /-- The model fails, or cites nothing. -/
  plain : ∀ context, retrieve s defaultK user.content
      (turnsBelow db user user.ordinal) = .ok context →
    context.passages ≠ [] →
    let said := s.reply (ModelCall.prompt
      ⟨context.passages, user.content, turnsBelow db user user.ordinal⟩)
    said.2.isSome ∨ cites s said.1.flatten = []

-- ======= citations

variable {s : AnswerSetup} {db : Db} {user : ChatMessage}

variable {text : Text} {context : AssembledContext} {pieces : List Text}
  {ports : ChatPorts} {sessionId : Option Id} {now clock : Timestamp}

theorem cites_eq_nil (h : ∀ c ∈ text, opensCitation c = false) :
    cites s text = [] := by
  unfold cites
  rw [List.flatMap_eq_nil_iff]
  intro sentence hsentence
  have hbegins : (citation s.script).Begins fun c => opensCitation c = true :=
    (Matcher.begins_char opensCitation).andThen _
  unfold indices
  rw [Matcher.findall_eq_nil hbegins]
  · rfl
  · intro c hc
    obtain ⟨piece, hpiece, rfl⟩ :=
      List.mem_map.1 (List.mem_filter.1 hsentence).1
    have hmem : c ∈ text :=
      mem_of_mem_strip (Matcher.mem_of_mem_split hpiece (mem_of_mem_strip hc))
    rw [h c hmem]
    exact Bool.false_ne_true

theorem verified (text : Text) (valid : List Nat) :
    (verifyCitations s.script text valid).hallucinatedIndices
        = (((cites s text).filter fun i => decide (i ∉ valid)).dedup
          ).insertionSort (· ≤ ·)
      ∧ (verifyCitations s.script text valid).citedIndices
        = (cites s text).filter fun i => decide (i ∈ valid) := by
  unfold verifyCitations cites
  by_cases hempty : (strip text).isEmpty = true
  · have hnone : sentencesOf text = [] := by
      unfold sentencesOf
      rw [List.isEmpty_iff.1 hempty]
      rfl
    dsimp only
    rw [if_pos hempty, hnone]
    exact ⟨rfl, rfl⟩
  · dsimp only
    rw [if_neg hempty]
    exact ⟨rfl, rfl⟩

theorem verified_nothing_iff (valid : List Nat) :
    (verifyCitations s.script text valid).hallucinatedIndices = []
        ∧ (verifyCitations s.script text valid).citedIndices = []
      ↔ cites s text = [] := by
  rw [(verified text valid).1, (verified text valid).2,
    ← List.length_eq_zero_iff, List.length_insertionSort,
    List.length_eq_zero_iff, List.dedup_eq_nil, List.filter_eq_nil_iff,
    List.filter_eq_nil_iff]
  constructor
  · rintro ⟨hout, hin⟩
    rw [List.eq_nil_iff_forall_not_mem]
    intro i hi
    exact hout i hi (decide_eq_true fun hvalid => hin i hi
      (decide_eq_true hvalid))
  · intro hnone
    rw [hnone]
    exact ⟨fun _ h => absurd h List.not_mem_nil,
      fun _ h => absurd h List.not_mem_nil⟩

theorem hallucinated_eq_nil {valid : List Nat}
    (h : cites s text = []) :
    (verifyCitations s.script text valid).hallucinatedIndices = [] :=
  ((verified_nothing_iff valid).2 h).1

theorem opens_none (h : (text.all fun c => !opensCitation c) = true) :
    ∀ c ∈ text, opensCitation c = false := fun c hc =>
  (Bool.not_eq_true' _).mp (List.all_eq_true.1 h c hc)

theorem cites_refusal : cites s refusalWithoutContext = [] :=
  cites_eq_nil (opens_none (by rfl))

theorem mem_intersperse {α : Type} {sep x : α} {l : List α}
    (h : x ∈ l.intersperse sep) : x = sep ∨ x ∈ l := by
  induction l with
  | nil => cases h
  | cons a rest ih =>
    cases rest with
    | nil => exact .inr h
    | cons b rest =>
      rw [List.intersperse_cons_cons] at h
      rcases List.mem_cons.1 h with rfl | h
      · exact .inr (List.mem_cons_self ..)
      · rcases List.mem_cons.1 h with rfl | h
        · exact .inl rfl
        · exact (ih h).imp id (List.mem_cons_of_mem a)

theorem cites_withdrawal (hallucinated : List Nat) :
    cites s (withdrawal hallucinated) = [] := by
  have hstart : ∀ c ∈ "This answer cited passages that were never retrieved ("
      |>.toList, opensCitation c = false := opens_none (by rfl)
  have hend : ∀ c ∈ "), so it has been withdrawn. Nothing here supports it."
      |>.toList, opensCitation c = false := opens_none (by rfl)
  have hcomma : ∀ c ∈ ", ".toList, opensCitation c = false :=
    opens_none (by rfl)
  have hdigits : ∀ n : Nat, ∀ c ∈ (toString n).toList,
      opensCitation c = false := by
    intro n c hc
    have hdigit : c.isDigit = true :=
      Nat.isDigit_of_mem_toDigits (by decide) (Nat.le_refl 10)
        (Nat.toList_repr ▸ hc)
    rw [Bool.eq_false_iff]
    intro hopens
    rcases Bool.or_eq_true_iff.1 hopens with heq | heq
    · rw [eq_of_beq heq] at hdigit
      exact absurd hdigit (by decide)
    · rw [eq_of_beq heq] at hdigit
      exact absurd hdigit (by decide)
  refine cites_eq_nil fun c hc => ?_
  unfold withdrawal at hc
  rcases List.mem_append.1 hc with hc | hc
  · rcases List.mem_append.1 hc with hc | hc
    · exact hstart c hc
    · obtain ⟨piece, hpiece, hc⟩ := List.mem_flatten.1 hc
      rcases mem_intersperse hpiece with rfl | hpiece
      · exact hcomma c hc
      · obtain ⟨n, -, rfl⟩ := List.mem_map.1 hpiece
        exact hdigits n c hc
  · exact hend c hc

-- ======== passages

theorem passage_chunks {hits : List MemoryHit} {p : Passage}
    (hp : p ∈ (assembleContext s hits).passages) :
    p.hit.matchedChunks ≠ [] := by
  suffices hfold : ∀ context : AssembledContext,
      (∀ p ∈ context.passages, p.hit.matchedChunks ≠ []) →
      ∀ p ∈ (hits.foldl (assembleHit s) context).passages,
        p.hit.matchedChunks ≠ [] from
    hfold {} (fun _ h => absurd h List.not_mem_nil) p hp
  clear hp
  induction hits with
  | nil => exact fun _ h => h
  | cons hit hits ih =>
    intro context hcontext
    refine ih (assembleHit s context hit) fun q hq => ?_
    unfold assembleHit at hq
    dsimp only at hq
    split at hq
    case isTrue => exact hcontext q hq
    case isFalse htext =>
      split at hq
      case isTrue => exact hcontext q hq
      case isFalse =>
        rcases List.mem_append.1 hq with hq | hq
        · exact hcontext q hq
        · obtain rfl := List.mem_singleton.1 hq
          intro hnone
          refine htext ?_
          unfold bestText bestChunk
          rw [show hit.matchedChunks = [] from hnone]
          rfl

theorem citations_eq_nil_iff (s : AnswerSetup) (db : Db)
    (hits : List MemoryHit) (text : Text) :
    citationsOf (resolve db (assembleContext s hits) (verifyCitations s.script
        text (assembleContext s hits).validIndices)) = []
      ↔ (verifyCitations s.script text
        (assembleContext s hits).validIndices).citedIndices = [] := by
  have hvalid :=
    (verified (s := s) text (assembleContext s hits).validIndices).2
  generalize verifyCitations s.script text
    (assembleContext s hits).validIndices = verification at *
  refine ⟨fun h => ?_, fun h => ?_⟩
  · by_contra hne
    obtain ⟨i, hi⟩ := List.exists_mem_of_ne_nil _ hne
    have hnumber : i ∈ (assembleContext s hits).validIndices := by
      rw [hvalid] at hi
      exact of_decide_eq_true (List.mem_filter.1 hi).2
    obtain ⟨p, hp, hpi⟩ := List.mem_map.1 hnumber
    obtain ⟨found, hfound⟩ : ∃ found,
        (assembleContext s hits).passage i = some found :=
      Option.isSome_iff_exists.1 (List.find?_isSome.2
        ⟨p, hp, decide_eq_true hpi⟩)
    have hchunks := passage_chunks (List.mem_of_find?_eq_some hfound)
    obtain ⟨chunk, rest, hchunk⟩ := List.exists_cons_of_ne_nil hchunks
    have hhit : found.hit ∈ ((verification.citedIndices.dedup.insertionSort
        (· ≤ ·)).filterMap (assembleContext s hits).passage).map Passage.hit :=
      List.mem_map.2 ⟨found, List.mem_filterMap.2
        ⟨i, (List.mem_insertionSort _).2 (List.mem_dedup.2 hi), hfound⟩, rfl⟩
    have hkept : citationOf db found.hit chunk ∈ citationsOf (resolve db
        (assembleContext s hits) verification) := by
      refine List.mem_flatMap.2 ⟨_, List.mem_map.2 ⟨found.hit, hhit, rfl⟩, ?_⟩
      rw [hchunk]
      exact List.mem_cons_self ..
    rw [h] at hkept
    cases hkept
  · unfold resolve citationsOf explainHits
    rw [h]
    rfl

-- ========== events

theorem finalOf_done (events : List StreamEvent) (payload : DonePayload) :
    finalOf (events ++ [.done payload]) = some payload := by
  unfold finalOf
  rw [List.foldl_append]
  rfl

theorem finalOf_none {events : List StreamEvent}
    (h : ∀ payload, .done payload ∉ events) : finalOf events = none := by
  unfold finalOf
  induction events with
  | nil => rfl
  | cons event rest ih =>
    rw [List.foldl_cons]
    cases event with
    | done payload => exact absurd (List.mem_cons_self ..) (h payload)
    | _ => exact ih fun payload hp => h payload (List.mem_cons_of_mem _ hp)

-- ============ rows

theorem mem_rowsRead_iff (hmem : user ∈ turnsOf db user.sessionId)
    (hlast : ∀ m ∈ turnsOf db user.sessionId,
      m = user ∨ m.ordinal < user.ordinal)
    (before : Nat) :
    user ∈ rowsRead db user.sessionId before ↔ user.ordinal < before := by
  unfold rowsRead
  constructor
  · intro h
    have h := (List.perm_insertionSort _ _).mem_iff.1 (List.mem_of_mem_take h)
    exact of_decide_eq_true (List.mem_filter.1 h).2
  · intro hlt
    have hbefore : user ∈ turnsBefore db user.sessionId before :=
      List.mem_filter.2 ⟨hmem, decide_eq_true hlt⟩
    have hsorted := List.pairwise_insertionSort
      (fun a b : ChatMessage => b.ordinal ≤ a.ordinal)
      (turnsBefore db user.sessionId before)
    have hin : user ∈ newestFirst (turnsBefore db user.sessionId before) :=
      (List.mem_insertionSort _).2 hbefore
    have hall : ∀ m ∈ newestFirst (turnsBefore db user.sessionId before),
        m ∈ turnsOf db user.sessionId := fun m hm =>
      (List.mem_filter.1 ((List.mem_insertionSort _).1 hm)).1
    match hrows : newestFirst (turnsBefore db user.sessionId before) with
    | [] =>
      rw [hrows] at hin
      cases hin
    | first :: rest =>
      have hsorted : List.Pairwise (fun a b : ChatMessage =>
          b.ordinal ≤ a.ordinal) (first :: rest) := hrows ▸ hsorted
      rw [hrows] at hin hall
      rcases List.mem_cons.1 hin with heq | hrest
      · rw [heq]
        exact List.mem_cons_self ..
      · have hle := (List.pairwise_cons.1 hsorted).1 user hrest
        rcases hlast first (hall first (List.mem_cons_self ..)) with heq | hlt
        · rw [← heq]
          exact List.mem_cons_self ..
        · exact absurd hle (Nat.not_le.2 hlt)

-- ====== the common path

/-- What both ways do, up to what they write. -/
def exchanged (s : AnswerSetup) (db : Db) (question : Text)
    (turns : List ConversationTurn)
    (present : Text → VerificationResult → List (List ChatCitation) → Answer) :
    Exchanged :=
  match retrieve s defaultK question turns with
  | .error _ => ⟨none, none, none⟩
  | .ok context =>
    if context.passages.isEmpty then
      let v := verifyCitations s.script refusalWithoutContext []
      ⟨none, some ⟨refusalWithoutContext, v.hallucinatedIndices⟩,
        some (present refusalWithoutContext v [])⟩
    else
      let call := ⟨context.passages, question, turns⟩
      match s.reply call.prompt with
      | (_, some _) => ⟨some call, none, none⟩
      | (pieces, none) =>
        let v := verifyCitations s.script pieces.flatten
          context.validIndices
        ⟨some call, some ⟨pieces.flatten, v.hallucinatedIndices⟩,
          some (present pieces.flatten v (resolve db context v))⟩

/-- The inline way writes the draft and its citations. -/
def presentInline (s : AnswerSetup) (text : Text) (v : VerificationResult)
    (citations : List (List ChatCitation)) : Answer :=
  ⟨text, s.modelId, v.isRefusal, citationsOf citations⟩

/-- The stream's end is written without citations, and withdrawn if need
be. -/
def presentStreamed (s : AnswerSetup) (text : Text) (v : VerificationResult)
    (_citations : List (List ChatCitation)) : Answer :=
  ⟨if v.hallucinatedIndices.isEmpty then text
    else withdrawal v.hallucinatedIndices, s.modelId, v.isRefusal, []⟩

theorem answerInline_eq (s : AnswerSetup) (db : Db) (user : ChatMessage) :
    answerInline s db user = exchanged s db user.content
      (turnsBelow db user user.ordinal) (presentInline s) := by
  unfold answerInline answerQuestion exchanged turnsBelow
  dsimp only
  cases retrieve s defaultK user.content
      (recent (history db user.sessionId user.ordinal defaultHistoryTurns)) with
  | error e => rfl
  | ok context =>
    dsimp only
    by_cases hempty : context.passages.isEmpty = true
    · rw [if_pos hempty, if_pos hempty]
      rfl
    · rw [if_neg hempty, if_neg hempty]
      generalize s.reply _ = said
      obtain ⟨pieces, _ | e⟩ := said
      · rfl
      · rfl

theorem historyFor_eq (db : Db) (sessionId : Id) (turns : Nat) :
    historyFor db (some sessionId) turns
      = history db sessionId (countOf db sessionId) turns := by
  cases hsession : sessionOf db sessionId with
  | none =>
    have hcount : countOf db sessionId = 0 := by
      unfold countOf
      rw [hsession]
    have hnone : turnsBefore db sessionId 0 = [] :=
      List.filter_eq_nil_iff.2 fun m _ => by simp
    unfold historyFor history
    rw [hcount, hnone]
    simp [hsession, newestFirst, fold]
  | some record =>
    have hcount : countOf db sessionId = record.messageCount := by
      unfold countOf
      rw [hsession]
    unfold historyFor
    rw [hcount]
    simp only [hsession]

theorem getD_replacement (v : VerificationResult) (text : Text) :
    (if v.hallucinatedIndices.isEmpty then none
      else some (withdrawal v.hallucinatedIndices)).getD text
      = if v.hallucinatedIndices.isEmpty then text
        else withdrawal v.hallucinatedIndices := by
  split
  case isTrue => rfl
  case isFalse => rfl

theorem answerStreamed_eq (s : AnswerSetup) (db : Db) (user : ChatMessage) :
    answerStreamed s db user = exchanged s db user.content
      (turnsBelow db user (countOf db user.sessionId)) (presentStreamed s) := by
  unfold answerStreamed askRoute stream exchanged turnsBelow
  rw [historyFor_eq]
  dsimp only
  rw [show max 1 (min defaultK 50) = defaultK from rfl]
  cases retrieve s defaultK user.content (recent (history db user.sessionId
      (countOf db user.sessionId) defaultHistoryTurns)) with
  | error e => rfl
  | ok context =>
    dsimp only
    by_cases hempty : context.passages.isEmpty = true
    · rw [if_pos hempty, if_pos hempty]
      simp only [finalOf, List.foldl_cons, List.foldl_nil, Option.map_some,
        donePayload, getD_replacement]
      rfl
    · rw [if_neg hempty, if_neg hempty]
      generalize s.reply _ = said
      obtain ⟨pieces, _ | e⟩ := said
      · simp only [finalOf_done, Option.map_some, donePayload,
          getD_replacement]
        rfl
      · have hnone : finalOf ([StreamEvent.retrievalStarted user.content
            defaultK, .retrievalDone context.passages.length
              context.dropped.length] ++ pieces.map .token
            ++ [.error e "generation"]) = none :=
          finalOf_none fun payload => by simp
        simp only [hnone]
        rfl

-- ====== the theorem

section

variable {question : Text} {turns : List ConversationTurn}
  {present : Text → VerificationResult → List (List ChatCitation) → Answer}

theorem exchanged_error {e : String}
    (h : retrieve s defaultK question turns = .error e) :
    exchanged s db question turns present = ⟨none, none, none⟩ := by
  unfold exchanged
  rw [h]

theorem exchanged_empty (h : retrieve s defaultK question turns = .ok context)
    (hempty : context.passages = []) :
    exchanged s db question turns present =
      ⟨none, some ⟨refusalWithoutContext, []⟩, some (present
        refusalWithoutContext
        (verifyCitations s.script refusalWithoutContext []) [])⟩ := by
  unfold exchanged
  rw [h]
  dsimp only
  rw [if_pos (List.isEmpty_iff.2 hempty), hallucinated_eq_nil cites_refusal]

variable {context : AssembledContext}
  (h : retrieve s defaultK question turns = .ok context)
  (hne : context.passages ≠ [])

include h hne

theorem exchanged_failed {e : String}
    (hsaid : s.reply (ModelCall.prompt ⟨context.passages, question, turns⟩)
      = (pieces, some e)) :
    exchanged s db question turns present =
      ⟨some ⟨context.passages, question, turns⟩, none, none⟩ := by
  unfold exchanged
  rw [h]
  dsimp only
  rw [if_neg (mt List.isEmpty_iff.1 hne), hsaid]

theorem exchanged_said
    (hsaid : s.reply (ModelCall.prompt ⟨context.passages, question, turns⟩)
      = (pieces, none)) :
    let v := verifyCitations s.script pieces.flatten context.validIndices
    exchanged s db question turns present =
      ⟨some ⟨context.passages, question, turns⟩,
        some ⟨pieces.flatten, v.hallucinatedIndices⟩,
        some (present pieces.flatten v (resolve db context v))⟩ := by
  unfold exchanged
  rw [h]
  dsimp only
  rw [if_neg (mt List.isEmpty_iff.1 hne), hsaid]

end

theorem exchanged_cases (s : AnswerSetup) (db : Db) (question : Text)
    (turns : List ConversationTurn)
    (present : Text → VerificationResult → List (List ChatCitation) →
      Answer) :
    let e := exchanged s db question turns present
    (∃ err, retrieve s defaultK question turns = .error err ∧ e.call = none
        ∧ e.recorded = none)
      ∨ (∃ c, retrieve s defaultK question turns = .ok c ∧ c.passages = []
        ∧ e.call = none ∧ e.recorded.isSome)
      ∨ ∃ c, retrieve s defaultK question turns = .ok c ∧ c.passages ≠ []
        ∧ e.call = some ⟨c.passages, question, turns⟩ := by
  cases hr : retrieve s defaultK question turns with
  | error err =>
    refine .inl ⟨err, rfl, ?_⟩
    rw [exchanged_error hr]
    exact ⟨rfl, rfl⟩
  | ok c =>
    by_cases hempty : c.passages = []
    · refine .inr (.inl ⟨c, rfl, hempty, ?_⟩)
      rw [exchanged_empty hr hempty]
      exact ⟨rfl, rfl⟩
    · refine .inr (.inr ⟨c, rfl, hempty, ?_⟩)
      cases hsaid : s.reply (ModelCall.prompt ⟨c.passages, question, turns⟩)
          with
      | mk pieces failure =>
        cases failure with
        | some err => rw [exchanged_failed hr hempty hsaid]
        | none => rw [exchanged_said hr hempty hsaid]

theorem retrieve_ok {question : Text} {turns : List ConversationTurn}
    (h : retrieve s defaultK question turns = .ok context) :
    ∃ hits, context = assembleContext s hits := by
  unfold retrieve at h
  cases hsearch : s.search defaultK (retrievalQuery s question turns) with
  | error e =>
    rw [hsearch] at h
    cases h
  | ok hits =>
    rw [hsearch] at h
    exact ⟨hits, (Except.ok.inj h).symm⟩

theorem withdrawal_ne {valid : List Nat}
    (h : (verifyCitations s.script text valid).hallucinatedIndices ≠ []) :
    withdrawal (verifyCitations s.script text valid).hallucinatedIndices
      ≠ text := by
  intro heq
  refine h (hallucinated_eq_nil ?_)
  rw [← heq]
  exact cites_withdrawal _

theorem honest_streamed (s : AnswerSetup) (db : Db) (question : Text)
    (turns : List ConversationTurn) :
    Honest (exchanged s db question turns (presentStreamed s)) := by
  intro draft answer hdraft hanswer hbad
  cases hr : retrieve s defaultK question turns with
  | error e =>
    rw [exchanged_error hr] at hdraft
    cases hdraft
  | ok context =>
    by_cases hempty : context.passages = []
    · rw [exchanged_empty hr hempty] at hdraft
      cases hdraft
      exact absurd rfl hbad
    · cases hsaid : s.reply (ModelCall.prompt
        ⟨context.passages, question, turns⟩) with
      | mk pieces failure =>
        cases failure with
        | some e =>
          rw [exchanged_failed hr hempty hsaid] at hdraft
          cases hdraft
        | none =>
          rw [exchanged_said hr hempty hsaid] at hdraft hanswer
          cases hdraft
          cases hanswer
          unfold presentStreamed
          dsimp only
          rw [if_neg (mt List.isEmpty_iff.1 hbad)]
          exact withdrawal_ne hbad

theorem agree_of_findsNothing
    (h : FindsNothing s user.content (turnsBelow db user user.ordinal)
      (turnsBelow db user (countOf db user.sessionId))) : Agree s db user := by
  have hhonest := honest_streamed s db user.content
    (turnsBelow db user (countOf db user.sessionId))
  rw [← answerStreamed_eq] at hhonest
  rcases h with ⟨e, e', he, he'⟩ | ⟨c, c', hc, hc', hempty, hempty'⟩
  · have hinline : answerInline s db user = ⟨none, none, none⟩ := by
      rw [answerInline_eq, exchanged_error he]
    have hstreamed : answerStreamed s db user = ⟨none, none, none⟩ := by
      rw [answerStreamed_eq, exchanged_error he']
    constructor
    case honest' => exact hhonest
    case honest =>
      rw [hinline]
      exact fun _ _ hdraft => (by cases hdraft)
    all_goals simp [hinline, hstreamed]
  · have hnone : (verifyCitations s.script refusalWithoutContext
        []).hallucinatedIndices = [] := hallucinated_eq_nil cites_refusal
    have hinline := answerInline_eq s db user
    rw [exchanged_empty hc hempty] at hinline
    have hstreamed := answerStreamed_eq s db user
    rw [exchanged_empty hc' hempty'] at hstreamed
    constructor
    case honest' => exact hhonest
    case honest =>
      rw [hinline]
      intro draft _ hdraft _ hbad
      cases hdraft
      exact absurd rfl hbad
    all_goals
      simp [hinline, hstreamed, presentInline, presentStreamed, hnone,
        citationsOf]

section

variable (hmem : user ∈ turnsOf db user.sessionId)
  (hlast : ∀ m ∈ turnsOf db user.sessionId,
    m = user ∨ m.ordinal < user.ordinal)

include hmem hlast

theorem agree_of_undisturbed (h : Undisturbed s db user) :
    Agree s db user := by
  have hapart : user ∉ rowsRead db user.sessionId user.ordinal := fun hin =>
    absurd ((mem_rowsRead_iff hmem hlast _).1 hin) (Nat.lt_irrefl _)
  have hapart' : user ∉ rowsRead db user.sessionId
      (countOf db user.sessionId) := fun hin =>
    absurd ((mem_rowsRead_iff hmem hlast _).1 hin) (Nat.not_lt.2 h.count)
  have hinline := answerInline_eq s db user
  have hstreamed := answerStreamed_eq s db user
  rw [h.turns] at hstreamed
  have hhonest := honest_streamed s db user.content
    (turnsBelow db user user.ordinal)
  rw [← hstreamed] at hhonest
  cases hr : retrieve s defaultK user.content
      (turnsBelow db user user.ordinal) with
  | error e =>
    exact agree_of_findsNothing (.inl ⟨e, e, hr, h.turns ▸ hr⟩)
  | ok context =>
    by_cases hempty : context.passages = []
    · exact agree_of_findsNothing
        (.inr ⟨context, context, hr, h.turns ▸ hr, hempty, hempty⟩)
    · have hplain := h.plain context hr hempty
      cases hsaid : s.reply (ModelCall.prompt ⟨context.passages,
          user.content, turnsBelow db user user.ordinal⟩) with
      | mk pieces failure =>
        cases failure with
        | some e =>
          rw [exchanged_failed hr hempty hsaid] at hinline hstreamed
          constructor
          case apart => exact fun _ => hapart
          case apart' => exact fun _ => hapart'
          case honest' => exact hhonest
          case honest =>
            rw [hinline]
            exact fun _ _ hdraft => (by cases hdraft)
          all_goals rw [hinline, hstreamed]
        | none =>
          rw [exchanged_said hr hempty hsaid] at hinline hstreamed
          dsimp only at hplain
          rw [hsaid] at hplain
          have hcites : cites s pieces.flatten = [] :=
            hplain.resolve_left (by simp)
          obtain ⟨hout, hin⟩ :=
            (verified_nothing_iff context.validIndices).2 hcites
          obtain ⟨hits, hhits⟩ := retrieve_ok hr
          have hcitations := (citations_eq_nil_iff s db hits _).2
            (hhits ▸ hin)
          rw [← hhits] at hcitations
          constructor
          case apart => exact fun _ => hapart
          case apart' => exact fun _ => hapart'
          case honest' => exact hhonest
          case honest =>
            rw [hinline]
            intro draft _ hdraft _ hbad
            cases hdraft
            exact absurd hout hbad
          case given => rw [hinline, hstreamed]
          case recorded =>
            rw [hinline, hstreamed]
            simp only [presentInline, presentStreamed, Option.map_some,
              hcitations, hout, List.isEmpty_nil, if_true]

theorem undisturbed_of_agree (h : Agree s db user) :
    FindsNothing s user.content (turnsBelow db user user.ordinal)
      (turnsBelow db user (countOf db user.sessionId))
      ∨ Undisturbed s db user := by
  obtain ⟨hgiven, -, hapart', hrecorded, -, -⟩ := h
  rw [answerInline_eq, answerStreamed_eq] at hgiven hrecorded
  rw [answerStreamed_eq] at hapart'
  rcases exchanged_cases s db user.content (turnsBelow db user user.ordinal)
    (presentInline s) with ⟨e, hr, hcall, hnone⟩ | ⟨c, hr, hempty, hcall, hsome⟩
      | ⟨c, hr, hne, hcall⟩
  · rw [hcall] at hgiven
    rw [hnone] at hrecorded
    refine .inl (.inl ?_)
    rcases exchanged_cases s db user.content (turnsBelow db user
      (countOf db user.sessionId)) (presentStreamed s) with
        ⟨e', hr', -⟩ | ⟨c', -, -, -, hsome'⟩ | ⟨c', -, -, hcall'⟩
    · exact ⟨e, e', hr, hr'⟩
    · rw [Option.map_none, eq_comm, Option.map_eq_none_iff] at hrecorded
      rw [hrecorded] at hsome'
      cases hsome'
    · rw [hcall'] at hgiven
      cases hgiven
  · rw [hcall] at hgiven
    refine .inl (.inr ?_)
    rcases exchanged_cases s db user.content (turnsBelow db user
      (countOf db user.sessionId)) (presentStreamed s) with
        ⟨e', -, -, hnone'⟩ | ⟨c', hr', hempty', -⟩ | ⟨c', -, -, hcall'⟩
    · rw [hnone', Option.map_none, Option.map_eq_none_iff] at hrecorded
      rw [hrecorded] at hsome
      cases hsome
    · exact ⟨c, c', hr, hr', hempty, hempty'⟩
    · rw [hcall'] at hgiven
      cases hgiven
  · refine .inr ?_
    rw [hcall] at hgiven
    rcases exchanged_cases s db user.content (turnsBelow db user
      (countOf db user.sessionId)) (presentStreamed s) with
        ⟨e', -, hcall', -⟩ | ⟨c', -, -, hcall', -⟩ | ⟨c', hr', hne', hcall'⟩
    · rw [hcall'] at hgiven
      cases hgiven
    · rw [hcall'] at hgiven
      cases hgiven
    · rw [hcall'] at hgiven hapart'
      have hturns : turnsBelow db user user.ordinal
          = turnsBelow db user (countOf db user.sessionId) :=
        (Prod.mk.inj (Option.some.inj hgiven)).2
      refine ⟨Nat.not_lt.1 fun hlt => hapart' rfl
        ((mem_rowsRead_iff hmem hlast _).2 hlt), hturns.symm, ?_⟩
      intro context hcontext _
      obtain rfl := Except.ok.inj (hr.symm.trans hcontext)
      rw [← hturns] at hrecorded
      dsimp only
      cases hsaid : s.reply (ModelCall.prompt
          ⟨c.passages, user.content, turnsBelow db user user.ordinal⟩) with
      | mk pieces failure =>
        cases failure with
        | some e => exact .inl rfl
        | none =>
          refine .inr ?_
          rw [exchanged_said hr hne hsaid, exchanged_said hr hne hsaid]
            at hrecorded
          have hsame : (¬ (verifyCitations s.script pieces.flatten
                c.validIndices).hallucinatedIndices = [] →
              pieces.flatten = withdrawal (verifyCitations s.script
                pieces.flatten c.validIndices).hallucinatedIndices)
            ∧ citationsOf (resolve db c (verifyCitations s.script
                pieces.flatten c.validIndices)) = [] := by
            simpa [presentInline, presentStreamed] using hrecorded
          obtain ⟨hits, hhits⟩ := retrieve_ok hr
          refine (verified_nothing_iff c.validIndices).1 ⟨?_, ?_⟩
          · by_contra hbad
            exact withdrawal_ne hbad (hsame.1 hbad).symm
          · have hcitations := hsame.2
            rw [hhits] at hcitations ⊢
            exact (citations_eq_nil_iff s db hits _).1 hcitations

end

theorem sendQuestion_turn {store store' : Store} {newSession : Bool}
    (h : sendQuestion ports store text sessionId newSession now clock
      = some (store', user)) :
    user ∈ turnsOf store'.db user.sessionId
      ∧ ∀ m ∈ turnsOf store'.db user.sessionId,
        m = user ∨ m.ordinal < user.ordinal := by
  unfold sendQuestion at h
  dsimp only at h
  split at h
  case isTrue => cases h
  case isFalse =>
    split at h
    case h_1 => cases h
    case h_2 sent hok =>
      cases h
      obtain ⟨hturned, -⟩ := appendUser_turned hok
      rw [hturned.turnsOf user.sessionId, if_pos rfl]
      refine ⟨List.mem_append_right _ (List.mem_singleton_self _),
        fun m hm => ?_⟩
      rcases List.mem_append.1 hm with hm | hm
      · exact .inr (hturned.ordinal ▸ ordinal_lt_next hm)
      · exact .inl (List.mem_singleton.1 hm)

theorem send_of_sendQuestion {store store' : Store} {newSession : Bool}
    (h : sendQuestion ports store text sessionId newSession now clock
      = some (store', user)) (answer : Option Answer) :
    send ports store text sessionId newSession true answer now clock
        = (store', none)
      ∧ send ports store text sessionId newSession false answer now clock
        = answerExchange store' user answer := by
  unfold sendQuestion at h
  unfold send
  dsimp only at h ⊢
  split at h
  case isTrue => cases h
  case isFalse hasks =>
    rw [not_or] at hasks
    rw [if_neg hasks.1, if_neg hasks.1]
    split at h
    case h_1 => cases h
    case h_2 sent hok =>
      cases h
      rw [hok]
      exact ⟨if_pos (.inr rfl), if_neg fun hor =>
        hor.elim hasks.2 Bool.false_ne_true⟩

/-- Inline and streamed answers agree on a question exactly when nothing is
found for it, or nothing sets them apart. -/
theorem agree_iff (ports : ChatPorts) (s : AnswerSetup) (store : Store)
    (text : Text) (sessionId : Option Id) (newSession : Bool)
    (now clock : Timestamp) :
    (∀ store' user, sendQuestion ports store text sessionId newSession now
        clock = some (store', user) → Agree s store'.db user)
      ↔ ∀ store' user, sendQuestion ports store text sessionId newSession now
        clock = some (store', user) →
        FindsNothing s user.content
            (turnsBelow store'.db user user.ordinal)
            (turnsBelow store'.db user (countOf store'.db user.sessionId))
          ∨ Undisturbed s store'.db user := by
  refine forall_congr' fun store' => forall_congr' fun user =>
    forall_congr' fun hsent => ?_
  obtain ⟨hmem, hlast⟩ := sendQuestion_turn hsent
  refine ⟨undisturbed_of_agree hmem hlast, fun h => ?_⟩
  rcases h with h | h
  · exact agree_of_findsNothing h
  · exact agree_of_undisturbed hmem hlast h

-- ------ the first question of a session

/-- One hit, whatever is searched for, and one answer. -/
def oneNote : AnswerSetup where
  script := .ascii
  search _ _ := .ok
    [{ memoryId := 1
       externalKey := "notes.md"
       sourceName := "notes"
       title := none
       kind := .note
       occurredAt := none
       occurredAtSource := .unknown
       score := 1
       matchedChunks :=
         [{ chunkId := 2
            memoryId := 1
            ordinal := 0
            text := "The rent is due on Monday.".toList
            score := 1
            charStart := 0
            charEnd := 26
            prefixChars := 0
            metadata := {} }] }]
  countTokens := List.length
  tokenBudget := 6000
  modelId := "m"
  reply _ := (["On Monday ".toList, "[1].".toList], none)

/-- The first question of a session is read among the turns before it. -/
def readsItself : Bool :=
  match sendQuestion tallies {} "What is due?".toList none false 1 1 with
  | none => false
  | some (store, user) =>
    (answerStreamed oneNote store.db user).call.isSome
      && decide (user ∈ rowsRead store.db user.sessionId
        (countOf store.db user.sessionId))

/-- The stream gives the model the question as a turn before itself. -/
theorem not_agree :
    ¬ ∀ (ports : ChatPorts) (s : AnswerSetup) (store : Store) (text : Text)
      (sessionId : Option Id) (newSession : Bool) (now clock : Timestamp)
      (store' : Store) (user : ChatMessage),
      sendQuestion ports store text sessionId newSession now clock
        = some (store', user) → Agree s store'.db user := by
  intro hall
  have hreads : readsItself = true := by decide +kernel
  unfold readsItself at hreads
  split at hreads
  case h_1 => cases hreads
  case h_2 store user hsent =>
    obtain ⟨hcall, hread⟩ := Bool.and_eq_true_iff.1 hreads
    exact (hall tallies oneNote {} _ none false 1 1 store user hsent).apart'
      hcall (of_decide_eq_true hread)

end Chat

end MemoryOS
