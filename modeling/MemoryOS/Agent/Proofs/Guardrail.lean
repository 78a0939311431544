/-
What the guardrail of an answer guarantees (`application/agent/verify.py`).

# The result

`guards_iff`: every hop that the answer cites and the trajectory does not have is
reported, the claims are the answer, the marks are all that marking adds, and one
more hop makes nothing worse, exactly when each such hop also stands in a citation
without a line break.

The citations are searched for sentence by sentence, as in `domain/grounding.py`, so
it is `Grounding.infix_pieces_iff` that says which are found. The rest needs no such
proviso.
-/
import MemoryOS.Agent.Proofs.Judging
import MemoryOS.Domain.Proofs.Citations

namespace MemoryOS

open Lib Matcher Computability

namespace Agent

open Grounding (Digits Separates numbersIn numbers splitSentences pieces
  separates_reflectionSentence)

variable {script : Script} {sqrt : ℚ → ℚ} {embedder : Embedder}
  {trajectory : Trajectory} {direct inferred minSupport : ℚ} {unresolved : List Text}
  {results : List ToolResult} {text : Text} {hop : Nat} {c d : Claim}

-- ====== statement vocabulary

/-- The hops of the citations without a line break. -/
def unbroken (script : Script) (text : Text) : List Nat :=
  (((citation script).findall text).filter fun found =>
    decide ('\n' ∉ found)).flatMap (numbersIn script)

/-- A text without its whitespace. -/
def unspaced (text : Text) : Text := text.filter fun c => !isSpace c

/-- How good a verdict is. -/
def Verdict.rank : Verdict → Nat
  | .ungrounded => 0
  | .partially => 1
  | .grounded => 2

/-- Nothing gets worse: the claims are the same, and what was supported still is, no
citation becomes invalid, and the verdict is no lower. -/
structure NoWorse (before after : VerificationResult) : Prop where
  claims : List.Forall₂ (fun c d => d.text = c.text
    ∧ d.sentenceIndex = c.sentenceIndex ∧ d.factual = c.factual
    ∧ (c.supported = true → d.supported = true)) before.claims after.claims
  invalid : ∀ hop ∈ after.invalidCitations, hop ∈ before.invalidCitations
  verdict : before.verdict.rank ≤ after.verdict.rank

/-- The guardrail misses nothing, marks what it should and nothing else, and one more
hop makes nothing worse. -/
structure Guards (script : Script) (sqrt : ℚ → ℚ) (trajectory : Trajectory)
    (embedder : Embedder) (direct inferred minSupport : ℚ) (unresolved : List Text)
    (result : VerificationResult) : Prop where
  missesNothing : ∀ hop ∈ cited script trajectory.text,
    validHop trajectory.acted hop = false → hop ∈ result.invalidCitations
  reproduces : unspaced ([' '].intercalate (result.claims.map (·.text)))
    = unspaced trajectory.text
  marks : ∀ marker, unspaced (result.marked trajectory.text marker)
    = result.claims.flatMap fun c => unspaced c.text
      ++ if c.factual = true ∧ c.supported = false then unspaced marker else []
  tightens : ∀ step, step.acted.isSome = true → ∀ after,
    verify script sqrt { trajectory with steps := trajectory.steps ++ [step] } embedder
      direct inferred minSupport unresolved = .ok after → NoWorse result after

-- ======== the hops

/-- The citations of hops. -/
def citations (script : Script) : Language Char :=
  oneOfClass (· == '[') * (numbers script * oneOfClass (· == ']'))

theorem recognises_citation (script : Script) :
    Recognises (citation script) (citations script) :=
  Grounding.recognises_bracketed script (· == '[') (· == ']')

theorem mem_grounding {found : Text} (h : found ∈ citations script) :
    found ∈ Grounding.citations script := by
  obtain ⟨u, ⟨first, hfirst, rfl⟩, v, hv, rfl⟩ := Language.mem_mul.1 h
  obtain ⟨body, hbody, w, ⟨last, hlast, rfl⟩, rfl⟩ := Language.mem_mul.1 hv
  refine Language.append_mem_mul ⟨first, ?_, rfl⟩
    (Language.append_mem_mul hbody ⟨last, ?_, rfl⟩)
  · rw [eq_of_beq hfirst]
    decide
  · rw [eq_of_beq hlast]
    decide

theorem mem_findall (hdigits : Digits script) {found : Text} :
    found ∈ (citation script).findall text
      ↔ found ∈ citations script ∧ found <:+: text :=
  ((Grounding.delimited_citations hdigits).mono fun _ => mem_grounding).mem_findall
    (recognises_citation script)

theorem mem_cited (hdigits : Digits script) :
    hop ∈ cited script text ↔ ∃ found ∈ citations script, found <:+: text
      ∧ hop ∈ numbersIn script found := by
  unfold cited
  rw [List.mem_flatMap]
  simp only [mem_findall hdigits, and_assoc]
  rfl

theorem mem_unbroken (hdigits : Digits script) :
    hop ∈ unbroken script text ↔ ∃ found ∈ citations script, found <:+: text
      ∧ '\n' ∉ found ∧ hop ∈ numbersIn script found := by
  unfold unbroken
  rw [List.mem_flatMap]
  simp only [List.mem_filter, mem_findall hdigits, decide_eq_true_eq, and_assoc]

theorem cited_sentence_iff (hdigits : Digits script) :
    (∃ s ∈ splitSentences text, hop ∈ citedSteps script s)
      ↔ hop ∈ unbroken script text := by
  simp only [citedSteps, List.mem_eraseDups, mem_cited hdigits,
    mem_unbroken hdigits]
  constructor
  · intro h
    obtain ⟨s, hs, found, hfound, hin, hhop⟩ := h
    obtain ⟨htext, hbreak⟩ := (Grounding.infix_pieces_iff
      separates_reflectionSentence hdigits (mem_grounding hfound)).1 ⟨s, hs, hin⟩
    exact ⟨found, hfound, htext, hbreak, hhop⟩
  · intro h
    obtain ⟨found, hfound, hin, hbreak, hhop⟩ := h
    obtain ⟨s, hs, hin⟩ := (Grounding.infix_pieces_iff separates_reflectionSentence
      hdigits (mem_grounding hfound)).2 ⟨hin, hbreak⟩
    exact ⟨s, hs, found, hfound, hin, hhop⟩

theorem unbroken_strip (hdigits : Digits script) :
    hop ∈ unbroken script (strip text) ↔ hop ∈ unbroken script text := by
  rw [mem_unbroken hdigits, mem_unbroken hdigits]
  exact exists_congr fun found => and_congr_right fun hfound =>
    and_congr_left fun _ => Grounding.citation_strip (mem_grounding hfound)

-- ====== the whitespace

theorem unspaced_append (a b : Text) :
    unspaced (a ++ b) = unspaced a ++ unspaced b := List.filter_append ..

theorem unspaced_dropWhile (text : Text) :
    unspaced (text.dropWhile isSpace) = unspaced text := by
  induction text with
  | nil => rfl
  | cons c rest ih =>
    rw [List.dropWhile_cons]
    split
    case isTrue hc =>
      rw [ih]
      unfold unspaced
      rw [List.filter_cons, hc]
      rfl
    case isFalse => rfl

theorem unspaced_reverse (text : Text) :
    unspaced text.reverse = (unspaced text).reverse := List.filter_reverse ..

theorem unspaced_strip (text : Text) : unspaced (strip text) = unspaced text := by
  unfold strip
  rw [unspaced_reverse, unspaced_dropWhile, unspaced_reverse, unspaced_dropWhile,
    List.reverse_reverse]

theorem unspaced_flatten (texts : List Text) :
    unspaced texts.flatten = texts.flatMap unspaced := by
  unfold unspaced
  rw [List.filter_flatten]
  rfl

theorem unspaced_intercalate (texts : List Text) :
    unspaced ([' '].intercalate texts) = texts.flatMap unspaced := by
  induction texts with
  | nil => rfl
  | cons t rest ih =>
    cases rest with
    | nil => simp [List.intercalate_singleton]
    | cons u rest =>
      have hspace : unspaced [' '] = [] := by decide
      rw [List.intercalate_cons_cons, unspaced_append, unspaced_append, ih, hspace,
        List.append_nil]
      rfl

theorem flatMap_nonempty (texts : List Text) :
    (texts.filter fun s => !s.isEmpty).flatMap unspaced = texts.flatMap unspaced := by
  induction texts with
  | nil => rfl
  | cons t rest ih =>
    rw [List.filter_cons, List.flatMap_cons]
    split
    case isTrue => rw [List.flatMap_cons, ih]
    case isFalse hempty =>
      have hnil : t = [] := by simpa using hempty
      rw [ih, hnil]
      rfl

theorem unspaced_sentences (text : Text) :
    (splitSentences text).flatMap unspaced = unspaced text := by
  unfold splitSentences
  rw [flatMap_nonempty, List.flatMap_map]
  simp only [unspaced_strip]
  rw [← unspaced_flatten]
  unfold unspaced
  rw [filter_flatten_split, ← unspaced, ← unspaced, unspaced_strip]
  intro prev rest r after hmatch
  obtain ⟨c, w, hrest, hspaces, -⟩ :=
    separates_reflectionSentence.spaces prev rest r after hmatch
  refine ⟨c, w, hrest, fun d hd => ?_⟩
  rw [hspaces d hd]
  rfl

-- ====== the claims

theorem nodup_classify (script : Script) (answer : Text) :
    ((classify script answer).map (·.sentenceIndex)).Nodup := by
  unfold classify
  rw [List.map_map]
  have hindices : ((splitSentences answer).zipIdx.map
      ((·.sentenceIndex) ∘ fun s => classified script s.1 s.2))
      = (splitSentences answer).zipIdx.map Prod.snd := rfl
  rw [hindices, List.zipIdx_map_snd]
  exact List.nodup_range'

theorem text_classify (script : Script) (answer : Text) :
    (classify script answer).map (·.text) = splitSentences answer := by
  unfold classify
  rw [List.map_map]
  exact List.zipIdx_map_fst ..

theorem cited_classify {answer : Text} :
    (∃ c ∈ classify script answer, hop ∈ c.citedSteps)
      ↔ ∃ s ∈ splitSentences answer, hop ∈ citedSteps script s := by
  constructor
  · intro h
    obtain ⟨c, hc, hhop⟩ := h
    obtain ⟨s, hs, rfl⟩ := List.mem_map.1 hc
    exact ⟨s.1, List.fst_mem_of_mem_zipIdx hs, hhop⟩
  · intro h
    obtain ⟨s, hs, hhop⟩ := h
    rw [← List.zipIdx_map_fst 0 (splitSentences answer)] at hs
    obtain ⟨x, hx, rfl⟩ := List.mem_map.1 hs
    exact ⟨_, List.mem_map_of_mem hx, hhop⟩

theorem reported_invalid (results : List ToolResult) (total : Nat)
    (claims : List Claim) (minSupport : ℚ) (unresolved : List Text) :
    (reported results total claims minSupport unresolved).invalidCitations
      = hopsWhere (fun hop => !validHop results hop) claims := rfl

theorem mem_hopsWhere {p : Nat → Bool} {claims : List Claim} :
    hop ∈ hopsWhere p claims
      ↔ (∃ c ∈ claims, hop ∈ c.citedSteps) ∧ p hop = true := by
  unfold hopsWhere
  rw [List.mem_insertionSort, List.mem_dedup, List.mem_filter, List.mem_flatMap]

/-- A run of `verify` over an answer. -/
structure Verified (script : Script) (sqrt : ℚ → ℚ) (trajectory : Trajectory)
    (embedder : Embedder) (direct inferred minSupport : ℚ) (unresolved : List Text)
    (checked : List Claim) (result : VerificationResult) : Prop where
  support : support sqrt embedder ((classify script (strip trajectory.text)).filter
    (·.factual)) trajectory.acted direct inferred = .ok checked
  result : result = reported trajectory.acted ((classify script
    (strip trajectory.text)).filter (·.factual)).length
      (merged (classify script (strip trajectory.text)) checked) minSupport unresolved

theorem verify_ok {result : VerificationResult}
    (h : verify script sqrt trajectory embedder direct inferred minSupport unresolved
      = .ok result) :
    strip trajectory.text = [] ∧ result = { unresolvedCitations := unresolved }
      ∨ strip trajectory.text ≠ [] ∧ ∃ checked, Verified script sqrt trajectory
        embedder direct inferred minSupport unresolved checked result := by
  unfold verify at h
  simp only at h
  split at h
  case isTrue hblank =>
    cases h
    exact .inl ⟨List.isEmpty_iff.1 hblank, rfl⟩
  case isFalse hsome =>
    obtain ⟨checked, hchecked, rfl⟩ := map_ok h
    exact .inr ⟨mt List.isEmpty_iff.2 hsome, checked, hchecked, rfl⟩

section

variable {checked : List Claim} {result : VerificationResult}
  (hv : Verified script sqrt trajectory embedder direct inferred minSupport unresolved
    checked result)

include hv

theorem Verified.claims : result.claims
    = (classify script (strip trajectory.text)).map (settle checked) := by
  rw [hv.result]
  rfl

theorem Verified.settled (hc : c ∈ classify script (strip trajectory.text)) :
    Settled sqrt embedder trajectory.acted direct inferred c (settle checked c) :=
  settled_of_support (nodup_classify script _) hv.support hc

theorem Verified.texts :
    result.claims.map (·.text) = splitSentences (strip trajectory.text) := by
  rw [hv.claims, List.map_map, ← text_classify script]
  exact List.map_congr_left fun c hc => (hv.settled hc).same.1

theorem Verified.mem_invalid : hop ∈ result.invalidCitations
    ↔ (∃ s ∈ splitSentences (strip trajectory.text), hop ∈ citedSteps script s)
      ∧ validHop trajectory.acted hop = false := by
  have hinvalid : result.invalidCitations
      = hopsWhere (fun hop => !validHop trajectory.acted hop) result.claims := by
    rw [hv.result, reported_invalid]
    rfl
  rw [hinvalid, mem_hopsWhere, ← cited_classify, hv.claims, Bool.not_eq_true']
  refine and_congr_left fun _ => ?_
  constructor
  · intro h
    obtain ⟨d, hd, hhop⟩ := h
    obtain ⟨c, hc, rfl⟩ := List.mem_map.1 hd
    exact ⟨c, hc, (hv.settled hc).same.2.2.1 ▸ hhop⟩
  · intro h
    obtain ⟨c, hc, hhop⟩ := h
    exact ⟨_, List.mem_map_of_mem hc, (hv.settled hc).same.2.2.1 ▸ hhop⟩

end

-- ====== the verdict

theorem rank_verdictOf {rate rate' : ℚ} {invalid invalid' : List Nat}
    (hrate : rate ≤ rate') (hinvalid : ∀ hop ∈ invalid', hop ∈ invalid) :
    (verdictOf rate invalid minSupport).rank
      ≤ (verdictOf rate' invalid' minSupport).rank := by
  unfold verdictOf
  by_cases hmin : rate < minSupport
  · rw [if_pos hmin]
    exact Nat.zero_le _
  · rw [if_neg hmin, if_neg fun h => hmin (lt_of_le_of_lt hrate h)]
    by_cases hpart : (!invalid.isEmpty || decide (rate < grounded)) = true
    · rw [if_pos hpart]
      split <;> decide
    · rw [if_neg hpart]
      rw [Bool.or_eq_true, not_or, Bool.not_eq_true', Bool.not_eq_false,
        List.isEmpty_iff, decide_eq_true_eq] at hpart
      have hnone : invalid' = [] := by
        apply List.eq_nil_iff_forall_not_mem.2
        intro hop hhop
        have hmem := hinvalid hop hhop
        rw [hpart.1] at hmem
        cases hmem
      have hgrounded : ¬rate' < grounded := fun h =>
        hpart.2 (lt_of_le_of_lt hrate h)
      rw [hnone, if_neg (by simpa using hgrounded)]

theorem noWorse_reported {r : ToolResult} {claims : List Claim} {f g : Claim → Claim}
    {total : Nat} (hf : ∀ c ∈ claims, Settled sqrt embedder results direct inferred c (f c))
    (hg : ∀ c ∈ claims,
      Settled sqrt embedder (results ++ [r]) direct inferred c (g c)) :
    NoWorse (reported results total (claims.map f) minSupport unresolved)
      (reported (results ++ [r]) total (claims.map g) minSupport unresolved) := by
  have hinvalid : ∀ hop, hop ∈ (reported (results ++ [r]) total (claims.map g)
      minSupport unresolved).invalidCitations → hop ∈ (reported results total
        (claims.map f) minSupport unresolved).invalidCitations := by
    intro hop hhop
    rw [reported_invalid, mem_hopsWhere] at hhop ⊢
    obtain ⟨⟨d, hd, hcited⟩, hnot⟩ := hhop
    obtain ⟨c, hc, rfl⟩ := List.mem_map.1 hd
    refine ⟨⟨f c, List.mem_map_of_mem hc, ?_⟩, ?_⟩
    · rw [(hf c hc).same.2.2.1, ← (hg c hc).same.2.2.1]
      exact hcited
    · unfold validHop at hnot ⊢
      rw [List.length_append, List.length_singleton] at hnot
      simp only [Bool.not_eq_true', Bool.and_eq_false_iff, decide_eq_false_iff_not]
        at hnot ⊢
      omega
  have hcount : ((claims.map f).filter fun c => c.factual && c.supported).length
      ≤ ((claims.map g).filter fun c => c.factual && c.supported).length := by
    rw [← List.countP_eq_length_filter, ← List.countP_eq_length_filter,
      List.countP_map, List.countP_map]
    refine List.countP_mono_left fun c hc hsupported => ?_
    obtain ⟨hfactual, hsupported⟩ := (Bool.and_eq_true _ _).mp hsupported
    refine (Bool.and_eq_true _ _).mpr ⟨?_, ?_⟩
    · rw [(hg c hc).same.2.2.2, ← (hf c hc).same.2.2.2]
      exact hfactual
    · exact (hf c hc).supported_concat (hg c hc) hsupported
  constructor
  · apply List.forall₂_map_left_iff.2
    apply List.forall₂_map_right_iff.2
    apply List.forall₂_same.2
    intro c hc
    obtain ⟨hftext, hfindex, -, hffactual⟩ := (hf c hc).same
    obtain ⟨hgtext, hgindex, -, hgfactual⟩ := (hg c hc).same
    exact ⟨hgtext.trans hftext.symm, hgindex.trans hfindex.symm,
      hgfactual.trans hffactual.symm, (hf c hc).supported_concat (hg c hc)⟩
  · exact hinvalid
  · refine rank_verdictOf ?_ hinvalid
    split
    case isTrue => exact le_refl _
    case isFalse =>
      refine div_le_div_of_nonneg_right ?_ (Nat.cast_nonneg total)
      exact_mod_cast hcount

-- ====== the result

section

variable {result : VerificationResult}
  (h : verify script sqrt trajectory embedder direct inferred minSupport unresolved
    = .ok result)

include h

theorem mem_invalidCitations (hdigits : Digits script) :
    hop ∈ result.invalidCitations
      ↔ hop ∈ unbroken script trajectory.text
        ∧ validHop trajectory.acted hop = false := by
  rw [← unbroken_strip hdigits]
  rcases verify_ok h with ⟨hblank, rfl⟩ | ⟨-, checked, hv⟩
  · rw [hblank]
    exact iff_of_false List.not_mem_nil fun hmem => absurd hmem.1 List.not_mem_nil
  · rw [hv.mem_invalid, cited_sentence_iff hdigits]

theorem reproduces : result.claims.flatMap (fun c => unspaced c.text)
    = unspaced trajectory.text := by
  rw [← unspaced_strip trajectory.text]
  rcases verify_ok h with ⟨hblank, rfl⟩ | ⟨-, checked, hv⟩
  · rw [hblank]
    rfl
  · rw [← unspaced_sentences, ← hv.texts, List.flatMap_map]

theorem unspaced_marked (marker : Text) : unspaced (result.marked trajectory.text marker)
    = result.claims.flatMap fun c => unspaced c.text
      ++ if c.factual = true ∧ c.supported = false then unspaced marker else [] := by
  unfold VerificationResult.marked
  split
  case isTrue hempty =>
    rw [← reproduces h, List.isEmpty_iff.1 hempty]
    rfl
  case isFalse =>
    rw [unspaced_intercalate, List.flatMap_map]
    congr 1
    funext c
    unfold Claim.marked Claim.flagged
    rw [unspaced_append, apply_ite unspaced]
    simp only [Bool.and_eq_true, Bool.not_eq_true']
    rfl

theorem noWorse_concat {step : Step} (hstep : step.acted.isSome = true)
    {after : VerificationResult}
    (hafter : verify script sqrt { trajectory with steps := trajectory.steps ++ [step] }
      embedder direct inferred minSupport unresolved = .ok after) :
    NoWorse result after := by
  obtain ⟨r, hr⟩ := Option.isSome_iff_exists.1 hstep
  have hacted : Trajectory.acted { trajectory with steps := trajectory.steps ++ [step] }
      = trajectory.acted ++ [r] := by
    unfold Trajectory.acted
    rw [List.filterMap_append, List.filterMap_cons_some hr]
    rfl
  rcases verify_ok h with ⟨hblank, rfl⟩ | ⟨hsome, checked, hv⟩
  · rcases verify_ok hafter with ⟨-, rfl⟩ | ⟨hsome, -⟩
    · exact ⟨List.Forall₂.nil, fun _ => id, le_refl _⟩
    · exact absurd hblank hsome
  · rcases verify_ok hafter with ⟨hblank, -⟩ | ⟨-, checked', hv'⟩
    · exact absurd hblank hsome
    · rw [hv.result, hv'.result, hacted]
      refine noWorse_reported (fun c => hv.settled) fun c hc => ?_
      exact hacted ▸ hv'.settled hc

end

/-- The guardrail misses nothing exactly when every hop that is cited, and is none of
the trajectory's, also stands in a citation without a line break. -/
theorem guards_iff (hdigits : Digits script) {result : VerificationResult}
    (h : verify script sqrt trajectory embedder direct inferred minSupport unresolved
      = .ok result) :
    Guards script sqrt trajectory embedder direct inferred minSupport unresolved result
      ↔ ∀ hop ∈ cited script trajectory.text,
        validHop trajectory.acted hop = false →
          hop ∈ unbroken script trajectory.text := by
  constructor
  · intro hguards hop hhop hvalid
    exact ((mem_invalidCitations h hdigits).1
      (hguards.missesNothing hop hhop hvalid)).1
  · intro hall
    exact
      { missesNothing := fun hop hhop hvalid =>
          (mem_invalidCitations h hdigits).2 ⟨hall hop hhop hvalid, hvalid⟩
        reproduces := by
          rw [unspaced_intercalate, List.flatMap_map]
          exact reproduces h
        marks := unspaced_marked h
        tightens := fun _ hstep _ => noWorse_concat h hstep }

-- ------ example one hop

/-- An embedder to which all texts are the same. -/
def alike : Embedder := ⟨fun _ => [1], fun _ => [1]⟩

/-- One hop, and an answer. -/
def oneHop (answer : Text) : Trajectory where
  steps := [⟨some "search_memory".toList, some
    { content := "The queue was moved to the broker in the spring.".toList }⟩]
  answer := some answer

/-- An answer that cites the hop, and one that there is not. -/
theorem guards_iff_moved : ∃ result,
    verify Script.ascii id (oneHop "You moved it [1]. Nobody knew [2].".toList) alike
      Agent.direct Agent.inferred Agent.minSupport [] = .ok result
      ∧ Guards Script.ascii id (oneHop "You moved it [1]. Nobody knew [2].".toList)
        alike Agent.direct Agent.inferred Agent.minSupport [] result := by
  obtain ⟨result, h⟩ := @verify_total alike (fun _ _ => rfl) Script.ascii id
    (oneHop "You moved it [1]. Nobody knew [2].".toList) Agent.direct Agent.inferred
    Agent.minSupport []
  refine ⟨result, h, (guards_iff Grounding.digits_ascii h).2 ?_⟩
  decide +kernel

-- ------ example a citation over two lines

/-- An answer that cites hop 9, of one. -/
def brokenAnswer : Text := "You moved it [1][1,\n9].".toList

/-- Nothing is reported of it. -/
theorem not_guards : ¬∀ (script : Script), Digits script → ∀ (sqrt : ℚ → ℚ)
    (trajectory : Trajectory) (embedder : Embedder) (direct inferred minSupport : ℚ)
    (unresolved : List Text) (result : VerificationResult),
      verify script sqrt trajectory embedder direct inferred minSupport unresolved
        = .ok result →
      Guards script sqrt trajectory embedder direct inferred minSupport unresolved
        result := by
  intro hall
  obtain ⟨result, h⟩ := @verify_total alike (fun _ _ => rfl) Script.ascii id
    (oneHop brokenAnswer) Agent.direct Agent.inferred Agent.minSupport []
  have hguards := hall Script.ascii Grounding.digits_ascii _ _ _ _ _ _ _ _ h
  have hcited : 9 ∈ cited Script.ascii (oneHop brokenAnswer).text := by decide +kernel
  have hinvalid := hguards.missesNothing 9 hcited (by decide)
  have hunbroken := ((mem_invalidCitations h Grounding.digits_ascii).1 hinvalid).1
  exact absurd hunbroken (by decide +kernel)

end Agent

end MemoryOS
