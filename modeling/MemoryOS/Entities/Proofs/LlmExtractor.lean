/-
What the extractor over a language model keeps stands in the text, where the
offsets of a lowered copy are those of the text.

A name that is in the text is quoted at its own place. One that is only in the
lowered copy is quoted at its offset there, and the quotation is of that name
exactly when the text has the name at that offset too but for case
(`real_iff`). Evidence that is only white space is found at the start of every
text, as a quotation of nothing (`sourced_iff`).
-/
import MemoryOS.Domain.Proofs.Excerpts
import MemoryOS.Entities.LlmExtractor

namespace MemoryOS

open Lib
open Citation (slice_nat length_slice)

namespace LlmExtractor

-- ====== statement vocabulary

/-- Lowering leaves no text but the empty one empty. -/
def LowersAll (unicode : Unicode) : Prop :=
  ∀ text, unicode.lower text = [] ↔ text = []

/-- A mention is a non-empty span of the text, which it quotes, and it quotes the
name of its candidate but for case. -/
structure Real (unicode : Unicode) (text : Text)
    (found : Candidate × ExtractedEntity) : Prop where
  start : 0 ≤ found.2.charStart
  nonempty : found.2.charStart < found.2.charEnd
  inside : found.2.charEnd ≤ text.length
  quoted : slice text found.2.charStart.toNat found.2.charEnd = found.2.name
  named : unicode.lower found.2.name = unicode.lower (strip found.1.name)

/-- A relationship joins two of the entities, and has no span, or a non-empty one
that quotes the evidence but for case. -/
structure Sourced (unicode : Unicode) (entities : List EntityRef) (text : Text)
    (found : Claim × ExtractedRelationship) : Prop where
  subject : ∃ s ∈ entities, s.entityId = found.2.subjectId
  object : ∃ o ∈ entities, o.entityId = found.2.objectId
  different : found.2.subjectId ≠ found.2.objectId
  span : (found.2.charStart = none ∧ found.2.charEnd = none)
    ∨ ∃ s e : Nat, found.2.charStart = some s ∧ found.2.charEnd = some e ∧ s < e
      ∧ e ≤ text.length
      ∧ unicode.lower (slice text s (e : Int))
        = unicode.lower (strip found.1.evidence)

/-- What the extractor keeps of responses about a batch of chunks, and about the
relationships of a text. -/
structure Grounded (unicode : Unicode) (minConfidence : ℚ) (results : List Result)
    (batch : List Text) (claims : List Claim) (entities : List EntityRef)
    (text : Text) : Prop where
  mentions : ∀ (i : Nat) chunk kept, batch[i]? = some chunk →
    (extractOneBatch unicode minConfidence results batch)[i]? = some kept →
    ∀ found ∈ kept, Real unicode chunk found
  relationships : ∀ found
    ∈ extractRelationships unicode minConfidence claims entities text,
    Sourced unicode entities text found
  once : ((extractRelationships unicode minConfidence claims entities text).map
    triple).Nodup

/-- The text has the name, or its lowered copy does not have the lowered name, or
the text has at the offset it has there a piece of the name's length that is the
name but for case. -/
def Aligned (unicode : Unicode) (text name : Text) : Prop :=
  find text name = none →
    ∀ i, find (unicode.lower text) (unicode.lower name) = some i →
      unicode.lower (slice text i ((i + name.length : Nat) : Int))
        = unicode.lower name

/-- A candidate is kept: judged so, and no candidate before it is at its place. -/
def Kept {α ρ κ : Type} (judge : α → Option ρ) (key : ρ → κ) (before : List α)
    (a : α) : Prop :=
  ∃ x, judge a = some x ∧ ∀ b ∈ before, ∀ y, judge b = some y → key y ≠ key x

/-- Every name that is kept is aligned. -/
def NamesAligned (unicode : Unicode) (minConfidence : ℚ) (results : List Result)
    (batch : List Text) : Prop :=
  ∀ (i : Nat) chunk, batch[i]? = some chunk → ∀ before c after,
    candidatesAt results i = before ++ c :: after →
    Kept (judgeEntity unicode minConfidence chunk) place before c →
    Aligned unicode chunk (strip c.name)

/-- Every evidence that is kept is empty, or it is not blank and is aligned. -/
def EvidenceAligned (unicode : Unicode) (minConfidence : ℚ) (claims : List Claim)
    (entities : List EntityRef) (text : Text) : Prop :=
  2 ≤ entities.length → ∀ before c after, claims = before ++ c :: after →
    Kept (judgeClaim unicode minConfidence entities text) triple before c →
    c.evidence = [] ∨ strip c.evidence ≠ []
      ∧ Aligned unicode text (strip c.evidence)

variable {unicode : Unicode} {minConfidence : ℚ} {text name sub : Text}
  {i start : Nat} {surface : Text}

-- ======== locating

variable {found : Claim × ExtractedRelationship} {entities : List EntityRef}

theorem of_findFrom {n : Nat} (h : findFrom sub text n = some i) :
    ∃ before after, text = before ++ sub ++ after ∧ i = n + before.length := by
  induction text generalizing n with
  | nil =>
    unfold findFrom at h
    split at h
    case isTrue hempty =>
      rw [List.isEmpty_iff.1 hempty]
      exact ⟨[], [], rfl, (Option.some.inj h).symm⟩
    case isFalse => cases h
  | cons c rest ih =>
    unfold findFrom at h
    split at h
    case isTrue hprefix =>
      obtain ⟨after, hafter⟩ := List.isPrefixOf_iff_prefix.1 hprefix
      exact ⟨[], after, hafter.symm, (Option.some.inj h).symm⟩
    case isFalse =>
      obtain ⟨before, after, hrest, hi⟩ := ih h
      refine ⟨c :: before, after, by rw [hrest]; rfl, ?_⟩
      rw [hi, List.length_cons]
      omega

theorem slice_find (h : find text sub = some i) :
    slice text i ((i + sub.length : Nat) : Int) = sub
      ∧ i + sub.length ≤ text.length := by
  obtain ⟨before, after, htext, hi⟩ := of_findFrom h
  rw [Nat.zero_add] at hi
  have hlength : text.length = before.length + sub.length + after.length := by
    rw [htext, List.length_append, List.length_append]
  refine ⟨?_, by omega⟩
  rw [slice_nat, htext, hi, ← List.length_append, List.take_left, List.drop_left]

theorem slice_length (text : Text) {i j : Nat} (hij : i ≤ j) :
    slice text i ((i + (slice text i j).length : Nat) : Int) = slice text i j := by
  rw [length_slice, slice_nat, slice_nat]
  by_cases h : j ≤ text.length
  · rw [Nat.min_eq_left h, Nat.add_sub_cancel' hij]
  · have hall : text.take j = text := List.take_of_length_le (by omega)
    rw [hall, List.take_of_length_le (by omega)]

theorem of_locate (hlowers : LowersAll unicode) (hname : name ≠ [])
    (h : locate unicode text name = some (start, surface)) :
    slice text start ((start + surface.length : Nat) : Int) = surface
      ∧ (unicode.lower surface = unicode.lower name →
        0 < surface.length ∧ start + surface.length ≤ text.length)
      ∧ (unicode.lower surface = unicode.lower name ↔ Aligned unicode text name) := by
  unfold locate at h
  split at h
  case h_1 index hfind =>
    obtain ⟨rfl, rfl⟩ := Prod.mk.inj (Option.some.inj h)
    obtain ⟨hslice, hle⟩ := slice_find hfind
    refine ⟨hslice, fun _ => ⟨List.length_pos_of_ne_nil hname, hle⟩, ?_⟩
    refine iff_of_true rfl fun hnone => ?_
    rw [hfind] at hnone
    cases hnone
  case h_2 hnone =>
    split at h
    case h_1 => cases h
    case h_2 index hfind =>
      obtain ⟨rfl, rfl⟩ := Prod.mk.inj (Option.some.inj h)
      refine ⟨slice_length text (Nat.le_add_right _ _), ?_, ?_⟩
      · intro hlower
        have hlength := length_slice text index (index + name.length)
        have hne : slice text index ((index + name.length : Nat) : Int) ≠ [] := by
          intro hempty
          rw [hempty, (hlowers []).2 rfl] at hlower
          exact hname ((hlowers name).1 hlower.symm)
        have hpos := List.length_pos_of_ne_nil hne
        omega
      · constructor
        · intro hlower _ i hi
          rw [hfind] at hi
          rw [← Option.some.inj hi]
          exact hlower
        · exact fun haligned => haligned hnone index hfind

theorem find_nil (text : Text) : find text [] = some 0 := by
  cases text <;> rfl

theorem aligned_of_locate (h : locate unicode text name = none) :
    Aligned unicode text name := by
  intro hnone i hi
  unfold locate at h
  simp only [hnone, hi] at h
  cases h

/-- The span of a piece of evidence. -/
def SpanReal (unicode : Unicode) (text evidence : Text)
    (charStart charEnd : Option Nat) : Prop :=
  (charStart = none ∧ charEnd = none)
    ∨ ∃ s e : Nat, charStart = some s ∧ charEnd = some e ∧ s < e ∧ e ≤ text.length
      ∧ unicode.lower (slice text s (e : Int)) = unicode.lower (strip evidence)

theorem spanReal_iff (hlowers : LowersAll unicode) (evidence : Text) :
    SpanReal unicode text evidence
        ((evidenceSpan unicode text evidence).map fun s => s.1)
        ((evidenceSpan unicode text evidence).map fun s => s.1 + s.2.length)
      ↔ evidence = [] ∨ strip evidence ≠ []
        ∧ Aligned unicode text (strip evidence) := by
  unfold evidenceSpan
  by_cases hempty : evidence = []
  · rw [hempty]
    exact iff_of_true (.inl ⟨rfl, rfl⟩) (.inl rfl)
  rw [if_neg (by simpa using hempty), or_iff_right hempty]
  by_cases hblank : strip evidence = []
  · -- nothing is found at the start of every text
    have hnothing : locate unicode text [] = some (0, []) := by
      unfold locate
      rw [find_nil]
    rw [hblank, hnothing]
    refine iff_of_false ?_ fun h => h.1 rfl
    intro h
    rcases h with ⟨hnone, -⟩ | ⟨s, e, hs, he, hlt, -⟩
    · cases hnone
    · cases hs
      cases he
      exact absurd hlt (Nat.lt_irrefl 0)
  rw [and_iff_right hblank]
  cases hlocate : locate unicode text (strip evidence) with
  | none => exact iff_of_true (.inl ⟨rfl, rfl⟩) (aligned_of_locate hlocate)
  | some found =>
    obtain ⟨start, surface⟩ := found
    obtain ⟨hslice, hbounds, haligned⟩ := of_locate hlowers hblank hlocate
    rw [← haligned]
    constructor
    · intro h
      rcases h with ⟨hnone, -⟩ | ⟨s, e, hs, he, -, -, hlower⟩
      · cases hnone
      · cases hs
        cases he
        rw [← hlower]
        exact congrArg unicode.lower hslice.symm
    · intro hlower
      obtain ⟨hpos, hle⟩ := hbounds hlower
      refine .inr ⟨start, start + surface.length, rfl, rfl,
        Nat.lt_add_of_pos_right hpos, hle, ?_⟩
      rw [hslice]
      exact hlower

-- ========= judging

theorem mem_of_entityAt {index : Int} {e : EntityRef}
    (h : entityAt entities index = some e) : e ∈ entities := by
  unfold entityAt at h
  split at h
  case isTrue => exact List.mem_of_getElem? h
  case isFalse => cases h

theorem real_iff {c : Candidate} {found : Candidate × ExtractedEntity}
    (hlowers : LowersAll unicode)
    (h : judgeEntity unicode minConfidence text c = some found) :
    Real unicode text found ↔ Aligned unicode text (strip c.name) := by
  simp only [judgeEntity] at h
  split at h
  case isTrue => cases h
  case isFalse hempty =>
    split at h
    case isTrue => cases h
    case isFalse =>
      split at h
      case h_1 => cases h
      case h_2 type _ =>
        split at h
        case h_1 => cases h
        case h_2 start surface hlocate =>
          obtain rfl := Option.some.inj h
          have hname : strip c.name ≠ [] := fun hnil => hempty (by rw [hnil]; rfl)
          obtain ⟨hslice, hbounds, haligned⟩ := of_locate hlowers hname hlocate
          constructor
          · exact fun hreal => haligned.1 hreal.named
          · intro hname
            have hnamed := haligned.2 hname
            obtain ⟨hpos, hle⟩ := hbounds hnamed
            exact
              { start := Int.natCast_nonneg start
                nonempty := Int.ofNat_lt.2 (Nat.lt_add_of_pos_right hpos)
                inside := Int.ofNat_le.2 hle
                quoted := hslice
                named := hnamed }

theorem of_judgeClaim {c : Claim}
    (h : judgeClaim unicode minConfidence entities text c = some found) :
    found.1 = c ∧ (∃ s ∈ entities, s.entityId = found.2.subjectId)
      ∧ (∃ o ∈ entities, o.entityId = found.2.objectId)
      ∧ found.2.subjectId ≠ found.2.objectId
      ∧ found.2.charStart = (evidenceSpan unicode text c.evidence).map (fun s => s.1)
      ∧ found.2.charEnd
        = (evidenceSpan unicode text c.evidence).map fun s => s.1 + s.2.length := by
  simp only [judgeClaim] at h
  split at h
  case isTrue => cases h
  case isFalse =>
    split at h
    case h_1 => cases h
    case h_2 predicate _ =>
      split at h
      case h_1 subject object hsubject hobject =>
        split at h
        case isTrue => cases h
        case isFalse hne =>
          obtain rfl := Option.some.inj h
          exact ⟨rfl, ⟨subject, mem_of_entityAt hsubject, rfl⟩,
            ⟨object, mem_of_entityAt hobject, rfl⟩, hne, rfl, rfl⟩
      case h_2 => cases h

theorem sourced_iff {c : Claim} (hlowers : LowersAll unicode)
    (h : judgeClaim unicode minConfidence entities text c = some found) :
    Sourced unicode entities text found
      ↔ c.evidence = [] ∨ strip c.evidence ≠ []
        ∧ Aligned unicode text (strip c.evidence) := by
  obtain ⟨rfl, hsubject, hobject, hne, hstart, hend⟩ := of_judgeClaim h
  rw [← spanReal_iff hlowers, ← hstart, ← hend]
  exact ⟨fun hsourced => hsourced.span, fun hspan =>
    { subject := hsubject
      object := hobject
      different := hne
      span := hspan }⟩

-- ======= the claim

theorem extractOneBatch_get {results : List Result} {batch : List Text} {chunk : Text}
    (h : batch[i]? = some chunk) :
    (extractOneBatch unicode minConfidence results batch)[i]?
      = some (verify unicode minConfidence (candidatesAt results i) chunk) := by
  unfold extractOneBatch
  rw [List.getElem?_mapIdx, h]
  rfl

theorem mem_verify {candidates : List Candidate}
    {found : Candidate × ExtractedEntity} :
    found ∈ verify unicode minConfidence candidates text
      ↔ ∃ before c after, candidates = before ++ c :: after
        ∧ judgeEntity unicode minConfidence text c = some found
        ∧ ∀ b ∈ before, ∀ y, judgeEntity unicode minConfidence text b = some y →
          place y ≠ place found :=
  DistinctOn.mem_sieve

theorem mem_extractRelationships {claims : List Claim} :
    found ∈ extractRelationships unicode minConfidence claims entities text
      ↔ 2 ≤ entities.length ∧ ∃ before c after, claims = before ++ c :: after
        ∧ judgeClaim unicode minConfidence entities text c = some found
        ∧ ∀ b ∈ before, ∀ y, judgeClaim unicode minConfidence entities text b = some y →
          triple y ≠ triple found := by
  unfold extractRelationships
  by_cases h : entities.length < 2
  · rw [if_pos h]
    refine iff_of_false (fun hmem => by cases hmem) fun hmem => ?_
    exact absurd hmem.1 (Nat.not_le.2 h)
  · rw [if_neg h, and_iff_right (Nat.not_lt.1 h)]
    exact DistinctOn.mem_sieve

theorem nodup_triples (claims : List Claim) (entities : List EntityRef) :
    ((extractRelationships unicode minConfidence claims entities text).map
      triple).Nodup := by
  unfold extractRelationships verifyRelationships
  split
  case isTrue => exact List.nodup_nil
  case isFalse =>
    rw [DistinctOn.sieve_eq]
    exact List.pairwise_map.2 DistinctOn.pairwise_distinctOn

/-- What the extractor yields stands in the text exactly when the names that it
keeps are aligned, and the evidence that it keeps is empty, or not blank and
aligned. -/
theorem grounded_iff (unicode : Unicode) (minConfidence : ℚ)
    (results : List Result) (batch : List Text) (claims : List Claim)
    (entities : List EntityRef) (text : Text) (hlowers : LowersAll unicode) :
    Grounded unicode minConfidence results batch claims entities text
      ↔ NamesAligned unicode minConfidence results batch
        ∧ EvidenceAligned unicode minConfidence claims entities text := by
  constructor
  · intro h
    refine ⟨?_, ?_⟩
    · intro i chunk hchunk before c after hsplit hkept
      obtain ⟨found, hfound, hbefore⟩ := hkept
      have hmem := mem_verify.2 ⟨before, c, after, hsplit, hfound, hbefore⟩
      exact (real_iff hlowers hfound).1
        (h.mentions i chunk _ hchunk (extractOneBatch_get hchunk) found hmem)
    · intro htwo before c after hsplit hkept
      obtain ⟨found, hfound, hbefore⟩ := hkept
      have hmem := mem_extractRelationships.2
        ⟨htwo, before, c, after, hsplit, hfound, hbefore⟩
      exact (sourced_iff hlowers hfound).1 (h.relationships found hmem)
  · intro h
    obtain ⟨hnames, hevidence⟩ := h
    refine ⟨?_, ?_, nodup_triples claims entities⟩
    · intro i chunk kept hchunk hkept found hmem
      rw [extractOneBatch_get hchunk] at hkept
      rw [← Option.some.inj hkept] at hmem
      obtain ⟨before, c, after, hsplit, hfound, hbefore⟩ := mem_verify.1 hmem
      exact (real_iff hlowers hfound).2
        (hnames i chunk hchunk before c after hsplit ⟨found, hfound, hbefore⟩)
    · intro found hmem
      obtain ⟨htwo, before, c, after, hsplit, hfound, hbefore⟩ :=
        mem_extractRelationships.1 hmem
      exact (sourced_iff hlowers hfound).2
        (hevidence htwo before c after hsplit ⟨found, hfound, hbefore⟩)

-- ------ a text of ASCII, and one whose lower case is longer

/-- `str.lower` of ASCII and of `İ`, whose lower case has two characters. -/
def dotted : Unicode where
  isAlnum := Char.isAlphanum
  lower text := text.flatMap fun c =>
    if c = 'İ' then ['i', '\u0307'] else [c.toLower]

theorem dotted_lowersAll : LowersAll dotted := by
  intro text
  cases text with
  | nil => exact Iff.rfl
  | cons c rest =>
    refine iff_of_false ?_ (List.cons_ne_nil c rest)
    show (if c = 'İ' then _ else _) ++ _ ≠ ([] : Text)
    split <;> exact List.cons_ne_nil _ _

theorem eq_of_singleton {α : Type} {a c : α} {before after : List α}
    (h : [a] = before ++ c :: after) : before = [] ∧ c = a ∧ after = [] := by
  cases before with
  | nil =>
    obtain ⟨rfl, rfl⟩ := List.cons.inj h
    exact ⟨rfl, rfl, rfl⟩
  | cons b rest =>
    have hlength := congrArg List.length h
    simp at hlength

/-- Two entities that a text may relate. -/
def offered : List EntityRef :=
  [⟨1, "Memory".toList, .project⟩, ⟨2, "Postgres".toList, .technology⟩]

/-- A response that names one of them, in other letters. -/
def tidied : List Result := [⟨0, [⟨"POSTGRES ".toList, "technology".toList, 1⟩]⟩]

/-- A claim whose evidence is a quotation. -/
def quoting : List Claim :=
  [⟨0, "uses".toList, 1, 1, "memory uses postgres".toList⟩]

theorem grounded_iff_tidied :
    Grounded dotted (1 / 2) tidied ["Memory uses Postgres.".toList] quoting offered
      "Memory uses Postgres.".toList := by
  apply (grounded_iff dotted (1 / 2) tidied ["Memory uses Postgres.".toList] quoting
    offered "Memory uses Postgres.".toList dotted_lowersAll).2
  refine ⟨?_, ?_⟩
  · intro i chunk hchunk before c after hsplit _ _ offset hat
    obtain rfl : i = 0 := by
      have hlt := (List.getElem?_eq_some_iff.1 hchunk).1
      exact Nat.lt_one_iff.1 hlt
    obtain rfl := Option.some.inj hchunk
    obtain ⟨rfl, rfl, rfl⟩ : before = [] ∧ c = ⟨"POSTGRES ".toList, "technology".toList, 1⟩
        ∧ after = [] := eq_of_singleton hsplit
    have hfound : find (dotted.lower "Memory uses Postgres.".toList)
        (dotted.lower (strip "POSTGRES ".toList)) = some 12 := by
      decide +kernel
    rw [hfound] at hat
    obtain rfl := Option.some.inj hat
    decide +kernel
  · intro _ before c after hsplit _
    obtain ⟨rfl, rfl, rfl⟩ : before = []
        ∧ c = ⟨0, "uses".toList, 1, 1, "memory uses postgres".toList⟩
        ∧ after = [] := eq_of_singleton hsplit
    refine .inr ⟨by decide +kernel, fun _ offset hat => ?_⟩
    have hfound : find (dotted.lower "Memory uses Postgres.".toList)
        (dotted.lower (strip "memory uses postgres".toList)) = some 0 := by
      decide +kernel
    rw [hfound] at hat
    obtain rfl := Option.some.inj hat
    decide +kernel

/-- A response that names a part of the text in other letters. -/
def shifted : List Result := [⟨0, [⟨"X".toList, "concept".toList, 1⟩]⟩]

/-- A claim whose evidence is a space. -/
def blank : List Claim := [⟨0, "uses".toList, 1, 1, " ".toList⟩]

/-- A name after a letter whose lower case is longer is quoted elsewhere, and
evidence that is a space is quoted as nothing. -/
theorem not_grounded :
    LowersAll dotted
      ∧ ¬ Grounded dotted (1 / 2) shifted ["İx".toList] [] [] []
      ∧ ¬ Grounded dotted (1 / 2) [] [] blank offered "x".toList := by
  refine ⟨dotted_lowersAll, fun h => ?_, fun h => ?_⟩
  · have hkept : (extractOneBatch dotted (1 / 2) shifted ["İx".toList])[0]?
        = some [(⟨"X".toList, "concept".toList, 1⟩, ⟨[], .concept, 1, 2, 2⟩)] := by
      decide +kernel
    have hreal := h.mentions 0 "İx".toList _ rfl hkept _ (List.mem_singleton_self _)
    exact absurd hreal.nonempty (Int.lt_irrefl 2)
  · have hkept : extractRelationships dotted (1 / 2) blank offered "x".toList
        = [(⟨0, "uses".toList, 1, 1, " ".toList⟩,
          ⟨1, 2, .uses, 1, [], some 0, some 0⟩)] := by
      decide +kernel
    have hspan := (h.relationships _ (hkept ▸ List.mem_singleton_self _)).span
    rcases hspan with ⟨hnone, -⟩ | ⟨s, e, hs, he, hlt, -⟩
    · cases hnone
    · cases hs
      cases he
      exact absurd hlt (Nat.lt_irrefl 0)

end LlmExtractor

end MemoryOS
