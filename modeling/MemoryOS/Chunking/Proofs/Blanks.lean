/-
When a chunk has no text of its own.

`_to_chunks` asks whether a span is blank after it has put the overlap in front,
so a blank span is left out only where nothing is lent to it.

# The result

`no_blank_chunk_iff`: every chunk has a character of its own that is not
whitespace exactly when no blank span that the passes leave is lent text: the
overlap of the last chunk before it is off or does not fit, and what was left
out in between is blank.

A sentence begins with text (`suffix_of_sentence`), so an overlap that is taken
is never blank (`overlap_text`); what a blank span stores is then blank exactly
when it is lent nothing (`leftOut_blank_iff`).
-/
import MemoryOS.Chunking.Proofs.Tiling

namespace MemoryOS

-- ====== blank texts

section
variable {a b : Text} {c : Char}

theorem isBlank_append : isBlank (a ++ b) = (isBlank a && isBlank b) := by
  rw [Bool.eq_iff_iff, Bool.and_eq_true, isBlank_iff, isBlank_iff, isBlank_iff,
    List.forall_mem_append]

theorem isBlank_of_mem (hc : c ∈ a) (hspace : isSpace c = false) :
    isBlank a = false := by
  rw [Bool.eq_false_iff]
  intro hblank
  rw [isBlank_iff.1 hblank c hc] at hspace
  cases hspace

theorem isBlank_nil : isBlank [] = true :=
  isBlank_iff.2 fun _ hc => absurd hc List.not_mem_nil

end

namespace Sentences

-- ====== where sentences begin

section
variable {unicode : Unicode} {text rest : Text} {c : Char}

theorem isSpace_of_startsSentence (h : startsSentence c = true) :
    isSpace c = false := by
  have hrange : 33 ≤ c.toNat ∧ c.toNat ≤ 126 := by
    unfold startsSentence at h
    rw [Bool.or_eq_true, Bool.or_eq_true, decide_eq_true_eq] at h
    rcases h with (hupper | hdigit) | hmark
    · unfold Char.isUpper at hupper
      have hbounds := of_decide_eq_true hupper
      exact ⟨Nat.le_trans (by decide) (UInt32.le_iff_toNat_le.1 hbounds.1),
        Nat.le_trans (UInt32.le_iff_toNat_le.1 hbounds.2) (by decide)⟩
    · unfold Char.isDigit at hdigit
      rw [Bool.and_eq_true, decide_eq_true_eq, decide_eq_true_eq] at hdigit
      exact ⟨Nat.le_trans (by decide) (UInt32.le_iff_toNat_le.1 hdigit.1),
        Nat.le_trans (UInt32.le_iff_toNat_le.1 hdigit.2) (by decide)⟩
    · have hlist : "\"'([".toList = ['"', Char.ofNat 39, '(', '['] := rfl
      rw [hlist, List.mem_cons, List.mem_cons, List.mem_cons,
        List.mem_singleton] at hmark
      rcases hmark with rfl | rfl | rfl | rfl
      · decide
      · decide
      · decide
      · decide
  unfold isSpace
  simp
  omega

theorem boundaryAt_text {closers length : Nat}
    (h : boundaryAt rest = some (closers, length)) :
    ∃ c, rest[length]? = some c ∧ isSpace c = false := by
  unfold boundaryAt at h
  simp only at h
  split at h
  case h_1 s ss c cs hspaces hnext =>
    split at h
    case isFalse => cases h
    case isTrue hstarts =>
      cases h
      have hsplit : rest
          = (rest.takeWhile isCloser ++ (s :: ss)) ++ c :: cs := by
        rw [← hspaces, ← hnext, List.append_assoc,
          List.takeWhile_append_dropWhile, List.takeWhile_append_dropWhile]
      refine ⟨c, ?_, isSpace_of_startsSentence hstarts⟩
      rw [hspaces, ← List.length_append]
      generalize rest.takeWhile isCloser ++ (s :: ss) = before at hsplit ⊢
      rw [hsplit, List.getElem?_append_right (Nat.le_refl _), Nat.sub_self]
      rfl
  case h_2 => cases h

theorem boundaries_text {previous : Option Char} {i skip : Nat} :
    ∀ p ∈ boundaries previous i skip rest,
      ∃ c, rest[p.2 - i]? = some c ∧ isSpace c = false := by
  induction rest generalizing previous i skip with
  | nil =>
    unfold boundaries
    exact fun p hp => absurd hp List.not_mem_nil
  | cons c rest ih =>
    have hlater : ∀ skip, ∀ p ∈ boundaries (some c) (i + 1) skip rest,
        ∃ d, (c :: rest)[p.2 - i]? = some d ∧ isSpace d = false := by
      intro skip p hp
      have hlt := ((@boundaries_sorted (some c) (i + 1) skip rest).2 p hp).1
      have hsub : p.2 - i = p.2 - (i + 1) + 1 := by omega
      rw [hsub, List.getElem?_cons_succ]
      exact ih p hp
    cases skip with
    | succ skip =>
      unfold boundaries
      exact hlater skip
    | zero =>
      unfold boundaries
      split
      case isTrue =>
        split
        case h_1 closers length hmatch =>
          intro p hp
          rcases List.mem_cons.1 hp with rfl | hp
          · rw [Nat.add_sub_cancel_left]
            exact boundaryAt_text hmatch
          · exact hlater _ p hp
        case h_2 => exact hlater 0
      case isFalse => exact hlater 0

theorem sentencesFrom_begins {start : Nat} {found : List (Nat × Nat)} :
    ∀ s ∈ sentencesFrom unicode text start found,
      s.1 = start ∨ ∃ p ∈ found, s.1 = p.2 := by
  induction found generalizing start with
  | nil =>
    unfold sentencesFrom
    split
    case isTrue =>
      intro s hs
      rw [List.mem_singleton.1 hs]
      exact .inl rfl
    case isFalse => exact fun s hs => absurd hs List.not_mem_nil
  | cons p rest ih =>
    obtain ⟨stop, next⟩ := p
    have hrest : ∀ start, ∀ s ∈ sentencesFrom unicode text start rest,
        s.1 = start ∨ ∃ p ∈ (stop, next) :: rest, s.1 = p.2 := by
      intro start s hs
      refine (ih s hs).imp id fun h => ?_
      obtain ⟨p, hp, heq⟩ := h
      exact ⟨p, List.mem_cons_of_mem _ hp, heq⟩
    unfold sentencesFrom
    split
    case isTrue => exact hrest start
    case isFalse =>
      intro s hs
      rcases List.mem_cons.1 hs with rfl | hs
      · exact .inl rfl
      · refine .inr ?_
        rcases hrest next s hs with heq | h
        · exact ⟨(stop, next), List.mem_cons_self, heq⟩
        · exact h

theorem suffix_of_sentence (htext : isBlank text = false) {s : Span}
    (hs : s ∈ splitSentences unicode text) :
    isBlank (text.drop s.1) = false := by
  unfold splitSentences at hs
  split at hs
  case isTrue => cases hs
  case isFalse =>
    rcases sentencesFrom_begins s hs with hzero | hmatch
    · rw [hzero]
      exact htext
    · obtain ⟨p, hp, heq⟩ := hmatch
      obtain ⟨c, hget, hspace⟩ := boundaries_text p hp
      rw [Nat.sub_zero] at hget
      refine isBlank_of_mem (c := c) ?_ hspace
      rw [heq]
      refine List.mem_of_getElem? (i := 0) ?_
      rw [List.getElem?_drop, Nat.add_zero]
      exact hget

theorem sentencesFrom_ne_nil {start : Nat} {found : List (Nat × Nat)}
    (hstart : start < text.length) :
    sentencesFrom unicode text start found ≠ [] := by
  induction found with
  | nil =>
    unfold sentencesFrom
    rw [if_pos hstart]
    exact List.cons_ne_nil _ _
  | cons p rest ih =>
    unfold sentencesFrom
    split
    case isTrue => exact ih
    case isFalse => exact List.cons_ne_nil _ _

theorem splitSentences_ne_nil (h : text ≠ []) :
    splitSentences unicode text ≠ [] := by
  unfold splitSentences
  rw [if_neg (by rw [List.isEmpty_iff]; exact h)]
  exact sentencesFrom_ne_nil (List.length_pos_iff.2 h)

end

end Sentences

namespace StructuralChunker

open Lib Sentences CodeBoundaries

variable {sc : StructuralChunker} {text : Text}

-- ====== statement vocabulary

/-- The overlap of a span is taken by one that ends later: it is on, and fits
under the ceiling. -/
def Overlaps (sc : StructuralChunker) (text : Text) (p : Span) (stop : Nat) :
    Prop :=
  0 < sc.config.overlap
    ∧ sc.within text sc.config.maximum (sc.overlapLoop text p p.2
      (splitSentences sc.unicode (between text p.1 p.2)).reverse, stop) = true

/-- A span with text lends some to a blank one: its overlap, or what was left
out in between. -/
structure Lends (sc : StructuralChunker) (text : Text) (p s : Span) : Prop where
  counted : sc.count (between text (sc.overlapStart text p s.2) s.2) ≠ 0
  lent : Overlaps sc text p s.2 ∨ isBlank (between text p.2 s.1) = false

/-- The blank spans of a list, each with the last one before it that has text
and counts. -/
def blanks (sc : StructuralChunker) (text : Text) :
    Option Span → List Span → List (Span × Span)
  | _, [] => []
  | previous, s :: rest =>
    if isBlank (between text s.1 s.2) then
      previous.toList.map (·, s) ++ blanks sc text previous rest
    else if sc.leftOut text previous s then blanks sc text previous rest
    else blanks sc text (some s) rest

/-- Of the spans that the passes leave, no blank one is lent text. -/
def BlanksApart (sc : StructuralChunker) (doc : ParsedDocument) : Prop :=
  ∀ spans, sc.spansOf doc = .ok spans →
    ∀ g ∈ sc.blanks doc.text none spans, ¬ Lends sc doc.text g.1 g.2

/-- A pass tiles what it cuts. -/
def TilesEach (text : Text) (f : Span → Cuts) : Prop :=
  ∀ s : Span, s.1 < s.2 → s.2 ≤ text.length →
    ∀ pieces, f s = .ok pieces → Tiles s.1 s.2 pieces

-- ====== what passes leave

variable {pieces spans : List Span} {found : List (Nat × Nat)} {a b : Nat}

theorem characterSplit_tiles {turns cursor stop : Nat} (hle : cursor ≤ stop)
    (hok : sc.characterSplit text stop turns cursor = .ok pieces) :
    Tiles cursor stop pieces := by
  induction turns generalizing cursor pieces with
  | zero => cases hok
  | succ turns ih =>
    unfold characterSplit at hok
    split at hok
    case isFalse hge =>
      cases hok
      have heq : cursor = stop := Nat.le_antisymm hle (Nat.not_lt.1 hge)
      exact heq ▸ .nil cursor
    case isTrue hlt =>
      simp only at hok
      split at hok
      case isTrue =>
        cases hok
        exact .single hlt
      case isFalse =>
        split at hok
        case isTrue => cases hok
        case isFalse =>
          obtain ⟨cut, hcut, h1, h2⟩ := @halve_ok sc text
            (stop - cursor + 1) cursor (min stop (cursor + (max 1
              (((stop - cursor : Nat) : Int) * sc.config.target
                / (sc.count (between text cursor stop) : Int))).toNat))
            (by omega) (by omega)
          rw [hcut] at hok
          simp only at hok
          split at hok
          case h_1 => cases hok
          case h_2 more hmore =>
            cases hok
            exact .cons h1 (ih (by omega) hmore)

theorem ceiling_tiles {f : Span → Cuts} (hf : TilesEach text f) (h : Tiles a b spans) (hb : b ≤ text.length)
    (hok : sc.ceiling text f spans = .ok pieces) : Tiles a b pieces := by
  refine h.recut (fun s hs ps hps => ?_) hok
  obtain ⟨-, hlt, hle⟩ := h.bounds hs
  split at hps
  case isTrue =>
    cases hps
    exact .single hlt
  case isFalse => exact hf s hlt (Nat.le_trans hle hb) ps hps

theorem hardSplit_tiles : TilesEach text (sc.hardSplit text) := by
  intro s hlt hlen pieces hok
  obtain ⟨spans, hspans, htiles⟩ := @hardSplitLoop_ok sc text
    (s.2 - s.1 + 1) s.1 s.1 s.2 hlen (Nat.le_refl _) (Nat.le_of_lt hlt)
    (Nat.lt_succ_self _)
  unfold hardSplit at hok
  simp only [hspans] at hok
  refine ceiling_tiles (fun t ht _ ps hps => ?_) htiles hlen hok
  exact characterSplit_tiles (Nat.le_of_lt ht) hps

theorem fill_tilesEach : TilesEach text (sc.fill text) := by
  intro s hlt hlen pieces hok
  unfold fill at hok
  split at hok
  case isTrue =>
    cases hok
    exact .single hlt
  case isFalse =>
    simp only at hok
    split at hok
    case isTrue => exact hardSplit_tiles s hlt hlen pieces hok
    case isFalse =>
      exact ceiling_tiles hardSplit_tiles (fill_tiles hlt hlen) hlen hok

theorem splitAt_tiles {s : Span} {sets : List (List Nat)} (hlt : s.1 < s.2)
    (hlen : s.2 ≤ text.length)
    (hin : ∀ boundaries ∈ sets, ∀ b ∈ boundaries, b < s.2) (hok : sc.splitAt text s sets = .ok pieces) :
    Tiles s.1 s.2 pieces := by
  induction sets with
  | nil => exact hardSplit_tiles s hlt hlen pieces hok
  | cons boundaries rest ih =>
    have hlater := ih fun bs hbs => hin bs (List.mem_cons_of_mem _ hbs)
    obtain ⟨spans, hspans, htiles⟩ := @fillBetween_ok sc text s boundaries
      hlt (hin boundaries List.mem_cons_self)
    unfold splitAt at hok
    split at hok
    case isTrue => exact hlater hok
    case isFalse =>
      rw [hspans] at hok
      simp only at hok
      split at hok
      case isTrue =>
        cases hok
        exact htiles
      case isFalse => exact hlater hok

theorem splitDefinition_tiles : TilesEach text (sc.splitDefinition text) := by
  intro s hlt hlen pieces hok
  unfold splitDefinition at hok
  refine splitAt_tiles hlt hlen ?_ hok
  simp only [List.forall_mem_cons, List.not_mem_nil, false_implies,
    implies_true, and_true]
  exact ⟨fun b hb => blankLineOffsets_lt b (mem_of_mem_balanced hb),
    fun b hb => outermostStatementOffsets_lt hlen b (mem_of_mem_balanced hb),
    fun b hb => lineStartOffsets_lt hlen b (mem_of_mem_balanced hb),
    lineStartOffsets_lt hlen⟩

theorem spansOf_tiles {doc : ParsedDocument}
    (hok : sc.spansOf doc = .ok spans) : Tiles 0 doc.text.length spans := by
  unfold spansOf at hok
  simp only at hok
  split at hok
  case h_1 => cases hok
  case h_2 pieces hpieces =>
    cases hok
    have hsec := sections_tiles doc
    refine mergeUndersized_tiles (hsec.recut (fun s hs ps hps => ?_) hpieces)
    obtain ⟨-, hlt, hlen⟩ := hsec.bounds hs
    split at hps
    case isTrue =>
      split at hps
      case isTrue =>
        cases hps
        exact .single hlt
      case isFalse => exact splitDefinition_tiles s hlt hlen ps hps
    case isFalse => exact fill_tilesEach s hlt hlen ps hps

-- ========= overlap

theorem between_append {m : Nat} (ham : a ≤ m) (hmb : m ≤ b) :
    between text a b = between text a m ++ between text m b := by
  unfold between
  have htake : text.take m = (text.take b).take m := by
    rw [List.take_take, Nat.min_eq_left hmb]
  rw [htake]
  generalize text.take b = t
  have hdrop : t.drop m = (t.drop a).drop (m - a) := by
    rw [List.drop_drop, Nat.add_sub_cancel' ham]
  rw [hdrop, List.drop_take, List.take_append_drop]

theorem between_drop {n : Nat} :
    between text (a + n) b = (between text a b).drop n := by
  unfold between
  rw [List.drop_drop]

theorem overlapLoop_mem {p : Span} {chosen : Nat} {sentences : List Span}
    (h : sentences ≠ []) : ∃ s ∈ sentences,
      sc.overlapLoop text p chosen sentences = p.1 + s.1 := by
  induction sentences generalizing chosen with
  | nil => exact absurd rfl h
  | cons s rest ih =>
    unfold overlapLoop
    simp only
    split
    case isTrue => exact ⟨s, List.mem_cons_self, rfl⟩
    case isFalse =>
      cases rest with
      | nil => exact ⟨s, List.mem_cons_self, rfl⟩
      | cons t rest =>
        obtain ⟨u, hu, heq⟩ :=
          @ih (p.1 + s.1) (List.cons_ne_nil t rest)
        exact ⟨u, List.mem_cons_of_mem s hu, heq⟩

theorem overlap_text {p : Span} (hp : isBlank (between text p.1 p.2) = false) :
    isBlank (between text (sc.overlapLoop text p p.2
      (splitSentences sc.unicode (between text p.1 p.2)).reverse) p.2)
        = false := by
  have hne : between text p.1 p.2 ≠ [] := by
    intro hnil
    rw [hnil, isBlank_nil] at hp
    cases hp
  obtain ⟨s, hs, heq⟩ := @overlapLoop_mem sc text p p.2
    (splitSentences sc.unicode (between text p.1 p.2)).reverse
    (by rw [Ne, List.reverse_eq_nil_iff]; exact splitSentences_ne_nil hne)
  rw [heq, between_drop]
  exact suffix_of_sentence hp (List.mem_reverse.1 hs)

theorem overlapStart_eq (p : Span) (stop : Nat) :
    (Overlaps sc text p stop ∧ sc.overlapStart text p stop
        = sc.overlapLoop text p p.2
          (splitSentences sc.unicode (between text p.1 p.2)).reverse)
      ∨ (¬ Overlaps sc text p stop ∧ sc.overlapStart text p stop = p.2) := by
  unfold overlapStart Overlaps
  split
  case isTrue hoff =>
    exact .inr ⟨fun h => absurd h.1 (Int.not_lt.2 hoff), rfl⟩
  case isFalse hon =>
    simp only
    split
    case isTrue hfits => exact .inl ⟨⟨Int.not_le.1 hon, hfits⟩, rfl⟩
    case isFalse hover => exact .inr ⟨fun h => hover h.2, rfl⟩

theorem stored_blank_iff {p s : Span} (hlt : p.1 < p.2)
    (hlen : p.2 ≤ text.length) (hle : p.2 ≤ s.1) (hs : s.1 ≤ s.2)
    (hp : isBlank (between text p.1 p.2) = false)
    (hblank : isBlank (between text s.1 s.2) = true) :
    isBlank (between text (sc.overlapStart text p s.2) s.2) = false
      ↔ Overlaps sc text p s.2 ∨ isBlank (between text p.2 s.1) = false := by
  have hstart := @overlapStart_le sc text p s.2 hlt hlen
  have hsplit : isBlank (between text (sc.overlapStart text p s.2) s.2)
      = (isBlank (between text (sc.overlapStart text p s.2) p.2)
        && isBlank (between text p.2 s.1)) := by
    rw [between_append hstart (Nat.le_trans hle hs), isBlank_append,
      between_append hle hs, isBlank_append, hblank, Bool.and_true]
  rw [hsplit, Bool.and_eq_false_iff]
  rcases @overlapStart_eq sc text p s.2 with ⟨hon, heq⟩ | ⟨hoff, heq⟩
  · rw [heq]
    exact iff_of_true (.inl (overlap_text hp)) (.inl hon)
  · have hnone : isBlank (between text (sc.overlapStart text p s.2) p.2)
        = true := by
      rw [heq]
      unfold between
      rw [List.drop_eq_nil_of_le (List.length_take_le _ _)]
      exact isBlank_nil
    rw [hnone]
    constructor
    · intro h
      rcases h with h | h
      · cases h
      · exact .inr h
    · intro h
      exact h.imp (fun hon => absurd hon hoff) id

-- ====== the chunks

/-- The span of the last chunk, if any, has text. -/
def HasText (text : Text) (previous : Option Span) : Prop :=
  ∀ p, previous = some p → isBlank (between text p.1 p.2) = false

theorem leftOut_blank_iff {previous : Option Span} {s : Span}
    (hprecedes : Precedes text previous s.1) (hs : s.1 ≤ s.2)
    (hp : HasText text previous)
    (hblank : isBlank (between text s.1 s.2) = true) :
    sc.leftOut text previous s = true
      ↔ ∀ p, previous = some p → ¬ Lends sc text p s := by
  unfold leftOut
  simp only [Bool.or_eq_true, decide_eq_true_eq]
  cases previous with
  | none =>
    refine iff_of_true (.inr hblank) fun p hsome => ?_
    exact absurd hsome.symm (Option.some_ne_none p)
  | some p =>
    obtain ⟨hlt, hle, hlen⟩ := hprecedes p rfl
    have hstored := @stored_blank_iff sc text p s hlt hlen hle hs (hp p rfl)
      hblank
    show sc.count (between text (sc.overlapStart text p s.2) s.2) = 0
      ∨ isBlank (between text (sc.overlapStart text p s.2) s.2) = true ↔ _
    constructor
    · intro hout q hq hlends
      cases hq
      rcases hout with hzero | hnone
      · exact hlends.counted hzero
      · rw [hstored.2 hlends.lent] at hnone
        cases hnone
    · intro hno
      by_contra hout
      obtain ⟨hcounted, htext⟩ := not_or.1 hout
      exact hno p rfl ⟨hcounted, hstored.1 (Bool.eq_false_iff.2 htext)⟩

theorem toChunks_blank_iff {definitions : List StructureMarker} {n : Nat}
    {previous : Option Span} {a b : Nat} {spans : List Span}
    (htiles : Tiles a b spans) (hb : b ≤ text.length)
    (hprecedes : Precedes text previous a) (hp : HasText text previous) :
    (∀ c ∈ sc.toChunks text definitions n previous spans,
      isBlank (c.text.drop c.prefixChars) = false)
      ↔ ∀ g ∈ sc.blanks text previous spans, ¬ Lends sc text g.1 g.2 := by
  induction htiles generalizing n previous with
  | nil a => exact iff_of_true (List.forall_mem_nil _) (List.forall_mem_nil _)
  | @cons a m b l hlt hrest ih =>
    have hm := Nat.le_trans hrest.le hb
    have hnext : Precedes text (some (a, m)) m := .next hlt hrest.le hb
    have hskip : Precedes text previous m := hprecedes.mono (Nat.le_of_lt hlt)
    have hclaimed : (sc.chunkOf text definitions n previous (a, m)).text.drop
          (sc.chunkOf text definitions n previous (a, m)).prefixChars
        = between text a m :=
      (chunkOf_citable hlt hm hprecedes).claimed
    unfold toChunks blanks
    cases hblank : isBlank (between text a m) with
    | true =>
      rw [if_pos rfl, List.forall_mem_append]
      have hout := @leftOut_blank_iff sc text previous (a, m) hprecedes
        (Nat.le_of_lt hlt) hp hblank
      have hlent : (∀ g ∈ previous.toList.map (·, (a, m)),
            ¬ Lends sc text g.1 g.2)
          ↔ sc.leftOut text previous (a, m) = true := by
        rw [hout]
        cases previous with
        | none => simp
        | some p => simp
      rw [hlent]
      split
      case isTrue hleft =>
        rw [and_iff_right hleft]
        exact ih hb hskip hp
      case isFalse hkept =>
        refine iff_of_false (fun hall => ?_) fun h => hkept h.1
        have hown := hall _ List.mem_cons_self
        rw [hclaimed] at hown
        exact absurd hblank (Bool.eq_false_iff.1 hown)
    | false =>
      rw [if_neg Bool.false_ne_true]
      split
      case isTrue => exact ih hb hskip hp
      case isFalse =>
        have htext : HasText text (some (a, m)) := by
          intro p hsome
          cases hsome
          exact hblank
        rw [List.forall_mem_cons, hclaimed, and_iff_right hblank]
        exact ih hb hnext htext

-- ====== main results

theorem blanks_of_blank (hblank : isBlank text = true) (spans : List Span) :
    sc.blanks text none spans = [] := by
  induction spans with
  | nil => rfl
  | cons s rest ih =>
    unfold blanks
    rw [if_pos (isBlank_slice hblank s.1 s.2), ih]
    rfl

/-- **When a chunk has text of its own**: every chunk of a document holds a
character that is not whitespace behind its borrowed prefix, if and only if no
blank span that the passes leave is lent text by the one before it. -/
theorem no_blank_chunk_iff (sc : StructuralChunker) (doc : ParsedDocument) :
    (∀ chunks, sc.chunk doc = .ok chunks →
      ∀ c ∈ chunks, isBlank (c.text.drop c.prefixChars) = false)
      ↔ BlanksApart sc doc := by
  unfold chunk BlanksApart
  cases hblank : isBlank doc.text with
  | true =>
    refine iff_of_true (fun chunks hok => ?_) (fun spans _ => ?_)
    · rw [if_pos rfl] at hok
      rw [← Except.ok.inj hok]
      exact List.forall_mem_nil _
    · rw [blanks_of_blank hblank]
      exact List.forall_mem_nil _
  | false =>
    rw [if_neg Bool.false_ne_true]
    cases hspans : sc.spansOf doc with
    | error e =>
      refine iff_of_true (fun chunks hok => ?_) (fun spans hok => ?_)
      · cases hok
      · cases hok
    | ok spans =>
      have hiff := @toChunks_blank_iff sc doc.text
        (doc.structure_.filter fun m => decide (m.kind = "definition")) 0
        none 0 _ spans (spansOf_tiles hspans) (Nat.le_refl _)
        (fun p hp => absurd hp.symm (Option.some_ne_none p))
        (fun p hp => absurd hp.symm (Option.some_ne_none p))
      constructor
      · intro h spans' hspans'
        cases hspans'
        exact hiff.1 (h _ rfl)
      · intro h chunks hok
        rw [← Except.ok.inj hok]
        exact hiff.2 (h spans rfl)

-- ------ three pages, of which the last two are empty

/-- The sizes of a window of 36 tokens, and a token for each character. -/
def smallWindow : StructuralChunker where
  count := List.length
  config :=
    { modelWindow := 36, maximum := 20, target := 16, overlap := 1
      minimum := 3 }

/-- A page of fifteen letters, and two without any. -/
def threePages : ParsedDocument where
  text := "fifteen-letters\n\n\n\n".toList
  title := none
  metadata := []
  structure_ := [⟨"heading", 1, 0, some "page 1".toList⟩,
    ⟨"heading", 1, 17, some "page 2".toList⟩,
    ⟨"heading", 1, 19, some "page 3".toList⟩]
  kind := .document

/-- The second page is a chunk, for the letters of the first. -/
theorem blank_chunk : ¬ ∀ (sc : StructuralChunker) (doc : ParsedDocument)
    (chunks : List TextChunk), sc.chunk doc = .ok chunks →
      ∀ c ∈ chunks, isBlank (c.text.drop c.prefixChars) = false := by
  intro hclaim
  have hpages : ∃ chunks, smallWindow.chunk threePages = .ok chunks
      ∧ ∃ c ∈ chunks, isBlank (c.text.drop c.prefixChars) = true :=
    ⟨_, rfl, by decide +kernel⟩
  obtain ⟨chunks, hok, c, hc, hblank⟩ := hpages
  rw [hclaim _ _ chunks hok c hc] at hblank
  cases hblank

end StructuralChunker

end MemoryOS
