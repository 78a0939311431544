/-
The chunker ends, and how it keeps to the ceiling.

Every loop is given enough turns (`spansOf_ok`). Every pass checks what it
cuts or joins, so every span is within the ceiling (`spansOf_within`); the
overlap is given up when it would go over.

# The gap

`_to_chunks` begins a chunk where the chunk before it ends, and takes the
spans to be contiguous. Spans that were left out in between are then in the
chunk, which is not checked again: `within_ceiling_iff` says when that goes
over.
-/
import MemoryOS.Chunking.Proofs.Tiling

namespace MemoryOS.StructuralChunker

open Lib Sentences CodeBoundaries

variable {sc : StructuralChunker} {text : Text}

-- ====== statement vocabulary

/-- Sizes that agree with each other and with the counter: a longer text
counts at least as much, and a single character is within the ceiling. -/
structure Sized (sc : StructuralChunker) : Prop where
  target_pos : 1 ≤ sc.config.target
  target_le : sc.config.target ≤ sc.config.maximum
  character : ∀ c, (sc.count [c] : Int) ≤ sc.config.maximum
  extend : ∀ before t after, sc.count t ≤ sc.count (before ++ t ++ after)

/-- Every span of the list is within the ceiling. -/
def Within (sc : StructuralChunker) (text : Text) (spans : List Span) : Prop :=
  ∀ s ∈ spans, sc.within text sc.config.maximum s = true

/-- A pass that cuts any span of the text into pieces within the ceiling. -/
def Keeps (sc : StructuralChunker) (text : Text) (f : Span → Cuts) : Prop :=
  ∀ s : Span, s.1 < s.2 → s.2 ≤ text.length →
    ∀ pieces, f s = .ok pieces → Within sc text pieces

/-- The spans of successive chunks that others were left out between. -/
def gaps (sc : StructuralChunker) (text : Text) :
    Option Span → List Span → List (Span × Span)
  | _, [] => []
  | previous, s :: rest =>
    if sc.leftOut text previous s then gaps sc text previous rest
    else
      ((previous.toList.filter fun p => decide (p.2 < s.1)).map (·, s))
        ++ gaps sc text (some s) rest

/-- Whenever spans are left out between two chunks, they and the span of the
second are within the ceiling together. -/
def GapsFit (sc : StructuralChunker) (doc : ParsedDocument) : Prop :=
  ∀ spans, sc.spansOf doc = .ok spans →
    ∀ g ∈ sc.gaps doc.text none spans,
      sc.within doc.text sc.config.maximum (g.1.2, g.2.2) = true

variable {spans pieces : List Span} {s : Span} {stop : Nat}

theorem Sized.zeroFits (h : Sized sc) : ZeroFits sc := fun _ _ _ => by
  have := h.target_pos
  have := h.target_le
  omega

theorem Sized.within_target (h : Sized sc)
    (hs : sc.within text sc.config.target s = true) :
    sc.within text sc.config.maximum s = true := by
  have hle := h.target_le
  unfold within at hs ⊢
  rw [decide_eq_true_eq] at hs ⊢
  omega

-- ====== last resorts

theorem halve_within (h : Sized sc) {turns cursor cut : Nat}
    (hcut : sc.halve text turns cursor stop = .ok cut) (hlt : cursor < cut)
    (hlen : cut ≤ text.length) :
    sc.within text sc.config.maximum (cursor, cut) = true := by
  induction turns generalizing stop with
  | zero => cases hcut
  | succ turns ih =>
    unfold halve at hcut
    split at hcut
    case isTrue => exact ih hcut
    case isFalse hdone =>
      cases hcut
      by_cases hbig : cut - cursor > 1
      · by_contra hover
        exact hdone ⟨hbig, by simpa using hover⟩
      · have heq : cut = cursor + 1 := by omega
        subst heq
        unfold within between
        rw [decide_eq_true_eq, List.take_add_one,
          List.drop_append_of_le_length (by rw [List.length_take]; omega),
          List.getElem?_eq_getElem (by omega)]
        simpa using h.character _

theorem characterSplit_within (h : Sized sc) {turns cursor : Nat}
    (hlen : stop ≤ text.length)
    (hok : sc.characterSplit text stop turns cursor = .ok pieces) :
    Within sc text pieces := by
  induction turns generalizing cursor pieces with
  | zero => cases hok
  | succ turns ih =>
    unfold characterSplit at hok
    split at hok
    case isFalse =>
      cases hok
      exact List.forall_mem_nil _
    case isTrue hlt =>
      simp only at hok
      split at hok
      case isTrue hfits =>
        cases hok
        intro s hs
        rw [List.mem_singleton.mp hs]
        exact decide_eq_true hfits
      case isFalse =>
        split at hok
        case isTrue => cases hok
        case isFalse =>
          obtain ⟨cut', hcut', h1, h2⟩ := @halve_ok sc text
            (stop - cursor + 1) cursor (min stop (cursor + (max 1
              (((stop - cursor : Nat) : Int) * sc.config.target
                / (sc.count (between text cursor stop) : Int))).toNat))
            (by omega) (by omega)
          rw [hcut'] at hok
          simp only at hok
          split at hok
          case h_1 => cases hok
          case h_2 more hmore =>
            cases hok
            refine List.forall_mem_cons.mpr ⟨?_, ih hmore⟩
            exact halve_within h hcut' h1 (by omega)

theorem characterCut_keeps (h : Sized sc) :
    Keeps sc text (sc.characterCut text) := fun _ _ hlen _ hok =>
  characterSplit_within h hlen hok

theorem ceiling_within {f : Span → Cuts} (hf : Keeps sc text f) {a b : Nat} (h : Tiles a b spans) (hb : b ≤ text.length)
    (hok : sc.ceiling text f spans = .ok pieces) : Within sc text pieces := by
  intro p hp
  obtain ⟨s, hs, ps, hps, hmem⟩ := mem_recut hok hp
  obtain ⟨-, hlt, hle⟩ := h.bounds hs
  split at hps
  case isTrue hfits =>
    cases hps
    rw [List.mem_singleton.mp hmem]
    exact hfits
  case isFalse => exact hf s hlt (Nat.le_trans hle hb) ps hps p hmem

theorem hardSplit_keeps (h : Sized sc) :
    Keeps sc text (sc.hardSplit text) := by
  intro s hlt hlen pieces hok
  obtain ⟨spans, hspans, htiles⟩ := @hardSplitLoop_ok sc text
    (s.2 - s.1 + 1) s.1 s.1 s.2 hlen (Nat.le_refl _) (Nat.le_of_lt hlt)
    (Nat.lt_succ_self _)
  unfold hardSplit at hok
  simp only [hspans] at hok
  exact ceiling_within (characterCut_keeps h) htiles hlen hok

-- ====== prose and code

theorem fill_keeps (h : Sized sc) : Keeps sc text (sc.fill text) := by
  intro s hlt hlen pieces hok
  unfold fill at hok
  split at hok
  case isTrue hfits =>
    cases hok
    intro p hp
    rw [List.mem_singleton.mp hp]
    exact h.within_target hfits
  case isFalse =>
    simp only at hok
    split at hok
    case isTrue => exact hardSplit_keeps h s hlt hlen pieces hok
    case isFalse =>
      exact ceiling_within (hardSplit_keeps h) (fill_tiles hlt hlen) hlen hok

theorem splitAt_within (h : Sized sc) {sets : List (List Nat)}
    (hlt : s.1 < s.2) (hlen : s.2 ≤ text.length)
    (hok : sc.splitAt text s sets = .ok pieces) : Within sc text pieces := by
  induction sets with
  | nil => exact hardSplit_keeps h s hlt hlen pieces hok
  | cons boundaries rest ih =>
    unfold splitAt at hok
    split at hok
    case isTrue => exact ih hok
    case isFalse =>
      split at hok
      case h_1 => cases hok
      case h_2 spans _ =>
        split at hok
        case isTrue hall =>
          cases hok
          exact List.all_eq_true.mp hall
        case isFalse => exact ih hok

-- ========= merging

theorem mergeForward_within (h : Sized sc)
    (hs : Within sc text (s :: spans)) :
    Within sc text (sc.mergeForward text s spans) := by
  induction spans generalizing s with
  | nil => exact hs
  | cons next rest ih =>
    obtain ⟨hfirst, hrest⟩ := List.forall_mem_cons.mp hs
    unfold mergeForward
    split
    case isTrue hjoin =>
      rw [Bool.and_eq_true] at hjoin
      refine ih (List.forall_mem_cons.mpr ⟨h.within_target hjoin.2, ?_⟩)
      exact fun t ht => hrest t (List.mem_cons_of_mem next ht)
    case isFalse => exact List.forall_mem_cons.mpr ⟨hfirst, ih hrest⟩

theorem mergeLast_within (h : Sized sc)
    (hs : Within sc text spans) :
    Within sc text (sc.mergeLast text spans) := by
  induction spans with
  | nil => exact hs
  | cons s rest ih =>
    obtain ⟨hfirst, hrest⟩ := List.forall_mem_cons.mp hs
    cases rest with
    | nil => exact hs
    | cons t rest =>
      cases rest with
      | nil =>
        unfold mergeLast
        split
        case isTrue hjoin =>
          rw [Bool.and_eq_true] at hjoin
          intro p hp
          rw [List.mem_singleton.mp hp]
          exact h.within_target hjoin.2
        case isFalse => exact hs
      | cons u rest => exact List.forall_mem_cons.mpr ⟨hfirst, ih hrest⟩

theorem mergeUndersized_within (h : Sized sc)
    (hs : Within sc text spans) :
    Within sc text (sc.mergeUndersized text spans) := by
  cases spans with
  | nil => exact hs
  | cons s rest => exact mergeLast_within h (mergeForward_within h hs)

theorem spansOf_within (h : Sized sc) {doc : ParsedDocument} (hok : sc.spansOf doc = .ok spans) :
    Within sc doc.text spans := by
  unfold spansOf at hok
  simp only at hok
  split at hok
  case h_1 => cases hok
  case h_2 pieces hpieces =>
    cases hok
    refine mergeUndersized_within h fun p hp => ?_
    obtain ⟨s, hs, ps, hps, hmem⟩ := mem_recut hpieces hp
    obtain ⟨-, hlt, hlen⟩ := (sections_tiles doc).bounds hs
    split at hps
    case isTrue =>
      split at hps
      case isTrue hfits =>
        cases hps
        rw [List.mem_singleton.mp hmem]
        exact hfits
      case isFalse => exact splitAt_within h hlt hlen hps p hmem
    case isFalse => exact fill_keeps h s hlt hlen ps hps p hmem

-- ========= overlap

theorem within_later (h : Sized sc) {start later : Nat}
    (hle : start ≤ later)
    (hs : sc.within text sc.config.maximum (start, stop) = true) :
    sc.within text sc.config.maximum (later, stop) = true := by
  unfold within at hs ⊢
  rw [decide_eq_true_eq] at hs ⊢
  refine Int.le_trans (Int.ofNat_le.mpr ?_) hs
  have hdrop : between text later stop
      = (between text start stop).drop (later - start) := by
    unfold between
    rw [List.drop_drop, Nat.add_sub_cancel' hle]
  have hext := h.extend ((between text start stop).take (later - start))
    (between text later stop) []
  rwa [List.append_nil, hdrop, List.take_append_drop, ← hdrop] at hext

theorem overlapStart_cases (previous : Span) (stop : Nat) :
    sc.overlapStart text previous stop = previous.2
      ∨ sc.within text sc.config.maximum
          (sc.overlapStart text previous stop, stop) = true := by
  unfold overlapStart
  split
  case isTrue => exact .inl rfl
  case isFalse =>
    simp only
    split
    case isTrue hfits => exact .inr hfits
    case isFalse => exact .inl rfl

theorem bodyStart_within_iff (h : Sized sc) {previous : Option Span} (hp : Precedes text previous s.1)
    (hs : sc.within text sc.config.maximum s = true) :
    sc.within text sc.config.maximum (sc.bodyStart text previous s, s.2) = true
      ↔ ∀ p, previous = some p → p.2 < s.1 →
          sc.within text sc.config.maximum (p.2, s.2) = true := by
  cases previous with
  | none => exact iff_of_true hs nofun
  | some p =>
    obtain ⟨hlt, hle, hlen⟩ := hp p rfl
    have hbefore := @overlapStart_le sc text p s.2 hlt hlen
    show sc.within text sc.config.maximum
      (sc.overlapStart text p s.2, s.2) = true ↔ _
    constructor
    · rintro hfits q hq -
      cases hq
      exact within_later h hbefore hfits
    · intro hgap
      rcases @overlapStart_cases sc text p s.2
        with hgive | hkept
      · rw [hgive]
        rcases Nat.lt_or_ge p.2 s.1 with hg | hg
        · exact hgap p rfl hg
        · rw [Nat.le_antisymm hle hg]
          exact hs
      · exact hkept

-- ====== main results

theorem toChunks_within_iff (h : Sized sc)
    {definitions : List StructureMarker} {n : Nat} {previous : Option Span}
    {a b : Nat} (htiles : Tiles a b spans)
    (hb : b ≤ text.length) (hp : Precedes text previous a)
    (hspans : Within sc text spans) :
    (∀ c ∈ sc.toChunks text definitions n previous spans,
      (sc.count c.text : Int) ≤ sc.config.maximum)
      ↔ ∀ g ∈ sc.gaps text previous spans,
          sc.within text sc.config.maximum (g.1.2, g.2.2) = true := by
  induction htiles generalizing n previous with
  | nil a =>
    exact iff_of_true (List.forall_mem_nil _) (List.forall_mem_nil _)
  | @cons a m b l hlt hrest ih =>
    obtain ⟨hfirst, hlater⟩ := List.forall_mem_cons.mp hspans
    unfold toChunks gaps
    split
    case isTrue => exact ih hb (hp.mono (Nat.le_of_lt hlt)) hlater
    case isFalse =>
      rw [List.forall_mem_cons, List.forall_mem_append]
      refine and_congr ?_ (ih hb (.next hlt hrest.le hb) hlater)
      refine Iff.trans ?_ ((bodyStart_within_iff h hp hfirst).trans ?_)
      · unfold within
        exact decide_eq_true_iff.symm
      · cases previous with
        | none => simp
        | some p =>
          by_cases hg : p.2 < a
          · simp [hg]
          · simp [hg]

theorem gaps_of_blank (hblank : isBlank text = true) (spans : List Span) :
    sc.gaps text none spans = [] := by
  induction spans with
  | nil => rfl
  | cons s rest ih =>
    unfold gaps
    rw [if_pos, ih]
    show (_ || isBlank (between text s.1 s.2)) = true
    rw [isBlank_slice hblank, Bool.or_true]

/-- **Chunking ends, and when it keeps to the ceiling**: every chunk, its
borrowed prefix included, is within the ceiling exactly when what was left
out between two chunks fits with the second. -/
theorem within_ceiling_iff (h : Sized sc) (doc : ParsedDocument) :
    ∃ chunks, sc.chunk doc = .ok chunks
      ∧ ((∀ c ∈ chunks, (sc.count c.text : Int) ≤ sc.config.maximum)
          ↔ GapsFit sc doc) := by
  obtain ⟨spans, hspans, htiles⟩ := spansOf_ok h.zeroFits doc
  have hgaps : GapsFit sc doc ↔ ∀ g ∈ sc.gaps doc.text none spans,
      sc.within doc.text sc.config.maximum (g.1.2, g.2.2) = true := by
    refine ⟨fun hfit => hfit spans hspans, fun hfit spans' hspans' => ?_⟩
    cases hspans.symm.trans hspans'
    exact hfit
  unfold chunk
  split
  case isTrue hblank =>
    refine ⟨[], rfl, iff_of_true nofun (hgaps.mpr ?_)⟩
    rw [gaps_of_blank hblank]
    exact nofun
  case isFalse =>
    simp only [hspans]
    refine ⟨_, rfl, Iff.trans ?_ hgaps.symm⟩
    exact toChunks_within_iff h htiles (Nat.le_refl _) nofun
      (spansOf_within h hspans)

/-- Ten characters to a chunk, and no overlap. -/
def tenCharacters : StructuralChunker :=
  { count := List.length
    config := { maximum := 10, target := 10, overlap := 0, minimum := 0 } }

theorem tenCharacters_sized : Sized tenCharacters where
  target_pos := by decide
  target_le := by decide
  character _ := by
    show ((1 : Nat) : Int) ≤ 10
    decide
  extend before t after := by
    show t.length ≤ (before ++ t ++ after).length
    rw [List.length_append, List.length_append]
    omega

/-- Ten characters to a chunk, on a text of fewer. -/
theorem within_ceiling_iff_tenCharacters :
    ∃ chunks, tenCharacters.chunk (plainNote "One. Two.".toList) = .ok chunks
      ∧ ((∀ c ∈ chunks, (tenCharacters.count c.text : Int)
            ≤ tenCharacters.config.maximum)
          ↔ GapsFit tenCharacters (plainNote "One. Two.".toList)) :=
  within_ceiling_iff tenCharacters_sized _

/-- Ten letters, ten spaces and ten letters: the spaces are left out, and
then counted in the last chunk. -/
theorem ceiling_exceeded :
    ∃ (sc : StructuralChunker) (doc : ParsedDocument)
      (chunks : List TextChunk), Sized sc ∧ sc.chunk doc = .ok chunks
        ∧ ∃ c ∈ chunks, sc.config.maximum < (sc.count c.text : Int) := by
  refine ⟨tenCharacters,
    plainNote (List.replicate 10 'a' ++ List.replicate 10 ' '
      ++ List.replicate 10 'b'), _, tenCharacters_sized, rfl, ?_⟩
  decide +kernel

end MemoryOS.StructuralChunker
