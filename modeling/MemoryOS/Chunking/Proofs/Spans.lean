/-
Every pass of the chunker cuts a span into a tiling of it.

A pass either cuts a span (`Recuts`) or joins neighbours, and every loop
ends, so the spans of a document tile its text (`spansOf_ok`).
-/
import MemoryOS.Chunking.Structural

namespace MemoryOS.StructuralChunker

open Lib Sentences CodeBoundaries

variable {sc : StructuralChunker} {text : Text}

-- ====== statement vocabulary

/-- A pass that cuts any span of the text, and into a tiling of it. -/
def Recuts (text : Text) (f : Span → Cuts) : Prop :=
  ∀ s : Span, s.1 < s.2 → s.2 ≤ text.length →
    ∃ pieces, f s = .ok pieces ∧ Tiles s.1 s.2 pieces

/-- A text that counts nothing is within the ceiling. -/
def ZeroFits (sc : StructuralChunker) : Prop :=
  ∀ t, t ≠ [] → sc.count t = 0 → 0 ≤ sc.config.maximum

-- ====== text slices

variable {stop a b start cursor : Nat} {spans : List Span} {s : Span}

theorem length_between (h : stop ≤ text.length) :
    (between text start stop).length = stop - start := by
  unfold between
  rw [List.length_drop, List.length_take, Nat.min_eq_left h]

theorem isBlank_slice (h : isBlank text = true) (a b : Nat) :
    isBlank (between text a b) = true :=
  isBlank_iff.2 fun c hc => isBlank_iff.1 h c
    (List.mem_of_mem_take (List.mem_of_mem_drop hc))

theorem mem_between {i : Nat} (hs : start ≤ i) (he : i < stop)
    (hi : i < text.length) : text[i] ∈ between text start stop := by
  unfold between
  rw [List.mem_iff_getElem]
  refine ⟨i - start, ?_, ?_⟩
  · rw [List.length_drop, List.length_take]
    omega
  · rw [List.getElem_drop, List.getElem_take]
    congr 1
    omega

theorem skipWhile_bounds {p : Char → Bool} {index stop : Nat}
    (hle : index ≤ stop) (hlen : stop ≤ text.length) :
    index ≤ skipWhile text p index stop
      ∧ skipWhile text p index stop ≤ stop := by
  have htake := (List.takeWhile_sublist p
    (l := between text index stop)).length_le
  rw [length_between hlen] at htake
  unfold skipWhile
  omega

theorem skipWhile_lt {p : Char → Bool} {index : Nat}
    (hlt : index < stop) (hi : index < text.length)
    (hp : p text[index] = true) : index < skipWhile text p index stop := by
  have hhead : between text index stop
      = text[index] :: between text (index + 1) stop := by
    unfold between
    rw [List.drop_eq_getElem_cons (by rw [List.length_take]; omega),
      List.getElem_take]
  unfold skipWhile
  rw [hhead, List.takeWhile_cons_of_pos hp, List.length_cons]
  omega

theorem turn_bounds {index : Nat} (hlt : index < stop)
    (hlen : stop ≤ text.length) :
    let word := skipWhile text (fun c => !isSpace c) index stop
    let next := skipWhile text isSpace word stop
    index < next ∧ next ≤ stop := by
  intro word next
  obtain ⟨hw1, hw2⟩ := @skipWhile_bounds text (fun c => !isSpace c) index stop
    (Nat.le_of_lt hlt) hlen
  obtain ⟨hn1, hn2⟩ := @skipWhile_bounds text isSpace word stop hw2 hlen
  have hi : index < text.length := Nat.lt_of_lt_of_le hlt hlen
  refine ⟨?_, hn2⟩
  by_cases hsp : isSpace text[index] = true
  · rcases Nat.lt_or_ge index word with hw | hw
    · exact Nat.lt_of_lt_of_le hw hn1
    · have hword : word = index := Nat.le_antisymm hw hw1
      show index < skipWhile text isSpace word stop
      rw [hword]
      exact skipWhile_lt hlt hi hsp
  · have hw : index < word := skipWhile_lt hlt hi (by simpa using hsp)
    exact Nat.lt_of_lt_of_le hw hn1

-- ====== last resorts

theorem halve_ok {turns cursor stop : Nat} (hlt : cursor < stop)
    (hturns : stop - cursor ≤ turns) :
    ∃ cut, sc.halve text turns cursor stop = .ok cut
      ∧ cursor < cut ∧ cut ≤ stop := by
  induction turns generalizing stop with
  | zero => omega
  | succ turns ih =>
    unfold halve
    split
    case isTrue hbig =>
      have hhalf : (stop - cursor) / 2 < stop - cursor :=
        Nat.div_lt_self (by omega) (by omega)
      have hzero : max 1 ((stop - cursor) / 2) < stop - cursor := by
        rw [Nat.max_lt]
        exact ⟨hbig.1, hhalf⟩
      have hpos : 1 ≤ max 1 ((stop - cursor) / 2) := Nat.le_max_left _ _
      obtain ⟨cut, hcut, h1, h2⟩ :=
        @ih (cursor + max 1 ((stop - cursor) / 2)) (by omega) (by omega)
      exact ⟨cut, hcut, h1, by omega⟩
    case isFalse => exact ⟨stop, rfl, hlt, Nat.le_refl _⟩

theorem characterSplit_ok (hzero : ZeroFits sc)
    {turns : Nat} (hle : cursor ≤ stop)
    (hlen : stop ≤ text.length) (hturns : stop - cursor < turns) :
    ∃ pieces, sc.characterSplit text stop turns cursor = .ok pieces
      ∧ Tiles cursor stop pieces := by
  induction turns generalizing cursor with
  | zero => omega
  | succ turns ih =>
    unfold characterSplit
    split
    case isFalse =>
      have heq : cursor = stop := by omega
      exact ⟨[], rfl, heq ▸ .nil cursor⟩
    case isTrue hlt =>
      simp only
      split
      case isTrue => exact ⟨_, rfl, .single hlt⟩
      case isFalse hover =>
        split
        case isTrue hcount =>
          -- the source would divide by zero here
          rw [hcount] at hover
          have hne : between text cursor stop ≠ [] := by
            rw [← List.length_pos_iff, length_between hlen]
            omega
          exact absurd (hzero _ hne hcount) hover
        case isFalse =>
          have hest : 1 ≤ (max 1 (((stop - cursor : Nat) : Int)
              * sc.config.target
              / (sc.count (between text cursor stop) : Int))).toNat := by
            have := le_max_left 1 (((stop - cursor : Nat) : Int)
              * sc.config.target
              / (sc.count (between text cursor stop) : Int))
            omega
          obtain ⟨cut, hcut, h1, h2⟩ := @halve_ok sc text
            (stop - cursor + 1) cursor (min stop (cursor + (max 1
              (((stop - cursor : Nat) : Int) * sc.config.target
                / (sc.count (between text cursor stop) : Int))).toNat))
            (by omega) (by omega)
          obtain ⟨more, hmore, htiles⟩ := @ih cut (by omega) (by omega)
          rw [hcut]
          simp only [hmore]
          exact ⟨_, rfl, .cons h1 htiles⟩

theorem characterCut_recuts (hzero : ZeroFits sc) :
    Recuts text (sc.characterCut text) := fun _ hlt hlen =>
  characterSplit_ok hzero (Nat.le_of_lt hlt) hlen (Nat.lt_succ_self _)

theorem ceiling_ok {f : Span → Cuts} (hf : Recuts text f) (h : Tiles a b spans) (hb : b ≤ text.length) :
    ∃ pieces, sc.ceiling text f spans = .ok pieces ∧ Tiles a b pieces := by
  have hcut : ∀ s ∈ spans, ∃ pieces,
      (if sc.within text sc.config.maximum s then Except.ok [s] else f s)
        = .ok pieces ∧ Tiles s.1 s.2 pieces := by
    intro s hs
    obtain ⟨-, hlt, hle⟩ := h.bounds hs
    split
    case isTrue => exact ⟨[s], rfl, .single hlt⟩
    case isFalse => exact hf s hlt (Nat.le_trans hle hb)
  unfold ceiling
  obtain ⟨pieces, hpieces⟩ := recut_ok (l := spans) fun s hs =>
    (hcut s hs).imp fun _ => And.left
  refine ⟨pieces, hpieces, h.recut (fun s hs ps hps => ?_) hpieces⟩
  obtain ⟨ps', hps', htiles⟩ := hcut s hs
  cases hps.symm.trans hps'
  exact htiles

theorem remainder_tiles (hle : cursor ≤ stop) :
    Tiles cursor stop (if cursor < stop then [(cursor, stop)] else []) := by
  split
  case isTrue hlt => exact .single hlt
  case isFalse hge =>
    have heq : cursor = stop := Nat.le_antisymm hle (Nat.not_lt.mp hge)
    exact heq ▸ .nil cursor

theorem hardSplitLoop_ok {turns cursor index stop : Nat}
    (hlen : stop ≤ text.length) (hci : cursor ≤ index) (his : index ≤ stop)
    (hturns : stop - index < turns) :
    ∃ pieces, sc.hardSplitLoop text stop turns cursor index = .ok pieces
      ∧ Tiles cursor stop pieces := by
  induction turns generalizing cursor index with
  | zero => omega
  | succ turns ih =>
    unfold hardSplitLoop
    split
    case isTrue hlt =>
      obtain ⟨hn1, hn2⟩ := turn_bounds hlt hlen
      simp only at hn1 hn2 ⊢
      split
      case isTrue =>
        obtain ⟨more, hmore, htiles⟩ :=
          ih (Nat.le_refl _) hn2 (by omega)
        simp only [hmore]
        exact ⟨_, rfl, .cons (Nat.lt_of_le_of_lt hci hn1) htiles⟩
      case isFalse =>
        exact ih (by omega) hn2 (by omega)
    case isFalse =>
      exact ⟨_, rfl, remainder_tiles (Nat.le_trans hci his)⟩

theorem hardSplit_recuts (hzero : ZeroFits sc) :
    Recuts text (sc.hardSplit text) := by
  intro s hlt hlen
  obtain ⟨spans, hspans, htiles⟩ := @hardSplitLoop_ok sc text
    (s.2 - s.1 + 1) s.1 s.1 s.2 hlen (Nat.le_refl _) (Nat.le_of_lt hlt)
    (Nat.lt_succ_self _)
  unfold hardSplit
  simp only [hspans]
  exact ceiling_ok (characterCut_recuts hzero) htiles hlen

-- =========== prose

theorem fillLoop_tiles {accumulated : Nat}
    {sentences : List Span} (hlt : cursor < stop)
    (hsorted : sentences.Pairwise fun s t => s.1 < t.1)
    (hin : ∀ s ∈ sentences, cursor ≤ start + s.1 ∧ start + s.1 < stop)
    (hpast : accumulated ≠ 0 → ∀ s ∈ sentences, cursor < start + s.1) :
    Tiles cursor stop
      (sc.fillLoop text start stop cursor accumulated sentences) := by
  induction sentences generalizing cursor accumulated with
  | nil => exact .single hlt
  | cons s rest ih =>
    obtain ⟨hfirst, hrest⟩ := List.pairwise_cons.mp hsorted
    obtain ⟨hcs, hss⟩ := hin s List.mem_cons_self
    have hlater : ∀ t ∈ rest, start + s.1 < start + t.1
        ∧ start + t.1 < stop := fun t ht =>
      ⟨Nat.add_lt_add_left (hfirst t ht) _,
        (hin t (List.mem_cons_of_mem s ht)).2⟩
    unfold fillLoop
    simp only
    split
    case isTrue hbreak =>
      refine .cons (hpast hbreak.1 s List.mem_cons_self) ?_
      exact ih hss hrest (fun t ht => ⟨Nat.le_of_lt (hlater t ht).1,
        (hlater t ht).2⟩) fun _ t ht => (hlater t ht).1
    case isFalse =>
      refine ih hlt hrest (fun t ht => ?_) fun _ t ht => ?_
      · exact ⟨Nat.le_of_lt (Nat.lt_of_le_of_lt hcs (hlater t ht).1),
          (hlater t ht).2⟩
      · exact Nat.lt_of_le_of_lt hcs (hlater t ht).1

theorem fill_tiles (hlt : s.1 < s.2) (hlen : s.2 ≤ text.length) :
    Tiles s.1 s.2 (sc.fillLoop text s.1 s.2 s.1 0
      (splitSentences sc.unicode (between text s.1 s.2))) := by
  obtain ⟨hsorted, hin⟩ :=
    splitSentences_starts sc.unicode (between text s.1 s.2)
  rw [length_between hlen] at hin
  refine fillLoop_tiles hlt hsorted (fun t ht => ?_) fun h => absurd rfl h
  have := hin t ht
  omega

theorem fill_recuts (hzero : ZeroFits sc) :
    Recuts text (sc.fill text) := by
  intro s hlt hlen
  unfold fill
  split
  case isTrue => exact ⟨[s], rfl, .single hlt⟩
  case isFalse =>
    simp only
    split
    case isTrue => exact hardSplit_recuts hzero s hlt hlen
    case isFalse =>
      exact ceiling_ok (hardSplit_recuts hzero) (fill_tiles hlt hlen) hlen

-- ============ code

theorem fillBetweenLoop_ok {turns cursor stop : Nat} {furthest : Option Nat}
    {candidates : List Nat} (hle : cursor ≤ stop)
    (hin : ∀ b ∈ candidates, b ≤ stop)
    (hfar : ∀ f, furthest = some f → cursor < f ∧ f ≤ stop)
    (hturns : 2 * candidates.length + (if furthest.isSome then 1 else 0)
      ≤ turns) :
    ∃ spans, sc.fillBetweenLoop text stop turns candidates cursor furthest
        = .ok spans ∧ Tiles cursor stop spans := by
  induction turns generalizing candidates cursor furthest with
  | zero =>
    cases candidates with
    | nil =>
      unfold fillBetweenLoop
      exact ⟨_, rfl, remainder_tiles hle⟩
    | cons b rest =>
      rw [List.length_cons] at hturns
      omega
  | succ turns ih =>
    cases candidates with
    | nil =>
      unfold fillBetweenLoop
      exact ⟨_, rfl, remainder_tiles hle⟩
    | cons b rest =>
      have hb := hin b List.mem_cons_self
      have hrest : ∀ b' ∈ rest, b' ≤ stop := fun b' hb' =>
        hin b' (List.mem_cons_of_mem b hb')
      rw [List.length_cons] at hturns
      unfold fillBetweenLoop
      split
      case isTrue =>
        refine ih hle hrest hfar ?_
        omega
      case isFalse hcb =>
        split
        case isTrue =>
          refine ih hle hrest (fun f hf => ?_) ?_
          · cases hf
            omega
          · rw [Option.isSome_some, if_pos rfl]
            omega
        case isFalse =>
          -- one span is emitted, up to `chosen`
          have hemit : ∀ chosen rest', cursor < chosen → chosen ≤ stop →
              (∀ b' ∈ rest', b' ≤ stop) → 2 * rest'.length ≤ turns →
              ∃ spans, sc.fillBetweenLoop text stop turns rest' chosen
                  none = .ok spans
                ∧ Tiles cursor stop ((cursor, chosen) :: spans) := by
            intro chosen rest' h1 h2 h3 h4
            obtain ⟨spans, hspans, htiles⟩ :=
              @ih chosen none rest' h2 h3 (by simp) h4
            exact ⟨spans, hspans, .cons h1 htiles⟩
          simp only
          cases furthest with
          | none =>
            obtain ⟨spans, hspans, htiles⟩ :=
              hemit b rest (by omega) hb hrest (by omega)
            rw [Option.getD_none, if_pos rfl, hspans]
            exact ⟨_, rfl, htiles⟩
          | some f =>
            obtain ⟨hf1, hf2⟩ := hfar f rfl
            rw [Option.isSome_some, if_pos rfl] at hturns
            rw [Option.getD_some]
            by_cases hfb : f = b
            · obtain ⟨spans, hspans, htiles⟩ :=
                hemit f rest hf1 hf2 hrest (by omega)
              rw [if_pos hfb, hspans]
              exact ⟨_, rfl, htiles⟩
            · obtain ⟨spans, hspans, htiles⟩ :=
                hemit f (b :: rest) hf1 hf2 hin
                  (by rw [List.length_cons]; omega)
              rw [if_neg hfb, hspans]
              exact ⟨_, rfl, htiles⟩

theorem fillBetween_ok {s : Span} {boundaries : List Nat} (hlt : s.1 < s.2)
    (hin : ∀ b ∈ boundaries, b < s.2) :
    ∃ spans, sc.fillBetween text s boundaries = .ok spans
      ∧ Tiles s.1 s.2 spans := by
  obtain ⟨spans, hspans, htiles⟩ := @fillBetweenLoop_ok sc text
    (2 * (boundaries.length + 1)) s.1 s.2 none (boundaries ++ [s.2])
    (Nat.le_of_lt hlt)
    (fun b hb => by
      rcases List.mem_append.mp hb with hb | hb
      · exact Nat.le_of_lt (hin b hb)
      · rw [List.mem_singleton.mp hb])
    nofun
    (by simp)
  unfold fillBetween
  rw [hspans]
  refine ⟨_, rfl, ?_⟩
  cases spans with
  | nil => exact .single hlt
  | cons p rest => exact htiles

theorem splitAt_ok (hzero : ZeroFits sc)
    {sets : List (List Nat)} (hlt : s.1 < s.2) (hlen : s.2 ≤ text.length)
    (hin : ∀ boundaries ∈ sets, ∀ b ∈ boundaries, b < s.2) :
    ∃ pieces, sc.splitAt text s sets = .ok pieces
      ∧ Tiles s.1 s.2 pieces := by
  induction sets with
  | nil => exact hardSplit_recuts hzero s hlt hlen
  | cons boundaries rest ih =>
    have hlater := ih fun bs hbs => hin bs (List.mem_cons_of_mem _ hbs)
    obtain ⟨spans, hspans, htiles⟩ := @fillBetween_ok sc text s boundaries
      hlt (hin boundaries List.mem_cons_self)
    unfold splitAt
    split
    case isTrue => exact hlater
    case isFalse =>
      rw [hspans]
      simp only
      split
      case isTrue => exact ⟨spans, rfl, htiles⟩
      case isFalse => exact hlater

theorem splitDefinition_recuts (hzero : ZeroFits sc) :
    Recuts text (sc.splitDefinition text) := by
  intro s hlt hlen
  unfold splitDefinition
  refine splitAt_ok hzero hlt hlen ?_
  simp only [List.forall_mem_cons, List.not_mem_nil, false_implies,
    implies_true, and_true]
  exact ⟨fun b hb => blankLineOffsets_lt b (mem_of_mem_balanced hb),
    fun b hb => outermostStatementOffsets_lt hlen b (mem_of_mem_balanced hb),
    fun b hb => lineStartOffsets_lt hlen b (mem_of_mem_balanced hb),
    lineStartOffsets_lt hlen⟩

-- ========= merging

theorem mergeForward_tiles (h : Tiles a b (s :: spans)) :
    Tiles a b (sc.mergeForward text s spans) := by
  induction spans generalizing a s with
  | nil => exact h
  | cons next rest ih =>
    unfold mergeForward
    cases h with
    | cons hlt hrest =>
      split
      case isTrue =>
        refine ih ?_
        cases hrest with
        | cons hlt' hrest' => exact (Tiles.cons hlt (.cons hlt' hrest')).join
      case isFalse => exact .cons hlt (ih hrest)

theorem mergeLast_tiles
    (h : Tiles a b spans) : Tiles a b (sc.mergeLast text spans) := by
  induction spans generalizing a with
  | nil => exact h
  | cons s rest ih =>
    cases h with
    | cons hlt hrest =>
      cases rest with
      | nil => exact .cons hlt hrest
      | cons t rest =>
        cases rest with
        | nil =>
          unfold mergeLast
          split
          case isTrue =>
            cases hrest with
            | cons hlt' hrest' =>
              exact (Tiles.cons hlt (.cons hlt' hrest')).join
          case isFalse => exact .cons hlt hrest
        | cons u rest => exact .cons hlt (ih hrest)

theorem mergeUndersized_tiles
    (h : Tiles a b spans) : Tiles a b (sc.mergeUndersized text spans) := by
  cases spans with
  | nil => exact h
  | cons s rest => exact mergeLast_tiles (mergeForward_tiles h)

-- ====== the document

theorem sections_tiles (doc : ParsedDocument) :
    Tiles 0 doc.text.length (sections doc) := by
  unfold sections
  simp only
  generalize hoff : (((doc.structure_.map (·.charOffset)).filter fun o =>
    decide (0 < o ∧ o < doc.text.length)).dedup).insertionSort (· ≤ ·)
    = offsets
  have hlt : ∀ o ∈ offsets, o < doc.text.length := by
    intro o ho
    rw [← hoff, List.mem_insertionSort, List.mem_dedup] at ho
    have := (List.mem_filter.mp ho).2
    rw [decide_eq_true_eq] at this
    exact this.2
  have hsorted : (0 :: (offsets ++ [doc.text.length])).Pairwise (· ≤ ·) := by
    refine List.Pairwise.cons (fun o _ => Nat.zero_le o) ?_
    rw [List.pairwise_append]
    refine ⟨?_, List.pairwise_singleton _ _, fun o ho n hn => ?_⟩
    · rw [← hoff]
      exact List.pairwise_insertionSort _ _
    · rw [List.mem_singleton.mp hn]
      exact Nat.le_of_lt (hlt o ho)
  have hpairs := Tiles.pairs hsorted
  have hlast : (0 :: (offsets ++ [doc.text.length])).getLast
      (List.cons_ne_nil _ _) = doc.text.length := by
    rw [List.getLast_cons (by simp), List.getLast_append_singleton]
  rw [hlast] at hpairs
  exact hpairs

theorem spansOf_ok (hzero : ZeroFits sc) (doc : ParsedDocument) :
    ∃ spans, sc.spansOf doc = .ok spans
      ∧ Tiles 0 doc.text.length spans := by
  have hcut : Recuts doc.text fun s =>
      if doc.kind = .code then
        if sc.within doc.text sc.config.maximum s then .ok [s]
        else sc.splitDefinition doc.text s
      else sc.fill doc.text s := by
    intro s hlt hlen
    simp only
    split
    case isTrue =>
      split
      case isTrue => exact ⟨[s], rfl, .single hlt⟩
      case isFalse => exact splitDefinition_recuts hzero s hlt hlen
    case isFalse => exact fill_recuts hzero s hlt hlen
  have hsec := sections_tiles doc
  have hin : ∀ s ∈ sections doc, s.1 < s.2 ∧ s.2 ≤ doc.text.length :=
    fun s hs => (hsec.bounds hs).2
  obtain ⟨spans, hspans⟩ := recut_ok (l := sections doc) fun s hs =>
    (hcut s (hin s hs).1 (hin s hs).2).imp fun _ => And.left
  unfold spansOf
  simp only [hspans]
  refine ⟨_, rfl, mergeUndersized_tiles (hsec.recut (fun s hs ps hps => ?_)
    hspans)⟩
  obtain ⟨ps', hps', htiles⟩ := hcut s (hin s hs).1 (hin s hs).2
  cases hps.symm.trans hps'
  exact htiles

end MemoryOS.StructuralChunker
