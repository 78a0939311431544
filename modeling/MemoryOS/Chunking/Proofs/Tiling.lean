/-
The chunks tile the document and stay citable.

The spans tile it (`spansOf_ok`); `_to_chunks` leaves out whole spans and
lends each chunk a prefix from before it, which begins in the span of the
chunk before (`bodyStart_le`).

# What is left out

`chunks_tile`: a character that is not whitespace is in exactly one chunk's
own span, unless the piece it is in, borrowed prefix included, counted no
tokens.
-/
import MemoryOS.Chunking.Proofs.Spans

namespace MemoryOS.StructuralChunker

open Lib Sentences CodeBoundaries

variable {sc : StructuralChunker} {text : Text}

-- ====== statement vocabulary

/-- The character is in the chunk's own span. -/
def OwnedBy (i : Nat) (c : TextChunk) : Prop := c.charStart ≤ i ∧ i < c.charEnd

/-- The character is in a piece `s` that is no chunk's, because it counted
no tokens with what it borrowed from `start` on. -/
structure Uncounted (sc : StructuralChunker) (text : Text)
    (chunks : List TextChunk) (i start : Nat) (s : Span) : Prop where
  borrowed : start ≤ s.1
  owned : s.1 ≤ i ∧ i < s.2
  inside : s.2 ≤ text.length
  count : sc.count (between text start s.2) = 0
  elsewhere : ∀ c ∈ chunks, c.charEnd ≤ s.1 ∨ s.2 ≤ c.charStart

/-- What a chunk stores, and what it claims. -/
structure Citable (text : Text) (c : TextChunk) : Prop where
  borrowed : c.prefixChars ≤ c.charStart
  stored : c.text = between text (c.charStart - c.prefixChars) c.charEnd
  claimed : c.text.drop c.prefixChars = between text c.charStart c.charEnd
  nonempty : c.charStart < c.charEnd
  inside : c.charEnd ≤ text.length

-- ========= overlap

theorem overlapLoop_le {previous : Span} {chosen : Nat}
    {sentences : List Span} (hchosen : chosen ≤ previous.2)
    (hin : ∀ s ∈ sentences, previous.1 + s.1 ≤ previous.2) :
    sc.overlapLoop text previous chosen sentences ≤ previous.2 := by
  induction sentences generalizing chosen with
  | nil => exact hchosen
  | cons s rest ih =>
    have hs := hin s List.mem_cons_self
    unfold overlapLoop
    simp only
    split
    case isTrue => exact hs
    case isFalse =>
      exact ih hs fun t ht => hin t (List.mem_cons_of_mem s ht)

theorem overlapStart_le {previous : Span} {stop : Nat}
    (hlt : previous.1 < previous.2) (hlen : previous.2 ≤ text.length) :
    sc.overlapStart text previous stop ≤ previous.2 := by
  unfold overlapStart
  split
  case isTrue => exact Nat.le_refl _
  case isFalse =>
    simp only
    split
    case isTrue =>
      refine overlapLoop_le (Nat.le_refl _) fun s hs => ?_
      have h := (splitSentences_starts sc.unicode
        (between text previous.1 previous.2)).2 s (List.mem_reverse.mp hs)
      rw [length_between hlen] at h
      omega
    case isFalse => exact Nat.le_refl _

/-- The span of the chunk before, if any, ends where a list of spans
starts, or earlier. -/
def Precedes (text : Text) (previous : Option Span) (a : Nat) : Prop :=
  ∀ p, previous = some p → p.1 < p.2 ∧ p.2 ≤ a ∧ p.2 ≤ text.length

theorem Precedes.next {s : Span} {b : Nat} (hlt : s.1 < s.2) (hle : s.2 ≤ b)
    (hb : b ≤ text.length) : Precedes text (some s) s.2 := by
  rintro p hp
  cases hp
  exact ⟨hlt, Nat.le_refl _, Nat.le_trans hle hb⟩

theorem Precedes.mono {previous : Option Span} {a a' : Nat}
    (h : Precedes text previous a) (hle : a ≤ a') :
    Precedes text previous a' := fun p hp =>
  ⟨(h p hp).1, Nat.le_trans (h p hp).2.1 hle, (h p hp).2.2⟩

theorem bodyStart_le {previous : Option Span} {s : Span}
    (h : Precedes text previous s.1) : sc.bodyStart text previous s ≤ s.1 := by
  unfold bodyStart
  split
  case h_1 => exact Nat.le_refl _
  case h_2 p =>
    obtain ⟨hlt, hle, hlen⟩ := h p rfl
    exact Nat.le_trans (overlapStart_le hlt hlen) hle

-- ====== the chunks

section Chunks

variable {definitions : List StructureMarker} {n : Nat}
  {previous : Option Span} {a b : Nat} {spans : List Span}

theorem toChunks_ordinals :
    (sc.toChunks text definitions n previous spans).map (·.ordinal)
      = List.range' n
        (sc.toChunks text definitions n previous spans).length := by
  induction spans generalizing n previous with
  | nil => rfl
  | cons s rest ih =>
    unfold toChunks
    split
    case isTrue => exact ih
    case isFalse =>
      rw [List.map_cons, ih, List.length_cons, List.range'_succ]
      rfl

theorem chunkOf_citable {s : Span} (hlt : s.1 < s.2)
    (hlen : s.2 ≤ text.length) (h : Precedes text previous s.1) :
    Citable text (sc.chunkOf text definitions n previous s) := by
  have hle := @bodyStart_le sc text previous s h
  unfold chunkOf
  simp only
  constructor
  case borrowed => exact Nat.sub_le _ _
  case stored =>
    show between text _ _ = between text _ _
    congr 1
    simp only
    omega
  case claimed =>
    show (between text _ _).drop _ = between text _ _
    unfold between
    rw [List.drop_drop]
    congr 1
    simp only
    omega
  case nonempty => exact hlt
  case inside => exact hlen

theorem toChunks_citable (h : Tiles a b spans) (hb : b ≤ text.length)
    (hp : Precedes text previous a) :
    ∀ c ∈ sc.toChunks text definitions n previous spans,
      Citable text c ∧ (c.charStart, c.charEnd) ∈ spans := by
  induction h generalizing n previous with
  | nil a => exact nofun
  | @cons a m b l hlt hrest ih =>
    have hm := hrest.le
    have hlater : ∀ n previous, Precedes text previous m →
        ∀ c ∈ sc.toChunks text definitions n previous l,
        Citable text c ∧ (c.charStart, c.charEnd) ∈ (a, m) :: l := by
      intro n previous hp c hc
      obtain ⟨h1, h2⟩ := ih hb hp c hc
      exact ⟨h1, List.mem_cons_of_mem _ h2⟩
    unfold toChunks
    split
    case isTrue => exact hlater n previous (hp.mono (Nat.le_of_lt hlt))
    case isFalse =>
      intro c hc
      rcases List.mem_cons.mp hc with rfl | hc
      · exact ⟨chunkOf_citable hlt (Nat.le_trans hm hb) hp,
          List.mem_cons_self⟩
      · exact hlater _ _ (.next hlt hm hb) c hc

theorem toChunks_pairwise (h : Tiles a b spans) (hb : b ≤ text.length)
    (hp : Precedes text previous a) :
    (sc.toChunks text definitions n previous spans).Pairwise
      fun c d => c.charEnd ≤ d.charStart := by
  induction h generalizing n previous with
  | nil a => exact List.Pairwise.nil
  | @cons a m b l hlt hrest ih =>
    have hm := hrest.le
    unfold toChunks
    split
    case isTrue => exact ih hb (hp.mono (Nat.le_of_lt hlt))
    case isFalse =>
      have hnext : Precedes text (some (a, m)) m := .next hlt hm hb
      refine List.Pairwise.cons (fun d hd => ?_) (ih hb hnext)
      have hspan := (toChunks_citable hrest hb hnext d hd).2
      exact (hrest.bounds hspan).1

theorem leftOut_cases {s : Span} {i : Nat} (hs : s.1 ≤ i) (he : i < s.2)
    (hi : i < text.length) (hle : sc.bodyStart text previous s ≤ s.1)
    (hout : sc.leftOut text previous s = true) :
    isSpace text[i] = true
      ∨ sc.count (between text (sc.bodyStart text previous s) s.2) = 0 := by
  unfold leftOut at hout
  simp only [Bool.or_eq_true, decide_eq_true_eq] at hout
  rcases hout with hzero | hblank
  · exact .inr hzero
  · exact .inl (isBlank_iff.mp hblank _
      (mem_between (Nat.le_trans hle hs) he hi))

theorem toChunks_cover (h : Tiles a b spans) (hb : b ≤ text.length)
    (hp : Precedes text previous a) {i : Nat} (ha : a ≤ i) (hib : i < b)
    (hi : i < text.length) (hsp : isSpace text[i] = false) :
    (∃ c ∈ sc.toChunks text definitions n previous spans, OwnedBy i c)
      ∨ ∃ start s, a ≤ s.1 ∧ Uncounted sc text
          (sc.toChunks text definitions n previous spans) i start s := by
  induction h generalizing n previous with
  | nil a => exact absurd hib (Nat.not_lt.mpr ha)
  | @cons a m b l hlt hrest ih =>
    have hm := hrest.le
    have hnext : Precedes text (some (a, m)) m := .next hlt hm hb
    have hskip : Precedes text previous m := hp.mono (Nat.le_of_lt hlt)
    have hspans : ∀ n previous, Precedes text previous m →
        ∀ c ∈ sc.toChunks text definitions n previous l,
        m ≤ c.charStart := by
      intro n previous hp c hc
      exact (hrest.bounds (toChunks_citable hrest hb hp c hc).2).1
    unfold toChunks
    split
    case isTrue hout =>
      by_cases him : i < m
      · right
        have hle := @bodyStart_le sc text previous (a, m) hp
        rcases leftOut_cases ha him hi hle hout
          with hspace | hcount
        · rw [hsp] at hspace
          cases hspace
        · exact ⟨_, (a, m), Nat.le_refl _, hle, ⟨ha, him⟩,
            Nat.le_trans hm hb, hcount,
            fun c hc => .inr (hspans n previous hskip c hc)⟩
      · refine (ih hb hskip (Nat.not_lt.mp him) hib).imp id ?_
        rintro ⟨start, s, hs, hout⟩
        exact ⟨start, s, Nat.le_trans (Nat.le_of_lt hlt) hs, hout⟩
    case isFalse =>
      by_cases him : i < m
      · exact .inl ⟨_, List.mem_cons_self, ha, him⟩
      · rcases @ih (n + 1) (some (a, m)) hb hnext (Nat.not_lt.mp him) hib
          with ⟨c, hc, hown⟩ | ⟨start, s, hs, hout⟩
        · exact .inl ⟨c, List.mem_cons_of_mem _ hc, hown⟩
        · refine .inr ⟨start, s, Nat.le_trans (Nat.le_of_lt hlt) hs,
            hout.borrowed, hout.owned, hout.inside, hout.count, ?_⟩
          intro c hc
          rcases List.mem_cons.mp hc with rfl | hc
          · exact .inl hs
          · exact hout.elsewhere c hc

end Chunks

-- ====== main results

theorem owner_unique {chunks : List TextChunk}
    (h : chunks.Pairwise fun c d => c.charEnd ≤ d.charStart) {i : Nat}
    {c d : TextChunk} (hc : c ∈ chunks) (hd : d ∈ chunks) (hci : OwnedBy i c)
    (hdi : OwnedBy i d) : c = d := by
  induction h with
  | nil => cases hc
  | @cons x l hx _ ih =>
    have hapart : ∀ y ∈ l, ¬ (OwnedBy i x ∧ OwnedBy i y) :=
      fun y hy ⟨hxi, hyi⟩ => absurd (Nat.lt_of_lt_of_le hxi.2 (hx y hy))
        (Nat.not_lt.mpr hyi.1)
    rcases List.mem_cons.mp hc with hcx | hcl
    · rcases List.mem_cons.mp hd with hdx | hdl
      · exact hcx.trans hdx.symm
      · exact absurd ⟨hcx ▸ hci, hdi⟩ (hapart d hdl)
    · rcases List.mem_cons.mp hd with hdx | hdl
      · exact absurd ⟨hdx ▸ hdi, hci⟩ (hapart c hcl)
      · exact ih hcl hdl

/-- **Chunks tile the document and stay citable**: they are numbered from
zero, in document order; each stores the slice it says, with its borrowed
prefix, and claims a span of its own; and a character that is not whitespace
is claimed by exactly one of them, unless its piece counted no tokens. -/
theorem chunks_tile (hzero : ZeroFits sc) (doc : ParsedDocument) :
    ∃ chunks, sc.chunk doc = .ok chunks
      ∧ chunks.map (·.ordinal) = List.range chunks.length
      ∧ (∀ c ∈ chunks, Citable doc.text c)
      ∧ (chunks.Pairwise fun c d => c.charEnd ≤ d.charStart)
      ∧ ∀ i (hi : i < doc.text.length), isSpace doc.text[i] = false →
          (∃! c, c ∈ chunks ∧ OwnedBy i c)
            ∨ ∃ start s, Uncounted sc doc.text chunks i start s := by
  unfold chunk
  split
  case isTrue hblank =>
    refine ⟨[], rfl, rfl, nofun, .nil, fun i hi hsp => ?_⟩
    have hspace := isBlank_iff.mp hblank _ (List.getElem_mem hi)
    rw [hsp] at hspace
    cases hspace
  case isFalse =>
    obtain ⟨spans, hspans, htiles⟩ := spansOf_ok hzero doc
    simp only [hspans]
    have hlen := Nat.le_refl doc.text.length
    have hnone : Precedes doc.text none 0 := nofun
    have hpair := @toChunks_pairwise sc doc.text
      (doc.structure_.filter fun m => decide (m.kind = "definition")) 0 none
      0 _ spans htiles hlen hnone
    refine ⟨_, rfl, ?_, fun c hc => ?_, hpair, fun i hi hsp => ?_⟩
    · rw [toChunks_ordinals, List.range_eq_range']
    · exact (toChunks_citable htiles hlen hnone c hc).1
    · rcases toChunks_cover htiles hlen hnone (Nat.zero_le i) hi hi hsp
        with ⟨c, hc, hown⟩ | ⟨start, s, -, hout⟩
      · exact .inl ⟨c, ⟨hc, hown⟩, fun d hd =>
          owner_unique hpair hd.1 hc hd.2 hown⟩
      · exact .inr ⟨start, s, hout⟩

/-- A note with a text, and nothing the parser marked. -/
def plainNote (text : Text) : ParsedDocument :=
  { text := text, title := none, metadata := [], structure_ := [],
    kind := .note }

/-- Counting characters, with the default sizes. -/
theorem chunks_tile_characters :
    ∃ chunks, StructuralChunker.chunk { count := List.length }
        (plainNote "One. Two.".toList) = .ok chunks
      ∧ chunks.map (·.ordinal) = List.range chunks.length
      ∧ (∀ c ∈ chunks, Citable "One. Two.".toList c)
      ∧ (chunks.Pairwise fun c d => c.charEnd ≤ d.charStart)
      ∧ ∀ i (hi : i < "One. Two.".toList.length),
          isSpace "One. Two.".toList[i] = false →
          (∃! c, c ∈ chunks ∧ OwnedBy i c)
            ∨ ∃ start s, Uncounted { count := List.length }
                "One. Two.".toList chunks i start s :=
  @chunks_tile { count := List.length } (fun _ _ _ => by decide)
    (plainNote "One. Two.".toList)

/-- A character that a model does not count is in no chunk, and a ceiling
below zero is divided by. -/
theorem chunks_leave_out_uncounted :
    (∃ (sc : StructuralChunker) (doc : ParsedDocument) (i : Nat)
        (hi : i < doc.text.length), isSpace doc.text[i] = false
        ∧ sc.chunk doc = .ok [])
      ∧ ∃ (sc : StructuralChunker) (doc : ParsedDocument),
          sc.chunk doc = .error .zeroDivision := by
  constructor
  · -- a zero-width space
    refine ⟨{ count := fun t =>
        (t.filter fun c => c != Char.ofNat 0x200B).length },
      plainNote [Char.ofNat 0x200B], 0, by decide, by decide, ?_⟩
    decide +kernel
  · exact ⟨{ count := fun _ => 0, config := { maximum := -1, target := -1 } },
      plainNote ['x'], by decide +kernel⟩

-- ====== as a chunker

/-- Every text that is not blank counts. -/
def CountsText (sc : StructuralChunker) : Prop :=
  ∀ t, isBlank t = false → sc.count t ≠ 0

theorem isBlank_between {start stop i : Nat} (hs : start ≤ i) (he : i < stop)
    (hi : i < text.length) (hsp : isSpace text[i] = false) :
    isBlank (between text start stop) = false := by
  rw [Bool.eq_false_iff]
  intro hblank
  have hspace := isBlank_iff.mp hblank _ (mem_between hs he hi)
  rw [hsp] at hspace
  cases hspace

theorem chunk_ne_nil (hzero : ZeroFits sc) (hcounts : CountsText sc)
    {doc : ParsedDocument} (hdoc : isBlank doc.text = false) :
    sc.chunk doc ≠ .ok [] := by
  intro hnil
  obtain ⟨chunks, hok, -, -, -, hcover⟩ := chunks_tile hzero doc
  cases hnil.symm.trans hok
  have hexists : ¬ ∀ c ∈ doc.text, isSpace c = true := by
    rw [← isBlank_iff, hdoc]
    exact Bool.false_ne_true
  push Not at hexists
  obtain ⟨c, hc, hsp⟩ := hexists
  obtain ⟨i, hi, rfl⟩ := List.mem_iff_getElem.mp hc
  have hsp := Bool.eq_false_iff.mpr hsp
  rcases hcover i hi hsp with ⟨c, ⟨hc, -⟩, -⟩ | ⟨start, s, hout⟩
  · cases hc
  · refine hcounts _ ?_ hout.count
    exact isBlank_between (Nat.le_trans hout.borrowed hout.owned.1)
      hout.owned.2 hi hsp

/-- The structural chunker, as the port the pipeline is written to. -/
def toChunker (sc : StructuralChunker) (hzero : ZeroFits sc)
    (hcounts : CountsText sc) : Chunker where
  version := sc.version
  cut doc := (sc.chunk doc).toOption.getD []
  cut_ne_nil doc hdoc := by
    obtain ⟨chunks, hok, -⟩ := chunks_tile hzero doc
    rw [hok]
    rintro rfl
    exact chunk_ne_nil hzero hcounts hdoc hok
  cut_ordinals doc := by
    obtain ⟨chunks, hok, hordinals, -⟩ := chunks_tile hzero doc
    rw [hok]
    show (chunks.map (·.ordinal)).Nodup
    rw [hordinals]
    exact List.nodup_range

end MemoryOS.StructuralChunker
