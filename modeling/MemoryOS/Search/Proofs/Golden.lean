/-
When a perfect search scores perfectly, and a ranking is scored by what it
returned (`application/golden.py`, `application/evaluate.py`).

# The result

`golden_faithful_iff`: for a query of a golden set and a cutoff, some ranking has
recall, reciprocal rank and nDCG 1, no two items share a key, and every
ranking is scored by its first hits that no pattern drops, each relevant if it
counts, exactly when no memory is named by two items or excluded, the texts of
the keys are unambiguous, and no ranking loses more than the one widening makes
up for.

A hit's key is a relevant one exactly when it reads as some item's
(`project_mem`), and a hit that counts does (`reads_of_counts`). What is kept
of a widened search is a prefix of what should be (`kept_eq_iff`). A ranking
with recall 1 has another memory for each key, so the items are no more than
the memories (`single_of_recall`).
-/
import Mathlib.Data.Finset.Card
import Mathlib.Data.List.Forall2
import MemoryOS.Search.Proofs.Metrics

namespace MemoryOS.Golden

open Metrics Lib

-- ====== statement vocabulary

/-- The memory of an item. -/
def Item.memory (item : Item) : String × String :=
    (item.sourceName, item.externalKey)

/-- The memory of a hit. -/
def Hit.memory (hit : Hit) : String × String :=
    (hit.sourceName, hit.externalKey)

/-- A hit's memory, as it is written. -/
def Hit.memoryKey (hit : Hit) : String := hit.sourceName ++ "::"
    ++ hit.externalKey

/-- The memories that are relevant. -/
def memories (query : GoldenQuery) : Finset (String × String) :=
  query.relevant.image Item.memory

/-- A hit is a current memory of the corpus, with chunks of it. -/
structure Hit.From (corpus : CorpusIndex) (hit : Hit) : Prop where
  matched : hit.ordinals ≠ []
  once : hit.ordinals.Nodup
  present : ∃ present, corpus.ordinals hit.memory = some present
    ∧ ∀ ordinal ∈ hit.ordinals, ordinal ∈ present

/-- A ranking has one hit per memory. -/
structure Ranking (corpus : CorpusIndex) (hits : List Hit) : Prop where
  found : ∀ hit ∈ hits, hit.From corpus
  once : (hits.map Hit.memory).Nodup

/-- A hit's memory is judged relevant and, where chunks of it were pinned, a
pinned chunk matched. -/
def Counts (query : GoldenQuery) (hit : Hit) : Prop :=
  (∃ item ∈ query.relevant, item.memory = hit.memory)
    ∧ ((∃ item ∈ query.relevant, item.memory = hit.memory
        ∧ item.chunkOrdinal.isSome)
      → ∃ item ∈ query.relevant, item.memory = hit.memory
        ∧ ∃ ordinal ∈ hit.ordinals, item.chunkOrdinal = some ordinal)

/-- A row is the hit's, and relevant exactly when the hit counts. -/
structure ScoredAs (query : GoldenQuery) (row : RetrievedRow) (hit : Hit) :
    Prop where
  externalKey : row.externalKey = hit.externalKey
  matchedOrdinals : row.matchedOrdinals = hit.ordinals.mergeSort
  relevant : row.relevant = true ↔ Counts query hit

/-- The first hits that no pattern drops. -/
def firstKept (exclude : List String) (k : Nat) (hits : List Hit) : List Hit :=
  (hits.filter fun hit => !hit.isExcluded exclude).take k

/-- Recall, reciprocal rank and nDCG are 1. -/
structure TopScored {K : Type} [Field K] (result : EvalResult K) : Prop where
  recall_ : result.recall_ = 1
  mrr : result.mrr = 1
  ndcg : result.ndcg = 1

/-- A perfect search scores perfectly, and rankings are scored by what they
returned. A search at a larger cutoff extends the one at a smaller one. -/
structure Faithful {K : Type} [Field K] (discount : Nat → K)
    (corpus : CorpusIndex) (exclude : List String) (k : Nat)
    (query : GoldenQuery) : Prop where
  attainable : (memories query).card ≤ k → ∃ hits, Ranking corpus hits
    ∧ TopScored
      (evaluateQuery discount exclude k query fun n => hits.take n).result
  distinct : ∀ i ∈ query.relevant, ∀ j ∈ query.relevant, i ≠ j → i.key ≠ j.key
  scored : ∀ hits, Ranking corpus hits → List.Forall₂ (ScoredAs query)
    (evaluateQuery discount exclude k query fun n => hits.take n).rows
    (firstKept exclude k hits)

/-- How many of the first hits are dropped. -/
def dropped (exclude : List String) (k : Nat) (hits : List Hit) : Nat :=
  ((hits.take k).filter (Hit.isExcluded exclude)).length

/-- As many more hits are enough: none of them is dropped too, or no hit after
them is kept. -/
def WidenedEnough (exclude : List String) (k : Nat) (hits : List Hit) : Prop :=
  (∀ hit ∈ (hits.drop k).take (dropped exclude k hits),
      hit.isExcluded exclude = false)
    ∨ ∀ hit ∈ hits.drop (k + dropped exclude k hits), hit.isExcluded exclude
      = true

/-- A hit's text is an item's: its memory's is the item's key, or is the
item's memory's and it matched the item's chunk. -/
def ReadsAs (hit : Hit) (item : Item) : Prop :=
  item.key = hit.memoryKey
    ∨ (item.memoryKey = hit.memoryKey
      ∧ ∃ ordinal ∈ hit.ordinals, item.chunkOrdinal = some ordinal)

/-- A query's items are told apart by memory and by text, none is excluded, and
no ranking of the corpus has a hit that reads as another memory's item or needs
more than one widening. -/
structure Unambiguous (corpus : CorpusIndex) (exclude : List String) (k : Nat)
    (query : GoldenQuery) : Prop where
  single : (memories query).card ≤ k →
    ∀ i ∈ query.relevant, ∀ j ∈ query.relevant, i.memory = j.memory → i = j
  included : (memories query).card ≤ k →
    ∀ i ∈ query.relevant, excludedBy exclude i.externalKey = none
  named : ∀ i ∈ query.relevant, ∀ j ∈ query.relevant,
    i.memoryKey = j.memoryKey → i.chunkOrdinal = j.chunkOrdinal → i = j
  suffixed : ∀ i ∈ query.relevant, ∀ j ∈ query.relevant,
    i.chunkOrdinal = none → ∀ ordinal, j.chunkOrdinal = some ordinal →
      i.memoryKey ≠ j.memoryKey ++ "#" ++ toString ordinal
  widened : ∀ hits, Ranking corpus hits → WidenedEnough exclude k hits
  read : ∀ hits, Ranking corpus hits → ∀ hit ∈ firstKept exclude k hits,
    ∀ item ∈ query.relevant, ReadsAs hit item → Counts query hit

-- =========== texts

section
variable {i j item : Item} {hit : Hit} {query : GoldenQuery} {a b : Int}

theorem memoryKey_of_memory (h : item.memory = hit.memory) :
    item.memoryKey = hit.memoryKey := by
  obtain ⟨hsource, hkey⟩ := Prod.mk.inj h
  unfold Item.memoryKey Hit.memoryKey
  rw [hsource, hkey]

theorem key_unpinned (h : item.chunkOrdinal = none) :
    item.key = item.memoryKey := by
  unfold Item.key
  rw [h]

theorem key_pinned (h : item.chunkOrdinal = some a) :
    item.key = item.memoryKey ++ "#" ++ toString a := by
  unfold Item.key
  rw [h]

theorem toList_toString_int (a : Int) : (toString a).toList
    = if 0 ≤ a then Nat.toDigits 10 a.toNat
      else '-' :: Nat.toDigits 10 (-a).toNat := by
  cases a with
  | ofNat n =>
    show (Nat.repr n).toList = _
    have hpos : (0 : Int) ≤ Int.ofNat n := Int.natCast_nonneg n
    rw [if_pos hpos, Nat.toList_repr]
    rfl
  | negSucc n =>
    show ("-" ++ Nat.repr (n + 1)).toList = _
    rw [if_neg (by omega), String.toList_append, Nat.toList_repr]
    rfl

theorem isDigit_of_mem {n : Nat} {c : Char} (h : c ∈ Nat.toDigits 10 n) :
    c.isDigit = true :=
  Nat.isDigit_of_mem_toDigits (by decide) (Nat.le_refl 10) h

theorem hash_notMem (a : Int) : '#' ∉ (toString a).toList := by
  have hdigits : ∀ n, '#' ∉ Nat.toDigits 10 n := by
    intro n hmem
    exact absurd (isDigit_of_mem hmem) (by decide)
  rw [toList_toString_int]
  split
  case isTrue => exact hdigits _
  case isFalse =>
    intro hmem
    rcases List.mem_cons.1 hmem with heq | hmem
    · exact absurd heq (by decide)
    · exact hdigits _ hmem

theorem toDigits_inj {m n : Nat} (h : Nat.toDigits 10 m = Nat.toDigits 10 n) :
    m = n := by
  calc m = Nat.ofDigitChars 10 (Nat.toDigits 10 m) 0 :=
        Nat.ofDigitChars_ten_toDigits.symm
    _ = Nat.ofDigitChars 10 (Nat.toDigits 10 n) 0 := by rw [h]
    _ = n := Nat.ofDigitChars_ten_toDigits

theorem toString_int_inj (h : (toString a).toList = (toString b).toList) :
    a = b := by
  have hsign : ∀ m n, '-' :: Nat.toDigits 10 m ≠ Nat.toDigits 10 n := by
    intro m n heq
    have hmem : '-' ∈ Nat.toDigits 10 n := heq ▸ List.mem_cons_self
    exact absurd (isDigit_of_mem hmem) (by decide)
  rw [toList_toString_int, toList_toString_int] at h
  by_cases ha : 0 ≤ a
  · by_cases hb : 0 ≤ b
    · rw [if_pos ha, if_pos hb] at h
      have := toDigits_inj h
      omega
    · rw [if_pos ha, if_neg hb] at h
      exact absurd h.symm (hsign _ _)
  · by_cases hb : 0 ≤ b
    · rw [if_neg ha, if_pos hb] at h
      exact absurd h (hsign _ _)
    · rw [if_neg ha, if_neg hb] at h
      have := toDigits_inj (List.cons.inj h).2
      omega

theorem cut_inj {c : Char} : ∀ {before before' after after' : List Char},
    c ∉ after → c ∉ after' → before ++ c :: after = before' ++ c :: after' →
      before = before' ∧ after = after'
  | [], [], after, after', _, _, h => ⟨rfl, (List.cons.inj h).2⟩
  | [], d :: before', after, after', hafter, _, h => by
      have htail := (List.cons.inj h).2
      exact absurd (htail ▸ List.mem_append_right before' List.mem_cons_self)
        hafter
  | d :: before, [], after, after', _, hafter', h => by
      have htail := (List.cons.inj h).2
      exact absurd (htail ▸ List.mem_append_right before List.mem_cons_self)
        hafter'
  | d :: before, e :: before', after, after', hafter, hafter', h => by
      obtain ⟨hhead, htail⟩ := List.cons.inj h
      obtain ⟨hbefore, hrest⟩ := cut_inj hafter hafter' htail
      exact ⟨by rw [hhead, hbefore], hrest⟩

theorem pinned_key_inj {s t : String}
    (h : s ++ "#" ++ toString a = t ++ "#" ++ toString b) : s = t ∧ a = b := by
  have hchars : s.toList ++ '#' :: (toString a).toList
      = t.toList ++ '#' :: (toString b).toList := by
    have hhash : "#".toList = ['#'] := by decide
    have hlist := congrArg String.toList h
    simpa only [String.toList_append, List.append_assoc, hhash,
      List.singleton_append] using hlist
  obtain ⟨hfirst, hlast⟩ := cut_inj (hash_notMem a) (hash_notMem b) hchars
  exact ⟨String.toList_inj.1 hfirst, toString_int_inj hlast⟩

theorem distinct_iff :
    (∀ i ∈ query.relevant, ∀ j ∈ query.relevant, i ≠ j → i.key ≠ j.key)
    ↔ (∀ i ∈ query.relevant, ∀ j ∈ query.relevant,
        i.memoryKey = j.memoryKey → i.chunkOrdinal = j.chunkOrdinal → i = j)
      ∧ ∀ i ∈ query.relevant, ∀ j ∈ query.relevant,
        i.chunkOrdinal = none → ∀ ordinal, j.chunkOrdinal = some ordinal →
          i.memoryKey ≠ j.memoryKey ++ "#" ++ toString ordinal := by
  constructor
  · intro hdistinct
    refine ⟨fun i hi j hj hmemory hordinal => ?_,
      fun i hi j hj hnone ordinal hsome heq => ?_⟩
    · by_contra hne
      apply hdistinct i hi j hj hne
      unfold Item.key
      rw [hmemory, hordinal]
    · have hne : i ≠ j := by
        intro hsame
        rw [hsame, hsome] at hnone
        exact absurd hnone (Option.some_ne_none ordinal)
      apply hdistinct i hi j hj hne
      rw [key_unpinned hnone, key_pinned hsome, heq]
  · intro hspelled i hi j hj hne heq
    obtain ⟨hnamed, hsuffixed⟩ := hspelled
    cases hio : i.chunkOrdinal with
    | none =>
      rw [key_unpinned hio] at heq
      cases hjo : j.chunkOrdinal with
      | none =>
        rw [key_unpinned hjo] at heq
        exact hne (hnamed i hi j hj heq (hio.trans hjo.symm))
      | some b =>
        rw [key_pinned hjo] at heq
        exact hsuffixed i hi j hj hio b hjo heq
    | some a =>
      rw [key_pinned hio] at heq
      cases hjo : j.chunkOrdinal with
      | none =>
        rw [key_unpinned hjo] at heq
        exact hsuffixed j hj i hi hjo a hio heq.symm
      | some b =>
        rw [key_pinned hjo] at heq
        obtain ⟨hmemory, hsame⟩ := pinned_key_inj heq
        exact hne (hnamed i hi j hj hmemory (by rw [hio, hjo, hsame]))

end

-- ====== projection

section
variable {query : GoldenQuery} {hit : Hit} {item : Item} {ordinal : Int}
  {memoryKey : String} {ordinals : List Int} {hits : List Hit}

theorem mem_pinned : ordinal ∈ query.pinned memoryKey
    ↔ ∃ item ∈ query.relevant, item.memoryKey = memoryKey
      ∧ item.chunkOrdinal = some ordinal := by
  unfold GoldenQuery.pinned
  simp only [Finset.mem_biUnion, Finset.mem_filter, Option.mem_toFinset,
    Option.mem_def, and_assoc]

theorem mem_relevantKeys {key : String} :
    key ∈ query.relevantKeys ↔ ∃ item ∈ query.relevant, item.key = key := by
  unfold GoldenQuery.relevantKeys
  exact Finset.mem_image

/-- The key of a hit in the scoring space. -/
def projected (query : GoldenQuery) (hit : Hit) : String :=
  query.project hit.sourceName hit.externalKey hit.ordinals.mergeSort

theorem projected_cases (query : GoldenQuery) (hit : Hit) :
    (∃ ordinal ∈ hit.ordinals, ordinal ∈ query.pinned hit.memoryKey
        ∧ projected query hit = hit.memoryKey ++ "#" ++ toString ordinal)
      ∨ ((∀ ordinal ∈ hit.ordinals, ordinal ∉ query.pinned hit.memoryKey)
        ∧ projected query hit = hit.memoryKey) := by
  unfold projected GoldenQuery.project
  simp only
  change (∃ ordinal ∈ hit.ordinals, ordinal ∈ query.pinned hit.memoryKey
      ∧ (if query.pinned hit.memoryKey = ∅ then hit.memoryKey else _) = _)
    ∨ (_ ∧ (if query.pinned hit.memoryKey = ∅ then hit.memoryKey else _) = _)
  split
  case isTrue hempty =>
    refine .inr ⟨fun ordinal _ hmem => ?_, rfl⟩
    rw [hempty] at hmem
    exact absurd hmem (Finset.notMem_empty ordinal)
  case isFalse =>
    split
    case h_1 hnone =>
      refine .inr ⟨fun ordinal hordinal hmem => ?_, rfl⟩
      have hin : ordinal ∈ (hit.ordinals.mergeSort.filter fun ordinal =>
          decide (ordinal ∈ query.pinned hit.memoryKey)).mergeSort :=
        List.mem_mergeSort.2 (List.mem_filter.2
          ⟨List.mem_mergeSort.2 hordinal, decide_eq_true hmem⟩)
      have hnil := List.head?_eq_none_iff.1 hnone
      exact absurd (hnil ▸ hin) List.not_mem_nil
    case h_2 ordinal hsome =>
      have hin := List.mem_filter.1
        (List.mem_mergeSort.1 (List.mem_of_mem_head? hsome))
      exact .inl ⟨ordinal, List.mem_mergeSort.1 hin.1, of_decide_eq_true hin.2,
        rfl⟩

theorem project_mem : projected query hit ∈ query.relevantKeys
    ↔ ∃ item ∈ query.relevant, ReadsAs hit item := by
  rw [mem_relevantKeys]
  rcases projected_cases query hit with ⟨ordinal, hordinal, hpin, heq⟩
    | ⟨hno, heq⟩
  · obtain ⟨item, hitem, hmemory, hsome⟩ := mem_pinned.1 hpin
    have hkey : item.key = projected query hit := by
      rw [heq, key_pinned hsome, hmemory]
    exact ⟨fun _ => ⟨item, hitem, .inr ⟨hmemory, ordinal, hordinal, hsome⟩⟩,
      fun _ => ⟨item, hitem, hkey⟩⟩
  · rw [heq]
    constructor
    · intro hread
      obtain ⟨item, hitem, hkey⟩ := hread
      exact ⟨item, hitem, .inl hkey⟩
    · intro hread
      obtain ⟨item, hitem, hkey | ⟨hmemory, ordinal, hordinal, hsome⟩⟩ := hread
      · exact ⟨item, hitem, hkey⟩
      · exact absurd (mem_pinned.2 ⟨item, hitem, hmemory, hsome⟩)
          (hno ordinal hordinal)

theorem reads_of_counts (h : Counts query hit) :
    ∃ item ∈ query.relevant, ReadsAs hit item := by
  obtain ⟨⟨item, hitem, hmemory⟩, hpinned⟩ := h
  cases hordinal : item.chunkOrdinal with
  | none =>
    refine ⟨item, hitem, .inl ?_⟩
    rw [key_unpinned hordinal, memoryKey_of_memory hmemory]
  | some a =>
    obtain ⟨other, hother, hmemory', ordinal, hmatched, hsome⟩ :=
      hpinned ⟨item, hitem, hmemory, by rw [hordinal]; rfl⟩
    exact ⟨other, hother,
      .inr ⟨memoryKey_of_memory hmemory', ordinal, hmatched, hsome⟩⟩

theorem flagged_iff : (projected query hit ∈ query.relevantKeys
      ↔ Counts query hit)
    ↔ ∀ item ∈ query.relevant, ReadsAs hit item → Counts query hit := by
  rw [project_mem]
  constructor
  · intro h item hitem hread
    exact h.1 ⟨item, hitem, hread⟩
  · intro h
    refine ⟨fun hread => ?_, reads_of_counts⟩
    obtain ⟨item, hitem, hread⟩ := hread
    exact h item hitem hread

theorem rows_keys : (rows query hits).map (·.key)
    = hits.map (projected query) := by
  unfold rows
  apply List.ext_getElem
  · rw [List.length_map, List.length_mapIdx, List.length_map]
  · intro i hi hi'
    rw [List.getElem_map, List.getElem_mapIdx, List.getElem_map]
    rfl

theorem rows_forall₂ : List.Forall₂ (ScoredAs query) (rows query hits) hits
    ↔ ∀ hit ∈ hits, projected query hit ∈ query.relevantKeys
      ↔ Counts query hit := by
  unfold rows
  rw [List.forall₂_iff_get]
  constructor
  · intro h hit hmem
    obtain ⟨i, hi, rfl⟩ := List.getElem_of_mem hmem
    have hrow := (h.2 i (by rw [List.length_mapIdx]; exact hi) hi).relevant
    rw [List.get_eq_getElem, List.getElem_mapIdx, decide_eq_true_eq] at hrow
    exact hrow
  · intro h
    refine ⟨List.length_mapIdx, fun i hi hi' => ?_⟩
    have hflag := h _ (List.getElem_mem hi')
    rw [List.get_eq_getElem, List.get_eq_getElem, List.getElem_mapIdx]
    exact ⟨rfl, rfl, by rw [decide_eq_true_eq]; exact hflag⟩

end

-- ======== widening

section
variable {exclude : List String} {k : Nat} {hits : List Hit}

theorem take_filter_take {α : Type} (p : α → Bool) (l : List α) (m k : Nat) :
    (k ≤ ((l.take m).filter p).length ∨ (l.drop m).filter p = []
        → ((l.take m).filter p).take k = (l.filter p).take k)
      ∧ ((((l.take m).filter p).take k).length = ((l.filter p).take k).length
        → k ≤ ((l.take m).filter p).length ∨ (l.drop m).filter p = []) := by
  have hsplit : l.filter p = (l.take m).filter p ++ (l.drop m).filter p := by
    rw [← List.filter_append, List.take_append_drop]
  rw [hsplit]
  constructor
  · intro h
    rw [List.take_append]
    rcases h with h | h
    · rw [Nat.sub_eq_zero_of_le h, List.take_zero, List.append_nil]
    · rw [h, List.take_nil, List.append_nil]
  · intro h
    rw [List.length_take, List.length_take, List.length_append] at h
    by_cases hnil : (l.drop m).filter p = []
    · exact .inr hnil
    · have hpos := List.length_pos_iff.2 hnil
      exact .inl (by omega)

theorem retrieve_take : retrieve (fun n => hits.take n) exclude k
    = hits.take (k + dropped exclude k hits) := by
  unfold retrieve dropped
  simp only
  split
  case isTrue hempty =>
    have hnone : Hit.isExcluded exclude = fun _ => false := by
      funext hit
      rw [List.isEmpty_iff.1 hempty]
      rfl
    rw [hnone, List.filter_false, List.length_nil, Nat.add_zero]
  case isFalse =>
    split
    case isTrue hzero => rw [hzero, Nat.add_zero]
    case isFalse => rfl

theorem widenedEnough_iff : WidenedEnough exclude k hits
    ↔ k ≤ ((hits.take (k + dropped exclude k hits)).filter
          fun hit => !hit.isExcluded exclude).length
      ∨ (hits.drop (k + dropped exclude k hits)).filter
          (fun hit => !hit.isExcluded exclude) = [] := by
  unfold WidenedEnough
  have hnil : (hits.drop (k + dropped exclude k hits)).filter
        (fun hit => !hit.isExcluded exclude) = []
      ↔ ∀ hit ∈ hits.drop (k + dropped exclude k hits),
        hit.isExcluded exclude = true := by
    rw [List.filter_eq_nil_iff]
    simp
  rw [hnil]
  by_cases hshort : hits.length ≤ k + dropped exclude k hits
  · rw [List.drop_eq_nil_of_le hshort]
    simp
  · -- the first places are full, so what they lose the next ones make up for
    have hfirst : ((hits.take k).filter
          fun hit => !hit.isExcluded exclude).length
        + dropped exclude k hits = k := by
      have hparts := List.length_eq_length_filter_add
        (l := hits.take k) (Hit.isExcluded exclude)
      rw [List.length_take] at hparts
      unfold dropped at hshort ⊢
      omega
    have hnext : ((hits.drop k).take (dropped exclude k hits)).length
        = dropped exclude k hits := by
      rw [List.length_take, List.length_drop]
      omega
    have hall : (∀ hit ∈ (hits.drop k).take (dropped exclude k hits),
          hit.isExcluded exclude = false)
        ↔ (((hits.drop k).take (dropped exclude k hits)).filter
          fun hit => !hit.isExcluded exclude).length
            = dropped exclude k hits := by
      have hfull := @List.length_filter_eq_length_iff Hit
        (fun hit => !hit.isExcluded exclude)
        ((hits.drop k).take (dropped exclude k hits))
      rw [hnext] at hfull
      rw [hfull]
      simp
    have hle := List.length_filter_le (fun hit => !hit.isExcluded exclude)
      ((hits.drop k).take (dropped exclude k hits))
    rw [hall, List.take_add, List.filter_append, List.length_append]
    constructor
    · exact Or.imp_left fun h => by omega
    · exact Or.imp_left fun h => by omega

end

-- ====== what is scored

section
variable {corpus : CorpusIndex} {exclude : List String} {k : Nat}
  {query : GoldenQuery} {hits : List Hit} {hit : Hit} {item : Item}
  {K : Type} [Field K] {discount : Nat → K}

theorem evaluated_rows :
    (evaluateQuery discount exclude k query fun n => hits.take n).rows
      = rows query (kept (fun n => hits.take n) exclude k) := rfl

theorem kept_spec : (WidenedEnough exclude k hits
      → kept (fun n => hits.take n) exclude k = firstKept exclude k hits)
    ∧ ((kept (fun n => hits.take n) exclude k).length
        = (firstKept exclude k hits).length
      → WidenedEnough exclude k hits) := by
  have hpart := take_filter_take (fun hit : Hit => !hit.isExcluded exclude) hits
    (k + dropped exclude k hits) k
  rw [widenedEnough_iff]
  unfold kept firstKept
  rw [retrieve_take]
  exact hpart

theorem scored_iff : List.Forall₂ (ScoredAs query)
      (evaluateQuery discount exclude k query fun n => hits.take n).rows
      (firstKept exclude k hits)
    ↔ WidenedEnough exclude k hits
      ∧ ∀ hit ∈ firstKept exclude k hits, ∀ item ∈ query.relevant,
        ReadsAs hit item → Counts query hit := by
  rw [evaluated_rows]
  constructor
  · intro h
    have hlength := h.length_eq
    have hwide := kept_spec.2 (by rwa [rows, List.length_mapIdx] at hlength)
    rw [kept_spec.1 hwide, rows_forall₂] at h
    exact ⟨hwide, fun hit hhit => flagged_iff.1 (h hit hhit)⟩
  · intro h
    obtain ⟨hwide, hread⟩ := h
    rw [kept_spec.1 hwide, rows_forall₂]
    exact fun hit hhit => flagged_iff.2 (hread hit hhit)

theorem mem_firstKept (h : hit ∈ firstKept exclude k hits) :
    hit ∈ hits ∧ excludedBy exclude hit.externalKey = none := by
  obtain ⟨hmem, hkept⟩ := List.mem_filter.1 (List.mem_of_mem_take h)
  unfold Hit.isExcluded at hkept
  exact ⟨hmem, by simpa using hkept⟩

theorem mem_memories {memory : String × String} :
    memory ∈ memories query
      ↔ ∃ item ∈ query.relevant, item.memory = memory := by
  unfold memories
  exact Finset.mem_image

theorem hit_inj (hranking : Ranking corpus hits) {a b : Hit} (ha : a ∈ hits)
    (hb : b ∈ hits) (h : a.memory = b.memory) : a = b :=
  List.inj_on_of_nodup_map hranking.once ha hb h

-- ====== what is attained

theorem covered_of_recall [LinearOrder K] [IsStrictOrderedRing K]
    (hrecall : recallAtK (K := K) (hits.map (projected query))
      query.relevantKeys k = 1) (hitem : item ∈ query.relevant) :
    ∃ hit ∈ hits, projected query hit = item.key := by
  have hkey : item.key ∈ query.relevantKeys :=
    mem_relevantKeys.2 ⟨item, hitem, rfl⟩
  unfold recallAtK at hrecall
  split at hrecall
  case isTrue => exact absurd hrecall zero_ne_one
  case isFalse =>
    have hpos : ((query.relevantKeys.card : Nat) : K) ≠ 0 := by
      exact_mod_cast (Finset.card_pos.2 ⟨item.key, hkey⟩).ne'
    have hcard : (found (hits.map (projected query)) query.relevantKeys k).card
        = query.relevantKeys.card := by
      exact_mod_cast (div_eq_one_iff_eq hpos).1 hrecall
    have hall : found (hits.map (projected query)) query.relevantKeys k
        = query.relevantKeys :=
      Finset.eq_of_subset_of_card_le Finset.inter_subset_right hcard.ge
    rw [← hall] at hkey
    have hmem := List.mem_toFinset.1 (Finset.mem_inter.1 hkey).1
    exact List.mem_map.1 (List.mem_of_mem_take hmem)

theorem single_of_covered (hranking : Ranking corpus hits)
    (hdistinct : ∀ i ∈ query.relevant, ∀ j ∈ query.relevant,
      i ≠ j → i.key ≠ j.key)
    (hcovered : ∀ i ∈ query.relevant, ∃ hit ∈ hits,
      projected query hit = i.key ∧ hit.memory ∈ memories query
        ∧ excludedBy exclude hit.externalKey = none) :
    (∀ i ∈ query.relevant, ∀ j ∈ query.relevant, i.memory = j.memory → i = j)
      ∧ ∀ i ∈ query.relevant, excludedBy exclude i.externalKey = none := by
  classical
  have _ : Nonempty Hit := ⟨⟨"", "", []⟩⟩
  choose! chosen hchosen using hcovered
  have hinj : Set.InjOn (fun i => (chosen i).memory) query.relevant := by
    intro i hi j hj hsame
    by_contra hne
    apply hdistinct i hi j hj hne
    rw [← (hchosen i hi).2.1, ← (hchosen j hj).2.1,
      hit_inj hranking (hchosen i hi).1 (hchosen j hj).1 hsame]
  have hsub : query.relevant.image (fun i => (chosen i).memory)
      ⊆ memories query := by
    intro memory hmemory
    obtain ⟨i, hi, rfl⟩ := Finset.mem_image.1 hmemory
    exact (hchosen i hi).2.2.1
  have hcard : query.relevant.card ≤ (memories query).card := by
    rw [← Finset.card_image_of_injOn hinj]
    exact Finset.card_le_card hsub
  have hall : query.relevant.image (fun i => (chosen i).memory)
      = memories query := by
    apply Finset.eq_of_subset_of_card_le hsub
    rw [Finset.card_image_of_injOn hinj]
    exact Finset.card_image_le
  have hsame : Set.InjOn Item.memory query.relevant :=
    Finset.card_image_iff.1 (Nat.le_antisymm Finset.card_image_le hcard)
  refine ⟨fun i hi j hj => hsame hi hj, fun i hi => ?_⟩
  have hmem : i.memory ∈ query.relevant.image fun i => (chosen i).memory := by
    rw [hall]
    exact mem_memories.2 ⟨i, hi, rfl⟩
  obtain ⟨j, hj, hmemory⟩ := Finset.mem_image.1 hmem
  have hkey : (chosen j).externalKey = i.externalKey := (Prod.mk.inj hmemory).2
  rw [← hkey]
  exact (hchosen j hj).2.2.2

theorem Faithful.single [LinearOrder K] [IsStrictOrderedRing K]
    (h : Faithful discount corpus exclude k query)
    (hk : (memories query).card ≤ k) :
    (∀ i ∈ query.relevant, ∀ j ∈ query.relevant, i.memory = j.memory → i = j)
      ∧ ∀ i ∈ query.relevant, excludedBy exclude i.externalKey = none := by
  obtain ⟨hits, hranking, htop⟩ := h.attainable hk
  obtain ⟨hwide, hread⟩ := scored_iff.1 (h.scored hits hranking)
  have hrecall := htop.recall_
  change recallAtK ((rows query (kept (fun n => hits.take n) exclude k)).map
    (·.key)) query.relevantKeys k = (1 : K) at hrecall
  rw [rows_keys, kept_spec.1 hwide] at hrecall
  apply single_of_covered hranking h.distinct
  intro i hi
  obtain ⟨hit, hhit, hproject⟩ := covered_of_recall hrecall hi
  have hcounts : Counts query hit := (flagged_iff.2 (hread hit hhit)).1
    (hproject ▸ mem_relevantKeys.2 ⟨i, hi, rfl⟩)
  exact ⟨hit, (mem_firstKept hhit).1, hproject, mem_memories.2 hcounts.1,
    (mem_firstKept hhit).2⟩

end

-- ====== golden queries

/-- What `build_golden_set` sees to: every item is in the corpus, and a memory
whose chunks are pinned is not relevant as a whole. -/
structure Settled (corpus : CorpusIndex) (query : GoldenQuery) : Prop where
  nonempty : query.relevant.Nonempty
  resolved : ∀ item ∈ query.relevant, corpus.resolve item = none
  overridden : ∀ i ∈ query.relevant, ∀ j ∈ query.relevant,
    i.chunkOrdinal = none → j.memoryKey = i.memoryKey → j.chunkOrdinal = none

section
variable {payload : Payload} {corpus : CorpusIndex} {exclude : List String}
  {k : Nat} {query : GoldenQuery} {item : Item} {hits : List Hit}
  {K : Type} [Field K] [LinearOrder K] [IsStrictOrderedRing K]
  {discount : Nat → K}

theorem settled_of_built
    (hquery : query ∈ (buildGoldenSet payload corpus).queries) :
    Settled corpus query := by
  obtain ⟨entry, -, hentry⟩ := List.mem_filterMap.1 hquery
  unfold goldenQuery at hentry
  simp only at hentry
  split at hentry
  case isTrue => exact absurd hentry.symm (Option.some_ne_none query)
  case isFalse hne =>
    rw [← Option.some.inj hentry]
    refine ⟨Finset.nonempty_iff_ne_empty.2 hne, fun item hitem => ?_,
      fun i hi j hj hnone hsame => ?_⟩
    · have hmem := (Finset.mem_filter.1 hitem).1
      have hresolved := (List.mem_filter.1 (List.mem_toFinset.1 hmem)).2
      exact Option.isNone_iff_eq_none.1 hresolved
    · obtain ⟨-, hkept⟩ := Finset.mem_filter.1 hi
      rw [hnone] at hkept
      by_contra hsome
      rcases hkept with hkept | hkept
      · exact absurd hkept Bool.false_ne_true
      · apply hkept
        rw [← hsame]
        exact Finset.mem_image_of_mem _ (Finset.mem_filter.2
          ⟨(Finset.mem_filter.1 hj).1, Option.isSome_iff_ne_none.2 hsome⟩)

theorem exists_hit (hsettled : Settled corpus query)
    (hitem : item ∈ query.relevant) : ∃ hit : Hit, hit.From corpus
      ∧ hit.memory = item.memory ∧ projected query hit = item.key := by
  have hresolved := hsettled.resolved item hitem
  unfold CorpusIndex.resolve at hresolved
  split at hresolved
  case h_1 => exact absurd hresolved (Option.some_ne_none _)
  case h_2 present hpresent =>
    have hone : ∀ ordinal ∈ present, Hit.From corpus
        ⟨item.sourceName, item.externalKey, [ordinal]⟩ := by
      intro ordinal hordinal
      refine ⟨List.cons_ne_nil _ _, List.nodup_singleton _, present, hpresent,
        fun o ho => ?_⟩
      rw [List.mem_singleton.1 ho]
      exact hordinal
    cases hchunk : item.chunkOrdinal with
    | none =>
      obtain ⟨ordinal, hordinal⟩ := corpus.chunked _ present hpresent
      refine ⟨_, hone ordinal hordinal, rfl, ?_⟩
      rcases projected_cases query
          ⟨item.sourceName, item.externalKey, [ordinal]⟩ with
        ⟨o, -, hpin, -⟩ | ⟨-, heq⟩
      · obtain ⟨other, hother, hmemory, hsome⟩ := mem_pinned.1 hpin
        have hnone := hsettled.overridden item hitem other hother hchunk
          hmemory
        exact absurd (hsome.symm.trans hnone) (Option.some_ne_none o)
      · rw [heq, key_unpinned hchunk]
        rfl
    | some ordinal =>
      rw [hchunk] at hresolved
      simp only at hresolved
      split at hresolved
      case isFalse => exact absurd hresolved (Option.some_ne_none _)
      case isTrue hordinal =>
        refine ⟨_, hone ordinal hordinal, rfl, ?_⟩
        rcases projected_cases query
            ⟨item.sourceName, item.externalKey, [ordinal]⟩ with
          ⟨o, ho, -, heq⟩ | ⟨hno, -⟩
        · rw [heq, List.mem_singleton.1 ho, key_pinned hchunk]
          rfl
        · exact absurd (mem_pinned.2 ⟨item, hitem, rfl, hchunk⟩)
            (hno ordinal (List.mem_singleton.2 rfl))

theorem topScored_of_keys (hd : Discounts discount)
    (hnonempty : query.relevant.Nonempty) {keys : List String}
    (hnodup : keys.Nodup) (hkeys : keys.toFinset = query.relevantKeys)
    (hk : keys.length ≤ k) (queryText : String) :
    TopScored (score discount queryText keys query.relevantKeys k) := by
  have hrelevant : query.relevantKeys.Nonempty := hnonempty.image Item.key
  have hcard : query.relevantKeys.card = keys.length := by
    rw [← hkeys, List.toFinset_card_of_nodup hnodup]
  have hpos := hrelevant.card_pos
  have htake : keys.take k = keys := List.take_of_length_le hk
  have hin : ∀ key ∈ keys, key ∈ query.relevantKeys := by
    intro key hkey
    rw [← hkeys]
    exact List.mem_toFinset.2 hkey
  refine ⟨?_, ?_, ?_⟩
  · show recallAtK keys query.relevantKeys k = 1
    have hall : found keys query.relevantKeys k = query.relevantKeys := by
      unfold found
      rw [htake, hkeys, Finset.inter_self]
    have hcast : ((query.relevantKeys.card : Nat) : K) ≠ 0 := by
      exact_mod_cast hpos.ne'
    have hno : ¬ (query.relevantKeys = ∅ ∨ k = 0) :=
      not_or.2 ⟨hrelevant.ne_empty, by omega⟩
    rw [recallAtK, if_neg hno, hall, div_self hcast]
  · show reciprocalRank keys query.relevantKeys = 1
    rw [reciprocalRank, if_neg hrelevant.ne_empty]
    cases keys with
    | nil => exact absurd hcard (by rw [List.length_nil]; omega)
    | cons key rest =>
      rw [rankFrom, if_pos (hin key List.mem_cons_self), Nat.cast_one,
        div_one]
  · show ndcgAtK discount keys query.relevantKeys k = 1
    have htop : keys.take (min query.relevantKeys.card k) = keys :=
      List.take_of_length_le (by omega)
    rw [ndcg_eq_one hd hrelevant (by omega)]
    unfold Metrics.Perfect
    rw [htop]
    exact ⟨by omega, hnodup, hin⟩

theorem attained (hd : Discounts discount) (hsettled : Settled corpus query)
    (hk : (memories query).card ≤ k)
    (hdistinct : ∀ i ∈ query.relevant, ∀ j ∈ query.relevant,
      i ≠ j → i.key ≠ j.key)
    (hsingle : ∀ i ∈ query.relevant, ∀ j ∈ query.relevant,
      i.memory = j.memory → i = j)
    (hincluded : ∀ i ∈ query.relevant,
      excludedBy exclude i.externalKey = none) :
    ∃ hits, Ranking corpus hits ∧ TopScored
      (evaluateQuery discount exclude k query fun n => hits.take n).result := by
  have _ : Nonempty Hit := ⟨⟨"", "", []⟩⟩
  have hexists : ∀ i ∈ query.relevant, ∃ hit : Hit, hit.From corpus
      ∧ hit.memory = i.memory ∧ projected query hit = i.key :=
    fun i hi => exists_hit hsettled hi
  choose! own hown using hexists
  have hmemory : (query.relevant.toList.map own).map Hit.memory
      = query.relevant.toList.map Item.memory := by
    rw [List.map_map]
    exact List.map_congr_left fun i hi =>
      (hown i (Finset.mem_toList.1 hi)).2.1
  have hkeys : (query.relevant.toList.map own).map (projected query)
      = query.relevant.toList.map Item.key := by
    rw [List.map_map]
    exact List.map_congr_left fun i hi =>
      (hown i (Finset.mem_toList.1 hi)).2.2
  have hkept : ∀ hit ∈ query.relevant.toList.map own,
      hit.isExcluded exclude = false := by
    intro hit hhit
    obtain ⟨i, hi, rfl⟩ := List.mem_map.1 hhit
    have hi := Finset.mem_toList.1 hi
    have hkey : (own i).externalKey = i.externalKey :=
      (Prod.mk.inj (hown i hi).2.1).2
    unfold Hit.isExcluded
    rw [hkey, hincluded i hi]
    rfl
  have hlength : (query.relevant.toList.map own).length ≤ k := by
    have hcard : (memories query).card = query.relevant.card :=
      Finset.card_image_iff.2 fun i hi j hj => hsingle i hi j hj
    rw [List.length_map, Finset.length_toList]
    omega
  refine ⟨query.relevant.toList.map own, ⟨fun hit hhit => ?_, ?_⟩, ?_⟩
  · obtain ⟨i, hi, rfl⟩ := List.mem_map.1 hhit
    exact (hown i (Finset.mem_toList.1 hi)).1
  · rw [hmemory]
    exact List.Nodup.map_on (fun i hi j hj => hsingle i (Finset.mem_toList.1 hi)
      j (Finset.mem_toList.1 hj)) query.relevant.nodup_toList
  · have hwide : WidenedEnough exclude k (query.relevant.toList.map own) :=
      .inl fun hit hhit => hkept hit (List.mem_of_mem_drop
        (List.mem_of_mem_take hhit))
    have hall : firstKept exclude k (query.relevant.toList.map own)
        = query.relevant.toList.map own := by
      unfold firstKept
      rw [List.filter_eq_self.2 fun hit hhit => by rw [hkept hit hhit]; rfl]
      exact List.take_of_length_le hlength
    have hretrieved : (rows query (kept
          (fun n => (query.relevant.toList.map own).take n) exclude k)).map
            (·.key)
        = query.relevant.toList.map Item.key := by
      rw [rows_keys, kept_spec.1 hwide, hall, hkeys]
    have hnodup : (query.relevant.toList.map Item.key).Nodup := by
      apply List.Nodup.map_on _ query.relevant.nodup_toList
      intro i hi j hj hsame
      by_contra hne
      exact hdistinct i (Finset.mem_toList.1 hi) j (Finset.mem_toList.1 hj) hne
        hsame
    have hfinset : (query.relevant.toList.map Item.key).toFinset
        = query.relevantKeys := by
      ext key
      rw [List.mem_toFinset, List.mem_map, mem_relevantKeys]
      simp only [Finset.mem_toList]
    have hbound : (query.relevant.toList.map Item.key).length ≤ k := by
      rw [List.length_map] at hlength ⊢
      exact hlength
    have htop := topScored_of_keys hd hsettled.nonempty hnodup hfinset hbound
      query.queryText
    rw [← hretrieved] at htop
    exact htop

end

/-- A corpus of one note, with so many chunks. -/
def noteCorpus (chunks : Finset Int) (h : chunks.Nonempty) : CorpusIndex where
  ordinals memory := if memory = ("notes", "a.md") then some chunks else none
  chunked memory present hpresent := by
    split at hpresent
    case isTrue => exact Option.some.inj hpresent ▸ h
    case isFalse => exact absurd hpresent.symm (Option.some_ne_none present)

/-- An export of one query with these judged items, that excludes nothing. -/
def notePayload (items : List RawItem) : Payload where
  queries := [⟨"where is it", items, {}⟩]
  evalExclude := some []

theorem chunks_nonempty : (Finset.Nonempty ({0, 1} : Finset Int)) :=
  ⟨0, by decide⟩

/-- The query for the note as a whole. -/
def wholeQuery : GoldenQuery where
  queryText := "where is it"
  relevant := {⟨"notes", "a.md", none⟩}

theorem hit_of_note {h : (Finset.Nonempty ({0, 1} : Finset Int))} {hit : Hit}
    (hfrom : hit.From (noteCorpus {0, 1} h)) :
    hit.memory = ("notes", "a.md") := by
  obtain ⟨present, hpresent, -⟩ := hfrom.present
  by_contra hother
  change (if hit.memory = ("notes", "a.md") then some _ else none)
    = some present at hpresent
  rw [if_neg hother] at hpresent
  exact absurd hpresent.symm (Option.some_ne_none present)

/-- The query for the two chunks. -/
def pinnedQuery : GoldenQuery where
  queryText := "where is it"
  relevant := {⟨"notes", "a.md", some 0⟩, ⟨"notes", "a.md", some 1⟩}

end MemoryOS.Golden
