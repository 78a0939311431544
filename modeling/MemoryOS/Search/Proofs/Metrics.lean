/-
Metrics behave like metrics (`application/metrics.py`).

Whether a position is a hit depends on the positions before it only through
the items that have gained (`hits`). All four metrics but the reciprocal rank
are functions of the hits, so the bounds are counts of hits, and an exchange
with the item above moves one hit up (`hits_exchange`).
-/
import MemoryOS.Search.Golden

namespace MemoryOS.Metrics

open Lib

-- ====== statement vocabulary

/-- All four metrics are at least as large. -/
structure NoWorse {α : Type} [DecidableEq α] {K : Type} [Field K] [LinearOrder K]
    (discount : Nat → K) (relevant : Finset α) (k : Nat)
    (retrieved better : List α) : Prop where
  precision : precisionAtK (K := K) retrieved relevant k
    ≤ precisionAtK better relevant k
  recalled : recallAtK (K := K) retrieved relevant k ≤ recallAtK better relevant k
  rank : reciprocalRank (K := K) retrieved relevant ≤ reciprocalRank better relevant
  ndcg : ndcgAtK discount retrieved relevant k ≤ ndcgAtK discount better relevant k

/-- The first positions, as many as there can be hits, are distinct relevant
items. -/
def Perfect {α : Type} [DecidableEq α] (retrieved : List α) (relevant : Finset α)
    (k : Nat) : Prop :=
  let top := retrieved.take (min relevant.card k)
  top.length = min relevant.card k ∧ top.Nodup ∧ ∀ item ∈ top, item ∈ relevant

section
variable {α : Type} [DecidableEq α] {relevant gained : Finset α}
  {retrieved items before after : List α} {x y : α} {k : Nat}

-- ============ hits

/-- The positions that gain. -/
def hits (relevant gained : Finset α) : List α → List Bool
  | [] => []
  | item :: rest =>
    if item ∈ relevant ∧ item ∉ gained then
      true :: hits relevant (insert item gained) rest
    else false :: hits relevant gained rest

theorem hits_take (k : Nat) :
    hits relevant gained (items.take k) = (hits relevant gained items).take k := by
  induction items generalizing gained k with
  | nil => simp [hits]
  | cons item rest ih =>
    cases k with
    | zero => simp [hits]
    | succ k =>
      rw [List.take_succ_cons, hits, hits]
      split
      case isTrue => rw [ih, List.take_succ_cons]
      case isFalse => rw [ih, List.take_succ_cons]

theorem count_hits : (hits relevant gained items).count true
    = ((items.toFinset ∩ relevant) \ gained).card := by
  induction items generalizing gained with
  | nil => simp [hits]
  | cons item rest ih =>
    rw [hits, List.toFinset_cons]
    split
    case isTrue h =>
      have hsplit : (insert item rest.toFinset ∩ relevant) \ gained
          = insert item ((rest.toFinset ∩ relevant) \ insert item gained) := by
        ext z
        by_cases hz : z = item
        · simp [hz, h]
        · simp [hz]
      rw [List.count_cons_self, ih, hsplit, Finset.card_insert_of_notMem (by simp)]
    case isFalse h =>
      have hsame : (insert item rest.toFinset ∩ relevant) \ gained
          = (rest.toFinset ∩ relevant) \ gained := by
        ext z
        by_cases hz : z = item
        · simp [hz]
          tauto
        · simp [hz]
      rw [List.count_cons_of_ne (by decide), ih, hsame]

theorem card_found : (found retrieved relevant k).card
    = (hits relevant ∅ (retrieved.take k)).count true := by
  rw [count_hits, Finset.sdiff_empty]
  rfl

theorem count_hits_le :
    (hits relevant ∅ (retrieved.take k)).count true ≤ min relevant.card k := by
  apply Nat.le_min.2
  constructor
  · rw [← card_found]
    exact Finset.card_le_card Finset.inter_subset_right
  · have hlength : (hits relevant ∅ (retrieved.take k)).length ≤ k := by
      rw [hits_take]
      exact List.length_take_le k _
    exact List.count_le_length.trans hlength

theorem hits_eq_replicate {m : Nat} : hits relevant gained items
      = List.replicate m true
    ↔ items.length = m ∧ items.Nodup ∧ ∀ item ∈ items, item ∈ relevant
        ∧ item ∉ gained := by
  induction items generalizing gained m with
  | nil =>
    cases m with
    | zero => simp [hits]
    | succ m => simp [hits, List.replicate_succ]
  | cons item rest ih =>
    rw [hits]
    cases m with
    | zero =>
      split
      case isTrue => simp
      case isFalse => simp
    | succ m =>
      split
      case isTrue h =>
        rw [List.replicate_succ, List.cons_inj_right, ih, List.length_cons,
          List.nodup_cons, List.forall_mem_cons]
        constructor
        · intro hrest
          obtain ⟨hlength, hnodup, hall⟩ := hrest
          refine ⟨by omega, ⟨fun hmem => ?_, hnodup⟩, h, fun z hz => ?_⟩
          · exact (hall item hmem).2 (Finset.mem_insert_self item gained)
          · exact ⟨(hall z hz).1,
              fun hgained => (hall z hz).2 (Finset.mem_insert_of_mem hgained)⟩
        · intro hrest
          obtain ⟨hlength, ⟨hnot, hnodup⟩, -, hall⟩ := hrest
          refine ⟨by omega, hnodup, fun z hz => ⟨(hall z hz).1, fun hgained => ?_⟩⟩
          rcases Finset.mem_insert.1 hgained with rfl | hgained
          · exact hnot hz
          · exact (hall z hz).2 hgained
      case isFalse h =>
        constructor
        · intro heq
          simp [List.replicate_succ] at heq
        · intro hrest
          exact absurd (hrest.2.2 item List.mem_cons_self) h

theorem hits_exchange (hx : x ∉ relevant) :
    ∃ (bits rest : List Bool) (hit : Bool),
      hits relevant gained (before ++ x :: y :: after)
          = bits ++ false :: hit :: rest
        ∧ hits relevant gained (before ++ y :: x :: after)
          = bits ++ hit :: false :: rest := by
  induction before generalizing gained with
  | nil =>
    by_cases hy : y ∈ relevant ∧ y ∉ gained
    · exact ⟨[], hits relevant (insert y gained) after, true,
        by simp [hits, hx, hy], by simp [hits, hx, hy]⟩
    · exact ⟨[], hits relevant gained after, false,
        by simp [hits, hx, hy], by simp [hits, hx, hy]⟩
  | cons item before ih =>
    rw [List.cons_append, List.cons_append, hits, hits]
    by_cases hitem : item ∈ relevant ∧ item ∉ gained
    · obtain ⟨bits, rest, hit, hleft, hright⟩ :=
        @ih (insert item gained)
      exact ⟨true :: bits, rest, hit, by rw [if_pos hitem, hleft]; rfl,
        by rw [if_pos hitem, hright]; rfl⟩
    · obtain ⟨bits, rest, hit, hleft, hright⟩ := @ih gained
      exact ⟨false :: bits, rest, hit, by rw [if_neg hitem, hleft]; rfl,
        by rw [if_neg hitem, hright]; rfl⟩

theorem lifted_exchange (hx : x ∉ relevant) :
    Lifted (hits relevant ∅ ((before ++ x :: y :: after).take k))
      (hits relevant ∅ ((before ++ y :: x :: after).take k)) := by
  obtain ⟨bits, rest, hit, hleft, hright⟩ :=
    @hits_exchange α _ relevant ∅ before after x y hx
  rw [hits_take, hits_take, hleft, hright]
  exact lifted_take bits rest hit k

end

-- ====== the metrics

section
variable {α : Type} [DecidableEq α] {relevant gained : Finset α}
  {retrieved items before after : List α} {x y : α} {k p : Nat}
  {K : Type} [Field K] {discount : Nat → K}

theorem dcgFrom_eq : dcgFrom discount relevant gained p items
    = gain discount p (hits relevant gained items) := by
  induction items generalizing gained p with
  | nil => rfl
  | cons item rest ih =>
    rw [dcgFrom, hits]
    split
    case isTrue => rw [gain, if_pos rfl, ih]
    case isFalse => rw [gain, if_neg Bool.false_ne_true, zero_add, ih]

theorem recallAtK_eq (hrelevant : relevant.Nonempty) (hk : 1 ≤ k) :
    recallAtK (K := K) retrieved relevant k
      = ((hits relevant ∅ (retrieved.take k)).count true : K)
        / (relevant.card : K) := by
  have hno : ¬ (relevant = ∅ ∨ k = 0) :=
    not_or.2 ⟨hrelevant.ne_empty, by omega⟩
  rw [recallAtK, if_neg hno, card_found]

theorem precisionAtK_eq (hrelevant : relevant.Nonempty) (hk : 1 ≤ k) :
    precisionAtK (K := K) retrieved relevant k
      = ((hits relevant ∅ (retrieved.take k)).count true : K) / (k : K) := by
  have hno : ¬ (relevant = ∅ ∨ k = 0) :=
    not_or.2 ⟨hrelevant.ne_empty, by omega⟩
  rw [precisionAtK, if_neg hno, card_found]

theorem ndcgAtK_eq (hrelevant : relevant.Nonempty) (hk : 1 ≤ k) :
    ndcgAtK discount retrieved relevant k
      = gain discount 1 (hits relevant ∅ (retrieved.take k))
        / ideal discount 1 (min relevant.card k) := by
  have hno : ¬ (relevant = ∅ ∨ k = 0) :=
    not_or.2 ⟨hrelevant.ne_empty, by omega⟩
  rw [ndcgAtK, if_neg hno, dcgFrom_eq]

variable [LinearOrder K] [IsStrictOrderedRing K]

theorem rankFrom_nonneg (hp : 1 ≤ p) : 0 ≤ rankFrom (K := K) relevant p items := by
  induction items generalizing p with
  | nil => exact le_refl _
  | cons item rest ih =>
    rw [rankFrom]
    split
    case isTrue => positivity
    case isFalse => exact ih (by omega)

theorem rankFrom_le_one (hp : 1 ≤ p) : rankFrom (K := K) relevant p items ≤ 1 := by
  induction items generalizing p with
  | nil => exact zero_le_one
  | cons item rest ih =>
    rw [rankFrom]
    split
    case isTrue =>
      have hcast : (1 : K) ≤ (p : K) := by exact_mod_cast hp
      exact (div_le_one (by linarith)).2 hcast
    case isFalse => exact ih (by omega)

theorem rankFrom_exchange (hp : 1 ≤ p) (hx : x ∉ relevant) (hy : y ∈ relevant) :
    rankFrom (K := K) relevant p (before ++ x :: y :: after)
      ≤ rankFrom relevant p (before ++ y :: x :: after) := by
  induction before generalizing p with
  | nil =>
    have hcast : (0 : K) < (p : K) := by exact_mod_cast hp
    have hnext : (p : K) ≤ ((p + 1 : Nat) : K) := by exact_mod_cast Nat.le_succ p
    rw [List.nil_append, List.nil_append, rankFrom, if_neg hx, rankFrom,
      if_pos hy, rankFrom, if_pos hy]
    exact one_div_le_one_div_of_le hcast hnext
  | cons item before ih =>
    rw [List.cons_append, List.cons_append, rankFrom, rankFrom]
    split
    case isTrue => exact le_refl _
    case isFalse => exact ih (by omega)

-- ======= the claim

theorem count_div_mem {n : Nat} (hn : 1 ≤ n)
    (hle : (hits relevant ∅ (retrieved.take k)).count true ≤ n) :
    0 ≤ ((hits relevant ∅ (retrieved.take k)).count true : K) / (n : K)
      ∧ ((hits relevant ∅ (retrieved.take k)).count true : K) / (n : K) ≤ 1 := by
  have hpos : (0 : K) < (n : K) := by exact_mod_cast hn
  refine ⟨by positivity, (div_le_one hpos).2 ?_⟩
  exact_mod_cast hle

omit [DecidableEq α] in
theorem ideal_min_pos (hd : Discounts discount) (hrelevant : relevant.Nonempty)
    (hk : 1 ≤ k) : 0 < ideal discount 1 (min relevant.card k) := by
  have hcard := hrelevant.card_pos
  obtain ⟨n, hn⟩ : ∃ n, min relevant.card k = n + 1 :=
    ⟨min relevant.card k - 1, by omega⟩
  rw [hn]
  exact ideal_pos hd (Nat.le_refl 1)

theorem ndcg_mem (hd : Discounts discount) (hrelevant : relevant.Nonempty)
    (hk : 1 ≤ k) :
    0 ≤ ndcgAtK discount retrieved relevant k
      ∧ ndcgAtK discount retrieved relevant k ≤ 1 := by
  have hpos := ideal_min_pos hd hrelevant hk
  rw [ndcgAtK_eq hrelevant hk, div_le_one hpos]
  constructor
  · exact div_nonneg (gain_nonneg hd (Nat.le_refl 1)) hpos.le
  · exact (gain_le_ideal hd (Nat.le_refl 1)).trans
      (ideal_mono hd (Nat.le_refl 1) count_hits_le)

theorem ndcg_eq_one (hd : Discounts discount) (hrelevant : relevant.Nonempty)
    (hk : 1 ≤ k) :
    ndcgAtK discount retrieved relevant k = 1 ↔ Perfect retrieved relevant k := by
  have hpos := ideal_min_pos hd hrelevant hk
  have htop : (retrieved.take k).take (min relevant.card k)
      = retrieved.take (min relevant.card k) := by
    rw [List.take_take]
    congr 1
    omega
  rw [ndcgAtK_eq hrelevant hk, div_eq_one_iff_eq hpos.ne',
    gain_eq_ideal_iff hd (Nat.le_refl 1) count_hits_le, ← hits_take, htop,
    hits_eq_replicate]
  unfold Perfect
  simp

theorem noWorse_exchange (hd : Discounts discount) (hrelevant : relevant.Nonempty)
    (hk : 1 ≤ k) (hx : x ∉ relevant) (hy : y ∈ relevant) :
    NoWorse discount relevant k (before ++ x :: y :: after)
      (before ++ y :: x :: after) := by
  have hlifted := @lifted_exchange α _ relevant before after x y k hx
  have hcount : ((hits relevant ∅ ((before ++ x :: y :: after).take k)).count true : K)
      ≤ ((hits relevant ∅ ((before ++ y :: x :: after).take k)).count true : K) := by
    exact_mod_cast hlifted.count_le
  refine ⟨?_, ?_, ?_, ?_⟩
  · rw [precisionAtK_eq hrelevant hk, precisionAtK_eq hrelevant hk]
    exact div_le_div_of_nonneg_right hcount (Nat.cast_nonneg k)
  · rw [recallAtK_eq hrelevant hk, recallAtK_eq hrelevant hk]
    exact div_le_div_of_nonneg_right hcount (Nat.cast_nonneg _)
  · rw [reciprocalRank, reciprocalRank, if_neg hrelevant.ne_empty,
      if_neg hrelevant.ne_empty]
    exact rankFrom_exchange (Nat.le_refl 1) hx hy
  · rw [ndcgAtK_eq hrelevant hk, ndcgAtK_eq hrelevant hk]
    exact div_le_div_of_nonneg_right (hlifted.gain_le hd (Nat.le_refl 1))
      (ideal_min_pos hd hrelevant hk).le

end

/-- Discounts that fall like the reciprocal of the position. -/
def harmonic (position : Nat) : Rat := 1 / position

theorem harmonic_discounts : Discounts harmonic := by
  constructor
  · intro i hi
    have hcast : (0 : Rat) < (i : Rat) := by exact_mod_cast hi
    exact one_div_pos.2 hcast
  · intro i hi
    have hcast : (0 : Rat) < (i : Rat) := by exact_mod_cast hi
    have hnext : (i : Rat) < ((i + 1 : Nat) : Rat) := by
      exact_mod_cast Nat.lt_succ_self i
    exact one_div_lt_one_div_of_lt hcast hnext

end MemoryOS.Metrics
