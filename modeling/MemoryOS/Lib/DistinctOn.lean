/-
`DISTINCT ON`: of each group of rows the one that comes first.

On a list sorted by a relation, the row kept of a group is its least one;
it is the only one there is when the relation tells the rows of a group
apart.
-/
import Mathlib.Data.List.Basic

namespace MemoryOS.Lib.DistinctOn

variable {ρ κ : Type} [DecidableEq κ] {key : ρ → κ} {r : ρ → ρ → Prop}
  {rows : List ρ} {x y : ρ}

/-- The first row of each group. -/
def distinctOn (key : ρ → κ) : List ρ → List ρ
  | [] => []
  | x :: rest =>
    x :: (distinctOn key rest).filter fun y => decide (key y ≠ key x)

theorem distinctOn_cons : distinctOn key (x :: rows)
    = x :: (distinctOn key rows).filter fun y => decide (key y ≠ key x) := rfl

theorem mem_of_mem_distinctOn (h : x ∈ distinctOn key rows) : x ∈ rows := by
  induction rows with
  | nil => exact h
  | cons a rest ih =>
    unfold distinctOn at h
    rcases List.mem_cons.mp h with rfl | h
    · exact List.mem_cons_self
    · exact List.mem_cons_of_mem a (ih (List.mem_filter.mp h).1)

theorem le_of_mem_distinctOn (hrefl : ∀ a, r a a) (hsorted : rows.Pairwise r)
    (hx : x ∈ distinctOn key rows) (hy : y ∈ rows) (hk : key y = key x) :
    r x y := by
  induction rows with
  | nil => cases hy
  | cons a rest ih =>
    obtain ⟨hhead, htail⟩ := List.pairwise_cons.mp hsorted
    unfold distinctOn at hx
    rcases List.mem_cons.mp hx with rfl | hx
    · rcases List.mem_cons.mp hy with rfl | hy
      · exact hrefl y
      · exact hhead y hy
    · obtain ⟨hx, hne⟩ := List.mem_filter.mp hx
      rw [decide_eq_true_eq] at hne
      rcases List.mem_cons.mp hy with rfl | hy
      · exact absurd hk.symm hne
      · exact ih htail hx hy

theorem exists_mem_distinctOn (hy : y ∈ rows) :
    ∃ x ∈ distinctOn key rows, key x = key y := by
  induction rows with
  | nil => cases hy
  | cons a rest ih =>
    unfold distinctOn
    by_cases hk : key a = key y
    · exact ⟨a, List.mem_cons_self, hk⟩
    · rcases List.mem_cons.mp hy with rfl | hy
      · exact absurd rfl hk
      · obtain ⟨x, hx, hxy⟩ := ih hy
        refine ⟨x, List.mem_cons_of_mem a (List.mem_filter.mpr ⟨hx, ?_⟩), hxy⟩
        rw [decide_eq_true_eq, hxy]
        exact fun h => hk h.symm

theorem mem_distinctOn_iff (hrefl : ∀ a, r a a) (hsorted : rows.Pairwise r)
    (hanti : ∀ a ∈ rows, ∀ b ∈ rows, key a = key b → r a b → r b a → a = b) :
    x ∈ distinctOn key rows
      ↔ x ∈ rows ∧ ∀ y ∈ rows, key y = key x → r x y := by
  constructor
  · exact fun hx => ⟨mem_of_mem_distinctOn hx, fun y hy hk =>
      le_of_mem_distinctOn hrefl hsorted hx hy hk⟩
  · rintro ⟨hx, hfirst⟩
    obtain ⟨z, hz, hk⟩ := @exists_mem_distinctOn _ _ _ key _ _ hx
    have hzrows := mem_of_mem_distinctOn hz
    have hzx : r z x := le_of_mem_distinctOn hrefl hsorted hz hx hk.symm
    rwa [hanti x hx z hzrows hk.symm (hfirst z hzrows hk) hzx]

-- ====== one after another

theorem distinctOn_append (a b : List ρ) :
    distinctOn key (a ++ b) = distinctOn key a
      ++ (distinctOn key b).filter fun y => decide (∀ x ∈ a, key y ≠ key x) := by
  induction a with
  | nil =>
    refine (List.filter_eq_self.mpr fun y _ => ?_).symm
    exact decide_eq_true (List.forall_mem_nil _)
  | cons z rest ih =>
    rw [List.cons_append, distinctOn_cons, distinctOn_cons, ih,
      List.filter_append, List.filter_filter, List.cons_append]
    congr 2
    refine List.filter_congr fun y _ => ?_
    rw [← Bool.decide_and]
    exact decide_eq_decide.mpr
      (List.forall_mem_cons (p := fun x => key y ≠ key x)).symm

theorem mem_distinctOn_concat (a : List ρ) (z : ρ) :
    x ∈ distinctOn key (a ++ [z])
      ↔ x ∈ distinctOn key a ∨ x = z ∧ ∀ y ∈ a, key z ≠ key y := by
  rw [distinctOn_append, List.mem_append, List.mem_filter, decide_eq_true_eq]
  show _ ∨ x ∈ [z] ∧ _ ↔ _
  rw [List.mem_singleton]
  refine or_congr_right (and_congr_right fun hx => ?_)
  rw [hx]

theorem mem_distinctOn_flatMap {σ : Type} {f : σ → List ρ} {l : List σ}
    (hapart : l.Pairwise fun a b => ∀ x ∈ f a, ∀ y ∈ f b, key y ≠ key x) :
    x ∈ distinctOn key (l.flatMap f) ↔ ∃ a ∈ l, x ∈ distinctOn key (f a) := by
  induction l with
  | nil => simp [distinctOn]
  | cons a rest ih =>
    obtain ⟨hhead, htail⟩ := List.pairwise_cons.mp hapart
    rw [List.flatMap_cons, distinctOn_append, List.mem_append,
      List.mem_filter, decide_eq_true_eq, ih htail]
    simp only [List.mem_cons, exists_eq_or_imp]
    refine or_congr_right ⟨And.left, fun h => ⟨h, fun y hy => ?_⟩⟩
    obtain ⟨b, hb, hx⟩ := h
    exact hhead b hb y hy x (mem_of_mem_distinctOn hx)

theorem pairwise_distinctOn : (distinctOn key rows).Pairwise
    fun a b => key a ≠ key b := by
  induction rows with
  | nil => exact List.Pairwise.nil
  | cons a rest ih =>
    rw [distinctOn_cons]
    apply List.pairwise_cons.2
    refine ⟨fun b hb => ?_, ih.filter _⟩
    exact Ne.symm (of_decide_eq_true (List.mem_filter.1 hb).2)

theorem distinctOn_eq_nil : distinctOn key rows = [] ↔ rows = [] := by
  cases rows with
  | nil => exact Iff.rfl
  | cons a rest => simp [distinctOn]

theorem distinctOn_eq_self (h : (rows.map key).Nodup) : distinctOn key rows = rows := by
  induction rows with
  | nil => rfl
  | cons a rest ih =>
    obtain ⟨ha, hrest⟩ := List.nodup_cons.1 h
    rw [distinctOn_cons, ih hrest]
    congr 1
    refine List.filter_eq_self.2 fun y hy => decide_eq_true fun heq => ha ?_
    exact List.mem_map.2 ⟨y, hy, heq⟩

theorem mem_distinctOn_split : x ∈ distinctOn key rows
    ↔ ∃ before after, rows = before ++ x :: after
      ∧ ∀ y ∈ before, key y ≠ key x := by
  induction rows with
  | nil => simp [distinctOn]
  | cons a rest ih =>
    rw [distinctOn_cons, List.mem_cons, List.mem_filter, decide_eq_true_eq, ih]
    constructor
    · intro h
      rcases h with rfl | ⟨⟨before, after, hrest, hbefore⟩, hne⟩
      · exact ⟨[], rest, rfl, List.forall_mem_nil _⟩
      · exact ⟨a :: before, after, by rw [hrest, List.cons_append],
          List.forall_mem_cons.2 ⟨hne.symm, hbefore⟩⟩
    · intro h
      obtain ⟨before, after, hsplit, hbefore⟩ := h
      cases before with
      | nil => exact .inl (List.cons.inj hsplit).1.symm
      | cons b before =>
        obtain ⟨rfl, hrest⟩ := List.cons.inj hsplit
        obtain ⟨hne, hbefore⟩ := List.forall_mem_cons.1 hbefore
        exact .inr ⟨⟨before, after, hrest, hbefore⟩, hne.symm⟩

-- ====== a set of what was seen

section

variable {α : Type} {judge : α → Option ρ}

/-- The loop over `xs` that judges each, and keeps what it makes of it unless its
key has been seen. -/
def sieve (judge : α → Option ρ) (key : ρ → κ) (seen : List κ) : List α → List ρ
  | [] => []
  | a :: rest =>
    match judge a with
    | none => sieve judge key seen rest
    | some x =>
      if seen.contains (key x) then sieve judge key seen rest
      else x :: sieve judge key (key x :: seen) rest

theorem sieve_eq_filter (seen : List κ) (xs : List α) :
    sieve judge key seen xs = (distinctOn key (xs.filterMap judge)).filter
      fun y => !seen.contains (key y) := by
  induction xs generalizing seen with
  | nil => rfl
  | cons a rest ih =>
    unfold sieve
    split
    case h_1 hnone => rw [List.filterMap_cons_none hnone, ih]
    case h_2 x hsome =>
      rw [List.filterMap_cons_some hsome, distinctOn_cons, List.filter_cons]
      by_cases hseen : seen.contains (key x) = true
      · rw [if_pos hseen, hseen, if_neg (by decide), ih, List.filter_filter]
        refine List.filter_congr fun y _ => ?_
        by_cases hkey : key y = key x
        · rw [hkey, hseen]
          rfl
        · simp [hkey]
      · rw [if_neg hseen, if_pos (by simpa using hseen), ih, List.filter_filter]
        congr 1
        refine List.filter_congr fun y _ => ?_
        by_cases hkey : key y = key x
        · simp [hkey]
        · simp [hkey]

theorem sieve_eq (judge : α → Option ρ) (key : ρ → κ) (xs : List α) :
    sieve judge key [] xs = distinctOn key (xs.filterMap judge) := by
  rw [sieve_eq_filter]
  exact List.filter_eq_self.2 fun y _ => rfl

theorem mem_sieve {xs : List α} : x ∈ sieve judge key [] xs
    ↔ ∃ before a after, xs = before ++ a :: after ∧ judge a = some x
      ∧ ∀ b ∈ before, ∀ y, judge b = some y → key y ≠ key x := by
  rw [sieve_eq, mem_distinctOn_split]
  constructor
  · intro h
    obtain ⟨kept, rest, hsplit, hkept⟩ := h
    obtain ⟨before, tail, rfl, rfl, htail⟩ := List.filterMap_eq_append_iff.1 hsplit
    obtain ⟨skipped, a, after, rfl, hskipped, ha, -⟩ :=
      List.filterMap_eq_cons_iff.1 htail
    refine ⟨before ++ skipped, a, after, (List.append_assoc ..).symm, ha, ?_⟩
    intro b hb y hy
    rcases List.mem_append.1 hb with hb | hb
    · exact hkept y (List.mem_filterMap.2 ⟨b, hb, hy⟩)
    · rw [hskipped b hb] at hy
      cases hy
  · intro h
    obtain ⟨before, a, after, rfl, ha, hbefore⟩ := h
    refine ⟨before.filterMap judge, after.filterMap judge, ?_, ?_⟩
    · rw [List.filterMap_append, List.filterMap_cons_some ha]
    · intro y hy
      obtain ⟨b, hb, hy⟩ := List.mem_filterMap.1 hy
      exact hbefore b hb y hy

end

theorem nodup_eraseDups (l : List κ) : l.eraseDups.Nodup := by
  induction hn : l.length using Nat.strongRecOn generalizing l with
  | ind n ih =>
    cases l with
    | nil => exact List.nodup_nil
    | cons h rest =>
      rw [List.eraseDups_cons, List.nodup_cons]
      refine ⟨fun hin => ?_, ih _ ?_ _ rfl⟩
      · rw [List.mem_eraseDups, List.mem_filter] at hin
        simp at hin
      · rw [← hn, List.length_cons]
        exact Nat.lt_succ_of_le (List.length_filter_le _ _)

end MemoryOS.Lib.DistinctOn
