/-
Grouping into a dictionary of lists: what `groups.setdefault(key,
[]).append(item)` over a loop leaves, in the order the keys first came.
-/
import Mathlib.Data.List.Induction
import Mathlib.Data.List.Nodup

namespace MemoryOS.Lib

namespace Grouped

variable {κ α : Type} [DecidableEq κ]

/-- `groups.setdefault(k, []).append(x)`. -/
def append (k : κ) (x : α) : List (κ × List α) → List (κ × List α)
  | [] => [(k, [x])]
  | g :: rest =>
    if g.1 = k then (g.1, g.2 ++ [x]) :: rest else g :: append k x rest

/-- The loop. -/
def grouped (key : α → κ) (xs : List α) : List (κ × List α) :=
  xs.foldl (fun groups x => append (key x) x groups) []

variable {groups : List (κ × List α)} {xs : List α} {key : α → κ} {k : κ}
  {x : α}

theorem mem_append_iff {y : α} :
    (∃ g ∈ append k x groups, y ∈ g.2)
      ↔ (∃ g ∈ groups, y ∈ g.2) ∨ y = x := by
  induction groups with
  | nil => simp [append]
  | cons g rest ih =>
    unfold append
    split
    case isTrue =>
      simp only [List.exists_mem_cons_iff, List.mem_append,
        List.mem_singleton]
      exact or_right_comm
    case isFalse =>
      simp only [List.exists_mem_cons_iff, ih]
      exact or_assoc.symm

theorem mem_grouped_iff {y : α} :
    (∃ g ∈ grouped key xs, y ∈ g.2) ↔ y ∈ xs := by
  unfold grouped
  suffices h : ∀ groups : List (κ × List α),
      (∃ g ∈ xs.foldl (fun groups x => append (key x) x groups) groups,
        y ∈ g.2) ↔ (∃ g ∈ groups, y ∈ g.2) ∨ y ∈ xs by
    simpa using h []
  induction xs with
  | nil => simp
  | cons x rest ih =>
    intro groups
    rw [List.foldl_cons, ih, mem_append_iff, List.mem_cons, or_assoc]

-- ============ keys

theorem mem_append_keys {k' : κ} :
    k' ∈ (append k x groups).map Prod.fst
      ↔ k' ∈ groups.map Prod.fst ∨ k' = k := by
  induction groups with
  | nil => simp [append]
  | cons g rest ih =>
    unfold append
    split
    case isTrue h =>
      simp only [List.map_cons, List.mem_cons]
      exact ⟨.inl, fun hk => hk.elim id fun heq => .inl (heq.trans h.symm)⟩
    case isFalse =>
      simp only [List.map_cons, List.mem_cons, ih]
      exact or_assoc.symm

theorem append_keys_nodup (h : (groups.map Prod.fst).Nodup) :
    ((append k x groups).map Prod.fst).Nodup := by
  induction groups with
  | nil => simp [append]
  | cons g rest ih =>
    obtain ⟨hg, hrest⟩ := List.nodup_cons.1 h
    unfold append
    split
    case isTrue => exact h
    case isFalse hne =>
      refine List.nodup_cons.2 ⟨fun hmem => ?_, ih hrest⟩
      exact (mem_append_keys.1 hmem).elim hg hne

theorem append_forall {P : κ → α → Prop} (h : ∀ g ∈ groups, ∀ y ∈ g.2, P g.1 y)
    (hx : P k x) : ∀ g ∈ append k x groups, ∀ y ∈ g.2, P g.1 y := by
  induction groups with
  | nil =>
    intro g hg y hy
    obtain rfl := List.mem_singleton.1 hg
    obtain rfl := List.mem_singleton.1 hy
    exact hx
  | cons g rest ih =>
    obtain ⟨hg, hrest⟩ := List.forall_mem_cons.1 h
    unfold append
    split
    case isTrue hk =>
      refine List.forall_mem_cons.2 ⟨fun y hy => ?_, hrest⟩
      rcases List.mem_append.1 hy with hy | hy
      · exact hg y hy
      · obtain rfl := List.mem_singleton.1 hy
        exact hk ▸ hx
    case isFalse => exact List.forall_mem_cons.2 ⟨hg, ih hrest⟩

-- ====== what a group holds

/-- The elements under a key. -/
def under (k : κ) : List (κ × List α) → List α
  | [] => []
  | g :: rest => if g.1 = k then g.2 else under k rest

theorem under_of_mem {g : κ × List α}
    (hnodup : (groups.map Prod.fst).Nodup) (hg : g ∈ groups) :
    under g.1 groups = g.2 := by
  induction groups with
  | nil => cases hg
  | cons a rest ih =>
    obtain ⟨ha, hrest⟩ := List.nodup_cons.1 hnodup
    rw [under]
    rcases List.mem_cons.1 hg with heq | hmem
    · rw [heq, if_pos rfl]
    · have hne : a.1 ≠ g.1 := fun heq =>
        ha (List.mem_map.2 ⟨g, hmem, heq.symm⟩)
      rw [if_neg hne, ih hrest hmem]

theorem under_append {k' : κ} :
    under k' (append k x groups)
      = if k = k' then under k' groups ++ [x] else under k' groups := by
  induction groups with
  | nil => rfl
  | cons g rest ih =>
    unfold append
    by_cases hg : g.1 = k
    · rw [if_pos hg, under, under, hg]
      split
      case isTrue => rfl
      case isFalse => rfl
    · rw [if_neg hg, under, under, ih]
      by_cases hk' : g.1 = k'
      · rw [if_pos hk', if_pos hk', if_neg fun h => hg (hk'.trans h.symm)]
      · rw [if_neg hk', if_neg hk']

theorem grouped_concat :
    grouped key (xs ++ [x]) = append (key x) x (grouped key xs) := by
  rw [grouped, grouped, List.foldl_append]
  rfl

theorem nodup_grouped (key : α → κ) (xs : List α) :
    ((grouped key xs).map Prod.fst).Nodup := by
  induction xs using List.reverseRecOn with
  | nil => exact List.nodup_nil
  | append_singleton xs x ih =>
    rw [grouped_concat]
    exact append_keys_nodup ih

theorem mem_grouped_keys :
    k ∈ (grouped key xs).map Prod.fst ↔ ∃ x ∈ xs, key x = k := by
  induction xs using List.reverseRecOn with
  | nil => simp [grouped]
  | append_singleton xs x ih =>
    rw [grouped_concat, mem_append_keys, ih]
    simp only [List.mem_append, List.mem_singleton, or_and_right, exists_or,
      exists_eq_left]
    exact or_congr_right eq_comm

theorem under_grouped (key : α → κ) (xs : List α) (k : κ) :
    under k (grouped key xs) = xs.filter fun x => decide (key x = k) := by
  induction xs using List.reverseRecOn with
  | nil => rfl
  | append_singleton xs x ih =>
    rw [grouped_concat, under_append, ih, List.filter_append, List.filter_cons,
      List.filter_nil]
    by_cases hk : key x = k
    · rw [if_pos hk, if_pos (decide_eq_true hk)]
    · rw [if_neg hk, if_neg (by simpa using hk), List.append_nil]

theorem snd_of_mem_grouped {g : κ × List α}
    (hg : g ∈ grouped key xs) : g.2 = xs.filter fun x => decide (key x = g.1) := by
  rw [← under_grouped key xs g.1]
  exact (under_of_mem (nodup_grouped key xs) hg).symm

end Grouped

end MemoryOS.Lib
