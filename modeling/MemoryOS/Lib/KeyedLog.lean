/-
Logs and tables: lists numbered one by one, folds of a log by key, and tables
that are written by key.

`Numbered f n xs` says that `f` numbers the elements of `xs` `n`, `n + 1`,
`n + 2`, … . What is asked of such a list by number is then answered by
position: the elements past a number are a suffix (`Numbered.filter`), and
whether a number was reached is a length.

Every event has a key and every row has one, and a step touches only the rows of
its event's key (`Local`). Then the rows of a key are the fold of that key's
events alone, and leaving out every event of some keys gives the same table
exactly when those keys have no rows anyway.

A table that is written by key has the row of the key refreshed, or a new one
added. A write leaves the rows of other keys as they are (`mem_upsert_other`),
makes the row of its key (`mem_upsert_key`), takes no key away (`keys_upsert`),
and done again it changes nothing (`upsert_eq_self`).
-/
import Mathlib.Data.List.Basic
import Mathlib.Data.List.Count
import Mathlib.Data.List.Nodup
import Mathlib.Data.List.Perm.Basic

namespace MemoryOS.Lib

variable {α : Type} {f : α → Nat}

/-- `f` numbers the elements consecutively from `n`. -/
def Numbered (f : α → Nat) : Nat → List α → Prop
  | _, [] => True
  | n, x :: xs => f x = n ∧ Numbered f (n + 1) xs

namespace Numbered

variable {xs : List α} {n : Nat} {x : α}

theorem drop (h : Numbered f n xs) (k : Nat) :
    Numbered f (n + k) (xs.drop k) := by
  induction k generalizing n xs with
  | zero => simpa using h
  | succ k ih =>
    cases xs with
    | nil => trivial
    | cons x xs =>
      rw [List.drop_succ_cons, show n + (k + 1) = n + 1 + k by omega]
      exact ih h.2

theorem concat (h : Numbered f n xs)
    (hx : f x = n + xs.length) : Numbered f n (xs ++ [x]) := by
  induction xs generalizing n with
  | nil => exact ⟨by simpa using hx, trivial⟩
  | cons y ys ih =>
    exact ⟨h.1, ih h.2 (by simp only [List.length_cons] at hx; omega)⟩

theorem range (h : Numbered f n xs)
    (hx : x ∈ xs) : n ≤ f x ∧ f x < n + xs.length := by
  induction xs generalizing n with
  | nil => exact absurd hx List.not_mem_nil
  | cons y ys ih =>
    obtain ⟨hy, hys⟩ := h
    simp only [List.length_cons]
    rcases List.mem_cons.1 hx with rfl | hx
    · omega
    · have := ih hys hx
      omega

theorem mem_drop (h : Numbered f n xs)
    (hx : x ∈ xs) {k : Nat} (hk : n + k ≤ f x) : x ∈ xs.drop k := by
  induction k generalizing n xs with
  | zero => simpa using hx
  | succ k ih =>
    cases xs with
    | nil => exact absurd hx List.not_mem_nil
    | cons y ys =>
      obtain ⟨hy, hys⟩ := h
      rcases List.mem_cons.1 hx with rfl | hx
      · omega
      · exact ih hys hx (by omega)

theorem shift {g : α → Nat} {m : Nat}
    (hf : Numbered f n xs) (hg : Numbered g m xs) (hx : x ∈ xs) :
    f x + m = g x + n := by
  induction xs generalizing n m with
  | nil => exact absurd hx List.not_mem_nil
  | cons y ys ih =>
    rcases List.mem_cons.1 hx with rfl | hx
    · rw [hf.1, hg.1, Nat.add_comm]
    · have := ih hf.2 hg.2 hx
      omega

theorem filter (h : Numbered f n xs) (l : Nat) :
    (xs.filter fun x => decide (l < f x)) = xs.drop (l + 1 - n) := by
  induction xs generalizing n with
  | nil => simp
  | cons y ys ih =>
    obtain ⟨rfl, hys⟩ := h
    by_cases hl : l < f y
    · have hall : ∀ x ∈ y :: ys, decide (l < f x) = true := by
        intro x hx
        rcases List.mem_cons.1 hx with rfl | hx
        · exact decide_eq_true hl
        · have := (range hys hx).1
          exact decide_eq_true (by omega)
      rw [List.filter_eq_self.2 hall, show l + 1 - f y = 0 by omega,
        List.drop_zero]
    · rw [List.filter_cons_of_neg (by simpa using hl), ih hys,
        show l + 1 - f y = (l + 1 - (f y + 1)) + 1 by omega,
        List.drop_succ_cons]

theorem head (h : Numbered f n xs)
    (hx : xs.head? = some x) : f x = n := by
  cases xs with
  | nil => cases hx
  | cons y ys =>
    cases hx
    exact h.1

end Numbered

end MemoryOS.Lib

namespace MemoryOS.Lib.KeyedLog

variable {ρ ε κ : Type} [DecidableEq κ] {rowKey : ρ → κ} {evKey : ε → κ}
  {step : List ρ → ε → List ρ}

/-- The rows of one key. -/
def rowsOf (rowKey : ρ → κ) (k : κ) (rows : List ρ) : List ρ :=
  rows.filter fun r => decide (rowKey r = k)

/-- The events of one key. -/
def eventsOf (evKey : ε → κ) (k : κ) (log : List ε) : List ε :=
  log.filter fun e => decide (evKey e = k)

/-- A step works on its own key's rows, and on no other's. -/
structure Local (rowKey : ρ → κ) (evKey : ε → κ)
    (step : List ρ → ε → List ρ) : Prop where
  own : ∀ rows e, rowsOf rowKey (evKey e) (step rows e)
    = step (rowsOf rowKey (evKey e) rows) e
  other : ∀ rows e k, k ≠ evKey e →
    rowsOf rowKey k (step rows e) = rowsOf rowKey k rows

theorem Local.rowsOf_foldl (h : Local rowKey evKey step) (k : κ)
    (log : List ε) (rows : List ρ) :
    rowsOf rowKey k (log.foldl step rows)
      = (eventsOf evKey k log).foldl step (rowsOf rowKey k rows) := by
  induction log generalizing rows with
  | nil => rfl
  | cons e log ih =>
    rw [List.foldl_cons, ih]
    by_cases hk : evKey e = k
    · subst hk
      rw [h.own]
      simp [eventsOf]
    · rw [h.other rows e k (Ne.symm hk)]
      simp [eventsOf, hk]

theorem perm_iff_rowsOf [DecidableEq ρ] (rowKey : ρ → κ) {a b : List ρ} :
    a.Perm b ↔ ∀ k, (rowsOf rowKey k a).Perm (rowsOf rowKey k b) := by
  constructor
  · exact fun h k => h.filter _
  · intro h
    rw [List.perm_iff_count]
    intro x
    have hx := (h (rowKey x)).count_eq x
    unfold rowsOf at hx
    rwa [List.count_filter (by simp), List.count_filter (by simp)] at hx

/-- The events of the keys that are not skipped. -/
def unskipped (evKey : ε → κ) (skip : κ → Bool) (log : List ε) : List ε :=
  log.filter fun e => !skip (evKey e)

theorem eventsOf_unskipped {skip : κ → Bool} {k : κ} (log : List ε) :
    eventsOf evKey k (unskipped evKey skip log)
      = if skip k then [] else eventsOf evKey k log := by
  unfold eventsOf unskipped
  rw [List.filter_filter]
  cases hs : skip k with
  | true =>
    rw [if_pos rfl, List.filter_eq_nil_iff]
    intro e _ he
    simp only [Bool.and_eq_true, decide_eq_true_eq,
      Bool.not_eq_true'] at he
    rw [he.1, hs] at he
    cases he.2
  | false =>
    simp only [Bool.false_eq_true, ↓reduceIte]
    refine List.filter_congr fun e _ => ?_
    by_cases he : evKey e = k
    · simp [he, hs]
    · simp [he]

theorem eventsOf_split_iff {k : κ} {log : List ε}
    {P : ε → List ε → Prop}
    (hP : ∀ e post, evKey e = k → (P e (eventsOf evKey k post) ↔ P e post)) :
    (∀ pre e post, eventsOf evKey k log = pre ++ e :: post → P e post)
      ↔ ∀ pre e post, log = pre ++ e :: post → evKey e = k → P e post := by
  constructor
  · intro h pre e post hlog he
    refine (hP e post he).mp (h (eventsOf evKey k pre) e _ ?_)
    rw [hlog]
    simp [eventsOf, he]
  · intro h pre e post hsplit
    unfold eventsOf at hsplit
    obtain ⟨l₁, l₂, rfl, -, hl₂⟩ := List.filter_eq_append_iff.mp hsplit
    obtain ⟨l₃, l₄, rfl, -, he, rfl⟩ := List.filter_eq_cons_iff.mp hl₂
    rw [decide_eq_true_eq] at he
    exact (hP e l₄ he).mpr (h (l₁ ++ l₃) e l₄ (by simp) he)

theorem Local.unskipped_perm_iff [DecidableEq ρ]
    (h : Local rowKey evKey step) (skip : κ → Bool) (log : List ε) :
    ((unskipped evKey skip log).foldl step []).Perm (log.foldl step [])
      ↔ ∀ k, skip k = true → (eventsOf evKey k log).foldl step [] = [] := by
  rw [perm_iff_rowsOf rowKey]
  refine forall_congr' fun k => ?_
  rw [h.rowsOf_foldl, h.rowsOf_foldl, eventsOf_unskipped]
  cases hs : skip k with
  | true =>
    simp only [↓reduceIte, List.foldl_nil, forall_const]
    show ([] : List ρ).Perm _ ↔ _
    rw [List.nil_perm]
    rfl
  | false => simp

end MemoryOS.Lib.KeyedLog

namespace MemoryOS.Lib

namespace Upsert

variable {ρ κ γ : Type} [DecidableEq κ]

/-- Refresh the rows of a key, or add a row if there is none. -/
def upsert (key : ρ → κ) (k : κ) (refresh : ρ → ρ) (fresh : ρ) (rows : List ρ) :
    List ρ :=
  if rows.any fun r => decide (key r = k) then
    rows.map fun r => if key r = k then refresh r else r
  else rows ++ [fresh]

variable {key : ρ → κ} {k : κ} {refresh : ρ → ρ} {fresh : ρ} {rows : List ρ} {r : ρ}

theorem any_key_iff : (rows.any fun r => decide (key r = k)) = true
    ↔ k ∈ rows.map key := by
  rw [List.any_eq_true, List.mem_map]
  constructor
  · intro h
    obtain ⟨r, hr, hk⟩ := h
    exact ⟨r, hr, of_decide_eq_true hk⟩
  · intro h
    obtain ⟨r, hr, hk⟩ := h
    exact ⟨r, hr, decide_eq_true hk⟩

theorem upsert_of_mem (h : k ∈ rows.map key) : upsert key k refresh fresh rows
    = rows.map fun r => if key r = k then refresh r else r := by
  rw [upsert, if_pos (any_key_iff.2 h)]

theorem upsert_of_not_mem (h : k ∉ rows.map key) :
    upsert key k refresh fresh rows = rows ++ [fresh] := by
  rw [upsert, if_neg (mt any_key_iff.1 h)]

theorem mem_upsert_other (hr : key r ≠ k) (hrefresh : ∀ r, key r = k → key (refresh r) = k)
    (hfresh : key fresh = k) :
    r ∈ upsert key k refresh fresh rows ↔ r ∈ rows := by
  by_cases h : k ∈ rows.map key
  · rw [upsert_of_mem h, List.mem_map]
    constructor
    · intro hmem
      obtain ⟨q, hq, heq⟩ := hmem
      split at heq
      case isTrue hk =>
        rw [← heq] at hr
        exact absurd (hrefresh q hk) hr
      case isFalse => exact heq ▸ hq
    · exact fun hmem => ⟨r, hmem, if_neg hr⟩
  · rw [upsert_of_not_mem h, List.mem_append, List.mem_singleton]
    refine or_iff_left fun heq => hr ?_
    rw [heq, hfresh]

theorem mem_upsert_key (hr : key r = k) (hmem : r ∈ upsert key k refresh fresh rows) :
    (∃ q ∈ rows, key q = k ∧ r = refresh q) ∨ k ∉ rows.map key ∧ r = fresh := by
  by_cases h : k ∈ rows.map key
  · rw [upsert_of_mem h, List.mem_map] at hmem
    obtain ⟨q, hq, heq⟩ := hmem
    split at heq
    case isTrue hk => exact .inl ⟨q, hq, hk, heq.symm⟩
    case isFalse hk =>
      rw [heq] at hk
      exact absurd hr hk
  · rw [upsert_of_not_mem h, List.mem_append, List.mem_singleton] at hmem
    rcases hmem with hmem | heq
    · exact absurd (List.mem_map.2 ⟨r, hmem, hr⟩) h
    · exact .inr ⟨h, heq⟩

theorem keys_upsert (hrefresh : ∀ r, key r = k → key (refresh r) = k)
    (hfresh : key fresh = k) :
    (upsert key k refresh fresh rows).map key
      = if k ∈ rows.map key then rows.map key else rows.map key ++ [k] := by
  by_cases h : k ∈ rows.map key
  · rw [upsert_of_mem h, if_pos h, List.map_map]
    apply List.map_congr_left
    intro r _
    show key (if key r = k then refresh r else r) = key r
    split
    case isTrue hk => rw [hrefresh r hk, hk]
    case isFalse => rfl
  · rw [upsert_of_not_mem h, if_neg h, List.map_append, List.map_singleton, hfresh]

theorem nodup_upsert (hrefresh : ∀ r, key r = k → key (refresh r) = k)
    (hfresh : key fresh = k) (h : (rows.map key).Nodup) :
    ((upsert key k refresh fresh rows).map key).Nodup := by
  rw [keys_upsert hrefresh hfresh]
  split
  case isTrue => exact h
  case isFalse hk =>
    apply List.nodup_append.2
    refine ⟨h, List.nodup_singleton k, ?_⟩
    intro a ha b hb hab
    rw [List.mem_singleton.1 hb] at hab
    exact hk (hab ▸ ha)

theorem upsert_eq_self (h : k ∈ rows.map key)
    (hrows : ∀ r ∈ rows, key r = k → refresh r = r) :
    upsert key k refresh fresh rows = rows := by
  rw [upsert_of_mem h]
  have hsame : rows.map (fun r => if key r = k then refresh r else r)
      = rows.map id := by
    apply List.map_congr_left
    intro r hr
    split
    case isTrue hk => exact hrows r hr hk
    case isFalse => rfl
  rw [hsame, List.map_id]

end Upsert

end MemoryOS.Lib
