/-
Union-find over a dictionary of parents, with path halving and no ranks.

`find` adds a node that is not there, climbs to the root and halves the
path on its way; `union` hangs one root under another; `unions` runs over a
list of pairs and `clusters` collects the nodes by root.

# The result

`sameRoot_unions`: two nodes have the same root after `unions` exactly when
the pairs connect them. The climb is a loop in the original; here it has
fuel, and `climb_spec` shows that the size of the dictionary is enough: a
path of parents never repeats a node (`Forest.path_length`).
-/
import MemoryOS.Lib.Grouped
import Mathlib.Data.List.Induction
import Mathlib.Data.List.Nodup
import Mathlib.Logic.Relation

namespace MemoryOS.Lib.UnionFind

open Grouped

variable {α : Type} [DecidableEq α]

/-- The dictionary, in the order its keys came. -/
abbrev Parents (α : Type) := List (α × α)

/-- `parent[x]`; a node that is not there is its own. -/
def get (p : Parents α) (x : α) : α :=
  match p.find? fun e => decide (e.1 = x) with
  | none => x
  | some e => e.2

/-- `parent[x] = y`, of a node that is there. -/
def set (p : Parents α) (x y : α) : Parents α :=
  p.map fun e => if e.1 = x then (x, y) else e

/-- `parent.setdefault(x, x)`. -/
def add (p : Parents α) (x : α) : Parents α :=
  if x ∈ p.map Prod.fst then p else p ++ [(x, x)]

/-- The loop of `find`: `parent[x] = parent[parent[x]]`, and on from
there. -/
def climb : Nat → Parents α → α → Parents α × α
  | 0, p, x => (p, x)
  | n + 1, p, x =>
    if get p x = x then (p, x)
    else climb n (set p x (get p (get p x))) (get p (get p x))

/-- The root of a node. -/
def find (p : Parents α) (x : α) : Parents α × α :=
  climb (add p x).length (add p x) x

/-- `parent[find(left)] = find(right)`: the right-hand side comes first. -/
def union (p : Parents α) (left right : α) : Parents α :=
  let r := find p right
  let l := find r.1 left
  set l.1 l.2 r.2

/-- One union after another. -/
def unions (pairs : List (α × α)) : Parents α :=
  pairs.foldl (fun p pair => union p pair.1 pair.2) []

/-- The nodes by root, in the order of the dictionary. -/
def clusters (p : Parents α) : List (α × List α) :=
  ((p.map Prod.fst).foldl
    (fun state node =>
      let found := find state.1 node
      (found.1, append found.2 node state.2))
    (p, [])).2

-- ========= forests

/-- The pointers go up: no path comes back, and none leaves the keys. -/
structure Forest (p : Parents α) : Prop where
  keys : (p.map Prod.fst).Nodup
  inside : ∀ x ∈ p.map Prod.fst, get p x ∈ p.map Prod.fst
  rising : ∃ rank : α → Nat, ∀ x, get p x ≠ x → rank (get p x) < rank x

/-- The root above a node. -/
inductive Root (p : Parents α) : α → α → Prop
  | top {x : α} : get p x = x → Root p x x
  | up {x r : α} : get p x ≠ x → Root p (get p x) r → Root p x r

variable {p : Parents α} {x y r : α}

theorem forest_nil : Forest ([] : Parents α) where
  keys := List.nodup_nil
  inside := fun _ h => absurd h List.not_mem_nil
  rising := ⟨fun _ => 0, fun _ h => absurd rfl h⟩

theorem Root.unique {r' : α} (h : Root p x r)
    (h' : Root p x r') : r = r' := by
  induction h with
  | top htop =>
    cases h' with
    | top => rfl
    | up hne _ => exact absurd htop hne
  | up hne _ ih =>
    cases h' with
    | top htop => exact absurd htop hne
    | up _ h' => exact ih h'

theorem Root.fixed (h : Root p x r) :
    get p r = r := by
  induction h with
  | top htop => exact htop
  | up _ _ ih => exact ih

theorem Forest.exists_root (h : Forest p) (x : α) :
    ∃ r, Root p x r := by
  obtain ⟨rank, hrank⟩ := h.rising
  induction hn : rank x using Nat.strongRecOn generalizing x with
  | ind n ih =>
    by_cases htop : get p x = x
    · exact ⟨x, .top htop⟩
    · obtain ⟨r, hr⟩ := ih _ (hn ▸ hrank x htop) (get p x) rfl
      exact ⟨r, .up htop hr⟩

-- ====== the dictionary

theorem get_of_not_mem (h : x ∉ p.map Prod.fst) :
    get p x = x := by
  unfold get
  rw [List.find?_eq_none.2]
  intro e he hx
  exact h (List.mem_map.2 ⟨e, he, by simpa using hx⟩)

@[simp] theorem set_keys (p : Parents α) (x y : α) :
    (set p x y).map Prod.fst = p.map Prod.fst := by
  unfold set
  rw [List.map_map]
  refine List.map_congr_left fun e _ => ?_
  simp only [Function.comp]
  split
  case isTrue h => exact h.symm
  case isFalse => rfl

theorem get_set_self (h : x ∈ p.map Prod.fst) :
    get (set p x y) x = y := by
  induction p with
  | nil => cases h
  | cons e rest ih =>
    unfold get set
    by_cases he : e.1 = x
    · simp [he]
    · rw [List.map_cons, if_neg he,
        List.find?_cons_of_neg (by simpa using he)]
      refine ih ?_
      rcases List.mem_cons.1 h with h | h
      · exact absurd h.symm he
      · exact h

theorem get_set_other {z : α} (h : z ≠ x) :
    get (set p x y) z = get p z := by
  induction p with
  | nil => rfl
  | cons e rest ih =>
    unfold get set at *
    by_cases he : e.1 = x
    · rw [List.map_cons, if_pos he,
        List.find?_cons_of_neg (by simpa using h.symm),
        List.find?_cons_of_neg (by simpa [he] using h.symm)]
      exact ih
    · rw [List.map_cons, if_neg he]
      by_cases hz : e.1 = z
      · rw [List.find?_cons_of_pos (by simpa using hz),
          List.find?_cons_of_pos (by simpa using hz)]
      · rw [List.find?_cons_of_neg (by simpa using hz),
          List.find?_cons_of_neg (by simpa using hz)]
        exact ih

theorem get_add (p : Parents α) (x y : α) : get (add p x) y = get p y := by
  unfold add
  split
  case isTrue => rfl
  case isFalse h =>
    by_cases hy : y ∈ p.map Prod.fst
    · obtain ⟨e, he, hey⟩ := List.mem_map.1 hy
      have hsome : (p.find? fun e => decide (e.1 = y)).isSome := by
        rw [List.find?_isSome]
        exact ⟨e, he, by simpa using hey⟩
      unfold get
      rw [List.find?_append, Option.or_of_isSome hsome]
    · rw [get_of_not_mem hy]
      unfold get
      rw [List.find?_append, List.find?_eq_none.2, Option.none_or]
      · by_cases hxy : x = y
        · simp [hxy]
        · simp [hxy]
      · intro e he hey
        exact hy (List.mem_map.2 ⟨e, he, by simpa using hey⟩)

theorem mem_add_keys :
    y ∈ (add p x).map Prod.fst ↔ y ∈ p.map Prod.fst ∨ y = x := by
  unfold add
  split
  case isTrue h =>
    exact ⟨.inl, fun hy => hy.elim id fun heq => heq ▸ h⟩
  case isFalse =>
    rw [List.map_append, List.mem_append]
    simp

-- ====== adding a node

theorem Root.congr {q : Parents α} (h : ∀ x, get q x = get p x)
    (hr : Root p x r) : Root q x r := by
  induction hr with
  | top htop => exact .top ((h _).trans htop)
  | up hne _ ih =>
    refine .up ?_ ?_
    · rw [h]
      exact hne
    · rw [h]
      exact ih

theorem Forest.add (h : Forest p) (x : α) :
    Forest (add p x) where
  keys := by
    unfold UnionFind.add
    split
    case isTrue => exact h.keys
    case isFalse hx =>
      rw [List.map_append, List.nodup_append]
      refine ⟨h.keys, List.nodup_singleton _, fun y hy z hz heq => ?_⟩
      have hz : z = x := List.mem_singleton.1 hz
      exact hx (hz ▸ heq ▸ hy)
  inside := by
    intro y hy
    rw [get_add, mem_add_keys]
    by_cases hmem : y ∈ p.map Prod.fst
    · exact .inl (h.inside y hmem)
    · rw [get_of_not_mem hmem]
      exact mem_add_keys.1 hy
  rising := by
    obtain ⟨rank, hrank⟩ := h.rising
    exact ⟨rank, fun y hy => by rw [get_add] at hy ⊢; exact hrank y hy⟩

theorem root_add :
    Root (add p x) y r ↔ Root p y r :=
  ⟨fun h => h.congr fun z => (get_add p x z).symm,
    fun h => h.congr fun z => get_add p x z⟩

-- ====== halving a path

section

variable {p : Parents α} (h : Forest p) {x : α} (hx : get p x ≠ x)

include hx

theorem mem_keys_of_moves : x ∈ p.map Prod.fst := by
  by_contra hmem
  exact hx (get_of_not_mem hmem)

theorem get_halved : get (set p x (get p (get p x))) x = get p (get p x) :=
  get_set_self (mem_keys_of_moves hx)

theorem rank_halved {rank : α → Nat}
    (hrank : ∀ y, get p y ≠ y → rank (get p y) < rank y) :
    rank (get p (get p x)) < rank x := by
  by_cases htop : get p (get p x) = get p x
  · rw [htop]
    exact hrank x hx
  · exact Nat.lt_trans (hrank _ htop) (hrank x hx)

include h

theorem Forest.halve : Forest (set p x (get p (get p x))) where
  keys := by
    rw [set_keys]
    exact h.keys
  inside := by
    intro y hy
    rw [set_keys] at hy ⊢
    by_cases hyx : y = x
    · rw [hyx, get_halved hx]
      exact h.inside _ (h.inside _ (mem_keys_of_moves hx))
    · rw [get_set_other hyx]
      exact h.inside y hy
  rising := by
    obtain ⟨rank, hrank⟩ := h.rising
    refine ⟨rank, fun y hy => ?_⟩
    by_cases hyx : y = x
    · rw [hyx, get_halved hx]
      exact rank_halved hx hrank
    · rw [get_set_other hyx] at hy ⊢
      exact hrank y hy

theorem root_halve_of (hr : Root p y r) :
    Root (set p x (get p (get p x))) y r := by
  obtain ⟨rank, hrank⟩ := h.rising
  induction hn : rank y using Nat.strongRecOn generalizing y with
  | ind n ih =>
    by_cases hyx : y = x
    · subst hyx
      have hlt := rank_halved hx hrank
      have hr₂ : Root p (get p (get p y)) r := by
        cases hr with
        | top htop => exact absurd htop hx
        | up _ hr =>
          cases hr with
          | top htop =>
            rw [htop]
            exact .top htop
          | up _ hr => exact hr
      refine .up ?_ ?_
      · rw [get_halved hx]
        exact fun heq => absurd hlt (heq.symm ▸ Nat.lt_irrefl _)
      · rw [get_halved hx]
        exact ih _ (hn ▸ hlt) hr₂ rfl
    · cases hr with
      | top htop =>
        refine .top ?_
        rw [get_set_other hyx]
        exact htop
      | up hne hr =>
        refine .up ?_ ?_
        · rw [get_set_other hyx]
          exact hne
        · rw [get_set_other hyx]
          exact ih _ (hn ▸ hrank y hne) hr rfl

theorem root_halve :
    Root (set p x (get p (get p x))) y r ↔ Root p y r := by
  refine ⟨fun hr => ?_, root_halve_of h hx⟩
  obtain ⟨r', hr'⟩ := h.exists_root y
  rwa [hr.unique (root_halve_of h hx hr')]

end

-- ======= the climb

/-- The root is at most so many steps away. -/
def Within (p : Parents α) : Nat → α → Prop
  | 0, x => get p x = x
  | n + 1, x => get p x = x ∨ Within p n (get p x)

theorem Within.succ {n : Nat} (h : Within p n x) :
    Within p (n + 1) x := by
  induction n generalizing x with
  | zero => exact .inl h
  | succ n ih => exact h.imp id ih

theorem Forest.path_length (h : Forest p)
    (hx : x ∈ p.map Prod.fst) : Within p p.length x := by
  by_contra hfar
  obtain ⟨rank, hrank⟩ := h.rising
  have hpath : ∀ n x, x ∈ p.map Prod.fst → ¬ Within p n x →
      ∃ path : List α, path.length = n + 1 ∧ path.Nodup
        ∧ ∀ y ∈ path, y ∈ p.map Prod.fst ∧ rank y ≤ rank x := by
    intro n
    induction n with
    | zero =>
      intro x hx _
      refine ⟨[x], rfl, List.nodup_singleton _, fun y hy => ?_⟩
      rw [List.mem_singleton.1 hy]
      exact ⟨hx, Nat.le_refl _⟩
    | succ n ih =>
      intro x hx hfar
      have hmoves : get p x ≠ x := fun htop => hfar (.inl htop)
      have hlt := hrank x hmoves
      obtain ⟨path, hlength, hnodup, hall⟩ := ih (get p x) (h.inside x hx)
        fun hnear => hfar (.inr hnear)
      refine ⟨x :: path, by rw [List.length_cons, hlength],
        List.nodup_cons.2 ⟨fun hmem => ?_, hnodup⟩, fun y hy => ?_⟩
      · exact absurd (Nat.lt_of_le_of_lt (hall x hmem).2 hlt)
          (Nat.lt_irrefl _)
      · rcases List.mem_cons.1 hy with rfl | hy
        · exact ⟨hx, Nat.le_refl _⟩
        · exact ⟨(hall y hy).1, Nat.le_trans (hall y hy).2
            (Nat.le_of_lt hlt)⟩
  obtain ⟨path, hlength, hnodup, hall⟩ := hpath p.length x hx hfar
  have hle := hnodup.length_le_of_subset fun y hy => (hall y hy).1
  rw [hlength, List.length_map] at hle
  exact absurd hle (Nat.not_succ_le_self _)

theorem climb_spec (h : Forest p) {n : Nat}
    (hn : Within p n x) :
    Forest (climb n p x).1 ∧ (climb n p x).1.map Prod.fst = p.map Prod.fst
      ∧ Root p x (climb n p x).2
      ∧ ∀ y r, Root (climb n p x).1 y r ↔ Root p y r := by
  induction n generalizing p x with
  | zero => exact ⟨h, rfl, .top hn, fun _ _ => Iff.rfl⟩
  | succ n ih =>
    unfold climb
    split
    case isTrue htop => exact ⟨h, rfl, .top htop, fun _ _ => Iff.rfl⟩
    case isFalse hx =>
      obtain ⟨rank, hrank⟩ := h.rising
      -- Above the node, nothing has changed.
      have hsame : ∀ k y, rank y < rank x → Within p k y →
          Within (set p x (get p (get p x))) k y := by
        intro k
        induction k with
        | zero =>
          intro y hy hk
          have hyx : y ≠ x := fun heq => absurd (heq ▸ hy)
            (Nat.lt_irrefl _)
          exact (get_set_other hyx).trans hk
        | succ k ihk =>
          intro y hy hk
          have hyx : y ≠ x := fun heq => absurd (heq ▸ hy)
            (Nat.lt_irrefl _)
          by_cases htop : get p y = y
          · exact .inl ((get_set_other hyx).trans htop)
          · refine .inr ?_
            rw [get_set_other hyx]
            exact ihk _ (Nat.lt_trans (hrank y htop) hy)
              (hk.resolve_left htop)
      have hnear : Within p n (get p (get p x)) := by
        have hnext : Within p n (get p x) := hn.resolve_left hx
        cases n with
        | zero =>
          show get p (get p (get p x)) = get p (get p x)
          have hnext : get p (get p x) = get p x := hnext
          rw [hnext, hnext]
        | succ n =>
          rcases hnext with htop | hnext
          · rw [htop]
            exact .inl htop
          · exact hnext.succ
      obtain ⟨hforest, hkeys, hroot, hroots⟩ := ih (h.halve hx)
        (hsame n _ (rank_halved hx hrank) hnear)
      refine ⟨hforest, hkeys.trans (set_keys _ _ _), ?_, fun y r =>
        (hroots y r).trans (root_halve h hx)⟩
      have hup : Root (set p x (get p (get p x))) x
          (climb n (set p x (get p (get p x))) (get p (get p x))).2 := by
        refine .up ?_ ?_
        · rw [get_halved hx]
          exact fun heq => absurd (rank_halved hx hrank)
            (heq.symm ▸ Nat.lt_irrefl _)
        · rw [get_halved hx]
          exact hroot
      exact (root_halve h hx).1 hup

theorem find_spec (h : Forest p) (x : α) :
    Forest (find p x).1
      ∧ (∀ y, y ∈ (find p x).1.map Prod.fst ↔ y ∈ p.map Prod.fst ∨ y = x)
      ∧ Root p x (find p x).2 ∧ ∀ y r, Root (find p x).1 y r ↔ Root p y r := by
  obtain ⟨hforest, hkeys, hroot, hroots⟩ := climb_spec (h.add x)
    ((h.add x).path_length (mem_add_keys.2 (.inr rfl)))
  refine ⟨hforest, fun y => ?_, root_add.1 hroot, fun y r =>
    (hroots y r).trans root_add⟩
  show y ∈ (climb _ _ _).1.map Prod.fst ↔ _
  rw [hkeys]
  exact mem_add_keys

-- =========== links

/-- Two nodes under one root. -/
def SameRoot (p : Parents α) (x y : α) : Prop :=
  ∃ r, Root p x r ∧ Root p y r

section

variable {p : Parents α} (h : Forest p) {a b : α} (ha : get p a = a)
  (hb : get p b = b)

include ha

theorem root_linked (hmem : a ∈ p.map Prod.fst) (hb : get p b = b)
    (hr : Root p y r) : Root (set p a b) y (if r = a then b else r) := by
  have hself : get (set p a b) a = b := get_set_self hmem
  have htop : Root (set p a b) b b := by
    refine .top ?_
    by_cases hba : b = a
    · exact hba ▸ hself
    · rw [get_set_other hba]
      exact hb
  induction hr with
  | @top y hy =>
    by_cases hya : y = a
    · rw [if_pos hya, hya]
      by_cases hba : b = a
      · rw [hba] at htop ⊢
        exact htop
      · refine .up ?_ ?_
        · rw [hself]
          exact hba
        · rw [hself]
          exact htop
    · rw [if_neg hya]
      exact .top ((get_set_other hya).trans hy)
  | @up y r hy _ ih =>
    have hya : y ≠ a := fun heq => hy (heq ▸ ha)
    refine .up ?_ ?_
    · rw [get_set_other hya]
      exact hy
    · rw [get_set_other hya]
      exact ih

include h hb

theorem Forest.link (hmem : a ∈ p.map Prod.fst) (hmem' : b ∈ p.map Prod.fst) :
    Forest (set p a b) where
  keys := by
    rw [set_keys]
    exact h.keys
  inside := by
    intro y hy
    rw [set_keys] at hy ⊢
    by_cases hya : y = a
    · rw [hya, get_set_self hmem]
      exact hmem'
    · rw [get_set_other hya]
      exact h.inside y hy
  rising := by
    classical
    obtain ⟨rank, hrank⟩ := h.rising
    -- What hangs under the old root is lifted above the new one.
    refine ⟨fun y => if Root p y a then rank y + rank b + 1 else rank y,
      fun y hy => ?_⟩
    by_cases hya : y = a
    · rw [hya, get_set_self hmem] at hy
      rw [hya, get_set_self hmem]
      have hnot : ¬ Root p b a := fun hroot => hy ((Root.top hb).unique hroot)
      simp only [if_neg hnot, if_pos (Root.top ha)]
      omega
    · rw [get_set_other hya] at hy ⊢
      have hsame : Root p (get p y) a ↔ Root p y a := by
        refine ⟨.up hy, fun hroot => ?_⟩
        cases hroot with
        | top => exact absurd rfl hya
        | up _ hroot => exact hroot
      have hlt := hrank y hy
      by_cases hroot : Root p y a
      · simp only [if_pos hroot, if_pos (hsame.2 hroot)]
        omega
      · simp only [if_neg hroot, if_neg (mt hsame.1 hroot)]
        exact hlt

end

theorem sameRoot_iff {r' : α} (hx : Root p x r)
    (hy : Root p y r') : SameRoot p x y ↔ r = r' := by
  refine ⟨?_, fun heq => ⟨r, hx, heq ▸ hy⟩⟩
  rintro ⟨top, hxt, hyt⟩
  exact (hx.unique hxt).trans (hyt.unique hy)

theorem union_spec (h : Forest p) (left right : α) :
    Forest (union p left right)
      ∧ (∀ x, x ∈ (union p left right).map Prod.fst ↔
          x ∈ p.map Prod.fst ∨ x = left ∨ x = right)
      ∧ ∀ x y, SameRoot (union p left right) x y ↔ SameRoot p x y
          ∨ SameRoot p x left ∧ SameRoot p right y
          ∨ SameRoot p x right ∧ SameRoot p left y := by
  obtain ⟨hforest₁, hkeys₁, hright, hroots₁⟩ := find_spec h right
  obtain ⟨hforest₂, hkeys₂, hleft, hroots₂⟩ := find_spec hforest₁ left
  have hroots := fun y r => (hroots₂ y r).trans (hroots₁ y r)
  unfold union
  generalize find p right = found at *
  obtain ⟨p₁, b⟩ := found
  dsimp only at *
  generalize find p₁ left = found at *
  obtain ⟨q, a⟩ := found
  dsimp only at *
  have hb : get q b = b := ((hroots _ _).2 hright).fixed
  have ha : get q a = a := ((hroots₂ _ _).2 hleft).fixed
  have hroot_mem : ∀ {x r}, Root q x r → x ∈ q.map Prod.fst →
      r ∈ q.map Prod.fst := by
    intro x r hr
    induction hr with
    | top => exact id
    | up _ _ ih => exact fun hx => ih (hforest₂.inside _ hx)
  have hleft_mem : left ∈ q.map Prod.fst := (hkeys₂ left).2 (.inr rfl)
  have hright_mem : right ∈ q.map Prod.fst :=
    (hkeys₂ right).2 (.inl ((hkeys₁ right).2 (.inr rfl)))
  have ha_mem := hroot_mem ((hroots₂ _ _).2 hleft) hleft_mem
  have hb_mem := hroot_mem ((hroots _ _).2 hright) hright_mem
  refine ⟨hforest₂.link ha hb ha_mem hb_mem, fun x => ?_, fun x y => ?_⟩
  · rw [set_keys, hkeys₂, hkeys₁, or_assoc, or_comm (a := x = right)]
  · obtain ⟨r, hr⟩ := h.exists_root x
    obtain ⟨r', hr'⟩ := h.exists_root y
    have hleft := (hroots₁ _ _).1 hleft
    have hlinked := fun {z s : α} (hs : Root p z s) =>
      root_linked ha ha_mem hb ((hroots z s).2 hs)
    rw [sameRoot_iff (hlinked hr) (hlinked hr'), sameRoot_iff hr hr',
      sameRoot_iff hr hleft, sameRoot_iff hr hright, sameRoot_iff hleft hr',
      sameRoot_iff hright hr']
    grind

-- ======= all pairs

omit [DecidableEq α] in
theorem eqvGen_concat {pairs : List (α × α)} {a b : α} :
    Relation.EqvGen (fun x y => (x, y) ∈ pairs ++ [(a, b)]) x y
      ↔ Relation.EqvGen (fun x y => (x, y) ∈ pairs) x y
        ∨ Relation.EqvGen (fun x y => (x, y) ∈ pairs) x a
          ∧ Relation.EqvGen (fun x y => (x, y) ∈ pairs) b y
        ∨ Relation.EqvGen (fun x y => (x, y) ∈ pairs) x b
          ∧ Relation.EqvGen (fun x y => (x, y) ∈ pairs) a y := by
  have hsymm := fun x y => Relation.EqvGen.symm
    (r := fun x y => (x, y) ∈ pairs) x y
  have htrans := fun x y z => Relation.EqvGen.trans
    (r := fun x y => (x, y) ∈ pairs) x y z
  have hmono : ∀ {x y}, Relation.EqvGen (fun x y => (x, y) ∈ pairs) x y →
      Relation.EqvGen (fun x y => (x, y) ∈ pairs ++ [(a, b)]) x y :=
    fun {x y} => Relation.EqvGen.mono
      (fun _ _ hxy => List.mem_append_left _ hxy) x y
  have hnew : Relation.EqvGen (fun x y => (x, y) ∈ pairs ++ [(a, b)]) a b :=
    .rel _ _ (List.mem_append_right _ (List.mem_singleton_self _))
  constructor
  · intro hxy
    induction hxy with
    | rel x y hxy =>
      rcases List.mem_append.1 hxy with hxy | hxy
      · exact .inl (.rel _ _ hxy)
      · obtain ⟨rfl, rfl⟩ := Prod.mk.inj (List.mem_singleton.1 hxy)
        exact .inr (.inl ⟨.refl _, .refl _⟩)
    | refl x => exact .inl (.refl _)
    | symm x y _ ih => grind
    | trans x y z _ _ ih ih' => grind
  · rintro (hxy | ⟨hxa, hby⟩ | ⟨hxb, hay⟩)
    · exact hmono hxy
    · exact .trans _ _ _ (hmono hxa) (.trans _ _ _ hnew (hmono hby))
    · exact .trans _ _ _ (hmono hxb)
        (.trans _ _ _ (.symm _ _ hnew) (hmono hay))

theorem unions_spec (pairs : List (α × α)) :
    Forest (unions pairs)
      ∧ (∀ x, x ∈ (unions pairs).map Prod.fst ↔
          ∃ pair ∈ pairs, x = pair.1 ∨ x = pair.2)
      ∧ ∀ x y, SameRoot (unions pairs) x y ↔
          Relation.EqvGen (fun x y => (x, y) ∈ pairs) x y := by
  induction pairs using List.reverseRecOn with
  | nil =>
    refine ⟨forest_nil, fun x => by simp [unions], fun x y => ?_⟩
    have htop : ∀ x, Root ([] : Parents α) x x := fun _ => .top rfl
    show SameRoot [] x y ↔ _
    rw [sameRoot_iff (htop x) (htop y)]
    refine ⟨fun heq => heq ▸ .refl _, fun hxy => ?_⟩
    induction hxy with
    | rel _ _ h => exact absurd h List.not_mem_nil
    | refl => rfl
    | symm _ _ _ ih => exact ih.symm
    | trans _ _ _ _ _ ih ih' => exact ih.trans ih'
  | append_singleton pairs pair ih =>
    obtain ⟨hforest, hkeys, hroots⟩ := ih
    have hstep : unions (pairs ++ [pair]) =
        union (unions pairs) pair.1 pair.2 := List.foldl_concat ..
    obtain ⟨hforest', hkeys', hroots'⟩ :=
      union_spec hforest pair.1 pair.2
    rw [hstep]
    refine ⟨hforest', fun x => ?_, fun x y => ?_⟩
    · rw [hkeys', hkeys]
      simp [or_and_right, exists_or]
    · rw [hroots']
      simp only [hroots]
      exact eqvGen_concat.symm

-- ======== clusters

theorem clusters_spec (h : Forest p) :
    ((clusters p).map Prod.fst).Nodup
      ∧ (∀ g ∈ clusters p, ∀ x ∈ g.2,
          x ∈ p.map Prod.fst ∧ Root p x g.1)
      ∧ ∀ x ∈ p.map Prod.fst, ∃ g ∈ clusters p, x ∈ g.2 := by
  suffices hfold : ∀ (nodes : List α) (q : Parents α)
      (groups : List (α × List α)), Forest q →
      (∀ y r, Root q y r ↔ Root p y r) →
      (groups.map Prod.fst).Nodup →
      (∀ g ∈ groups, ∀ x ∈ g.2, x ∈ p.map Prod.fst ∧ Root p x g.1) →
      (∀ x ∈ nodes, x ∈ p.map Prod.fst) →
      let groups' := (nodes.foldl
        (fun state node =>
          let found := find state.1 node
          (found.1, append found.2 node state.2))
        (q, groups)).2
      (groups'.map Prod.fst).Nodup
        ∧ (∀ g ∈ groups', ∀ x ∈ g.2, x ∈ p.map Prod.fst ∧ Root p x g.1)
        ∧ ∀ x, (∃ g ∈ groups, x ∈ g.2) ∨ x ∈ nodes → ∃ g ∈ groups', x ∈ g.2 by
    obtain ⟨hkeys, hall, hin⟩ := hfold (p.map Prod.fst) p [] h
      (fun _ _ => Iff.rfl) List.nodup_nil
      (fun _ hg => absurd hg List.not_mem_nil)
      (fun _ => id)
    exact ⟨hkeys, hall, fun x hx => hin x (.inr hx)⟩
  intro nodes
  induction nodes with
  | nil =>
    intro q groups _ _ hkeys hall _
    exact ⟨hkeys, hall, fun x hx => hx.resolve_right List.not_mem_nil⟩
  | cons node nodes ih =>
    intro q groups hq hroots hkeys hall hnodes
    obtain ⟨hq', -, hroot, hroots'⟩ := find_spec hq node
    obtain ⟨hkeys', hall', hin⟩ := ih (find q node).1
      (append (find q node).2 node groups) hq'
      (fun y r => (hroots' y r).trans (hroots y r))
      (append_keys_nodup hkeys)
      (append_forall (P := fun k x => x ∈ p.map Prod.fst ∧ Root p x k) hall
        ⟨hnodes node (List.mem_cons_self ..), (hroots _ _).1 hroot⟩)
      (fun x hx => hnodes x (List.mem_cons_of_mem _ hx))
    refine ⟨hkeys', hall', fun x hx => hin x ?_⟩
    rw [mem_append_iff]
    rcases hx with hx | hx
    · exact .inl (.inl hx)
    · exact (List.mem_cons.1 hx).elim (fun heq => .inl (.inr heq)) .inr

theorem clusters_disjoint (h : Forest p) :
    (clusters p).Pairwise fun g g' => List.Disjoint g.2 g'.2 := by
  obtain ⟨hkeys, hall, -⟩ := clusters_spec h
  refine (List.pairwise_map.1 hkeys).imp_of_mem fun hg hg' hne x hx hx' => ?_
  exact hne ((hall _ hg x hx).2.unique (hall _ hg' x hx').2)

theorem clusters_sameRoot (h : Forest p)
    {g : α × List α} (hg : g ∈ clusters p) (hx : x ∈ g.2) :
    y ∈ g.2 ↔ y ∈ p.map Prod.fst ∧ SameRoot p x y := by
  obtain ⟨hkeys, hall, hin⟩ := clusters_spec h
  refine ⟨fun hy => ⟨(hall g hg y hy).1, _, (hall g hg x hx).2,
    (hall g hg y hy).2⟩, fun ⟨hy, hroot⟩ => ?_⟩
  obtain ⟨g', hg', hy'⟩ := hin y hy
  have hsame : g.1 = g'.1 :=
    (sameRoot_iff (hall g hg x hx).2 (hall g' hg' y hy').2).1 hroot
  exact List.inj_on_of_nodup_map hkeys hg hg' hsame ▸ hy'

end MemoryOS.Lib.UnionFind
