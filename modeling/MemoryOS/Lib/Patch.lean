/-
Two lists of pieces aligned block by block, and the patch an alignment
gives.

An alignment walks both lists from their beginnings to their ends; a block
says whether it is the same on both sides. The blocks that differ, as ranges
of the flattened lists, turn one flattened list into the other
(`Aligns.patch`).
-/
import Mathlib.Data.List.Basic

namespace MemoryOS.Lib

variable {α : Type*}

/-- `l[i:j]`. -/
def cut (l : List α) (i j : Nat) : List α := (l.drop i).take (j - i)

variable {i j : Nat} {a b : List (List α)} {blocks : List Block}

theorem cut_append_drop (l : List α) (h : i ≤ j) :
    cut l i j ++ l.drop j = l.drop i := by
  unfold cut
  have hdrop : l.drop j = (l.drop i).drop (j - i) := by
    rw [List.drop_drop]
    congr 1
    omega
  rw [hdrop, List.take_append_drop]

theorem length_cut (l : List α) (h : j ≤ l.length) :
    (cut l i j).length = j - i := by
  unfold cut
  rw [List.length_take, List.length_drop]
  omega

theorem mem_of_mem_cut {l : List α} {x : α} (h : x ∈ cut l i j) :
    x ∈ l := List.mem_of_mem_drop (List.mem_of_mem_take h)

-- ========= offsets

/-- Where piece `i` begins in the flattened list. -/
def offset (pieces : List (List α)) (i : Nat) : Nat :=
  (pieces.take i).flatten.length

theorem offset_le {pieces : List (List α)} (h : i ≤ j) :
    offset pieces i ≤ offset pieces j := by
  have hsplit : pieces.take j = pieces.take i ++ cut pieces i j := by
    unfold cut
    rw [← List.take_add, Nat.add_sub_cancel' h]
  unfold offset
  rw [hsplit, List.flatten_append, List.length_append]
  exact Nat.le_add_right _ _

theorem offset_le_length (pieces : List (List α)) (i : Nat) :
    offset pieces i ≤ pieces.flatten.length := by
  have hsplit := congrArg List.flatten (List.take_append_drop i pieces)
  rw [List.flatten_append] at hsplit
  unfold offset
  rw [← hsplit, List.length_append]
  exact Nat.le_add_right _ _

theorem offset_length (pieces : List (List α)) :
    offset pieces pieces.length = pieces.flatten.length := by
  unfold offset
  rw [List.take_length]

theorem drop_offset (pieces : List (List α)) (i : Nat) :
    pieces.flatten.drop (offset pieces i) = (pieces.drop i).flatten := by
  have hsplit : pieces.flatten
      = (pieces.take i).flatten ++ (pieces.drop i).flatten := by
    rw [← List.flatten_append, List.take_append_drop]
  rw [hsplit]
  exact List.drop_left

theorem cut_offset (pieces : List (List α)) (h : i ≤ j) :
    cut pieces.flatten (offset pieces i) (offset pieces j)
      = (cut pieces i j).flatten := by
  have hwhole : cut pieces.flatten (offset pieces i) (offset pieces j)
        ++ pieces.flatten.drop (offset pieces j)
      = (cut pieces i j).flatten ++ pieces.flatten.drop (offset pieces j) := by
    rw [cut_append_drop _ (offset_le h), drop_offset, drop_offset,
      ← List.flatten_append, cut_append_drop pieces h]
  exact List.append_cancel_right hwhole

-- ========= patches

/-- A range, and what takes its place. -/
structure Edit (α : Type*) where
  start : Nat
  stop : Nat
  new : List α

/-- Replace each range, from `pos` on. -/
def patchFrom (text : List α) : Nat → List (Edit α) → List α
  | pos, [] => text.drop pos
  | pos, e :: rest => cut text pos e.start ++ e.new ++ patchFrom text e.stop rest

/-- Replace each range. -/
def patch (text : List α) (edits : List (Edit α)) : List α :=
  patchFrom text 0 edits

theorem patchFrom_skip {text : List α} {pos next : Nat}
    {edits : List (Edit α)} (hle : pos ≤ next)
    (hedits : ∀ e ∈ edits, next ≤ e.start) :
    patchFrom text pos edits = cut text pos next ++ patchFrom text next edits := by
  cases edits with
  | nil => exact (cut_append_drop text hle).symm
  | cons e rest =>
    have hnext : next ≤ e.start := hedits e List.mem_cons_self
    have hcut : cut text pos e.start = cut text pos next
        ++ cut text next e.start := by
      unfold cut
      have hsum : e.start - pos = (next - pos) + (e.start - next) := by omega
      have hdrop : pos + (next - pos) = next := by omega
      rw [hsum, List.take_add, List.drop_drop, hdrop]
    simp only [patchFrom]
    rw [hcut, List.append_assoc, List.append_assoc, List.append_assoc]

-- ====== alignments

/-- One block: the same on both sides, or not. -/
structure Block where
  same : Bool
  i₁ : Nat
  i₂ : Nat
  j₁ : Nat
  j₂ : Nat

/-- The blocks walk both lists from `(i, j)` to their ends. -/
inductive Aligns (a b : List α) : Nat → Nat → List Block → Prop
  | nil : Aligns a b a.length b.length []
  | cons {x : Block} {rest : List Block} :
      x.i₁ ≤ x.i₂ → x.j₁ ≤ x.j₂ →
      (x.same = true → cut a x.i₁ x.i₂ = cut b x.j₁ x.j₂) →
      Aligns a b x.i₂ x.j₂ rest → Aligns a b x.i₁ x.j₁ (x :: rest)

/-- The blocks the other way about. -/
def Block.flip (x : Block) : Block := ⟨x.same, x.j₁, x.j₂, x.i₁, x.i₂⟩

/-- What a block that differs replaces. -/
def Block.edit (a b : List (List α)) (x : Block) : Edit α where
  start := offset a x.i₁
  stop := offset a x.i₂
  new := cut b.flatten (offset b x.j₁) (offset b x.j₂)

/-- The patch of an alignment. -/
def edits (a b : List (List α)) (blocks : List Block) : List (Edit α) :=
  (blocks.filter fun x => !x.same).map (Block.edit a b)

theorem edits_flip (a b : List (List α)) (blocks : List Block) :
    edits a b (blocks.map Block.flip)
      = (blocks.filter fun x => !x.same).map fun x => x.flip.edit a b := by
  unfold edits
  rw [List.filter_map, List.map_map]
  rfl

namespace Aligns

variable {a b : List α} {i j : Nat} {blocks : List Block}

theorem flip (h : Aligns a b i j blocks) :
    Aligns b a j i (blocks.map Block.flip) := by
  induction h with
  | nil => exact .nil
  | @cons x rest hi hj hsame _ ih =>
    exact .cons (x := x.flip) hj hi (fun heq => (hsame heq).symm) ih

theorem le_length (h : Aligns a b i j blocks) :
    i ≤ a.length ∧ j ≤ b.length := by
  induction h with
  | nil => exact ⟨Nat.le_refl _, Nat.le_refl _⟩
  | cons hi hj _ _ ih => omega

theorem bounds (h : Aligns a b i j blocks) {x : Block} (hx : x ∈ blocks) :
    i ≤ x.i₁ ∧ x.i₁ ≤ x.i₂ ∧ x.i₂ ≤ a.length
      ∧ j ≤ x.j₁ ∧ x.j₁ ≤ x.j₂ ∧ x.j₂ ≤ b.length := by
  induction h with
  | nil => cases hx
  | cons hi hj _ hrest ih =>
    have hlen := hrest.le_length
    rcases List.mem_cons.1 hx with rfl | hx
    · omega
    · have := ih hx
      omega

theorem pairwise (h : Aligns a b i j blocks) :
    blocks.Pairwise fun x y => x.i₂ ≤ y.i₁ ∧ x.j₂ ≤ y.j₁ := by
  induction h with
  | nil => exact List.Pairwise.nil
  | cons _ _ _ hrest ih =>
    refine List.Pairwise.cons (fun y hy => ?_) ih
    have := hrest.bounds hy
    omega

end Aligns

theorem Aligns.patchFrom (h : Aligns a b i j blocks) :
    Lib.patchFrom a.flatten (offset a i) (edits a b blocks)
      = (b.drop j).flatten := by
  induction h with
  | nil =>
    show a.flatten.drop (offset a a.length) = (b.drop b.length).flatten
    rw [offset_length, List.drop_length, List.drop_length]
    rfl
  | @cons x rest hi hj hsame hrest ih =>
    have hsplit : (b.drop x.j₁).flatten
        = (cut b x.j₁ x.j₂).flatten ++ (b.drop x.j₂).flatten := by
      rw [← List.flatten_append, cut_append_drop b hj]
    by_cases hx : x.same = true
    · -- a common block: the text between two edits
      have hedits : edits a b (x :: rest) = edits a b rest := by
        simp [edits, hx]
      have hlater : ∀ e ∈ edits a b rest, offset a x.i₂ ≤ e.start := by
        intro e he
        obtain ⟨y, hy, rfl⟩ := List.mem_map.1 he
        exact offset_le (hrest.bounds (List.mem_filter.1 hy).1).1
      rw [hedits, patchFrom_skip (offset_le hi) hlater, ih,
        cut_offset a hi, hsame hx, hsplit]
    · have hedits : edits a b (x :: rest)
          = Block.edit a b x :: edits a b rest := by
        simp [edits, hx]
      have hnone : cut a.flatten (offset a x.i₁) (offset a x.i₁) = [] := by
        simp [cut]
      rw [hedits]
      simp only [Lib.patchFrom, Block.edit]
      rw [hnone, List.nil_append, ih, cut_offset b hj, hsplit]

theorem Aligns.patch (h : Aligns a b 0 0 blocks) :
    Lib.patch a.flatten (edits a b blocks) = b.flatten := by
  have hfrom := h.patchFrom
  rw [List.drop_zero] at hfrom
  exact hfrom

end MemoryOS.Lib
