/-
Gains discounted by their position.

Hits are counted along a ranking, each at its position's discount. With
discounts that are positive and fall, so many hits gain most when they come
first, and gain that much only then (`gain_eq_ideal_iff`); a hit that moves up
by one place gains no less (`Lifted.gain_le`).
-/
import Mathlib.Algebra.Order.Field.Basic
import Mathlib.Tactic.Linarith

namespace MemoryOS.Lib

section
variable {K : Type} [Field K] [LinearOrder K] [IsStrictOrderedRing K]

/-- The discounted sum of the hits, from a position. -/
def gain (discount : Nat → K) (position : Nat) : List Bool → K
  | [] => 0
  | hit :: rest =>
    (if hit then discount position else 0) + gain discount (position + 1) rest

/-- The discounted sum of so many hits in a row. -/
def ideal (discount : Nat → K) (position : Nat) : Nat → K
  | 0 => 0
  | n + 1 => discount position + ideal discount (position + 1) n

/-- Positive discounts that fall from position to position, from the first
one. -/
structure Discounts (discount : Nat → K) : Prop where
  pos : ∀ i, 1 ≤ i → 0 < discount i
  anti : ∀ i, 1 ≤ i → discount (i + 1) < discount i

variable {discount : Nat → K} {p n m : Nat} {bits : List Bool}

-- ========== bounds

theorem gain_nonneg (h : Discounts discount) (hp : 1 ≤ p) :
    0 ≤ gain discount p bits := by
  induction bits generalizing p with
  | nil => exact le_refl _
  | cons hit rest ih =>
    have hrest := @ih (p + 1) (by omega)
    rw [gain]
    split
    case isTrue => linarith [h.pos p hp]
    case isFalse => linarith

theorem ideal_pos (h : Discounts discount) (hp : 1 ≤ p) :
    0 < ideal discount p (n + 1) := by
  induction n generalizing p with
  | zero => simpa [ideal] using h.pos p hp
  | succ n ih =>
    have hrest := @ih (p + 1) (by omega)
    rw [ideal]
    linarith [h.pos p hp]

theorem ideal_later (h : Discounts discount) (hp : 1 ≤ p) :
    ideal discount (p + 1) (n + 1) < ideal discount p (n + 1) := by
  induction n generalizing p with
  | zero => simpa [ideal] using h.anti p hp
  | succ n ih =>
    have hrest := @ih (p + 1) (by omega)
    have hfirst := h.anti p hp
    calc ideal discount (p + 1) (n + 1 + 1)
        = discount (p + 1) + ideal discount (p + 1 + 1) (n + 1) := rfl
      _ < discount p + ideal discount (p + 1) (n + 1) := by linarith

theorem ideal_later_le (h : Discounts discount) (hp : 1 ≤ p) :
    ideal discount (p + 1) n ≤ ideal discount p n := by
  cases n with
  | zero => exact le_refl _
  | succ n => exact (ideal_later h hp).le

theorem ideal_mono (h : Discounts discount) (hp : 1 ≤ p) (hle : n ≤ m) :
    ideal discount p n ≤ ideal discount p m := by
  induction n generalizing p m with
  | zero =>
    cases m with
    | zero => exact le_refl _
    | succ m => exact (ideal_pos h hp).le
  | succ n ih =>
    obtain ⟨m, rfl⟩ := Nat.exists_eq_add_of_lt hle
    have hrest := @ih (p + 1) (n + m) (by omega) (by omega)
    rw [show n + m + 1 = (n + m) + 1 from rfl, ideal, ideal]
    linarith

theorem gain_le_ideal (h : Discounts discount) (hp : 1 ≤ p) :
    gain discount p bits ≤ ideal discount p (bits.count true) := by
  induction bits generalizing p with
  | nil => exact le_refl _
  | cons hit rest ih =>
    have hrest := @ih (p + 1) (by omega)
    cases hit with
    | true =>
      rw [gain, if_pos rfl, List.count_cons_self, ideal]
      linarith
    | false =>
      rw [gain, if_neg Bool.false_ne_true, zero_add,
        List.count_cons_of_ne (by decide)]
      exact hrest.trans (ideal_later_le h hp)

omit [LinearOrder K] [IsStrictOrderedRing K] in
theorem gain_eq_zero (hbits : bits.count true = 0) : gain discount p bits = 0 := by
  induction bits generalizing p with
  | nil => rfl
  | cons hit rest ih =>
    cases hit with
    | true => simp at hbits
    | false =>
      rw [List.count_cons_of_ne (by decide)] at hbits
      rw [gain, if_neg Bool.false_ne_true, zero_add, ih hbits]

theorem gain_eq_ideal_iff (h : Discounts discount) (hp : 1 ≤ p)
    (hbits : bits.count true ≤ n) :
    gain discount p bits = ideal discount p n
      ↔ bits.take n = List.replicate n true := by
  induction bits generalizing p n with
  | nil =>
    cases n with
    | zero => simp [gain, ideal]
    | succ n =>
      have hpos : 0 < ideal discount p (n + 1) := ideal_pos h hp
      constructor
      · intro heq
        rw [gain] at heq
        exact absurd heq hpos.ne
      · intro htake
        simp [List.replicate_succ] at htake
  | cons hit rest ih =>
    cases n with
    | zero => simpa [ideal] using gain_eq_zero (Nat.le_zero.1 hbits)
    | succ n =>
      cases hit with
      | true =>
        rw [List.count_cons_self, Nat.add_le_add_iff_right] at hbits
        rw [gain, if_pos rfl, ideal, add_left_cancel_iff,
          ih (by omega) hbits, List.take_succ_cons, List.replicate_succ,
          List.cons_inj_right]
      | false =>
        rw [List.count_cons_of_ne (by decide)] at hbits
        have hless : gain discount (p + 1) rest
            < ideal discount p (n + 1) :=
          calc gain discount (p + 1) rest
              ≤ ideal discount (p + 1) (rest.count true) :=
                gain_le_ideal h (by omega)
            _ ≤ ideal discount (p + 1) (n + 1) :=
                ideal_mono h (by omega) hbits
            _ < ideal discount p (n + 1) := ideal_later h hp
        rw [gain, if_neg Bool.false_ne_true, zero_add]
        constructor
        · intro heq
          exact absurd heq hless.ne
        · intro htake
          simp [List.replicate_succ] at htake

end

-- ======= moving up

/-- One hit moves up by a place, or comes in at the last one. -/
inductive Lifted : List Bool → List Bool → Prop
  | refl (bits : List Bool) : Lifted bits bits
  | here (hit : Bool) (rest : List Bool) :
      Lifted (false :: hit :: rest) (hit :: false :: rest)
  | last (hit : Bool) : Lifted [false] [hit]
  | cons (hit : Bool) {as bs : List Bool} :
      Lifted as bs → Lifted (hit :: as) (hit :: bs)

variable {as bs : List Bool}

theorem lifted_take (before after : List Bool) (hit : Bool) (k : Nat) :
    Lifted ((before ++ false :: hit :: after).take k)
      ((before ++ hit :: false :: after).take k) := by
  induction before generalizing k with
  | nil =>
    match k with
    | 0 => exact .refl _
    | 1 => exact .last hit
    | k + 2 => exact .here hit _
  | cons first before ih =>
    cases k with
    | zero => exact .refl _
    | succ k => exact .cons first (ih k)

theorem Lifted.count_le (h : Lifted as bs) : as.count true ≤ bs.count true := by
  induction h with
  | refl => exact Nat.le_refl _
  | here hit rest => cases hit <;> simp
  | last hit => cases hit <;> simp
  | cons hit _ ih =>
    rw [List.count_cons, List.count_cons]
    omega

theorem Lifted.gain_le {K : Type} [Field K] [LinearOrder K] [IsStrictOrderedRing K]
    {discount : Nat → K} {p : Nat} (hd : Discounts discount) (hp : 1 ≤ p)
    (h : Lifted as bs) : gain discount p as ≤ gain discount p bs := by
  induction h generalizing p with
  | refl => exact le_refl _
  | here hit rest =>
    have hfirst := hd.anti p hp
    cases hit with
    | true =>
      simp only [gain, if_pos, Bool.false_eq_true, if_false]
      linarith
    | false => exact le_refl _
  | last hit =>
    cases hit with
    | true =>
      simp only [gain, if_pos, Bool.false_eq_true, if_false]
      linarith [hd.pos p hp]
    | false => exact le_refl _
  | cons hit _ ih =>
    have hrest := @ih (p + 1) (by omega)
    rw [gain, gain]
    linarith

end MemoryOS.Lib
