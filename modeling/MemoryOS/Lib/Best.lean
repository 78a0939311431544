/-
The best for each key: a dictionary filled by a loop that replaces an entry
only by a better one.

What is left under a key is the foremost of the loop's items with that key:
better than all that came before it and no worse than any that came after
(`mem_best_iff`).
-/
import Mathlib.Data.List.Induction
import Mathlib.Data.List.Nodup
import Mathlib.Order.Lattice

namespace MemoryOS.Lib

namespace Best

variable {α κ σ : Type*} [LinearOrder σ] (key : α → κ) (score : α → σ)

/-- Better than what came before it under its key, and no worse than what
came after. -/
def Foremost (xs : List α) (b : α) : Prop :=
  ∃ earlier later, xs = earlier ++ b :: later
    ∧ (∀ c ∈ earlier, key c = key b → score c < score b)
    ∧ ∀ c ∈ later, key c = key b → score c ≤ score b

section Put

variable [DecidableEq κ]

/-- `if current is None or x.score > current.score: best[key] = x`. -/
def put (x : α) : List α → List α
  | [] => [x]
  | y :: rest =>
    if key y = key x then (if score y < score x then x else y) :: rest
    else y :: put x rest

/-- The loop; the entries stand in the order their keys first came. -/
def best (xs : List α) : List α :=
  xs.foldl (fun entries x => put key score x entries) []

end Put

variable {key score}

-- ====== the foremost

variable {xs entries : List α} {b x : α}

theorem foremost_concat :
    Foremost key score (xs ++ [x]) b
      ↔ (Foremost key score xs b ∧ (key b = key x → score x ≤ score b))
        ∨ (b = x ∧ ∀ c ∈ xs, key c = key x → score c < score x) := by
  constructor
  · rintro ⟨earlier, later, heq, hearlier, hlater⟩
    rcases List.eq_nil_or_concat later with rfl | ⟨later', z, rfl⟩
    · obtain ⟨rfl, hb⟩ := List.append_inj' heq rfl
      obtain rfl := (List.cons.inj hb).1
      exact .inr ⟨rfl, hearlier⟩
    · have hsplit : xs ++ [x] = (earlier ++ b :: later') ++ [z] := by
        rw [heq]
        simp
      obtain ⟨rfl, hz⟩ := List.append_inj' hsplit rfl
      obtain rfl := (List.cons.inj hz).1
      refine .inl ⟨⟨earlier, later', rfl, hearlier, fun c hc => ?_⟩, fun hbx => ?_⟩
      · exact hlater c (by simp [hc])
      · exact hlater x (by simp) hbx.symm
  · rintro (⟨⟨earlier, later, rfl, hearlier, hlater⟩, hle⟩ | ⟨rfl, hall⟩)
    · refine ⟨earlier, later ++ [x], by simp, hearlier, fun c hc hcb => ?_⟩
      rcases List.mem_append.1 hc with hc | hc
      · exact hlater c hc hcb
      · obtain rfl := List.mem_singleton.1 hc
        exact hle hcb.symm
    · exact ⟨xs, [], rfl, hall, nofun⟩

theorem Foremost.le {c : α} (h : Foremost key score xs b)
    (hc : c ∈ xs) (hkey : key c = key b) : score c ≤ score b := by
  obtain ⟨earlier, later, rfl, hearlier, hlater⟩ := h
  rcases List.mem_append.1 hc with hc | hc
  · exact le_of_lt (hearlier c hc hkey)
  · rcases List.mem_cons.1 hc with rfl | hc
    · exact le_refl _
    · exact hlater c hc hkey

theorem Foremost.mem (h : Foremost key score xs b) :
    b ∈ xs := by
  obtain ⟨earlier, later, rfl, -, -⟩ := h
  simp

-- ======== the loop

variable [DecidableEq κ]

theorem best_concat (xs : List α) (x : α) :
    best key score (xs ++ [x]) = put key score x (best key score xs) := by
  unfold best
  rw [List.foldl_append]
  rfl

-- ============ keys

theorem mem_put_keys {k : κ} :
    k ∈ (put key score x entries).map key ↔ k ∈ entries.map key ∨ k = key x := by
  induction entries with
  | nil => simp [put]
  | cons y rest ih =>
    unfold put
    by_cases hy : key y = key x
    · rw [if_pos hy]
      have hkey : key (if score y < score x then x else y) = key x := by
        split
        · rfl
        · exact hy
      simp only [List.map_cons, List.mem_cons, hkey, hy]
      tauto
    · rw [if_neg hy]
      simp only [List.map_cons, List.mem_cons, ih]
      tauto

theorem put_keys_nodup (h : (entries.map key).Nodup) :
    ((put key score x entries).map key).Nodup := by
  induction entries with
  | nil => simp [put]
  | cons y rest ih =>
    obtain ⟨hy, hrest⟩ := List.nodup_cons.1 h
    unfold put
    by_cases heq : key y = key x
    · rw [if_pos heq, List.map_cons]
      refine List.nodup_cons.2 ⟨?_, hrest⟩
      split
      · exact heq ▸ hy
      · exact hy
    · rw [if_neg heq, List.map_cons]
      refine List.nodup_cons.2 ⟨fun hmem => ?_, ih hrest⟩
      exact (mem_put_keys.1 hmem).elim hy heq

theorem best_keys_nodup (xs : List α) : ((best key score xs).map key).Nodup := by
  induction xs using List.reverseRecOn with
  | nil => exact List.nodup_nil
  | append_singleton xs x ih =>
    rw [best_concat]
    exact put_keys_nodup ih

theorem mem_best_keys {k : κ} :
    k ∈ (best key score xs).map key ↔ k ∈ xs.map key := by
  induction xs using List.reverseRecOn with
  | nil => rfl
  | append_singleton xs x ih =>
    rw [best_concat, mem_put_keys, ih, List.map_append, List.mem_append]
    simp

-- ========= entries

theorem mem_put_iff (h : (entries.map key).Nodup) :
    b ∈ put key score x entries
      ↔ (b ∈ entries ∧ (key b = key x → score x ≤ score b))
        ∨ (b = x ∧ ∀ y ∈ entries, key y = key x → score y < score x) := by
  induction entries with
  | nil => simp [put]
  | cons y rest ih =>
    obtain ⟨hy, hrest⟩ := List.nodup_cons.1 h
    unfold put
    by_cases heq : key y = key x
    · -- the one entry of the key stands here
      have hno : ∀ z ∈ rest, key z ≠ key x := by
        intro z hz hzx
        exact hy (List.mem_map.2 ⟨z, hz, hzx.trans heq.symm⟩)
      rw [if_pos heq]
      by_cases hlt : score y < score x
      · rw [if_pos hlt]
        rw [List.mem_cons, List.mem_cons, List.forall_mem_cons]
        constructor
        · intro hb
          rcases hb with rfl | hb
          · exact .inr ⟨rfl, fun _ => hlt, fun z hz hzx => absurd hzx (hno z hz)⟩
          · exact .inl ⟨.inr hb, fun hbx => absurd hbx (hno b hb)⟩
        · rintro (⟨rfl | hb, hle⟩ | ⟨rfl, -⟩)
          · exact absurd (hle heq) (not_le_of_gt hlt)
          · exact .inr hb
          · exact .inl rfl
      · rw [if_neg hlt]
        rw [List.mem_cons, List.forall_mem_cons]
        constructor
        · intro hb
          rcases hb with rfl | hb
          · exact .inl ⟨.inl rfl, fun _ => not_lt.1 hlt⟩
          · exact .inl ⟨.inr hb, fun hbx => absurd hbx (hno b hb)⟩
        · rintro (⟨hb, -⟩ | ⟨rfl, hall, -⟩)
          · exact hb
          · exact absurd (hall heq) hlt
    · rw [if_neg heq, List.mem_cons, ih hrest, List.mem_cons,
        List.forall_mem_cons]
      constructor
      · rintro (rfl | ⟨hb, hle⟩ | ⟨rfl, hall⟩)
        · exact .inl ⟨.inl rfl, fun hbx => absurd hbx heq⟩
        · exact .inl ⟨.inr hb, hle⟩
        · exact .inr ⟨rfl, fun hyx => absurd hyx heq, hall⟩
      · rintro (⟨rfl | hb, hle⟩ | ⟨rfl, -, hall⟩)
        · exact .inl rfl
        · exact .inr (.inl ⟨hb, hle⟩)
        · exact .inr (.inr ⟨rfl, hall⟩)

theorem mem_best_iff :
    b ∈ best key score xs ↔ Foremost key score xs b := by
  induction xs using List.reverseRecOn generalizing b with
  | nil => simp [best, Foremost]
  | append_singleton xs x ih =>
    rw [best_concat, mem_put_iff (best_keys_nodup xs), foremost_concat, ih]
    have hall : (∀ y ∈ best key score xs, key y = key x → score y < score x)
        ↔ ∀ c ∈ xs, key c = key x → score c < score x := by
      constructor
      · intro h c hc hcx
        have hkeys : key c ∈ (best key score xs).map key :=
          mem_best_keys.2 (List.mem_map_of_mem hc)
        obtain ⟨y, hy, hyc⟩ := List.mem_map.1 hkeys
        exact lt_of_le_of_lt ((ih.1 hy).le hc hyc.symm)
          (h y hy (hyc.trans hcx))
      · exact fun h y hy => h y (ih.1 hy).mem
    rw [hall]

-- ======== extremes

section Extreme

variable {α : Type*} {r : α → α → Prop} {pick : List α → Option α}
  {xs ys : List α}

/-- A choice, from a list, of the element that is related to all. -/
structure Picks (r : α → α → Prop) (pick : List α → Option α) : Prop where
  eq_some : ∀ xs a, pick xs = some a ↔ a ∈ xs ∧ ∀ x ∈ xs, r a x
  isSome : ∀ xs, xs ≠ [] → (pick xs).isSome = true

theorem Picks.congr (h : Picks r pick) (hmem : ∀ x, x ∈ xs ↔ x ∈ ys) :
    pick xs = pick ys := by
  apply Option.ext
  intro a
  rw [h.eq_some, h.eq_some, hmem]
  exact and_congr_right fun _ => forall_congr' fun x => by rw [hmem]

theorem Picks.flatten (h : Picks r pick)
    (htrans : ∀ a b c, r a b → r b c → r a c)
    (hantisymm : ∀ a b, r a b → r b a → a = b) (parts : List (List α)) :
    pick (parts.filterMap pick) = pick parts.flatten := by
  apply Option.ext
  intro a
  rw [h.eq_some, h.eq_some]
  constructor
  · intro hpick
    obtain ⟨hmem, hall⟩ := hpick
    obtain ⟨part, hpart, ha⟩ := List.mem_filterMap.1 hmem
    refine ⟨List.mem_flatten.2 ⟨part, hpart, ((h.eq_some _ _).1 ha).1⟩, ?_⟩
    intro x hx
    obtain ⟨other, hother, hx⟩ := List.mem_flatten.1 hx
    obtain ⟨b, hb⟩ := Option.isSome_iff_exists.1
      (h.isSome other (List.ne_nil_of_mem hx))
    exact htrans a b x (hall b (List.mem_filterMap.2 ⟨other, hother, hb⟩))
      (((h.eq_some _ _).1 hb).2 x hx)
  · intro hwhole
    obtain ⟨hmem, hall⟩ := hwhole
    have hin : ∀ part ∈ parts, ∀ x ∈ part, r a x := fun part hpart x hx =>
      hall x (List.mem_flatten.2 ⟨part, hpart, hx⟩)
    obtain ⟨part, hpart, ha⟩ := List.mem_flatten.1 hmem
    obtain ⟨b, hb⟩ := Option.isSome_iff_exists.1
      (h.isSome part (List.ne_nil_of_mem ha))
    obtain ⟨hbmem, hball⟩ := (h.eq_some _ _).1 hb
    have hsame := hantisymm a b (hin part hpart b hbmem) (hball a ha)
    refine ⟨List.mem_filterMap.2 ⟨part, hpart, hsame ▸ hb⟩, fun x hx => ?_⟩
    obtain ⟨other, hother, hx⟩ := List.mem_filterMap.1 hx
    exact hin other hother x ((h.eq_some _ _).1 hx).1

theorem picks_min {α : Type*} [Min α] [LE α] [Std.IsLinearOrder α]
    [Std.LawfulOrderMin α] : Picks (fun a b : α => a ≤ b) List.min? where
  eq_some _ _ := List.min?_eq_some_iff
  isSome _ h := List.isSome_min?_of_ne_nil h

theorem picks_max {α : Type*} [Max α] [LE α] [Std.IsLinearOrder α]
    [Std.LawfulOrderMax α] : Picks (fun a b : α => b ≤ a) List.max? where
  eq_some _ _ := List.max?_eq_some_iff
  isSome _ h := List.isSome_max?_of_ne_nil h

end Extreme

end Best

end MemoryOS.Lib
