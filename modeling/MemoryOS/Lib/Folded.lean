/-
Comparing two lists of rows by folding each into a dict, and by joining
each into a text.

A dict built from rows keeps the last row of each key, and comparing two
dicts compares the rows they keep. Joining rows with separators is
comparing the rows when no field contains one. Both say that the rows are
the same only while the folding loses nothing.

# The rules

- `diff_clean_iff`: with distinct keys, two lists differ nowhere exactly when
  they are permutations of each other.
- `joined_inj`: fields without separators can be read back off the text.
- `sorted_eq_iff`: rows sorted by distinct keys are the same list exactly when
  they are permutations.
-/
import Mathlib.Data.List.Sort

namespace MemoryOS.Lib

-- =========== dicts

section Dicts

variable {κ ρ : Type*} [DecidableEq κ] (key : ρ → κ)

/-- The rows a dict holds: the last one of each key. -/
def keep : List ρ → List ρ
  | [] => []
  | r :: rest => if key r ∈ rest.map key then keep rest else r :: keep rest

theorem keep_eq_self {rows : List ρ} (h : (rows.map key).Nodup) :
    keep key rows = rows := by
  induction rows with
  | nil => rfl
  | cons x rest ih =>
    obtain ⟨hx, hrest⟩ := List.nodup_cons.mp h
    rw [keep, if_neg hx, ih hrest]

/-- What differs between two dicts. -/
structure Diff (κ ρ : Type*) where
  missing : List κ
  unexpected : List κ
  changed : List (ρ × ρ)

/-- Nothing differs. -/
def Diff.clean (d : Diff κ ρ) : Bool :=
  d.missing.isEmpty && d.unexpected.isEmpty && d.changed.isEmpty

/-- The keys of one side, and the rows the two sides do not agree on. -/
def diff (same : ρ → ρ → Bool) (left right : List ρ) : Diff κ ρ :=
  let l := keep key left
  let r := keep key right
  { missing := (l.map key).filter fun k => decide (k ∉ r.map key)
    unexpected := (r.map key).filter fun k => decide (k ∉ l.map key)
    changed := l.flatMap fun a =>
      (r.filter fun b => decide (key b = key a) && !same a b).map fun b =>
        (a, b) }

variable {key} {same : ρ → ρ → Bool} {left right : List ρ}

theorem clean_iff : (diff key same left right).clean = true ↔
    (∀ a ∈ keep key left, ∃ b ∈ keep key right, key b = key a)
      ∧ (∀ b ∈ keep key right, ∃ a ∈ keep key left, key a = key b)
      ∧ ∀ a ∈ keep key left, ∀ b ∈ keep key right, key b = key a →
        same a b = true := by
  unfold Diff.clean diff
  simp only [Bool.and_eq_true, List.isEmpty_iff, List.filter_eq_nil_iff,
    List.mem_map, decide_eq_true_eq, not_not, List.flatMap_eq_nil_iff,
    List.map_eq_nil_iff, forall_exists_index, and_imp,
    forall_apply_eq_imp_iff₂, Bool.not_eq_true', not_and,
    Bool.not_eq_false, and_assoc]

theorem clean_of_perm (hleft : (left.map key).Nodup)
    (hsame : ∀ a ∈ left, same a a = true) (hperm : left.Perm right) :
    (diff key same left right).clean = true := by
  have hright : (right.map key).Nodup := (hperm.map key).nodup_iff.mp hleft
  rw [clean_iff, keep_eq_self key hleft, keep_eq_self key hright]
  refine ⟨fun a ha => ⟨a, hperm.mem_iff.mp ha, rfl⟩,
    fun b hb => ⟨b, hperm.mem_iff.mpr hb, rfl⟩, fun a ha b hb hkey => ?_⟩
  have hba : b = a := List.inj_on_of_nodup_map hleft (hperm.mem_iff.mpr hb) ha
    hkey
  rw [hba]
  exact hsame a ha

theorem diff_clean_iff (hleft : (left.map key).Nodup)
    (hright : (right.map key).Nodup)
    (hsame : ∀ a b, same a b = true ↔ a = b) :
    (diff key same left right).clean = true ↔ left.Perm right := by
  constructor
  · rw [clean_iff, keep_eq_self key hleft, keep_eq_self key hright]
    rintro ⟨hto, hfrom, hrows⟩
    rw [List.perm_ext_iff_of_nodup hleft.of_map hright.of_map]
    intro a
    constructor
    · intro ha
      obtain ⟨b, hb, hkey⟩ := hto a ha
      exact (hsame a b).mp (hrows a ha b hb hkey) ▸ hb
    · intro ha
      obtain ⟨b, hb, hkey⟩ := hfrom a ha
      exact (hsame b a).mp (hrows b hb a ha hkey.symm) ▸ hb
  · exact clean_of_perm hleft fun a _ => (hsame a a).mpr rfl

end Dicts

-- =========== texts

section Texts

variable {α : Type*}

/-- Fields joined into rows, and rows into a text. -/
def joined (field row : α) (rows : List (List (List α))) : List α :=
  [row].intercalate (rows.map fun r => [field].intercalate r)

theorem intercalate_inj [DecidableEq α] {sep : α}
    {l l' : List (List α)} (hne : l ≠ []) (hne' : l' ≠ []) (hl : ∀ x ∈ l, sep ∉ x) (hl' : ∀ x ∈ l', sep ∉ x)
    (h : [sep].intercalate l = [sep].intercalate l') : l = l' := by
  rw [← List.splitOn_intercalate sep hl hne, h,
    List.splitOn_intercalate sep hl' hne']

theorem mem_intercalate {sep a : α} {l : List (List α)}
    (h : a ∈ [sep].intercalate l) : a = sep ∨ ∃ x ∈ l, a ∈ x := by
  unfold List.intercalate at h
  obtain ⟨x, hx, ha⟩ := List.mem_flatten.mp h
  induction l with
  | nil => cases hx
  | cons y rest ih =>
    cases rest with
    | nil =>
      rw [List.intersperse_singleton, List.mem_singleton] at hx
      exact .inr ⟨y, List.mem_cons_self, hx ▸ ha⟩
    | cons z rest =>
      rw [List.intersperse_cons_cons] at hx
      rcases List.mem_cons.mp hx with rfl | hx
      · exact .inr ⟨x, List.mem_cons_self, ha⟩
      · rcases List.mem_cons.mp hx with rfl | hx
        · exact .inl (List.mem_singleton.mp ha)
        · refine (ih (List.mem_flatten.mpr ⟨x, hx, ha⟩) hx).imp_right ?_
          rintro ⟨w, hw, haw⟩
          exact ⟨w, List.mem_cons_of_mem _ hw, haw⟩

theorem intercalate_ne_nil {sep : α} {x y : List α} {rest : List (List α)} :
    [sep].intercalate (x :: y :: rest) ≠ [] := by
  unfold List.intercalate
  rw [List.intersperse_cons_cons]
  simp

theorem joined_inj [DecidableEq α] {field row : α}
    {rows rows' : List (List (List α))} (hne : row ≠ field)
    (htwo : ∀ r ∈ rows, 2 ≤ r.length) (htwo' : ∀ r ∈ rows', 2 ≤ r.length)
    (hplain : ∀ r ∈ rows, ∀ f ∈ r, field ∉ f ∧ row ∉ f)
    (hplain' : ∀ r ∈ rows', ∀ f ∈ r, field ∉ f ∧ row ∉ f)
    (h : joined field row rows = joined field row rows') : rows = rows' := by
  have hline {rows : List (List (List α))}
      (hplain : ∀ r ∈ rows, ∀ f ∈ r, field ∉ f ∧ row ∉ f) :
      ∀ x ∈ rows.map (fun r => [field].intercalate r), row ∉ x := by
    intro x hx hin
    obtain ⟨r, hr, rfl⟩ := List.mem_map.mp hx
    obtain heq | ⟨f, hf, hrow⟩ := mem_intercalate hin
    · exact hne heq
    · exact (hplain r hr f hf).2 hrow
  have hempty {rows : List (List (List α))} (htwo : ∀ r ∈ rows, 2 ≤ r.length)
      (h : joined field row rows = []) : rows = [] := by
    cases rows with
    | nil => rfl
    | cons r rest =>
      obtain ⟨x, y, more, rfl⟩ : ∃ x y more, r = x :: y :: more := by
        have hr := htwo r List.mem_cons_self
        rcases r with _ | ⟨x, _ | ⟨y, more⟩⟩
        · cases hr
        · simp at hr
        · exact ⟨x, y, more, rfl⟩
      exfalso
      unfold joined at h
      rw [List.map_cons, List.intercalate, List.flatten_eq_nil_iff] at h
      refine intercalate_ne_nil (h ([field].intercalate (x :: y :: more)) ?_)
      cases rest with
      | nil => exact List.mem_singleton_self _
      | cons z rest =>
        rw [List.map_cons, List.intersperse_cons_cons]
        exact List.mem_cons_self
  cases hrows : rows with
  | nil =>
    subst hrows
    exact (hempty htwo' h.symm).symm
  | cons r rest =>
    rw [← hrows]
    have hsome : rows ≠ [] := by
      rw [hrows]
      exact List.cons_ne_nil _ _
    have hsome' : rows' ≠ [] := by
      intro hnil
      rw [hnil] at h
      exact hsome (hempty htwo h)
    have hlines := intercalate_inj (by simpa using hsome)
      (by simpa using hsome') (hline hplain) (hline hplain') h
    -- line by line
    clear h hrows hsome hsome' hline hempty
    induction rows generalizing rows' with
    | nil => exact (List.map_eq_nil_iff.mp hlines.symm).symm
    | cons a as ih =>
      cases rows' with
      | nil => cases hlines
      | cons b bs =>
        obtain ⟨hhead, htail⟩ := List.cons.inj hlines
        have hab : a = b := by
          refine intercalate_inj ?_ ?_
            (fun x hx => (hplain a List.mem_cons_self x hx).1)
            (fun x hx => (hplain' b List.mem_cons_self x hx).1) hhead
          · intro hnil
            have := htwo a List.mem_cons_self
            rw [hnil] at this
            cases this
          · intro hnil
            have := htwo' b List.mem_cons_self
            rw [hnil] at this
            cases this
        rw [hab, ih (fun r hr => htwo r (List.mem_cons_of_mem _ hr))
          (fun r hr => htwo' r (List.mem_cons_of_mem _ hr))
          (fun r hr => hplain r (List.mem_cons_of_mem _ hr))
          (fun r hr => hplain' r (List.mem_cons_of_mem _ hr)) htail]

end Texts

-- ========== sorted

theorem sorted_eq_iff {κ ρ : Type*} [LinearOrder κ] {key : ρ → κ}
    {l l' : List ρ} (hl : (l.map key).Nodup) :
    l.insertionSort (fun a b => key a ≤ key b)
        = l'.insertionSort (fun a b => key a ≤ key b) ↔ l.Perm l' := by
  have : Std.Total (fun a b : ρ => key a ≤ key b) :=
    ⟨fun a b => le_total (key a) (key b)⟩
  have : IsTrans ρ fun a b => key a ≤ key b := ⟨fun _ _ _ => le_trans⟩
  constructor
  · intro h
    exact (List.perm_insertionSort _ l).symm.trans
      (h ▸ List.perm_insertionSort _ l')
  · intro h
    have hperm := (List.perm_insertionSort (fun a b => key a ≤ key b) l).trans
      (h.trans (List.perm_insertionSort (fun a b => key a ≤ key b) l').symm)
    refine hperm.eq_of_pairwise (fun a b ha hb hab hba => ?_)
      (List.pairwise_insertionSort _ l) (List.pairwise_insertionSort _ l')
    refine List.inj_on_of_nodup_map hl ?_ ?_ (le_antisymm hab hba)
    · exact (List.mem_insertionSort _).mp ha
    · exact h.mem_iff.mpr ((List.mem_insertionSort _).mp hb)

end MemoryOS.Lib
