/-
What `difflib.unified_diff` prints of a pairing of lines.

`Walk` carries the printed rows along the pairing: at the end of one text
there is nothing left to print but rows of the other, so a line without its
break is the last or is followed by nothing but change (`Walk.tight`). The
change is printed whole and in order, among common lines and rows of the
diff's own (`shown_unifiedDiff`).
-/
import MemoryOS.Evolution.Proofs.Lines

namespace MemoryOS.Evolution

open Lib

-- ====== statement vocabulary

/-- A line of the change. -/
structure Change where
  removed : Bool
  line : Text
deriving DecidableEq, Repr

/-- The lines that are in no common run, in the order of the pairing: the
older text's, then the newer one's. -/
def changesOf (a b : List Text) (ops : List Opcode) : List Change :=
  ops.flatMap fun op =>
    if op.tag = .equal then []
    else (cut a op.i₁ op.i₂).map (Change.mk true)
      ++ (cut b op.j₁ op.j₂).map (Change.mk false)

/-- The opcodes are an alignment, and a deletion has no newer lines, an
insertion no older ones. -/
def Paired (ops : List Opcode) (a b : List Text) : Prop :=
  Aligned ops a b ∧ ∀ op ∈ ops,
    (op.tag = .delete → op.j₁ = op.j₂) ∧ (op.tag = .insert → op.i₁ = op.i₂)

variable {a b : List Text} {n i j : Nat} {op : Opcode} {ops : List Opcode}

-- ========= walking

variable {group : List Opcode}

variable {l : List Text} {g : List Opcode}

theorem cut_from {d : Nat} : cut l (i + d) j = (cut l i j).drop d := by
  unfold cut
  rw [List.drop_take, List.drop_drop]
  congr 1
  omega

theorem cut_to {d : Nat} (h : i + d ≤ j) :
    cut l i (i + d) = (cut l i j).take d := by
  unfold cut
  rw [List.take_take]
  congr 1
  omega

/-- The opcodes walk both texts from `(i, j)`, to wherever they end. -/
inductive Walk (a b : List Text) : Nat → Nat → List Opcode → Prop
  | nil {i j : Nat} : i ≤ a.length → j ≤ b.length → Walk a b i j []
  | cons {op : Opcode} {rest : List Opcode} :
      op.i₁ ≤ op.i₂ → op.j₁ ≤ op.j₂ →
      (op.tag = .equal → cut a op.i₁ op.i₂ = cut b op.j₁ op.j₂) →
      (op.tag = .delete → op.j₁ = op.j₂) → (op.tag = .insert → op.i₁ = op.i₂) →
      Walk a b op.i₂ op.j₂ rest → Walk a b op.i₁ op.j₁ (op :: rest)

theorem Walk.le_length (h : Walk a b i j ops) : i ≤ a.length ∧ j ≤ b.length := by
  induction h with
  | nil hi hj => exact ⟨hi, hj⟩
  | cons hi hj _ _ _ _ ih => omega

theorem walk_of_aligns (h : Aligns a b i j (ops.map Opcode.block))
    (htags : ∀ op ∈ ops,
      (op.tag = .delete → op.j₁ = op.j₂) ∧ (op.tag = .insert → op.i₁ = op.i₂)) :
    Walk a b i j ops := by
  induction ops generalizing i j with
  | nil =>
    cases h
    exact .nil (Nat.le_refl _) (Nat.le_refl _)
  | cons op ops ih =>
    obtain ⟨htag, htags⟩ := List.forall_mem_cons.1 htags
    rw [List.map_cons] at h
    cases h with
    | cons hi hj hsame hrest =>
      exact .cons hi hj (fun heq => hsame (by simp [Opcode.block, heq]))
        htag.1 htag.2 (ih hrest htags)

theorem Walk.same_length (h : Walk a b i j (op :: ops)) (hop : op.tag = .equal) :
    op.i₂ - op.i₁ = op.j₂ - op.j₁ := by
  cases h with
  | cons hi hj hsame _ _ hrest =>
    have hbounds := hrest.le_length
    rw [← length_cut a hbounds.1, ← length_cut b hbounds.2, hsame hop]

theorem Walk.cut_closing (h : Walk a b i j (op :: ops)) (hop : op.tag = .equal) :
    cut a (op.closing n).i₁ op.i₂
        = (cut a op.i₁ op.i₂).drop (op.i₂ - op.i₁ - n)
      ∧ cut a (op.closing n).i₁ op.i₂ = cut b (op.closing n).j₁ op.j₂ := by
  have hlength := h.same_length hop
  cases h with
  | cons hi hj hsame _ _ _ =>
    have hi' : (op.closing n).i₁ = op.i₁ + (op.i₂ - op.i₁ - n) := by
      show max op.i₁ (op.i₂ - n) = _
      omega
    have hj' : (op.closing n).j₁ = op.j₁ + (op.i₂ - op.i₁ - n) := by
      show max op.j₁ (op.j₂ - n) = _
      omega
    rw [hi', hj', cut_from, cut_from, hsame hop]
    exact ⟨rfl, rfl⟩

theorem Walk.cut_opening (h : Walk a b i j (op :: ops)) (hop : op.tag = .equal) :
    cut a op.i₁ (op.opening n).i₂ = cut b op.j₁ (op.opening n).j₂ := by
  have hlength := h.same_length hop
  cases h with
  | cons hi hj hsame _ _ _ =>
    have hi' : (op.opening n).i₂ = op.i₁ + min (op.i₂ - op.i₁) n := by
      show min op.i₂ (op.i₁ + n) = _
      omega
    have hj' : (op.opening n).j₂ = op.j₁ + min (op.i₂ - op.i₁) n := by
      show min op.j₂ (op.j₁ + n) = _
      omega
    rw [hi', hj', cut_to (l := a) (j := op.i₂) (by omega),
      cut_to (l := b) (j := op.j₂) (by omega), hsame hop]

theorem Walk.trimFirst (h : Walk a b i j ops) :
    ∃ i' j', Walk a b i' j' (trimFirst n ops) := by
  cases ops with
  | nil => exact ⟨i, j, h⟩
  | cons op ops =>
    rw [Evolution.trimFirst]
    by_cases hop : op.tag = .equal
    · have hcut := (h.cut_closing (n := n) hop).2
      rw [if_pos hop]
      cases h with
      | cons hi hj _ _ _ hrest =>
        refine ⟨_, _, @Walk.cons a b (op.closing n) ops ?_ ?_ (fun _ => hcut)
          (fun heq => ?_) (fun heq => ?_) hrest⟩
        · show max op.i₁ (op.i₂ - n) ≤ op.i₂
          omega
        · show max op.j₁ (op.j₂ - n) ≤ op.j₂
          omega
        · exact absurd (hop.symm.trans heq) (by decide)
        · exact absurd (hop.symm.trans heq) (by decide)
    · rw [if_neg hop]
      exact ⟨i, j, h⟩

theorem Walk.trimLast (h : Walk a b i j ops) : Walk a b i j (trimLast n ops) := by
  induction h with
  | nil hi hj => exact .nil hi hj
  | @cons op rest hi hj hsame hdelete hinsert hrest ih =>
    cases rest with
    | nil =>
      have hwalk := Walk.cons hi hj hsame hdelete hinsert hrest
      rw [Evolution.trimLast]
      by_cases hop : op.tag = .equal
      · have hcut := hwalk.cut_opening (n := n) hop
        have hbounds := hrest.le_length
        rw [if_pos hop]
        refine @Walk.cons a b (op.opening n) [] ?_ ?_ (fun _ => hcut)
          (fun heq => ?_) (fun heq => ?_) (.nil ?_ ?_)
        · show op.i₁ ≤ min op.i₂ (op.i₁ + n)
          omega
        · show op.j₁ ≤ min op.j₂ (op.j₁ + n)
          omega
        · exact absurd (hop.symm.trans heq) (by decide)
        · exact absurd (hop.symm.trans heq) (by decide)
        · show min op.i₂ (op.i₁ + n) ≤ a.length
          omega
        · show min op.j₂ (op.j₁ + n) ≤ b.length
          omega
      · rw [if_neg hop]
        exact hwalk
    | cons next rest => exact .cons hi hj hsame hdelete hinsert ih

-- ====== what is printed

/-- A printed row: one of the diff's own, a common line, or one of the
change. -/
inductive Shown
  | framing (row : Text)
  | kept (line : Text)
  | change (c : Change)

/-- The row as it is printed. -/
def Shown.row : Shown → Text
  | .framing row => row
  | .kept line => ' ' :: line
  | .change c => (if c.removed then '-' else '+') :: c.line

/-- The line of the change. -/
def Shown.change? : Shown → Option Change
  | .change c => some c
  | _ => none

/-- What is printed of an opcode. -/
def shownOf (a b : List Text) (op : Opcode) : List Shown :=
  if op.tag = .equal then (cut a op.i₁ op.i₂).map .kept
  else (cut a op.i₁ op.i₂).map (fun line => .change ⟨true, line⟩)
    ++ (cut b op.j₁ op.j₂).map (fun line => .change ⟨false, line⟩)

/-- What is printed of the groups. -/
def shownGroups (a b : List Text) (groups : List (List Opcode)) : List Shown :=
  groups.flatMap fun group =>
    .framing (hunkHeader group) :: group.flatMap (shownOf a b)

/-- What is printed once a group has begun. -/
def shownFrom (n : Nat) (a b : List Text) : List Opcode → List Shown
  | [] => []
  | op :: rest =>
    if isLong n op then
      shownOf a b (op.opening n)
        ++ .framing (((groupsFrom n [op.closing n] rest).head?.map hunkHeader).getD [])
        :: (shownOf a b (op.closing n) ++ shownFrom n a b rest)
    else shownOf a b op ++ shownFrom n a b rest

theorem shownOf_opening (h : op.tag = .equal) : shownOf a b (op.opening n)
    = (cut a op.i₁ (op.opening n).i₂).map .kept := if_pos h

theorem shownOf_closing (h : op.tag = .equal) : shownOf a b (op.closing n)
    = (cut a (op.closing n).i₁ op.i₂).map .kept := if_pos h

theorem cut_self : cut l i i = [] := by
  unfold cut
  rw [Nat.sub_self, List.take_zero]

theorem row_shownOf (hdelete : op.tag = .delete → op.j₁ = op.j₂)
    (hinsert : op.tag = .insert → op.i₁ = op.i₂) :
    (shownOf a b op).map Shown.row = opcodeLines a b op := by
  unfold shownOf opcodeLines
  cases htag : op.tag with
  | equal => simp [Shown.row]
  | replace =>
    rw [if_neg (by decide), List.map_append, List.map_map, List.map_map]
    rfl
  | delete =>
    rw [if_neg (by decide), hdelete htag, cut_self, List.map_nil,
      List.append_nil, List.map_map]
    rfl
  | insert =>
    rw [if_neg (by decide), hinsert htag, cut_self, List.map_nil,
      List.nil_append, List.map_map]
    rfl

theorem mem_groupsFrom (h : g ∈ groupsFrom n group ops) : g ≠ []:= by
  induction ops generalizing group with
  | nil =>
    rw [groupsFrom] at h
    split at h
    case isTrue => cases h
    case isFalse hgroup =>
      obtain rfl := List.mem_singleton.1 h
      rintro rfl
      exact hgroup rfl
  | cons op ops ih =>
    rw [groupsFrom] at h
    split at h
    case isTrue =>
      rcases List.mem_cons.1 h with rfl | h
      · simp
      · exact ih h
    case isFalse => exact ih h

/-- The opcodes print something: they are no common run alone, and do not end
in a long one. -/
def Prints (n : Nat) (ops : List Opcode) : Prop :=
  ops ≠ [] ∧ (∀ op, ops = [op] → op.tag ≠ .equal)
    ∧ ∀ op, ops.getLast? = some op → isLong n op = false

theorem shownGroups_from (h : Prints n (group ++ ops)) :
    shownGroups a b (groupsFrom n group ops)
      = .framing (((groupsFrom n group ops).head?.map hunkHeader).getD [])
        :: (group.flatMap (shownOf a b) ++ shownFrom n a b ops) := by
  induction ops generalizing group with
  | nil =>
    rw [List.append_nil] at h
    have hgroup : ¬ (group.isEmpty || (group.length == 1
        && group.all fun op => decide (op.tag = .equal))) = true := by
      intro hgo
      rw [Bool.or_eq_true, List.isEmpty_iff, Bool.and_eq_true, beq_iff_eq,
        List.length_eq_one_iff] at hgo
      rcases hgo with hnil | ⟨⟨op, rfl⟩, hall⟩
      · exact h.1 hnil
      · exact h.2.1 op rfl (by simpa using hall)
    rw [groupsFrom, if_neg hgroup]
    simp [shownGroups, shownFrom]
  | cons op ops ih =>
    rw [groupsFrom, shownFrom]
    by_cases hlong : isLong n op = true
    · have hmore : ops ≠ [] := by
        rintro rfl
        rw [h.2.2 op (by simp)] at hlong
        cases hlong
      have hlater : Prints n ([op.closing n] ++ ops) := by
        refine ⟨by simp, fun other hother => ?_, fun last hlast => ?_⟩
        · exact absurd (List.cons.inj hother).2 hmore
        · apply h.2.2 last
          obtain ⟨next, rest, rfl⟩ := List.exists_cons_of_ne_nil hmore
          simpa using hlast
      rw [if_pos hlong, if_pos hlong]
      have hrest := ih hlater
      simp only [shownGroups, List.flatMap_cons, List.flatMap_append,
        List.head?_cons, Option.map_some, Option.getD_some] at hrest ⊢
      rw [hrest]
      simp
    · rw [if_neg hlong, if_neg hlong, ih (by simpa using h)]
      simp

-- ====== rows without a break

/-- Only the last line is without its break. -/
def Lined (a : List Text) : Prop :=
  ∀ lines row after, a = lines ++ row :: after → isEnded row = false → after = []

/-- Whether a row has its break. -/
def Shown.ended : Shown → Bool
  | .framing _ => true
  | .kept line => isEnded line
  | .change c => isEnded c.line

/-- A row without its break is the last, or there is nothing but change from
it on. -/
def Tight : List Shown → Prop
  | [] => True
  | s :: rest =>
    (s.ended = false →
      rest = [] ∨ (s.change?.isSome = true ∧ ∀ t ∈ rest, t.change?.isSome = true))
    ∧ Tight rest

theorem tight_append {xs ys : List Shown}
    (hxs : ∀ before s later, xs = before ++ s :: later → s.ended = false →
      later ++ ys = []
        ∨ (s.change?.isSome = true ∧ ∀ t ∈ later ++ ys, t.change?.isSome = true))
    (hys : Tight ys) : Tight (xs ++ ys) := by
  induction xs with
  | nil => exact hys
  | cons s xs ih =>
    refine ⟨fun hs => hxs [] s xs rfl hs, ih fun before t later hsplit => ?_⟩
    exact hxs (s :: before) t later (by rw [hsplit]; rfl)

theorem last_cut (ha : Lined a) (hi : i ≤ j) (hj : j ≤ a.length)
    {lines after : List Text} {row : Text}
    (hcut : cut a i j = lines ++ row :: after) (hended : isEnded row = false) :
    after = [] ∧ j = a.length := by
  have hwhole : a = (a.take i ++ lines) ++ row :: (after ++ a.drop j) := by
    have hsplit := cut_append_drop a hi
    rw [hcut] at hsplit
    calc a = a.take i ++ a.drop i := (List.take_append_drop i a).symm
      _ = a.take i ++ ((lines ++ row :: after) ++ a.drop j) := by rw [hsplit]
      _ = _ := by simp
  have hnil := ha _ _ _ hwhole hended
  obtain ⟨hafter, hdrop⟩ := List.append_eq_nil_iff.1 hnil
  have hlength := List.drop_eq_nil_iff.1 hdrop
  exact ⟨hafter, by omega⟩

theorem cut_eq_nil_of_end (hi : i = l.length) : cut l i j = [] := by
  unfold cut
  rw [hi, List.drop_length, List.take_nil]

theorem Walk.shown_new (h : Walk a b i j ops) (hi : i = a.length) :
    ∀ s ∈ shownFrom n a b ops, ∃ line, s = .change ⟨false, line⟩ := by
  induction h with
  | nil => simp [shownFrom]
  | @cons op rest hop _ _ _ _ hrest ih =>
    have hbound := hrest.le_length.1
    have hlong : isLong n op = false := by
      have hnone : ¬ n + n < op.i₂ - op.i₁ := by omega
      simp [isLong, hnone]
    intro s hs
    rw [shownFrom, if_neg (by rw [hlong]; exact Bool.false_ne_true),
      List.mem_append] at hs
    rcases hs with hs | hs
    · rw [shownOf, cut_eq_nil_of_end hi] at hs
      split at hs
      case isTrue => cases hs
      case isFalse =>
        obtain ⟨line, -, rfl⟩ := List.mem_map.1 hs
        exact ⟨line, rfl⟩
    · exact ih (by omega) s hs

theorem Walk.shown_old (h : Walk a b i j ops) (hj : j = b.length) :
    ∀ s ∈ shownFrom n a b ops, ∃ line, s = .change ⟨true, line⟩ := by
  induction h with
  | nil => simp [shownFrom]
  | @cons op rest hi hop hsame hdelete hinsert hrest ih =>
    have hbound := hrest.le_length.2
    have hlong : isLong n op = false := by
      by_cases heq : op.tag = .equal
      · have hlength := (Walk.cons hi hop hsame hdelete hinsert hrest).same_length heq
        have hnone : ¬ n + n < op.i₂ - op.i₁ := by omega
        simp [isLong, hnone]
      · simp [isLong, heq]
    intro s hs
    rw [shownFrom, if_neg (by rw [hlong]; exact Bool.false_ne_true),
      List.mem_append] at hs
    rcases hs with hs | hs
    · rw [shownOf] at hs
      split at hs
      case isTrue heq =>
        rw [hsame heq, cut_eq_nil_of_end hj] at hs
        cases hs
      case isFalse =>
        rw [cut_eq_nil_of_end hj, List.map_nil, List.append_nil] at hs
        obtain ⟨line, -, rfl⟩ := List.mem_map.1 hs
        exact ⟨line, rfl⟩
    · exact ih (by omega) s hs

theorem Walk.shown_none (h : Walk a b i j ops) (hi : i = a.length)
    (hj : j = b.length) : shownFrom n a b ops = [] := by
  apply List.eq_nil_iff_forall_not_mem.2
  intro s hs
  obtain ⟨line, hline⟩ := h.shown_new hi s hs
  obtain ⟨line', hline'⟩ := h.shown_old hj s hs
  rw [hline] at hline'
  cases hline'

theorem Walk.kept_last (ha : Lined a) (hb : Lined b) (h : Walk a b i j (op :: ops))
    (hop : op.tag = .equal) {lines after : List Text} {row : Text}
    (hcut : cut a op.i₁ op.i₂ = lines ++ row :: after)
    (hended : isEnded row = false) :
    after = [] ∧ op.i₂ = a.length ∧ shownFrom n a b ops = [] := by
  cases h with
  | cons hi hj hsame _ _ hrest =>
    have hbounds := hrest.le_length
    obtain ⟨hafter, hi₂⟩ := last_cut ha hi hbounds.1 hcut hended
    rw [hsame hop] at hcut
    have hj₂ := (last_cut hb hj hbounds.2 hcut hended).2
    exact ⟨hafter, hi₂, hrest.shown_none hi₂ hj₂⟩

theorem map_split {α β : Type} {f : α → β} {xs : List α} {before later : List β}
    {y : β} (h : xs.map f = before ++ y :: later) :
    ∃ xs₁ x xs₂, xs = xs₁ ++ x :: xs₂ ∧ f x = y ∧ xs₂.map f = later := by
  obtain ⟨xs₁, rest, rfl, -, hrest⟩ := List.map_eq_append_iff.1 h
  obtain ⟨x, xs₂, rfl, hx, hlater⟩ := List.map_eq_cons_iff.1 hrest
  exact ⟨xs₁, x, xs₂, rfl, hx, hlater⟩

theorem Walk.tight_long (ha : Lined a) (hb : Lined b)
    (h : Walk a b i j (op :: ops)) (hlong : isLong n op = true)
    {header : Text} (hrest : Tight (shownFrom n a b ops)) :
    Tight (shownOf a b (op.opening n) ++ .framing header
      :: (shownOf a b (op.closing n) ++ shownFrom n a b ops)) := by
  rw [isLong, Bool.and_eq_true, decide_eq_true_eq, decide_eq_true_eq] at hlong
  have hclosing := (h.cut_closing (n := n) hlong.1).1
  have hlast : ∀ {lines after : List Text} {row : Text},
      cut a op.i₁ op.i₂ = lines ++ row :: after → isEnded row = false →
      after = [] ∧ op.i₂ = a.length ∧ shownFrom n a b ops = [] :=
    fun hcut hended => h.kept_last ha hb hlong.1 hcut hended
  have hbound : op.i₁ ≤ op.i₂ ∧ op.i₂ ≤ a.length := by
    cases h with
    | cons hi _ _ _ _ hwalk => exact ⟨hi, hwalk.le_length.1⟩
  have hopening : (op.opening n).i₂ = op.i₁ + n := by
    show min op.i₂ (op.i₁ + n) = _
    omega
  apply tight_append
  · intro before s later hsplit hs
    rw [shownOf_opening hlong.1] at hsplit
    obtain ⟨lines, row, after, hcut, rfl, -⟩ := map_split hsplit
    have hend := last_cut ha (by rw [hopening]; exact Nat.le_add_right _ _)
      (by rw [hopening]; omega) hcut hs
    omega
  · refine ⟨fun hs => absurd hs (by simp [Shown.ended]), tight_append ?_ hrest⟩
    intro before s later hsplit hs
    rw [shownOf_closing hlong.1] at hsplit
    obtain ⟨lines, row, after, hcut, rfl, rfl⟩ := map_split hsplit
    have hcut : (cut a op.i₁ op.i₂).drop (op.i₂ - op.i₁ - n)
        = lines ++ row :: after := hclosing.symm.trans hcut
    have hwhole := List.take_append_drop (op.i₂ - op.i₁ - n) (cut a op.i₁ op.i₂)
    rw [hcut, ← List.append_assoc] at hwhole
    obtain ⟨rfl, -, hnone⟩ := hlast hwhole.symm hs
    rw [hnone]
    exact .inl rfl

theorem Walk.tight (ha : Lined a) (hb : Lined b) (h : Walk a b i j ops) :
    Tight (shownFrom n a b ops) := by
  induction h with
  | nil => trivial
  | @cons op rest hi hj hsame hdelete hinsert hrest ih =>
    have hwalk := Walk.cons hi hj hsame hdelete hinsert hrest
    have hbounds := hrest.le_length
    rw [shownFrom]
    by_cases hlong : isLong n op = true
    · rw [if_pos hlong]
      exact hwalk.tight_long ha hb hlong ih
    · rw [if_neg hlong]
      by_cases heq : op.tag = .equal
      · apply tight_append _ ih
        intro before s later hsplit hs
        rw [shownOf, if_pos heq] at hsplit
        obtain ⟨lines, row, after, hcut, rfl, rfl⟩ := map_split hsplit
        obtain ⟨rfl, -, hnone⟩ := hwalk.kept_last (n := n) ha hb heq hcut hs
        rw [hnone]
        exact .inl rfl
      · rw [shownOf, if_neg heq, List.append_assoc]
        have hnew : ∀ t ∈ (cut b op.j₁ op.j₂).map fun line =>
            Shown.change ⟨false, line⟩, t.change?.isSome = true := by
          intro t ht
          obtain ⟨line, -, rfl⟩ := List.mem_map.1 ht
          rfl
        apply tight_append
        · intro before s later hsplit hs
          obtain ⟨lines, row, after, hcut, rfl, rfl⟩ := map_split hsplit
          obtain ⟨rfl, hi₂⟩ := last_cut ha hi hbounds.1 hcut hs
          refine .inr ⟨rfl, fun t ht => ?_⟩
          rw [List.map_nil, List.nil_append, List.mem_append] at ht
          rcases ht with ht | ht
          · exact hnew t ht
          · obtain ⟨line, rfl⟩ := hrest.shown_new hi₂ t ht
            rfl
        · apply tight_append _ ih
          intro before s later hsplit hs
          obtain ⟨lines, row, after, hcut, rfl, rfl⟩ := map_split hsplit
          obtain ⟨rfl, hj₂⟩ := last_cut hb hj hbounds.2 hcut hs
          refine .inr ⟨rfl, fun t ht => ?_⟩
          obtain ⟨line, rfl⟩ := hrest.shown_old hj₂ t (by simpa using ht)
          rfl

-- ====== the whole diff

theorem changes_shownOf :
    (shownOf a b op).filterMap Shown.change? = changesOf a b [op] := by
  unfold shownOf changesOf
  rw [List.flatMap_cons, List.flatMap_nil, List.append_nil]
  by_cases h : op.tag = .equal
  · rw [if_pos h, if_pos h, List.filterMap_map]
    exact List.filterMap_eq_nil_iff.2 fun _ _ => rfl
  · rw [if_neg h, if_neg h, List.filterMap_append, List.filterMap_map,
      List.filterMap_map]
    congr 1 <;> exact congrFun List.filterMap_eq_map _

theorem changesOf_cons : changesOf a b (op :: ops)
    = changesOf a b [op] ++ changesOf a b ops := by
  simp [changesOf]

theorem changesOf_equal (h : op.tag = .equal) : changesOf a b [op] = [] := by
  simp [changesOf, h]

theorem changes_shownFrom :
    (shownFrom n a b ops).filterMap Shown.change? = changesOf a b ops := by
  induction ops with
  | nil => rfl
  | cons op ops ih =>
    rw [shownFrom, changesOf_cons]
    by_cases hlong : isLong n op = true
    · have heq : op.tag = .equal := by
        rw [isLong, Bool.and_eq_true, decide_eq_true_eq] at hlong
        exact hlong.1
      have hopening : changesOf a b [op.opening n] = [] := changesOf_equal heq
      have hclosing : changesOf a b [op.closing n] = [] := changesOf_equal heq
      rw [if_pos hlong, List.filterMap_append, changes_shownOf,
        List.filterMap_cons_none rfl, List.filterMap_append, changes_shownOf,
        ih, hopening, hclosing, changesOf_equal heq, List.nil_append]
    · rw [if_neg hlong, List.filterMap_append, changes_shownOf, ih]

theorem changesOf_trimFirst :
    changesOf a b (trimFirst n ops) = changesOf a b ops := by
  cases ops with
  | nil => rfl
  | cons op ops =>
    rw [trimFirst]
    split
    case isTrue heq =>
      have hclosing : changesOf a b [op.closing n] = [] := changesOf_equal heq
      rw [changesOf_cons, hclosing, changesOf_cons, changesOf_equal heq]
    case isFalse => rfl

theorem changesOf_trimLast :
    changesOf a b (trimLast n ops) = changesOf a b ops := by
  fun_induction trimLast n ops with
  | case1 => rfl
  | case2 op heq =>
    have hopening : changesOf a b [op.opening n] = [] := changesOf_equal heq
    rw [hopening, changesOf_equal heq]
  | case3 op heq => rfl
  | case4 op next rest ih => rw [changesOf_cons, ih, ← changesOf_cons]

theorem trimLast_ne_nil (h : ops ≠ []) : trimLast n ops ≠ [] := by
  fun_cases trimLast n ops with
  | case1 => exact absurd rfl h
  | case2 => exact List.cons_ne_nil _ _
  | case3 => exact List.cons_ne_nil _ _
  | case4 => exact List.cons_ne_nil _ _

theorem last_trimLast {last : Opcode} (h : (trimLast n ops).getLast? = some last) :
    isLong n last = false := by
  fun_induction trimLast n ops with
  | case1 => cases h
  | case2 op heq =>
    obtain rfl : op.opening n = last := Option.some.inj h
    have hshort : ¬ n + n < min op.i₂ (op.i₁ + n) - op.i₁ := by omega
    simp [isLong, Opcode.opening, hshort]
  | case3 op heq =>
    obtain rfl : op = last := Option.some.inj h
    simp [isLong, heq]
  | case4 op next rest ih =>
    have hne := trimLast_ne_nil (n := n) (List.cons_ne_nil next rest)
    rw [List.getLast?_cons, List.getLast?_eq_some_getLast hne,
      Option.getD_some] at h
    exact ih (by rw [List.getLast?_eq_some_getLast hne, h])

/-- A kept line is common, and a line of the change is of its own text. -/
def Shown.Of (a b : List Text) : Shown → Prop
  | .framing _ => True
  | .kept line => line ∈ a ∧ line ∈ b
  | .change c => c.line ∈ (if c.removed then a else b)

theorem shown_of_common {x y : Nat} {s : Shown}
    (hcut : cut a i j = cut b x y) (hs : s ∈ (cut a i j).map Shown.kept) :
    s.Of a b := by
  obtain ⟨line, hline, rfl⟩ := List.mem_map.1 hs
  refine ⟨mem_of_mem_cut hline, ?_⟩
  rw [hcut] at hline
  exact mem_of_mem_cut hline

theorem Walk.shown_of (h : Walk a b i j ops) :
    ∀ s ∈ shownFrom n a b ops, s.Of a b := by
  induction h with
  | nil => simp [shownFrom]
  | @cons op rest hi hj hsame hdelete hinsert hrest ih =>
    have hwalk := Walk.cons hi hj hsame hdelete hinsert hrest
    intro s hs
    rw [shownFrom] at hs
    split at hs
    case isTrue hlong =>
      rw [isLong, Bool.and_eq_true, decide_eq_true_eq] at hlong
      rw [shownOf_opening hlong.1, shownOf_closing hlong.1, List.mem_append,
        List.mem_cons, List.mem_append] at hs
      rcases hs with hs | rfl | hs | hs
      · exact shown_of_common (hwalk.cut_opening hlong.1) hs
      · trivial
      · exact shown_of_common (hwalk.cut_closing hlong.1).2 hs
      · exact ih s hs
    case isFalse =>
      rw [List.mem_append] at hs
      rcases hs with hs | hs
      · rw [shownOf] at hs
        split at hs
        case isTrue heq => exact shown_of_common (hsame heq) hs
        case isFalse =>
          rcases List.mem_append.1 hs with hs | hs
          · obtain ⟨line, hline, rfl⟩ := List.mem_map.1 hs
            exact mem_of_mem_cut hline
          · obtain ⟨line, hline, rfl⟩ := List.mem_map.1 hs
            exact mem_of_mem_cut hline
      · exact ih s hs

-- ========= framing

/-- A row of the diff's own. -/
def Framing (row : Text) : Prop :=
  ∃ body, row = body ++ ['\n'] ∧ (∀ c ∈ body, CodeBoundaries.isLineBreak c = false)
    ∧ (framing.any fun start => start.toList.isPrefixOf body) = true

theorem unbroken {text : Text}
    (h : text.all (fun c => !CodeBoundaries.isLineBreak c) = true) :
    ∀ c ∈ text, CodeBoundaries.isLineBreak c = false := by
  simpa using h

theorem digit_break {c : Char} (h : c.isDigit = true) :
    CodeBoundaries.isLineBreak c = false := by
  have hrange : 48 ≤ c.toNat ∧ c.toNat ≤ 57 := by
    unfold Char.isDigit at h
    simpa [UInt32.le_iff_toNat_le, ← Char.toNat_val] using h
  simp only [CodeBoundaries.isLineBreak, Bool.or_eq_false_iff,
    Bool.and_eq_false_iff, decide_eq_false_iff_not, beq_eq_false_iff_ne]
  omega

theorem toString_break (m : Nat) :
    ∀ c ∈ (toString m).toList, CodeBoundaries.isLineBreak c = false := by
  intro c hc
  have hdigits : (toString m).toList = Nat.toDigits 10 m := by
    simp [Nat.toString_eq_repr, Nat.repr]
  rw [hdigits] at hc
  exact digit_break (Nat.isDigit_of_mem_toDigits (by decide) (Nat.le_refl 10) hc)

theorem formatRange_break {start stop : Nat} :
    ∀ c ∈ formatRangeUnified start stop, CodeBoundaries.isLineBreak c = false := by
  intro c hc
  unfold formatRangeUnified at hc
  simp only at hc
  split at hc
  case isTrue => exact toString_break _ c hc
  case isFalse =>
    rw [String.toList_append, String.toList_append, List.mem_append,
      List.mem_append] at hc
    rcases hc with (hc | hc) | hc
    · exact toString_break _ c hc
    · obtain rfl : c = ',' := by simpa using hc
      decide
    · exact toString_break _ c hc

theorem framing_hunkHeader (h : group ≠ []) :
    Framing (hunkHeader group) := by
  obtain ⟨first, rest, rfl⟩ := List.exists_cons_of_ne_nil h
  obtain ⟨last, hlast⟩ : ∃ last, (first :: rest).getLast? = some last :=
    ⟨_, List.getLast?_eq_some_getLast h⟩
  refine ⟨"@@ -".toList ++ formatRangeUnified first.i₁ last.i₂ ++ " +".toList
    ++ formatRangeUnified first.j₁ last.j₂ ++ " @@".toList, ?_, ?_, ?_⟩
  · simp only [hunkHeader, List.head?_cons, hlast]
    simp
  · intro c hc
    simp only [List.mem_append] at hc
    rcases hc with (((hc | hc) | hc) | hc) | hc
    · exact unbroken (by decide) c hc
    · exact formatRange_break c hc
    · exact unbroken (by decide) c hc
    · exact formatRange_break c hc
    · exact unbroken (by decide) c hc
  · simp [framing]

theorem mem_mem_groupsFrom {P : Opcode → Prop}
    (hopening : ∀ op : Opcode, op.tag = .equal → P (op.opening n))
    (hclosing : ∀ op : Opcode, op.tag = .equal → P (op.closing n))
    (hall : ∀ op ∈ group ++ ops, P op) (hg : g ∈ groupsFrom n group ops) :
    ∀ op ∈ g, P op := by
  induction ops generalizing group with
  | nil =>
    rw [groupsFrom] at hg
    split at hg
    case isTrue => cases hg
    case isFalse =>
      obtain rfl := List.mem_singleton.1 hg
      simpa using hall
  | cons op ops ih =>
    rw [groupsFrom] at hg
    split at hg
    case isTrue hlong =>
      rw [isLong, Bool.and_eq_true, decide_eq_true_eq] at hlong
      rcases List.mem_cons.1 hg with rfl | hg
      · intro x hx
        rcases List.mem_append.1 hx with hx | hx
        · exact hall x (List.mem_append_left _ hx)
        · rw [List.mem_singleton.1 hx]
          exact hopening op hlong.1
      · refine ih (fun x hx => ?_) hg
        rcases List.mem_append.1 hx with hx | hx
        · rw [List.mem_singleton.1 hx]
          exact hclosing op hlong.1
        · exact hall x (List.mem_append_right _ (List.mem_cons_of_mem _ hx))
    case isFalse => exact ih (by simpa using hall) hg

theorem Walk.tags (h : Walk a b i j ops) : ∀ op ∈ ops,
    (op.tag = .delete → op.j₁ = op.j₂) ∧ (op.tag = .insert → op.i₁ = op.i₂) := by
  induction h with
  | nil => simp
  | cons _ _ _ hdelete hinsert _ ih =>
    exact List.forall_mem_cons.2 ⟨⟨hdelete, hinsert⟩, ih⟩

theorem framing_notMem_shownOf {row : Text} : .framing row ∉ shownOf a b op := by
  unfold shownOf
  split
  case isTrue => simp
  case isFalse => simp

theorem row_shownGroups {groups : List (List Opcode)}
    (h : ∀ g ∈ groups, ∀ op ∈ g,
      (op.tag = .delete → op.j₁ = op.j₂) ∧ (op.tag = .insert → op.i₁ = op.i₂)) :
    (shownGroups a b groups).map Shown.row = groups.flatMap (hunk a b) := by
  unfold shownGroups
  rw [List.map_flatMap]
  apply List.flatMap_congr
  intro g hg
  rw [List.map_cons, List.map_flatMap, hunk]
  congr 1
  apply List.flatMap_congr
  intro op hop
  exact row_shownOf (h g hg op hop).1 (h g hg op hop).2

/-- The opcodes the groups are made of. -/
def trimmedCodes (n : Nat) (codes : List Opcode) : List Opcode :=
  trimLast n (trimFirst n
    (if codes.isEmpty then [⟨.equal, 0, 1, 0, 1⟩] else codes))

theorem changesOf_trimmedCodes :
    changesOf a b (trimmedCodes n ops) = changesOf a b ops := by
  rw [trimmedCodes, changesOf_trimLast, changesOf_trimFirst]
  cases ops with
  | nil => rfl
  | cons op ops => rfl

theorem groupedOpcodes_equal (htrimmed : trimmedCodes n ops = [op])
    (hop : op.tag = .equal) : groupedOpcodes n ops = [] := by
  have hshort : isLong n op = false := by
    apply last_trimLast (n := n)
    rw [← trimmedCodes, htrimmed]
    rfl
  have hgroups : groupedOpcodes n ops = groupsFrom n [] (trimmedCodes n ops) := rfl
  rw [hgroups, htrimmed, groupsFrom, hshort, if_neg Bool.false_ne_true, groupsFrom]
  simp [hop]

theorem prints_trimmedCodes
    (hno : ¬ ∃ op, trimmedCodes n ops = [op] ∧ op.tag = .equal) :
    ops ≠ [] ∧ Prints n (trimmedCodes n ops) := by
  have hne : ops ≠ [] := by
    rintro rfl
    exact hno ⟨_, rfl, rfl⟩
  refine ⟨hne, trimLast_ne_nil ?_, fun op hop heq => hno ⟨op, hop, heq⟩,
    fun _ => last_trimLast⟩
  obtain ⟨op, rest, rfl⟩ := List.exists_cons_of_ne_nil hne
  rw [if_neg (by simp), trimFirst]
  split <;> exact List.cons_ne_nil _ _

theorem shown_unifiedDiff {opcodes : List Text → List Text → List Opcode}
    {fromFile toFile : Text} (ha : Lined a) (hb : Lined b)
    (hfrom : Framing ("--- ".toList ++ fromFile ++ "\n".toList))
    (hto : Framing ("+++ ".toList ++ toFile ++ "\n".toList))
    (h : Paired (opcodes a b) a b) :
    ∃ shown : List Shown,
      unifiedDiff opcodes a b fromFile toFile n = shown.map Shown.row
        ∧ shown.filterMap Shown.change? = changesOf a b (opcodes a b)
        ∧ Tight shown
        ∧ ∀ s ∈ shown, s.Of a b ∧ ∀ row, s = .framing row → Framing row := by
  have hwalk := walk_of_aligns h.1 h.2
  unfold unifiedDiff
  generalize opcodes a b = codes at h hwalk ⊢
  rw [← changesOf_trimmedCodes (n := n)]
  by_cases hsingle : ∃ op, trimmedCodes n codes = [op] ∧ op.tag = .equal
  · obtain ⟨op, htrimmed, hop⟩ := hsingle
    refine ⟨[], ?_, ?_, trivial, by simp⟩
    · rw [groupedOpcodes_equal htrimmed hop]
      rfl
    · rw [htrimmed, changesOf_equal hop]
      rfl
  · obtain ⟨hne, hprints⟩ := prints_trimmedCodes hsingle
    obtain ⟨x, y, hwalk⟩ : ∃ x y, Walk a b x y (trimmedCodes n codes) := by
      obtain ⟨x, y, hfirst⟩ := hwalk.trimFirst (n := n)
      refine ⟨x, y, ?_⟩
      unfold trimmedCodes
      rw [if_neg (by simpa using hne)]
      exact hfirst.trimLast
    have hgroups : groupedOpcodes n codes
        = groupsFrom n [] (trimmedCodes n codes) := rfl
    have hprints : Prints n ([] ++ trimmedCodes n codes) := hprints
    have hshown : shownGroups a b (groupedOpcodes n codes) = _ :=
      shownGroups_from hprints
    rw [List.flatMap_nil, List.nil_append] at hshown
    have hrows : (shownGroups a b (groupedOpcodes n codes)).map Shown.row
        = (groupedOpcodes n codes).flatMap (hunk a b) := by
      apply row_shownGroups
      intro g hg
      rw [hgroups] at hg
      refine mem_mem_groupsFrom (fun op heq => ⟨fun hdelete => ?_, fun hinsert => ?_⟩)
        (fun op heq => ⟨fun hdelete => ?_, fun hinsert => ?_⟩)
        (by simpa using hwalk.tags) hg
      · exact absurd (heq.symm.trans hdelete) (by decide)
      · exact absurd (heq.symm.trans hinsert) (by decide)
      · exact absurd (heq.symm.trans hdelete) (by decide)
      · exact absurd (heq.symm.trans hinsert) (by decide)
    have hframing : ∀ row,
        .framing row ∈ shownGroups a b (groupedOpcodes n codes) → Framing row := by
      intro row hrow
      obtain ⟨g, hg, hrow⟩ := List.mem_flatMap.1 hrow
      rcases List.mem_cons.1 hrow with heq | hrow
      · rw [Shown.framing.inj heq]
        exact framing_hunkHeader (mem_groupsFrom hg)
      · obtain ⟨op, -, hrow⟩ := List.mem_flatMap.1 hrow
        exact absurd hrow framing_notMem_shownOf
    refine ⟨.framing ("--- ".toList ++ fromFile ++ "\n".toList)
      :: .framing ("+++ ".toList ++ toFile ++ "\n".toList)
      :: shownGroups a b (groupedOpcodes n codes), ?_, ?_, ?_, ?_⟩
    · rw [List.map_cons, List.map_cons, hrows]
      split
      case h_1 hnil =>
        rw [hnil] at hshown
        cases hshown
      case h_2 => rfl
    · rw [List.filterMap_cons_none rfl, List.filterMap_cons_none rfl, hshown,
        List.filterMap_cons_none rfl, changes_shownFrom]
      rfl
    · rw [hshown]
      exact ⟨fun hs => absurd hs (by simp [Shown.ended]),
        fun hs => absurd hs (by simp [Shown.ended]),
        fun hs => absurd hs (by simp [Shown.ended]), hwalk.tight ha hb⟩
    · intro s hs
      rcases List.mem_cons.1 hs with rfl | hs
      · exact ⟨trivial, fun row heq => Shown.framing.inj heq ▸ hfrom⟩
      rcases List.mem_cons.1 hs with rfl | hs
      · exact ⟨trivial, fun row heq => Shown.framing.inj heq ▸ hto⟩
      refine ⟨?_, fun row heq => hframing row (heq ▸ hs)⟩
      rw [hshown] at hs
      rcases List.mem_cons.1 hs with rfl | hs
      · trivial
      · exact hwalk.shown_of s hs

end MemoryOS.Evolution
