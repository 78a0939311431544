/-
Tables that keep what they held: rows open at one instant, may be closed
at a later one, and are never taken out.

A row of a key is visible at an instant when it is the newest of its key
that had opened by then and had not been closed by then. Writes recorded
after an instant change nothing that is visible at it, although they
overwrite columns (`Writes.shows`); and at an instant no write is later
than, what is visible is what is current and open (`Kept.shows_now`). So
of a path of commits recorded in increasing order, what is visible at any
instant is what was current and open right after the last commit recorded
by then (`shows_path`).
-/
import Mathlib.Data.List.Chain
import Mathlib.Data.List.Nodup
import Mathlib.Order.Lattice

namespace MemoryOS.Lib.Timeline

/-- The columns a row is placed in time by. -/
structure Columns (ρ κ τ : Type) where
  key : ρ → κ
  opened : ρ → τ
  closed : ρ → Option τ
  current : ρ → Bool

/-- The columns of what a row shows. -/
def Columns.comap {ρ ρ₁ κ τ : Type} (C : Columns ρ κ τ) (f : ρ₁ → ρ) :
    Columns ρ₁ κ τ where
  key := C.key ∘ f
  opened := C.opened ∘ f
  closed := C.closed ∘ f
  current := C.current ∘ f

variable {ρ ρ₁ κ τ ν σ : Type} [LinearOrder τ] {C : Columns ρ κ τ}
  {rows rows' : List ρ} {times : List τ} {t at_ : τ} {name : ρ → ν} {n : ν}
  {x y : ρ}

/-- The newest row of its key that had opened by an instant, and was not
closed by then. -/
structure Visible (C : Columns ρ κ τ) (rows : List ρ) (at_ : τ) (x : ρ) :
    Prop where
  opened : C.opened x ≤ at_
  newest : ∀ y ∈ rows, C.key y = C.key x → C.opened y ≤ at_ →
    C.opened y ≤ C.opened x
  open_ : ∀ d ∈ C.closed x, at_ < d

/-- A row of this name is visible at an instant. -/
def Shows (C : Columns ρ κ τ) (name : ρ → ν) (rows : List ρ) (at_ : τ)
    (n : ν) : Prop :=
  ∃ x ∈ rows, Visible C rows at_ x ∧ name x = n

/-- A row of this name is current and open. -/
def Open (C : Columns ρ κ τ) (name : ρ → ν) (rows : List ρ) (n : ν) : Prop :=
  ∃ x ∈ rows, C.current x = true ∧ C.closed x = none ∧ name x = n

theorem visible_map {f : ρ₁ → ρ} {rows : List ρ₁} {x : ρ₁} :
    Visible (C.comap f) rows at_ x ↔ Visible C (rows.map f) at_ (f x) := by
  constructor
  · rintro ⟨ho, hn, hc⟩
    refine ⟨ho, fun y hy hk hle => ?_, hc⟩
    obtain ⟨z, hz, rfl⟩ := List.mem_map.mp hy
    exact hn z hz hk hle
  · rintro ⟨ho, hn, hc⟩
    exact ⟨ho, fun y hy hk hle => hn (f y) (List.mem_map_of_mem hy) hk hle, hc⟩

theorem shows_map {f : ρ₁ → ρ} {rows : List ρ₁} :
    Shows C name (rows.map f) at_ n
      ↔ Shows (C.comap f) (name ∘ f) rows at_ n := by
  constructor
  · rintro ⟨_, hx, hv, hn⟩
    obtain ⟨z, hz, rfl⟩ := List.mem_map.mp hx
    exact ⟨z, hz, visible_map.mpr hv, hn⟩
  · rintro ⟨z, hz, hv, hn⟩
    exact ⟨f z, List.mem_map_of_mem hz, visible_map.mp hv, hn⟩

-- ====== what is kept

/-- Rows opened and closed at recorded times, one for each key and time,
the newest of a key being its current one. -/
structure Kept (C : Columns ρ κ τ) (times : List τ) (rows : List ρ) :
    Prop where
  opened : ∀ x ∈ rows, C.opened x ∈ times
  closed : ∀ x ∈ rows, ∀ d ∈ C.closed x, d ∈ times
  apart : (rows.map fun x => (C.key x, C.opened x)).Nodup
  current : ∀ x ∈ rows, C.current x = true ↔
    ∀ y ∈ rows, C.key y = C.key x → C.opened y ≤ C.opened x

theorem Kept.nil : Kept C times [] := by
  constructor <;> simp

theorem Kept.shows_now (h : Kept C times rows) (hat : ∀ u ∈ times, u ≤ at_) :
    Shows C name rows at_ n ↔ Open C name rows n := by
  constructor
  · rintro ⟨x, hx, hv, hn⟩
    refine ⟨x, hx, ?_, ?_, hn⟩
    · exact (h.current x hx).mpr fun y hy hk =>
        hv.newest y hy hk (hat _ (h.opened y hy))
    · cases hc : C.closed x with
      | none => rfl
      | some d =>
        have hle := hat d (h.closed x hx d hc)
        exact absurd (hv.open_ d hc) (not_lt_of_ge hle)
  · rintro ⟨x, hx, hcur, hopen, hn⟩
    refine ⟨x, hx, ⟨hat _ (h.opened x hx), fun y hy hk _ =>
      (h.current x hx).mp hcur y hy hk, fun d hd => ?_⟩, hn⟩
    rw [hopen] at hd
    cases hd

-- ======= one write

/-- What one write recorded at `t` does: open a row, taking the place of
its key's current one, or close a key's current row. -/
inductive Writes (C : Columns ρ κ τ) (name : ρ → ν) (t : τ)
    (rows : List ρ) : List ρ → Prop
  | opens (x : ρ) (retire : ρ → ρ) (ho : C.opened x = t)
      (hc : C.closed x = none) (hcur : C.current x = true)
      (hkey : ∀ y ∈ rows, C.key (retire y) = C.key y)
      (hopened : ∀ y ∈ rows, C.opened (retire y) = C.opened y)
      (hclosed : ∀ y ∈ rows, C.closed (retire y) = C.closed y)
      (hname : ∀ y ∈ rows, name (retire y) = name y)
      (hretire : ∀ y ∈ rows, C.current (retire y) = true
        ↔ C.current y = true ∧ C.key y ≠ C.key x) :
      Writes C name t rows (rows.map retire ++ [x])
  | closes (close : ρ → ρ)
      (hkey : ∀ y ∈ rows, C.key (close y) = C.key y)
      (hopened : ∀ y ∈ rows, C.opened (close y) = C.opened y)
      (hcur : ∀ y ∈ rows, C.current (close y) = C.current y)
      (hname : ∀ y ∈ rows, name (close y) = name y)
      (hclosed : ∀ y ∈ rows, C.closed (close y) = C.closed y
        ∨ C.closed y = none ∧ C.closed (close y) = some t) :
      Writes C name t rows (rows.map close)

theorem visible_overwrite {f : ρ → ρ}
    (hkey : ∀ y ∈ rows, C.key (f y) = C.key y)
    (hopened : ∀ y ∈ rows, C.opened (f y) = C.opened y)
    (hclosed : ∀ y ∈ rows, C.closed (f y) = C.closed y
      ∨ C.closed y = none ∧ C.closed (f y) = some t)
    (hat : at_ < t) (hx : x ∈ rows) :
    Visible C (rows.map f) at_ (f x) ↔ Visible C rows at_ x := by
  constructor
  · rintro ⟨ho, hn, hc⟩
    rw [hopened x hx] at ho
    refine ⟨ho, fun y hy hk hle => ?_, fun d hd => ?_⟩
    · have hfy := hn (f y) (List.mem_map_of_mem hy)
        (by rw [hkey y hy, hkey x hx, hk]) (by rwa [hopened y hy])
      rwa [hopened y hy, hopened x hx] at hfy
    · rcases hclosed x hx with heq | ⟨hnone, -⟩
      · exact hc d (by rwa [heq])
      · rw [hnone] at hd
        cases hd
  · rintro ⟨ho, hn, hc⟩
    refine ⟨by rwa [hopened x hx], fun y hy hk hle => ?_, fun d hd => ?_⟩
    · obtain ⟨z, hz, rfl⟩ := List.mem_map.mp hy
      rw [hkey z hz, hkey x hx] at hk
      rw [hopened z hz] at hle ⊢
      rw [hopened x hx]
      exact hn z hz hk hle
    · rcases hclosed x hx with heq | ⟨-, hsome⟩
      · exact hc d (by rwa [← heq])
      · rw [hsome] at hd
        cases hd
        exact hat

theorem visible_append (ho : at_ < C.opened y) :
    Visible C (rows ++ [y]) at_ x ↔ Visible C rows at_ x := by
  constructor
  · exact fun h => ⟨h.opened, fun z hz => h.newest z
      (List.mem_append_left [y] hz), h.open_⟩
  · refine fun h => ⟨h.opened, fun z hz hk hle => ?_, h.open_⟩
    rcases List.mem_append.mp hz with hz | hz
    · exact h.newest z hz hk hle
    · rw [List.mem_singleton.mp hz] at hle
      exact absurd ho (not_lt_of_ge hle)

theorem Writes.shows (h : Writes C name t rows rows') (hat : at_ < t) :
    Shows C name rows' at_ n ↔ Shows C name rows at_ n := by
  cases h with
  | opens x retire ho hc hcur hkey hopened hclosed hname hretire =>
    have hlate : at_ < C.opened x := by rwa [ho]
    have hover : ∀ y ∈ rows, Visible C (rows.map retire ++ [x]) at_ (retire y)
        ↔ Visible C rows at_ y := fun y hy =>
      (visible_append hlate).trans
        (visible_overwrite hkey hopened (fun z hz => .inl (hclosed z hz))
          hat hy)
    constructor
    · rintro ⟨z, hz, hv, hn⟩
      rcases List.mem_append.mp hz with hz | hz
      · obtain ⟨y, hy, rfl⟩ := List.mem_map.mp hz
        exact ⟨y, hy, (hover y hy).mp hv, (hname y hy).symm.trans hn⟩
      · rw [List.mem_singleton.mp hz] at hv
        exact absurd hlate (not_lt_of_ge hv.opened)
    · rintro ⟨y, hy, hv, hn⟩
      exact ⟨retire y, List.mem_append_left _ (List.mem_map_of_mem hy),
        (hover y hy).mpr hv, (hname y hy).trans hn⟩
  | closes close hkey hopened hcur hname hclosed =>
    constructor
    · rintro ⟨z, hz, hv, hn⟩
      obtain ⟨y, hy, rfl⟩ := List.mem_map.mp hz
      exact ⟨y, hy, (visible_overwrite hkey hopened hclosed hat hy).mp hv,
        (hname y hy).symm.trans hn⟩
    · rintro ⟨y, hy, hv, hn⟩
      exact ⟨close y, List.mem_map_of_mem hy,
        (visible_overwrite hkey hopened hclosed hat hy).mpr hv,
        (hname y hy).trans hn⟩

omit [LinearOrder τ] in
theorem keys_overwrite {f : ρ → ρ}
    (hkey : ∀ y ∈ rows, C.key (f y) = C.key y)
    (hopened : ∀ y ∈ rows, C.opened (f y) = C.opened y) :
    ((rows.map f).map fun x => (C.key x, C.opened x))
      = rows.map fun x => (C.key x, C.opened x) := by
  rw [List.map_map]
  refine List.map_congr_left fun y hy => ?_
  rw [Function.comp_apply, hkey y hy, hopened y hy]

theorem Writes.kept (hw : Writes C name t rows rows')
    (h : Kept C times rows) (hlast : ∀ u ∈ times, u < t) :
    Kept C (times ++ [t]) rows' := by
  have hearlier : ∀ y ∈ rows, C.opened y < t := fun y hy =>
    hlast _ (h.opened y hy)
  cases hw with
  | opens x retire ho hc hcur hkey hopened hclosed hname hretire =>
    constructor
    · intro z hz
      rcases List.mem_append.mp hz with hz | hz
      · obtain ⟨y, hy, rfl⟩ := List.mem_map.mp hz
        rw [hopened y hy]
        exact List.mem_append_left _ (h.opened y hy)
      · rw [List.mem_singleton.mp hz, ho]
        exact List.mem_append_right _ List.mem_cons_self
    · intro z hz d hd
      rcases List.mem_append.mp hz with hz | hz
      · obtain ⟨y, hy, rfl⟩ := List.mem_map.mp hz
        rw [hclosed y hy] at hd
        exact List.mem_append_left _ (h.closed y hy d hd)
      · rw [List.mem_singleton.mp hz, hc] at hd
        cases hd
    · rw [List.map_append, keys_overwrite hkey hopened]
      refine List.nodup_append.mpr ⟨h.apart, List.nodup_singleton _, ?_⟩
      intro p hp q hq heq
      obtain ⟨y, hy, rfl⟩ := List.mem_map.mp hp
      rw [List.map_singleton, List.mem_singleton] at hq
      rw [hq, Prod.mk.injEq, ho] at heq
      exact absurd (hearlier y hy) (heq.2 ▸ lt_irrefl _)
    · intro z hz
      rcases List.mem_append.mp hz with hz | hz
      · obtain ⟨y, hy, rfl⟩ := List.mem_map.mp hz
        rw [hretire y hy, h.current y hy, hkey y hy, hopened y hy]
        constructor
        · rintro ⟨hn, hne⟩ w hw hk
          rcases List.mem_append.mp hw with hw | hw
          · obtain ⟨v, hv, rfl⟩ := List.mem_map.mp hw
            rw [hkey v hv] at hk
            rw [hopened v hv]
            exact hn v hv hk
          · rw [List.mem_singleton.mp hw] at hk
            exact absurd hk.symm hne
        · intro hn
          refine ⟨fun v hv hk => ?_, fun hk => ?_⟩
          · have := hn (retire v)
              (List.mem_append_left _ (List.mem_map_of_mem hv))
              (by rw [hkey v hv, hk])
            rwa [hopened v hv] at this
          · have := hn x (List.mem_append_right _ List.mem_cons_self) hk.symm
            rw [ho] at this
            exact absurd (hearlier y hy) (not_lt_of_ge this)
      · rw [List.mem_singleton.mp hz]
        refine ⟨fun _ w hw _ => ?_, fun _ => hcur⟩
        rcases List.mem_append.mp hw with hw | hw
        · obtain ⟨v, hv, rfl⟩ := List.mem_map.mp hw
          rw [hopened v hv, ho]
          exact le_of_lt (hearlier v hv)
        · rw [List.mem_singleton.mp hw]
  | closes close hkey hopened hcur hname hclosed =>
    constructor
    · intro z hz
      obtain ⟨y, hy, rfl⟩ := List.mem_map.mp hz
      rw [hopened y hy]
      exact List.mem_append_left _ (h.opened y hy)
    · intro z hz d hd
      obtain ⟨y, hy, rfl⟩ := List.mem_map.mp hz
      rcases hclosed y hy with heq | ⟨-, hsome⟩
      · rw [heq] at hd
        exact List.mem_append_left _ (h.closed y hy d hd)
      · rw [hsome] at hd
        cases hd
        exact List.mem_append_right _ List.mem_cons_self
    · rw [keys_overwrite hkey hopened]
      exact h.apart
    · intro z hz
      obtain ⟨y, hy, rfl⟩ := List.mem_map.mp hz
      rw [hcur y hy, h.current y hy, hkey y hy, hopened y hy]
      constructor
      · intro hn w hw hk
        obtain ⟨v, hv, rfl⟩ := List.mem_map.mp hw
        rw [hkey v hv] at hk
        rw [hopened v hv]
        exact hn v hv hk
      · intro hn v hv hk
        have := hn (close v) (List.mem_map_of_mem hv) (by rw [hkey v hv, hk])
        rwa [hopened v hv] at this

-- ====== paths of commits

/-- One commit: nothing recorded and no row rewritten, or one write. -/
inductive Commit (C : Columns ρ κ τ) (name : ρ → ν) (rowsOf : σ → List ρ)
    (timesOf : σ → List τ) (s s' : σ) : Prop
  | quiet (hrows : rowsOf s' = rowsOf s) (htimes : timesOf s' = timesOf s)
  | writes (t : τ) (htimes : timesOf s' = timesOf s ++ [t])
      (hwrite : Writes C name t (rowsOf s) (rowsOf s'))

/-- Where a path is right after the last commit recorded at or before an
instant: the state before the first commit recorded later. -/
def rightAfter (timesOf : σ → List τ) (at_ : τ) : σ → List σ → σ
  | s, [] => s
  | s, s' :: rest =>
    if (timesOf s').all fun u => decide (u ≤ at_) then
      rightAfter timesOf at_ s' rest
    else s

theorem getLastD_append (a b : List σ) (s : σ) :
    (a ++ b).getLastD s = b.getLastD (a.getLastD s) := by
  induction a generalizing s with
  | nil => rfl
  | cons x rest ih =>
    rw [List.cons_append, List.getLastD_cons, List.getLastD_cons, ih]

theorem chain_append {R : σ → σ → Prop} {a b : List σ} {s : σ}
    (ha : (s :: a).IsChain R) (hb : (a.getLastD s :: b).IsChain R) :
    (s :: (a ++ b)).IsChain R := by
  induction a generalizing s with
  | nil => exact hb
  | cons x rest ih =>
    rw [List.isChain_cons_cons] at ha
    rw [List.getLastD_cons] at hb
    exact List.isChain_cons_cons.mpr ⟨ha.1, ih ha.2 hb⟩

variable {rowsOf : σ → List ρ} {timesOf : σ → List τ} {s s' : σ}
  {path : List σ}

omit [LinearOrder τ] in
theorem Commit.recorded_stays (h : Commit C name rowsOf timesOf s s') :
    timesOf s <+: timesOf s' := by
  cases h with
  | quiet _ htimes => exact htimes ▸ List.prefix_rfl
  | writes t htimes _ =>
    rw [htimes]
    exact List.prefix_append _ _

omit [LinearOrder τ] in
theorem path_recorded_stays
    (h : (s :: path).IsChain (Commit C name rowsOf timesOf)) :
    timesOf s <+: timesOf (path.getLastD s) := by
  induction path generalizing s with
  | nil => exact List.prefix_rfl
  | cons s' rest ih =>
    rw [List.isChain_cons_cons] at h
    rw [List.getLastD_cons]
    exact h.1.recorded_stays.trans (ih h.2)

theorem Commit.kept (h : Commit C name rowsOf timesOf s s')
    (hk : Kept C (timesOf s) (rowsOf s))
    (hinc : (timesOf s').Pairwise (· < ·)) :
    Kept C (timesOf s') (rowsOf s') := by
  cases h with
  | quiet hrows htimes => rwa [hrows, htimes]
  | writes t htimes hwrite =>
    rw [htimes] at hinc ⊢
    refine hwrite.kept hk fun u hu => ?_
    exact (List.pairwise_append.mp hinc).2.2 u hu t List.mem_cons_self

theorem path_kept
    (h : (s :: path).IsChain (Commit C name rowsOf timesOf))
    (hk : Kept C (timesOf s) (rowsOf s))
    (hinc : (timesOf (path.getLastD s)).Pairwise (· < ·)) :
    Kept C (timesOf (path.getLastD s)) (rowsOf (path.getLastD s)) := by
  induction path generalizing s with
  | nil => exact hk
  | cons s' rest ih =>
    rw [List.isChain_cons_cons] at h
    rw [List.getLastD_cons] at hinc ⊢
    have hs' := hinc.sublist (path_recorded_stays h.2).sublist
    exact ih h.2 (h.1.kept hk hs') hinc

theorem shows_later
    (h : (s :: path).IsChain (Commit C name rowsOf timesOf))
    (hlater : ∀ u ∈ (timesOf (path.getLastD s)).drop (timesOf s).length,
      at_ < u) :
    Shows C name (rowsOf (path.getLastD s)) at_ n
      ↔ Shows C name (rowsOf s) at_ n := by
  induction path generalizing s with
  | nil => exact Iff.rfl
  | cons s' rest ih =>
    rw [List.isChain_cons_cons] at h
    rw [List.getLastD_cons] at hlater ⊢
    obtain ⟨more, hmore⟩ := path_recorded_stays h.2
    cases h.1 with
    | quiet hrows htimes =>
      rw [← htimes] at hlater
      rw [ih h.2 hlater, hrows]
    | writes t htimes hwrite =>
      rw [← hmore, htimes, List.append_assoc, List.drop_left] at hlater
      have hrest : ∀ u ∈ (timesOf (rest.getLastD s')).drop
          (timesOf s').length, at_ < u := by
        rw [← hmore, List.drop_left]
        exact fun u hu => hlater u (List.mem_append_right [t] hu)
      rw [ih h.2 hrest]
      exact hwrite.shows (hlater t List.mem_cons_self)

/-- Of a path of commits recorded in increasing order, what is visible at
an instant is what was current and open right after the last commit
recorded by then. -/
theorem shows_path (at_ : τ) (n : ν)
    (h : (s :: path).IsChain (Commit C name rowsOf timesOf))
    (hk : Kept C (timesOf s) (rowsOf s))
    (hinc : (timesOf (path.getLastD s)).Pairwise (· < ·))
    (hs : ∀ u ∈ timesOf s, u ≤ at_) :
    Shows C name (rowsOf (path.getLastD s)) at_ n
      ↔ Open C name (rowsOf (rightAfter timesOf at_ s path)) n := by
  induction path generalizing s with
  | nil => exact hk.shows_now hs
  | cons s' rest ih =>
    have hpath := h
    rw [List.isChain_cons_cons] at h
    obtain ⟨more, hmore⟩ := path_recorded_stays h.2
    have hinc' := hinc
    rw [List.getLastD_cons, ← hmore] at hinc'
    have hs' := (List.pairwise_append.mp hinc').1
    unfold rightAfter
    split
    case isTrue hall =>
      rw [List.getLastD_cons] at hinc ⊢
      refine ih h.2 (h.1.kept hk hs') hinc fun u hu => ?_
      exact of_decide_eq_true (List.all_eq_true.mp hall u hu)
    case isFalse hlate =>
      -- the commit recorded something later, and so did those after it
      rw [shows_later hpath ?_, hk.shows_now hs]
      rw [List.getLastD_cons, ← hmore]
      cases h.1 with
      | quiet _ htimes =>
        refine absurd (List.all_eq_true.mpr fun u hu => ?_) hlate
        rw [htimes] at hu
        exact decide_eq_true (hs u hu)
      | writes t htimes _ =>
        have hat : at_ < t := by
          refine lt_of_not_ge fun hle => hlate ?_
          rw [htimes, List.all_append, Bool.and_eq_true, List.all_eq_true]
          exact ⟨fun u hu => decide_eq_true (hs u hu), by simpa using hle⟩
        rw [htimes, List.append_assoc, List.drop_left]
        intro u hu
        rcases List.mem_cons.mp hu with rfl | hu
        · exact hat
        · have hmem : t ∈ timesOf s' := by
            rw [htimes]
            exact List.mem_append_right _ List.mem_cons_self
          exact hat.trans ((List.pairwise_append.mp hinc').2.2 t hmem u hu)

end MemoryOS.Lib.Timeline
