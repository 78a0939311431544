/-
What the log says the corpus is.

`corpusOf` folds the log into the rows of `memories`, up to the columns a
pipeline stage fills in and the ids a writer mints. It is a statement of
purpose, not a translation: the live writers and the replay are both
compared with it.

# Versions

An observation supersedes the item's current row and adds the next
version; a deletion stamps the current row; a purge removes the item, so
the next observation starts again at version 1.
-/
import Mathlib.Data.List.Induction
import MemoryOS.Corpus.Deletion
import MemoryOS.Lib.KeyedLog

namespace MemoryOS

/-- A row of `memories` up to the columns a rebuild may mint or refill. -/
structure MemoryView where
  sourceId : Id
  externalKey : String
  version : Nat
  isCurrent : Bool
  contentHash : ContentHash
  deletedAt : Option Timestamp
  ingestedAt : Timestamp
deriving DecidableEq, Repr

/-- The view of a row. -/
def Memory.view (m : Memory) : MemoryView where
  sourceId := m.sourceId
  externalKey := m.externalKey
  version := m.version
  isCurrent := m.isCurrent
  contentHash := m.contentHash
  deletedAt := m.deletedAt
  ingestedAt := m.ingestedAt

namespace Projection

/-- The item a viewed row is a version of. -/
def item (v : MemoryView) : Item := ⟨v.sourceId, v.externalKey⟩

/-- The current version of an item. -/
def currentOf (i : Item) (v : MemoryView) : Bool :=
  decide (item v = i) && v.isCurrent

/-- The row stops being current. -/
def superseded (v : MemoryView) : MemoryView := { v with isCurrent := false }

/-- The row an observation adds. -/
def observed (e : IngestionEvent) (hash : ContentHash) (version : Nat) :
    MemoryView where
  sourceId := e.sourceId
  externalKey := e.externalKey
  version := version
  isCurrent := true
  contentHash := hash
  deletedAt := none
  ingestedAt := e.recordedAt

/-- An observation with content. -/
def observe (rows : List MemoryView) (e : IngestionEvent)
    (hash : ContentHash) : List MemoryView :=
  match rows.find? (currentOf e.item) with
  | none => rows ++ [observed e hash 1]
  | some current =>
    (rows.map fun v => if currentOf e.item v then superseded v else v)
      ++ [observed e hash (current.version + 1)]

/-- One event. -/
def apply (rows : List MemoryView) (e : IngestionEvent) : List MemoryView :=
  match e.eventType with
  | .artifactObserved =>
    match e.contentHash with
    | none => rows
    | some hash => observe rows e hash
  | .itemDeleted =>
    rows.map fun v =>
      if currentOf e.item v then { v with deletedAt := some e.recordedAt }
      else v
  | .itemPurged => rows.filter fun v => decide (item v ≠ e.item)

/-- The corpus a log describes. -/
def corpusOf (log : List IngestionEvent) : List MemoryView :=
  log.foldl apply []

open Lib KeyedLog

variable {rows : List MemoryView} {e : IngestionEvent} {i : Item}

theorem rowsOf_map_current {f : MemoryView → MemoryView}
    (hf : ∀ v, item (f v) = item v) (k : Item) :
    rowsOf item k (rows.map fun v => if currentOf i v then f v else v)
      = (rowsOf item k rows).map fun v => if currentOf i v then f v else v := by
  unfold rowsOf
  rw [List.filter_map]
  congr 1
  refine List.filter_congr fun v _ => ?_
  by_cases hc : currentOf i v = true <;> simp [Function.comp, hc, hf]

theorem map_current_other {f : MemoryView → MemoryView} {k : Item}
    (hk : k ≠ i) :
    ((rowsOf item k rows).map fun v => if currentOf i v then f v else v)
      = rowsOf item k rows := by
  refine (List.map_congr_left fun v hv => ?_).trans (List.map_id _)
  have hv' : item v = k := by
    simpa [rowsOf] using (List.mem_filter.mp hv).2
  have hno : currentOf i v = false := by
    simp [currentOf, hv', hk]
  simp [hno]

theorem find_current_rowsOf :
    (rowsOf item i rows).find? (currentOf i) = rows.find? (currentOf i) := by
  unfold rowsOf
  rw [List.find?_filter]
  congr 1
  funext v
  by_cases hv : item v = i <;> simp [currentOf, hv]

theorem rowsOf_append {a b : List MemoryView} (k : Item) :
    rowsOf item k (a ++ b) = rowsOf item k a ++ rowsOf item k b :=
  List.filter_append a b

theorem rowsOf_observed {hash : ContentHash} {n : Nat} (k : Item) :
    rowsOf item k [observed e hash n]
      = if k = e.item then [observed e hash n] else [] := by
  have hitem : item (observed e hash n) = e.item := rfl
  by_cases hk : k = e.item
  · simp [rowsOf, hitem, hk]
  · simp [rowsOf, hitem, hk, Ne.symm hk]

theorem apply_local :
    KeyedLog.Local item IngestionEvent.item apply := by
  constructor
  · intro rows e
    unfold apply
    cases ht : e.eventType with
    | artifactObserved =>
      cases hh : e.contentHash with
      | none => rfl
      | some hash =>
        simp only
        unfold observe
        rw [find_current_rowsOf]
        cases hc : rows.find? (currentOf e.item) with
        | none =>
          simp only [rowsOf_append, rowsOf_observed, ↓reduceIte]
        | some c =>
          simp only [rowsOf_append, rowsOf_observed, ↓reduceIte]
          rw [rowsOf_map_current (fun v => by rfl)]
    | itemDeleted =>
      exact rowsOf_map_current (fun v => by rfl) e.item
    | itemPurged =>
      simp only [rowsOf, List.filter_filter]
      refine List.filter_congr fun v _ => ?_
      rw [Bool.and_comm]
  · intro rows e k hk
    unfold apply
    cases ht : e.eventType with
    | artifactObserved =>
      cases hh : e.contentHash with
      | none => rfl
      | some hash =>
        simp only
        unfold observe
        cases hc : rows.find? (currentOf e.item) with
        | none =>
          simp only [rowsOf_append, rowsOf_observed, if_neg hk,
            List.append_nil]
        | some c =>
          simp only [rowsOf_append, rowsOf_observed, if_neg hk,
            List.append_nil]
          rw [rowsOf_map_current (fun v => by rfl),
            map_current_other hk]
    | itemDeleted =>
      simp only
      rw [rowsOf_map_current (fun v => by rfl), map_current_other hk]
    | itemPurged =>
      simp only [rowsOf, List.filter_filter]
      refine List.filter_congr fun v _ => ?_
      by_cases hv : item v = k <;> simp [hv, hk]

-- ====== what a key keeps

theorem apply_observed_ne_nil {hash : ContentHash}
    (ht : e.eventType = .artifactObserved) (hh : e.contentHash = some hash) :
    apply rows e ≠ [] := by
  unfold apply observe
  simp only [ht, hh]
  split <;> simp

theorem concat_split {α : Type} {log pre post : List α} {last e : α}
    (h : log ++ [last] = pre ++ e :: post) :
    (post = [] ∧ last = e) ∨
      ∃ post', post = post' ++ [last] ∧ log = pre ++ e :: post' := by
  rcases List.eq_nil_or_concat post with rfl | ⟨post', l, rfl⟩
  · have hl := (List.append_inj' h rfl).2
    exact .inl ⟨rfl, by simpa using hl⟩
  · rw [List.concat_eq_append] at h ⊢
    rw [← List.cons_append, ← List.append_assoc] at h
    obtain ⟨hlog, hl⟩ := List.append_inj' h rfl
    obtain rfl : last = l := by simpa using hl
    exact .inr ⟨post', rfl, hlog⟩

theorem foldl_eq_nil_iff {log : List IngestionEvent}
    (hkey : ∀ e ∈ log, e.item = i)
    (hcontent : ∀ e ∈ log, e.eventType = .artifactObserved →
      e.contentHash.isSome) :
    log.foldl apply [] = [] ↔
      ∀ pre e post, log = pre ++ e :: post →
        e.eventType = .artifactObserved →
        ∃ p ∈ post, p.eventType = .itemPurged := by
  induction log using List.reverseRecOn with
  | nil =>
    refine ⟨fun _ pre e post h => ?_, fun _ => rfl⟩
    cases pre <;> cases h
  | append_singleton log last ih =>
    have hkey' : ∀ e ∈ log, e.item = i :=
      fun e he => hkey e (List.mem_append_left _ he)
    have hcontent' := fun e he => hcontent e (List.mem_append_left [last] he)
    have hlast := hkey last (List.mem_append_right log List.mem_cons_self)
    have hrows : ∀ v ∈ log.foldl apply [], item v = i := by
      have hloc := apply_local.rowsOf_foldl i log []
      have hall : eventsOf IngestionEvent.item i log = log :=
        List.filter_eq_self.mpr fun e he => by simp [hkey' e he]
      rw [hall] at hloc
      intro v hv
      rw [show log.foldl apply [] = rowsOf item i (log.foldl apply [])
        from hloc.symm] at hv
      simpa [rowsOf] using (List.mem_filter.mp hv).2
    rw [List.foldl_append, List.foldl_cons, List.foldl_nil]
    cases ht : last.eventType with
    | itemPurged =>
      -- the last event empties the item, whatever came before
      constructor
      · intro _ pre e post hsplit hobs
        rcases concat_split hsplit with ⟨rfl, rfl⟩ | ⟨post', rfl, -⟩
        · rw [ht] at hobs
          cases hobs
        · exact ⟨last, List.mem_append_right post' List.mem_cons_self, ht⟩
      · intro _
        unfold apply
        simp only [ht]
        rw [List.filter_eq_nil_iff]
        intro v hv hne
        rw [decide_eq_true_eq] at hne
        exact hne ((hrows v hv).trans hlast.symm)
    | artifactObserved =>
      have hsome := hcontent last
        (List.mem_append_right log List.mem_cons_self) ht
      obtain ⟨hash, hh⟩ := Option.isSome_iff_exists.mp hsome
      constructor
      · exact fun h => absurd h (apply_observed_ne_nil ht hh)
      · intro h
        obtain ⟨p, hp, -⟩ := h log last [] rfl ht
        cases hp
    | itemDeleted =>
      have hiff : apply (log.foldl apply []) last = []
          ↔ log.foldl apply [] = [] := by
        unfold apply
        simp [ht]
      rw [hiff, ih hkey' hcontent']
      constructor
      · intro h pre e post hsplit hobs
        rcases concat_split hsplit with ⟨rfl, rfl⟩ | ⟨post', rfl, hlog⟩
        · rw [ht] at hobs
          cases hobs
        · obtain ⟨p, hp, hpt⟩ := h pre e post' hlog hobs
          exact ⟨p, List.mem_append_left _ hp, hpt⟩
      · intro h pre e post hsplit hobs
        obtain ⟨p, hp, hpt⟩ := h pre e (post ++ [last])
          (by rw [hsplit, List.append_assoc, List.cons_append]) hobs
        rcases List.mem_append.mp hp with hp | hp
        · exact ⟨p, hp, hpt⟩
        · rw [List.mem_singleton.mp hp, ht] at hpt
          cases hpt

end Projection

end MemoryOS
