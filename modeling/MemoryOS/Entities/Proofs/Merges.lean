/-
How deep merges go.

`graph_projection` and `graph_sync._entities_of` read a merge with one
`coalesce(merged_into_id, id)`. That is the surviving entity as long as
every pointer leads to an active entity, which no operation restores once
it is lost: `apply` merges whichever of two active entities ranks lower,
also one that others were merged into before, and then those are two hops
from their survivor.

# The condition

`merges_shallow_iff`: along a run of merges, reverts, proposals and
extractions, the pointers stay one hop deep in every state exactly when
no merge picks a loser that something points at.
-/
import Mathlib.Data.List.Nodup
import MemoryOS.Lib.Pointer
import MemoryOS.Entities.Resolution
import MemoryOS.Entities.Extraction

namespace MemoryOS.Entities

open Lib ResolveEntities ExtractEntities

-- ====== the system

/-- The operations that write entities and their merges. -/
inductive Action
  | apply (candidate : MergeCandidate) (now : Timestamp)
  | revert (mergeId : Id) (now : Timestamp)
  | recordPending (candidate : MergeCandidate) (now : Timestamp)
  | extract (memoryId : Id) (chunks : List (Id × Text))
      (found : List (List ExtractedEntity)) (version : String)
      (now : Timestamp)

/-- The state after a transaction: an error rolls it back. -/
def committed {α : Type} (db : Db) : Except Failure (Db × α) → Db
  | .ok r => r.1
  | .error _ => db

/-- One operation. -/
def step (casefold : Text → Text) (db : Db) : Action → Db
  | .apply c now => committed db (apply db c now)
  | .revert id now => committed db (revert db id now)
  | .recordPending c now => committed db (recordPending db c now)
  | .extract memoryId chunks found version now =>
    committed db (store casefold db memoryId chunks found version now)

/-- The operations as a machine. -/
def machine (casefold : Text → Text) : Machine Db Action Unit :=
  ⟨fun db a => some (step casefold db a, [])⟩

-- ====== the pointers

/-- `merged_into_id`, as a function of the entity's id. -/
def mergedInto (db : Db) (id : Id) : Option Id :=
  (db.entity id).bind (·.mergedIntoId)

/-- Merges are one hop deep. -/
structure MergesShallow (db : Db) : Prop where
  /-- The pointers form a forest. -/
  forest : Pointer.Acyclic (mergedInto db)
  /-- Every pointer leads to an active entity. -/
  direct : ∀ e ∈ db.entities, ∀ w, e.mergedIntoId = some w →
    ∃ x ∈ db.entities, x.id = w ∧ x.mergedIntoId = none
  /-- `coalesce(merged_into_id, id)` is the surviving entity. -/
  resolves : ∀ id, Pointer.Survivor (mergedInto db) id
    (Pointer.coalesce (mergedInto db) id)

/-- What every operation keeps, given that merges pick fresh losers. -/
structure Sound (db : Db) : Prop where
  ids : (db.entities.map (·.id)).Nodup
  fresh : ∀ e ∈ db.entities, e.id < db.nextId
  /-- `fk_entities_merged_into_id`. -/
  pointee : ∀ e ∈ db.entities, ∀ w, e.mergedIntoId = some w →
    ∃ x ∈ db.entities, x.id = w
  shallow : Pointer.Shallow (mergedInto db)
  /-- An applied merge is in force: its loser points somewhere. -/
  inForce : ∀ m ∈ db.merges, m.status = .applied →
    mergedInto db m.loserId ≠ none
  once : ∀ m ∈ db.merges, ∀ m' ∈ db.merges, m.status = .applied →
    m'.status = .applied → m.loserId = m'.loserId → m.id = m'.id

section Facts

variable {db : Db} {e : Entity} {id w l : Id}

theorem entity_of_mem (hids : (db.entities.map (·.id)).Nodup)
    (he : e ∈ db.entities) : db.entity e.id = some e := by
  cases hf : db.entity e.id with
  | none =>
    have hno := List.find?_eq_none.mp hf e he
    simp at hno
  | some x =>
    obtain ⟨hx, hid⟩ := Db.entity_mem hf
    rw [List.inj_on_of_nodup_map hids hx he hid]

theorem mergedInto_of_mem (hids : (db.entities.map (·.id)).Nodup)
    (he : e ∈ db.entities) : mergedInto db e.id = e.mergedIntoId := by
  unfold mergedInto
  rw [entity_of_mem hids he]
  rfl

theorem mergedInto_row (h : mergedInto db id = some w) :
    ∃ e ∈ db.entities, e.id = id ∧ e.mergedIntoId = some w := by
  unfold mergedInto at h
  obtain ⟨e, he, hw⟩ := Option.bind_eq_some_iff.mp h
  obtain ⟨hmem, hid⟩ := Db.entity_mem he
  exact ⟨e, hmem, hid, hw⟩

theorem Sound.mergesShallow (h : Sound db) : MergesShallow db := by
  refine ⟨h.shallow.acyclic, fun e he w hw => ?_, h.shallow.survivor⟩
  obtain ⟨x, hx, rfl⟩ := h.pointee e he w hw
  refine ⟨x, hx, rfl, ?_⟩
  rw [← mergedInto_of_mem h.ids hx]
  exact h.shallow e.id x.id (by rw [mergedInto_of_mem h.ids he, hw])

theorem Sound.congr (h : Sound db) {db' : Db}
    (hent : db'.entities = db.entities) (hmer : db'.merges = db.merges)
    (hnext : db.nextId ≤ db'.nextId) : Sound db' := by
  have hptr : mergedInto db' = mergedInto db := by
    funext k
    unfold mergedInto Db.entity
    rw [hent]
  constructor
  case ids => rw [hent]; exact h.ids
  case fresh =>
    intro e he
    rw [hent] at he
    exact Nat.lt_of_lt_of_le (h.fresh e he) hnext
  case pointee => rw [hent]; exact h.pointee
  case shallow => rw [hptr]; exact h.shallow
  case inForce => rw [hmer, hptr]; exact h.inForce
  case once => rw [hmer]; exact h.once

theorem sound_unmerged (hids : (db.entities.map (·.id)).Nodup)
    (hfresh : ∀ e ∈ db.entities, e.id < db.nextId)
    (hactive : ∀ e ∈ db.entities, e.mergedIntoId = none)
    (hledger : ∀ m ∈ db.merges, m.status ≠ .applied) : Sound db := by
  constructor
  case ids => exact hids
  case fresh => exact hfresh
  case pointee =>
    intro e he w hw
    rw [hactive e he] at hw
    cases hw
  case shallow =>
    intro a b hab
    obtain ⟨e, he, -, hw⟩ := mergedInto_row hab
    rw [hactive e he] at hw
    cases hw
  case inForce => exact fun m hm ha => absurd ha (hledger m hm)
  case once => exact fun m hm _ _ ha => absurd ha (hledger m hm)

-- ====== moving one pointer

theorem setMergedInto_ids (t : Option Id) :
    ((setMergedInto db l t).entities.map (·.id)) = db.entities.map (·.id) := by
  unfold setMergedInto
  rw [List.map_map]
  refine List.map_congr_left fun e _ => ?_
  by_cases hid : e.id = l <;> simp [hid]

theorem mergedInto_setMergedInto (t : Option Id)
    (hl : ∃ e ∈ db.entities, e.id = l) :
    mergedInto (setMergedInto db l t)
      = fun k => if k = l then t else mergedInto db k := by
  funext k
  unfold mergedInto Db.entity setMergedInto
  rw [List.find?_map]
  have hp : ((fun e : Entity => decide (e.id = k)) ∘ fun e : Entity =>
      if e.id = l then { e with mergedIntoId := t } else e)
      = fun e => decide (e.id = k) := by
    funext e
    by_cases hid : e.id = l <;> simp [hid]
  rw [hp]
  by_cases hk : k = l
  · subst hk
    cases hf : db.entities.find? fun e => decide (e.id = k) with
    | none =>
      obtain ⟨e, he, hid⟩ := hl
      have hno := List.find?_eq_none.mp hf e he
      simp [hid] at hno
    | some x =>
      have hid : x.id = k := by simpa using List.find?_some hf
      simp [hid]
  · cases hf : db.entities.find? fun e => decide (e.id = k) with
    | none => simp [hk]
    | some x =>
      have hid : x.id = k := by simpa using List.find?_some hf
      simp [hid, hk]

theorem follow_root {depth : Nat} {a b : Id}
    (h : follow db depth a = some b) :
    (∃ e ∈ db.entities, e.id = b) ∧ mergedInto db b = none := by
  induction depth generalizing a with
  | zero => cases h
  | succ depth ih =>
    unfold follow at h
    cases he : db.entity a with
    | none => simp [he] at h
    | some row =>
      cases hm : row.mergedIntoId with
      | some next =>
        simp only [he, hm] at h
        exact ih h
      | none =>
        simp only [he, hm, Option.some.injEq] at h
        subst h
        obtain ⟨hmem, hid⟩ := Db.entity_mem he
        refine ⟨⟨row, hmem, hid⟩, ?_⟩
        unfold mergedInto
        rw [he]
        exact hm

theorem resolvePair_roots {a b : Id} (h : resolvePair db a b = some (w, l)) :
    w ≠ l ∧ (∃ e ∈ db.entities, e.id = w) ∧ mergedInto db w = none
      ∧ (∃ e ∈ db.entities, e.id = l) ∧ mergedInto db l = none := by
  unfold resolvePair at h
  cases ha : follow db ResolveEntities.followDepth a with
  | none => simp [ha] at h
  | some x =>
    cases hb : follow db ResolveEntities.followDepth b with
    | none => simp [ha, hb] at h
    | some y =>
      obtain ⟨hxe, hxn⟩ := follow_root ha
      obtain ⟨hye, hyn⟩ := follow_root hb
      simp only [ha, hb] at h
      split at h
      case isTrue => cases h
      case isFalse hne =>
        unfold pickWinner at h
        split at h
        · simp only [Option.some.injEq, Prod.mk.injEq] at h
          obtain ⟨rfl, rfl⟩ := h
          exact ⟨Ne.symm hne, hye, hyn, hxe, hxn⟩
        · simp only [Option.some.injEq, Prod.mk.injEq] at h
          obtain ⟨rfl, rfl⟩ := h
          exact ⟨hne, hxe, hxn, hye, hyn⟩

-- ======= the steps

/-- The condition on one operation: a merge's loser has no entity merged
into it. -/
def LoserFree (db : Db) : Action → Prop
  | .apply c _ => ∀ w l, resolvePair db c.leftId c.rightId = some (w, l) →
      mergeRowOk w l c.confidence = true →
      ∀ e ∈ db.entities, e.mergedIntoId ≠ some l
  | _ => True

theorem Sound.addRow (h : Sound db) {row : EntityMerge} {next : Id}
    (hrow : row.status ≠ .applied) (hnext : db.nextId ≤ next) :
    Sound { db with merges := db.merges ++ [row], nextId := next } := by
  have hold : ∀ m ∈ db.merges ++ [row], m.status = .applied →
      m ∈ db.merges := by
    intro m hm ha
    rcases List.mem_append.mp hm with hm | hm
    · exact hm
    · rw [List.mem_singleton.mp hm] at ha
      exact absurd ha hrow
  constructor
  case ids => exact h.ids
  case fresh => exact fun e he => Nat.lt_of_lt_of_le (h.fresh e he) hnext
  case pointee => exact h.pointee
  case shallow => exact h.shallow
  case inForce => exact fun m hm ha => h.inForce m (hold m hm ha) ha
  case once =>
    exact fun m hm m' hm' ha ha' hl =>
      h.once m (hold m hm ha) m' (hold m' hm' ha') ha ha' hl

theorem Sound.no_activeMerge (h : Sound db) (hl : mergedInto db l = none) :
    hasActiveMerge db l = false := by
  unfold hasActiveMerge
  rw [List.any_eq_false]
  intro m hm ha
  simp only [Bool.and_eq_true, decide_eq_true_eq] at ha
  have hne := h.inForce m hm ha.1
  rw [ha.2] at hne
  exact hne hl

theorem apply_ok {c : MergeCandidate} (now : Timestamp) (h : Sound db)
    (hp : resolvePair db c.leftId c.rightId = some (w, l))
    (hok : mergeRowOk w l c.confidence = true) :
    ∃ db' row moved, apply db c now = .ok (db', some ⟨w, l, moved⟩)
      ∧ row.status = .applied ∧ row.loserId = l
      ∧ db'.merges = db.merges ++ [row]
      ∧ db'.entities = (setMergedInto db l (some w)).entities
      ∧ db'.nextId = db.nextId + 1 := by
  obtain ⟨hne, -, -, -, hl⟩ := resolvePair_roots hp
  unfold ResolveEntities.apply
  simp only [hp, if_neg hne, hok, Bool.not_true, Bool.false_eq_true,
    ↓reduceIte, h.no_activeMerge hl]
  exact ⟨_, _, _, rfl, rfl, rfl, rfl, rfl, rfl⟩

theorem Sound.apply (h : Sound db) {db' : Db} {row : EntityMerge}
    (hp : w ≠ l ∧ (∃ e ∈ db.entities, e.id = w) ∧ mergedInto db w = none
      ∧ (∃ e ∈ db.entities, e.id = l) ∧ mergedInto db l = none)
    (hfree : ∀ e ∈ db.entities, e.mergedIntoId ≠ some l)
    (hrow : row.loserId = l)
    (hmer : db'.merges = db.merges ++ [row])
    (hent : db'.entities = (setMergedInto db l (some w)).entities)
    (hnext : db'.nextId = db.nextId + 1) : Sound db' := by
  obtain ⟨hne, hw, hwn, hle, hln⟩ := hp
  have hptr : mergedInto db'
      = fun k => if k = l then some w else mergedInto db k := by
    rw [← mergedInto_setMergedInto (some w) hle]
    funext k
    unfold mergedInto Db.entity
    rw [hent]
  have hnone : ∀ a, mergedInto db a ≠ some l := by
    intro a ha
    obtain ⟨e, he, -, hel⟩ := mergedInto_row ha
    exact hfree e he hel
  -- the entity a row of the new table came from
  have hfrom : ∀ e ∈ db'.entities, ∃ e₀ ∈ db.entities, e₀.id = e.id
      ∧ (e.mergedIntoId = some w ∨ e.mergedIntoId = e₀.mergedIntoId) := by
    intro e he
    rw [hent] at he
    obtain ⟨e₀, he₀, rfl⟩ := List.mem_map.mp he
    refine ⟨e₀, he₀, ?_, ?_⟩
    · by_cases hid : e₀.id = l <;> simp [hid]
    · by_cases hid : e₀.id = l <;> simp [hid]
  have hids' : db'.entities.map (·.id) = db.entities.map (·.id) := by
    rw [hent]
    exact setMergedInto_ids (some w)
  have hback : ∀ k, (∃ x ∈ db.entities, x.id = k) →
      ∃ x ∈ db'.entities, x.id = k := by
    rintro k ⟨x, hx, rfl⟩
    have hmem : x.id ∈ db'.entities.map (·.id) := by
      rw [hids']
      exact List.mem_map_of_mem hx
    obtain ⟨y, hy, hid⟩ := List.mem_map.mp hmem
    exact ⟨y, hy, hid⟩
  constructor
  case ids =>
    rw [hids']
    exact h.ids
  case fresh =>
    intro e he
    obtain ⟨e₀, he₀, hid, -⟩ := hfrom e he
    rw [← hid, hnext]
    exact Nat.lt_succ_of_lt (h.fresh e₀ he₀)
  case pointee =>
    intro e he t ht
    obtain ⟨e₀, he₀, -, hor⟩ := hfrom e he
    rcases hor with hv | hv
    · rw [hv] at ht
      cases ht
      exact hback _ hw
    · rw [hv] at ht
      exact hback _ (h.pointee e₀ he₀ t ht)
  case shallow =>
    rw [hptr]
    exact (Pointer.shallow_link_iff h.shallow hwn hln hne).mpr hnone
  case inForce =>
    intro m hm ha
    rw [hptr]
    by_cases hml : m.loserId = l
    · simp [hml]
    · simp only [if_neg hml]
      rw [hmer] at hm
      rcases List.mem_append.mp hm with hm | hm
      · exact h.inForce m hm ha
      · rw [List.mem_singleton.mp hm] at hml
        exact absurd hrow hml
  case once =>
    intro m hm m' hm' ha ha' heq
    have hold : ∀ n ∈ db'.merges, n.status = .applied →
        n ∈ db.merges ∧ n.loserId ≠ l ∨ n = row := by
      intro n hn hna
      rw [hmer] at hn
      rcases List.mem_append.mp hn with hn | hn
      · refine .inl ⟨hn, fun hnl => h.inForce n hn hna ?_⟩
        rw [hnl, hln]
      · exact .inr (List.mem_singleton.mp hn)
    rcases hold m hm ha with ⟨ho, hnl⟩ | rfl
    · rcases hold m' hm' ha' with ⟨ho', -⟩ | rfl
      · exact h.once m ho m' ho' ha ha' heq
      · exact absurd (heq.trans hrow) hnl
    · rcases hold m' hm' ha' with ⟨-, hnl'⟩ | rfl
      · exact absurd (heq.symm.trans hrow) hnl'
      · rfl

theorem Sound.revert (h : Sound db) {mergeId : Id} {now : Timestamp}
    {db' : Db} {n : Nat} (hr : ResolveEntities.revert db mergeId now
      = .ok (db', n)) : Sound db' := by
  unfold ResolveEntities.revert at hr
  cases hm : db.merge mergeId with
  | none => simp [hm] at hr
  | some merge =>
    have hmem : merge ∈ db.merges := List.mem_of_find?_eq_some hm
    have hmid : merge.id = mergeId := by simpa using List.find?_some hm
    simp only [hm] at hr
    split at hr
    case isTrue => cases hr
    case isFalse hst =>
      have hst : merge.status = .applied := by simpa using hst
      split at hr
      case isTrue => cases hr
      case isFalse =>
        cases hr
        -- the loser is an entity: its pointer is in force
        have hle : ∃ e ∈ db.entities, e.id = merge.loserId := by
          cases hp : mergedInto db merge.loserId with
          | none => exact absurd hp (h.inForce merge hmem hst)
          | some t =>
            obtain ⟨e, he, hid, -⟩ := mergedInto_row hp
            exact ⟨e, he, hid⟩
        have hptr : ∀ ms : List EntityMention, mergedInto
            (setMergedInto { db with mentions := ms } merge.loserId none)
            = fun k => if k = merge.loserId then none
              else mergedInto db k :=
          fun ms => @mergedInto_setMergedInto { db with mentions := ms } _
            none hle
        constructor
        case ids =>
          show ((setMergedInto _ merge.loserId none).entities.map
            (·.id)).Nodup
          rw [setMergedInto_ids]
          exact h.ids
        case fresh =>
          intro e he
          obtain ⟨e₀, he₀, rfl⟩ := List.mem_map.mp he
          have hlt := h.fresh e₀ he₀
          show Entity.id _ < db.nextId
          by_cases hid : e₀.id = merge.loserId
          · simpa [hid] using hid ▸ hlt
          · simpa [hid] using hlt
        case pointee =>
          intro e he t ht
          obtain ⟨e₀, he₀, rfl⟩ := List.mem_map.mp he
          have ht₀ : e₀.mergedIntoId = some t := by
            by_cases hid : e₀.id = merge.loserId
            · simp [hid] at ht
            · simpa [hid] using ht
          obtain ⟨x, hx, hxt⟩ := h.pointee e₀ he₀ t ht₀
          refine ⟨_, List.mem_map_of_mem hx, ?_⟩
          by_cases hid : x.id = merge.loserId
          · simpa [hid] using hid ▸ hxt
          · simpa [hid] using hxt
        case shallow =>
          show Pointer.Shallow (mergedInto (setMergedInto _ merge.loserId none))
          rw [hptr]
          exact h.shallow.unlink merge.loserId
        case inForce =>
          intro m hm' ha
          show mergedInto (setMergedInto _ merge.loserId none) m.loserId ≠ none
          rw [hptr]
          obtain ⟨m₀, hm₀, rfl⟩ := List.mem_map.mp hm'
          by_cases hid : m₀.id = mergeId
          · simp [hid] at ha
          · simp only [if_neg hid] at ha ⊢
            have hne : m₀.loserId ≠ merge.loserId := by
              intro heq
              exact hid ((h.once m₀ hm₀ merge hmem ha hst heq).trans hmid)
            rw [if_neg hne]
            exact h.inForce m₀ hm₀ ha
        case once =>
          intro m hm' n hn' ha hb heq
          obtain ⟨m₀, hm₀, rfl⟩ := List.mem_map.mp hm'
          obtain ⟨n₀, hn₀, rfl⟩ := List.mem_map.mp hn'
          by_cases hid : m₀.id = mergeId
          · simp [hid] at ha
          · by_cases hid' : n₀.id = mergeId
            · simp [hid'] at hb
            · simp only [if_neg hid] at ha heq ⊢
              simp only [if_neg hid'] at hb heq ⊢
              exact h.once m₀ hm₀ n₀ hn₀ ha hb heq

theorem Sound.recordPending (h : Sound db) {c : MergeCandidate}
    {now : Timestamp} {db' : Db} {b : Bool}
    (hr : ResolveEntities.recordPending db c now = .ok (db', b)) :
    Sound db' := by
  unfold ResolveEntities.recordPending at hr
  split at hr
  case h_1 =>
    cases hr
    exact h
  case h_2 w l hp =>
    split at hr
    case isTrue =>
      cases hr
      exact h
    case isFalse =>
      split at hr
      case isTrue => cases hr
      case isFalse =>
        split at hr
        case isTrue =>
          cases hr
          exact h
        case isFalse =>
          cases hr
          exact h.addRow (by simp) (Nat.le_succ _)

-- ====== extraction

theorem Sound.addEntity (h : Sound db) {row : Entity}
    (hid : row.id = db.nextId) (hnone : row.mergedIntoId = none) :
    Sound { db with
      entities := db.entities ++ [row], nextId := db.nextId + 1 } := by
  have hptr : mergedInto { db with
      entities := db.entities ++ [row], nextId := db.nextId + 1 }
      = mergedInto db := by
    funext k
    unfold mergedInto Db.entity
    rw [List.find?_append]
    cases hf : db.entities.find? fun e => decide (e.id = k) with
    | some x => rfl
    | none =>
      by_cases hk : row.id = k
      · simp [hk, hnone]
      · simp [hk]
  constructor
  case ids =>
    show ((db.entities ++ [row]).map (·.id)).Nodup
    rw [List.map_append, List.nodup_append]
    refine ⟨h.ids, by simp, fun a ha b hb => ?_⟩
    obtain ⟨e, he, rfl⟩ := List.mem_map.mp ha
    rw [List.mem_map] at hb
    obtain ⟨r, hr, rfl⟩ := hb
    rw [List.mem_singleton.mp hr, hid]
    exact Nat.ne_of_lt (h.fresh e he)
  case fresh =>
    intro e he
    rcases List.mem_append.mp he with he | he
    · exact Nat.lt_succ_of_lt (h.fresh e he)
    · rw [List.mem_singleton.mp he, hid]
      exact Nat.lt_succ_self _
  case pointee =>
    intro e he t ht
    rcases List.mem_append.mp he with he | he
    · obtain ⟨x, hx, hxt⟩ := h.pointee e he t ht
      exact ⟨x, List.mem_append_left _ hx, hxt⟩
    · rw [List.mem_singleton.mp he, hnone] at ht
      cases ht
  case shallow =>
    rw [hptr]
    exact h.shallow
  case inForce =>
    rw [hptr]
    exact h.inForce
  case once => exact h.once

theorem Sound.upsertEntity (h : Sound db) {casefold : Text → Text}
    {c : ExtractedEntity} {now : Timestamp} {r : Db × Id × Bool}
    (hr : ExtractEntities.upsertEntity casefold db c now = .ok r) :
    Sound r.1 := by
  unfold ExtractEntities.upsertEntity at hr
  simp only at hr
  split at hr
  case h_1 =>
    split at hr
    case isTrue => cases hr
    case isFalse =>
      cases hr
      exact h.addEntity rfl rfl
  case h_2 =>
    split at hr
    case h_1 =>
      cases hr
      exact h
    case h_2 =>
      cases hr
      exact h

theorem Sound.insertMention (h : Sound db) {entityId memoryId chunkId : Id}
    {c : ExtractedEntity} {version : String} {now : Timestamp} {db' : Db}
    (hr : ExtractEntities.insertMention db entityId memoryId chunkId c version
      now = .ok db') : Sound db' := by
  unfold ExtractEntities.insertMention at hr
  split at hr
  case isTrue => cases hr
  case isFalse =>
    split at hr
    case isTrue =>
      cases hr
      exact h
    case isFalse =>
      split at hr
      case isTrue => cases hr
      case isFalse =>
        cases hr
        exact h.congr rfl rfl (Nat.le_succ _)

theorem Sound.storeLoop (h : Sound db) {casefold : Text → Text}
    {memoryId : Id} {version : String} {now : Timestamp}
    {report : ExtractReport} {cs : List ((Id × Text) × ExtractedEntity)}
    {r : Db × ExtractReport}
    (hr : ExtractEntities.storeLoop casefold memoryId version now db report cs
      = .ok r) : Sound r.1 := by
  induction cs generalizing db report with
  | nil =>
    cases hr
    exact h
  | cons x rest ih =>
    obtain ⟨⟨chunkId, text⟩, c⟩ := x
    unfold ExtractEntities.storeLoop at hr
    split at hr
    case isTrue => exact ih h hr
    case isFalse =>
      cases hu : ExtractEntities.upsertEntity casefold db c now with
      | error e => simp [hu] at hr
      | ok u =>
        obtain ⟨db₁, entityId, created⟩ := u
        simp only [hu] at hr
        cases hi : ExtractEntities.insertMention db₁ entityId memoryId
            chunkId c version now with
        | error e => simp [hi] at hr
        | ok db₂ =>
          simp only [hi] at hr
          have h₁ : Sound db₁ := h.upsertEntity hu
          exact ih (h₁.insertMention hi) hr

theorem Sound.store (h : Sound db) {casefold : Text → Text} {memoryId : Id}
    {chunks : List (Id × Text)} {found : List (List ExtractedEntity)}
    {version : String} {now : Timestamp} {r : Db × ExtractReport}
    (hr : ExtractEntities.store casefold db memoryId chunks found version now
      = .ok r) : Sound r.1 := by
  unfold ExtractEntities.store at hr
  split at hr
  case isTrue => cases hr
  case isFalse =>
    refine Sound.storeLoop ?_ hr
    exact h.congr rfl rfl (Nat.le_refl _)

end Facts

-- ======= the claim

variable (casefold : Text → Text)

theorem sound_step {db : Db} {a : Action} (h : Sound db)
    (hc : LoserFree db a) : Sound (step casefold db a) := by
  cases a with
  | apply c now =>
    show Sound (committed db (ResolveEntities.apply db c now))
    cases hp : resolvePair db c.leftId c.rightId with
    | none =>
      unfold ResolveEntities.apply
      simpa [hp, committed] using h
    | some p =>
      obtain ⟨w, l⟩ := p
      have hroots := resolvePair_roots hp
      cases hok : mergeRowOk w l c.confidence with
      | false =>
        unfold ResolveEntities.apply
        simpa [hp, hroots.1, hok, committed] using h
      | true =>
        obtain ⟨db', row, moved, heq, -, hrow, hmer, hent, hnext⟩ :=
          apply_ok now h hp hok
        rw [heq]
        exact h.apply hroots (hc w l hp hok) hrow hmer hent hnext
  | revert id now =>
    show Sound (committed db (ResolveEntities.revert db id now))
    cases hr : ResolveEntities.revert db id now with
    | error e => exact h
    | ok r => exact h.revert hr
  | recordPending c now =>
    show Sound (committed db (ResolveEntities.recordPending db c now))
    cases hr : ResolveEntities.recordPending db c now with
    | error e => exact h
    | ok r => exact h.recordPending hr
  | extract memoryId chunks found version now =>
    show Sound (committed db
      (ExtractEntities.store casefold db memoryId chunks found version now))
    cases hr : ExtractEntities.store casefold db memoryId chunks found
        version now with
    | error e => exact h
    | ok r => exact h.store hr

theorem loserFree_of_shallow {db : Db} {a : Action} (h : Sound db)
    (hs : MergesShallow (step casefold db a)) : LoserFree db a := by
  cases a with
  | apply c now =>
    intro w l hp hok e he hel
    obtain ⟨hne, hw, hwn, hle, hln⟩ := resolvePair_roots hp
    obtain ⟨db', row, moved, heq, -, -, -, hent, -⟩ :=
      apply_ok now h hp hok
    have hs' : MergesShallow db' := by
      have hstep : step casefold db (.apply c now) = db' := by
        show committed db (ResolveEntities.apply db c now) = db'
        rw [heq]
        rfl
      exact hstep ▸ hs
    have hel' : e.id ≠ l := by
      rintro rfl
      rw [mergedInto_of_mem h.ids he, hel] at hln
      cases hln
    -- the row that pointed at the loser is as it was
    have hmem : e ∈ db'.entities := by
      rw [hent]
      exact List.mem_map.mpr ⟨e, he, if_neg hel'⟩
    obtain ⟨x, hx, hxl, hxn⟩ := hs'.direct e hmem l hel
    rw [hent] at hx
    obtain ⟨x₀, -, rfl⟩ := List.mem_map.mp hx
    by_cases hid : x₀.id = l
    · simp [hid] at hxn
    · simp [hid] at hxl
  | revert id now => trivial
  | recordPending c now => trivial
  | extract memoryId chunks found version now => trivial

/-- Merges stay one hop deep throughout a run exactly when no merge of the
run picks a loser that something points at. -/
theorem merges_shallow_iff (db : Db) (acts : List Action) (h : Sound db) :
    (machine casefold).Always MergesShallow db acts
      ↔ (machine casefold).EveryStep LoserFree db acts := by
  apply Machine.always_iff_everyStep Sound
  · exact fun s hs => hs.mergesShallow
  · intro s a s' es hs hstep hc
    cases hstep
    exact sound_step casefold hs hc
  · intro s a s' es hs hstep hP
    cases hstep
    exact loserFree_of_shallow casefold hs hP
  · exact h

-- ------ a winner that loses

/-- Three entities of one name, none mentioned: ties go to the lower id. -/
def threeEntities : Db where
  entities := [
    { id := 3, name := "pg".toList, canonicalName := "pg".toList,
      type := .technology, confidence := none, firstSeenAt := 0,
      mergedIntoId := none },
    { id := 2, name := "postgres".toList, canonicalName := "postgres".toList,
      type := .technology, confidence := none, firstSeenAt := 0,
      mergedIntoId := none },
    { id := 1, name := "postgresql".toList,
      canonicalName := "postgresql".toList, type := .technology,
      confidence := none, firstSeenAt := 0, mergedIntoId := none }]
  nextId := 4

/-- A merge somebody asked for by hand. -/
def manual (left right : Id) : MergeCandidate :=
  ⟨left, right, .manual, 1, ""⟩

theorem threeEntities_sound : Sound threeEntities :=
  sound_unmerged (by decide) (by decide) (by decide)
    (fun m hm => absurd hm List.not_mem_nil)

theorem merges_shallow_iff_three :
    (machine id).Always MergesShallow threeEntities [.apply (manual 1 2) 0]
      ↔ (machine id).EveryStep LoserFree threeEntities
        [.apply (manual 1 2) 0] :=
  merges_shallow_iff id threeEntities [.apply (manual 1 2) 0]
    threeEntities_sound

/-- Merging 3 into 2 and then 2 into 1 leaves 3 two hops from 1. -/
theorem merges_not_shallow :
    ¬ ∀ (casefold : Text → Text) (db : Db) (acts : List Action), Sound db →
      (machine casefold).Always MergesShallow db acts := by
  intro hclaim
  have hall := hclaim id threeEntities
    [.apply (manual 2 3) 0, .apply (manual 1 2) 0] threeEntities_sound
  have hlast : MergesShallow (step id (step id threeEntities
      (.apply (manual 2 3) 0)) (.apply (manual 1 2) 0)) := hall.last rfl
  have hrow : ∃ e ∈ (step id (step id threeEntities (.apply (manual 2 3) 0))
      (.apply (manual 1 2) 0)).entities, e.mergedIntoId = some 2 := by
    decide +kernel
  have hactive : ∀ x ∈ (step id (step id threeEntities
      (.apply (manual 2 3) 0)) (.apply (manual 1 2) 0)).entities,
      x.id = 2 → x.mergedIntoId ≠ none := by
    decide +kernel
  obtain ⟨e, he, hw⟩ := hrow
  obtain ⟨x, hx, hid, hn⟩ := hlast.direct e he 2 hw
  exact hactive x hx hid hn

end MemoryOS.Entities
