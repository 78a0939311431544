/-
Undoing merges.

`apply` moves the loser's mentions to the winner and deletes those at a
place, a chunk and an offset, where the winner has one; it records what it
moved and not what it deleted. `revert` gives the loser what was recorded.

# What a revert restores

`kept` is the state in which only the merges still applied were ever
applied, and `Undone` says that the entities and mentions are those of that
state. `undone_iff`: along a run of merges and reverts that holds in every
state exactly when each revert is of a merge that is `Separable` then: what
it moved still belongs to its loser's side, and no place was contested
between that side and the rest.
-/
import MemoryOS.Lib.Absorb
import MemoryOS.Entities.Proofs.Merges

namespace MemoryOS.Entities

open Lib ResolveEntities Absorb

-- ====== the system

/-- A call of the merge commands. -/
inductive Call
  | apply (candidate : MergeCandidate) (now : Timestamp)
  | revert (mergeId : Id) (now : Timestamp)

/-- How the last call ended, as far as a revert is concerned. -/
inductive Outcome
  /-- No merge was taken back. -/
  | quiet
  /-- A merge of this loser was taken back. -/
  | undone (loser : Id)
  /-- Taking an applied merge back failed. -/
  | failed
deriving DecidableEq

/-- The database and the last call's outcome. -/
structure Desk where
  db : Db
  last : Outcome

/-- One call. -/
def call (s : Desk) : Call → Desk
  | .apply c now => ⟨committed s.db (ResolveEntities.apply s.db c now), .quiet⟩
  | .revert id now =>
    match ResolveEntities.revert s.db id now, s.db.merge id with
    | .ok (db, _), some m => ⟨db, .undone m.loserId⟩
    | .error .uniqueViolation, _ => ⟨s.db, .failed⟩
    -- there is no such merge, or it is not applied
    | _, _ => ⟨s.db, .quiet⟩

/-- The calls as a machine. -/
def calls : Machine Desk Call Unit := ⟨fun s c => some (call s c, [])⟩

-- ====== what is meant

/-- One merge, without its ledger row. -/
def merged (db : Db) (m : EntityMerge) : Db :=
  setMergedInto (repoint db m.winnerId m.loserId).1 m.loserId (some m.winnerId)

/-- The database in which only the applied merges of the ledger were made. -/
def kept (db₀ : Db) (merges : List EntityMerge) : Db :=
  (merges.filter fun m => decide (m.status = .applied)).foldl merged db₀

/-- Every merge taken back is undone, and only that. -/
structure Undone (db₀ : Db) (s : Desk) : Prop where
  /-- An applied merge can be taken back. -/
  succeeds : s.last ≠ .failed
  /-- Taking a merge back clears its loser's pointer. -/
  restored : ∀ l, s.last = .undone l → mergedInto s.db l = none
  /-- The pointers are those of the other merges. -/
  entities : s.db.entities = (kept db₀ s.db.merges).entities
  /-- So are the mentions, and none is lost. -/
  mentions : s.db.mentions = (kept db₀ s.db.merges).mentions

/-- Where `entity_mentions` allows an entity one row. -/
def place (m : EntityMention) : Id × Nat := (m.chunkId, m.charStart)

/-- The `merged_into_id` pointers lead from `a` to `b`. -/
def LeadsTo (db : Db) : Id → Id → Prop :=
  Relation.ReflTransGen (Pointer.Hop (mergedInto db))

/-- An applied merge whose taking back disturbs no other. -/
structure Separable (db₀ db : Db) (merge : EntityMerge) : Prop where
  /-- What it moved, and is still there, is of an entity that still leads to
  its loser. -/
  own : ∀ m₀ ∈ db₀.mentions, m₀.id ∈ merge.movedMentionIds →
    (∃ m ∈ db.mentions, m.id = m₀.id) → LeadsTo db m₀.entityId merge.loserId
  /-- Where an entity that leads to its loser was mentioned, no other entity
  of the same survivor was. -/
  apart : ∀ x ∈ db₀.mentions, ∀ y ∈ db₀.mentions, place x = place y →
    LeadsTo db x.entityId merge.loserId →
    (∃ r, Pointer.Survivor (mergedInto db) y.entityId r
      ∧ Pointer.Survivor (mergedInto db) merge.loserId r) →
    LeadsTo db y.entityId merge.loserId

/-- The condition on one call. -/
def Undoable (db₀ : Db) (s : Desk) : Call → Prop
  | .apply .. => True
  | .revert id _ => ∀ m, s.db.merge id = some m → m.status = .applied →
      Separable db₀ s.db m

/-- Entities nobody has merged, and their mentions. -/
structure Unmerged (db : Db) : Prop where
  entityIds : (db.entities.map (·.id)).Nodup
  mentionIds : (db.mentions.map (·.id)).Nodup
  mergeIds : (db.merges.map (·.id)).Nodup
  fresh : ∀ m ∈ db.merges, m.id < db.nextId
  /-- `uq_entity_mentions_span`. -/
  spans : spansUnique db.mentions = true
  active : ∀ e ∈ db.entities, e.mergedIntoId = none
  ledger : ∀ m ∈ db.merges, m.status ≠ .applied

-- ====== mentions as an assignment

/-- Who each mention belongs to first. -/
def origin (db : Db) (m : EntityMention) : Option Id :=
  if m ∈ db.mentions then some m.entityId else none

/-- The rows of an assignment of mentions to entities. -/
def view (ms : List EntityMention) (f : EntityMention → Option Id) :
    List EntityMention :=
  ms.filterMap fun m => (f m).map fun e => { m with entityId := e }

/-- A merge as a link. -/
def link (m : EntityMerge) : Link Id := ⟨m.winnerId, m.loserId⟩

/-- The applied merges of a ledger. -/
def links (merges : List EntityMerge) : List (Link Id) :=
  (merges.filter fun m => decide (m.status = .applied)).map link

/-- Who each mention belongs to after the applied merges. -/
noncomputable def held (db₀ : Db) (merges : List EntityMerge) :
    EntityMention → Option Id :=
  absorbAll place (origin db₀) (links merges)

section View

variable {ms : List EntityMention} {f g : EntityMention → Option Id}
  {db : Db} {w l : Id}

theorem mem_view {r : EntityMention} : r ∈ view ms f ↔
    ∃ m ∈ ms, ∃ e, f m = some e ∧ r = { m with entityId := e } := by
  unfold view
  rw [List.mem_filterMap]
  constructor
  · rintro ⟨m, hm, h⟩
    obtain ⟨e, he, rfl⟩ := Option.map_eq_some_iff.mp h
    exact ⟨m, hm, e, he, rfl⟩
  · rintro ⟨m, hm, e, he, rfl⟩
    exact ⟨m, hm, by rw [he]; rfl⟩

theorem view_inj (hids : (ms.map (·.id)).Nodup) (h : view ms f = view ms g) :
    ∀ m ∈ ms, f m = g m := by
  have half : ∀ {f g}, view ms f = view ms g → ∀ m ∈ ms, ∀ e, f m = some e →
      g m = some e := by
    intro f g h m hm e he
    have hr := mem_view.mpr ⟨m, hm, e, he, rfl⟩
    rw [h] at hr
    obtain ⟨m', hm', e', he', heq⟩ := mem_view.mp hr
    have hid := congrArg EntityMention.id heq
    have hmm := List.inj_on_of_nodup_map hids hm hm' hid
    have hee := congrArg EntityMention.entityId heq
    rw [hmm, he']
    exact congrArg some hee.symm
  intro m hm
  cases hf : f m with
  | some e => exact (half h m hm e hf).symm
  | none =>
    cases hg : g m with
    | none => rfl
    | some e =>
      rw [half h.symm m hm e hg] at hf
      cases hf

theorem repointLoop_eq {moving : List EntityMention}
    {existing : List (Id × Nat)} (h : (moving.map place).Nodup) :
    repointLoop moving existing
      = ((moving.filter fun m => decide (place m ∉ existing)).map (·.id),
        (moving.filter fun m => decide (place m ∈ existing)).map (·.id)) := by
  induction moving generalizing existing with
  | nil => rfl
  | cons m rest ih =>
    rw [List.map_cons, List.nodup_cons] at h
    unfold repointLoop
    by_cases hm : (m.chunkId, m.charStart) ∈ existing
    · have hp : place m ∈ existing := hm
      rw [if_pos hm, ih h.2]
      simp [hp]
    · have hp : place m ∉ existing := hm
      have hrest : ∀ x ∈ rest, place x ∈ (m.chunkId, m.charStart) :: existing
          ↔ place x ∈ existing := by
        intro x hx
        have hne : place x ≠ place m := fun heq =>
          h.1 (heq ▸ List.mem_map_of_mem hx)
        rw [List.mem_cons]
        exact or_iff_right hne
      have hout : (rest.filter fun x => decide
          (place x ∉ (m.chunkId, m.charStart) :: existing))
          = rest.filter fun x => decide (place x ∉ existing) :=
        List.filter_congr fun x hx =>
          decide_eq_decide.mpr (not_congr (hrest x hx))
      have hin : (rest.filter fun x => decide
          (place x ∈ (m.chunkId, m.charStart) :: existing))
          = rest.filter fun x => decide (place x ∈ existing) :=
        List.filter_congr fun x hx => decide_eq_decide.mpr (hrest x hx)
      rw [if_neg hm, ih h.2, hout, hin]
      simp [hp]

theorem view_ids : ((view ms f).map (·.id)).Sublist (ms.map (·.id)) := by
  induction ms with
  | nil => exact .slnil
  | cons m rest ih =>
    unfold view at ih ⊢
    rw [List.filterMap_cons]
    cases f m with
    | none => exact ih.cons _
    | some e => exact ih.cons_cons _

theorem mem_owned {e : Id} {r : EntityMention} :
    r ∈ ((view ms f).filter fun m => decide (m.entityId = e)) ↔
      ∃ m ∈ ms, f m = some e ∧ r = { m with entityId := e } := by
  rw [List.mem_filter, mem_view]
  constructor
  · rintro ⟨⟨m, hm, e', he', rfl⟩, h⟩
    obtain rfl : e' = e := of_decide_eq_true h
    exact ⟨m, hm, he', rfl⟩
  · rintro ⟨m, hm, he, rfl⟩
    exact ⟨⟨m, hm, e, he, rfl⟩, decide_eq_true rfl⟩

theorem owned_places (hids : (ms.map (·.id)).Nodup) (hf : Spread place f)
    (e : Id) : (((view ms f).filter fun m =>
      decide (m.entityId = e)).map place).Nodup := by
  refine List.Nodup.map_on ?_
    ((List.Nodup.of_map _ (hids.sublist view_ids)).filter _)
  intro r hr r' hr' hp
  obtain ⟨m, -, he, rfl⟩ := mem_owned.mp hr
  obtain ⟨m', -, he', rfl⟩ := mem_owned.mp hr'
  obtain rfl : m = m' := hf m m' e he he' hp
  rfl

theorem view_spans (hids : (ms.map (·.id)).Nodup) (hf : Spread place f) :
    spansUnique (view ms f) = true := by
  refine decide_eq_true (List.Nodup.map_on ?_
    (List.Nodup.of_map _ (hids.sublist view_ids)))
  intro r hr r' hr' hp
  obtain ⟨m, -, e, he, rfl⟩ := mem_view.mp hr
  obtain ⟨m', -, e', he', rfl⟩ := mem_view.mp hr'
  obtain ⟨rfl, hp⟩ := Prod.mk.inj hp
  obtain rfl : m = m' := hf m m' e he he' hp
  rfl

theorem view_putBack (ids : List Id) : ((view ms f).map fun m =>
      if m.id ∈ ids then { m with entityId := l } else m)
    = view ms (putBack (fun m => m.id ∈ ids) l f) := by
  unfold view
  rw [List.map_filterMap]
  refine List.filterMap_congr fun m _ => ?_
  unfold putBack
  cases f m with
  | none => simp
  | some e =>
    by_cases hm : m.id ∈ ids
    · simp [hm]
    · simp [hm]

theorem repoint_view (hids : (ms.map (·.id)).Nodup) (hf : Spread place f)
    (hin : ∀ m, f m ≠ none → m ∈ ms) (hdb : db.mentions = view ms f) :
    (repoint db w l).1.mentions = view ms (absorb place f ⟨w, l⟩)
      ∧ ∀ m ∈ ms, m.id ∈ (repoint db w l).2
        ↔ f m = some l ∧ absorb place f ⟨w, l⟩ m ≠ none := by
  have hexisting : ∀ m, place m ∈ (((view ms f).filter fun m =>
      decide (m.entityId = w)).map fun m => (m.chunkId, m.charStart))
      ↔ ∃ j, f j = some w ∧ place j = place m := by
    intro m
    rw [List.mem_map]
    constructor
    · rintro ⟨r, hr, hp⟩
      obtain ⟨j, -, hj, rfl⟩ := mem_owned.mp hr
      exact ⟨j, hj, hp⟩
    · rintro ⟨j, hj, hp⟩
      have hmem := hin j (by rw [hj]; exact Option.some_ne_none w)
      exact ⟨_, mem_owned.mpr ⟨j, hmem, hj, rfl⟩, hp⟩
  -- what the loop says of a mention, by where it is
  have hloop : ∀ (p : Id × Nat → Bool), ∀ m ∈ ms,
      m.id ∈ (((view ms f).filter fun m => decide (m.entityId = l)).filter
        fun m => p (place m)).map (·.id) ↔ f m = some l ∧ p (place m) = true := by
    intro p m hm
    rw [List.mem_map]
    constructor
    · rintro ⟨r, hr, hid⟩
      obtain ⟨hr, hp⟩ := List.mem_filter.mp hr
      obtain ⟨m', hm', hl, rfl⟩ := mem_owned.mp hr
      obtain rfl : m' = m := List.inj_on_of_nodup_map hids hm' hm hid
      exact ⟨hl, hp⟩
    · rintro ⟨hl, hp⟩
      exact ⟨_, List.mem_filter.mpr ⟨mem_owned.mpr ⟨m, hm, hl, rfl⟩, hp⟩, rfl⟩
  have habs : ∀ m, f m = some l → (absorb place f ⟨w, l⟩ m = none ↔
      ∃ j, f j = some w ∧ place j = place m) := by
    intro m hl
    constructor
    · intro hnone
      by_contra hno
      rw [absorb_moved hl fun j hj hp => hno ⟨j, hj, hp⟩] at hnone
      cases hnone
    · rintro ⟨j, hj, hp⟩
      exact absorb_dropped hl hj hp
  have hmoved : ∀ m ∈ ms, m.id ∈ (repoint db w l).2
      ↔ f m = some l ∧ absorb place f ⟨w, l⟩ m ≠ none := by
    intro m hm
    unfold repoint
    simp only [hdb, repointLoop_eq (owned_places hids hf l)]
    rw [hloop (fun q => decide (q ∉ _)) m hm]
    refine and_congr_right fun hl => ?_
    rw [decide_eq_true_iff, hexisting, ne_eq, habs m hl]
  have hdropped : ∀ m ∈ ms, m.id ∈ (((view ms f).filter fun m =>
      decide (m.entityId = l)).filter fun m => decide (place m ∈
        (((view ms f).filter fun m => decide (m.entityId = w)).map
          fun m => (m.chunkId, m.charStart)))).map (·.id)
      ↔ f m = some l ∧ absorb place f ⟨w, l⟩ m = none := by
    intro m hm
    rw [hloop (fun q => decide (q ∈ _)) m hm]
    refine and_congr_right fun hl => ?_
    rw [decide_eq_true_iff, hexisting, habs m hl]
  refine ⟨?_, hmoved⟩
  have hrows : (repoint db w l).1.mentions = (db.mentions.filter fun m =>
      decide (m.id ∉ (((view ms f).filter fun m =>
        decide (m.entityId = l)).filter fun m => decide (place m ∈
          (((view ms f).filter fun m => decide (m.entityId = w)).map
            fun m => (m.chunkId, m.charStart)))).map (·.id))).map fun m =>
      if m.id ∈ (repoint db w l).2 then { m with entityId := w } else m := by
    unfold repoint
    simp only [hdb, repointLoop_eq (owned_places hids hf l)]
  rw [hrows, hdb]
  generalize (((view ms f).filter fun m =>
      decide (m.entityId = l)).filter fun m => decide (place m ∈
        (((view ms f).filter fun m => decide (m.entityId = w)).map
          fun m => (m.chunkId, m.charStart)))).map (·.id) = dropped
    at hdropped ⊢
  generalize (repoint db w l).2 = moved at hmoved ⊢
  unfold view
  rw [List.filter_filterMap, List.map_filterMap]
  refine List.filterMap_congr fun m hm => ?_
  cases hm' : f m with
  | none =>
    rw [absorb_other (by rw [hm']; exact (Option.some_ne_none l).symm), hm']
    rfl
  | some e =>
    by_cases hl : e = l
    · subst hl
      cases ha : absorb place f ⟨w, e⟩ m with
      | none =>
        have hd := (hdropped m hm).mpr ⟨hm', ha⟩
        simp [hd]
      | some e' =>
        have hd : m.id ∉ dropped := fun hd => by
          rw [((hdropped m hm).mp hd).2] at ha
          cases ha
        have hmv := (hmoved m hm).mpr
          ⟨hm', by rw [ha]; exact Option.some_ne_none e'⟩
        obtain ⟨a, ha', rfl⟩ := absorb_owner ha
        cases hm'.symm.trans ha'
        simp [hd, hmv]
    · have hne : f m ≠ some l := by
        rw [hm']
        simpa using hl
      have hd : m.id ∉ dropped := fun hd => hne ((hdropped m hm).mp hd).1
      have hmv : m.id ∉ moved := fun hmv => hne ((hmoved m hm).mp hmv).1
      rw [absorb_other hne, hm']
      simp [hd, hmv]

end View

-- ====== the state kept

section Kept

variable {db₀ db : Db} {ms merges : List EntityMerge} {k : EntityMerge}

theorem origin_eq_some {m : EntityMention} {e : Id} :
    origin db m = some e ↔ m ∈ db.mentions ∧ m.entityId = e := by
  unfold origin
  by_cases hm : m ∈ db.mentions
  · simp [hm]
  · simp [hm]

theorem origin_spread (h : Unmerged db₀) : Spread place (origin db₀) := by
  intro m m' e hm hm' hp
  obtain ⟨hmem, rfl⟩ := origin_eq_some.mp hm
  obtain ⟨hmem', he⟩ := origin_eq_some.mp hm'
  have hnd : (db₀.mentions.map fun m =>
      (m.entityId, m.chunkId, m.charStart)).Nodup := of_decide_eq_true h.spans
  refine List.inj_on_of_nodup_map hnd hmem hmem' ?_
  show (m.entityId, place m) = (m'.entityId, place m')
  rw [he, hp]

theorem absorbAll_mem {m : EntityMention} {ks : List (Link Id)}
    (h : absorbAll place (origin db₀) ks m ≠ none) : m ∈ db₀.mentions := by
  obtain ⟨e, he⟩ := Option.ne_none_iff_exists'.mp h
  obtain ⟨a, ha, -⟩ := absorbAll_owner he
  exact (origin_eq_some.mp ha).1

theorem foldl_merged_mentions (h : Unmerged db₀) :
    (ms.foldl merged db₀).mentions
      = view db₀.mentions (absorbAll place (origin db₀) (ms.map link)) := by
  induction ms using List.reverseRecOn with
  | nil =>
    show db₀.mentions = view db₀.mentions (origin db₀)
    unfold view
    have hrow : ∀ m ∈ db₀.mentions, ((origin db₀ m).map fun e =>
        { m with entityId := e }) = some m := by
      intro m hm
      rw [origin_eq_some.mpr ⟨hm, rfl⟩]
      rfl
    rw [List.filterMap_congr hrow, List.filterMap_some]
  | append_singleton rest m ih =>
    rw [List.foldl_append, List.map_append, List.map_singleton,
      absorbAll_concat]
    exact (repoint_view h.mentionIds (spread_absorbAll (origin_spread h))
      (fun _ => absorbAll_mem) ih).1

theorem foldl_merged_entities (h : Unmerged db₀)
    (ho : Orderly (ms.map link)) :
    (ms.foldl merged db₀).entities = db₀.entities.map fun e =>
      { e with mergedIntoId := next (ms.map link) e.id } := by
  induction ms using List.reverseRecOn with
  | nil =>
    have hrow : ∀ e ∈ db₀.entities,
        { e with mergedIntoId := next (([] : List EntityMerge).map link) e.id }
          = e := by
      intro e he
      have hn := h.active e he
      cases e
      cases hn
      rfl
    rw [List.map_congr_left hrow, List.map_id']
    rfl
  | append_singleton rest m ih =>
    rw [List.map_append, List.map_singleton] at ho ⊢
    have hrest := ih (ho.sublist (List.sublist_append_left _ _))
    have hl : ∀ m' ∈ rest.map link, m'.loser ≠ (link m).loser :=
      fun m' hm' => (ho.around.2.1 m' hm').1
    rw [List.foldl_append]
    show (setMergedInto _ m.loserId (some m.winnerId)).entities = _
    unfold setMergedInto
    show (rest.foldl merged db₀).entities.map _ = _
    rw [hrest, List.map_map]
    refine List.map_congr_left fun e _ => ?_
    rw [next_concat hl]
    by_cases hid : e.id = m.loserId
    · simp [hid, link]
    · simp [hid, link]

theorem kept_mentions (h : Unmerged db₀) :
    (kept db₀ merges).mentions = view db₀.mentions (held db₀ merges) :=
  foldl_merged_mentions h

theorem kept_entities (h : Unmerged db₀) (ho : Orderly (links merges)) :
    (kept db₀ merges).entities = db₀.entities.map fun e =>
      { e with mergedIntoId := next (links merges) e.id } :=
  foldl_merged_entities h ho

end Kept

-- ====== the invariant

/-- What the calls keep while every revert is of a separable merge. -/
structure Inv (db₀ : Db) (s : Desk) : Prop where
  orderly : Orderly (links s.db.merges)
  losers : ∀ k ∈ links s.db.merges, ∃ e ∈ db₀.entities, e.id = k.loser
  entities : s.db.entities = db₀.entities.map fun e =>
    { e with mergedIntoId := next (links s.db.merges) e.id }
  mentions : s.db.mentions = view db₀.mentions (held db₀ s.db.merges)
  /-- A merge records every mention that leads to its loser and is left. -/
  recorded : ∀ k ∈ s.db.merges, k.status = .applied → ∀ m ∈ db₀.mentions,
    Leads (links s.db.merges) m.entityId k.loserId →
    held db₀ s.db.merges m ≠ none → m.id ∈ k.movedMentionIds
  mergeIds : (s.db.merges.map (·.id)).Nodup
  fresh : ∀ m ∈ s.db.merges, m.id < s.db.nextId
  succeeds : s.last ≠ .failed
  restored : ∀ l, s.last = .undone l → next (links s.db.merges) l = none

section Invariant

variable {db₀ : Db} {s : Desk}

theorem links_append (as bs : List EntityMerge) :
    links (as ++ bs) = links as ++ links bs := by
  unfold links
  rw [List.filter_append, List.map_append]

theorem links_applied {k : EntityMerge} (hk : k.status = .applied)
    (rest : List EntityMerge) : links (k :: rest) = link k :: links rest := by
  unfold links
  simp [hk]

theorem links_other {k : EntityMerge} (hk : k.status ≠ .applied)
    (rest : List EntityMerge) : links (k :: rest) = links rest := by
  unfold links
  simp [hk]

theorem mem_links {k : Link Id} {merges : List EntityMerge} :
    k ∈ links merges ↔ ∃ m ∈ merges, m.status = .applied ∧ link m = k := by
  unfold links
  simp only [List.mem_map, List.mem_filter, decide_eq_true_eq, and_assoc]

theorem inv_start (h : Unmerged db₀) : Inv db₀ ⟨db₀, .quiet⟩ := by
  have hnil : links db₀.merges = [] := by
    unfold links
    rw [List.filter_eq_nil_iff.mpr fun m hm => by simpa using h.ledger m hm]
    rfl
  have hk : kept db₀ db₀.merges = db₀ := by
    unfold kept
    rw [List.filter_eq_nil_iff.mpr fun m hm => by simpa using h.ledger m hm]
    rfl
  have ho : Orderly (links db₀.merges) := by
    rw [hnil]
    exact ⟨.nil, fun m hm => absurd hm List.not_mem_nil⟩
  constructor
  case orderly => exact ho
  case losers =>
    intro k hk
    rw [hnil] at hk
    cases hk
  case entities => rw [← kept_entities h ho, hk]
  case mentions => rw [← kept_mentions h, hk]
  case recorded => exact fun k hk ha => absurd ha (h.ledger k hk)
  case mergeIds => exact h.mergeIds
  case fresh => exact h.fresh
  case succeeds => exact fun hf => by cases hf
  case restored => exact fun l hl => by cases hl

variable (h : Inv db₀ s)
include h

theorem Inv.quiet : Inv db₀ ⟨s.db, .quiet⟩ :=
  { h with
    succeeds := fun hf => by cases hf
    restored := fun l hl => by cases hl }

theorem Inv.mergedInto_eq (h₀ : Unmerged db₀) :
    mergedInto s.db = next (links s.db.merges) := by
  have hids : s.db.entities.map (·.id) = db₀.entities.map (·.id) := by
    rw [h.entities, List.map_map]
    rfl
  funext id
  by_cases hid : ∃ e ∈ db₀.entities, e.id = id
  · obtain ⟨e, he, rfl⟩ := hid
    have hmem := @List.mem_map_of_mem _ _ _ _ (fun e : Entity =>
      { e with mergedIntoId := next (links s.db.merges) e.id }) he
    rw [← h.entities] at hmem
    exact mergedInto_of_mem (hids ▸ h₀.entityIds) hmem
  · have hnone : next (links s.db.merges) id = none := by
      rw [next_eq_none_iff]
      rintro k hk rfl
      exact hid (h.losers k hk)
    rw [hnone]
    cases hp : mergedInto s.db id with
    | none => rfl
    | some w =>
      obtain ⟨e, he, rfl, -⟩ := mergedInto_row hp
      have hmem : e.id ∈ s.db.entities.map (·.id) := List.mem_map_of_mem he
      rw [hids] at hmem
      obtain ⟨e₀, he₀, heq⟩ := List.mem_map.mp hmem
      exact absurd ⟨e₀, he₀, heq⟩ hid

theorem Inv.leadsTo_iff (h₀ : Unmerged db₀) {a b : Id} :
    LeadsTo s.db a b ↔ Leads (links s.db.merges) a b := by
  have hhop : Pointer.Hop (mergedInto s.db)
      = fun a b => (⟨b, a⟩ : Link Id) ∈ links s.db.merges := by
    funext a b
    rw [h.mergedInto_eq h₀]
    exact propext h.orderly.next_eq_some_iff
  unfold LeadsTo Leads
  rw [hhop]

theorem Inv.undone (h₀ : Unmerged db₀) : Undone db₀ s := by
  constructor
  case succeeds => exact h.succeeds
  case restored =>
    rw [h.mergedInto_eq h₀]
    exact h.restored
  case entities => rw [kept_entities h₀ h.orderly, h.entities]
  case mentions => rw [kept_mentions h₀, h.mentions]

theorem Inv.separable_iff (h₀ : Unmerged db₀) {k : EntityMerge} :
    Separable db₀ s.db k ↔
      Separate place (origin db₀) (links s.db.merges) k.loserId
        ∧ ∀ m a, origin db₀ m = some a → m.id ∈ k.movedMentionIds →
          held db₀ s.db.merges m ≠ none →
          Leads (links s.db.merges) a k.loserId := by
  have hthere : ∀ m₀ ∈ db₀.mentions, (∃ m ∈ s.db.mentions, m.id = m₀.id)
      ↔ held db₀ s.db.merges m₀ ≠ none := by
    intro m₀ hm₀
    rw [h.mentions]
    constructor
    · rintro ⟨m, hm, hid⟩
      obtain ⟨m', hm', e, he, rfl⟩ := mem_view.mp hm
      obtain rfl := List.inj_on_of_nodup_map h₀.mentionIds hm' hm₀ hid
      rw [he]
      exact Option.some_ne_none e
    · intro hne
      obtain ⟨e, he⟩ := Option.ne_none_iff_exists'.mp hne
      exact ⟨_, mem_view.mpr ⟨m₀, hm₀, e, he, rfl⟩, rfl⟩
  have hsame : ∀ a b, (∃ r, Pointer.Survivor (mergedInto s.db) a r
      ∧ Pointer.Survivor (mergedInto s.db) b r)
      ↔ root (links s.db.merges) a = root (links s.db.merges) b := by
    intro a b
    rw [h.mergedInto_eq h₀]
    constructor
    · rintro ⟨r, ha, hb⟩
      rw [h.orderly.survivor_iff.mp ha, h.orderly.survivor_iff.mp hb]
    · intro heq
      exact ⟨_, h.orderly.survivor_iff.mpr rfl,
        h.orderly.survivor_iff.mpr heq.symm⟩
  constructor
  · intro hs
    refine ⟨fun x y a b hx hy hp ha hr => ?_, fun m a hm hmv hne => ?_⟩
    · obtain ⟨hxm, rfl⟩ := origin_eq_some.mp hx
      obtain ⟨hym, rfl⟩ := origin_eq_some.mp hy
      exact (h.leadsTo_iff h₀).mp (hs.apart x hxm y hym hp
        ((h.leadsTo_iff h₀).mpr ha) ((hsame _ _).mpr hr))
    · obtain ⟨hmem, rfl⟩ := origin_eq_some.mp hm
      exact (h.leadsTo_iff h₀).mp
        (hs.own m hmem hmv ((hthere m hmem).mpr hne))
  · rintro ⟨hs, hown⟩
    constructor
    case own =>
      intro m hm hmv hex
      exact (h.leadsTo_iff h₀).mpr (hown m m.entityId
        (origin_eq_some.mpr ⟨hm, rfl⟩) hmv ((hthere m hm).mp hex))
    case apart =>
      intro x hx y hy hp ha hr
      exact (h.leadsTo_iff h₀).mpr (hs x y _ _ (origin_eq_some.mpr ⟨hx, rfl⟩)
        (origin_eq_some.mpr ⟨hy, rfl⟩) hp ((h.leadsTo_iff h₀).mp ha)
        ((hsame _ _).mp hr))

-- ======= the steps

theorem Inv.addMerge (h₀ : Unmerged db₀) {w l : Id} (hne : w ≠ l)
    (hw : ∀ m ∈ links s.db.merges, m.loser ≠ w)
    (hl : ∀ m ∈ links s.db.merges, m.loser ≠ l)
    (hle : ∃ e ∈ s.db.entities, e.id = l) {db : Db} {row : EntityMerge}
    (hrow : row.status = .applied) (hlink : link row = ⟨w, l⟩)
    (hid : row.id = s.db.nextId)
    (hmv : row.movedMentionIds = (repoint s.db w l).2)
    (hmer : db.merges = s.db.merges ++ [row])
    (hent : db.entities = (setMergedInto s.db l (some w)).entities)
    (hmen : db.mentions = (repoint s.db w l).1.mentions)
    (hnext : db.nextId = s.db.nextId + 1) : Inv db₀ ⟨db, .quiet⟩ := by
  have ho : Orderly (links s.db.merges ++ [⟨w, l⟩]) :=
    h.orderly.concat hne hl hw
  obtain ⟨hrows, hmoved⟩ := @repoint_view _ _ s.db w l h₀.mentionIds
    (spread_absorbAll (origin_spread h₀)) (fun _ => absorbAll_mem) h.mentions
  have hlinks : links db.merges = links s.db.merges ++ [⟨w, l⟩] := by
    rw [hmer, links_append, links_applied hrow, hlink]
    rfl
  have hheld : held db₀ db.merges
      = absorb place (held db₀ s.db.merges) ⟨w, l⟩ := by
    unfold held
    rw [hlinks, absorbAll_concat]
  constructor
  case orderly =>
    rw [hlinks]
    exact ho
  case losers =>
    intro k hk
    rw [hlinks] at hk
    rcases List.mem_append.mp hk with hk | hk
    · exact h.losers k hk
    · rw [List.mem_singleton.mp hk]
      obtain ⟨e, he, rfl⟩ := hle
      rw [h.entities] at he
      obtain ⟨e₀, he₀, rfl⟩ := List.mem_map.mp he
      exact ⟨e₀, he₀, rfl⟩
  case entities =>
    rw [hlinks, hent]
    unfold setMergedInto
    rw [h.entities, List.map_map]
    refine List.map_congr_left fun e _ => ?_
    rw [next_concat hl]
    by_cases hid : e.id = l
    · simp [hid]
    · simp [hid]
  case mentions =>
    rw [hheld, hmen]
    exact hrows
  case recorded =>
    intro k hk ha m hm hlead hleft
    rw [hlinks] at hlead
    rw [hheld] at hleft
    obtain ⟨e, he⟩ := Option.ne_none_iff_exists'.mp hleft
    obtain ⟨a, hha, -⟩ := absorb_owner he
    rw [hmer] at hk
    rcases List.mem_append.mp hk with hk | hk
    · have hlk : link k ∈ links s.db.merges :=
        mem_links.mpr ⟨k, hk, ha, rfl⟩
      refine h.recorded k hk ha m hm
        ((ho.leads_concat_iff hlk).mp hlead) ?_
      rw [hha]
      exact Option.some_ne_none a
    · have hkl : k.loserId = l := by
        rw [List.mem_singleton.mp hk]
        exact congrArg Link.loser hlink
      rw [hkl] at hlead
      rw [List.mem_singleton.mp hk, hmv]
      refine (hmoved m hm).mpr ⟨?_, hleft⟩
      obtain ⟨e₀, he₀, rfl⟩ := absorbAll_owner hha
      obtain ⟨-, rfl⟩ := origin_eq_some.mp he₀
      exact hha.trans (congrArg some (ho.leads_loser_iff.mp hlead))
  case mergeIds =>
    rw [hmer, List.map_append, List.nodup_append]
    refine ⟨h.mergeIds, by simp, fun x hx y hy => ?_⟩
    obtain ⟨m, hm, rfl⟩ := List.mem_map.mp hx
    rw [List.map_singleton, List.mem_singleton] at hy
    rw [hy, hid]
    exact Nat.ne_of_lt (h.fresh m hm)
  case fresh =>
    intro m hm
    rw [hnext]
    rw [hmer] at hm
    rcases List.mem_append.mp hm with hm | hm
    · exact Nat.lt_succ_of_lt (h.fresh m hm)
    · rw [List.mem_singleton.mp hm, hid]
      exact Nat.lt_succ_self _
  case succeeds => exact fun hf => by cases hf
  case restored => exact fun l hl => by cases hl

theorem Inv.apply (h₀ : Unmerged db₀) (c : MergeCandidate)
    (now : Timestamp) : Inv db₀ (call s (.apply c now)) := by
  show Inv db₀ ⟨committed s.db (ResolveEntities.apply s.db c now), .quiet⟩
  unfold ResolveEntities.apply
  cases hp : resolvePair s.db c.leftId c.rightId with
  | none => exact h.quiet
  | some p =>
    obtain ⟨w, l⟩ := p
    obtain ⟨hne, -, hw, hle, hl⟩ := resolvePair_roots hp
    rw [h.mergedInto_eq h₀, next_eq_none_iff] at hw hl
    have hactive : hasActiveMerge s.db l = false := by
      unfold hasActiveMerge
      rw [List.any_eq_false]
      intro m hm ha
      simp only [Bool.and_eq_true, decide_eq_true_eq] at ha
      exact hl _ (mem_links.mpr ⟨m, hm, ha.1, rfl⟩) ha.2
    cases hok : mergeRowOk w l c.confidence with
    | false =>
      simp only [hne, ↓reduceIte, hok, Bool.not_false]
      exact h.quiet
    | true =>
      simp only [hne, ↓reduceIte, hok, Bool.not_true, Bool.false_eq_true,
        hactive]
      exact h.addMerge h₀ hne hw hl hle rfl rfl rfl rfl rfl rfl rfl rfl

omit h in
theorem revert_call {id : Id} {now : Timestamp} {k : EntityMerge}
    (hk : s.db.merge id = some k) (ha : k.status = .applied)
    {mentions : List EntityMention}
    (hm : mentions = s.db.mentions.map fun m =>
      if m.id ∈ k.movedMentionIds then { m with entityId := k.loserId }
      else m) :
    spansUnique mentions = false
        ∧ call s (.revert id now) = ⟨s.db, .failed⟩
      ∨ spansUnique mentions = true ∧ ∃ db,
        call s (.revert id now) = ⟨db, .undone k.loserId⟩
          ∧ db.mentions = mentions
          ∧ db.entities = (setMergedInto s.db k.loserId none).entities
          ∧ db.merges = (s.db.merges.map fun m =>
            if m.id = id then
              { m with status := .reverted, revertedAt := some now }
            else m)
          ∧ db.nextId = s.db.nextId := by
  subst hm
  unfold call ResolveEntities.revert
  cases hs : spansUnique (s.db.mentions.map fun m =>
      if m.id ∈ k.movedMentionIds then { m with entityId := k.loserId }
      else m) with
  | false =>
    refine .inl ⟨rfl, ?_⟩
    simp only [hk, ha, ne_eq, not_true_eq_false, ↓reduceIte, hs,
      Bool.not_false]
  | true =>
    simp only [hk, ha, ne_eq, not_true_eq_false, ↓reduceIte, hs,
      Bool.not_true, Bool.false_eq_true]
    exact .inr ⟨trivial, _, rfl, rfl, rfl, rfl, rfl⟩

theorem Inv.revert_other {id : Id} {now : Timestamp}
    (hk : ∀ k, s.db.merge id = some k → k.status ≠ .applied) :
    Inv db₀ (call s (.revert id now)) := by
  have hcall : call s (.revert id now) = ⟨s.db, .quiet⟩ := by
    unfold call ResolveEntities.revert
    cases hm : s.db.merge id with
    | none => simp only [hm]
    | some k => simp only [hm, hk k hm, ne_eq, not_false_eq_true, ↓reduceIte]
  rw [hcall]
  exact h.quiet

theorem Inv.ledger {id : Id} {k : EntityMerge} (hk : s.db.merge id = some k)
    (ha : k.status = .applied) (now : Timestamp) :
    ∃ pre post, links s.db.merges = pre ++ link k :: post
      ∧ links (s.db.merges.map fun m =>
          if m.id = id then
            { m with status := .reverted, revertedAt := some now }
          else m) = pre ++ post := by
  have hmem : k ∈ s.db.merges := List.mem_of_find?_eq_some hk
  have hid : k.id = id := by simpa using List.find?_some hk
  obtain ⟨as, bs, heq⟩ := List.append_of_mem hmem
  have hnd := h.mergeIds
  rw [heq, List.map_append, List.map_cons, List.nodup_append,
    List.nodup_cons] at hnd
  obtain ⟨-, ⟨hbs, -⟩, has⟩ := hnd
  -- no other row of the ledger has its id
  have hsame : ∀ ms : List EntityMerge, (∀ m ∈ ms, m.id ≠ id) →
      (ms.map fun m => if m.id = id then
        { m with status := MergeStatus.reverted, revertedAt := some now }
        else m) = ms := by
    intro ms hms
    exact (List.map_congr_left fun m hm => if_neg (hms m hm)).trans
      (List.map_id' ms)
  refine ⟨links as, links bs, ?_, ?_⟩
  · rw [heq, links_append, links_applied ha]
  · rw [heq, List.map_append, List.map_cons, hsame as, hsame bs, if_pos hid,
      links_append, links_other (by simp)]
    · intro m hm he
      exact hbs (hid ▸ he ▸ List.mem_map_of_mem hm)
    · intro m hm he
      exact has m.id (List.mem_map_of_mem hm) k.id List.mem_cons_self
        (he.trans hid.symm)

theorem Inv.putBack_iff (h₀ : Unmerged db₀) {k : EntityMerge}
    (hmem : k ∈ s.db.merges) (ha : k.status = .applied)
    {pre post : List (Link Id)}
    (hpre : links s.db.merges = pre ++ link k :: post) :
    putBack (fun m => m.id ∈ k.movedMentionIds) k.loserId
        (held db₀ s.db.merges) = absorbAll place (origin db₀) (pre ++ post)
      ↔ Separable db₀ s.db k := by
  rw [h.separable_iff h₀]
  unfold held
  have ho : Orderly (pre ++ link k :: post) := hpre ▸ h.orderly
  rw [hpre]
  refine Absorb.putBack_iff ho (origin_spread h₀) fun m a hm hlead hleft => ?_
  obtain ⟨hm₀, rfl⟩ := origin_eq_some.mp hm
  rw [← hpre] at hlead hleft
  exact h.recorded k hmem ha m hm₀ hlead hleft

theorem Inv.revert (h₀ : Unmerged db₀) {id : Id} {now : Timestamp}
    {k : EntityMerge} (hk : s.db.merge id = some k) (ha : k.status = .applied)
    (hs : Separable db₀ s.db k) : Inv db₀ (call s (.revert id now)) := by
  have hmem : k ∈ s.db.merges := List.mem_of_find?_eq_some hk
  obtain ⟨pre, post, hpre, hpost⟩ := h.ledger hk ha now
  have ho : Orderly (pre ++ link k :: post) := hpre ▸ h.orderly
  have hback := (h.putBack_iff h₀ hmem ha hpre).mpr hs
  have hview := (congrArg (List.map fun m : EntityMention =>
    if m.id ∈ k.movedMentionIds then { m with entityId := k.loserId }
    else m) h.mentions).trans (view_putBack k.movedMentionIds)
  rw [hback] at hview
  rcases @revert_call s id now k hk ha _ hview.symm with
    ⟨hbad, -⟩ | ⟨-, db, hcall, hmen, hent, hmer, hnext⟩
  · rw [view_spans h₀.mentionIds (spread_absorbAll (origin_spread h₀))] at hbad
    cases hbad
  · rw [hcall]
    rw [← hmer] at hpost
    -- a row of the new ledger, as it was
    have hrow : ∀ m ∈ db.merges, ∃ m₀ ∈ s.db.merges, m₀.id = m.id
        ∧ (m.status = .applied → m = m₀) := by
      intro m hm
      rw [hmer] at hm
      obtain ⟨m₀, hm₀, rfl⟩ := List.mem_map.mp hm
      by_cases hid : m₀.id = id
      · exact ⟨m₀, hm₀, by simp [hid], fun ha' => by simp [hid] at ha'⟩
      · exact ⟨m₀, hm₀, by simp [hid], fun _ => if_neg hid⟩
    constructor
    case orderly =>
      rw [hpost]
      exact ho.sublist
        ((List.Sublist.refl pre).append (List.sublist_cons_self _ post))
    case losers =>
      intro l hl
      rw [hpost] at hl
      refine h.losers l (hpre ▸ ?_)
      rcases List.mem_append.mp hl with hl | hl
      · exact List.mem_append_left _ hl
      · exact List.mem_append_right _ (List.mem_cons_of_mem _ hl)
    case entities =>
      rw [hent, hpost]
      unfold setMergedInto
      rw [h.entities, List.map_map, hpre]
      refine List.map_congr_left fun e _ => ?_
      rw [ho.next_erase]
      by_cases hid : e.id = k.loserId
      · simp [hid, link]
      · simp [hid, link]
    case mentions =>
      unfold held
      rw [hmen, hpost]
    case recorded =>
      intro m hm ha' x hx hlead hleft
      obtain ⟨m₀, hm₀, -, heq⟩ := hrow m hm
      obtain rfl := heq ha'
      refine h.recorded m hm₀ ha' x hx ?_ ?_
      · rw [hpost] at hlead
        rw [hpre]
        refine hlead.mono fun l hl => ?_
        rcases List.mem_append.mp hl with hl | hl
        · exact List.mem_append_left _ hl
        · exact List.mem_append_right _ (List.mem_cons_of_mem _ hl)
      · intro hnone
        apply hleft
        unfold held
        rw [hpost, ← hback]
        unfold putBack
        rw [hnone]
        simp
    case mergeIds =>
      have hids : db.merges.map (·.id) = s.db.merges.map (·.id) := by
        rw [hmer, List.map_map]
        refine List.map_congr_left fun m _ => ?_
        by_cases hid : m.id = id <;> simp [hid]
      rw [hids]
      exact h.mergeIds
    case fresh =>
      intro m hm
      obtain ⟨m₀, hm₀, hid, -⟩ := hrow m hm
      rw [← hid, hnext]
      exact h.fresh m₀ hm₀
    case succeeds => exact fun hf => by cases hf
    case restored =>
      intro l hl
      cases hl
      rw [hpost, ho.next_erase]
      exact if_pos rfl

theorem Inv.separable_of_undone (h₀ : Unmerged db₀) {id : Id}
    {now : Timestamp} {k : EntityMerge} (hk : s.db.merge id = some k)
    (ha : k.status = .applied)
    (hu : Undone db₀ (call s (.revert id now))) : Separable db₀ s.db k := by
  have hmem : k ∈ s.db.merges := List.mem_of_find?_eq_some hk
  obtain ⟨pre, post, hpre, hpost⟩ := h.ledger hk ha now
  rcases @revert_call s id now k hk ha _ rfl with
    ⟨-, hcall⟩ | ⟨-, db, hcall, hmen, -, hmer, -⟩
  · exact absurd (congrArg Desk.last hcall) hu.succeeds
  · rw [hcall] at hu
    have hrows := hu.mentions
    rw [kept_mentions h₀, hmen, h.mentions, view_putBack] at hrows
    unfold held at hrows
    rw [hmer, hpost] at hrows
    refine (h.putBack_iff h₀ hmem ha hpre).mp (funext fun m => ?_)
    by_cases hm : m ∈ db₀.mentions
    · exact view_inj h₀.mentionIds hrows m hm
    · have hnone : ∀ ks : List (Link Id),
          absorbAll place (origin db₀) ks m = none := by
        intro ks
        by_contra hne
        exact hm (absorbAll_mem hne)
      unfold putBack held
      rw [hnone, hnone]
      simp

end Invariant

-- ======= the claim

/-- Every merge taken back along a run is undone, and only that, exactly when
each of them was separable when it was taken back. -/
theorem undone_iff (db₀ : Db) (acts : List Call) (h₀ : Unmerged db₀) :
    calls.Always (Undone db₀) ⟨db₀, .quiet⟩ acts
      ↔ calls.EveryStep (Undoable db₀) ⟨db₀, .quiet⟩ acts := by
  apply Machine.always_iff_everyStep (Inv db₀)
  · exact fun s hs => hs.undone h₀
  · intro s c s' es hs hstep hc
    cases hstep
    cases c with
    | apply c now => exact hs.apply h₀ c now
    | revert id now =>
      by_cases hk : ∃ k, s.db.merge id = some k ∧ k.status = .applied
      · obtain ⟨k, hk, ha⟩ := hk
        exact hs.revert h₀ hk ha (hc k hk ha)
      · exact hs.revert_other fun k hk' ha => hk ⟨k, hk', ha⟩
  · intro s c s' es hs hstep hu
    cases hstep
    cases c with
    | apply c now => trivial
    | revert id now =>
      exact fun k hk ha => hs.separable_of_undone h₀ hk ha hu
  · exact inv_start h₀

-- ------ two names, one sighting

/-- Two entities of one type, both mentioned at the start of one chunk. -/
def seenTwice : Db where
  entities := [
    { id := 1, name := "postgres".toList, canonicalName := "postgres".toList,
      type := .technology, confidence := none, firstSeenAt := 0,
      mergedIntoId := none },
    { id := 2, name := "pg".toList, canonicalName := "pg".toList,
      type := .technology, confidence := none, firstSeenAt := 0,
      mergedIntoId := none }]
  mentions := [
    { id := 3, entityId := 1, memoryId := 8, chunkId := 9, charStart := 0,
      charEnd := 8, confidence := none, extractorVersion := "v",
      extractedAt := 0 },
    { id := 4, entityId := 2, memoryId := 8, chunkId := 9, charStart := 0,
      charEnd := 2, confidence := none, extractorVersion := "v",
      extractedAt := 0 }]
  nextId := 10

theorem seenTwice_unmerged : Unmerged seenTwice :=
  ⟨by decide, by decide, by decide, fun m hm => absurd hm List.not_mem_nil,
    by decide, by decide, fun m hm => absurd hm List.not_mem_nil⟩

theorem undone_iff_seenTwice :
    calls.Always (Undone seenTwice) ⟨seenTwice, .quiet⟩
        [.apply (manual 1 2) 0, .revert 10 0]
      ↔ calls.EveryStep (Undoable seenTwice) ⟨seenTwice, .quiet⟩
        [.apply (manual 1 2) 0, .revert 10 0] :=
  undone_iff seenTwice [.apply (manual 1 2) 0, .revert 10 0]
    seenTwice_unmerged

/-- Merging the two and taking the merge back loses a mention. -/
theorem not_undone :
    ¬ ∀ (db₀ : Db) (acts : List Call), Unmerged db₀ →
      calls.Always (Undone db₀) ⟨db₀, .quiet⟩ acts := by
  intro hclaim
  have hall := hclaim seenTwice [.apply (manual 1 2) 0, .revert 10 0]
    seenTwice_unmerged
  have hlast : Undone seenTwice (call (call ⟨seenTwice, .quiet⟩
      (.apply (manual 1 2) 0)) (.revert 10 0)) := hall.last rfl
  have hlost : (call (call ⟨seenTwice, .quiet⟩ (.apply (manual 1 2) 0))
      (.revert 10 0)).db.mentions.map (·.id) = [3] := by
    decide +kernel
  have hkept : (kept seenTwice (call (call ⟨seenTwice, .quiet⟩
      (.apply (manual 1 2) 0)) (.revert 10 0)).db.merges).mentions.map (·.id)
      = [3, 4] := by
    decide +kernel
  rw [hlast.mentions, hkept] at hlost
  cases hlost

end MemoryOS.Entities
