/-
Tags (`application/tags.py`).

A tag is a `CONCEPT` entity. What is stored of it, in `memory_tags`, is its
name on an item, so it outlives both: `reconcile` makes the entities again from
the names. `str.casefold`, Postgres's `lower` and its order of texts are
parameters, and so is what else happens to the entities.

# The results

`tags_found`: whatever is tagged and untagged, in whatever order, filtering by
the tags of a text finds the items that carry each of them, a search narrowed
to them lets these items through, and the vocabulary has each tag in use once,
with the number of the items that filtering by it finds. `reconcile_restores`:
whatever became of the entities, `reconcile` brings back the concept of every
tag and of nothing else, and there is nothing left for a second call.
-/
import Mathlib.Data.List.Dedup
import MemoryOS.Entities.Extraction
import MemoryOS.Lib.Outcome
import MemoryOS.Search.Fusion

namespace MemoryOS

open Lib Lib.DistinctOn

namespace Tags

-- ======= the words

/-- `Tag`. -/
structure Tag where
  name : Text
  label : Text
deriving DecidableEq, Repr

/-- `MAX_TAGS`. -/
def maxTags : Nat := 10

/-- `NoTags` and `TooManyTags`. -/
inductive Unusable
  | noTags
  | tooManyTags (count : Nat)
deriving DecidableEq, Repr

section Parsing

variable (unicode : Unicode) (casefold : Text → Text)

/-- `_TAG.finditer`: the words after a `#`. What is read so far of one, the
last character first, is `none` outside. -/
def labels : Option Text → Text → List Text
  | none, [] | some [], [] => []
  | some (d :: word), [] => [(d :: word).reverse]
  | none, c :: rest => labels (if c = '#' then some [] else none) rest
  | some [], c :: rest =>
    if unicode.isWord c then labels (some [c]) rest
    else labels (if c = '#' then some [] else none) rest
  | some (d :: word), c :: rest =>
    if unicode.isWord c || c == '-' then labels (some (c :: d :: word)) rest
    else
      (d :: word).reverse :: labels (if c = '#' then some [] else none) rest

/-- A label's tag, if anything is left of its name. -/
def tagOf (label : Text) : Option Tag :=
  let name := canonicalEntityName casefold label
  if name.isEmpty then none else some ⟨name, label⟩

/-- `parse`. -/
def parse (text : Text) : List Tag :=
  distinctOn Tag.name
    ((labels unicode none text).filterMap (tagOf casefold))

/-- `parse_required`. -/
def parseRequired (text : Text) : Except Unusable (List Tag) :=
  let tags := parse unicode casefold text
  if tags.isEmpty then .error .noTags
  else if maxTags < tags.length then .error (.tooManyTags tags.length)
  else .ok tags

end Parsing

-- ====== the tables

/-- A row of `memory_tags`, with its label. -/
structure TagRow where
  item : Item
  tag : Tag
deriving DecidableEq, Repr

/-- The row without it. -/
def TagRow.stored (r : TagRow) : MemoryTag :=
  ⟨r.item.sourceId, r.item.externalKey, r.tag.name⟩

/-- The tags, and the tables beside them. -/
structure Tagged where
  rows : List TagRow := []
  db : Db := {}

/-- `TagReport`. -/
structure TagReport where
  applied : List Tag := []
  already : List Tag := []
  entitiesCreated : Nat := 0

/-- The entity a tag is. -/
def isConcept (name : Text) (e : Entity) : Bool :=
  decide (e.canonicalName = name) && decide (e.type = .concept)

/-- The row it gets. -/
def conceptOf (now : Timestamp) (id : Id) (tag : Tag) : Entity where
  id := id
  name := tag.label
  canonicalName := tag.name
  type := .concept
  confidence := none
  firstSeenAt := now
  mergedIntoId := none

/-- `ensure_concept`. -/
def ensureConcept (now : Timestamp) (db : Db) (tag : Tag) :
    Except Failure (Db × Id × Bool) :=
  if !ExtractEntities.nameOk tag.label || !ExtractEntities.nameOk tag.name then
    .error .checkViolation
  else
    match db.entities.find? (isConcept tag.name) with
    | none =>
      .ok ({ db with
          entities := db.entities ++ [conceptOf now db.nextId tag]
          nextId := db.nextId + 1 },
        db.nextId, true)
    | some e =>
      match e.mergedIntoId with
      | none => .ok (db, e.id, false)
      | some winner =>
        .ok (db, ExtractEntities.followMerge db ExtractEntities.followDepth
          winner, false)

section Calls

variable (lower : Text → Text) (le : Text → Text → Bool) (now : Timestamp)

/-- The checks of `memory_tags`. -/
def tagOk (tag : Tag) : Bool :=
  ExtractEntities.nameOk tag.name && ExtractEntities.nameOk tag.label
    && decide (lower tag.name = tag.name) && decide (tag.name.head? ≠ some '#')

/-- The rows of an item with one of these names. -/
def isOn (item : Item) (names : List Text) (r : TagRow) : Bool :=
  decide (r.item = item) && names.contains r.tag.name

/-- The turn of `apply`. -/
def applyTag (item : Item) (s : Tagged) (report : TagReport) (tag : Tag) :
    Except Failure (Tagged × TagReport) := do
  let (db, _, isNew) ← ensureConcept now s.db tag
  let created := report.entitiesCreated + isNew.toNat
  if !tagOk lower tag then .error .checkViolation
  else if s.rows.any (isOn item [tag.name]) then
    .ok ({ s with db },
      { report with
        already := report.already ++ [tag], entitiesCreated := created })
  else if !db.sources.any fun x => decide (x.id = item.sourceId) then
    .error .foreignKeyViolation
  else
    .ok (⟨s.rows ++ [⟨item, tag⟩], db⟩,
      { report with
        applied := report.applied ++ [tag], entitiesCreated := created })

/-- `apply`. -/
def apply (item : Item) : Tagged → TagReport → List Tag →
    Except Failure (Tagged × TagReport)
  | s, report, [] => .ok (s, report)
  | s, report, tag :: rest => do
    let (s, report) ← applyTag lower now item s report tag
    apply item s report rest

/-- `remove`. -/
def remove (item : Item) (s : Tagged) (tags : List Tag) : Tagged × List Tag :=
  let gone := isOn item (tags.map (·.name))
  ({ s with rows := s.rows.filter fun r => !gone r },
    (s.rows.filter gone).map (·.tag))

/-- A tag in use, and the rows that have it. -/
def groupOf (rows : List TagRow) (name : Text) : Tag × Nat :=
  let group := rows.filter fun r => decide (r.tag.name = name)
  (⟨name, ((group.map (·.tag.label)).mergeSort le).headD []⟩, group.length)

/-- `GROUP BY tag ORDER BY tag`. -/
def groups (rows : List TagRow) : List (Tag × Nat) :=
  ((rows.map (·.tag.name)).dedup.mergeSort le).map (groupOf le rows)

/-- The loop of `reconcile`. -/
def ensureAll (db : Db) (created : Nat) :
    List Tag → Except Failure (Db × Nat)
  | [] => .ok (db, created)
  | tag :: rest => do
    let (db, _, isNew) ← ensureConcept now db tag
    ensureAll db (created + isNew.toNat) rest

/-- `reconcile`. -/
def reconcile (s : Tagged) : Except Failure (Tagged × Nat) := do
  let (db, created) ← ensureAll now s.db 0 ((groups le s.rows).map (·.1))
  .ok ({ s with db }, created)

/-- `all_tags`. -/
def allTags (rows : List TagRow) : List (Tag × Nat) :=
  (groups le rows).mergeSort fun a b => decide (b.2 ≤ a.2)

end Calls

/-- `for_items`, of one of them. -/
def forItem (le : Text → Text → Bool) (rows : List TagRow) (item : Item) :
    List Tag :=
  ((rows.filter fun r => decide (r.item = item)).map (·.tag)).mergeSort
    fun a b => le a.name b.name

/-- `items_with`. The order of the groups is nobody's. -/
def itemsWith (rows : List TagRow) (tags : List Tag) : List Item :=
  if tags.isEmpty then []
  else
    let hits := rows.filter fun r => (tags.map (·.name)).contains r.tag.name
    (hits.map (·.item)).dedup.filter fun item =>
      ((hits.filter fun r => decide (r.item = item)).map
        (·.tag.name)).dedup.length == tags.length

-- ======== the runs

/-- A call, or whatever else becomes of the tables beside the tags. -/
inductive Action
  | apply (item : Item) (text : Text) (now : Timestamp)
  | remove (item : Item) (text : Text)
  | reconcile (now : Timestamp)
  | rest (db : Db)

variable (unicode : Unicode) (casefold lower : Text → Text)
  (le : Text → Text → Bool)

/-- A call that raises leaves everything as it was. -/
def step (s : Tagged) : Action → Tagged
  | .apply item text now =>
    match parseRequired unicode casefold text with
    | .error _ => s
    | .ok tags =>
      match apply lower now item s {} tags with
      | .error _ => s
      | .ok r => r.1
  | .remove item text =>
    match parseRequired unicode casefold text with
    | .error _ => s
    | .ok tags => (remove item s tags).1
  | .reconcile now =>
    match reconcile le now s with
    | .error _ => s
    | .ok r => r.1
  | .rest db => { s with db }

/-- What the checks and the unique key make of the rows. -/
structure Sound (rows : List TagRow) : Prop where
  unique : (rows.map fun r => (r.item, r.tag.name)).Nodup
  checked : ∀ r ∈ rows, tagOk lower r.tag = true

variable {unicode casefold lower le} {now : Timestamp} {item : Item}
  {s s' : Tagged} {tag : Tag} {tags : List Tag} {db db' : Db}
  {rows : List TagRow}

theorem Sound.filter (h : Sound lower rows) (p : TagRow → Bool) :
    Sound lower (rows.filter p) where
  unique := h.unique.sublist (List.filter_sublist.map _)
  checked := fun r hr => h.checked r (List.mem_of_mem_filter hr)

theorem Sound.applyTag {report report' : TagReport}
    (h : Sound lower s.rows)
    (hr : applyTag lower now item s report tag = .ok (s', report')) :
    Sound lower s'.rows := by
  unfold Tags.applyTag at hr
  obtain ⟨⟨db, id, isNew⟩, -, hr⟩ := bind_ok.1 hr
  simp only at hr
  split at hr
  case isTrue => cases hr
  case isFalse hok =>
    split at hr
    case isTrue => cases hr; exact h
    case isFalse hnew =>
      split at hr
      case isTrue => cases hr
      case isFalse =>
        cases hr
        rw [Bool.not_eq_true, Bool.not_eq_false'] at hok
        constructor
        case unique =>
          rw [List.map_append, List.nodup_append']
          refine ⟨h.unique, List.nodup_singleton _, ?_⟩
          show List.Disjoint _ [(item, tag.name)]
          rw [List.disjoint_singleton]
          intro hmem
          obtain ⟨r, hr, heq⟩ := List.mem_map.1 hmem
          obtain ⟨hitem, hname⟩ := Prod.mk.inj heq
          refine hnew (List.any_eq_true.2 ⟨r, hr, ?_⟩)
          simp [isOn, hitem, hname]
        case checked =>
          intro r hr
          rcases List.mem_append.1 hr with hr | hr
          · exact h.checked r hr
          · rw [List.mem_singleton.1 hr]
            exact hok

theorem Sound.apply {report report' : TagReport} (h : Sound lower s.rows)
    (hr : apply lower now item s report tags = .ok (s', report')) :
    Sound lower s'.rows := by
  induction tags generalizing s report with
  | nil => cases hr; exact h
  | cons tag rest ih =>
    obtain ⟨⟨s₁, report₁⟩, h₁, hr⟩ := bind_ok.1 hr
    exact ih (h.applyTag h₁) hr

theorem reconcile_rows {created : Nat}
    (h : reconcile le now s = .ok (s', created)) : s'.rows = s.rows := by
  obtain ⟨⟨db, n⟩, -, h⟩ := bind_ok.1 h
  cases h
  rfl

theorem Sound.step (h : Sound lower s.rows) (a : Action) :
    Sound lower (step unicode casefold lower le s a).rows := by
  cases a with
  | apply item text now =>
    simp only [Tags.step]
    split
    case h_1 => exact h
    case h_2 =>
      split
      case h_1 => exact h
      case h_2 hr => exact h.apply hr
  | remove item text =>
    simp only [Tags.step]
    split
    case h_1 => exact h
    case h_2 => exact h.filter _
  | reconcile now =>
    simp only [Tags.step]
    split
    case h_1 => exact h
    case h_2 hr => rw [reconcile_rows hr]; exact h
  | rest db => exact h

theorem sound_run (acts : List Action) :
    Sound lower (acts.foldl (step unicode casefold lower le) {}).rows :=
  List.foldlRecOn acts _ (motive := fun s : Tagged => Sound lower s.rows)
    ⟨List.nodup_nil, List.forall_mem_nil _⟩ fun _ h a _ => h.step a

-- ======= the reads

/-- How an item is found by its tags. -/
structure Filed (le : Text → Text → Bool) (rows : List TagRow)
    (tags : List Tag) : Prop where
  found : ∀ item, item ∈ itemsWith rows tags ↔ tags ≠ []
    ∧ ∀ t ∈ tags, t.name ∈ (forItem le rows item).map (·.name)
  once : (itemsWith rows tags).Nodup
  searched : tags ≠ [] → ∀ (db : Db) (m : Memory),
    Filters.carriesEveryTag { db with tags := rows.map TagRow.stored }
      (tags.map (·.name)) m = true ↔ m.item ∈ itemsWith rows tags
  inUse : ∀ name, name ∈ (allTags le rows).map (·.1.name)
    ↔ ∃ item, name ∈ (forItem le rows item).map (·.name)
  distinct : ((allTags le rows).map (·.1.name)).Nodup
  counted : ∀ g ∈ allTags le rows, g.2 = (itemsWith rows [g.1]).length

theorem mem_forItem {name : Text} :
    name ∈ (forItem le rows item).map (·.name)
      ↔ ∃ r ∈ rows, r.item = item ∧ r.tag.name = name := by
  simp [forItem, and_assoc]

theorem mem_allTags {name : Text} :
    name ∈ (allTags le rows).map (·.1.name)
      ↔ name ∈ rows.map (·.tag.name) := by
  simp [allTags, groups, groupOf]

theorem groups_names (le : Text → Text → Bool) (rows : List TagRow) :
    ((groups le rows).map (·.1)).map (·.name)
      = (rows.map (·.tag.name)).dedup.mergeSort le := by
  rw [groups, List.map_map, List.map_map]
  exact List.map_id _

theorem nodup_groups (le : Text → Text → Bool) (rows : List TagRow) :
    (((groups le rows).map (·.1)).map (·.name)).Nodup := by
  rw [groups_names, (List.mergeSort_perm _ le).nodup_iff]
  exact List.nodup_dedup _

theorem nodup_parse (text : Text) :
    ((parse unicode casefold text).map (·.name)).Nodup :=
  List.pairwise_map.2 (pairwise_distinctOn.imp fun h => h)

theorem length_dedup_eq {l w : List Text} (hw : w.Nodup)
    (hsub : l ⊆ w) :
    l.dedup.length = w.length ↔ ∀ n ∈ w, n ∈ l := by
  have hperm := List.subperm_of_subset l.nodup_dedup
    fun n hn => hsub (List.mem_dedup.1 hn)
  constructor
  · intro hlen n hn
    exact List.mem_dedup.1
      ((hperm.perm_of_length_le hlen.ge).mem_iff.2 hn)
  · intro hall
    exact le_antisymm hperm.length_le
      (List.subperm_of_subset hw fun n hn =>
        List.mem_dedup.2 (hall n hn)).length_le

theorem mem_itemsWith (hw : (tags.map (·.name)).Nodup) :
    item ∈ itemsWith rows tags ↔ tags ≠ []
      ∧ ∀ t ∈ tags, ∃ r ∈ rows, r.item = item ∧ r.tag.name = t.name := by
  unfold itemsWith
  cases tags with
  | nil => simp
  | cons t rest =>
    rw [List.isEmpty_cons, if_neg Bool.false_ne_true]
    simp only [List.contains_eq_mem, List.mem_filter, List.mem_dedup,
      beq_iff_eq]
    have hlen : (t :: rest).length = ((t :: rest).map (·.name)).length :=
      List.length_map _ |>.symm
    rw [hlen, length_dedup_eq hw]
    · simp
      grind
    · intro n hn
      simp at hn
      grind

theorem counted_itemsWith (h : Sound lower rows) (name : Text) :
    (groupOf le rows name).2
      = (itemsWith rows [(groupOf le rows name).1]).length := by
  unfold itemsWith groupOf
  simp only [List.isEmpty_cons, Bool.false_eq_true, if_false, List.map_cons,
    List.map_nil, List.contains_eq_mem, List.mem_singleton,
    List.length_singleton]
  have hitems : ((rows.filter fun r => decide (r.tag.name = name)).map
      (·.item)).Nodup := by
    have hpairs := (h.filter fun r => decide (r.tag.name = name)).unique
    rw [List.Nodup, List.pairwise_map] at hpairs ⊢
    refine hpairs.imp_of_mem fun {a b} ha hb hne heq => hne ?_
    rw [heq, of_decide_eq_true (List.mem_filter.1 ha).2,
      of_decide_eq_true (List.mem_filter.1 hb).2]
  rw [hitems.dedup, ← List.length_map (·.item)]
  refine congrArg List.length (List.filter_eq_self.2 fun item hitem => ?_).symm
  obtain ⟨r, hr, rfl⟩ := List.mem_map.1 hitem
  rw [beq_iff_eq]
  have hnames := length_dedup_eq (List.nodup_singleton name)
    (l := ((rows.filter fun r => decide (r.tag.name = name)).filter
      fun x => decide (x.item = r.item)).map (·.tag.name)) fun n hn => by
      obtain ⟨x, hx, rfl⟩ := List.mem_map.1 hn
      have := (List.mem_filter.1 (List.mem_filter.1 hx).1).2
      simpa using this
  rw [List.length_singleton] at hnames
  rw [hnames]
  simp only [List.mem_singleton, forall_eq]
  refine List.mem_map.2 ⟨r, List.mem_filter.2 ⟨hr, decide_eq_true rfl⟩, ?_⟩
  exact of_decide_eq_true (List.mem_filter.1 hr).2

/-- **Filtering by tags finds what carries them.** Whatever is tagged and
untagged before, filtering by the tags of a text finds the items that carry
each of them, as a search narrowed to them does, and the vocabulary has each
tag in use once, with the number of the items that filtering by it finds. -/
theorem tags_found (unicode : Unicode) (casefold lower : Text → Text)
    (le : Text → Text → Bool) (acts : List Action) (text : Text) :
    Filed le (acts.foldl (step unicode casefold lower le) {}).rows
      (parse unicode casefold text) := by
  have h := @sound_run unicode casefold lower le acts
  generalize acts.foldl (step unicode casefold lower le) {} = s at h
  constructor
  case found =>
    intro item
    rw [mem_itemsWith (nodup_parse text)]
    simp only [mem_forItem]
  case once =>
    unfold itemsWith
    split
    · exact List.nodup_nil
    · exact (List.nodup_dedup _).filter _
  case searched =>
    intro hne db m
    have hn := @nodup_parse unicode casefold text
    unfold Filters.carriesEveryTag
    rw [decide_eq_true_eq, hn.dedup, mem_itemsWith hn, length_dedup_eq hn]
    · rw [and_iff_right hne, List.forall_mem_map]
      simp only [List.mem_map, List.mem_filter, Bool.and_eq_true,
        decide_eq_true_eq]
      refine forall₂_congr fun t ht => ?_
      constructor
      · rintro ⟨_, ⟨⟨r, hr, rfl⟩, ⟨hs, hk⟩, _⟩, htag⟩
        exact ⟨r, hr, congrArg₂ Item.mk hs hk, htag⟩
      · rintro ⟨r, hr, hitem, htag⟩
        refine ⟨r.stored, ⟨⟨r, hr, rfl⟩, ?_, t, ht, htag.symm⟩, htag⟩
        simp [TagRow.stored, hitem, Memory.item]
    · intro n h
      obtain ⟨_, hmem, rfl⟩ := List.mem_map.1 h
      have hkept := (List.mem_filter.1 hmem).2
      rw [Bool.and_eq_true, decide_eq_true_eq] at hkept
      exact hkept.2
  case inUse =>
    intro name
    rw [mem_allTags, List.mem_map]
    simp only [mem_forItem]
    exact ⟨fun ⟨r, hr, hname⟩ => ⟨r.item, r, hr, rfl, hname⟩,
      fun ⟨_, r, hr, _, hname⟩ => ⟨r, hr, hname⟩⟩
  case distinct =>
    have hnames := nodup_groups le s.rows
    rw [List.map_map] at hnames
    exact ((List.mergeSort_perm _ _).map _).nodup_iff.2 hnames
  case counted =>
    intro g hg
    obtain ⟨name, -, rfl⟩ := List.mem_map.1
      ((List.mergeSort_perm _ _).mem_iff.1 hg)
    exact counted_itemsWith h name

-- ====== the concepts

theorem ensureConcept_known (hok : tagOk lower tag = true)
    (h : db.entities.any (isConcept tag.name) = true) :
    ∃ id, ensureConcept now db tag = .ok (db, id, false) := by
  obtain ⟨e, he⟩ := Option.isSome_iff_exists.1 (List.find?_isSome.2
    (List.any_eq_true.1 h))
  simp only [tagOk, Bool.and_eq_true] at hok
  unfold ensureConcept
  rw [hok.1.1.1, hok.1.1.2, he]
  cases hmerged : e.mergedIntoId with
  | none => exact ⟨e.id, by simp [hmerged]⟩
  | some winner =>
    exact ⟨ExtractEntities.followMerge db ExtractEntities.followDepth winner,
      by simp [hmerged]⟩

theorem ensureConcept_new (hok : tagOk lower tag = true)
    (h : db.entities.any (isConcept tag.name) = false) :
    ensureConcept now db tag = .ok ({ db with
      entities := db.entities ++ [conceptOf now db.nextId tag]
      nextId := db.nextId + 1 }, db.nextId, true) := by
  have hnone : db.entities.find? (isConcept tag.name) = none :=
    List.find?_eq_none.2 (List.any_eq_false.1 h)
  simp only [tagOk, Bool.and_eq_true] at hok
  unfold ensureConcept
  rw [hok.1.1.1, hok.1.1.2, hnone]
  rfl

/-- The names without a concept. -/
def missing (db : Db) (names : List Text) : List Text :=
  names.filter fun name => !db.entities.any (isConcept name)

theorem ensureAll_eq (n : Nat) (hok : ∀ t ∈ tags, tagOk lower t = true)
    (hnames : (tags.map (·.name)).Nodup) :
    ∃ new, ensureAll now db n tags = .ok ({ db with
        entities := db.entities ++ new
        nextId := db.nextId + new.length }, n + new.length)
      ∧ new.map (·.canonicalName) = missing db (tags.map (·.name))
      ∧ ∀ e ∈ new, e.type = .concept := by
  induction tags generalizing db n with
  | nil =>
    refine ⟨[], ?_, rfl, List.forall_mem_nil _⟩
    rw [List.append_nil]
    rfl
  | cons t rest ih =>
    rw [List.forall_mem_cons] at hok
    rw [List.map_cons, List.nodup_cons] at hnames
    cases hknown : db.entities.any (isConcept t.name) with
    | true =>
      obtain ⟨id, hid⟩ := @ensureConcept_known _ now _ _ hok.1 hknown
      obtain ⟨new, hnew, hmissing, htype⟩ := @ih db n hok.2 hnames.2
      refine ⟨new, ?_, ?_, htype⟩
      · rw [ensureAll, hid]
        exact hnew
      · rw [hmissing, List.map_cons, missing, missing, List.filter_cons,
          hknown]
        rfl
    | false =>
      have hid := @ensureConcept_new _ now _ _ hok.1 hknown
      obtain ⟨new, hnew, hmissing, htype⟩ := @ih { db with
        entities := db.entities ++ [conceptOf now db.nextId t]
        nextId := db.nextId + 1 } (n + 1) hok.2 hnames.2
      refine ⟨conceptOf now db.nextId t :: new, ?_, ?_, ?_⟩
      · rw [ensureAll, hid]
        refine hnew.trans ?_
        rw [List.append_assoc, List.length_cons, Nat.add_right_comm,
          Nat.add_assoc n]
        grind
      · rw [List.map_cons, hmissing, List.map_cons, missing, missing,
          List.filter_cons, hknown]
        refine congrArg (List.cons t.name) (List.filter_congr fun name hn => ?_)
        have hne : t.name ≠ name := fun h => hnames.1 (h ▸ hn)
        simp [isConcept, conceptOf, hne]
      · exact List.forall_mem_cons.2 ⟨rfl, htype⟩

theorem groupOf_mem {name : Text} (h : name ∈ rows.map (·.tag.name)) :
    ∃ r ∈ rows, (groupOf le rows name).1 = r.tag := by
  have hlabel : (groupOf le rows name).1.label
      ∈ (rows.filter fun r => decide (r.tag.name = name)).map
        (·.tag.label) := by
    obtain ⟨r, hr, hname⟩ := List.mem_map.1 h
    have hmem : r ∈ rows.filter fun r => decide (r.tag.name = name) :=
      List.mem_filter.2 ⟨hr, decide_eq_true hname⟩
    rw [← (List.mergeSort_perm _ le).mem_iff]
    show List.headD _ [] ∈ _
    cases hsorted : ((rows.filter fun r => decide (r.tag.name = name)).map
        (·.tag.label)).mergeSort le with
    | nil =>
      have hperm := List.mergeSort_perm ((rows.filter fun r =>
        decide (r.tag.name = name)).map (·.tag.label)) le
      rw [hsorted, List.nil_perm, List.map_eq_nil_iff] at hperm
      rw [hperm] at hmem
      cases hmem
    | cons label _ => exact List.mem_cons_self
  obtain ⟨r, hr, hlabel⟩ := List.mem_map.1 hlabel
  obtain ⟨hr, hname⟩ := List.mem_filter.1 hr
  refine ⟨r, hr, ?_⟩
  show Tag.mk name _ = Tag.mk r.tag.name r.tag.label
  rw [hlabel, of_decide_eq_true hname]
  rfl

/-- **Names outlive ids.** Whatever became of the entities, `reconcile` makes
the concepts of the tags in use that have none, each once, and nothing else;
a second call finds nothing left to make. -/
theorem reconcile_restores (unicode : Unicode) (casefold lower : Text → Text)
    (le : Text → Text → Bool) (acts : List Action) (now later : Timestamp) :
    let s := acts.foldl (step unicode casefold lower le) {}
    ∃ new, let s' := { s with db := { s.db with
          entities := s.db.entities ++ new
          nextId := s.db.nextId + new.length } }
      reconcile le now s = .ok (s', new.length)
        ∧ reconcile le later s' = .ok (s', 0)
        ∧ (new.map (·.canonicalName)).Nodup
        ∧ (∀ name, name ∈ new.map (·.canonicalName)
          ↔ name ∈ s.rows.map (·.tag.name)
            ∧ s.db.entities.any (isConcept name) = false)
        ∧ ∀ e ∈ new, e.type = .concept := by
  intro s
  have h : Sound lower s.rows := sound_run acts
  have hok : ∀ t ∈ (groups le s.rows).map (·.1), tagOk lower t = true := by
    intro t ht
    obtain ⟨g, hg, rfl⟩ := List.mem_map.1 ht
    obtain ⟨name, hname, rfl⟩ := List.mem_map.1 hg
    rw [(List.mergeSort_perm _ le).mem_iff, List.mem_dedup] at hname
    obtain ⟨r, hr, hgroup⟩ := groupOf_mem hname
    rw [hgroup]
    exact h.checked r hr
  have hnames := nodup_groups le s.rows
  obtain ⟨new, hnew, hmissing, htype⟩ := @ensureAll_eq _ now _ s.db 0 hok hnames
  have hmem : ∀ name, name ∈ new.map (·.canonicalName)
      ↔ name ∈ s.rows.map (·.tag.name)
        ∧ s.db.entities.any (isConcept name) = false := by
    intro name
    rw [hmissing, missing, List.mem_filter, Bool.not_eq_true', groups_names,
      (List.mergeSort_perm _ le).mem_iff, List.mem_dedup]
  refine ⟨new, ?_, ?_, ?_, hmem, htype⟩
  · unfold reconcile
    rw [hnew, Nat.zero_add]
    rfl
  · obtain ⟨none, hnone, hleft, -⟩ := @ensureAll_eq _ later _ { s.db with
      entities := s.db.entities ++ new
      nextId := s.db.nextId + new.length } 0 hok hnames
    have hempty : none = [] := by
      rw [← List.map_eq_nil_iff, hleft, missing, List.filter_eq_nil_iff]
      intro name hname
      rw [Bool.not_eq_true', Bool.not_eq_false, List.any_append,
        Bool.or_eq_true, or_iff_not_imp_left, Bool.not_eq_true]
      intro hgone
      rw [groups_names, (List.mergeSort_perm _ le).mem_iff,
        List.mem_dedup] at hname
      obtain ⟨e, he, rfl⟩ := List.mem_map.1 ((hmem name).2 ⟨hname, hgone⟩)
      exact List.any_eq_true.2 ⟨e, he, by simp [isConcept, htype e he]⟩
    subst hempty
    unfold reconcile
    rw [hnone]
    simp
    rfl
  · rw [hmissing]
    exact hnames.filter _

end Tags

end MemoryOS
