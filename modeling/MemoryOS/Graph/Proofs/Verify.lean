/-
A clean divergence is equality while each identity is there once and no text
holds a separator: the rows are told apart by their joined texts alone.

The second half of `verify_exact` is the replay's comparison, which tells
memories apart by their source's name.
-/
import Mathlib.Data.List.Perm.Basic
import Mathlib.Data.Rat.Encodable
import Mathlib.Logic.Equiv.List
import MemoryOS.Corpus.Live
import MemoryOS.Replay.Proofs.Verification

namespace MemoryOS.GraphVerify

open Lib

-- ====== statement vocabulary

/-- An entity, as a comparison reads it: its confidence to six places. -/
def entityRead (f : Formats) (node : EntityNode) : Id × List Text :=
  (node.entityId, entityRow f node)

/-- An edge, as a comparison reads it: its floats to six places, its
properties in order. -/
def edgeRead (f : Formats) (edge : GraphEdge) :
    GraphNode × GraphNode × List Text × List (Text × Property) :=
  (edge.start, edge.stop, edgeKey f edge, edgeRow f edge)

/-- The edges of a type. -/
def edgesOf (type : EdgeType) (p : GraphProjection) : List GraphEdge :=
  p.edges.filter fun e => decide (e.type = type)

/-- A divergence is clean exactly when its lists are empty and the two sides
are the same. -/
def Tells {κ ρ : Type} (d : TypeDivergence κ ρ) (same : Prop) : Prop :=
  d.clean = true ↔ d.differences.clean = true ∧ same

/-- What `compare` says of each type is so. -/
structure Told (f : Formats) (expected actual : GraphProjection) : Prop where
  source : Tells (compare f expected actual).source
    (expected.sources.Perm actual.sources)
  memory : Tells (compare f expected actual).memory
    (expected.memories.Perm actual.memories)
  entity : Tells (compare f expected actual).entity
    ((expected.entities.map (entityRead f)).Perm
      (actual.entities.map (entityRead f)))
  edges : ∀ type, Tells ((compare f expected actual).edges type)
    (((edgesOf type expected).map (edgeRead f)).Perm
      ((edgesOf type actual).map (edgeRead f)))

/-- The labels a type of edge connects. -/
def edgeLabels : EdgeType → GraphLabel × GraphLabel
  | .mentions => (.memory, .entity)
  | .relatesTo => (.entity, .entity)
  | .fromSource => (.memory, .source)

/-- Each identity is there once, edges connect what their type says, and no
text holds a separator. -/
structure Legible (f : Formats) (p : GraphProjection) : Prop where
  sourceIds : (p.sources.map (·.sourceId)).Nodup
  memoryIds : (p.memories.map (·.memoryId)).Nodup
  entityIds : (p.entities.map (·.entityId)).Nodup
  edgeKeys : ∀ type, ((edgesOf type p).map (edgeKey f)).Nodup
  labels : ∀ e ∈ p.edges, (e.start.label, e.stop.label) = edgeLabels e.type
  sources : ∀ node ∈ p.sources, Plain node.name ∧ Plain node.kind
  memories : ∀ node ∈ p.memories, Plain node.externalKey
  entities : ∀ node ∈ p.entities,
    Plain node.name ∧ Plain node.canonicalName ∧ Plain node.type
  edges : ∀ e ∈ p.edges, ∀ t ∈ edgeKey f e, Plain t

variable {f : Formats} {expected actual : GraphProjection}

-- ====== the digest

/-- An entry whose fields can be read back: two or more, and plain. -/
def Readable {κ ρ : Type} (fields : κ × ρ → List Text) (i : κ × ρ) : Prop :=
  2 ≤ (fields i).length ∧ ∀ t ∈ fields i, Plain t

theorem digestRows_eq_iff {κ ρ : Type} [LinearOrder κ]
    {fields : κ × ρ → List Text} {left right : List (κ × ρ)}
    (hdigest : Function.Injective f.digest)
    (hfields : Function.Injective fields)
    (hleft : ∀ i ∈ left, Readable fields i)
    (hright : ∀ i ∈ right, Readable fields i)
    (hkeys : (left.map Prod.fst).Nodup) :
    digestRows f fields left = digestRows f fields right
      ↔ left.Perm right := by
  have hsorted {items : List (κ × ρ)} (h : ∀ i ∈ items, Readable fields i) :
      ∀ r ∈ (items.insertionSort fun a b => a.1 ≤ b.1).map fields,
        2 ≤ r.length ∧ ∀ t ∈ r, Plain t := by
    intro r hr
    obtain ⟨i, hi, rfl⟩ := List.mem_map.mp hr
    exact h i ((List.mem_insertionSort _).mp hi)
  rw [← sorted_eq_iff hkeys]
  constructor
  · intro h
    exact hfields.list_map (joined_inj (by decide)
      (fun r hr => (hsorted hleft r hr).1) (fun r hr => (hsorted hright r hr).1)
      (fun r hr => (hsorted hleft r hr).2) (fun r hr => (hsorted hright r hr).2)
      (hdigest h))
  · intro h
    unfold digestRows
    rw [h]

theorem diffItems_tells {κ ρ : Type} [LinearOrder κ]
    {fields : κ × ρ → List Text} {same : ρ → ρ → Bool}
    {left right : List (κ × ρ)} (hdigest : Function.Injective f.digest)
    (hfields : Function.Injective fields)
    (hleft : ∀ i ∈ left, Readable fields i)
    (hright : ∀ i ∈ right, Readable fields i)
    (hkeys : (left.map Prod.fst).Nodup) (hkeys' : (right.map Prod.fst).Nodup)
    (hrefl : ∀ a, same a a = true) :
    Tells (diffItems f fields same left right) (left.Perm right) := by
  have hclean : (diffItems f fields same left right).clean = true
      ↔ left.Perm right := by
    unfold TypeDivergence.clean diffItems
    simp only
    rw [decide_eq_true_iff, keep_eq_self Prod.fst hkeys,
      keep_eq_self Prod.fst hkeys']
    exact digestRows_eq_iff hdigest hfields hleft hright hkeys
  unfold Tells
  rw [hclean]
  exact ⟨fun h => ⟨clean_of_perm hkeys (fun a _ => hrefl a.2) h, h⟩,
    fun h => h.2⟩

-- ======= the types

theorem node_fields_injective : Function.Injective
    fun item : Text × List Text => item.1 :: item.2 := by
  rintro ⟨k, row⟩ ⟨k', row'⟩ h
  obtain ⟨rfl, rfl⟩ := List.cons.inj h
  rfl

theorem diffNodes_tells (hdigest : Function.Injective f.digest)
    {left right : List (Text × List Text)}
    (hleft : ∀ i ∈ left, Readable (fun item => item.1 :: item.2) i)
    (hright : ∀ i ∈ right, Readable (fun item => item.1 :: item.2) i)
    (hkeys : (left.map Prod.fst).Nodup) (hkeys' : (right.map Prod.fst).Nodup) :
    Tells (diffNodes f left right) (left.Perm right) :=
  diffItems_tells hdigest node_fields_injective hleft hright hkeys hkeys'
    fun _ => decide_eq_true rfl

theorem nodup_uuid {α : Type} (hf : f.Sound) {id : α → Id} {row : α → List Text}
    {nodes : List α} (h : (nodes.map id).Nodup) :
    ((nodes.map fun x => (f.uuid (id x), row x)).map Prod.fst).Nodup := by
  rw [List.map_map]
  have hmap : (Prod.fst ∘ fun x => (f.uuid (id x), row x)) = f.uuid ∘ id := rfl
  rw [hmap, ← List.map_map]
  exact h.map hf.uuid_injective

theorem kind_plain (k : MemoryKind) : Plain k.value := by
  cases k <;> exact ⟨by decide, by decide⟩

theorem kind_injective : Function.Injective MemoryKind.value := by
  intro k k' h
  cases k <;> cases k' <;> first | rfl | exact absurd h (by decide)

theorem plain_nil : Plain [] := ⟨List.not_mem_nil, List.not_mem_nil⟩

theorem source_tells (hf : f.Sound) (hdigest : Function.Injective f.digest)
    (h : Legible f expected) (h' : Legible f actual) :
    Tells (compare f expected actual).source
      (expected.sources.Perm actual.sources) := by
  have hread {p : GraphProjection} (h : Legible f p) :
      ∀ i ∈ sourceItems f p, Readable (fun item => item.1 :: item.2) i := by
    intro i hi
    obtain ⟨node, hnode, rfl⟩ := List.mem_map.mp hi
    obtain ⟨hname, hkind⟩ := h.sources node hnode
    refine ⟨by simp, fun t ht => ?_⟩
    simp only [List.mem_cons, List.not_mem_nil, or_false] at ht
    obtain rfl | rfl | rfl := ht
    · exact hf.uuid_plain _
    · exact hname
    · exact hkind
  have hinj : Function.Injective fun node : SourceNode =>
      (f.uuid node.sourceId, [node.name, node.kind]) := by
    rintro ⟨id, name, kind⟩ ⟨id', name', kind'⟩ heq
    simp only [Prod.mk.injEq, List.cons.injEq, and_true] at heq
    obtain ⟨hid, rfl, rfl⟩ := heq
    rw [hf.uuid_injective hid]
  rw [← List.map_perm_map_iff hinj]
  exact diffNodes_tells hdigest (hread h) (hread h')
    (nodup_uuid hf h.sourceIds) (nodup_uuid hf h'.sourceIds)

theorem memory_tells (hf : f.Sound) (hdigest : Function.Injective f.digest)
    (h : Legible f expected) (h' : Legible f actual) :
    Tells (compare f expected actual).memory
      (expected.memories.Perm actual.memories) := by
  have hread {p : GraphProjection} (h : Legible f p) :
      ∀ i ∈ memoryItems f p, Readable (fun item => item.1 :: item.2) i := by
    intro i hi
    obtain ⟨node, hnode, rfl⟩ := List.mem_map.mp hi
    refine ⟨by simp [memoryRow], fun t ht => ?_⟩
    simp only [memoryRow, List.mem_cons, List.not_mem_nil, or_false] at ht
    obtain rfl | rfl | rfl | rfl := ht
    · exact hf.uuid_plain _
    · exact h.memories node hnode
    · exact kind_plain _
    · cases node.occurredAt with
      | none => exact plain_nil
      | some at' => exact hf.stamp_plain at'
  have hinj : Function.Injective fun node : MemoryNode =>
      (f.uuid node.memoryId, memoryRow f node) := by
    rintro ⟨id, key, kind, at'⟩ ⟨id', key', kind', at''⟩ heq
    simp only [memoryRow, Prod.mk.injEq, List.cons.injEq, and_true] at heq
    obtain ⟨hid, rfl, hkind, hstamp⟩ := heq
    rw [hf.uuid_injective hid, kind_injective hkind]
    refine congrArg _ ?_
    cases at' with
    | none =>
      cases at'' with
      | none => rfl
      | some b => exact absurd hstamp.symm (hf.stamp_ne_nil b)
    | some a =>
      cases at'' with
      | none => exact absurd hstamp (hf.stamp_ne_nil a)
      | some b => exact congrArg some (hf.stamp_injective hstamp)
  rw [← List.map_perm_map_iff hinj]
  exact diffNodes_tells hdigest (hread h) (hread h')
    (nodup_uuid hf h.memoryIds) (nodup_uuid hf h'.memoryIds)

theorem entity_tells (hf : f.Sound) (hdigest : Function.Injective f.digest)
    (h : Legible f expected) (h' : Legible f actual) :
    Tells (compare f expected actual).entity
      ((expected.entities.map (entityRead f)).Perm
        (actual.entities.map (entityRead f))) := by
  have hread {p : GraphProjection} (h : Legible f p) :
      ∀ i ∈ entityItems f p, Readable (fun item => item.1 :: item.2) i := by
    intro i hi
    obtain ⟨node, hnode, rfl⟩ := List.mem_map.mp hi
    obtain ⟨hname, hcanonical, htype⟩ := h.entities node hnode
    refine ⟨by simp [entityRow], fun t ht => ?_⟩
    simp only [entityRow, List.mem_cons, List.not_mem_nil, or_false] at ht
    obtain rfl | rfl | rfl | rfl | rfl := ht
    · exact hf.uuid_plain _
    · exact hname
    · exact hcanonical
    · exact htype
    · exact hf.sixPlaces_plain _
  have hinj : Function.Injective fun read : Id × List Text =>
      (f.uuid read.1, read.2) := by
    rintro ⟨id, row⟩ ⟨id', row'⟩ heq
    simp only [Prod.mk.injEq] at heq
    obtain ⟨hid, rfl⟩ := heq
    rw [hf.uuid_injective hid]
  rw [← List.map_perm_map_iff hinj, List.map_map, List.map_map]
  exact diffNodes_tells hdigest (hread h) (hread h')
    (nodup_uuid hf h.entityIds) (nodup_uuid hf h'.entityIds)

theorem valueEq_self (a : Property) : valueEq a a = true := by
  cases a <;> simp [valueEq]

theorem rowEq_self (row : List (Text × Property)) : rowEq row row = true := by
  induction row with
  | nil => rfl
  | cons p rest ih =>
    obtain ⟨k, a⟩ := p
    simp [rowEq, valueEq_self, ih]

theorem edge_tells (hf : f.Sound) (hdigest : Function.Injective f.digest)
    (h : Legible f expected) (h' : Legible f actual) (type : EdgeType) :
    Tells ((compare f expected actual).edges type)
      (((edgesOf type expected).map (edgeRead f)).Perm
        ((edgesOf type actual).map (edgeRead f))) := by
  have hread {p : GraphProjection} (h : Legible f p) :
      ∀ i ∈ edgeItems f type p.edges,
        Readable (fun item => item.1 ++ [f.repr item.2]) i := by
    intro i hi
    obtain ⟨e, he, rfl⟩ := List.mem_map.mp hi
    refine ⟨by simp [edgeKey], fun t ht => ?_⟩
    rcases List.mem_append.mp ht with ht | ht
    · exact h.edges e (List.mem_filter.mp he).1 t ht
    · rw [List.mem_singleton.mp ht]
      exact hf.repr_plain _
  have hfields : Function.Injective
      fun item : List Text × List (Text × Property) =>
        item.1 ++ [f.repr item.2] := by
    rintro ⟨k, row⟩ ⟨k', row'⟩ heq
    obtain ⟨hkey, hrepr⟩ := List.append_inj' heq rfl
    exact Prod.ext hkey (hf.repr_injective (List.cons.inj hrepr).1)
  -- an entry with the labels of its type is what is read of the edge
  let label (item : List Text × List (Text × Property)) :
      GraphNode × GraphNode × List Text × List (Text × Property) :=
    (⟨(edgeLabels type).1, item.1.headD []⟩,
      ⟨(edgeLabels type).2, (item.1.tail).headD []⟩, item.1, item.2)
  have hlabel : Function.Injective label := by
    rintro ⟨k, row⟩ ⟨k', row'⟩ heq
    simp only [label, Prod.mk.injEq] at heq
    obtain ⟨-, -, rfl, rfl⟩ := heq
    rfl
  have hitems {p : GraphProjection} (h : Legible f p) :
      (edgesOf type p).map (edgeRead f)
        = (edgeItems f type p.edges).map label := by
    unfold edgeItems edgesOf
    rw [List.map_map]
    refine List.map_congr_left fun e he => ?_
    obtain ⟨hmem, htype⟩ := List.mem_filter.mp he
    have hl := h.labels e hmem
    rw [of_decide_eq_true htype, Prod.mk.injEq] at hl
    obtain ⟨⟩ := e
    simp only [edgeRead, Function.comp_apply, label, edgeKey, List.headD_cons,
      List.tail_cons, Prod.mk.injEq, and_true]
    exact ⟨by rw [← hl.1], by rw [← hl.2]⟩
  have hkeys {p : GraphProjection} (h : Legible f p) :
      ((edgeItems f type p.edges).map Prod.fst).Nodup := by
    unfold edgeItems
    rw [List.map_map]
    exact h.edgeKeys type
  rw [hitems h, hitems h', List.map_perm_map_iff hlabel]
  exact diffItems_tells hdigest hfields (hread h) (hread h') (hkeys h)
    (hkeys h') rowEq_self

theorem told_of_legible (hf : f.Sound) (hdigest : Function.Injective f.digest)
    (h : Legible f expected) (h' : Legible f actual) :
    Told f expected actual where
  source := source_tells hf hdigest h h'
  memory := memory_tells hf hdigest h h'
  entity := entity_tells hf hdigest h h'
  edges := edge_tells hf hdigest h h'

-- ====== both verifications

/-- What both verifications say is so. -/
def SaysSo (w : Verification.Writing) (f : Formats) (before after : Db)
    (expected actual : GraphProjection) : Prop :=
  ((Verification.compare (Verification.snapshot w before)
      (Verification.snapshot w after)).identical = true
    ↔ Verification.SameRows (Verification.snapshot w before)
      (Verification.snapshot w after))
  ∧ Told f expected actual

/-- A clean verification means equality, while names tell the sources' items
apart, and the graph's identities and texts can be read back. -/
theorem verify_exact (w : Verification.Writing) (f : Formats) (hf : f.Sound)
    (hdigest : Function.Injective f.digest) (before after : Db)
    (hbefore : Verification.Schema before) (hafter : Verification.Schema after)
    (hapart : Verification.NamesApart before)
    (hapart' : Verification.NamesApart after)
    (expected actual : GraphProjection) (hexpected : Legible f expected)
    (hactual : Legible f actual) : SaysSo w f before after expected actual :=
  ⟨Verification.identical_iff hbefore hafter hapart hapart',
    told_of_legible hf hdigest hexpected hactual⟩

-- ------ two sources of one name

/-- A count of strokes. -/
def strokes (n : Nat) : Text := List.replicate n 'a'

theorem strokes_injective : Function.Injective strokes := fun n m h => by
  simpa [strokes] using congrArg List.length h

theorem strokes_plain (n : Nat) : Plain (strokes n) := by
  constructor
  · intro h
    exact absurd (List.eq_of_mem_replicate h) (by decide)
  · intro h
    exact absurd (List.eq_of_mem_replicate h) (by decide)

/-- A property by its shape. -/
def shape : Property → Option (Bool ⊕ Int ⊕ ℚ ⊕ List Nat)
  | .null => none
  | .bool b => some (.inl b)
  | .int n => some (.inr (.inl n))
  | .float q => some (.inr (.inr (.inl q)))
  | .text t => some (.inr (.inr (.inr (t.map Char.toNat))))

theorem toNat_injective : Function.Injective Char.toNat :=
  fun _ _ h => Char.ext (UInt32.toNat_inj.mp h)

theorem shape_injective : Function.Injective shape := by
  intro a b h
  cases a <;> cases b <;> simp only [shape, reduceCtorEq, Option.some.injEq,
    Sum.inl.injEq, Sum.inr.injEq] at h
  case null.null => rfl
  case bool.bool => rw [h]
  case int.int => rw [h]
  case float.float => rw [h]
  case text.text => rw [toNat_injective.list_map h]

/-- A platform that writes everything in strokes. -/
def strokePlatform : Formats where
  uuid := strokes
  stamp t := strokes (Encodable.encode t + 1)
  sixPlaces q := strokes (Encodable.encode q)
  str
    | .text t => t
    | value => strokes (Encodable.encode (shape value))
  repr props := '(' :: (strokes (Encodable.encode (props.map fun p =>
    (p.1.map Char.toNat, shape p.2))) ++ [')'])
  digest := String.ofList

theorem strokePlatform_sound : strokePlatform.Sound where
  uuid_injective := strokes_injective
  uuid_plain := strokes_plain
  stamp_injective := fun t t' h =>
    Encodable.encode_injective (Nat.succ_inj.mp (strokes_injective h))
  stamp_plain t := strokes_plain _
  stamp_ne_nil t h := by
    have := congrArg List.length h
    simp [strokePlatform, strokes] at this
  sixPlaces_plain q := strokes_plain _
  repr_injective := by
    intro props props' h
    have hcode := Encodable.encode_injective (strokes_injective
      (List.append_inj_left' (List.cons.inj h).2 rfl))
    refine Function.Injective.list_map ?_ hcode
    intro p p' heq
    obtain ⟨hk, ha⟩ := Prod.mk.inj heq
    exact Prod.ext (toNat_injective.list_map hk) (shape_injective ha)
  repr_plain props := by
    have hstrokes := strokes_plain (Encodable.encode (props.map fun p =>
      (p.1.map Char.toNat, shape p.2)))
    constructor
    · intro h
      rcases List.mem_cons.mp h with h | h
      · exact absurd h (by decide)
      · rcases List.mem_append.mp h with h | h
        · exact hstrokes.1 h
        · exact absurd (List.mem_singleton.mp h) (by decide)
    · intro h
      rcases List.mem_cons.mp h with h | h
      · exact absurd h (by decide)
      · rcases List.mem_append.mp h with h | h
        · exact hstrokes.2 h
        · exact absurd (List.mem_singleton.mp h) (by decide)

/-- Ids in strokes, and one digest for all vectors. -/
def strokeWriting : Verification.Writing where
  uuid := strokes
  digestOf _ := ""
  uuid_injective := strokes_injective

/-- A vault named as the uploads are, and the uploads. -/
def twoNamed : List Source :=
  [⟨1, .filesystem, "uploads"⟩, ⟨2, .upload, "uploads"⟩]

/-- A file of each, under one key. -/
def bothFiles : Db :=
  (Live.run .plain twoNamed [.ingest 1 (Live.note "a.md" "h1" [97]) 0,
    .ingest 2 (Live.note "a.md" "h2" [98]) 0]).db

/-- The upload alone. -/
def oneFile : Db :=
  (Live.run .plain twoNamed [.ingest 2 (Live.note "a.md" "h2" [98]) 0]).db

theorem schema_bothFiles : Verification.Schema bothFiles where
  sourceIds := by decide +kernel
  sourceNames := by decide +kernel
  memoryIds := by decide +kernel
  versions := by decide +kernel
  current := by decide +kernel
  ordinals := by decide +kernel
  known := by decide +kernel

theorem schema_oneFile : Verification.Schema oneFile where
  sourceIds := by decide +kernel
  sourceNames := by decide +kernel
  memoryIds := by decide +kernel
  versions := by decide +kernel
  current := by decide +kernel
  ordinals := by decide +kernel
  known := by decide +kernel

/-- A memory and its source. -/
def oneMemory : GraphProjection where
  sources := [⟨2, "uploads".toList, "upload".toList⟩]
  memories := [⟨1, "a.md".toList, .note, none⟩]
  edges := [⟨.fromSource, ⟨.memory, strokes 1⟩, ⟨.source, strokes 2⟩, []⟩]

theorem legible_oneMemory : Legible strokePlatform oneMemory where
  sourceIds := by decide +kernel
  memoryIds := by decide +kernel
  entityIds := by decide +kernel
  edgeKeys type := by cases type <;> decide +kernel
  labels := by decide +kernel
  sources := by unfold Plain; decide +kernel
  memories := by unfold Plain; decide +kernel
  entities := by unfold Plain; decide +kernel
  edges := by unfold Plain; decide +kernel

/-- The two verifications of an unchanged corpus, and of an empty graph. -/
theorem verify_exact_oneFile : SaysSo strokeWriting strokePlatform oneFile
    oneFile oneMemory {} :=
  verify_exact strokeWriting strokePlatform strokePlatform_sound
    (fun _ _ h => String.ofList_injective h) oneFile oneFile schema_oneFile
    schema_oneFile (by unfold Verification.NamesApart; decide +kernel)
    (by unfold Verification.NamesApart; decide +kernel) oneMemory {}
    legible_oneMemory
    ⟨by decide, by decide, by decide, fun type => by cases type <;> decide,
      List.forall_mem_nil _, List.forall_mem_nil _, List.forall_mem_nil _,
      List.forall_mem_nil _, List.forall_mem_nil _⟩

/-- The vault's file is lost, and the comparison says identical. -/
theorem verify_not_exact :
    ¬ ∀ (w : Verification.Writing) (f : Formats) (before after : Db)
        (expected actual : GraphProjection), f.Sound →
      Function.Injective f.digest → Verification.Schema before →
      Verification.Schema after →
        SaysSo w f before after expected actual := by
  intro hclaim
  obtain ⟨hverified, -⟩ := hclaim strokeWriting strokePlatform bothFiles oneFile
    {} {} strokePlatform_sound (fun _ _ h => String.ofList_injective h)
    schema_bothFiles schema_oneFile
  have hsame := hverified.mp (by decide +kernel)
  exact absurd hsame.memories.length_eq (by decide +kernel)

end MemoryOS.GraphVerify
