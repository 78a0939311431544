/-
What a JSON export loses (`application/export.py`): nothing, as long as the name
it is asked for is one source's.

# The result

`export_complete_iff`: the pieces are one document whose items are those of the
scope, each once, in the order of source name and key, each with every version
in ascending order and its tags, exactly when no two sources share the name. The
batch size and the texts do not matter.

# The way there

The slices are the keys in order (`flatten_batches`), and each key of a slice
becomes its item (`exportItem_spec`), whatever else is in the slice: what the
queries find for the slice is filtered to the key (`filter_sorted`). The pieces
are read as the tokens of the document, one after another (`lex_itemPieces`).
-/
import MemoryOS.Corpus.Export
import MemoryOS.Replay.Proofs.Verification

namespace MemoryOS.Export

open Lib Verification

-- ====== statement vocabulary

/-- An item is in the scope of an export. -/
def InScope (db : Db) (source : Option String) (s : Source) (key : String) :
    Prop :=
  s ∈ db.sources ∧ (∀ name, source = some name → s.name = name)
    ∧ ∃ m ∈ db.memories, m.sourceId = s.id ∧ m.externalKey = key

/-- The item of a source and a key: every version in ascending order, and its
tags by name. -/
structure ItemOf (setting : Setting) (db : Db) (s : Source) (key : String)
    (item : ExportedItem) : Prop where
  source : item.source = s.name
  sourceKind : item.sourceKind = sourceKindName s.kind
  externalKey : item.externalKey = key
  versions : ∃ rows : List Memory,
    rows.Perm (db.memories.filter fun m =>
      decide ((m.sourceId, m.externalKey) = (s.id, key)))
    ∧ rows.Pairwise (fun a b => a.version < b.version)
    ∧ item.versions = rows.map (versionOf setting db)
  tags : ∃ rows : List MemoryTag,
    rows.Perm (db.tags.filter fun t =>
      decide ((t.sourceId, t.externalKey) = (s.id, key)))
    ∧ rows.Pairwise (fun a b => setting.textLe a.tag b.tag = true)
    ∧ item.tags = rows.map (display setting)

/-- One source and key before another. -/
def Before (setting : Setting) (a b : Source × String) : Prop :=
  thenBy setting a.1.name.toList b.1.name.toList
    (setting.textLe a.2.toList b.2.toList) = true

/-- The items of a scope, each once and in order. -/
structure Complete (setting : Setting) (db : Db) (source : Option String)
    (found : List ExportedItem) : Prop where
  scope : ∃ rows : List (Source × String),
    rows.Nodup
    ∧ (∀ s key, (s, key) ∈ rows ↔ InScope db source s key)
    ∧ rows.Pairwise (Before setting)
    ∧ List.Forall₂ (fun row item => ItemOf setting db row.1 row.2 item) rows
      found

/-- A text is one document with these items, and these are complete. -/
def Exported (setting : Setting) (now : Text) (db : Db) (source : Option String)
    (text : Text) : Prop :=
  ∃ found, Json.parse text = some (.obj [("meta".toList, header now source),
      ("items".toList, .arr (found.map ExportedItem.asDict))])
    ∧ Complete setting db source found

-- ========== slices

section
variable {α β : Type} {R : α → β → Prop} {n m : Nat} {l : List α}

theorem flatten_slices : ((List.range m).map fun i =>
      (l.drop (i * n)).take n).flatten = l.take (m * n) := by
  induction m with
  | zero => simp
  | succ m ih =>
    rw [List.range_succ, List.map_append, List.flatten_append, ih,
      List.map_singleton, List.flatten_singleton, Nat.succ_mul,
      List.take_add]

theorem flatten_batches (hn : 0 < n) : (batches n l).flatten = l := by
  unfold batches
  rw [flatten_slices]
  apply List.take_of_length_le
  have hdiv := Nat.lt_div_mul_add hn (a := l.length + n - 1)
  omega

theorem forall₂_filterMap {f : α → Option β}
    (h : ∀ x ∈ l, ∃ y, f x = some y ∧ R x y) :
    List.Forall₂ R l (l.filterMap f) := by
  induction l with
  | nil => exact .nil
  | cons x l ih =>
    obtain ⟨y, hy, hR⟩ := h x List.mem_cons_self
    rw [List.filterMap_cons_some hy]
    exact .cons hR (ih fun z hz => h z (List.mem_cons_of_mem x hz))

theorem forall₂_flatMap {parts : List (List α)} {f : List α → List β}
    (h : ∀ part ∈ parts, List.Forall₂ R part (f part)) :
    List.Forall₂ R parts.flatten (parts.flatMap f) := by
  induction parts with
  | nil => exact .nil
  | cons part parts ih =>
    rw [List.flatten_cons, List.flatMap_cons]
    exact List.rel_append (h part List.mem_cons_self)
      (ih fun q hq => h q (List.mem_cons_of_mem part hq))

end

-- =========== order

section
variable {α : Type} {setting : Setting}

theorem textLe_refl (setting : Setting) (a : Text) :
    setting.textLe a a = true := by
  rcases setting.textLe_total a a with h | h
  · exact h
  · exact h

theorem thenBy_iff {a b : Text} {rest : Bool} :
    thenBy setting a b rest = true
      ↔ setting.textLe a b = true
        ∧ (setting.textLe b a = true → rest = true) := by
  unfold thenBy
  rw [Bool.and_eq_true, Bool.or_eq_true, Bool.not_eq_true']
  cases setting.textLe b a <;> simp

theorem thenBy_total {text : α → Text} {rest : α → α → Bool}
    (hrest : ∀ a b, rest a b = true ∨ rest b a = true) (a b : α) :
    thenBy setting (text a) (text b) (rest a b) = true
      ∨ thenBy setting (text b) (text a) (rest b a) = true := by
  rw [thenBy_iff, thenBy_iff]
  cases hab : setting.textLe (text a) (text b) with
  | false =>
    have hba := (setting.textLe_total (text a) (text b)).resolve_left
      (by rw [hab]; exact Bool.false_ne_true)
    exact .inr ⟨hba, fun h => absurd h Bool.false_ne_true⟩
  | true =>
    cases hba : setting.textLe (text b) (text a) with
    | false => exact .inl ⟨rfl, fun h => absurd h Bool.false_ne_true⟩
    | true =>
      exact (hrest a b).imp (fun h => ⟨rfl, fun _ => h⟩)
        fun h => ⟨rfl, fun _ => h⟩

theorem thenBy_trans {text : α → Text} {rest : α → α → Bool}
    (hrest : ∀ a b c, rest a b = true → rest b c = true → rest a c = true)
    {a b c : α} (hab : thenBy setting (text a) (text b) (rest a b) = true)
    (hbc : thenBy setting (text b) (text c) (rest b c) = true) :
    thenBy setting (text a) (text c) (rest a c) = true := by
  rw [thenBy_iff] at hab hbc ⊢
  refine ⟨setting.textLe_trans _ _ _ hab.1 hbc.1, fun hca => ?_⟩
  exact hrest a b c
    (hab.2 (setting.textLe_trans _ _ _ hbc.1 hca))
    (hbc.2 (setting.textLe_trans _ _ _ hca hab.1))

theorem pairwise_sorted {r : α → α → Prop} [DecidableRel r] (l : List α)
    (htotal : ∀ a b, r a b ∨ r b a)
    (htrans : ∀ a b c, r a b → r b c → r a c) :
    (l.insertionSort r).Pairwise r := by
  have _ : Std.Total r := ⟨htotal⟩
  have _ : IsTrans α r := ⟨htrans⟩
  exact List.pairwise_insertionSort r l

theorem filter_sorted {r : α → α → Prop} [DecidableRel r] (l : List α)
    (htotal : ∀ a b, r a b ∨ r b a)
    (htrans : ∀ a b c, r a b → r b c → r a c) (slice key : α → Bool)
    (hkey : ∀ x ∈ l, key x = true → slice x = true) :
    (((l.filter slice).insertionSort r).filter key).Perm (l.filter key)
      ∧ (((l.filter slice).insertionSort r).filter key).Pairwise r := by
  constructor
  · have hperm := (List.perm_insertionSort r (l.filter slice)).filter key
    rw [List.filter_filter] at hperm
    have hsame : (l.filter fun x => key x && slice x) = l.filter key := by
      apply List.filter_congr
      intro x hx
      cases hk : key x with
      | false => rfl
      | true => rw [hkey x hx hk]; rfl
    rw [hsame] at hperm
    exact hperm
  · exact (pairwise_sorted _ htotal htrans).filter key

end

-- ============ keys

section
variable {setting : Setting} {db : Db} {source : Option String}
  {sourceId : Option Id} {s : Source} {key : String} {batch : Nat}
  {found : List ExportedItem}

theorem mem_keyRows : (s, key) ∈ keyRows setting db sourceId
    ↔ s ∈ db.sources ∧ (∀ id, sourceId = some id → s.id = id)
      ∧ ∃ m ∈ db.memories, m.sourceId = s.id ∧ m.externalKey = key := by
  unfold keyRows
  simp only [List.mem_insertionSort, List.mem_dedup, List.mem_flatMap,
    List.mem_filter, List.mem_map, decide_eq_true_eq]
  constructor
  · intro h
    obtain ⟨m, ⟨hm, hscope⟩, s', ⟨hs', hid⟩, heq⟩ := h
    obtain ⟨rfl, rfl⟩ := Prod.mk.inj heq
    refine ⟨hs', fun id hsome => ?_, m, hm, hid.symm, rfl⟩
    rw [hsome] at hscope
    exact hid.trans (of_decide_eq_true hscope)
  · intro h
    obtain ⟨hs, hid, m, hm, hsame, rfl⟩ := h
    refine ⟨m, ⟨hm, ?_⟩, s, ⟨hs, hsame.symm⟩, rfl⟩
    cases sourceId with
    | none => rfl
    | some id => exact decide_eq_true (hsame.trans (hid id rfl))

theorem nodup_keyRows : (keyRows setting db sourceId).Nodup :=
  (List.perm_insertionSort _ _).nodup_iff.2 (List.nodup_dedup _)

theorem sorted_keyRows :
    (keyRows setting db sourceId).Pairwise (Before setting) := by
  apply pairwise_sorted
    (r := fun a b : Source × String => thenBy setting a.1.name.toList
      b.1.name.toList (setting.textLe a.2.toList b.2.toList) = true)
  · intro a b
    exact @thenBy_total _ setting (fun x : Source × String => x.1.name.toList)
      (fun a b => setting.textLe a.2.toList b.2.toList)
      (fun a b => setting.textLe_total _ _) a b
  · intro a b c
    exact @thenBy_trans _ setting (fun x : Source × String => x.1.name.toList)
      (fun a b => setting.textLe a.2.toList b.2.toList)
      (fun a b c => setting.textLe_trans _ _ _) a b c

theorem resolveSource_spec (hschema : Schema db)
    (h : resolveSource db source = .ok sourceId) (hs : s ∈ db.sources) :
    (∀ id, sourceId = some id → s.id = id)
      ↔ ∀ name, source = some name → s.name = name := by
  cases source with
  | none =>
    have hnone : none = sourceId := Except.ok.inj h
    rw [← hnone]
    simp
  | some name =>
    unfold resolveSource at h
    dsimp only at h
    split at h
    case h_1 => cases h
    case h_3 => cases h
    case h_2 t hone =>
      have hsome : some t.id = sourceId := Except.ok.inj h
      have ht := List.mem_filter.1 (hone ▸ List.mem_cons_self)
      rw [← hsome]
      constructor
      · intro hid other hother
        rw [hschema.source_eq hs ht.1 (hid t.id rfl),
          ← Option.some.inj hother]
        exact of_decide_eq_true ht.2
      · intro hname id hid
        have hmem : s ∈ db.sources.filter fun s => decide (s.name = name) :=
          List.mem_filter.2 ⟨hs, decide_eq_true (hname name rfl)⟩
        rw [hone] at hmem
        rw [List.mem_singleton.1 hmem]
        exact Option.some.inj hid

theorem resolveSource_ok_iff (hschema : Schema db)
    (hasked : ∀ name, source = some name → ∃ s ∈ db.sources, s.name = name) :
    (∃ sourceId, resolveSource db source = .ok sourceId)
      ↔ ∀ name, source = some name → ∀ s ∈ db.sources, ∀ t ∈ db.sources,
        s.name = name → t.name = name → s = t := by
  cases source with
  | none =>
    refine ⟨fun _ name hname => ?_, fun _ => ⟨none, rfl⟩⟩
    exact absurd hname.symm (Option.some_ne_none name)
  | some name =>
    unfold resolveSource
    dsimp only
    split
    case h_1 hnone =>
      obtain ⟨s, hs, hname⟩ := hasked name rfl
      have hmem : s ∈ db.sources.filter fun s => decide (s.name = name) :=
        List.mem_filter.2 ⟨hs, decide_eq_true hname⟩
      rw [hnone] at hmem
      exact absurd hmem List.not_mem_nil
    case h_2 u hone =>
      refine ⟨fun _ other hother s hs t ht hsame htsame => ?_,
        fun _ => ⟨some u.id, rfl⟩⟩
      have honly : ∀ s ∈ db.sources, s.name = other → s = u := by
        intro s hs hsame
        rw [← Option.some.inj hother] at hsame
        have hmem : s ∈ db.sources.filter fun s => decide (s.name = name) :=
          List.mem_filter.2 ⟨hs, decide_eq_true hsame⟩
        rw [hone] at hmem
        exact List.mem_singleton.1 hmem
      exact (honly s hs hsame).trans (honly t ht htsame).symm
    case h_3 hnone hmany =>
      refine ⟨fun h => ?_, fun h => ?_⟩
      · obtain ⟨id, hid⟩ := h
        cases hid
      · cases hfound : db.sources.filter fun s => decide (s.name = name) with
        | nil => exact absurd hfound hnone
        | cons s rest =>
          cases rest with
          | nil => exact absurd hfound (hmany s)
          | cons t rest =>
            have hall : ∀ u ∈ s :: t :: rest,
                u ∈ db.sources ∧ u.name = name := by
              intro u hu
              rw [← hfound] at hu
              exact ⟨(List.mem_filter.1 hu).1,
                of_decide_eq_true (List.mem_filter.1 hu).2⟩
            have hs := hall s List.mem_cons_self
            have ht := hall t (List.mem_cons_of_mem s List.mem_cons_self)
            have hsame := h name rfl s hs.1 t ht.1 hs.2 ht.2
            have hnodup : (s :: t :: rest).Nodup := by
              rw [← hfound]
              exact (List.Nodup.of_map _ hschema.sourceIds).filter _
            rw [hsame] at hnodup
            exact absurd List.mem_cons_self (List.nodup_cons.1 hnodup).1

theorem mem_scope (hschema : Schema db)
    (h : resolveSource db source = .ok sourceId) :
    (s, key) ∈ keyRows setting db sourceId ↔ InScope db source s key := by
  rw [mem_keyRows]
  unfold InScope
  constructor
  · intro hrow
    obtain ⟨hs, hid, hm⟩ := hrow
    exact ⟨hs, (resolveSource_spec hschema h hs).1 hid, hm⟩
  · intro hscope
    obtain ⟨hs, hname, hm⟩ := hscope
    exact ⟨hs, (resolveSource_spec hschema h hs).2 hname, hm⟩

-- =========== items

theorem versionsFor_spec (hschema : Schema db) {keys : List (Id × String)}
    {pair : Id × String} (hpair : pair ∈ keys) :
    ∃ rows : List Memory,
      rows.Perm (db.memories.filter fun m =>
        decide ((m.sourceId, m.externalKey) = pair))
      ∧ rows.Pairwise (fun a b => a.version < b.version)
      ∧ versionsFor setting db keys pair = rows.map (versionOf setting db) := by
  have hsorted := filter_sorted
    (r := fun a b : Memory => thenBy setting a.externalKey.toList
      b.externalKey.toList (decide (a.version ≤ b.version)) = true)
    db.memories
    (fun a b => @thenBy_total _ setting (fun m : Memory => m.externalKey.toList)
      (fun a b => decide (a.version ≤ b.version))
      (fun a b => (Nat.le_total a.version b.version).imp decide_eq_true
        decide_eq_true) a b)
    (fun a b c => @thenBy_trans _ setting
      (fun m : Memory => m.externalKey.toList)
      (fun a b => decide (a.version ≤ b.version))
      (fun a b c hab hbc => decide_eq_true (Nat.le_trans (of_decide_eq_true hab)
        (of_decide_eq_true hbc))) a b c)
    (fun m => keys.contains (m.sourceId, m.externalKey))
    (fun m => decide ((m.sourceId, m.externalKey) = pair))
    (fun m _ hm => by
      rw [of_decide_eq_true hm]
      exact List.contains_iff_mem.2 hpair)
  refine ⟨_, hsorted.1, ?_, rfl⟩
  have hnodup := (List.Nodup.of_map _ hschema.versions).filter
    fun m => decide ((m.sourceId, m.externalKey) = pair)
  have hne := hsorted.1.nodup_iff.2 hnodup
  apply (hsorted.2.and hne).imp_of_mem
  intro a b ha hb hab
  obtain ⟨hle, hne⟩ := hab
  have hain := List.mem_filter.1 (hsorted.1.mem_iff.1 ha)
  have hbin := List.mem_filter.1 (hsorted.1.mem_iff.1 hb)
  have hpairs := (of_decide_eq_true hain.2).trans
    (of_decide_eq_true hbin.2).symm
  obtain ⟨hsource, hkey⟩ := Prod.mk.inj hpairs
  rw [thenBy_iff, hkey] at hle
  have hversion := of_decide_eq_true (hle.2 (textLe_refl setting _))
  apply Nat.lt_of_le_of_ne hversion
  intro hsame
  exact hne (hschema.version_eq hain.1 hbin.1 hsource hkey hsame)

theorem forItems_spec {keys : List (Id × String)} {pair : Id × String}
    (hpair : pair ∈ keys) :
    (forItems setting db keys pair).Perm (db.tags.filter fun t =>
        decide ((t.sourceId, t.externalKey) = pair))
      ∧ (forItems setting db keys pair).Pairwise
        (fun a b => setting.textLe a.tag b.tag = true) := by
  have hsorted := filter_sorted
    (r := fun a b : MemoryTag => setting.textLe a.tag b.tag = true) db.tags
    (fun a b => setting.textLe_total a.tag b.tag)
    (fun a b c => setting.textLe_trans a.tag b.tag c.tag)
    (fun t => (keys.map (·.1)).contains t.sourceId
      && (keys.map (·.2)).contains t.externalKey)
    (fun t => keys.contains (t.sourceId, t.externalKey)
      && decide ((t.sourceId, t.externalKey) = pair))
    (fun t _ ht => by
      have hmem := List.contains_iff_mem.1 (Bool.and_eq_true_iff.1 ht).1
      exact Bool.and_eq_true_iff.2
        ⟨List.contains_iff_mem.2 (List.mem_map_of_mem hmem),
          List.contains_iff_mem.2 (List.mem_map_of_mem hmem)⟩)
  have hsame : (db.tags.filter fun t =>
        keys.contains (t.sourceId, t.externalKey)
          && decide ((t.sourceId, t.externalKey) = pair))
      = db.tags.filter fun t =>
        decide ((t.sourceId, t.externalKey) = pair) := by
    apply List.filter_congr
    intro t _
    cases ht : decide ((t.sourceId, t.externalKey) = pair) with
    | false => rw [Bool.and_false]
    | true =>
      rw [Bool.and_true, of_decide_eq_true ht]
      exact List.contains_iff_mem.2 hpair
  rw [hsame] at hsorted
  exact hsorted

theorem exportItem_spec (hschema : Schema db)
    (hrow : (s, key) ∈ keyRows setting db sourceId)
    {keys : List (Id × String)} (hkeys : (s.id, key) ∈ keys) :
    ∃ item, exportItem setting db (keyRows setting db sourceId) keys (s.id, key)
        = some item
      ∧ ItemOf setting db s key item := by
  obtain ⟨versions, hperm, hascending, hversions⟩ :=
    @versionsFor_spec setting db hschema keys (s.id, key) hkeys
  obtain ⟨hs, -, m, hm, hsource, hkey⟩ := mem_keyRows.1 hrow
  have hmem : m ∈ versions := hperm.mem_iff.2 (List.mem_filter.2
    ⟨hm, decide_eq_true (by rw [hsource, hkey])⟩)
  have hne : (versionsFor setting db keys (s.id, key)).isEmpty = false := by
    rw [hversions, List.isEmpty_eq_false_iff]
    exact List.ne_nil_of_mem (List.mem_map_of_mem hmem)
  have hsome : ((keyRows setting db sourceId).reverse.find? fun row =>
      decide (row.1.id = s.id)).isSome := by
    rw [List.find?_isSome]
    exact ⟨(s, key), List.mem_reverse.2 hrow, decide_eq_true rfl⟩
  obtain ⟨row, hfind⟩ := Option.isSome_iff_exists.1 hsome
  have hsame : row.1 = s := by
    have hin := List.mem_reverse.1 (List.mem_of_find?_eq_some hfind)
    have hid := List.find?_some hfind
    exact hschema.source_eq (mem_keyRows.1 hin).1 hs (of_decide_eq_true hid)
  have htags := @forItems_spec setting db keys (s.id, key) hkeys
  refine ⟨⟨s.name, sourceKindName s.kind, key,
    versionsFor setting db keys (s.id, key),
    (forItems setting db keys (s.id, key)).map (display setting)⟩, ?_, ?_⟩
  · unfold exportItem
    dsimp only
    rw [if_neg (by rw [hne]; exact Bool.false_ne_true), hfind, Option.map_some,
      hsame]
  · exact ⟨rfl, rfl, rfl, ⟨versions, hperm, hascending, hversions⟩,
      ⟨_, htags.1, htags.2, rfl⟩⟩

theorem items_complete (hschema : Schema db) (hbatch : 0 < batch)
    (h : items setting db batch source = .ok found) :
    Complete setting db source found := by
  unfold items at h
  cases hresolved : resolveSource db source with
  | error e => rw [hresolved] at h; cases h
  | ok sourceId =>
    rw [hresolved] at h
    rw [← Except.ok.inj h]
    refine ⟨keyRows setting db sourceId, nodup_keyRows,
      fun s key => mem_scope hschema hresolved, sorted_keyRows, ?_⟩
    have hall : List.Forall₂ (fun (pair : Id × String) item =>
        ∀ s, (s, pair.2) ∈ keyRows setting db sourceId → s.id = pair.1 →
          ItemOf setting db s pair.2 item)
        (batches batch ((keyRows setting db sourceId).map fun row =>
          (row.1.id, row.2))).flatten
        ((batches batch ((keyRows setting db sourceId).map fun row =>
          (row.1.id, row.2))).flatMap fun keys =>
            keys.filterMap (exportItem setting db
              (keyRows setting db sourceId) keys)) := by
      apply forall₂_flatMap
      intro keys hkeys
      apply forall₂_filterMap
      intro pair hpair
      have hin : pair ∈ (keyRows setting db sourceId).map fun row =>
          (row.1.id, row.2) := by
        rw [← @flatten_batches _ batch ((keyRows setting db sourceId).map
          fun row => (row.1.id, row.2)) hbatch]
        exact List.mem_flatten.2 ⟨keys, hkeys, hpair⟩
      obtain ⟨row, hrow, rfl⟩ := List.mem_map.1 hin
      obtain ⟨item, hitem, hof⟩ := exportItem_spec hschema hrow hpair
      refine ⟨item, hitem, fun s hs hid => ?_⟩
      have hsame := hschema.source_eq (mem_keyRows.1 hs).1
        (mem_keyRows.1 hrow).1 hid
      rw [hsame]
      exact hof
    rw [flatten_batches hbatch, List.forall₂_map_left_iff] at hall
    have hrows := (List.forall₂_and_left (keyRows setting db sourceId) _).2
      ⟨fun row hrow => hrow, hall⟩
    exact hrows.imp fun row item h => h.2 row.1 h.1 rfl

end

-- ======== document

section
variable {setting : Setting} {now : Text} {db : Db} {source : Option String}
  {batch : Nat} {found : List ExportedItem} {rest : List Char}
  {ts : List Json.Token} {pieces : List Text}

open Json

theorem lexFrom_commaLine : lexFrom (.between, ts) (',' :: '\n' :: rest)
    = lexFrom (.between, ts ++ [.comma]) rest := rfl

theorem lex_itemPieces (hrest : Stops rest) :
    lexFrom (.between, ts) ((itemPieces false found).flatten ++ rest)
        = lexFrom (.between,
          ts ++ tokensItems (found.map ExportedItem.asDict)) rest
      ∧ Stops ((itemPieces false found).flatten ++ rest) := by
  induction found generalizing ts with
  | nil =>
    rw [List.map_nil, tokensItems, List.append_nil]
    exact ⟨rfl, hrest⟩
  | cons item found ih =>
    have htext : (itemPieces false (item :: found)).flatten ++ rest
        = ',' :: '\n' :: (dumps item.asDict
          ++ ((itemPieces false found).flatten ++ rest)) := by
      simp [itemPieces]
    have htokens : ts ++ tokensItems ((item :: found).map ExportedItem.asDict)
        = ts ++ [.comma] ++ tokens item.asDict
          ++ tokensItems (found.map ExportedItem.asDict) := by
      simp [tokensItems]
    obtain ⟨htail, hstops⟩ := @ih (ts ++ [.comma] ++ tokens item.asDict)
    rw [htext, htokens, lexFrom_commaLine, lex_dumps _ _ hstops, htail]
    exact ⟨rfl, stops_cons rfl⟩

theorem lex_allPieces :
    lexFrom (.between, ts) ('[' :: '\n' :: ((itemPieces true found).flatten
        ++ ('\n' :: ']' :: rest)))
      = lexFrom (.between,
        ts ++ tokens (.arr (found.map ExportedItem.asDict))) rest := by
  have hopen : ∀ after, lexFrom (.between, ts) ('[' :: '\n' :: after)
      = lexFrom (.between, ts ++ [.lbrack]) after := fun _ => rfl
  have hclose : ∀ ts, lexFrom (.between, ts) ('\n' :: ']' :: rest)
      = lexFrom (.between, ts ++ [.rbrack]) rest := fun _ => rfl
  rw [hopen]
  cases found with
  | nil =>
    show lexFrom _ ('\n' :: ']' :: rest) = _
    rw [hclose, List.append_assoc]
    rfl
  | cons item found =>
    have htext : (itemPieces true (item :: found)).flatten
          ++ ('\n' :: ']' :: rest)
        = dumps item.asDict
          ++ ((itemPieces false found).flatten ++ ('\n' :: ']' :: rest)) := by
      simp [itemPieces]
    have htokens : ts
          ++ tokens (.arr ((item :: found).map ExportedItem.asDict))
        = ts ++ [.lbrack] ++ tokens item.asDict
          ++ tokensItems (found.map ExportedItem.asDict) ++ [.rbrack] := by
      simp [tokens]
    have hline : Stops ('\n' :: ']' :: rest) := stops_cons rfl
    have hafter := fun ts =>
      @lex_itemPieces found ('\n' :: ']' :: rest) ts hline
    rw [htext, htokens, lex_dumps _ _ (hafter []).2, (hafter _).1, hclose]

theorem parse_pieces (h : toJson setting now db batch source = .ok pieces)
    (hitems : items setting db batch source = .ok found) :
    parse pieces.flatten = some (.obj [("meta".toList, header now source),
      ("items".toList, .arr (found.map ExportedItem.asDict))]) := by
  have hpieces : pieces = ["\x7b\n".toList,
        "\"meta\": ".toList ++ dumps (header now source) ++ ",\n".toList,
        "\"items\": [\n".toList]
      ++ itemPieces true found ++ ["\n]\n\x7d\n".toList] := by
    unfold toJson at h
    rw [hitems] at h
    exact (Except.ok.inj h).symm
  have htext : pieces.flatten = '\x7b' :: '\n' :: (quoted "meta".toList
      ++ (':' :: ' ' :: (dumps (header now source) ++ (',' :: '\n'
        :: (quoted "items".toList ++ (':' :: ' ' :: '[' :: '\n'
          :: ((itemPieces true found).flatten
            ++ ('\n' :: ']' :: '\n' :: '\x7d' :: '\n' :: []))))))))  := by
    have hmeta : "\"meta\": ".toList = quoted "meta".toList ++ [':', ' '] := by
      decide
    have hlist : "\"items\": [\n".toList
        = quoted "items".toList ++ [':', ' ', '[', '\n'] := by
      decide
    have hopen : "\x7b\n".toList = ['\x7b', '\n'] := by decide
    have hcomma : ",\n".toList = [',', '\n'] := by decide
    have hclose : "\n]\n\x7d\n".toList = ['\n', ']', '\n', '\x7d', '\n'] := by
      decide
    rw [hpieces, hmeta, hlist, hopen, hcomma, hclose]
    simp
  have hbrace : ∀ after, lexFrom (.between, []) ('\x7b' :: '\n' :: after)
      = lexFrom (.between, [.lbrace]) after := fun _ => rfl
  have hend : ∀ ts, lexFrom (.between, ts) ['\n', '\x7d', '\n']
      = some (.between, ts ++ [.rbrace]) := fun _ => rfl
  apply parse_of_lex
  rw [htext, hbrace, lexFrom_quoted, lexFrom_colon,
    lex_dumps _ _ (stops_cons rfl), lexFrom_commaLine, lexFrom_quoted,
    lexFrom_colon, lex_allPieces, hend]
  simp [tokens, tokensFields]

end

/-- For every corpus under its schema, every batch size and every source that an
export may be asked for: the pieces are one document whose items are those of
the scope, each once and in order, each with every version in ascending order
and its tags, if and only if no two sources share the name that is asked for. -/
theorem export_complete_iff (setting : Setting) (now : Text) (db : Db)
    (batch : Nat) (source : Option String) (hschema : Schema db)
    (hbatch : 0 < batch)
    (hasked : ∀ name, source = some name → ∃ s ∈ db.sources, s.name = name) :
    (∃ pieces, toJson setting now db batch source = .ok pieces
        ∧ Exported setting now db source pieces.flatten)
      ↔ ∀ name, source = some name → ∀ s ∈ db.sources, ∀ t ∈ db.sources,
        s.name = name → t.name = name → s = t := by
  rw [← resolveSource_ok_iff hschema hasked]
  constructor
  · intro h
    obtain ⟨pieces, hpieces, -⟩ := h
    cases hresolved : resolveSource db source with
    | ok sourceId => exact ⟨sourceId, rfl⟩
    | error e =>
      unfold toJson items at hpieces
      rw [hresolved] at hpieces
      cases hpieces
  · intro h
    obtain ⟨sourceId, hresolved⟩ := h
    cases hitems : items setting db batch source with
    | error e =>
      unfold items at hitems
      rw [hresolved] at hitems
      cases hitems
    | ok found =>
      cases hpieces : toJson setting now db batch source with
      | error e =>
        unfold toJson at hpieces
        rw [hitems] at hpieces
        cases hpieces
      | ok pieces =>
        exact ⟨pieces, rfl, found, parse_pieces hpieces hitems,
          items_complete hschema hbatch hitems⟩

-- ------ two sources alike

/-- Text by its code points, and an instant as that many strokes. -/
def codePoints : Setting where
  textLe a b := decide (a.map Char.toNat ≤ b.map Char.toNat)
  textLe_total a b := (le_total (a.map Char.toNat) (b.map Char.toNat)).imp
    decide_eq_true decide_eq_true
  textLe_trans _ _ _ hab hbc := decide_eq_true
    (le_trans (of_decide_eq_true hab) (of_decide_eq_true hbc))
  isoformat instant := List.replicate instant.toNat '|'
  label tag := tag.tag

/-- A version of one note of a source. -/
def noteVersion (id sourceId version : Nat) (isCurrent : Bool) :
    Memory where
  id := id
  sourceId := sourceId
  externalKey := "a.md"
  version := version
  isCurrent := isCurrent
  contentHash := "h"
  normalizedHash := none
  kind := .note
  title := none
  content := some "Say \"hi\".\n".toList
  occurredAt := none
  occurredAtSource := .unknown
  ingestedAt := 1
  mediaType := none
  parsed := none
  deletedAt := none
  entityExtractorVersion := none
  relationshipExtractorVersion := none

/-- A vault named as the uploads are, a note of each under one key, and a tag:
the vault's note was edited. -/
def twoKinds : Db where
  sources := [⟨1, .filesystem, "notes"⟩, ⟨2, .upload, "notes"⟩]
  memories := [noteVersion 12 1 2 true, noteVersion 11 1 1 false,
    noteVersion 21 2 1 true]
  tags := [⟨2, "a.md", "kept".toList⟩]

theorem schema_twoKinds : Schema twoKinds where
  sourceIds := by decide
  sourceNames := by decide
  memoryIds := by decide
  versions := by decide
  current := by decide
  ordinals := by decide
  known := by decide

/-- The whole corpus, one item at a time. -/
theorem export_complete_wholeCorpus : ∃ pieces,
    toJson codePoints "now".toList twoKinds 1 none = .ok pieces
      ∧ Exported codePoints "now".toList twoKinds none pieces.flatten :=
  (export_complete_iff codePoints "now".toList twoKinds 1 none schema_twoKinds
    Nat.one_pos (fun name hname => absurd hname.symm
      (Option.some_ne_none name))).2
    fun name hname => absurd hname.symm (Option.some_ne_none name)

/-- Asked for the name of both, nothing is exported. -/
theorem not_export_complete : ¬ ∀ (setting : Setting) (now : Text) (db : Db)
    (batch : Nat) (source : Option String), Schema db → 0 < batch →
      (∀ name, source = some name → ∃ s ∈ db.sources, s.name = name) →
      ∃ pieces, toJson setting now db batch source = .ok pieces
        ∧ Exported setting now db source pieces.flatten := by
  intro hclaim
  have hasked : ∀ name, some "notes" = some name →
      ∃ s ∈ twoKinds.sources, s.name = name := by
    intro name hname
    exact ⟨⟨1, .filesystem, "notes"⟩, List.mem_cons_self,
      Option.some.inj hname⟩
  have hrefused : toJson codePoints "now".toList twoKinds defaultBatch
      (some "notes") = .error .multipleResultsFound := rfl
  obtain ⟨pieces, hpieces, -⟩ := hclaim codePoints "now".toList twoKinds
    defaultBatch (some "notes") schema_twoKinds (by decide) hasked
  rw [hrefused] at hpieces
  cases hpieces

end MemoryOS.Export
