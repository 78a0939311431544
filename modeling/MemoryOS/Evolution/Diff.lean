/-
What changed between two versions of an item (`domain/diffing.py`,
`evolution.diff_versions`), which chunks of the newer version a change landed
in (`evolution._affected_chunks`), and how a pairing of lines is printed
(`difflib.unified_diff`).

`difflib` is a parameter: how it pairs two lists of lines, and how it prints
the pairing. `unified_diff` pairs the lines itself, with the heuristic that
`diff_spans` switches off, so the pairing it prints is a parameter of its own.
-/
import Mathlib.Data.List.Sort
import MemoryOS.Chunking.Code
import MemoryOS.Db.Tables
import MemoryOS.Lib.Patch

namespace MemoryOS

namespace Evolution

-- =========== spans

/-- The tags of `SequenceMatcher.get_opcodes`. -/
inductive Tag
  | equal | replace | delete | insert
deriving DecidableEq, Repr

/-- `(tag, i1, i2, j1, j2)`. -/
structure Opcode where
  tag : Tag
  i₁ : Nat
  i₂ : Nat
  j₁ : Nat
  j₂ : Nat
deriving DecidableEq, Repr

/-- What the program takes from `difflib`. -/
structure Difflib where
  /-- `SequenceMatcher(None, a, b, autojunk=False).get_opcodes()`. -/
  opcodes : List Text → List Text → List Opcode
  /-- `unified_diff(a, b, fromfile, tofile, n)`. -/
  unifiedDiff : List Text → List Text → Text → Text → Nat → List Text

/-- `ChangeKind`. -/
inductive ChangeKind
  | added | removed | changed
deriving DecidableEq, Repr

/-- `Span`: one run of change, located in both texts. -/
structure Span where
  kind : ChangeKind
  aStart : Nat
  aEnd : Nat
  bStart : Nat
  bEnd : Nat
  aText : Text
  bText : Text
deriving DecidableEq, Repr

/-- `_KINDS`; an equal run has none. -/
def kinds : Tag → Option ChangeKind
  | .equal => none
  | .replace => some .changed
  | .delete => some .removed
  | .insert => some .added

/-- `_offsets`: where each line starts, and the end of the text. -/
def offsetsFrom (start : Nat) : List Text → List Nat
  | [] => [start]
  | line :: rest => start :: offsetsFrom (start + line.length) rest

/-- `str.splitlines(keepends=True)`. -/
def linesOf (text : Text) : List Text := CodeBoundaries.splitLinesFrom [] text

/-- `text[start:end]`. -/
def slice (text : Text) (start stop : Nat) : Text :=
  (text.drop start).take (stop - start)

/-- `diff_spans`. -/
def diffSpans (lib : Difflib) (before after : Text) : List Span :=
  let aOffsets := offsetsFrom 0 (linesOf before)
  let bOffsets := offsetsFrom 0 (linesOf after)
  (lib.opcodes (linesOf before) (linesOf after)).filterMap fun op =>
    (kinds op.tag).map fun kind =>
      let aStart := aOffsets.getD op.i₁ 0
      let aEnd := aOffsets.getD op.i₂ 0
      let bStart := bOffsets.getD op.j₁ 0
      let bEnd := bOffsets.getD op.j₂ 0
      { kind := kind, aStart := aStart, aEnd := aEnd, bStart := bStart
        bEnd := bEnd, aText := slice before aStart aEnd
        bText := slice after bStart bEnd }

/-- `unified`, with the two lines of context it is called with. -/
def unified (lib : Difflib) (before after aLabel bLabel : Text) : Text :=
  (lib.unifiedDiff (linesOf before) (linesOf after) aLabel bLabel 2).flatten

-- ====== two versions

/-- The text a version is diffed by: `content or ""`. -/
def textOf (m : Memory) : Text := m.content.getD []

/-- `f"{external_key}@v{version}"`. -/
def label (m : Memory) : Text :=
  (m.externalKey ++ "@v" ++ toString m.version).toList

/-- `VersionDiff`, without the parts no summary reads. -/
structure VersionDiff where
  before : Id
  after : Id
  spans : List Span
  unifiedDiff : Text
deriving DecidableEq, Repr

/-- `is_empty`. -/
def VersionDiff.isEmpty (diff : VersionDiff) : Bool := diff.spans.isEmpty

/-- The `PermanentError`s of `diff_versions`. -/
inductive DiffFailure
  /-- "no such memory: …" -/
  | noSuchMemory (missing : Id)
  /-- "cannot diff two different items: … against …" -/
  | differentItems (before after : String)
deriving DecidableEq, Repr

/-- `diff_versions`. -/
def diffVersions (lib : Difflib) (db : Db) (a b : Id) :
    Except DiffFailure VersionDiff :=
  match db.memory a, db.memory b with
  | none, _ => .error (.noSuchMemory a)
  | some _, none => .error (.noSuchMemory b)
  | some before, some after =>
    if (before.sourceId, before.externalKey)
        ≠ (after.sourceId, after.externalKey) then
      .error (.differentItems before.externalKey after.externalKey)
    else
      -- a version without a text yet is diffed as an empty one
      .ok {
        before := before.id
        after := after.id
        spans := diffSpans lib (textOf before) (textOf after)
        unifiedDiff := unified lib (textOf before) (textOf after)
          (label before) (label after) }

-- ====== what is read

/-- What a diff reads of a version. -/
def read (m : Memory) : Id × Id × String × Nat × Text :=
  (m.id, m.sourceId, m.externalKey, m.version, textOf m)

theorem diffVersions_congr (lib : Difflib) {db db' : Db} {a b : Id}
    (ha : (db'.memory a).map read = (db.memory a).map read)
    (hb : (db'.memory b).map read = (db.memory b).map read) :
    diffVersions lib db' a b = diffVersions lib db a b := by
  unfold diffVersions
  cases hx : db.memory a with
  | none =>
    rw [hx] at ha
    rw [Option.map_eq_none_iff.1 ha]
  | some x =>
    rw [hx] at ha
    obtain ⟨x', hx', hreadx⟩ := Option.map_eq_some_iff.1 ha
    rw [hx']
    cases hy : db.memory b with
    | none =>
      rw [hy] at hb
      rw [Option.map_eq_none_iff.1 hb]
    | some y =>
      rw [hy] at hb
      obtain ⟨y', hy', hready⟩ := Option.map_eq_some_iff.1 hb
      rw [hy']
      simp only [read, Prod.mk.injEq] at hreadx hready
      obtain ⟨hid, hsource, hkey, hversion, htext⟩ := hreadx
      obtain ⟨hid', hsource', hkey', hversion', htext'⟩ := hready
      simp only [hid, hsource, hkey, htext, hid', hsource', hkey', htext',
        label, hversion, hversion']

theorem diffVersions_ok {lib : Difflib} {db : Db} {a b : Id}
    {diff : VersionDiff} (h : diffVersions lib db a b = .ok diff) :
    diff.before = a ∧ diff.after = b ∧ (db.memory a).isSome = true
      ∧ (db.memory b).isSome = true := by
  unfold diffVersions at h
  cases hx : db.memory a with
  | none =>
    rw [hx] at h
    cases h
  | some x =>
    rw [hx] at h
    cases hy : db.memory b with
    | none =>
      rw [hy] at h
      cases h
    | some y =>
      rw [hy] at h
      have hxid : x.id = a := by simpa using List.find?_some hx
      have hyid : y.id = b := by simpa using List.find?_some hy
      simp only at h
      split at h
      case isTrue => cases h
      case isFalse =>
        cases h
        exact ⟨hxid, hyid, rfl, rfl⟩

end Evolution

end MemoryOS

namespace MemoryOS

namespace Evolution

/-- `AffectedChunk`. -/
structure AffectedChunk where
  id : Id
  ordinal : Nat
  charStart : Nat
  charEnd : Nat
  definition : Option String
  spans : Nat
deriving DecidableEq, Repr

/-- `_overlaps`. -/
def overlaps (start stop chunkStart chunkEnd : Nat) : Bool :=
  if start = stop then
    -- a pure deletion has no width in the new text
    (decide (chunkStart ≤ start) && decide (start < chunkEnd))
      || (decide (start = chunkEnd) && decide (chunkEnd = chunkStart))
  else decide (start < chunkEnd) && decide (chunkStart < stop)

/-- The chunks of a memory, by their ordinal. -/
def chunkRows (db : Db) (memoryId : Id) : List MemoryChunk :=
  (db.chunks.filter fun c => decide (c.memoryId = memoryId)).insertionSort
    fun a b => a.ordinal ≤ b.ordinal

/-- How many of the spans touch a chunk. -/
def touching (spans : List Span) (chunk : MemoryChunk) : Nat :=
  (spans.filter fun s => overlaps s.bStart s.bEnd chunk.charStart chunk.charEnd).length

/-- A chunk, as it is reported. -/
def reported (chunk : MemoryChunk) (spans : Nat) : AffectedChunk where
  id := chunk.id
  ordinal := chunk.ordinal
  charStart := chunk.charStart
  charEnd := chunk.charEnd
  definition := chunk.metadata.lookup "definition"
  spans := spans

/-- `_affected_chunks`. -/
def affectedChunks (db : Db) (memoryId : Id) (spans : List Span) :
    List AffectedChunk :=
  if spans.isEmpty then []
  else
    (chunkRows db memoryId).filterMap fun chunk =>
      if touching spans chunk = 0 then none
      else some (reported chunk (touching spans chunk))

end Evolution

end MemoryOS

namespace MemoryOS

namespace Evolution

open Lib

-- ========== groups

/-- `(tag, i1, min(i2, i1 + n), j1, min(j2, j1 + n))`. -/
def Opcode.opening (n : Nat) (op : Opcode) : Opcode :=
  { op with i₂ := min op.i₂ (op.i₁ + n), j₂ := min op.j₂ (op.j₁ + n) }

/-- `(tag, max(i1, i2 - n), i2, max(j1, j2 - n), j2)`. -/
def Opcode.closing (n : Nat) (op : Opcode) : Opcode :=
  { op with i₁ := max op.i₁ (op.i₂ - n), j₁ := max op.j₁ (op.j₂ - n) }

/-- The first opcode, with at most `n` equal lines of it, the last ones. -/
def trimFirst (n : Nat) : List Opcode → List Opcode
  | [] => []
  | op :: rest =>
    if op.tag = .equal then op.closing n :: rest else op :: rest

/-- The last opcode, with at most `n` equal lines of it, the first ones. -/
def trimLast (n : Nat) : List Opcode → List Opcode
  | [] => []
  | [op] => if op.tag = .equal then [op.opening n] else [op]
  | op :: next :: rest => op :: trimLast n (next :: rest)

/-- Whether a run has more equal lines than two contexts. -/
def isLong (n : Nat) (op : Opcode) : Bool :=
  decide (op.tag = .equal) && decide (n + n < op.i₂ - op.i₁)

/-- The loop of `get_grouped_opcodes`, from the group so far: a long equal run
ends one group and begins the next. -/
def groupsFrom (n : Nat) (group : List Opcode) : List Opcode → List (List Opcode)
  | [] =>
    if group.isEmpty || (group.length == 1
        && group.all fun op => decide (op.tag = .equal)) then []
    else [group]
  | op :: rest =>
    if isLong n op then
      (group ++ [op.opening n]) :: groupsFrom n [op.closing n] rest
    else groupsFrom n (group ++ [op]) rest

/-- `get_grouped_opcodes(n)`. -/
def groupedOpcodes (n : Nat) (codes : List Opcode) : List (List Opcode) :=
  let codes := if codes.isEmpty then [⟨.equal, 0, 1, 0, 1⟩] else codes
  groupsFrom n [] (trimLast n (trimFirst n codes))

-- ======== printing

/-- `_format_range_unified`. -/
def formatRangeUnified (start stop : Nat) : Text :=
  let length := stop - start
  if length = 1 then (toString (start + 1)).toList
  else
    -- an empty range begins at the line before it
    let beginning := if length = 0 then start else start + 1
    (toString beginning ++ "," ++ toString length).toList

/-- The lines of an opcode, as they are printed. -/
def opcodeLines (a b : List Text) (op : Opcode) : List Text :=
  let removed := (cut a op.i₁ op.i₂).map ('-' :: ·)
  let added := (cut b op.j₁ op.j₂).map ('+' :: ·)
  match op.tag with
  | .equal => (cut a op.i₁ op.i₂).map (' ' :: ·)
  | .replace => removed ++ added
  | .delete => removed
  | .insert => added

/-- `"@@ -{} +{} @@{}"`, over the first and the last opcode of a group. -/
def hunkHeader (group : List Opcode) : Text :=
  match group.head?, group.getLast? with
  | some first, some last =>
    "@@ -".toList ++ formatRangeUnified first.i₁ last.i₂ ++ " +".toList
      ++ formatRangeUnified first.j₁ last.j₂ ++ " @@\n".toList
  | _, _ => []

/-- A group, as it is printed. -/
def hunk (a b : List Text) (group : List Opcode) : List Text :=
  hunkHeader group :: group.flatMap (opcodeLines a b)

/-- `unified_diff(a, b, fromfile, tofile, n)`, without dates. -/
def unifiedDiff (opcodes : List Text → List Text → List Opcode)
    (a b : List Text) (fromFile toFile : Text) (n : Nat) : List Text :=
  match groupedOpcodes n (opcodes a b) with
  | [] => []
  | groups =>
    ("--- ".toList ++ fromFile ++ "\n".toList)
      :: ("+++ ".toList ++ toFile ++ "\n".toList)
      :: groups.flatMap (hunk a b)

/-- `difflib`, over what `SequenceMatcher` pairs with its heuristic off and
on. -/
def difflib (opcodes junkOpcodes : List Text → List Text → List Opcode) :
    Difflib where
  opcodes := opcodes
  unifiedDiff := unifiedDiff junkOpcodes

end Evolution

end MemoryOS
