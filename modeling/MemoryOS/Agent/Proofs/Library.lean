/-
What the agent's tools leave out (`application/agent/library.py`).

# The result

`honest_iff`: a tool that does not say that it cut prints everything that its
use case finds without a cap, and each entry is about one result, exactly when

- no larger search finds another memory than the one that was made,
- every decision that is asked for is among the newest two hundred,
- the window of the timeline has no empty bucket,
- the memories that the graph reached are still there, and
- what the gaps rest on is among the first four pieces of their evidence,

unless the cut is flagged. The silences and the one memory are always printed
whole.

For each tool there is what a call of it returns (`searchMemories_spec` and its
siblings), and from that the two halves of `Honest`.
-/
import MemoryOS.Agent.Library

namespace MemoryOS.Agent

namespace Library

open Lib Filters Fusion Decisions
open Missing (GapKind RefKind)

-- ====== statement vocabulary

/-- What a use case finds, by what names it in a content. -/
inductive Item
  | memory (id : Id)
  | version (sourceName externalKey : String) (version : Nat)
  | bucket (b : Temporal.Bucket)
  | silence (source : String) (start stop : Timestamp) (before after : Id)
  | decision (id : Id)
  | evidence (decision memory : Id)
  | gap (heading : Heading)
  | ground (heading : Heading) (kind : RefKind) (label : Text)

/-- What an entry names. -/
def Entry.item : Entry → Option Item
  | .hit _ _ _ _ _ id _ => some (.memory id)
  | .connected _ _ _ id _ => some (.memory id)
  | .bucket b => some (.bucket b)
  | .dated _ _ id => some (.memory id)
  | .silence source start stop before after =>
    some (.silence source start stop before.2 after.2)
  | .decision id _ _ _ _ _ _ _ => some (.decision id)
  | .linked owner id => some (.evidence owner id)
  | .memory sourceName externalKey _ _ _ version _ =>
    some (.version sourceName externalKey version)
  | .chunk _ _ => none
  | .gap heading => some (.gap heading)
  | .ground heading kind label => some (.ground heading kind label)

variable (s : Setup) (c later : Missing.Corpus)

/-- What a timeline is drawn of: arguments that are accepted, and what is read
for them. -/
def Timeline (start stop period source : Text)
    (reads : List Temporal.Bucket × List Memory) : Prop :=
  ∃ first last p sourceId, day s start = .ok first ∧ day s stop = .ok last
    ∧ last.le first = false ∧ periodOf period = some p
    ∧ Temporal.resolve c.db (sourceNamed source) = .ok sourceId
    ∧ timelineReads s c first last p sourceId = .ok reads

/-- The silences of the sources in scope. -/
def Silences (minDays : ℚ) (source : Text)
    (found : List (String × Temporal.Gap)) : Prop :=
  0 < minDays ∧ ∃ wanted,
    Temporal.resolve c.db (sourceNamed source) = .ok wanted
      ∧ silences c wanted minDays = .ok found

/-- The gaps of a report. -/
def gaps (about : Text) : List Missing.Gap :=
  (Missing.findMissing s.env c about none s.now).gaps

/-- What the use case of a call finds, when no cap of the tool is applied. -/
def Found : Call → Item → Prop
  | .searchMemories query _, item =>
    ∃ k result, searched s c query k = .ok result
      ∧ ∃ hit ∈ result.hits, item = .memory hit.memoryId
  | .getDecisions about _, item =>
    ∃ d ∈ matching s about (newestFirst c.tables), item = .decision d.id
      ∨ ∃ m ∈ decisionEvidence c.tables d.id, item = .evidence d.id m
  | .queryTimeline start stop period source, item =>
    ∃ reads, Timeline s c start stop period source reads
      ∧ ((∃ b ∈ reads.1, item = .bucket b)
        ∨ ∃ m ∈ reads.2, item = .memory m.id)
  | .findGaps minDays source, item =>
    ∃ found, Silences c minDays source found ∧ ∃ pair ∈ found,
      item = .silence pair.1 pair.2.start pair.2.stop pair.2.before.id
        pair.2.after.id
  | .traverseGraph memoryId _, item =>
    ∃ seed, s.env.uuid memoryId = some seed
      ∧ ∃ chunk ∈ (expanded s c seed).chunks, item = .memory chunk.memoryId
  | .getMemory memoryId, item =>
    ∃ id detail, s.env.uuid memoryId = some id
      ∧ showMemory c.db id = some detail
      ∧ item = .version detail.sourceName detail.memory.externalKey
        detail.memory.version
  | .findGapsInReasoning about, item =>
    ∃ gap ∈ gaps s c about, item = .gap (headingOf gap)
      ∨ ∃ e ∈ gap.evidence,
        item = .ground (headingOf gap) e.kind (clip e.label 90)

/-- What is printed of a chunk that the graph reached: the file and the id of
its memory, its route and its text. -/
def connectedOf (candidates : GraphCandidates) (routed : ScoredChunk)
    (p : Parent × ScoredChunk) : Entry :=
  .connected p.1.sourceName p.1.externalKey
    (routeOf candidates routed.chunkId) p.2.memoryId
    (clip (p.2.text.drop p.2.prefixChars) excerptChars)

/-- The entry is of one result of the very call of the use case: all it prints
is that result's. -/
def Own : Call → Entry → Prop
  | .searchMemories query limit, e =>
    ∃ result,
      searched s c query ((capped limit maxMemories).1 + 1) = .ok result
      ∧ ∃ hit ∈ result.hits, ∃ citations,
        collect (hitCitation later.db hit) hit.matchedChunks = .ok citations
          ∧ e = hitEntry (hit, citations)
  | .getDecisions about _, e =>
    ∃ d ∈ matching s about (newestFirst c.tables), ∃ detail,
      showDecision c.tables d.id = .ok detail
        ∧ (e = decisionEntry detail
          ∨ ∃ m ∈ detail.evidence, e = .linked detail.decision.id m)
  | .queryTimeline start stop period source, e =>
    ∃ reads, Timeline s c start stop period source reads
      ∧ ((∃ b ∈ reads.1, e = .bucket b) ∨ ∃ m ∈ reads.2, e = datedEntry m)
  | .findGaps minDays source, e =>
    ∃ found, Silences c minDays source found
      ∧ ∃ pair ∈ found, e = silenceEntry pair
  | .traverseGraph memoryId _, e =>
    ∃ seed, s.env.uuid memoryId = some seed
      ∧ ∃ p ∈ parented later.db (expanded s c seed).chunks,
        e = connectedOf (expanded s c seed) p.2 p
  | .getMemory memoryId, e =>
    ∃ id detail, s.env.uuid memoryId = some id
      ∧ showMemory c.db id = some detail
      ∧ (e = memoryEntry detail
        ∨ ∃ chunk ∈ detail.chunks, e = chunkEntry chunk)
  | .findGapsInReasoning about, e =>
    ∃ gap ∈ gaps s c about, e = .gap (headingOf gap)
      ∨ ∃ item ∈ gap.evidence, e = groundEntry gap item

/-- A result that does not say it was cut is whole, and each entry is of one
result. -/
structure Honest (call : Call) (result : Result) : Prop where
  complete : result.truncated = false → ∀ item, Found s c call item →
    ∃ e ∈ result.entries, e.item = some item
  own : ∀ e ∈ result.entries, Own s c later call e

/-- More was asked for than the cap, or there is more than the limit. -/
def Flagged (limit : Int) (cap count : Nat) : Prop :=
  (capped limit cap).2 = true ∨ (capped limit cap).1 < count

/-- What a call needs to hide nothing. -/
def Candid : Call → Prop
  | .searchMemories query limit => ∀ result,
      searched s c query ((capped limit maxMemories).1 + 1) = .ok result →
        result.hits ≠ [] ∧ Flagged limit maxMemories result.hits.length
          ∨ ∀ k larger, searched s c query k = .ok larger →
            ∀ hit ∈ larger.hits, ∃ own ∈ result.hits,
              own.memoryId = hit.memoryId
  | .getDecisions about limit =>
    let near := matching s about (listDecisions c.tables listedDecisions)
    near ≠ [] ∧ Flagged limit maxDecisions near.length
      ∨ ∀ d ∈ matching s about (newestFirst c.tables), ∃ own ∈ near,
        own.id = d.id
  | .queryTimeline start stop period source => ∀ reads,
      Timeline s c start stop period source reads →
        reads.2 ≠ [] ∧ (maxMemories < reads.2.length
            ∨ maxBuckets < (reads.1.filter fun b =>
              decide (b.count ≠ 0)).length)
          ∨ ∀ b ∈ reads.1, reads.2 ≠ [] ∧ b.count ≠ 0
  | .findGaps _ _ => True
  | .traverseGraph memoryId limit => ∀ seed, s.env.uuid memoryId = some seed →
      let candidates := expanded s c seed
      let shown := candidates.chunks.take (capped limit maxGraphNodes).1
      (Flagged limit maxGraphNodes candidates.chunks.length
          ∨ ∀ chunk ∈ candidates.chunks,
            parentOf later.db chunk.memoryId ≠ none)
        ∧ ∀ p ∈ shown.zip (parented later.db shown),
          ∃ own ∈ parented later.db candidates.chunks,
            connectedOf candidates p.1 p.2 = connectedOf candidates own.2 own
  | .getMemory _ => True
  | .findGapsInReasoning about => ∀ gap ∈ gaps s c about, ∀ e ∈ gap.evidence,
      ∃ own ∈ gaps s c about, headingOf own = headingOf gap
        ∧ ∃ e' ∈ own.evidence.take groundsShown,
          e'.kind = e.kind ∧ clip e'.label 90 = clip e.label 90

-- ====== the content

section
variable {s c later} {front : Nat → Text} {between t : Text} {n : Nat}
  {entries : List Entry} {pieces : List Piece} {query : Text} {limit : Int}
  {result : Result}

@[simp] theorem entriesOf_nil : entriesOf [] = [] := rfl

@[simp] theorem entriesOf_text :
    entriesOf (.text t :: pieces) = entriesOf pieces := rfl

@[simp] theorem entriesOf_entry {e : Entry} :
    entriesOf (.entry e :: pieces) = e :: entriesOf pieces := rfl

@[simp] theorem entriesOf_append {pieces' : List Piece} :
    entriesOf (pieces ++ pieces') = entriesOf pieces ++ entriesOf pieces' :=
  List.filterMap_append

@[simp] theorem entriesOf_listing :
    entriesOf (listing front between n entries) = entries := by
  induction entries generalizing n with
  | nil => rfl
  | cons e rest ih =>
    cases rest with
    | nil => rfl
    | cons e' rest =>
      rw [listing, entriesOf_text, entriesOf_entry, entriesOf_text, ih]
      exact List.cons_ne_nil _ _

@[simp] theorem entriesOf_lines :
    entriesOf (lines between entries) = entries := entriesOf_listing

theorem entriesOf_intercalate {blocks : List (List Piece)} :
    entriesOf ([.text t].intercalate blocks) = blocks.flatMap entriesOf := by
  induction blocks with
  | nil => rfl
  | cons block rest ih =>
    cases rest with
    | nil =>
      rw [List.intercalate_singleton, List.flatMap_singleton]
    | cons block' rest =>
      rw [List.intercalate_cons_cons, entriesOf_append, entriesOf_append,
        entriesOf_text, entriesOf_nil, List.append_nil, ih]
      rfl

theorem honest_said {tool : Call} (h : ∀ item, ¬ Found s c tool item) :
    Honest s c later tool (said t) :=
  ⟨fun _ item hitem => absurd hitem (h item), fun _ he => (by cases he)⟩

-- ======== the cuts

theorem flagged_iff {cap count : Nat} :
    ((capped limit cap).2 || decide ((capped limit cap).1 < count)) = true
      ↔ Flagged limit cap count := by
  unfold Flagged
  rw [Bool.or_eq_true, decide_eq_true_eq]

theorem shorter_take {α : Type} {xs : List α} :
    decide ((xs.take n).length < xs.length) = decide (n < xs.length) := by
  apply decide_eq_decide.2
  rw [List.length_take]
  omega

theorem take_of_not_cut {α : Type} {cap : Nat} {xs : List α}
    (h : ¬ (xs ≠ [] ∧ Flagged limit cap xs.length)) :
    xs.take (capped limit cap).1 = xs := by
  apply List.take_of_length_le
  by_contra hlong
  have hlt := Nat.not_le.1 hlong
  exact h ⟨List.ne_nil_of_length_pos (Nat.zero_lt_of_lt hlt), .inr hlt⟩

theorem honest_iff_cut {tool : Call} {cut whole : Prop}
    (hcut : result.truncated = true ↔ cut)
    (hown : ∀ e ∈ result.entries, Own s c later tool e)
    (hwhole : ¬ cut → ((∀ item, Found s c tool item →
      ∃ e ∈ result.entries, e.item = some item) ↔ whole)) :
    Honest s c later tool result ↔ cut ∨ whole := by
  constructor
  · intro honest
    by_cases hc : cut
    · exact .inl hc
    · refine .inr ((hwhole hc).1 (honest.complete ?_))
      rw [← Bool.not_eq_true, hcut]
      exact hc
  · intro hor
    refine ⟨fun hfalse => ?_, hown⟩
    have hc : ¬ cut := by
      rw [← hcut, hfalse]
      exact Bool.false_ne_true
    exact (hwhole hc).2 (hor.resolve_left hc)

-- ======= searching

theorem explained_ok {db : Db} {hit : MemoryHit} {item : MemoryHit × List Cited}
    (h : (collect (hitCitation db hit) hit.matchedChunks >>= fun citations =>
      (.ok (hit, citations) : Except Raised _)) = .ok item) :
    item.1 = hit
      ∧ collect (hitCitation db hit) hit.matchedChunks = .ok item.2 := by
  obtain ⟨citations, hcitations, hok⟩ := bind_ok.1 h
  rw [← Except.ok.inj hok]
  exact ⟨rfl, hcitations⟩

theorem searchMemories_spec
    (h : searchMemories s c later query limit = .ok result) :
    ∃ found, searched s c query ((capped limit maxMemories).1 + 1) = .ok found
      ∧ (∃ explained, explainHits later.db
          (found.hits.take (capped limit maxMemories).1) = .ok explained
        ∧ result.entries = explained.map hitEntry)
      ∧ (result.truncated = true
        ↔ found.hits ≠ [] ∧ Flagged limit maxMemories found.hits.length) := by
  obtain ⟨found, hfound, h⟩ := bind_ok.1 h
  refine ⟨found, hfound, ?_⟩
  split at h
  case isTrue hempty =>
    obtain rfl := Except.ok.inj h
    have hnil := List.isEmpty_iff.1 hempty
    rw [hnil, List.take_nil]
    exact ⟨⟨[], rfl, rfl⟩, fun h => (by cases h), fun h => absurd rfl h.1⟩
  case isFalse hempty =>
    obtain ⟨explained, hexplained, h⟩ := bind_ok.1 h
    obtain rfl := Except.ok.inj h
    refine ⟨⟨explained, hexplained, ?_⟩, ?_⟩
    · unfold Result.entries
      rw [entriesOf_text, entriesOf_listing]
    · rw [and_iff_right fun hnil => hempty (List.isEmpty_iff.2 hnil)]
      exact flagged_iff

theorem searchMemories_honest
    (h : searchMemories s c later query limit = .ok result) :
    Honest s c later (.searchMemories query limit) result
      ↔ Candid s c later (.searchMemories query limit) := by
  obtain ⟨found, hfound, ⟨explained, hexplained, hentries⟩, hcut⟩ :=
    searchMemories_spec h
  have hcandid : Candid s c later (.searchMemories query limit)
      ↔ (found.hits ≠ [] ∧ Flagged limit maxMemories found.hits.length)
        ∨ ∀ k larger, searched s c query k = .ok larger →
          ∀ hit ∈ larger.hits, ∃ own ∈ found.hits,
            own.memoryId = hit.memoryId := by
    constructor
    · intro hall
      exact hall found hfound
    · intro hone result hresult
      rw [hfound] at hresult
      obtain rfl := Except.ok.inj hresult
      exact hone
  rw [hcandid]
  apply honest_iff_cut hcut
  · intro e he
    rw [hentries] at he
    obtain ⟨item, hitem, rfl⟩ := List.mem_map.1 he
    obtain ⟨hit, hhit, hok⟩ := mem_collect hexplained hitem
    obtain ⟨rfl, hcitations⟩ := explained_ok hok
    exact ⟨found, hfound, item.1, List.mem_of_mem_take hhit, item.2,
      hcitations, rfl⟩
  · intro hno
    rw [take_of_not_cut hno] at hexplained
    constructor
    · intro hall k larger hlarger hit hhit
      obtain ⟨e, he, hitem⟩ := hall _ ⟨k, larger, hlarger, hit, hhit, rfl⟩
      rw [hentries] at he
      obtain ⟨item, hmem, rfl⟩ := List.mem_map.1 he
      obtain ⟨own, hown, hok⟩ := mem_collect hexplained hmem
      obtain ⟨rfl, -⟩ := explained_ok hok
      exact ⟨item.1, hown, Item.memory.inj (Option.some.inj hitem)⟩
    · intro hall item hitem
      obtain ⟨k, larger, hlarger, hit, hhit, rfl⟩ := hitem
      obtain ⟨own, hown, hid⟩ := hall k larger hlarger hit hhit
      obtain ⟨item, hmem, hok⟩ := collect_mem hexplained hown
      obtain ⟨rfl, -⟩ := explained_ok hok
      refine ⟨hitEntry item, ?_, ?_⟩
      · rw [hentries]
        exact List.mem_map_of_mem hmem
      · rw [← hid]
        rfl

-- ======= decisions

theorem matching_subset {about : Text} {d : Decision} {few more : List Decision}
    (hsub : ∀ d ∈ few, d ∈ more) (h : d ∈ matching s about few) :
    d ∈ matching s about more := by
  unfold matching at h ⊢
  split
  case isTrue hempty =>
    rw [if_pos hempty] at h
    exact hsub d h
  case isFalse hempty =>
    rw [if_neg hempty] at h
    obtain ⟨row, hrow, rfl⟩ := List.mem_map.1 h
    obtain ⟨hmem, hterms⟩ := List.mem_filter.1
      ((List.mem_insertionSort _).1 hrow)
    obtain ⟨d, hd, rfl⟩ := List.mem_map.1 hmem
    exact List.mem_map.2 ⟨(termsIn s about d, d), (List.mem_insertionSort _).2
      (List.mem_filter.2 ⟨List.mem_map_of_mem (hsub d hd), hterms⟩), rfl⟩

theorem showDecision_ok {tables : Tables} {id : Id} {detail : DecisionDetail}
    (h : showDecision tables id = .ok detail) :
    detail.decision.id = id
      ∧ detail.evidence = decisionEvidence tables id := by
  unfold showDecision at h
  cases hfound : tables.decision id with
  | none =>
    rw [hfound] at h
    cases h
  | some d =>
    rw [hfound] at h
    obtain rfl := Except.ok.inj h
    exact ⟨of_decide_eq_true
      (List.find?_some (p := fun d : Decision => decide (d.id = id)) hfound),
      rfl⟩

theorem entriesOf_decisionBlock {detail : DecisionDetail} :
    entriesOf (decisionBlock detail) = decisionEntry detail
      :: detail.evidence.map (Entry.linked detail.decision.id) := by
  unfold decisionBlock
  rw [entriesOf_entry]
  cases hevidence : detail.evidence with
  | nil => rfl
  | cons m rest =>
    rw [List.isEmpty_cons, if_neg Bool.false_ne_true, entriesOf_text,
      entriesOf_append, entriesOf_lines]
    exact congrArg _ (List.append_nil _)

theorem decisionsResult_spec {about : Text} {near : List Decision}
    (h : decisionsResult s c later about limit near = .ok result) :
    (∃ details, collect (fun d : Decision => showDecision c.tables d.id)
        (near.take (capped limit maxDecisions).1) = .ok details
      ∧ result.entries = details.flatMap fun detail => decisionEntry detail
          :: detail.evidence.map (Entry.linked detail.decision.id))
    ∧ (result.truncated = true
      ↔ near ≠ [] ∧ Flagged limit maxDecisions near.length) := by
  unfold decisionsResult at h
  split at h
  case isTrue hempty =>
    obtain rfl := Except.ok.inj h
    rw [List.isEmpty_iff.1 hempty, List.take_nil]
    exact ⟨⟨[], rfl, rfl⟩, fun h => (by cases h), fun h => absurd rfl h.1⟩
  case isFalse hempty =>
    obtain ⟨details, hdetails, h⟩ := bind_ok.1 h
    obtain ⟨citations, -, h⟩ := bind_ok.1 h
    obtain rfl := Except.ok.inj h
    refine ⟨⟨details, hdetails, ?_⟩, ?_⟩
    · unfold Result.entries
      rw [entriesOf_intercalate, List.flatMap_map]
      exact List.flatMap_congr fun detail _ => entriesOf_decisionBlock
    · rw [and_iff_right fun hnil => hempty (List.isEmpty_iff.2 hnil)]
      show (_ || decide ((near.take _).length < near.length)) = true ↔ _
      rw [shorter_take]
      exact flagged_iff

theorem getDecisions_honest {about : Text}
    (h : getDecisions s c later about limit = .ok result) :
    Honest s c later (.getDecisions about limit) result
      ↔ Candid s c later (.getDecisions about limit) := by
  obtain ⟨⟨details, hdetails, hentries⟩, hcut⟩ := decisionsResult_spec h
  apply honest_iff_cut hcut
  · intro e he
    rw [hentries] at he
    obtain ⟨detail, hdetail, he⟩ := List.mem_flatMap.1 he
    obtain ⟨d, hd, hok⟩ := mem_collect hdetails hdetail
    refine ⟨d, matching_subset (fun _ => List.mem_of_mem_take)
      (List.mem_of_mem_take hd), detail, hok, ?_⟩
    rcases List.mem_cons.1 he with rfl | he
    · exact .inl rfl
    · obtain ⟨m, hm, rfl⟩ := List.mem_map.1 he
      exact .inr ⟨m, hm, rfl⟩
  · intro hno
    rw [take_of_not_cut hno] at hdetails
    constructor
    · intro hall d hd
      obtain ⟨e, he, hitem⟩ := hall _ ⟨d, hd, .inl rfl⟩
      rw [hentries] at he
      obtain ⟨detail, hdetail, he⟩ := List.mem_flatMap.1 he
      obtain ⟨own, hown, hok⟩ := mem_collect hdetails hdetail
      rcases List.mem_cons.1 he with rfl | he
      · refine ⟨own, hown, ?_⟩
        rw [← (showDecision_ok hok).1]
        exact Item.decision.inj (Option.some.inj hitem)
      · obtain ⟨m, -, rfl⟩ := List.mem_map.1 he
        cases hitem
    · intro hall item hitem
      obtain ⟨d, hd, hitem⟩ := hitem
      obtain ⟨own, hown, hid⟩ := hall d hd
      obtain ⟨detail, hdetail, hok⟩ := collect_mem hdetails hown
      obtain ⟨hdecision, hevidence⟩ := showDecision_ok hok
      rw [hid] at hdecision hevidence
      rw [hentries]
      rcases hitem with rfl | ⟨m, hm, rfl⟩
      · refine ⟨decisionEntry detail,
          List.mem_flatMap.2 ⟨detail, hdetail, List.mem_cons_self⟩, ?_⟩
        rw [← hdecision]
        rfl
      · refine ⟨.linked detail.decision.id m, List.mem_flatMap.2 ⟨detail,
          hdetail, List.mem_cons_of_mem _ (List.mem_map_of_mem ?_)⟩, ?_⟩
        · rw [hevidence]
          exact hm
        · rw [← hdecision]
          rfl

-- ====== the timeline

section
variable {start stop period source : Text}
  {reads reads' : List Temporal.Bucket × List Memory}

theorem Timeline.unique (h : Timeline s c start stop period source reads)
    (h' : Timeline s c start stop period source reads') : reads = reads' := by
  obtain ⟨first, last, p, sourceId, hfirst, hlast, -, hp, hsource, hok⟩ := h
  obtain ⟨first', last', p', sourceId', hfirst', hlast', -, hp', hsource',
    hok'⟩ := h'
  obtain rfl := Except.ok.inj (hfirst.symm.trans hfirst')
  obtain rfl := Except.ok.inj (hlast.symm.trans hlast')
  obtain rfl := Option.some.inj (hp.symm.trans hp')
  obtain rfl := Except.ok.inj (hsource.symm.trans hsource')
  exact Except.ok.inj (hok.symm.trans hok')

theorem queryTimeline_cases
    (h : queryTimeline s c later start stop period source = .ok result) :
    (∃ t, result = said t
        ∧ ∀ reads, ¬ Timeline s c start stop period source reads)
      ∨ ∃ p reads, Timeline s c start stop period source reads
        ∧ timelineResult later start stop source p reads.1 reads.2
          = .ok result := by
  unfold queryTimeline at h
  cases hfirst : day s start with
  | error e =>
    rw [hfirst] at h
    refine .inl ⟨_, (Except.ok.inj h).symm, fun reads hreads => ?_⟩
    obtain ⟨first, last, p, sourceId, hok, -⟩ := hreads
    rw [hfirst] at hok
    cases hok
  | ok first =>
    cases hlast : day s stop with
    | error e =>
      rw [hfirst, hlast] at h
      refine .inl ⟨_, (Except.ok.inj h).symm, fun reads hreads => ?_⟩
      obtain ⟨first, last, p, sourceId, -, hok, -⟩ := hreads
      rw [hlast] at hok
      cases hok
    | ok last =>
      rw [hfirst, hlast] at h
      dsimp only at h
      split at h
      case isTrue hle =>
        refine .inl ⟨_, (Except.ok.inj h).symm, fun reads hreads => ?_⟩
        obtain ⟨first', last', p, sourceId, hfirst', hlast', hlt, -⟩ :=
          hreads
        obtain rfl := Except.ok.inj (hfirst.symm.trans hfirst')
        obtain rfl := Except.ok.inj (hlast.symm.trans hlast')
        rw [hle] at hlt
        cases hlt
      case isFalse hle =>
        cases hperiod : periodOf period with
        | none =>
          rw [hperiod] at h
          refine .inl ⟨_, (Except.ok.inj h).symm, fun reads hreads => ?_⟩
          obtain ⟨first, last, p, sourceId, -, -, -, hp, -⟩ := hreads
          rw [hperiod] at hp
          cases hp
        | some p =>
          rw [hperiod] at h
          cases hsource : Temporal.resolve c.db (sourceNamed source) with
          | error unknown =>
            rw [hsource] at h
            refine .inl
              ⟨_, (Except.ok.inj h).symm, fun reads hreads => ?_⟩
            obtain ⟨first, last, p, sourceId, -, -, -, -, hok, -⟩ :=
              hreads
            rw [hsource] at hok
            cases hok
          | ok sourceId =>
            rw [hsource] at h
            obtain ⟨reads, hreads, hresult⟩ := bind_ok.1 h
            exact .inr ⟨p, reads, ⟨first, last, p, sourceId, hfirst,
              hlast, Bool.eq_false_iff.2 hle, hperiod, hsource, hreads⟩,
              hresult⟩

/-- The buckets that are drawn. -/
def occupied (buckets : List Temporal.Bucket) : List Temporal.Bucket :=
  buckets.filter fun b => decide (b.count ≠ 0)

theorem timelineResult_spec {p : Temporal.Period}
    (h : timelineResult later start stop source p reads.1 reads.2
      = .ok result) :
    result.entries = (if reads.2 = [] then [] else
        ((occupied reads.1).take maxBuckets).map .bucket
          ++ (reads.2.take maxMemories).map datedEntry)
      ∧ (result.truncated = true ↔ reads.2 ≠ []
        ∧ (maxMemories < reads.2.length
          ∨ maxBuckets < (occupied reads.1).length)) := by
  unfold timelineResult at h
  split at h
  case isTrue hempty =>
    obtain rfl := Except.ok.inj h
    rw [List.isEmpty_iff.1 hempty, if_pos rfl]
    exact ⟨rfl, fun h => (by cases h), fun h => absurd rfl h.1⟩
  case isFalse hempty =>
    obtain ⟨citations, -, h⟩ := bind_ok.1 h
    obtain rfl := Except.ok.inj h
    have hne : reads.2 ≠ [] := fun hnil => hempty (List.isEmpty_iff.2 hnil)
    rw [if_neg hne, and_iff_right hne]
    refine ⟨?_, ?_⟩
    · unfold Result.entries
      rw [entriesOf_text, entriesOf_append, entriesOf_lines, entriesOf_text,
        entriesOf_append, entriesOf_lines, entriesOf_text, entriesOf_nil,
        List.append_nil]
      rfl
    · show (decide ((reads.2.take _).length < _)
        || decide (((occupied reads.1).take _).length
          < (occupied reads.1).length)) = true ↔ _
      rw [shorter_take, shorter_take, Bool.or_eq_true, decide_eq_true_eq,
        decide_eq_true_eq]

theorem queryTimeline_honest
    (h : queryTimeline s c later start stop period source = .ok result) :
    Honest s c later (.queryTimeline start stop period source) result
      ↔ Candid s c later (.queryTimeline start stop period source) := by
  rcases queryTimeline_cases h with ⟨t, rfl, hnone⟩ | ⟨p, reads, hreads, hok⟩
  · constructor
    · intro _ reads hreads
      exact absurd hreads (hnone reads)
    · intro _
      exact honest_said fun _ hitem =>
        hitem.elim fun reads hreads => hnone reads hreads.1
  · obtain ⟨hentries, hcut⟩ := timelineResult_spec hok
    have hcandid : Candid s c later (.queryTimeline start stop period source)
        ↔ (reads.2 ≠ [] ∧ (maxMemories < reads.2.length
            ∨ maxBuckets < (occupied reads.1).length))
          ∨ ∀ b ∈ reads.1, reads.2 ≠ [] ∧ b.count ≠ 0 := by
      constructor
      · intro hall
        exact hall reads hreads
      · intro hone reads' hreads'
        obtain rfl := hreads.unique hreads'
        exact hone
    rw [hcandid]
    apply honest_iff_cut hcut
    · intro e he
      rw [hentries] at he
      split at he
      case isTrue => cases he
      case isFalse =>
        refine ⟨reads, hreads, ?_⟩
        rcases List.mem_append.1 he with he | he
        · obtain ⟨b, hb, rfl⟩ := List.mem_map.1 he
          exact .inl ⟨b, List.mem_of_mem_filter (List.mem_of_mem_take hb), rfl⟩
        · obtain ⟨m, hm, rfl⟩ := List.mem_map.1 he
          exact .inr ⟨m, List.mem_of_mem_take hm, rfl⟩
    · intro hno
      constructor
      · intro hall b hb
        obtain ⟨e, he, hitem⟩ := hall _ ⟨reads, hreads, .inl ⟨b, hb, rfl⟩⟩
        rw [hentries] at he
        split at he
        case isTrue => cases he
        case isFalse hne =>
          refine ⟨hne, ?_⟩
          rcases List.mem_append.1 he with he | he
          · obtain ⟨b', hb', rfl⟩ := List.mem_map.1 he
            obtain rfl := Item.bucket.inj (Option.some.inj hitem)
            exact of_decide_eq_true
              (List.mem_filter.1 (List.mem_of_mem_take hb')).2
          · obtain ⟨m, -, rfl⟩ := List.mem_map.1 he
            cases hitem
      · intro hall item hitem
        obtain ⟨reads', hreads', hitem⟩ := hitem
        obtain rfl := hreads.unique hreads'
        have hwhole (hne : reads.2 ≠ []) : result.entries
            = (occupied reads.1).map .bucket ++ reads.2.map datedEntry := by
          rw [hentries, if_neg hne,
            List.take_of_length_le (Nat.not_lt.1 fun hlt =>
              hno ⟨hne, .inr hlt⟩),
            List.take_of_length_le (Nat.not_lt.1 fun hlt =>
              hno ⟨hne, .inl hlt⟩)]
        rcases hitem with ⟨b, hb, rfl⟩ | ⟨m, hm, rfl⟩
        · obtain ⟨hne, hcount⟩ := hall b hb
          refine ⟨.bucket b, ?_, rfl⟩
          rw [hwhole hne]
          exact List.mem_append_left _ (List.mem_map_of_mem
            (List.mem_filter.2 ⟨hb, decide_eq_true hcount⟩))
        · refine ⟨datedEntry m, ?_, rfl⟩
          rw [hwhole (List.ne_nil_of_mem hm)]
          exact List.mem_append_right _ (List.mem_map_of_mem hm)

end

-- ====== the silences

theorem gapsResult_spec {minDays : ℚ} {source : Text}
    {found : List (String × Temporal.Gap)}
    (h : gapsResult s later minDays source found = .ok result) :
    result.entries = (found.take maxGaps).map silenceEntry
      ∧ (result.truncated = true ↔ maxGaps < found.length) := by
  unfold gapsResult at h
  split at h
  case isTrue hempty =>
    obtain rfl := Except.ok.inj h
    rw [List.isEmpty_iff.1 hempty, List.take_nil]
    exact ⟨rfl, fun h => (by cases h), fun h => absurd h (Nat.not_lt_zero _)⟩
  case isFalse hempty =>
    obtain ⟨citations, -, h⟩ := bind_ok.1 h
    obtain rfl := Except.ok.inj h
    refine ⟨?_, ?_⟩
    · unfold Result.entries
      rw [entriesOf_text, entriesOf_lines]
    · show decide ((found.take _).length < _) = true ↔ _
      rw [shorter_take, decide_eq_true_eq]

theorem findGaps_honest {minDays : ℚ} {source : Text}
    (h : findGaps s c later minDays source = .ok result) :
    Honest s c later (.findGaps minDays source) result := by
  unfold findGaps at h
  split at h
  case isTrue hle =>
    obtain rfl := Except.ok.inj h
    refine honest_said fun item hitem => ?_
    obtain ⟨found, ⟨hpos, -⟩, -⟩ := hitem
    exact absurd hle (not_le_of_gt hpos)
  case isFalse hle =>
    cases hsource : Temporal.resolve c.db (sourceNamed source) with
    | error unknown =>
      rw [hsource] at h
      obtain rfl := Except.ok.inj h
      refine honest_said fun item hitem => ?_
      obtain ⟨found, ⟨-, wanted, hok, -⟩, -⟩ := hitem
      rw [hsource] at hok
      cases hok
    | ok wanted =>
      rw [hsource] at h
      obtain ⟨found, hfound, hresult⟩ := bind_ok.1 h
      obtain ⟨hentries, hcut⟩ := gapsResult_spec hresult
      refine ⟨fun hfalse item hitem => ?_, fun e he => ?_⟩
      · obtain ⟨found', ⟨-, wanted', hsource', hfound'⟩, pair, hpair, rfl⟩ :=
          hitem
        obtain rfl := Except.ok.inj (hsource.symm.trans hsource')
        obtain rfl := Except.ok.inj (hfound.symm.trans hfound')
        have hall : found.take maxGaps = found := by
          apply List.take_of_length_le
          by_contra hlong
          rw [hcut.2 (Nat.not_le.1 hlong)] at hfalse
          cases hfalse
        rw [hentries, hall]
        exact ⟨silenceEntry pair, List.mem_map_of_mem hpair, rfl⟩
      · rw [hentries] at he
        obtain ⟨pair, hpair, rfl⟩ := List.mem_map.1 he
        exact ⟨found, ⟨not_le.1 hle, wanted, hsource, hfound⟩, pair,
          List.mem_of_mem_take hpair, rfl⟩

-- ====== one memory

theorem getMemory_honest {memoryId : Text}
    (h : getMemory s c later memoryId = .ok result) :
    Honest s c later (.getMemory memoryId) result := by
  unfold getMemory at h
  cases hid : s.env.uuid memoryId with
  | none =>
    rw [hid] at h
    obtain rfl := Except.ok.inj h
    refine honest_said fun item hitem => ?_
    obtain ⟨id, detail, hsome, -⟩ := hitem
    rw [hid] at hsome
    cases hsome
  | some id =>
    rw [hid] at h
    dsimp only at h
    cases hdetail : showMemory c.db id with
    | none =>
      rw [hdetail] at h
      obtain rfl := Except.ok.inj h
      refine honest_said fun item hitem => ?_
      obtain ⟨id', detail, hid', hsome, -⟩ := hitem
      obtain rfl := Option.some.inj (hid.symm.trans hid')
      rw [hdetail] at hsome
      cases hsome
    | some detail =>
      rw [hdetail] at h
      obtain ⟨citations, -, hresult⟩ := bind_ok.1 h
      obtain rfl := Except.ok.inj hresult
      refine ⟨fun _ item hitem => ?_, fun e he => ?_⟩
      · obtain ⟨id', detail', hid', hdetail', rfl⟩ := hitem
        obtain rfl := Option.some.inj (hid.symm.trans hid')
        obtain rfl := Option.some.inj (hdetail.symm.trans hdetail')
        exact ⟨memoryEntry detail, List.mem_cons_self, rfl⟩
      · unfold Result.entries at he
        rw [entriesOf_entry, entriesOf_text, entriesOf_lines] at he
        refine ⟨id, detail, hid, hdetail, ?_⟩
        rcases List.mem_cons.1 he with rfl | he
        · exact .inl rfl
        · obtain ⟨chunk, hchunk, rfl⟩ := List.mem_map.1 he
          exact .inr ⟨chunk, List.mem_of_mem_take hchunk, rfl⟩

-- ======= the graph

section
variable {candidates : GraphCandidates} {chunks : List ScoredChunk}
  {citations : List Cited}

theorem connectedEntry_of_cited {p : Parent × ScoredChunk} {cited : Cited}
    {routed : ScoredChunk} (h : citationOf p.1 p.2 = .ok cited) :
    connectedEntry candidates (routed, cited)
      = connectedOf candidates routed p := by
  obtain ⟨context, -, h⟩ := bind_ok.1 h
  obtain rfl := Except.ok.inj h
  rfl

theorem connected_zip {ps : List (Parent × ScoredChunk)}
    (h : collect (fun p => citationOf p.1 p.2) ps = .ok citations) :
    (chunks.zip citations).map (connectedEntry candidates)
      = (chunks.zip ps).map fun p => connectedOf candidates p.1 p.2 := by
  have hall := collect_ok.1 h
  clear h
  induction hall generalizing chunks with
  | nil => rw [List.zip_nil_right, List.zip_nil_right]; rfl
  | cons hcited _ ih =>
    cases chunks with
    | nil => rfl
    | cons chunk rest =>
      rw [List.zip_cons_cons, List.zip_cons_cons, List.map_cons,
        List.map_cons, ih, connectedEntry_of_cited hcited]

theorem mem_parented {db : Db} {p : Parent × ScoredChunk} :
    p ∈ parented db chunks
      ↔ p.2 ∈ chunks ∧ parentOf db p.2.memoryId = some p.1 := by
  unfold parented
  rw [List.mem_filterMap]
  constructor
  · intro h
    obtain ⟨chunk, hchunk, hsome⟩ := h
    obtain ⟨parent, hparent, rfl⟩ := Option.map_eq_some_iff.1 hsome
    exact ⟨hchunk, hparent⟩
  · intro h
    refine ⟨p.2, h.1, ?_⟩
    rw [h.2]
    rfl

theorem exists_zip_parented {db : Db} {p : Parent × ScoredChunk}
    (h : p ∈ parented db chunks) :
    ∃ chunk, (chunk, p) ∈ chunks.zip (parented db chunks) := by
  have hsnd : (chunks.zip (parented db chunks)).map Prod.snd
      = parented db chunks :=
    List.map_snd_zip (List.length_filterMap_le _ _)
  rw [← hsnd] at h
  obtain ⟨pair, hpair, rfl⟩ := List.mem_map.1 h
  exact ⟨pair.1, hpair⟩

theorem traverseGraph_spec {memoryId : Text} {seed : Id}
    (hseed : s.env.uuid memoryId = some seed)
    (h : traverseGraph s c later memoryId limit = .ok result) :
    let shown := (expanded s c seed).chunks.take (capped limit maxGraphNodes).1
    result.entries = (shown.zip (parented later.db shown)).map (fun p =>
        connectedOf (expanded s c seed) p.1 p.2)
      ∧ (result.truncated = true ↔ (expanded s c seed).chunks ≠ []
        ∧ Flagged limit maxGraphNodes (expanded s c seed).chunks.length) := by
  unfold traverseGraph at h
  rw [hseed] at h
  dsimp only at h ⊢
  split at h
  case isTrue hempty =>
    obtain rfl := Except.ok.inj h
    rw [List.isEmpty_iff.1 hempty, List.take_nil]
    exact ⟨rfl, fun h => (by cases h), fun h => absurd rfl h.1⟩
  case isFalse hempty =>
    obtain ⟨citations, hcitations, h⟩ := bind_ok.1 h
    obtain rfl := Except.ok.inj h
    refine ⟨?_, ?_⟩
    · unfold Result.entries
      rw [entriesOf_text, entriesOf_listing, connected_zip hcitations]
    · rw [and_iff_right fun hnil => hempty (List.isEmpty_iff.2 hnil)]
      show (_ || decide (((expanded s c seed).chunks.take _).length
        < (expanded s c seed).chunks.length)) = true ↔ _
      rw [shorter_take]
      exact flagged_iff

theorem traverseGraph_honest {memoryId : Text}
    (h : traverseGraph s c later memoryId limit = .ok result) :
    Honest s c later (.traverseGraph memoryId limit) result
      ↔ Candid s c later (.traverseGraph memoryId limit) := by
  cases hseed : s.env.uuid memoryId with
  | none =>
    unfold traverseGraph at h
    rw [hseed] at h
    obtain rfl := Except.ok.inj h
    constructor
    · intro _ seed hsome
      rw [hseed] at hsome
      cases hsome
    · intro _
      refine honest_said fun item hitem => ?_
      obtain ⟨seed, hsome, -⟩ := hitem
      rw [hseed] at hsome
      cases hsome
  | some seed =>
    obtain ⟨hentries, hcut⟩ := traverseGraph_spec hseed h
    have hown : (∀ e ∈ result.entries,
        Own s c later (.traverseGraph memoryId limit) e)
        ↔ ∀ p ∈ ((expanded s c seed).chunks.take
            (capped limit maxGraphNodes).1).zip (parented later.db
            ((expanded s c seed).chunks.take (capped limit maxGraphNodes).1)),
          ∃ own ∈ parented later.db (expanded s c seed).chunks,
            connectedOf (expanded s c seed) p.1 p.2
              = connectedOf (expanded s c seed) own.2 own := by
      rw [hentries]
      constructor
      · intro hall p hp
        obtain ⟨seed', hseed', hone⟩ := hall _ (List.mem_map_of_mem hp)
        obtain rfl := Option.some.inj (hseed.symm.trans hseed')
        exact hone
      · intro hall e he
        obtain ⟨p, hp, rfl⟩ := List.mem_map.1 he
        exact ⟨seed, hseed, hall p hp⟩
    have hcandid : Candid s c later (.traverseGraph memoryId limit)
        ↔ (Flagged limit maxGraphNodes (expanded s c seed).chunks.length
            ∨ ∀ chunk ∈ (expanded s c seed).chunks,
              parentOf later.db chunk.memoryId ≠ none)
          ∧ ∀ e ∈ result.entries,
            Own s c later (.traverseGraph memoryId limit) e := by
      rw [hown]
      constructor
      · intro hall
        exact hall seed hseed
      · intro hone seed' hseed'
        obtain rfl := Option.some.inj (hseed.symm.trans hseed')
        exact hone
    have hwhole (hno : ¬ ((expanded s c seed).chunks ≠ []
        ∧ Flagged limit maxGraphNodes (expanded s c seed).chunks.length)) :
        (∀ item, Found s c (.traverseGraph memoryId limit) item →
          ∃ e ∈ result.entries, e.item = some item)
        ↔ ∀ chunk ∈ (expanded s c seed).chunks,
          parentOf later.db chunk.memoryId ≠ none := by
      rw [take_of_not_cut hno] at hentries
      constructor
      · intro hall chunk hchunk
        obtain ⟨e, he, hitem⟩ := hall _ ⟨seed, hseed, chunk, hchunk, rfl⟩
        rw [hentries] at he
        obtain ⟨p, hp, rfl⟩ := List.mem_map.1 he
        have hsome := (mem_parented.1 (List.of_mem_zip hp).2).2
        rw [← Item.memory.inj (Option.some.inj hitem), hsome]
        exact Option.some_ne_none _
      · intro hall item hitem
        obtain ⟨seed', hseed', chunk, hchunk, rfl⟩ := hitem
        obtain rfl := Option.some.inj (hseed.symm.trans hseed')
        obtain ⟨parent, hparent⟩ :=
          Option.ne_none_iff_exists'.1 (hall chunk hchunk)
        obtain ⟨routed, hzip⟩ := exists_zip_parented (p := (parent, chunk))
          (mem_parented.2 ⟨hchunk, hparent⟩)
        rw [hentries]
        exact ⟨_, List.mem_map_of_mem hzip, rfl⟩
    rw [hcandid]
    constructor
    · intro honest
      refine ⟨?_, honest.own⟩
      have hor := (honest_iff_cut hcut honest.own hwhole).1 honest
      exact hor.imp_left And.right
    · intro hcondition
      obtain ⟨hor, hall⟩ := hcondition
      rw [honest_iff_cut hcut hall hwhole]
      by_cases hnil : (expanded s c seed).chunks = []
      · rw [hnil]
        exact .inr fun chunk hchunk => (by cases hchunk)
      · exact hor.imp_left (And.intro hnil)

end

-- ====== the gaps in reasoning

section
variable {about : Text}

theorem entriesOf_gapBlock {gap : Missing.Gap} :
    entriesOf (gapBlock gap) = .gap (headingOf gap)
      :: (gap.evidence.take groundsShown).map (groundEntry gap) := by
  unfold gapBlock
  rw [entriesOf_entry, entriesOf_text, entriesOf_append, entriesOf_lines]
  exact congrArg _ (List.append_nil _)

theorem findGapsInReasoning_spec
    (h : findGapsInReasoning s c later about = .ok result) :
    result.entries = ((gaps s c about).flatMap fun gap =>
        .gap (headingOf gap)
          :: (gap.evidence.take groundsShown).map (groundEntry gap))
      ∧ result.truncated = false := by
  unfold findGapsInReasoning reasoningResult at h
  split at h
  case isTrue hempty =>
    obtain rfl := Except.ok.inj h
    unfold gaps
    rw [List.isEmpty_iff.1 hempty]
    exact ⟨rfl, rfl⟩
  case isFalse hempty =>
    obtain ⟨cited, -, h⟩ := bind_ok.1 h
    obtain ⟨citations, -, h⟩ := bind_ok.1 h
    obtain rfl := Except.ok.inj h
    refine ⟨?_, rfl⟩
    have hlast : (if citations.isEmpty then
        [[Piece.text ("Evidence: none of the decisions behind these gaps " ++
          "links to a memory in the corpus.\n").toList]]
        else []).flatMap entriesOf = [] := by
      split
      case isTrue => rfl
      case isFalse => rfl
    unfold Result.entries
    rw [entriesOf_intercalate, List.flatMap_append, hlast, List.append_nil,
      List.flatMap_map]
    exact List.flatMap_congr fun gap _ => entriesOf_gapBlock

theorem findGapsInReasoning_honest
    (h : findGapsInReasoning s c later about = .ok result) :
    Honest s c later (.findGapsInReasoning about) result
      ↔ Candid s c later (.findGapsInReasoning about) := by
  obtain ⟨hentries, hwhole⟩ := findGapsInReasoning_spec h
  constructor
  · intro honest gap hgap e he
    obtain ⟨entry, hentry, hitem⟩ := honest.complete hwhole _
      ⟨gap, hgap, .inr ⟨e, he, rfl⟩⟩
    rw [hentries] at hentry
    obtain ⟨own, hown, hentry⟩ := List.mem_flatMap.1 hentry
    rcases List.mem_cons.1 hentry with rfl | hentry
    · cases hitem
    · obtain ⟨e', he', rfl⟩ := List.mem_map.1 hentry
      obtain ⟨hheading, hkind, hlabel⟩ := Item.ground.inj
        (Option.some.inj hitem)
      exact ⟨own, hown, hheading, e', he', hkind, hlabel⟩
  · intro hall
    refine ⟨fun _ item hitem => ?_, fun entry hentry => ?_⟩
    · obtain ⟨gap, hgap, hitem⟩ := hitem
      rw [hentries]
      rcases hitem with rfl | ⟨e, he, rfl⟩
      · exact ⟨.gap (headingOf gap),
          List.mem_flatMap.2 ⟨gap, hgap, List.mem_cons_self⟩, rfl⟩
      · obtain ⟨own, hown, hheading, e', he', hkind, hlabel⟩ :=
          hall gap hgap e he
        refine ⟨groundEntry own e', List.mem_flatMap.2 ⟨own, hown,
          List.mem_cons_of_mem _ (List.mem_map_of_mem he')⟩, ?_⟩
        rw [← hheading, ← hkind, ← hlabel]
        rfl
    · rw [hentries] at hentry
      obtain ⟨gap, hgap, hentry⟩ := List.mem_flatMap.1 hentry
      refine ⟨gap, hgap, ?_⟩
      rcases List.mem_cons.1 hentry with rfl | hentry
      · exact .inl rfl
      · obtain ⟨e, he, rfl⟩ := List.mem_map.1 hentry
        exact .inr ⟨e, List.mem_of_mem_take he, rfl⟩

end

-- ====== every tool

/-- A call that returns hides nothing and mixes nothing up exactly when it is
candid. -/
theorem honest_iff (tool : Call) (result : Result)
    (h : call s c later tool = .ok result) :
    Honest s c later tool result ↔ Candid s c later tool := by
  cases tool with
  | searchMemories query limit => exact searchMemories_honest h
  | getDecisions about limit => exact getDecisions_honest h
  | queryTimeline start stop period source => exact queryTimeline_honest h
  | findGaps minDays source =>
    exact iff_of_true (findGaps_honest h) trivial
  | traverseGraph memoryId limit => exact traverseGraph_honest h
  | getMemory memoryId => exact iff_of_true (getMemory_honest h) trivial
  | findGapsInReasoning about => exact findGapsInReasoning_honest h

end

-- ------ five assumptions that nobody evaluated

/-- An id whose last digits are the number. -/
def idText (id : Id) : Text :=
  "00000000-0000-0000-0000-".toList
    ++ List.replicate (12 - (Planner.shown id).length) '0' ++ Planner.shown id

/-- A corpus in ASCII, on its thirty-first day. -/
def plainSetup : Setup where
  env := {
    unicode := .ascii
    quoted := fun t => ['\''] ++ t ++ ['\'']
    shown := idText
    uuid := fun _ => none
    day := fun _ => "1970-01-01".toList }
  search := {
    engine := {
      embedQuery := fun _ => []
      similarity := fun _ _ => 0
      visits := fun _ _ _ _ => []
      textRank := fun _ _ => none
      recencyScore := fun _ => 1
      importance := fun _ => none
      rerank := none } }
  expand := {
    graph := {
      mentionEdges := fun _ => some []
      reach := fun _ _ _ _ => some [] }
    log := fun x => x }
  intent := fun _ => none
  dateTrunc := fun _ t => t
  fromisoformat := fun _ => none
  fixed := fun _ _ => "1.00".toList
  general := fun _ => "1".toList
  now := 31 * dayMicros

/-- What was decided on the first day. -/
def databaseChoice : Decision where
  id := 1
  question := "which database".toList
  chosen := "postgres".toList
  reasoning := none
  confidence := none
  confidenceHorizon := .unknown
  expectedOutcome := none
  decidedAt := 0
  decidedAtSource := .unknown
  status := .settled
  createdAt := 0
  updatedAt := 0
  writtenIn := 0

/-- What it rests on. -/
def assumption (id : Id) (statement : String) : DecisionAssumption where
  id := id
  decisionId := 1
  statement := statement.toList
  confidence := none
  held := none
  evaluatedAt := none
  note := none
  groupId := none
  writtenIn := 0
  writtenAt := 0
  evaluations := []

/-- That decision, and five assumptions. -/
def fiveAssumptions : Missing.Corpus where
  db := {}
  tables := { Tables.empty with
    decisions := [databaseChoice]
    assumptions := [assumption 1 "it scales", assumption 2 "it is cheap",
      assumption 3 "it is fast", assumption 4 "it is known",
      assumption 5 "it is safe"] }
  patterns := []

theorem call_fiveAssumptions : ∃ result, call plainSetup fiveAssumptions
    fiveAssumptions (.findGapsInReasoning []) = .ok result := by
  have hok : (call plainSetup fiveAssumptions fiveAssumptions
      (.findGapsInReasoning [])).toBool = true := by
    decide +kernel
  cases h : call plainSetup fiveAssumptions fiveAssumptions
      (.findGapsInReasoning []) with
  | error e =>
    rw [h] at hok
    cases hok
  | ok result => exact ⟨result, rfl⟩

/-- The gap of that decision. -/
def databaseGap : Missing.Gap :=
  Missing.unevaluatedGap plainSetup.env plainSetup.now databaseChoice
    (fiveAssumptions.tables.assumptions.map fun a => (databaseChoice, a))

/-- The fifth assumption is left out, and the result does not say so. -/
theorem not_honest_always : ∃ result,
    call plainSetup fiveAssumptions fiveAssumptions (.findGapsInReasoning [])
        = .ok result
      ∧ ¬ Honest plainSetup fiveAssumptions fiveAssumptions
        (.findGapsInReasoning []) result := by
  obtain ⟨result, h⟩ := call_fiveAssumptions
  refine ⟨result, h, fun honest => ?_⟩
  have hgaps : gaps plainSetup fiveAssumptions [] = [databaseGap] := by
    decide +kernel
  have hfifth : Missing.Evidence.mk .assumption 5 "it is safe".toList
      ∈ databaseGap.evidence := by
    decide +kernel
  have hgap : databaseGap ∈ gaps plainSetup fiveAssumptions [] := by
    rw [hgaps]
    exact List.mem_singleton_self _
  obtain ⟨own, hown, -, e, he, -, hlabel⟩ :=
    (findGapsInReasoning_honest h).1 honest _ hgap _ hfifth
  rw [hgaps, List.mem_singleton] at hown
  subst hown
  have hother : ∀ e ∈ databaseGap.evidence.take groundsShown,
      clip e.label 90 ≠ clip "it is safe".toList 90 := by
    decide +kernel
  exact hother e he hlabel

theorem honest_iff_fiveAssumptions : ∃ result,
    call plainSetup fiveAssumptions fiveAssumptions (.findGapsInReasoning [])
        = .ok result
      ∧ (Honest plainSetup fiveAssumptions fiveAssumptions
          (.findGapsInReasoning []) result
        ↔ Candid plainSetup fiveAssumptions fiveAssumptions
          (.findGapsInReasoning [])) := by
  obtain ⟨result, h⟩ := call_fiveAssumptions
  exact ⟨result, h, honest_iff _ result h⟩

end Library

end MemoryOS.Agent
