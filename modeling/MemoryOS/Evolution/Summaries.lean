/-
Short descriptions of a diff, kept for the pair of versions
(`evolution.SummarizeChange`, `grounding.check_summary`).

`Service` is the corpus with the summary table and the requests for a
summary. Reading the two versions, looking for a kept summary and storing a
new one are three sessions, and whatever the corpus does may come between
them. A request that is refused, or that a failed reply ends, leaves
nothing.
-/
import Mathlib.Data.List.Infix
import MemoryOS.Corpus.Live
import MemoryOS.Domain.Grounding
import MemoryOS.Evolution.Diff

namespace MemoryOS.Evolution

open Lib

-- ======= the check

/-- Between a letter and what is none, as `\\b`. -/
def boundary (script : Script) : Matcher :=
  .look fun prev next => prev.any script.isWord != next.any script.isWord

/-- The quotation mark of `_TERM`'s first branch. -/
def isTick (c : Char) : Bool := c == Char.ofNat 0x60

/-- `_TERM`. -/
def term (script : Script) : Matcher :=
  let quoted := Matcher.char fun c => !isTick c && c != '\n'
  let letters := Matcher.char fun c => c.isAlphanum
  let name := Matcher.char fun c => c.isAlphanum || c == '_'
  let lower := Matcher.plus (.char fun c => c.isLower || c.isDigit)
  .oneOf [
    .all [.char isTick, quoted, quoted, .upTo quoted 78, .char isTick],
    .all [boundary script, .char fun c => c.isAlpha || c == '_', .star name,
      .plus (.all [.char fun c => c == '.' || c == '/', .plus name]),
      boundary script],
    .all [boundary script, lower, .plus (.all [.char (· == '_'), lower]),
      boundary script],
    .all [boundary script,
      .oneOf [
        .all [.plus (.char Char.isLower), .char Char.isUpper, .star letters],
        .all [.char Char.isUpper, lower, .char Char.isUpper, .star letters]],
      boundary script]]

/-- `_NOT_A_TERM`. -/
def notATerm : List String := ["e.g.", "i.e.", "etc.", "vs.", "no.", "n.b."]

/-- The group of a match. -/
def groupOf (found : Text) : Text :=
  match found with
  | [] => []
  | c :: rest => if isTick c then rest.dropLast else found

/-- The loop of `check_summary`: each term once, in the order of the text. -/
def termsOf (script : Script) (summary : Text) : List Text :=
  ((term script).findall summary).foldl (fun terms found =>
    let term := strip (groupOf found)
    if decide (term.length < 3)
        || notATerm.any (fun t => decide (t.toList = script.lower term))
        || terms.contains term then terms
    else terms ++ [term]) []

/-- A line without the break it ends in. -/
def withoutBreak (line : Text) : Text :=
  match line.reverse with
  | '\n' :: '\r' :: rest => rest.reverse
  | c :: rest => if CodeBoundaries.isLineBreak c then rest.reverse else line
  | [] => []

/-- What begins a line of the diff's own framing. -/
def framing : List String := ["---", "+++", "@@", "[diff truncated"]

/-- The lines of a diff that are not its framing. -/
def diffLines (evidence : Text) : List Text :=
  ((linesOf evidence).map withoutBreak).filter fun line =>
    !framing.any fun start => start.toList.isPrefixOf line

/-- Whether a line of a diff was added or removed. -/
def isChange (line : Text) : Bool :=
  line.head? == some '+' || line.head? == some '-'

/-- `_split_diff`: what changed, and what is only context. -/
def splitDiff (evidence : Text) : Text × Text :=
  let lines := diffLines evidence
  (['\n'].intercalate ((lines.filter isChange).map (·.drop 1)),
    ['\n'].intercalate ((lines.filter fun l => !isChange l).map fun l =>
      if l.head? = some ' ' then l.drop 1 else l))

/-- `SummaryCheck`. -/
structure SummaryCheck where
  terms : List Text := []
  unsupported : List Text := []
  contextOnly : List Text := []
  trivial_ : Bool := false
deriving DecidableEq, Repr

/-- `grounded`. -/
def SummaryCheck.grounded (c : SummaryCheck) : Bool := c.unsupported.isEmpty

/-- `check_summary`, as a reply is checked. -/
def checkSummary (script : Script) (summary evidence : Text) : SummaryCheck :=
  let changed := (splitDiff evidence).1
  let context := (splitDiff evidence).2
  let terms := termsOf script summary
  { terms := terms
    unsupported := terms.filter fun t =>
      !decide (t <:+: changed) && !decide (t <:+: context)
    contextOnly := terms.filter fun t =>
      !decide (t <:+: changed) && decide (t <:+: context) }

/-- What a caller is told of a check: trivial or not, grounded or not, and
the unsupported terms. -/
def SummaryCheck.verdict (c : SummaryCheck) : Bool × Bool × List Text :=
  (c.trivial_, c.grounded, c.unsupported)

-- ====== the summaries

/-- `ChangeSummary`, as it is returned. -/
structure ChangeSummary where
  text : Text
  modelId : String
  summarizerVersion : String
  grounding : SummaryCheck
  cached : Bool := false
deriving DecidableEq, Repr

/-- `NO_SUBSTANTIVE_CHANGE`. -/
def noSubstantiveChange : Text := "No substantive change.".toList

/-- `SummarizeChange.__init__`, with the model it asks. -/
structure Summarizer where
  modelId : String
  version : String := "change-v2"
  maxDiffChars : Nat := 12000
deriving DecidableEq, Repr

/-- `_evidence`: the diff as the model sees it. -/
def Summarizer.evidence (z : Summarizer) (diff : VersionDiff) : Text :=
  if diff.unifiedDiff.length ≤ z.maxDiffChars then diff.unifiedDiff
  else diff.unifiedDiff.take z.maxDiffChars
    ++ ("\n[diff truncated at " ++ toString z.maxDiffChars
      ++ " characters; more changed below this point]\n").toList

/-- The answer to a diff without spans. -/
def Summarizer.trivialSummary (z : Summarizer) : ChangeSummary where
  text := noSubstantiveChange
  modelId := z.modelId
  summarizerVersion := z.version
  grounding := { trivial_ := true }

/-- The answer made of a model's reply. -/
def Summarizer.generated (z : Summarizer) (script : Script)
    (diff : VersionDiff) (reply : Text) : ChangeSummary where
  text := strip reply
  modelId := z.modelId
  summarizerVersion := z.version
  grounding := checkSummary script (strip reply) (z.evidence diff)

/-- A row of `change_summaries`. -/
structure SummaryRow where
  fromMemoryId : Id
  toMemoryId : Id
  summarizerVersion : String
  modelId : String
  summary : Text
  grounded : Bool
  unsupportedTerms : List Text
deriving DecidableEq, Repr

/-- `uq_change_summaries_pair_version`. -/
def SummaryRow.key (row : SummaryRow) : Id × Id × String :=
  (row.fromMemoryId, row.toMemoryId, row.summarizerVersion)

/-- The row `_store` writes. -/
def rowOf (diff : VersionDiff) (summary : ChangeSummary) : SummaryRow where
  fromMemoryId := diff.before
  toMemoryId := diff.after
  summarizerVersion := summary.summarizerVersion
  modelId := summary.modelId
  summary := summary.text
  grounded := summary.grounding.grounded
  unsupportedTerms := summary.grounding.unsupported

/-- What `_cached` makes of a row. -/
def SummaryRow.served (row : SummaryRow) : ChangeSummary where
  text := row.summary
  modelId := row.modelId
  summarizerVersion := row.summarizerVersion
  grounding := { unsupported := row.unsupportedTerms }
  cached := true

-- ====== the service

/-- A diff, and the database it was read from, which nothing stores. -/
structure Made where
  diff : VersionDiff
  source : Db

/-- A row, with what no column says: the diff its summary was generated
from, and the summary as its own caller was given it. -/
structure Kept where
  row : SummaryRow
  made : Made
  returned : ChangeSummary

/-- How far a request has got. -/
inductive Call
  | diffed (made : Made)
  | asked (z : Summarizer) (refresh : Bool) (made : Made)
  | answered

/-- The corpus, the summary table and the requests. -/
structure Service where
  store : Store
  summaries : List Kept
  calls : List Call

/-- A corpus that holds nothing yet. -/
def init (sources : List Source) : Service := ⟨Live.start sources, [], []⟩

/-- A summary handed to a caller, over the database as it then was, and the
row it was read from. -/
structure Served where
  diff : VersionDiff
  summary : ChangeSummary
  row : Option Kept
  db : Db

/-- A step. Another parser comes with other `ports`. -/
inductive Action
  | upload (hash : ContentHash) (data : Bytes)
  | ingest (sourceId : Id) (item : ObservedItem) (now : Timestamp)
  | normalize (ports : Ports) (memoryId : Id) (now : Timestamp)
  | diff (a b : Id)
  | summarize (call : Nat) (z : Summarizer) (refresh : Bool)
  | reply (call : Nat) (text : Text)

/-- The query of `_cached`. -/
def cached (summaries : List Kept) (diff : VersionDiff) (version : String) :
    Option Kept :=
  summaries.find? fun k =>
    decide (k.row.key = (diff.before, diff.after, version))

/-- `_store`: a row that is there stays, unless it is to be replaced, and
then every column but the key's is set. -/
def storeSummary (summaries : List Kept) (kept : Kept) (replace : Bool) :
    List Kept :=
  if summaries.any fun k => decide (k.row.key = kept.row.key) then
    if replace then
      summaries.map fun k => if k.row.key = kept.row.key then kept else k
    else summaries
  else summaries ++ [kept]

/-- A request moves on. -/
def Service.move (s : Service) (call : Nat) (c : Call) : Service :=
  { s with calls := s.calls.set call c }

/-- The rest of `__call__`, for a diff with spans. -/
def Service.look (s : Service) (call : Nat) (z : Summarizer) (refresh : Bool)
    (made : Made) : Service × List Served :=
  match if refresh then none else cached s.summaries made.diff z.version with
  | some kept =>
    (s.move call .answered,
      [⟨made.diff, kept.row.served, some kept, s.store.db⟩])
  | none => (s.move call (.asked z refresh made), [])

/-- The corpus after an operation on it. -/
def Service.corpus (s : Service) (ports : Ports) (op : Live.Op) : Service :=
  { s with store := Live.step ports s.store op }

/-- One step. -/
def step (lib : Difflib) (script : Script) (s : Service) :
    Action → Option (Service × List Served)
  | .upload hash data => some (s.corpus .plain (.upload hash data), [])
  | .ingest sourceId item now =>
    some (s.corpus .plain (.ingest sourceId item now), [])
  | .normalize ports memoryId now =>
    some (s.corpus ports (.normalize memoryId now), [])
  | .diff a b =>
    match diffVersions lib s.store.db a b with
    | .error _ => none
    | .ok diff =>
      some ({ s with calls := s.calls ++ [.diffed ⟨diff, s.store.db⟩] }, [])
  | .summarize call z refresh =>
    match s.calls[call]? with
    | some (.diffed made) =>
      if made.diff.isEmpty then
        some (s.move call .answered,
          [⟨made.diff, z.trivialSummary, none, s.store.db⟩])
      else some (s.look call z refresh made)
    | _ => none
  | .reply call text =>
    match s.calls[call]? with
    | some (.asked z refresh made) =>
      let summary := z.generated script made.diff text
      some ({ s.move call .answered with
          summaries := storeSummary s.summaries
            ⟨rowOf made.diff summary, made, summary⟩ refresh },
        [⟨made.diff, summary, none, s.store.db⟩])
    | _ => none

/-- The service as a machine. -/
def machine (lib : Difflib) (script : Script) :
    Machine Service Action Served where
  step := step lib script

-- ====== statement vocabulary

/-- The text a version has. -/
def textNow (db : Db) (id : Id) : Text := ((db.memory id).map textOf).getD []

/-- Whether two databases give both versions of a diff the same texts. -/
def sameTexts (db db' : Db) (diff : VersionDiff) : Bool :=
  decide (textNow db diff.before = textNow db' diff.before)
    && decide (textNow db diff.after = textNow db' diff.after)

/-- Every kept summary is of the texts its versions have. -/
def Fresh (s : Service) : Prop :=
  ∀ k ∈ s.summaries, sameTexts k.made.source s.store.db k.made.diff = true

/-- A summary that was generated from the diff of the texts the two versions
have, and that says what its own caller was told. -/
structure Current (lib : Difflib) (e : Served) (kept : Kept) : Prop where
  texts : sameTexts kept.made.source e.db e.diff = true
  diff : diffVersions lib e.db e.diff.before e.diff.after = .ok kept.made.diff
  text : e.summary.text = kept.returned.text
  verdict : e.summary.grounding.verdict = kept.returned.grounding.verdict

/-- Whether normalizing a version leaves it the text it has. -/
def keepsText (s : Service) (ports : Ports) (memoryId : Id) (now : Timestamp) :
    Bool :=
  decide (textNow (s.corpus ports (.normalize memoryId now)).store.db memoryId
    = textNow s.store.db memoryId)

/-- Whether a version has a part in a kept summary. -/
def Kept.names (k : Kept) (memoryId : Id) : Bool :=
  decide (k.row.fromMemoryId = memoryId) || decide (k.row.toMemoryId = memoryId)

/-- The condition on a step: a version gets another text only while no
summary of it is kept, and a summary is kept only of texts the versions
still have. -/
def undisturbed (s : Service) : Action → Bool
  | .normalize ports memoryId now =>
    keepsText s ports memoryId now
      || s.summaries.all fun k => !k.names memoryId
  | .reply call _ =>
    match s.calls[call]? with
    | some (.asked z refresh made) =>
      sameTexts made.source s.store.db made.diff
        || !refresh && (cached s.summaries made.diff z.version).isSome
    | _ => true
  | _ => true

/-- A summary served from a row of other texts. -/
def Served.stale (e : Served) : Bool :=
  e.summary.cached
    && e.row.any fun k => !sameTexts k.made.source e.db e.diff

end MemoryOS.Evolution
