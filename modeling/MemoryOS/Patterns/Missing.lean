/-
What may be called an absence, and what is absent (`domain/missing.py`,
`application/missing.py`).

A query without an order answers in the order of its tables, so every order that
it may answer in is that of some tables. Floats of the source are rationals.
-/
import MemoryOS.Lib.KeyedLog
import MemoryOS.Patterns.Discovery

namespace MemoryOS.Missing

open Lib Decisions Patterns

-- ========= the bar

/-- `MIN_SUPPORT`. -/
def minSupport : Nat := 2

/-- `MIN_CONFIDENCE`. -/
def minConfidence : ℚ := patternConfidence minSupport 0 minSupport

/-- `GapKind`. -/
inductive GapKind
  | unstatedAssumption | repeatedPattern | orphanedWork | unevaluatedAssumption
deriving DecidableEq, Repr

/-- `gap_confidence`. -/
def gapConfidence (supporting contradicting : Nat) : ℚ :=
  patternConfidence supporting contradicting minSupport

/-- `worth_saying`. -/
def worthSaying (supporting contradicting : Nat) : Bool :=
  decide (minSupport ≤ supporting) && decide (contradicting < supporting)
    && decide (minConfidence ≤ gapConfidence supporting contradicting)

/-- `Silence`. -/
structure Silence where
  considered : Nat := 0
  belowSupport : Nat := 0
  outweighed : Nat := 0
  bestSupport : Nat := 0
deriving DecidableEq, Repr

-- ============ gaps

/-- The kinds of thing a gap points at. -/
inductive RefKind
  | decision | pattern | memory | assumption
deriving DecidableEq, Repr

/-- `Evidence`. -/
structure Evidence where
  kind : RefKind
  refId : Id
  label : Text
deriving DecidableEq, Repr

/-- `Gap`. -/
structure Gap where
  kind : GapKind
  statement : Text
  subject : Text
  supporting : Nat
  contradicting : Nat
  evidence : List Evidence
deriving DecidableEq, Repr

/-- `Gap.confidence`. -/
def Gap.confidence (gap : Gap) : ℚ :=
    gapConfidence gap.supporting gap.contradicting

/-- `Gap.sayable`. -/
def Gap.sayable (gap : Gap) : Bool :=
  worthSaying gap.supporting gap.contradicting
    && decide (minSupport ≤ gap.evidence.length)

/-- `MissingReport`. -/
structure MissingReport where
  gaps : List Gap
  silence : Silence
  context : Text
deriving DecidableEq, Repr

/-- What is called that is not of this module. -/
structure Env where
  unicode : Unicode
  /-- `repr` of a string. -/
  quoted : Text → Text
  /-- `str` of a `UUID`. -/
  shown : Id → Text
  /-- `UUID(text)`, unless it raises `ValueError`. -/
  uuid : Text → Option Id
  /-- `%Y-%m-%d`. -/
  day : Timestamp → Text

/-- The tables that are read. -/
structure Corpus where
  db : Db
  tables : Tables
  patterns : List Pattern

-- =========== terms

/-- `STALE_AFTER`. -/
def staleAfter : Int := 30 * 86400 * 1000000

/-- `ORPHAN_GAP`. -/
def orphanGap : Int := 30 * 86400 * 1000000

/-- `_COMMON`. -/
def common : List Text :=
  ["the", "a", "an", "and", "or", "of", "to", "in", "for", "on", "with", "by",
    "from", "at", "is", "are", "was", "were", "be", "been", "this", "that", "it",
    "its", "as", "not", "no", "what", "which", "who", "when", "where", "how",
    "why", "do", "does", "did", "can", "could", "will", "would", "should", "we",
    "our", "they", "their", "have", "has", "had", "into", "one", "two", "three",
    "more", "most", "some", "any", "all", "out", "up", "rather", "than", "then",
    "there", "here", "over", "under", "about"].map String.toList

/-- `_MIN_TERM`. -/
def minTerm : Nat := 3

/-- `[a-z_]`. -/
def starts (c : Char) : Bool := ('a' ≤ c && c ≤ 'z') || c == '_'

/-- `[a-z0-9_]`. -/
def continues (c : Char) : Bool := starts c || ('0' ≤ c && c ≤ '9')

/-- `re.findall(r"[a-z_][a-z0-9_]*", text)`; the first argument is what the match
has read, the last character first. -/
def findall : Text → Text → List Text
  | word, [] => if word.isEmpty then [] else [word.reverse]
  | word, c :: rest =>
    if word.isEmpty then
      if starts c then findall [c] rest else findall [] rest
    else if continues c then findall (c :: word) rest
    else word.reverse :: findall [] rest

/-- `_terms`: a set, without an order. -/
def terms (env : Env) (text : Text) : List Text :=
  ((findall [] (env.unicode.lower text)).filter fun word =>
    decide (minTerm ≤ word.length) && !common.contains word).dedup

/-- `_overlap`. -/
def overlap (env : Env) (left right : Text) : Nat :=
  ((terms env left).filter (terms env right).contains).length

/-- `_normalise`. -/
def normalise (env : Env) (statement : Text) : Text :=
  [' '].intercalate ((terms env statement).mergeSort fun a b => decide (a ≤ b))

/-- A number, in an f-string. -/
def number (n : Nat) : Text := (toString n).toList

-- ====== unstated assumptions

variable (env : Env) (c : Corpus)

/-- `decisions` joined with `decision_assumptions`. -/
def assumed : List (Decision × DecisionAssumption) :=
  c.tables.decisions.flatMap fun d =>
    (c.tables.assumptions.filter fun a => decide (a.decisionId
      = d.id)).map fun a =>
      (d, a)

/-- What a peer is kept as: its question, and the last statement of the belief. -/
structure Peer where
  decisionId : Id
  question : Text
  statement : Text
  held : Option AssumptionVerdict
deriving DecidableEq, Repr

/-- The peers of one belief: a dictionary by decision. -/
def peersOf (rows : List (Decision × DecisionAssumption)) : List Peer :=
  rows.foldl
    (fun peers row =>
      let peer := ⟨row.1.id, row.1.question, row.2.statement, row.2.held⟩
      Upsert.upsert Peer.decisionId row.1.id (fun _ => peer) peer peers)
    []

/-- `held in ("failed", "partially")`. -/
def Peer.broke (peer : Peer) : Bool :=
  decide (peer.held = some .failed) || decide (peer.held = some .partially)

/-- The rows whose belief a peer recorded and the subject did not. -/
def unstatedRows (target : Option Decision) (subject : Text) :
    List (Decision × DecisionAssumption) :=
  let already := ((assumed c).filter fun row =>
      decide (some row.1.id = target.map (·.id))).map fun row =>
    normalise env row.2.statement
  (assumed c).filter fun row =>
    decide (some row.1.id ≠ target.map (·.id))
      && decide (overlap env subject row.1.question ≠ 0)
      && !(normalise env row.2.statement).isEmpty
      && !already.contains (normalise env row.2.statement)

/-- The gap of a belief. -/
def unstatedGap (belief : Text) (peers : List Peer) : Gap where
  kind := .unstatedAssumption
  subject := belief
  statement := number peers.length
    ++ " decision(s) like this one recorded an assumption this one does not — e.g. ".toList
    ++ env.quoted ((peers.head?.map (·.statement)).getD []) ++ ['.']
  supporting := peers.length
  contradicting := (peers.filter Peer.broke).length
  evidence := peers.map fun peer => ⟨.decision, peer.decisionId, peer.question⟩

/-- `_unstated_assumptions`. -/
def unstatedAssumptions (target : Option Decision) (about : Text) : List Gap :=
  let subject := (target.map (·.question)).getD about
  if isBlank subject then []
  else
    (Grouped.grouped (fun row => normalise env row.2.statement)
      (unstatedRows env c target subject)).map fun group =>
        unstatedGap env group.1 (peersOf group.2)

-- ====== repeated patterns

/-- `pattern.subject_key`. -/
def subjectText : SubjectKey → Text
  | .group id => env.shown id
  | .text t => t

/-- The name of a relation. -/
def relationText : PatternRelation → Text
  | .supports => "supports".toList
  | .contradicts => "contradicts".toList

/-- The gap of a pattern. -/
def patternGap (pattern : Pattern) : Gap where
  kind := .repeatedPattern
  subject := subjectText env pattern.subjectKey
  statement := "This resembles a recorded pattern: ".toList ++ pattern.statement
    ++ " Nothing here says you have accounted for it.".toList
  supporting := pattern.supportCount
  contradicting := pattern.contradictionCount
  evidence := ⟨.pattern, pattern.id, pattern.statement⟩
    :: pattern.evidence.map fun row =>
      ⟨.decision, row.decisionId, relationText row.relation
        ++ " the pattern".toList⟩

/-- Whether a pattern is looked at. -/
def resembles (subject : Text) (pattern : Pattern) : Bool :=
  pattern.dismissal.isNone
    && (isBlank subject || decide (overlap env subject pattern.statement ≠ 0))

/-- `_repeated_patterns`. -/
def repeatedPatterns (target : Option Decision) (about : Text) : List Gap :=
  let subject := (target.map (·.question)).getD about
  (c.patterns.filter (resembles env subject)).map (patternGap env)

-- ====== orphaned work

/-- `max` of a column, without its nulls. -/
def latest (times : List (Option Timestamp)) : Option Timestamp :=
  (times.filterMap id).max?

/-- The memories that mention an entity, once for each mention. -/
def mentioning (e : Entity) : List Memory :=
  (c.db.mentions.filter fun m => decide (m.entityId = e.id)).flatMap fun m =>
    c.db.memories.filter fun memory => decide (memory.id = m.memoryId)

/-- Those that are current. -/
def currentMentioning (e : Entity) : List Memory :=
  (mentioning c e).filter (·.isCurrent)

/-- `count(distinct memory_id)`. -/
def seen (e : Entity) : Nat := ((currentMentioning c e).map (·.id)).dedup.length

/-- The decisions that name a text. -/
def explaining (name : Text) : List Decision :=
  c.tables.decisions.filter fun d => decide (0 < overlap env name d.question)

/-- The memories that are cited, by their mentions: `limit(5)`. -/
def cited (e : Entity) : List Memory := (mentioning c e).take 5

/-- The gap of an entity that was last mentioned at a time. -/
def orphanGapOf (e : Entity) (last : Timestamp) : Gap where
  kind := .orphanedWork
  subject := e.canonicalName
  statement := env.quoted e.canonicalName ++ " was active across ".toList
    ++ number (seen c e)
      ++ " memories and nothing has mentioned it since ".toList
    ++ env.day last ++ ". No decision records why it stopped.".toList
  supporting := seen c e
  contradicting := (explaining env c e.canonicalName).length
  evidence := (cited c e).map fun memory =>
    ⟨.memory, memory.id, memory.externalKey.toList⟩

/-- When an entity that has gone quiet was last mentioned. -/
def quietSince (about : Text) (newest : Timestamp) (e : Entity) :
    Option Timestamp :=
  if seen c e < minSupport then none
  else
    match latest ((currentMentioning c e).map (·.occurredAt)) with
    | none => none
    | some last =>
      if newest - last < orphanGap then none
      else if !isBlank about && decide (overlap env about e.canonicalName
        = 0) then none
      else some last

/-- `_orphaned_work`. -/
def orphanedWork (about : Text) : List Gap :=
  match latest ((c.db.memories.filter (·.isCurrent)).map (·.occurredAt)) with
  | none => []
  | some newest =>
    c.db.entities.filterMap fun e =>
      (quietSince env c about newest e).map (orphanGapOf env c e)

-- ====== unevaluated assumptions

/-- The gap of a decision with its assumptions. -/
def unevaluatedGap (now : Timestamp) (d : Decision)
    (members : List (Decision × DecisionAssumption)) : Gap :=
  let unevaluated := members.filter fun row => row.2.held.isNone
  { kind := .unevaluatedAssumption
    subject := env.shown d.id
    statement := number unevaluated.length ++ " assumption(s) behind ".toList
      ++ env.quoted d.question ++ " have gone ".toList
      ++ (toString ((now - d.decidedAt) / 86400000000)).toList
      ++ " days without being checked. The decision still rests on them.".toList
    supporting := unevaluated.length
    contradicting := members.length - unevaluated.length
    evidence := unevaluated.map fun row => ⟨.assumption, row.2.id,
      row.2.statement⟩ }

/-- The gap of a group of rows, if it is about the subject. -/
def unevaluatedOf (target : Option Decision) (about : Text) (now : Timestamp)
    (members : List (Decision × DecisionAssumption)) : Option Gap :=
  match members.head? with
  | none => none
  | some (d, _) =>
    if target.any fun t => decide (d.id ≠ t.id) then none
    else if target.isNone && !isBlank about && decide (overlap env about d.question = 0)
    then none
    else if members.all fun row => row.2.held.isSome then none
    else some (unevaluatedGap env now d members)

/-- `_unevaluated_assumptions`. -/
def unevaluatedAssumptions (target : Option Decision) (about : Text)
    (now : Timestamp) :
    List Gap :=
  (Grouped.grouped (fun row => row.1.id)
    ((assumed c).filter fun row => decide (row.1.decidedAt
      < now - staleAfter))).filterMap
      fun group => unevaluatedOf env target about now group.2

-- ====== the use case

/-- `max(scored, key=…)`: the first that scores most. -/
def foremost (score : Decision → Nat) : List Decision → Option Decision
  | [] => none
  | d :: rest =>
    match foremost score rest with
    | none => some d
    | some best => if score d < score best then some best else some d

/-- `_resolve`. -/
def resolve (about : Text) : Option Decision :=
  if isBlank about then none
  else
    match env.uuid about with
    | some id => c.tables.decision id
    | none =>
      (foremost (fun d => overlap env about d.question) c.tables.decisions).filter
        fun d => decide (2 ≤ overlap env about d.question)

/-- The candidates of one kind, or of all four. -/
def considered (about : Text) (kind : Option GapKind) (now : Timestamp) :
    List Gap :=
  let target := resolve env c about
  (unstatedAssumptions env c target about ++ repeatedPatterns env c target about
      ++ orphanedWork env c about ++ unevaluatedAssumptions env c target about now).filter
    fun gap => kind.all fun wanted => decide (gap.kind = wanted)

/-- The order of a report: `(-confidence, statement)`. -/
def before (a b : Gap) : Bool :=
  decide (b.confidence < a.confidence)
    || (decide (a.confidence = b.confidence) && decide (a.statement
      ≤ b.statement))

/-- `find_missing`. -/
def findMissing (about : Text) (kind : Option GapKind) (now : Timestamp) :
    MissingReport :=
  let candidates := considered env c about kind now
  { gaps := (candidates.filter Gap.sayable).mergeSort before
    silence :=
      { considered := candidates.length
        belowSupport := (candidates.filter fun gap =>
          decide (gap.supporting < minSupport)).length
        outweighed := (candidates.filter fun gap => decide (minSupport
          ≤ gap.supporting)
          && decide (gap.supporting ≤ gap.contradicting)).length
        bestSupport := (candidates.map (·.supporting)).foldl max 0 }
    context := ((resolve env c about).map (·.question)).getD about }

end MemoryOS.Missing
