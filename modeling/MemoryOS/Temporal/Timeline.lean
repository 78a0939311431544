/-
The timeline endpoint (`api/routes/timeline.py`: `get_timeline`), with the
provenance profile that its window comes from (`application/temporal.py`:
`provenance_profile`, `observed_bounds`), the resolution of a source's name
(`application/sources.py`: `resolve`) and the search for silences (`find_gaps`).

Nobody writes while it runs, so every query reads one state. A handler answers,
with a timeline or one of its refusals, or it raises something that the server
turns into an internal error. A date of the corpus is an instant; where the
handler computes with it, it is a `datetime` in UTC.
-/
import MemoryOS.Corpus.Export
import MemoryOS.Temporal.Histogram

namespace MemoryOS.Temporal

-- ========= sources

/-- `sources.resolve`: the id of the first row of that name, and nothing where
none is named. The error is `UnknownSource`, with the names that are known. -/
def resolve (db : Db) (name : Option String) :
    Except (String × List String) (Option Id) :=
  match name with
  | none => .ok none
  | some name =>
    match db.sources.find? fun s => decide (s.name = name) with
    | none => .error (name, db.sources.map (·.name))
    | some s => .ok (some s.id)

/-- `sources.listed`: every source, by name. -/
def listed (db : Db) : List Source :=
  db.sources.insertionSort fun a b => a.name ≤ b.name

/-- `str` of `UnknownSource`. -/
def unknownSource (quoted : Text → Text) (unknown : String × List String) :
    Text :=
  let known := unknown.2.insertionSort fun a b => a ≤ b
  "no source named ".toList ++ quoted unknown.1.toList
    ++ "; known sources are: ".toList
    ++ (if known.isEmpty then "none registered".toList
      else ", ".toList.intercalate (known.map String.toList))

-- ========= profile

/-- `ProvenanceBand`. -/
structure ProvenanceBand where
  provenance : TimeProvenance
  count : Nat
  earliest : Option Timestamp
  latest : Option Timestamp
deriving DecidableEq, Repr

/-- The dates of some memories. -/
def datesOf (rows : List Memory) : List Timestamp :=
  rows.filterMap (·.occurredAt)

/-- The group of a provenance. -/
def bandOf (rows : List Memory) (provenance : TimeProvenance) :
    ProvenanceBand :=
  let band := rows.filter fun m => decide (m.occurredAtSource = provenance)
  { provenance := provenance
    count := band.length
    earliest := (datesOf band).min?
    latest := (datesOf band).max? }

/-- The order of the bands: the largest first. -/
def bandOrder (b : ProvenanceBand) : Natᵒᵈ ×ₗ List Char :=
  toLex (OrderDual.toDual b.count, (Export.provenanceName b.provenance).toList)

/-- What the profile is over: the current memories of the source. -/
def scopeOf (db : Db) (sourceId : Option Id) : List Memory :=
  (live db).filter (ofSource sourceId)

/-- `provenance_profile`: the undated band last, whether or not it is empty. -/
def provenanceProfile (db : Db) (sourceId : Option Id) :
    List ProvenanceBand :=
  let rows := scopeOf db sourceId
  let bands := ((rows.map (·.occurredAtSource)).dedup).map (bandOf rows)
  let dated := bands.filter fun b => decide (b.provenance ≠ .unknown)
  let unknown := (bands.find? fun b => decide (b.provenance = .unknown)).getD
    { provenance := .unknown, count := 0, earliest := none, latest := none }
  (dated.insertionSort fun a b => bandOrder a ≤ bandOrder b) ++ [unknown]

/-- `observed_bounds`. -/
def observedBounds (bands : List ProvenanceBand) :
    Option (Timestamp × Timestamp) :=
  match (bands.filterMap (·.earliest)).min?,
    (bands.filterMap (·.latest)).max? with
  | some earliest, some latest => some (earliest, latest)
  | _, _ => none

-- ======== silences

/-- `Gap`: a stretch without activity, and the memories at its ends. -/
structure Gap where
  start : Timestamp
  stop : Timestamp
  before : Memory
  after : Memory
deriving DecidableEq, Repr

/-- `pairwise`, of memories with a long enough time between them. -/
def gapsOf (minGap : Int) : List Memory → List Gap
  | before :: after :: rest =>
    match before.occurredAt, after.occurredAt with
    | some start, some stop =>
      if minGap ≤ stop - start then
        ⟨start, stop, before, after⟩ :: gapsOf minGap (after :: rest)
      else gapsOf minGap (after :: rest)
    | _, _ => gapsOf minGap (after :: rest)
  | _ => []

/-- `find_gaps` of a `SourceScope`. Nothing is a `ValueError`. -/
def findGaps (db : Db) (sourceId : Id) (minGap : Int) : Option (List Gap) :=
  if minGap ≤ 0 then none
  else
    some (gapsOf minGap (((live db).filter fun m =>
      m.occurredAt.isSome && ofSource (some sourceId) m).insertionSort
        fun a b => a.occurredAt.getD 0 ≤ b.occurredAt.getD 0))

-- ======== endpoint

/-- `TimelineOut`. -/
structure TimelineOut where
  start : Moment
  stop : Moment
  period : Period
  total : Nat
  buckets : List Bucket
  provenance : List ProvenanceBand
deriving DecidableEq, Repr

/-- What the handler answers: a timeline, or a refusal with its details. -/
inductive TimelineReply
  | timeline (out : TimelineOut)
  /-- 404: `UnknownSource`. -/
  | unknownSource (name : String) (known : List String)
  /-- 422: `'from' (…) must be before 'to' (…)`. -/
  | emptyWindow (start stop : Aware)
deriving DecidableEq, Repr

/-- What the handler raises. -/
inductive TimelineCrash
  /-- `assert observed is not None`. -/
  | assertion
  | datetime (e : DatetimeError)
deriving DecidableEq, Repr

/-- `_aware`: a date without an offset is of UTC. -/
def aware (moment : Moment) : Aware :=
  match moment.tz with
  | none => .utc moment.wall
  | some tz => ⟨moment.wall, tz⟩

/-- A date of the corpus, as a `datetime`. -/
def ofTimestamp (t : Timestamp) : Except DatetimeError Aware :=
  (Datetime.ofInstant t).map .utc

/-- Where the window starts. -/
def windowStart (start : Option Moment) (earliest : Timestamp) :
    Except DatetimeError Aware :=
  match start with
  | some moment => .ok (aware moment)
  | none => ofTimestamp earliest

/-- Where the window ends. -/
def windowEnd (stop : Option Moment) (latest : Timestamp) (period : Period) :
    Except DatetimeError Aware :=
  match stop with
  | some moment => .ok (aware moment)
  | none =>
    match ofTimestamp latest with
    | .error e => .error e
    | .ok moment => advance moment.moment period

/-- What the handler answers for a window. -/
def drawWindow (dateTrunc : String → Timestamp → Timestamp) (db : Db)
    (period : Period) (sourceId : Option Id) (bands : List ProvenanceBand)
    (start stop : Aware) : Except TimelineCrash TimelineReply :=
  if stop.le start then .ok (.emptyWindow start stop)
  else
    match activityByPeriod dateTrunc db start.moment stop.moment period
      sourceId with
    | .error e => .error (.datetime e)
    | .ok buckets =>
      .ok (.timeline
        { start := start.moment
          stop := stop.moment
          period := period
          total := buckets.foldr (fun b n => b.count + n) 0
          buckets := buckets
          provenance := bands })

/-- `get_timeline`. -/
def getTimeline (dateTrunc : String → Timestamp → Timestamp) (db : Db)
    (now : Moment) (period : Period) (start stop : Option Moment)
    (source : Option String) : Except TimelineCrash TimelineReply :=
  match resolve db source with
  | .error (name, known) => .ok (.unknownSource name known)
  | .ok sourceId =>
    let bands := provenanceProfile db sourceId
    let observed := observedBounds bands
    if observed = none ∧ (start = none ∨ stop = none) then
      -- nothing dated: an empty timeline with the profile attached
      .ok (.timeline
        { start := start.getD now
          stop := stop.getD now
          period := period
          total := 0
          buckets := []
          provenance := bands })
    else
      match observed with
      | none => .error .assertion
      | some (earliest, latest) =>
        match windowStart start earliest with
        | .error e => .error (.datetime e)
        | .ok first =>
          match windowEnd stop latest period with
          | .error e => .error (.datetime e)
          | .ok last =>
            drawWindow dateTrunc db period sourceId bands first last

end MemoryOS.Temporal
