/-
Whether to volunteer a context (`domain/surfacing.py`,
`application/surfacing.py`).

`surface` is three transactions: the focus's feedback, which sets the bar;
what was shown for it lately, on which `decide` refuses; and the row that
records the decision, shown or refused. Any other call may run between two
of them, and a call may stop after any. `_rate` is one transaction.

Scores are floats in the source and rationals here. `sha256` is a
parameter: only the log shows what it returns.
-/
import Mathlib.Algebra.Order.Field.Rat
import Mathlib.Data.List.Sort
import MemoryOS.Domain.Values
import MemoryOS.Lib.Machine

namespace MemoryOS

open Lib

namespace Surfacing

/-- `SINGLE_ROUTE_BEST`. -/
def singleRouteBest : ℚ := 1 / 61

/-- `REPEAT_WINDOW`: four hours. -/
def repeatWindow : Timestamp := 4 * 3600 * 1000000

/-- `DISMISSAL_WINDOW`: thirty days. -/
def dismissalWindow : Timestamp := 30 * 24 * 3600 * 1000000

/-- `LOOKBACK`. -/
def lookback : Timestamp := max repeatWindow dismissalWindow

/-- `IDENTITY_ITEMS`. -/
def identityItems : Nat := 5

/-- `SurfaceReason`. -/
inductive SurfaceReason
  | cleared | noContext | nothingNew | belowThreshold | dismissed
  | alreadySurfaced
deriving DecidableEq, Repr

/-- `ContextSource`. -/
inductive ContextSource
  | retrieval | graph | temporal | recency | decisions
deriving DecidableEq, Repr

/-- `FOCUS_SPECIFIC`. -/
def ContextSource.focusSpecific : ContextSource → Bool
  | .retrieval => true
  | .graph => true
  | .temporal => true
  | .recency => false
  | .decisions => true

/-- What the gate reads of a `ContextItem`. -/
structure ContextItem where
  key : String
  title : String
  sources : List (ContextSource × Nat)
  externalKey : Option Text
deriving DecidableEq, Repr

/-- What the gate reads of an `AssembledContext`. -/
structure AssembledContext where
  focus : Text
  items : List ContextItem
deriving DecidableEq, Repr

/-- The keys of a context's items. -/
def AssembledContext.keys (context : AssembledContext) : List String :=
  context.items.map ContextItem.key

/-- `TopItem`. -/
structure TopItem where
  key : String
  title : String
  score : ℚ
  routes : Nat
deriving DecidableEq

/-- A row of `surfacing_log`. -/
structure SurfacingLog where
  id : Id
  focus : Text
  contextHash : String
  itemKeys : List String
  topKey : Option String
  topTitle : Option String
  score : ℚ
  threshold : ℚ
  reason : SurfaceReason
  triggerKind : Option EventKind
  triggerId : Option Id
  decidedAt : Timestamp
  surfacedAt : Option Timestamp
  dismissedAt : Option Timestamp
  actedOnAt : Option Timestamp
deriving DecidableEq

/-- `PriorSurfacing`. -/
structure PriorSurfacing where
  contextHash : String
  keys : List String
  surfacedAt : Timestamp
  dismissedAt : Option Timestamp
  actedOnAt : Option Timestamp
deriving DecidableEq, Repr

/-- `SurfaceDecision`. -/
structure SurfaceDecision where
  surface : Bool
  reason : SurfaceReason
  score : ℚ
  threshold : ℚ
  contextHash : String
  top : Option TopItem
deriving DecidableEq

-- ========== decide

/-- `threshold_for`: the bar, from 1.8 of one route's best, up 0.6 for a
dismissal and down 0.2 for a useful mark, between 1 and 4. -/
def thresholdFor (dismissed actedOn : Nat) : ℚ :=
  let multiple : ℚ := 9 / 5 + 3 / 5 * dismissed - 1 / 5 * actedOn
  min 4 (max 1 multiple) * singleRouteBest

/-- `context_hash`. -/
def contextHash (sha256 : String → String) (keys : List String) : String :=
  sha256 ("\x00".intercalate
    ((keys.take identityItems).insertionSort fun a b => a ≤ b))

/-- `overlap(left, right) >= SIMILARITY`: the sets of keys are not empty,
and share three fifths of what they have together. -/
def similar (left right : List String) : Bool :=
  let first := left.dedup
  let second := right.dedup
  let both := first.filter fun k => decide (k ∈ second)
  let either := first ++ second.filter fun k => decide (k ∉ first)
  !first.isEmpty && !second.isEmpty
    && decide (3 * either.length ≤ 5 * both.length)

/-- `names_the_focus`. -/
def namesTheFocus (externalKey : Option Text) (focus : Text) : Bool :=
  match externalKey with
  | none => false
  | some key =>
    if key.isEmpty || focus.isEmpty then false
    else decide (key = focus) || ('/' :: focus).isSuffixOf key
      || ('/' :: key).isSuffixOf focus

/-- The dismissal of a prior is less than the window ago. -/
def dismissedLately (now : Timestamp) (dismissedAt : Option Timestamp) :
    Bool :=
  match dismissedAt with
  | none => false
  | some at_ => decide (now - at_ < dismissalWindow)

/-- A prior was shown less than the window ago. -/
def shownLately (now surfacedAt : Timestamp) : Bool :=
  decide (now - surfacedAt < repeatWindow)

/-- The loop of `decide` over the similar priors: a dismissal ends it. -/
def refusalOf (now : Timestamp) :
    Option SurfaceReason → List PriorSurfacing → Option SurfaceReason
  | refusal, [] => refusal
  | refusal, prior :: rest =>
    if dismissedLately now prior.dismissedAt then some .dismissed
    else refusalOf now
      (if shownLately now prior.surfacedAt then some .alreadySurfaced
        else refusal) rest

/-- `decide`. -/
def decideSurface (sha256 : String → String) (top : Option TopItem)
    (keys : List String) (threshold : ℚ) (recent : List PriorSurfacing)
    (now : Timestamp) : SurfaceDecision :=
  let digest := contextHash sha256 keys
  match top with
  | none =>
    { surface := false
      reason := if keys.isEmpty then .noContext else .nothingNew
      score := 0
      threshold := threshold
      contextHash := digest
      top := none }
  | some top =>
    if top.score ≤ threshold then
      { surface := false
        reason := .belowThreshold
        score := top.score
        threshold := threshold
        contextHash := digest
        top := some top }
    else
      match refusalOf now none (recent.filter fun p => similar keys p.keys)
        with
      | some refusal =>
        { surface := false
          reason := refusal
          score := top.score
          threshold := threshold
          contextHash := digest
          top := some top }
      | none =>
        { surface := true
          reason := .cleared
          score := top.score
          threshold := threshold
          contextHash := digest
          top := some top }

-- ======== the gate

/-- `contribution`. -/
def contribution (rank : Nat) : ℚ := 1 / (60 + rank)

/-- `focus_specific_score`. -/
def focusSpecificScore (item : ContextItem) : ℚ :=
  ((item.sources.filter fun s => s.1.focusSpecific).map fun s =>
    contribution s.2).sum

/-- `max(candidates, key=…)`: the first of the best. -/
def bestOf : ContextItem → List ContextItem → ContextItem
  | best, [] => best
  | best, item :: rest =>
    if focusSpecificScore best < focusSpecificScore item then
      bestOf item rest
    else bestOf best rest

/-- `_top_item`. -/
def topItem (context : AssembledContext) : Option TopItem :=
  match context.items.filter fun item =>
      !namesTheFocus item.externalKey context.focus with
  | [] => none
  | item :: rest =>
    let best := bestOf item rest
    some
      { key := best.key
        title := best.title
        score := focusSpecificScore best
        routes := (best.sources.filter fun s => s.1.focusSpecific).length }

/-- `threshold_for_focus`. -/
def thresholdForFocus (log : List SurfacingLog) (focus : Text) : ℚ :=
  let rows := log.filter fun r => decide (r.focus = focus)
  thresholdFor (rows.filter fun r => r.dismissedAt.isSome).length
    (rows.filter fun r => r.actedOnAt.isSome).length

/-- `_to_prior`, of a row that was shown. -/
def toPrior (r : SurfacingLog) : Option PriorSurfacing :=
  r.surfacedAt.map fun surfacedAt =>
    { contextHash := r.contextHash
      keys := r.itemKeys
      surfacedAt := surfacedAt
      dismissedAt := r.dismissedAt
      actedOnAt := r.actedOnAt }

/-- `recent_surfacings`: by when it was shown, not by when it was
dismissed. -/
def recentSurfacings (log : List SurfacingLog) (focus : Text)
    (now : Timestamp) : List PriorSurfacing :=
  ((log.filter fun r => decide (r.focus = focus)).filterMap toPrior
    |>.filter fun p => decide (now - lookback < p.surfacedAt)).insertionSort
      fun a b => b.surfacedAt ≤ a.surfacedAt

/-- The row `surface` writes. -/
def surfacingRow (id : Id) (context : AssembledContext)
    (trigger : Option (EventKind × Id)) (moment : Timestamp)
    (decision : SurfaceDecision) : SurfacingLog where
  id := id
  focus := context.focus
  contextHash := decision.contextHash
  itemKeys := context.keys
  topKey := decision.top.map TopItem.key
  topTitle := decision.top.map TopItem.title
  score := decision.score
  threshold := decision.threshold
  reason := decision.reason
  triggerKind := trigger.map Prod.fst
  triggerId := trigger.map Prod.snd
  decidedAt := moment
  surfacedAt := if decision.surface then some moment else none
  dismissedAt := none
  actedOnAt := none

/-- The verdicts `AlreadyRated` names. -/
inductive AlreadyRated
  | dismissed | useful
deriving DecidableEq, Repr

/-- The verdict `_rate` writes. -/
def SurfacingLog.rated (r : SurfacingLog) (dismissed : Bool)
    (now : Timestamp) : SurfacingLog :=
  if dismissed then { r with dismissedAt := some now }
  else { r with actedOnAt := some now }

/-- `_rate`: whether there was such a row. -/
def rate (log : List SurfacingLog) (rowId : Id) (dismissed : Bool)
    (now : Timestamp) : Except AlreadyRated (List SurfacingLog × Bool) :=
  match log.find? fun r => decide (r.id = rowId) with
  | none => .ok (log, false)
  | some row =>
    if row.surfacedAt.isNone then .ok (log, false)
    else if row.dismissedAt.isSome then .error .dismissed
    else if row.actedOnAt.isSome then .error .useful
    else
      .ok (log.map fun r =>
        if r.id = rowId then r.rated dismissed now else r, true)

-- ======= the calls

/-- A call of `surface` that has read its focus's feedback. -/
structure Asked where
  context : AssembledContext
  trigger : Option (EventKind × Id)
  moment : Timestamp
  threshold : ℚ

/-- A call of `surface` that has decided. -/
structure Decided where
  context : AssembledContext
  trigger : Option (EventKind × Id)
  moment : Timestamp
  decision : SurfaceDecision
  /-- Not in the source: the log as the call read it. -/
  read : List SurfacingLog

/-- The log, and the calls that are under way. -/
structure World where
  log : List SurfacingLog
  nextId : Id
  asked : List Asked
  decided : List Decided
  /-- Not in the source: the row that was recorded as shown last, if that
  was the last thing that happened, and the log before it. -/
  recorded : Option (SurfacingLog × List SurfacingLog)

/-- What can happen next. -/
inductive Action
  /-- A call of `surface` begins, and reads the feedback. -/
  | ask (context : AssembledContext) (trigger : Option (EventKind × Id))
      (now : Timestamp)
  /-- The `i`-th of the calls that have asked reads what was shown. -/
  | settle (i : Nat)
  /-- The `i`-th of the calls that have decided writes its row. -/
  | record (i : Nat)
  | dismiss (rowId : Id) (now : Timestamp)
  | markUseful (rowId : Id) (now : Timestamp)

/-- The two ratings. -/
def rated (w : World) (rowId : Id) (dismissed : Bool) (now : Timestamp) :
    World :=
  match rate w.log rowId dismissed now with
  | .error _ => { w with recorded := none }
  | .ok (log, _) => { w with log := log, recorded := none }

/-- One transaction. -/
def step (sha256 : String → String) (w : World) :
    Action → Option (World × List Unit)
  | .ask context trigger now =>
    some ({ w with
      asked := w.asked ++
        [{ context := context
           trigger := trigger
           moment := now
           threshold := thresholdForFocus w.log context.focus }]
      recorded := none }, [])
  | .settle i =>
    match w.asked[i]? with
    | none => none
    | some a =>
      some ({ w with
        asked := w.asked.eraseIdx i
        decided := w.decided ++
          [{ context := a.context
             trigger := a.trigger
             moment := a.moment
             decision := decideSurface sha256 (topItem a.context)
               a.context.keys a.threshold
               (recentSurfacings w.log a.context.focus a.moment) a.moment
             read := w.log }]
        recorded := none }, [])
  | .record i =>
    match w.decided[i]? with
    | none => none
    | some d =>
      let row :=
        surfacingRow w.nextId d.context d.trigger d.moment d.decision
      some ({ w with
        log := w.log ++ [row]
        nextId := w.nextId + 1
        decided := w.decided.eraseIdx i
        recorded :=
          if d.decision.surface then some (row, w.log) else none }, [])
  | .dismiss rowId now => some (rated w rowId true now, [])
  | .markUseful rowId now => some (rated w rowId false now, [])

/-- The gate, and the clicks on what it showed. -/
def machine (sha256 : String → String) : Machine World Action Unit where
  step := step sha256

/-- Nothing was ever shown. -/
def start : World where
  log := []
  nextId := 0
  asked := []
  decided := []
  recorded := none

-- ====== statement vocabulary

/-- The row shows, for the same focus, much the same items. -/
def Alike (focus : Text) (keys : List String) (q : SurfacingLog) : Prop :=
  q.focus = focus ∧ similar keys q.itemKeys = true

/-- The row was shown less than the repeat window before. -/
def ShownBefore (now : Timestamp) (q : SurfacingLog) : Prop :=
  ∃ surfacedAt, q.surfacedAt = some surfacedAt
    ∧ now - surfacedAt < repeatWindow

/-- The row was dismissed less than the dismissal window before. -/
def DismissedBefore (now : Timestamp) (q : SurfacingLog) : Prop :=
  ∃ at_, q.dismissedAt = some at_ ∧ now - at_ < dismissalWindow

/-- What is recorded as shown was neither shown nor refused just before,
and no row has both verdicts. -/
def Quiet (w : World) : Prop :=
  (∀ row before, w.recorded = some (row, before) →
    ∀ q ∈ before, Alike row.focus row.itemKeys q →
      ¬ ShownBefore row.decidedAt q ∧ ¬ DismissedBefore row.decidedAt q)
    ∧ ∀ q ∈ w.log, ¬ (q.dismissedAt.isSome ∧ q.actedOnAt.isSome)

/-- A row is written by a call to which nothing happened that it did not
see: a similar row that is in the log as the call read it is not one that
was shown before the look-back and dismissed within the window, and one
that was written or rated since was neither shown nor dismissed within its
window. -/
def Timely (w : World) : Action → Prop
  | .record i => ∀ d, w.decided[i]? = some d → d.decision.surface = true →
      ∀ q ∈ w.log, Alike d.context.focus d.context.keys q →
        (q ∈ d.read →
          (∃ surfacedAt, q.surfacedAt = some surfacedAt
            ∧ surfacedAt ≤ d.moment - lookback) →
          ¬ DismissedBefore d.moment q)
        ∧ (q ∉ d.read →
          ¬ ShownBefore d.moment q ∧ ¬ DismissedBefore d.moment q)
  | _ => True

end Surfacing

end MemoryOS
