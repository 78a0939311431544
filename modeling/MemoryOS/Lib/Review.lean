/-
A review queue: proposals wait for a person, who accepts or rejects each
one, and an accepted proposal leads to a record that is kept elsewhere.

Accepting takes three transactions: the row is checked, the record is made,
the row is marked. Other calls run between them and any of them may be the
last (`drop`). Proposals come from passes that read first which keys are
taken and insert afterwards.

The queue stores its rows, the calls under way and, as ghosts, what was
recorded on whose account and when (on a clock that counts transactions) a
pass began and a row was first reviewed. `Exact` says that every proposal is
acted on once and none is made again after its review; for each transaction
there is one lemma: `Exact` survives it exactly under a guard.

`κ` are the keys of proposals, `β` what a row says, `γ` what an accepting
call carries from its check to its recording.
-/
import Mathlib.Data.List.Nodup

namespace MemoryOS.Lib.Review

/-- The state of a proposal. -/
inductive Status
  | pending | accepted | rejected
deriving DecidableEq, Repr

/-- A proposal. -/
structure Row (κ β : Type) where
  id : Nat
  key : κ
  body : β
  status : Status
  /-- The record an accepted proposal names. -/
  named : Option Nat
  queuedAt : Int
  reviewedAt : Option Int
  /-- Ghost: when the pass that made the proposal began. -/
  begun : Nat
  /-- Ghost: when it was first reviewed. -/
  reviewedIn : Option Nat

/-- An accepting call under way. -/
inductive Call (γ : Type)
  /-- It has read the row and found it pending. -/
  | checked (id : Nat) (carried : γ)
  /-- It has made the record. -/
  | recorded (id record : Nat)

/-- Why a call was turned away at its check. -/
inductive Refused
  | unknown
  | alreadyReviewed (status : Status)
deriving DecidableEq, Repr

/-- The queue. -/
structure Queue (κ β γ : Type) where
  rows : List (Row κ β)
  calls : List (Call γ)
  nextId : Nat
  /-- Ghost: which record was made for which proposal. -/
  records : List (Nat × Nat)

variable {κ β γ : Type}

/-- The record that a call is still to name. -/
def Call.made : Call γ → Option (Nat × Nat)
  | .checked _ _ => none
  | .recorded id record => some (id, record)

/-- The proposal a call is about. -/
def Call.about : Call γ → Nat
  | .checked id _ => id
  | .recorded id _ => id

/-- The row, accepted. -/
def Row.accept (r : Row κ β) (record : Nat) (now : Int) (clock : Nat) :
    Row κ β :=
  { r with
    status := .accepted
    named := some record
    reviewedAt := some now
    reviewedIn := r.reviewedIn.or (some clock) }

/-- The row, rejected. -/
def Row.reject (r : Row κ β) (now : Int) (clock : Nat) : Row κ β :=
  { r with
    status := .rejected
    reviewedAt := some now
    reviewedIn := r.reviewedIn.or (some clock) }

namespace Queue

/-- Nothing was ever proposed. -/
def empty : Queue κ β γ where
  rows := []
  calls := []
  nextId := 0
  records := []

-- ====== transactions

/-- A row by its id. -/
def row (q : Queue κ β γ) (id : Nat) : Option (Row κ β) :=
  q.rows.find? fun r => decide (r.id = id)

/-- Insert a proposal, or do nothing if one with its key is pending. -/
def propose [DecidableEq κ] (q : Queue κ β γ) (key : κ) (body : β)
    (now : Int) (begun : Nat) : Queue κ β γ :=
  if q.rows.any fun r => decide (r.status = .pending) && decide (r.key = key)
  then q
  else
    { q with
      rows := q.rows ++
        [{ id := q.nextId
           key := key
           body := body
           status := .pending
           named := none
           queuedAt := now
           reviewedAt := none
           begun := begun
           reviewedIn := none }]
      nextId := q.nextId + 1 }

/-- Find the row, which has to be pending. -/
def check (q : Queue κ β γ) (id : Nat) : Except Refused (Row κ β) :=
  match q.row id with
  | none => .error .unknown
  | some r =>
    if r.status = .pending then .ok r
    else .error (.alreadyReviewed r.status)

/-- An accepting call has made its check. -/
def enter (q : Queue κ β γ) (id : Nat) (carried : γ) : Queue κ β γ :=
  { q with calls := q.calls ++ [.checked id carried] }

/-- The `i`-th call has made its record. -/
def noted (q : Queue κ β γ) (i id record : Nat) : Queue κ β γ :=
  { q with
    calls := q.calls.set i (.recorded id record)
    records := q.records ++ [(id, record)] }

/-- Change a row. -/
def mark (q : Queue κ β γ) (id : Nat) (set : Row κ β → Row κ β) :
    Queue κ β γ :=
  { q with rows := q.rows.map fun r => if r.id = id then set r else r }

/-- The `i`-th call is over. -/
def drop (q : Queue κ β γ) (i : Nat) : Queue κ β γ :=
  { q with calls := q.calls.eraseIdx i }

/-- The `i`-th call marks its row and is over. -/
def accept (q : Queue κ β γ) (i id record : Nat) (now : Int)
    (clock : Nat) : Queue κ β γ :=
  (q.mark id fun r => r.accept record now clock).drop i

/-- Reject a row, in one transaction. -/
def reject (q : Queue κ β γ) (id : Nat) (now : Int) (clock : Nat) :
    Except Refused (Queue κ β γ) :=
  (q.check id).map fun _ => q.mark id fun r => r.reject now clock

-- ====== vocabulary

/-- A call is about to name this record. -/
def Naming (q : Queue κ β γ) (id record : Nat) : Prop :=
  ∃ c ∈ q.calls, c.made = some (id, record)

/-- Every proposal is acted on once, and none is made again after its
review. -/
structure Exact (q : Queue κ β γ) : Prop where
  /-- At most one record for each proposal. -/
  once : (q.records.map Prod.fst).Nodup
  /-- No record behind a proposal that is pending or rejected, unless the
  call that made it is still to mark the row. -/
  unrecorded : ∀ r ∈ q.rows, r.status ≠ .accepted →
    ∀ record, (r.id, record) ∈ q.records → q.Naming r.id record
  /-- An accepted proposal names the record. -/
  named : ∀ r ∈ q.rows, r.status = .accepted →
    ∃ record, r.named = some record ∧ (r.id, record) ∈ q.records
  /-- A pass that began after a review does not propose the key again. -/
  asked : ∀ r ∈ q.rows, ∀ again ∈ q.rows, again.key = r.key →
    ∀ reviewed, r.reviewedIn = some reviewed → again.begun ≤ reviewed

/-- No proposal with this key was reviewed before a pass began. -/
def Unasked (q : Queue κ β γ) (begun : Nat) (key : κ) : Prop :=
  ∀ r ∈ q.rows, r.key = key → ∀ reviewed, r.reviewedIn = some reviewed →
    begun ≤ reviewed

/-- What holds of a queue in any case, at a clock. -/
structure Kept (q : Queue κ β γ) (clock : Nat) : Prop where
  ids : (q.rows.map (·.id)).Nodup
  below : ∀ r ∈ q.rows, r.id < q.nextId
  recordsBelow : ∀ p ∈ q.records, p.1 < q.nextId
  callsKnown : ∀ c ∈ q.calls, ∃ r ∈ q.rows, r.id = c.about
  /-- What a call is to name was recorded, by that call alone, and is named
  by no row. -/
  making : ∀ p, p ∈ q.calls.filterMap Call.made → p ∈ q.records
  makingOnce : (q.calls.filterMap Call.made).Nodup
  unnamed : ∀ p ∈ q.calls.filterMap Call.made, ∀ r ∈ q.rows, r.id = p.1 →
    r.status ≠ .accepted
  begunBy : ∀ r ∈ q.rows, r.begun ≤ clock

variable {q : Queue κ β γ} {clock id i record begun : Nat}
  {set : Row κ β → Row κ β} {r : Row κ β} {key : κ}

theorem exact_empty : (empty : Queue κ β γ).Exact where
  once := List.nodup_nil
  unrecorded := fun _ h => absurd h List.not_mem_nil
  named := fun _ h => absurd h List.not_mem_nil
  asked := fun _ h => absurd h List.not_mem_nil

theorem kept_empty (clock : Nat) : (empty : Queue κ β γ).Kept clock where
  ids := List.nodup_nil
  below := fun _ h => absurd h List.not_mem_nil
  recordsBelow := fun _ h => absurd h List.not_mem_nil
  callsKnown := fun _ h => absurd h List.not_mem_nil
  making := fun _ h => absurd h List.not_mem_nil
  makingOnce := List.nodup_nil
  unnamed := fun _ h => absurd h List.not_mem_nil
  begunBy := fun _ h => absurd h List.not_mem_nil

-- ======== the rows

theorem mem_mark :
    r ∈ (q.mark id set).rows
      ↔ ∃ r₀ ∈ q.rows, r = if r₀.id = id then set r₀ else r₀ := by
  simp only [mark, List.mem_map]
  exact ⟨fun ⟨r₀, h, he⟩ => ⟨r₀, h, he.symm⟩,
    fun ⟨r₀, h, he⟩ => ⟨r₀, h, he.symm⟩⟩

theorem mark_ids (hset : ∀ r, (set r).id = r.id) :
    (q.mark id set).rows.map (·.id) = q.rows.map (·.id) := by
  simp only [mark, List.map_map]
  refine List.map_congr_left fun r _ => ?_
  simp only [Function.comp]
  split
  case isTrue => exact hset r
  case isFalse => rfl

theorem check_ok (h : q.check id = .ok r) :
    r ∈ q.rows ∧ r.id = id ∧ r.status = .pending := by
  unfold check at h
  split at h
  case h_1 => cases h
  case h_2 r' hr' =>
    split at h
    case isTrue hpending =>
      cases h
      exact ⟨List.mem_of_find?_eq_some hr',
        by simpa using List.find?_some hr', hpending⟩
    case isFalse => cases h

theorem split_at {α : Type} {l : List α} {a : α}
    (h : l[i]? = some a) :
    ∃ as bs, l = as ++ a :: bs ∧ (∀ x, l.set i x = as ++ x :: bs)
      ∧ l.eraseIdx i = as ++ bs := by
  induction l generalizing i with
  | nil => cases h
  | cons b rest ih =>
    cases i with
    | zero =>
      cases h
      exact ⟨[], rest, rfl, fun _ => rfl, rfl⟩
    | succ i =>
      obtain ⟨as, bs, hl, hset, herase⟩ := ih h
      exact ⟨b :: as, bs, congrArg (b :: ·) hl,
        fun x => congrArg (b :: ·) (hset x), congrArg (b :: ·) herase⟩

theorem Exact.unique (h : q.Exact) {record' : Nat}
    (hmem : (id, record) ∈ q.records) (hmem' : (id, record') ∈ q.records) :
    record = record' :=
  congrArg Prod.snd (List.inj_on_of_nodup_map h.once hmem hmem' rfl)

-- ====== what is kept

theorem Kept.later (h : q.Kept clock) :
    q.Kept (clock + 1) :=
  { h with begunBy := fun r hr => Nat.le_succ_of_le (h.begunBy r hr) }

theorem Kept.propose [DecidableEq κ]
    (h : q.Kept clock) (hbegun : begun ≤ clock) (key : κ)
    (body : β) (now : Int) : (q.propose key body now begun).Kept clock := by
  unfold Queue.propose
  split
  case isTrue => exact h
  case isFalse =>
    refine
      { ids := ?_, below := ?_, recordsBelow := ?_, callsKnown := ?_,
        making := h.making, makingOnce := h.makingOnce, unnamed := ?_,
        begunBy := ?_ }
    · rw [List.map_append, List.nodup_append]
      refine ⟨h.ids, List.nodup_singleton _, fun x hx y hy => ?_⟩
      obtain ⟨r, hr, rfl⟩ := List.mem_map.1 hx
      have hy : y = q.nextId := List.mem_singleton.1 hy
      rw [hy]
      exact Nat.ne_of_lt (h.below r hr)
    · intro r hr
      rcases List.mem_append.1 hr with hr | hr
      · exact Nat.lt_succ_of_lt (h.below r hr)
      · rw [List.mem_singleton.1 hr]
        exact Nat.lt_succ_self _
    · exact fun p hp => Nat.lt_succ_of_lt (h.recordsBelow p hp)
    · intro c hc
      obtain ⟨r, hr, hid⟩ := h.callsKnown c hc
      exact ⟨r, List.mem_append_left _ hr, hid⟩
    · intro p hp r hr hid
      rcases List.mem_append.1 hr with hr | hr
      · exact h.unnamed p hp r hr hid
      · rw [List.mem_singleton.1 hr] at hid
        exact absurd (h.recordsBelow p (h.making p hp))
          (hid ▸ Nat.lt_irrefl _)
    · intro r hr
      rcases List.mem_append.1 hr with hr | hr
      · exact h.begunBy r hr
      · rw [List.mem_singleton.1 hr]
        exact hbegun

theorem Kept.enter (h : q.Kept clock) (hr : r ∈ q.rows) (carried : γ) :
    (q.enter r.id carried).Kept clock := by
  have hmaking : (q.enter r.id carried).calls.filterMap Call.made
      = q.calls.filterMap Call.made := by
    simp [Queue.enter, List.filterMap_append, Call.made]
  refine { h with callsKnown := ?_, making := ?_, makingOnce := ?_,
                  unnamed := ?_ }
  · intro c hc
    rcases List.mem_append.1 hc with hc | hc
    · exact h.callsKnown c hc
    · rw [List.mem_singleton.1 hc]
      exact ⟨r, hr, rfl⟩
  · rw [hmaking]
    exact h.making
  · rw [hmaking]
    exact h.makingOnce
  · rw [hmaking]
    exact h.unnamed

theorem Kept.noted (h : q.Kept clock) {carried : γ}
    (hcall : q.calls[i]? = some (.checked id carried))
    (hex : q.Exact) (hfresh : id ∉ q.records.map Prod.fst) :
    (q.noted i id record).Kept clock := by
  obtain ⟨as, bs, hcalls, hset, -⟩ := split_at hcall
  have hold : q.calls.filterMap Call.made
      = as.filterMap Call.made ++ bs.filterMap Call.made := by
    rw [hcalls, List.filterMap_append, List.filterMap_cons_none rfl]
  have hnew : (q.noted i id record).calls.filterMap Call.made
      = as.filterMap Call.made ++ (id, record) :: bs.filterMap Call.made := by
    show (q.calls.set i _).filterMap Call.made = _
    rw [hset, List.filterMap_append]
    rfl
  have hmem : ∀ p, p ∈ (q.noted i id record).calls.filterMap Call.made →
      p = (id, record) ∨ p ∈ q.calls.filterMap Call.made := by
    intro p hp
    rw [hnew] at hp
    rw [hold]
    rcases List.mem_append.1 hp with hp | hp
    · exact .inr (List.mem_append_left _ hp)
    · rcases List.mem_cons.1 hp with hp | hp
      · exact .inl hp
      · exact .inr (List.mem_append_right _ hp)
  obtain ⟨r₀, hr₀, hid₀⟩ := h.callsKnown (.checked id carried)
    (List.mem_of_getElem? hcall)
  refine { h with recordsBelow := ?_, callsKnown := ?_, making := ?_,
                  makingOnce := ?_, unnamed := ?_ }
  · intro p hp
    rcases List.mem_append.1 hp with hp | hp
    · exact h.recordsBelow p hp
    · rw [List.mem_singleton.1 hp]
      have hlt := h.below r₀ hr₀
      rw [hid₀] at hlt
      exact hlt
  · intro c hc
    have hc : c ∈ q.calls.set i (.recorded id record) := hc
    rcases List.mem_or_eq_of_mem_set hc with hc | rfl
    · exact h.callsKnown c hc
    · exact ⟨r₀, hr₀, hid₀⟩
  · intro p hp
    rcases hmem p hp with rfl | hp
    · exact List.mem_append_right _ (List.mem_singleton_self _)
    · exact List.mem_append_left _ (h.making p hp)
  · rw [hnew]
    refine (List.nodup_middle).2 (List.nodup_cons.2 ⟨fun hp => ?_, ?_⟩)
    · rw [← hold] at hp
      exact hfresh (List.mem_map.2 ⟨_, h.making _ hp, rfl⟩)
    · rw [← hold]
      exact h.makingOnce
  · intro p hp r hr hid
    rcases hmem p hp with rfl | hp
    · intro haccepted
      obtain ⟨record', -, hrecord'⟩ := hex.named r hr haccepted
      exact hfresh (List.mem_map.2 ⟨_, hrecord', hid⟩)
    · exact h.unnamed p hp r hr hid

theorem Kept.drop (h : q.Kept clock)
    (i : Nat) : (q.drop i).Kept clock := by
  have hsub : (q.drop i).calls.Sublist q.calls := List.eraseIdx_sublist _ _
  exact
    { h with
      callsKnown := fun c hc => h.callsKnown c (hsub.subset hc)
      making := fun p hp =>
        h.making p ((hsub.filterMap Call.made).subset hp)
      makingOnce := h.makingOnce.sublist (hsub.filterMap Call.made)
      unnamed := fun p hp =>
        h.unnamed p ((hsub.filterMap Call.made).subset hp) }

theorem Kept.mark (h : q.Kept clock) (hid : ∀ r, (set r).id = r.id)
    (hbegun : ∀ r, (set r).begun = r.begun)
    (hopen : ∀ p ∈ q.calls.filterMap Call.made, p.1 = id →
      ∀ r, (set r).status ≠ .accepted) :
    (q.mark id set).Kept clock := by
  have hrow : ∀ r ∈ (q.mark id set).rows, ∃ r₀ ∈ q.rows, r.id = r₀.id
      ∧ r.begun = r₀.begun ∧ (r = r₀ ∨ r = set r₀ ∧ r₀.id = id) := by
    intro r hr
    obtain ⟨r₀, hr₀, rfl⟩ := mem_mark.1 hr
    refine ⟨r₀, hr₀, ?_⟩
    split
    case isTrue heq => exact ⟨hid r₀, hbegun r₀, .inr ⟨rfl, heq⟩⟩
    case isFalse => exact ⟨rfl, rfl, .inl rfl⟩
  refine { h with ids := ?_, below := ?_, callsKnown := ?_, unnamed := ?_,
                  begunBy := ?_ }
  · rw [mark_ids hid]
    exact h.ids
  · intro r hr
    obtain ⟨r₀, hr₀, heq, -⟩ := hrow r hr
    exact heq ▸ h.below r₀ hr₀
  · intro c hc
    obtain ⟨r, hr, habout⟩ := h.callsKnown c hc
    refine ⟨_, mem_mark.2 ⟨r, hr, rfl⟩, ?_⟩
    split
    case isTrue => exact (hid r).trans habout
    case isFalse => exact habout
  · intro p hp r hr heq
    obtain ⟨r₀, hr₀, hid₀, -, rfl | ⟨rfl, hid'⟩⟩ := hrow r hr
    · exact h.unnamed p hp r hr₀ heq
    · exact hopen p hp (heq.symm.trans (hid₀.trans hid')) r₀
  · intro r hr
    obtain ⟨r₀, hr₀, -, hb, -⟩ := hrow r hr
    exact hb ▸ h.begunBy r₀ hr₀

-- ====== what is exact

theorem propose_exact_iff [DecidableEq κ]
    (hk : q.Kept clock) (h : q.Exact) (key : κ) (body : β) (now : Int)
    (begun : Nat) :
    (q.propose key body now begun).Exact
      ↔ (∃ r ∈ q.rows, r.status = .pending ∧ r.key = key)
        ∨ q.Unasked begun key := by
  unfold propose
  split
  case isTrue htaken =>
    obtain ⟨r, hr, htaken⟩ := List.any_eq_true.1 htaken
    rw [Bool.and_eq_true, decide_eq_true_eq, decide_eq_true_eq] at htaken
    exact iff_of_true h (.inl ⟨r, hr, htaken⟩)
  case isFalse hfree =>
    constructor
    · intro h'
      refine .inr fun r hr hkey reviewed hreviewed => ?_
      exact h'.asked r (List.mem_append_left _ hr) _
        (List.mem_append_right _ (List.mem_singleton_self _)) hkey.symm
        reviewed hreviewed
    · intro hguard
      have hasked : q.Unasked begun key := by
        rcases hguard with ⟨r, hr, hpending, hkey⟩ | hasked
        · refine absurd (List.any_eq_true.2 ⟨r, hr, ?_⟩) hfree
          rw [Bool.and_eq_true, decide_eq_true_eq, decide_eq_true_eq]
          exact ⟨hpending, hkey⟩
        · exact hasked
      refine ⟨h.once, ?_, ?_, ?_⟩
      · intro r hr hstatus record hrecord
        rcases List.mem_append.1 hr with hr | hr
        · exact h.unrecorded r hr hstatus record hrecord
        · rw [List.mem_singleton.1 hr] at hrecord
          exact absurd (hk.recordsBelow _ hrecord) (Nat.lt_irrefl _)
      · intro r hr haccepted
        rcases List.mem_append.1 hr with hr | hr
        · exact h.named r hr haccepted
        · rw [List.mem_singleton.1 hr] at haccepted
          cases haccepted
      · intro r hr again hagain hkey reviewed hreviewed
        rcases List.mem_append.1 hr with hr | hr
        · rcases List.mem_append.1 hagain with hagain | hagain
          · exact h.asked r hr again hagain hkey reviewed hreviewed
          · rw [List.mem_singleton.1 hagain] at hkey ⊢
            exact hasked r hr hkey.symm reviewed hreviewed
        · rw [List.mem_singleton.1 hr] at hreviewed
          cases hreviewed

theorem Exact.enter (h : q.Exact) (id : Nat)
    (carried : γ) : (q.enter id carried).Exact where
  once := h.once
  unrecorded := by
    intro r hr hstatus record hrecord
    obtain ⟨c, hc, hmade⟩ := h.unrecorded r hr hstatus record hrecord
    exact ⟨c, List.mem_append_left _ hc, hmade⟩
  named := h.named
  asked := h.asked

theorem noted_exact_iff (h : q.Exact)
    {carried : γ} (hcall : q.calls[i]? = some (.checked id carried)) :
    (q.noted i id record).Exact ↔ id ∉ q.records.map Prod.fst := by
  obtain ⟨as, bs, hcalls, hset, -⟩ := split_at hcall
  constructor
  · intro h' hmem
    have honce := h'.once
    rw [Queue.noted, List.map_append, List.nodup_append] at honce
    exact honce.2.2 id hmem id (List.mem_singleton_self id) rfl
  · intro hfresh
    refine ⟨?_, ?_, ?_, h.asked⟩
    · rw [Queue.noted, List.map_append, List.nodup_append]
      refine ⟨h.once, List.nodup_singleton _, fun x hx y hy => ?_⟩
      have hy : y = id := List.mem_singleton.1 hy
      exact fun heq => hfresh (hy ▸ heq ▸ hx)
    · intro r hr hstatus record' hrecord
      have hnaming : ∀ c, c ∈ as ++ Call.recorded id record :: bs →
          c ∈ (q.noted i id record).calls := by
        intro c hc
        show c ∈ q.calls.set i _
        rwa [hset]
      rcases List.mem_append.1 hrecord with hrecord | hrecord
      · obtain ⟨c, hc, hmade⟩ := h.unrecorded r hr hstatus record' hrecord
        refine ⟨c, hnaming c ?_, hmade⟩
        rw [hcalls] at hc
        rcases List.mem_append.1 hc with hc | hc
        · exact List.mem_append_left _ hc
        · rcases List.mem_cons.1 hc with rfl | hc
          · cases hmade
          · exact List.mem_append_right _ (List.mem_cons_of_mem _ hc)
      · refine ⟨.recorded id record, hnaming _ ?_, ?_⟩
        · exact List.mem_append_right _ List.mem_cons_self
        · rw [List.mem_singleton.1 hrecord]
          rfl
    · intro r hr haccepted
      obtain ⟨record', hnamed, hrecord⟩ := h.named r hr haccepted
      exact ⟨record', hnamed, List.mem_append_left _ hrecord⟩

theorem drop_exact_iff (hk : q.Kept clock)
    (h : q.Exact) {c : Call γ} (hcall : q.calls[i]? = some c) :
    (q.drop i).Exact ↔ c.made = none := by
  obtain ⟨as, bs, hcalls, -, herase⟩ := split_at hcall
  constructor
  · intro h'
    cases hmade : c.made with
    | none => rfl
    | some p =>
      have hp : p ∈ q.calls.filterMap Call.made :=
        List.mem_filterMap.2 ⟨c, List.mem_of_getElem? hcall, hmade⟩
      obtain ⟨r, hr, hid⟩ := hk.callsKnown c (List.mem_of_getElem? hcall)
      have hp₁ : p.1 = c.about := by
        cases c with
        | checked => cases hmade
        | recorded =>
          cases hmade
          rfl
      have hrp : r.id = p.1 := hid.trans hp₁.symm
      obtain ⟨c', hc', hmade'⟩ := h'.unrecorded r hr
        (hk.unnamed p hp r hr hrp) p.2 (hrp ▸ hk.making p hp)
      -- Another call is to name the record, and there is none.
      have honce := hk.makingOnce
      rw [hcalls, List.filterMap_append, List.filterMap_cons_some hmade]
        at honce
      have hagain : p ∈ (as ++ bs).filterMap Call.made := by
        refine List.mem_filterMap.2 ⟨c', ?_, by rw [hmade', hrp]⟩
        rw [← herase]
        exact hc'
      rw [List.filterMap_append] at hagain
      exact absurd hagain (List.nodup_cons.1 (List.nodup_middle.1 honce)).1
  · intro hmade
    refine ⟨h.once, ?_, h.named, h.asked⟩
    intro r hr hstatus record hrecord
    obtain ⟨c', hc', hmade'⟩ := h.unrecorded r hr hstatus record hrecord
    refine ⟨c', ?_, hmade'⟩
    show c' ∈ q.calls.eraseIdx i
    rw [herase]
    rw [hcalls] at hc'
    rcases List.mem_append.1 hc' with hc' | hc'
    · exact List.mem_append_left _ hc'
    · rcases List.mem_cons.1 hc' with rfl | hc'
      · rw [hmade] at hmade'
        cases hmade'
      · exact List.mem_append_right _ hc'

theorem asked_mark (hk : q.Kept clock)
    (h : q.Exact)
    (hkey : ∀ r, (set r).key = r.key) (hbegun : ∀ r, (set r).begun = r.begun)
    (hreviewed : ∀ r, (set r).reviewedIn = r.reviewedIn.or (some clock)) :
    ∀ r ∈ (q.mark id set).rows, ∀ again ∈ (q.mark id set).rows,
      again.key = r.key → ∀ reviewed, r.reviewedIn = some reviewed →
        again.begun ≤ reviewed := by
  intro r hr again hagain heq reviewed hdated
  obtain ⟨r₀, hr₀, hk₀, hd₀⟩ : ∃ r₀ ∈ q.rows, r.key = r₀.key
      ∧ (r₀.reviewedIn = some reviewed ∨ reviewed = clock) := by
    obtain ⟨r₀, hr₀, rfl⟩ := mem_mark.1 hr
    refine ⟨r₀, hr₀, ?_⟩
    split at hdated
    case isTrue hid =>
      rw [if_pos hid]
      refine ⟨hkey r₀, ?_⟩
      rw [hreviewed] at hdated
      cases hold : r₀.reviewedIn with
      | none =>
        rw [hold] at hdated
        exact .inr (Option.some.inj hdated).symm
      | some m =>
        rw [hold] at hdated
        exact .inl hdated
    case isFalse hid =>
      rw [if_neg hid]
      exact ⟨rfl, .inl hdated⟩
  obtain ⟨again₀, ha₀, hka₀, hb₀⟩ : ∃ again₀ ∈ q.rows,
      again.key = again₀.key ∧ again.begun = again₀.begun := by
    obtain ⟨again₀, ha₀, rfl⟩ := mem_mark.1 hagain
    refine ⟨again₀, ha₀, ?_⟩
    split
    case isTrue => exact ⟨hkey again₀, hbegun again₀⟩
    case isFalse => exact ⟨rfl, rfl⟩
  rw [hb₀]
  rcases hd₀ with hd₀ | rfl
  · exact h.asked r₀ hr₀ again₀ ha₀ (hka₀.symm.trans (heq.trans hk₀))
      reviewed hd₀
  · exact hk.begunBy again₀ ha₀

theorem Exact.accept (hk : q.Kept clock)
    (h : q.Exact)
    (hcall : q.calls[i]? = some (.recorded id record)) (now : Int) :
    (q.accept i id record now clock).Exact
      ∧ (q.accept i id record now clock).Kept clock := by
  obtain ⟨as, bs, hcalls, -, herase⟩ := split_at hcall
  have hmade : (id, record) ∈ q.calls.filterMap Call.made :=
    List.mem_filterMap.2 ⟨_, List.mem_of_getElem? hcall, rfl⟩
  have hrows : (q.accept i id record now clock).rows
      = (q.mark id fun r => r.accept record now clock).rows := rfl
  have hcalls' : (q.accept i id record now clock).calls = as ++ bs := herase
  refine ⟨⟨h.once, ?_, ?_, ?_⟩, ?_⟩
  · intro r hr hstatus record' hrecord
    obtain ⟨r₀, hr₀, rfl⟩ := mem_mark.1 (hrows ▸ hr)
    split at hstatus
    case isTrue => exact absurd rfl hstatus
    case isFalse hne =>
      rw [if_neg hne] at hrecord ⊢
      obtain ⟨c, hc, hmade'⟩ := h.unrecorded r₀ hr₀ hstatus record' hrecord
      refine ⟨c, ?_, hmade'⟩
      rw [hcalls']
      rw [hcalls] at hc
      rcases List.mem_append.1 hc with hc | hc
      · exact List.mem_append_left _ hc
      · rcases List.mem_cons.1 hc with rfl | hc
        · cases hmade'
          exact absurd rfl hne
        · exact List.mem_append_right _ hc
  · intro r hr haccepted
    obtain ⟨r₀, hr₀, rfl⟩ := mem_mark.1 (hrows ▸ hr)
    split at haccepted
    case isTrue heq =>
      rw [if_pos heq]
      refine ⟨record, rfl, ?_⟩
      show (r₀.id, record) ∈ q.records
      rw [heq]
      exact hk.making _ hmade
    case isFalse hne =>
      rw [if_neg hne]
      exact h.named r₀ hr₀ haccepted
  · exact asked_mark hk h (fun _ => rfl) (fun _ => rfl) (fun _ => rfl)
  · show ((q.drop i).mark id fun r => r.accept record now clock).Kept clock
    refine (hk.drop i).mark (fun _ => rfl) (fun _ => rfl) ?_
    -- No other call is to name the same record.
    intro p hp hid
    have hp : p ∈ (as ++ bs).filterMap Call.made := herase ▸ hp
    have honce := hk.makingOnce
    have hnames : (Call.recorded id record : Call γ).made = some (id, record) :=
      rfl
    rw [hcalls, List.filterMap_append, List.filterMap_cons_some hnames]
      at honce
    have hsub : p ∈ q.calls.filterMap Call.made := by
      rw [hcalls, List.filterMap_append]
      rw [List.filterMap_append] at hp
      rcases List.mem_append.1 hp with hp | hp
      · exact List.mem_append_left _ hp
      · exact List.mem_append_right _ (List.mem_cons_of_mem _ hp)
    have hrecord := hk.making p hsub
    have hsame : p = (id, record) :=
      Prod.ext hid (h.unique (hid ▸ hrecord) (hk.making _ hmade))
    rw [List.filterMap_append, hsame] at hp
    exact absurd hp (List.nodup_cons.1 (List.nodup_middle.1 honce)).1

theorem Exact.reject {q' : Queue κ β γ} (hk : q.Kept clock)
    (h : q.Exact) {now : Int}
    (hq : q.reject id now clock = .ok q') : q'.Exact ∧ q'.Kept clock := by
  unfold Queue.reject at hq
  cases hcheck : q.check id with
  | error e =>
    rw [hcheck] at hq
    cases hq
  | ok checked =>
    rw [hcheck] at hq
    cases hq
    obtain ⟨hchecked, hid, hpending⟩ := check_ok hcheck
    refine ⟨⟨h.once, ?_, ?_, ?_⟩, ?_⟩
    · intro r hr hstatus record hrecord
      obtain ⟨r₀, hr₀, rfl⟩ := mem_mark.1 hr
      have hold : r₀.status ≠ .accepted := by
        split at hstatus
        case isTrue heq =>
          obtain rfl := List.inj_on_of_nodup_map hk.ids hr₀ hchecked
            (heq.trans hid.symm)
          rw [hpending]
          exact fun h => (by cases h)
        case isFalse => exact hstatus
      have hsame : (if r₀.id = id then r₀.reject now clock else r₀).id
          = r₀.id := by
        split
        case isTrue => rfl
        case isFalse => rfl
      rw [hsame] at hrecord ⊢
      exact h.unrecorded r₀ hr₀ hold record hrecord
    · intro r hr haccepted
      obtain ⟨r₀, hr₀, rfl⟩ := mem_mark.1 hr
      split at haccepted
      case isTrue => cases haccepted
      case isFalse hne =>
        rw [if_neg hne]
        exact h.named r₀ hr₀ haccepted
    · exact asked_mark hk h (fun _ => rfl) (fun _ => rfl) (fun _ => rfl)
    · exact hk.mark (fun _ => rfl) (fun _ => rfl)
        (fun _ _ _ _ h => (by cases h))

-- ====== what is unasked

theorem Unasked.propose [DecidableEq κ] (h : q.Unasked begun key) (key' : κ) (body : β) (now : Int)
    (begun' : Nat) : (q.propose key' body now begun').Unasked begun key := by
  unfold Queue.propose
  split
  case isTrue => exact h
  case isFalse =>
    intro r hr hkey reviewed hreviewed
    rcases List.mem_append.1 hr with hr | hr
    · exact h r hr hkey reviewed hreviewed
    · rw [List.mem_singleton.1 hr] at hreviewed
      cases hreviewed

theorem Unasked.mark
    (h : q.Unasked begun key) (hbegun : begun ≤ clock) (hkey : ∀ r, (set r).key = r.key)
    (hreviewed : ∀ r, (set r).reviewedIn = r.reviewedIn.or (some clock)) :
    (q.mark id set).Unasked begun key := by
  intro r hr heq reviewed hdated
  obtain ⟨r₀, hr₀, rfl⟩ := mem_mark.1 hr
  split at hdated
  case isTrue hid =>
    rw [if_pos hid, hkey] at heq
    rw [hreviewed] at hdated
    cases hold : r₀.reviewedIn with
    | none =>
      rw [hold] at hdated
      exact Option.some.inj hdated ▸ hbegun
    | some m =>
      rw [hold] at hdated
      exact h r₀ hr₀ heq reviewed (hold.trans hdated)
  case isFalse hid =>
    rw [if_neg hid] at heq
    exact h r₀ hr₀ heq reviewed hdated

theorem Unasked.reject {q' : Queue κ β γ}
    (h : q.Unasked begun key) (hbegun : begun ≤ clock)
    {now : Int} (hq : q.reject id now clock = .ok q') :
    q'.Unasked begun key := by
  unfold Queue.reject at hq
  cases hcheck : q.check id with
  | error e =>
    rw [hcheck] at hq
    cases hq
  | ok checked =>
    rw [hcheck] at hq
    cases hq
    exact h.mark hbegun (fun _ => rfl) (fun _ => rfl)

end Queue

end MemoryOS.Lib.Review
