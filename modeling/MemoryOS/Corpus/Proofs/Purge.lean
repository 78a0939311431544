/-
What a purge leaves of the bytes, and what running it again does.

The rows of each item go at once, and the bytes of all of them at the end,
from a list the call keeps. A call that raises has lost that list: run
again, it finds the first item gone and raises before it shreds anything.
-/
import MemoryOS.Corpus.Proofs.Bytes

namespace MemoryOS.Deletion

/-- The items a purge gets to: one without a version, or that came before,
ends it. -/
def reached (rows : List Memory) : List Item → List Item
  | [] => []
  | i :: rest =>
    if rows.any fun m => decide (m.item = i) then
      i :: reached (rows.filter fun m => !decide (m.item = i)) rest
    else []

/-- Whether a message's turn goes with one of the items. -/
def turnOf (gone : List Item) (x : ChatMessage) : Bool :=
  gone.any fun i => decide (x.externalKey = some i.externalKey)

/-- Whether a row needs these bytes once the items are purged. -/
def survives (db : Db) (gone : List Item) (hash : ContentHash) : Bool :=
  db.memories.any (fun m =>
      decide (m.item ∉ gone) && decide (m.contentHash = hash))
    || db.chatAttachments.any fun a => decide (a.contentHash = hash)
      && !db.chatMessages.any fun x =>
        decide (x.id = a.messageId) && turnOf gone x

/-- Bytes that are needed are kept. -/
def Spared (s s' : Store) : Prop :=
  ∀ hash, s.blobs.holds hash = true → stillReferenced s'.db hash = true →
    s'.blobs.holds hash = true

/-- Bytes that lost their last reference are gone. -/
def Shredded (s s' : Store) : Prop :=
  ∀ hash, stillReferenced s.db hash = true →
    stillReferenced s'.db hash = false → s'.blobs.holds hash = false

/-- A purge that returned is complete; one that raised is complete once it
has been run again, with a blob store that deletes. Neither takes bytes
that are needed. -/
def CompleteAndRetryable (raises : ContentHash → Bool) (s : Store)
    (items : List (Item × Timestamp)) : Prop :=
  Spared s (purgeCall raises s items).1
    ∧ ((purgeCall raises s items).2 = .returned →
      Shredded s (purgeCall raises s items).1)
    ∧ ((purgeCall raises s items).2 ≠ .returned →
      ∀ again : List (Item × Timestamp),
        again.map (·.1) = items.map (·.1) →
        Spared (purgeCall raises s items).1
            (purgeCall (fun _ => false) (purgeCall raises s items).1 again).1
          ∧ Shredded s (purgeCall (fun _ => false)
            (purgeCall raises s items).1 again).1)

/-- Every digest there are bytes for and that loses its last reference is
a purged version's, of a call that no missing item ends and no failing
deletion concerns. -/
def NothingLeft (raises : ContentHash → Bool) (s : Store)
    (items : List Item) : Prop :=
  ∀ hash, s.blobs.holds hash = true → stillReferenced s.db hash = true →
    survives s.db (reached s.db.memories items) hash = false →
    reached s.db.memories items = items
      ∧ (∃ m ∈ s.db.memories, m.contentHash = hash) ∧ raises hash = false

variable {db : Db} {s : Store} {raises : ContentHash → Bool}
  {items : List (Item × Timestamp)} {hash : ContentHash}

-- ======== the rows

theorem unlink_fields (gone : List Id) (x : ChatMessage) :
    (unlink gone x).id = x.id ∧ (unlink gone x).externalKey = x.externalKey := by
  unfold unlink
  split
  case isTrue => exact ⟨rfl, rfl⟩
  case isFalse => exact ⟨rfl, rfl⟩

theorem purgeOne_inv {i : Item} {now : Timestamp}
    {r : Db × List ContentHash} (hp : purgeOne db i now = .ok r) :
    r.1.memories = db.memories.filter (fun m => !decide (m.item = i))
      ∧ (∃ gone, r.1.chatMessages
        = (db.chatMessages.filter fun x => !turnOf [i] x).map (unlink gone))
      ∧ r.1.chatAttachments = db.chatAttachments.filter (fun a =>
        !db.chatMessages.any fun x =>
          decide (x.id = a.messageId) && turnOf [i] x)
      ∧ r.2 = (versionsOf db i).map (·.contentHash) := by
  unfold purgeOne at hp
  simp only at hp
  split at hp
  case isTrue => cases hp
  case isFalse =>
    cases hp
    refine ⟨rfl, ⟨_, congrArg (List.map _) ?_⟩, ?_, rfl⟩
    · refine List.filter_congr fun x _ => ?_
      unfold turnOf
      simp
    · refine List.filter_congr fun a _ => ?_
      rw [decide_not]
      refine congrArg not ?_
      rw [Bool.eq_iff_iff, decide_eq_true_eq, List.any_eq_true, List.mem_map]
      refine exists_congr fun x => ?_
      unfold turnOf
      simp only [List.mem_filter, decide_eq_true_eq, Bool.and_eq_true,
        List.any_cons, List.any_nil, Bool.or_false]
      rw [and_assoc, and_comm (a := x.externalKey = _)]
      rfl

theorem turnOf_cons (i : Item) (gone : List Item) (x : ChatMessage) :
    turnOf (i :: gone) x = (turnOf [i] x || turnOf gone x) := by
  unfold turnOf
  simp

theorem reached_missing {i : Item} {now : Timestamp} {e : Failure}
    (hp : purgeOne db i now = .error e) (rest : List Item) :
    reached db.memories (i :: rest) = [] := by
  have hnone : (db.memories.any fun m => decide (m.item = i)) = false := by
    unfold purgeOne at hp
    simp only at hp
    split at hp
    case isTrue hempty =>
      rw [List.isEmpty_iff] at hempty
      rw [List.any_eq_false]
      exact List.filter_eq_nil_iff.mp hempty
    case isFalse => cases hp
  unfold reached
  rw [hnone]
  rfl

theorem reached_purged {i : Item} {now : Timestamp}
    {r : Db × List ContentHash} (hp : purgeOne db i now = .ok r)
    (rest : List Item) :
    reached db.memories (i :: rest) = i :: reached r.1.memories rest := by
  have hsome : (db.memories.any fun m => decide (m.item = i)) = true := by
    unfold purgeOne at hp
    simp only at hp
    split at hp
    case isTrue => cases hp
    case isFalse hempty =>
      rw [List.any_eq_true]
      rw [Bool.not_eq_true, List.isEmpty_eq_false_iff] at hempty
      obtain ⟨m, hm⟩ := List.exists_mem_of_ne_nil _ hempty
      exact ⟨m, List.mem_filter.mp hm⟩
  rw [reached, hsome, (purgeOne_inv hp).1]
  rfl

theorem purgeLoop_inv (db : Db) (items : List (Item × Timestamp)) :
    (purgeLoop db items).1.memories = db.memories.filter (fun m =>
        decide (m.item ∉ reached db.memories (items.map (·.1))))
      ∧ (purgeLoop db items).1.chatAttachments = db.chatAttachments.filter
        (fun a => !db.chatMessages.any fun x => decide (x.id = a.messageId)
          && turnOf (reached db.memories (items.map (·.1))) x)
      ∧ ((purgeLoop db items).2.2 = true
        ↔ reached db.memories (items.map (·.1)) = items.map (·.1))
      ∧ ((purgeLoop db items).2.2 = true → ∀ hash,
        (hash ∈ (purgeLoop db items).2.1 ↔ ∃ m ∈ db.memories,
          m.item ∈ items.map (·.1) ∧ m.contentHash = hash)) := by
  induction items generalizing db with
  | nil =>
    refine ⟨?_, ?_, iff_of_true rfl rfl, fun _ hash => ?_⟩
    · exact (List.filter_eq_self.mpr fun m _ => by simp [reached]).symm
    · refine (List.filter_eq_self.mpr fun a _ => ?_).symm
      simp [reached, turnOf]
    · simp [purgeLoop]
  | cons x rest ih =>
    obtain ⟨i, now⟩ := x
    unfold purgeLoop
    cases hp : purgeOne db i now with
    | error e =>
      have hreached := reached_missing hp (rest.map (·.1))
      simp only [List.map_cons, hreached]
      refine ⟨?_, ?_, iff_of_false nofun nofun, nofun⟩
      · exact (List.filter_eq_self.mpr fun m _ => by simp).symm
      · refine (List.filter_eq_self.mpr fun a _ => ?_).symm
        simp [turnOf]
    | ok r =>
      obtain ⟨db₁, hashes⟩ := r
      obtain ⟨hmem, ⟨turns, hmsg⟩, hatt, hhash⟩ := purgeOne_inv hp
      obtain ⟨ihmem, ihatt, ihok, ihhash⟩ := ih db₁
      dsimp only at hmem hmsg hatt hhash
      have hreached := reached_purged hp (rest.map (·.1))
      simp only [List.map_cons, hreached]
      refine ⟨?_, ?_, ?_, fun hok hash => ?_⟩
      · rw [ihmem]
        generalize reached db₁.memories (rest.map (·.1)) = gone
        rw [hmem, List.filter_filter]
        refine List.filter_congr fun m _ => ?_
        by_cases hm : m.item = i <;> simp [hm]
      · rw [ihatt]
        generalize reached db₁.memories (rest.map (·.1)) = gone
        rw [hatt, hmsg, List.filter_filter]
        refine List.filter_congr fun a _ => ?_
        -- a turn goes with the first of the items, or with a later one
        rw [← Bool.not_or, List.any_map, List.any_filter]
        have hunlink : ∀ x, turnOf gone (unlink turns x) = turnOf gone x :=
          fun x => by
            unfold turnOf
            rw [(unlink_fields turns x).2]
        simp only [Function.comp_apply, (unlink_fields turns _).1, hunlink]
        refine congrArg not ?_
        rw [Bool.eq_iff_iff, Bool.or_eq_true]
        simp only [List.any_eq_true, Bool.and_eq_true, turnOf_cons i gone,
          Bool.or_eq_true, Bool.not_eq_true']
        constructor
        · rintro (⟨x, hx, -, hid, hgone⟩ | ⟨x, hx, hid, hi⟩)
          · exact ⟨x, hx, hid, .inr hgone⟩
          · exact ⟨x, hx, hid, .inl hi⟩
        · rintro ⟨x, hx, hid, hor⟩
          cases hi : turnOf [i] x with
          | true => exact .inr ⟨x, hx, hid, hi⟩
          | false =>
            rw [hi] at hor
            exact .inl ⟨x, hx, hi, hid, hor.resolve_left nofun⟩
      · rw [ihok, List.cons.injEq, and_iff_right rfl]
      · rw [List.mem_append, ihhash hok, hhash, hmem]
        unfold versionsOf
        simp only [List.mem_map, List.mem_filter, decide_eq_true_eq,
          Bool.not_eq_true', decide_eq_false_iff_not, List.mem_cons]
        constructor
        · rintro (⟨m, ⟨hm, hmi⟩, rfl⟩ | ⟨m, ⟨hm, -⟩, hmi, rfl⟩)
          · exact ⟨m, hm, .inl hmi, rfl⟩
          · exact ⟨m, hm, .inr hmi, rfl⟩
        · rintro ⟨m, hm, hmi, rfl⟩
          by_cases hmi' : m.item = i
          · exact .inl ⟨m, ⟨hm, hmi'⟩, rfl⟩
          · exact .inr ⟨m, ⟨hm, hmi'⟩, hmi.resolve_left hmi', rfl⟩

theorem stillReferenced_purgeLoop :
    stillReferenced (purgeLoop db items).1 hash
      = survives db (reached db.memories (items.map (·.1))) hash := by
  obtain ⟨hmem, hatt, -, -⟩ := purgeLoop_inv db items
  unfold stillReferenced survives
  rw [hmem, hatt, List.any_filter, List.any_filter]
  refine congrArg _ ?_
  congr 1
  funext a
  exact Bool.and_comm _ _

-- ======= the bytes

theorem purgeCall_purge (s : Store) (items : List (Item × Timestamp)) :
    (purgeCall (fun _ => false) s items).1 = purge s items := by
  have hdelete : ∀ (hashes : List ContentHash) (blobs : Blobs),
      hashes.foldl Blobs.delete blobs
        = blobs.filter fun b => decide (b.1 ∉ hashes) := by
    intro hashes
    induction hashes with
    | nil => intro blobs; exact (List.filter_eq_self.mpr (by simp)).symm
    | cons h rest ih =>
      intro blobs
      rw [List.foldl_cons, ih, Blobs.delete, List.filter_filter]
      refine List.filter_congr fun b _ => ?_
      by_cases hb : b.1 = h <;> simp [hb]
  unfold purgeCall purge
  simp only
  split
  case isFalse => rfl
  case isTrue =>
    rw [hdelete, hdelete]
    refine congrArg (Store.mk (purgeLoop s.db items).1) ?_
    refine List.filter_congr fun b _ => ?_
    simp [List.mem_filter]

theorem purgeCall_holds :
    (purgeCall raises s items).1.blobs.holds hash = true ↔
      s.blobs.holds hash = true
        ∧ ¬ ((purgeLoop s.db items).2.2 = true
          ∧ hash ∈ (purgeLoop s.db items).2.1
          ∧ stillReferenced (purgeLoop s.db items).1 hash = false
          ∧ raises hash = false) := by
  unfold purgeCall
  simp only
  split
  case isTrue hok =>
    rw [Blobs.holds_foldl_delete]
    simp only [List.mem_filter, List.mem_eraseDups, Bool.not_eq_true', hok,
      true_and, and_assoc]
  case isFalse hok =>
    exact ⟨fun h => ⟨h, fun hno => hok hno.1⟩, fun h => h.1⟩

theorem purgeCall_db : (purgeCall raises s items).1.db
    = (purgeLoop s.db items).1 := by
  unfold purgeCall
  simp only
  split <;> rfl

theorem purgeCall_spared : Spared s (purgeCall raises s items).1 := by
  intro hash hholds href
  rw [purgeCall_db] at href
  refine purgeCall_holds.mpr ⟨hholds, fun ⟨_, _, hno, _⟩ => ?_⟩
  rw [href] at hno
  cases hno

theorem purgeCall_again {again : List (Item × Timestamp)}
    (hagain : again.map (·.1) = items.map (·.1))
    (hraised : (purgeCall raises s items).2 ≠ .returned)
    (raises' : ContentHash → Bool) :
    purgeCall raises' (purgeCall raises s items).1 again
      = ((purgeCall raises s items).1, .noSuchMemory) := by
  cases again with
  | nil =>
    -- an empty list is returned from
    cases items with
    | nil => exact absurd rfl hraised
    | cons x rest => cases hagain
  | cons y again =>
    obtain ⟨i, now⟩ := y
    cases items with
    | nil => cases hagain
    | cons x rest =>
      rw [List.map_cons, List.map_cons, List.cons.injEq] at hagain
      -- the first item has no version left
      have hnone : purgeOne (purgeCall raises s (x :: rest)).1.db i now
          = .error .notFound := by
        unfold purgeOne
        simp only
        rw [if_pos]
        unfold versionsOf
        rw [List.isEmpty_iff, purgeCall_db, (purgeLoop_inv s.db _).1,
          List.filter_filter, List.filter_eq_nil_iff]
        intro m hm
        rw [Bool.and_eq_true, decide_eq_true_eq, decide_eq_true_eq,
          not_and, not_not, List.map_cons, ← hagain.1]
        intro hmi
        unfold reached
        rw [if_pos (List.any_eq_true.mpr ⟨m, hm, decide_eq_true hmi⟩), hmi]
        exact List.mem_cons_self
      unfold purgeCall purgeLoop
      unfold purgeCall at hnone
      simp only at hnone ⊢
      rw [hnone]
      rfl

/-- A purge is complete, and can be run again, exactly when no bytes are
left that lost their last reference and that this call does not come to
delete. -/
theorem complete_and_retryable_iff (raises : ContentHash → Bool) (s : Store)
    (items : List (Item × Timestamp)) : CompleteAndRetryable raises s items
      ↔ NothingLeft raises s (items.map (·.1)) := by
  have hshred : CompleteAndRetryable raises s items
      ↔ Shredded s (purgeCall raises s items).1 := by
    unfold CompleteAndRetryable
    constructor
    · rintro ⟨-, hreturned, hraised⟩
      by_cases hr : (purgeCall raises s items).2 = .returned
      · exact hreturned hr
      · have hagain := (hraised hr items rfl).2
        rw [purgeCall_again rfl hr] at hagain
        exact hagain
    · intro h
      refine ⟨purgeCall_spared, fun _ => h, fun hr again hagain => ?_⟩
      rw [purgeCall_again hagain hr]
      exact ⟨fun _ hholds _ => hholds, h⟩
  obtain ⟨-, -, hok, hhashes⟩ := purgeLoop_inv s.db items
  rw [hshred]
  unfold Shredded NothingLeft
  constructor
  · intro h hash hholds href hlost
    rw [← stillReferenced_purgeLoop] at hlost
    have hgone := h hash href (by rw [purgeCall_db]; exact hlost)
    have hdue : ¬ ¬ ((purgeLoop s.db items).2.2 = true
        ∧ hash ∈ (purgeLoop s.db items).2.1
        ∧ stillReferenced (purgeLoop s.db items).1 hash = false
        ∧ raises hash = false) := fun hno => by
      rw [purgeCall_holds.mpr ⟨hholds, hno⟩] at hgone
      cases hgone
    obtain ⟨hended, hmem, -, hraises⟩ := not_not.mp hdue
    obtain ⟨m, hm, -, hmh⟩ := (hhashes hended hash).mp hmem
    exact ⟨hok.mp hended, ⟨m, hm, hmh⟩, hraises⟩
  · intro h hash href hlost
    rw [Bool.eq_false_iff]
    intro hleft
    obtain ⟨hholds, hno⟩ := purgeCall_holds.mp hleft
    rw [purgeCall_db] at hlost
    have hlost' := hlost
    rw [stillReferenced_purgeLoop] at hlost'
    obtain ⟨hended, ⟨m, hm, hmh⟩, hraises⟩ := h hash hholds href hlost'
    refine hno ⟨hok.mpr hended, ?_, hlost, hraises⟩
    refine (hhashes (hok.mpr hended) hash).mpr ⟨m, hm, ?_, hmh⟩
    -- the version is purged, or it would need the bytes
    rw [hended] at hlost'
    unfold survives at hlost'
    rw [Bool.or_eq_false_iff, List.any_eq_false] at hlost'
    by_contra hmi
    refine hlost'.1 m hm ?_
    rw [Bool.and_eq_true, decide_eq_true_eq, decide_eq_true_eq]
    exact ⟨hmi, hmh⟩

-- ------ a store that fails once

/-- A note. -/
def oneNote : List Live.Op := [.ingest 1 (Live.note "a.md" "h1" [104, 105]) 0]

/-- Its bytes cannot be deleted, the call says so, and running it again
does not try. -/
theorem not_complete_and_retryable :
    ¬ ∀ (raises : ContentHash → Bool) (ports : Ports) (sources : List Source)
        (ops : List Live.Op) (items : List (Item × Timestamp)),
      CompleteAndRetryable raises (Live.run ports sources ops) items := by
  intro hclaim
  obtain ⟨-, -, hagain⟩ := hclaim (fun _ => true) .plain [] oneNote
    [(⟨1, "a.md"⟩, 1)]
  have hlost := (hagain (by decide +kernel) [(⟨1, "a.md"⟩, 2)] rfl).2 "h1"
    (by decide +kernel) (by decide +kernel)
  exact absurd hlost (by decide +kernel)

end MemoryOS.Deletion
