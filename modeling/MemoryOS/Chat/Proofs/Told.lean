/-
Two runs of the chat that differ in the text of one message.

Every transaction fails alike or leaves two databases that differ in the
item's text alone (`step_same`), so a run does (`run_same`).

# What escapes

- The title of a session is cut from its first turn, and a purge does not
  reach it.
- A correction to what is already stored is refused, which the session's
  count, its activity and the later ordinals tell.
- An upload is marked as there already when its bytes are the message's.
-/
import MemoryOS.Chat.Proofs.Steps

namespace MemoryOS.Chat

open Lib Uploads

-- ====== statement vocabulary

/-- The text of an operation, as it is stored. -/
def wording : Op → Text
  | .send text .. => strip text
  | .attach _ note .. => strip (note.getD [])
  | .correct _ text .. => strip text
  | .recordAnswer _ answer _ => answer.content

/-- The files of an operation. -/
def files : Op → List Upload
  | .attach uploads .. => uploads
  | _ => []

/-- The database an operation's turn is written to, and what it stores of
what was typed. -/
def written (ports : ChatPorts) (s : Store) :
    Op → Db × Option (Id × ObservedItem)
  | .send text _ _ _ _ now _ =>
    storedAs ports s.db (strip text)
      (MessageIntent.classify ports.unicode (strip text)) now
  | .attach _ note _ _ _ now _ =>
    let message := strip (note.getD [])
    if message.isEmpty then ((uploadSource s.db).1, none)
    else
      storedAs ports (uploadSource s.db).1 message
        (MessageIntent.classify ports.unicode message) now
  | .correct messageId text now _ =>
    ((chatSource s.db).1,
      (messageOf s.db messageId).bind fun original =>
        original.externalKey.map fun key =>
          ((chatSource s.db).2, messageItem ports key (strip text) now))
  | .recordAnswer .. => (s.db, none)

/-- The item an operation's text is stored under. -/
def target (ports : ChatPorts) (s : Store) (op : Op) : Option Item :=
  (written ports s op).2.map fun w => ⟨w.1, w.2.externalKey⟩

/-- Whether the operation writes a turn of the item. -/
def touches (ports : ChatPorts) (i : Item) (s : Store) (op : Op) : Bool :=
  (target ports s op).any fun j => decide (j.externalKey = i.externalKey)

/-- Whether a turn would be the first of its session. -/
def first (db : Db) (now : Timestamp) (sessionId : Option Id)
    (newSession : Bool) : Bool :=
  match resolveSession db now sessionId newSession with
  | .error _ => false
  | .ok (db₁, record) => nextOrdinal db₁ record.id == 0

/-- Whether an operation's turn has a title cut from it. -/
def titles (ports : ChatPorts) (s : Store) (op : Op) : Bool :=
  match op with
  | .send _ sessionId newSession _ _ now _ =>
    first (written ports s op).1 now sessionId newSession
  | .attach _ _ sessionId newSession _ now _ =>
    first (written ports s op).1 now sessionId newSession
  | _ => false

/-- Whether what an operation stores is the item's current version. -/
def unchangedBy (db : Db) (stored : Option (Id × ObservedItem)) : Bool :=
  stored.any fun w => unchanged db w.1 w.2

/-- Whether an operation corrects a message to what it says. -/
def repeats (s : Store) : Op → Bool
  | .correct messageId text _ _ =>
    (messageOf s.db messageId).any fun original =>
      decide (strip original.content = strip text)
  | _ => false

/-- Whether an operation's text is turned down for what is there. -/
def refuses (ports : ChatPorts) (s : Store) (op : Op) : Bool :=
  repeats s op || unchangedBy s.db (written ports s op).2

/-- One operation with two texts, read alike. -/
inductive Retold (unicode : Unicode) : Op → Op → Prop
  | send {text text' : Text} {sessionId : Option Id}
      {newSession deferAnswer : Bool} {answer : Option Answer}
      {now clock : Timestamp}
      (left : strip text ≠ []) (right : strip text' ≠ [])
      (intent : MessageIntent.classify unicode (strip text)
        = MessageIntent.classify unicode (strip text')) :
      Retold unicode
        (.send text sessionId newSession deferAnswer answer now clock)
        (.send text' sessionId newSession deferAnswer answer now clock)
  | attach {note note' : Text} {uploads : List Upload}
      {sessionId : Option Id} {newSession : Bool} {answer : Option Answer}
      {now clock : Timestamp}
      (left : strip note ≠ []) (right : strip note' ≠ [])
      (intent : MessageIntent.classify unicode (strip note)
        = MessageIntent.classify unicode (strip note')) :
      Retold unicode
        (.attach uploads (some note) sessionId newSession answer now clock)
        (.attach uploads (some note') sessionId newSession answer now clock)
  | correct {text text' : Text} {messageId : Id} {now clock : Timestamp}
      (left : strip text ≠ []) (right : strip text' ≠ []) :
      Retold unicode (.correct messageId text now clock)
        (.correct messageId text' now clock)

/-- What an operation does not tell of the item's text. -/
structure Spared (ports : ChatPorts) (i : Item) (s t : Store) (a b : Op) :
    Prop where
  /-- No title is cut from the text, or the same one. -/
  title : touches ports i s a = true → titles ports s a = true →
    titleFor (wording a) = titleFor (wording b)
  /-- The text is taken in both, or refused in both; if before the chat's
  source is looked up in one, and after in the other, it is there. -/
  accepted : touches ports i s a = true →
    refuses ports s a = refuses ports t b
      ∧ (repeats s a = repeats t b ∨ (chatSource s.db).1 = s.db)
  /-- The files of a turn that stays were there in both, or in neither. -/
  files : touches ports i s a = false → ∀ u ∈ files a,
    artifactKnown s.db (ports.digest u.data)
      = artifactKnown t.db (ports.digest u.data)

/-- What is written to the item's versions and the rows that hang from them,
between two operations. -/
structure Derived (i : Item) (s s' : Store) : Prop where
  alike : Alike i s.db s'.db
  referenced : Referenced s'.db

/-- A pair of steps: one operation, or one of the item's told twice, or what
is made of the item; of the operations, those that meet a condition. -/
inductive Step (ports : ChatPorts) (i : Item)
    (cond : Store → Store → Op → Op → Prop) :
    Store → Store → Store → Store → Prop
  | same {s t : Store} (op : Op) :
      cond s t op op → Step ports i cond s t (step ports s op) (step ports t op)
  | retold {s t : Store} {a b : Op} :
      Retold ports.unicode a b → target ports s a = some i → cond s t a b →
      Step ports i cond s t (step ports s a) (step ports t b)
  | derived {s t s' t' : Store} :
      Derived i s s' → Derived i t t' → Step ports i cond s t s' t'

/-- Two runs, from one store, that differ in the text of the item. -/
def Runs (ports : ChatPorts) (i : Item)
    (cond : Store → Store → Op → Op → Prop) : Store → Store → Prop :=
  Paired (fun s t => s = t ∧ Referenced s.db) (Step ports i cond)

variable {ports : ChatPorts} {i : Item} {s t : Store}

-- ====== what is stored

/-- What two turns store: nothing, or the same but for the item's text. -/
inductive StoredAlike (i : Item) :
    Option (Id × ObservedItem) → Option (Id × ObservedItem) → Prop
  | nothing : StoredAlike i none none
  | item {sourceId : Id} {a b : ObservedItem}
      (same : SameItem i sourceId a b)
      (left : a.readBytes.isSome = true) (right : b.readBytes.isSome = true) :
      StoredAlike i (some (sourceId, a)) (some (sourceId, b))

variable {now clock : Timestamp} {answer : Option Answer} {m m' : Text}
  {db db' : Db} {a : Op}

theorem StoredAlike.key {stored stored' : Option (Id × ObservedItem)}
    (h : StoredAlike i stored stored') :
    stored.map (·.2.externalKey) = stored'.map (·.2.externalKey) := by
  cases h with
  | nothing => rfl
  | item same => exact congrArg some same.key

theorem messageItem_same {sourceId : Id} {key : String}
    (h : (⟨sourceId, key⟩ : Item) ≠ i → m = m') :
    SameItem i sourceId (messageItem ports key m now)
      (messageItem ports key m' now) :=
  ⟨rfl, rfl, rfl, rfl, fun hne =>
    congrArg (messageItem ports key · now) (h hne)⟩

theorem storedAs_same {intent : MessageIntent} (h : Alike i db db')
    (hm : (storedAs ports db m intent now).2.map
      (fun w => (⟨w.1, w.2.externalKey⟩ : Item)) ≠ some i → m = m') :
    Alike i (storedAs ports db m intent now).1
        (storedAs ports db' m' intent now).1
      ∧ StoredAlike i (storedAs ports db m intent now).2
        (storedAs ports db' m' intent now).2 := by
  obtain ⟨hsource, hid⟩ := h.ensureSource .chat "chat"
  unfold storedAs at hm ⊢
  split
  case isTrue => exact ⟨h, .nothing⟩
  case isFalse hq =>
    rw [if_neg hq] at hm
    unfold chatSource at hm ⊢
    simp only at hm ⊢
    refine ⟨hsource.minted, ?_⟩
    rw [← hid, ← hsource.nextId]
    refine .item (messageItem_same fun hne => hm fun heq => hne ?_) rfl rfl
    exact Option.some.inj heq

theorem storedAs_corpus (db : Db) (m : Text) (intent : MessageIntent)
    (now : Timestamp) : SameCorpus db (storedAs ports db m intent now).1 := by
  unfold storedAs
  split
  case isTrue => exact ⟨rfl, rfl⟩
  case isFalse => exact ensureSource_corpus db .chat "chat"

theorem SameCorpus.unchangedBy (h : SameCorpus db db')
    (stored : Option (Id × ObservedItem)) :
    Chat.unchangedBy db' stored = Chat.unchangedBy db stored := by
  cases stored with
  | none => rfl
  | some w => exact h.unchanged w.1 w.2

theorem storeText_same {stored stored' : Option (Id × ObservedItem)}
    {clock : Timestamp} (h : Same i s t)
    (hstored : StoredAlike i stored stored')
    (haccepted : stored.any (fun w => decide (w.2.externalKey = i.externalKey))
      = true → unchangedBy s.db stored = unchangedBy t.db stored') :
    Both (fun s' t' => Same i s' t'
        ∧ s'.db.chatMessages = s.db.chatMessages
        ∧ (∀ x, s.blobs.holds x = true → s'.blobs.holds x = true)
        ∧ (∀ x, t.blobs.holds x = true → t'.blobs.holds x = true)
        ∧ (stored.any (fun w => decide (w.2.externalKey = i.externalKey))
            = false → ∀ x, artifactKnown s.db x = artifactKnown t.db x →
          artifactKnown s'.db x = artifactKnown t'.db x))
      (storeText s stored clock) (storeText t stored' clock) := by
  cases hstored with
  | nothing =>
    exact .ok ⟨h, rfl, fun _ hx => hx, fun _ hx => hx, fun _ _ hx => hx⟩
  | @item sourceId a b same left right =>
    have hunchanged : unchanged s.db sourceId a
        = unchanged t.db sourceId b := by
      by_cases hi : (⟨sourceId, a.externalKey⟩ : Item) = i
      · refine haccepted (decide_eq_true ?_)
        rw [← hi]
      · rw [← same.other hi]
        exact h.unchanged_other hi
    refine (storeItem_same h same (.inl left) (.inl right)
      hunchanged).mono fun s' t' hst => ?_
    obtain ⟨hsame, hka, hkb⟩ := hst
    refine ⟨hsame, hka.turns, hka.bytes, hkb.bytes, fun hother x hx => ?_⟩
    have hab : a = b := same.other fun heq => by
      have hkey : a.externalKey = i.externalKey := by
        rw [← heq]
      rw [Option.any_some, decide_eq_true hkey] at hother
      cases hother
    rw [hka.known, hkb.known, hx, hab]

-- ====== a turn, told twice

theorem userTurn_blank {sessionId : Id}
    {key : Option String} {intent : Option MessageIntent}
    {corrects : Option Id} (h : Alike i db db')
    (hm : key ≠ some i.externalKey → m = m') :
    blankTurn i (userTurn db sessionId m key intent corrects now)
      = blankTurn i (userTurn db' sessionId m' key intent corrects now) := by
  unfold blankTurn userTurn
  rw [h.nextId, h.nextOrdinal]
  by_cases hk : key = some i.externalKey
  · simp only [hk, if_true]
  · simp only [hk, if_false, hm hk]

theorem ending_same {record : ChatSession} {sessionId : Id} {m m' : Text}
    {key : Option String} {intent : Option MessageIntent}
    {corrects : Option Id} {now : Timestamp} {as bs : List Stored}
    {cutTitle : Bool} (h : Same i s t)
    (hm : key ≠ some i.externalKey → m = m' ∧ as = bs)
    (hlength : as.length = bs.length)
    (htitle : cutTitle = true → nextOrdinal s.db sessionId = 0 →
      titleFor m = titleFor m') :
    Both (fun a b => Same i ⟨a, s.blobs⟩ ⟨b, t.blobs⟩)
      (addTurn s.db record
        (userTurn s.db sessionId m key intent corrects now)
        (attachmentRows s.db.nextId 0 (s.db.nextId + 1) as) cutTitle)
      (addTurn t.db record
        (userTurn t.db sessionId m' key intent corrects now)
        (attachmentRows t.db.nextId 0 (t.db.nextId + 1) bs) cutTitle) := by
  have hrows : SameTurn i (userTurn s.db sessionId m key intent corrects now)
      (userTurn t.db sessionId m' key intent corrects now)
      (attachmentRows s.db.nextId 0 (s.db.nextId + 1) as)
      (attachmentRows t.db.nextId 0 (t.db.nextId + 1) bs) := by
    refine ⟨userTurn_blank h.alike fun hkey => (hm hkey).1, fun hkey => ?_, ?_,
      attachmentRows_messageId, attachmentRows_messageId⟩
    · rw [(hm hkey).2, h.alike.nextId]
    · rw [attachmentRows_length, attachmentRows_length, hlength]
  rcases @Alike.addTurn i s.db t.db record _ _ _ _ cutTitle h.alike hrows htitle
    with ⟨e, hx, hy⟩ | ⟨db, db', hx, hy, h'⟩
  · rw [hx, hy]
    exact .error e
  · rw [hx, hy]
    exact .ok ⟨h', (addTurn_corpus hx).referenced h.left,
      (addTurn_corpus hy).referenced h.right⟩

theorem nextOrdinal_of_turns
    (h : db'.chatMessages = db.chatMessages) (sessionId : Id) :
    nextOrdinal db' sessionId = nextOrdinal db sessionId := by
  unfold nextOrdinal
  rw [h]

theorem appendUser_same {m m' : Text} {intent : MessageIntent}
    {stored stored' : Option (Id × ObservedItem)} {sessionId : Option Id}
    {newSession : Bool} {now clock : Timestamp} (h : Same i s t)
    (hstored : StoredAlike i stored stored')
    (hm : stored.map (·.2.externalKey) ≠ some i.externalKey → m = m')
    (haccepted : stored.any (fun w => decide (w.2.externalKey = i.externalKey))
      = true → unchangedBy s.db stored = unchangedBy t.db stored')
    (htitle : first s.db now sessionId newSession = true →
      titleFor m = titleFor m') :
    Both (fun a b => Same i a.1 b.1 ∧ a.2.sessionId = b.2.sessionId
        ∧ a.2.createdAt = b.2.createdAt)
      (appendUser s m intent stored sessionId newSession now clock)
      (appendUser t m' intent stored' sessionId newSession now clock) := by
  unfold appendUser
  rcases h.alike.resolveSession now sessionId newSession
    with ⟨e, hx, hy⟩ | ⟨⟨db₁, record⟩, ⟨db₁', record'⟩, hx, hy, h₁, hrec⟩
  · rw [hx, hy]
    exact .error e
  · rw [hx, hy]
    simp only at h₁ hrec ⊢
    subst hrec
    have hcs := resolveSession_corpus hx
    have hct := resolveSession_corpus hy
    have hsame₁ : Same i { s with db := db₁ } { t with db := db₁' } :=
      ⟨h₁, hcs.referenced h.left, hct.referenced h.right⟩
    rcases @storeText_same i _ _ stored stored' clock hsame₁ hstored
        (fun ht => by
          rw [hcs.unchangedBy, hct.unchangedBy]
          exact haccepted ht)
      with ⟨e, hx', hy'⟩ | ⟨s₂, t₂, hx', hy', hsame₂, hturns, -, -, -⟩
    · rw [hx', hy']
      exact .error e
    · rw [hx', hy', ← hstored.key]
      simp only
      have htitled : nextOrdinal s₂.db record.id = 0 →
          titleFor m = titleFor m' := by
        intro hzero
        refine htitle ?_
        unfold first
        rw [hx]
        exact beq_iff_eq.mpr ((nextOrdinal_of_turns hturns _).symm.trans hzero)
      rcases @ending_same i s₂ t₂ record record.id m m'
          (stored.map (·.2.externalKey)) (some intent) none now [] [] true
          hsame₂ (fun hkey => ⟨hm hkey, rfl⟩) rfl (fun _ => htitled)
        with ⟨e, hx'', hy''⟩ | ⟨db₃, db₃', hx'', hy'', h₃⟩
      · unfold attachmentRows at hx'' hy''
        rw [hx'', hy'']
        exact .error e
      · unfold attachmentRows at hx'' hy''
        rw [hx'', hy'']
        exact .ok ⟨h₃, rfl, rfl⟩

theorem answerExchange_same {a b : ChatMessage}
    (h : Same i s t) (hsession : a.sessionId = b.sessionId)
    (hcreated : a.createdAt = b.createdAt) :
    Same i (answerExchange s a answer).1 (answerExchange t b answer).1 := by
  cases answer with
  | none => exact h
  | some answer =>
    unfold answerExchange
    simp only [hsession, hcreated]
    rcases h.alike.recordAnswer b.sessionId answer b.createdAt
      with ⟨e, hx, hy⟩ | ⟨db, db', hx, hy, h'⟩
    · rw [hx, hy]
      exact h
    · rw [hx, hy]
      exact ⟨h', (recordAnswer_corpus hx).referenced h.left,
        (recordAnswer_corpus hy).referenced h.right⟩

theorem exchange_same {a b : ChatMessage}
    (h : Same i s t) (hsession : a.sessionId = b.sessionId)
    (hcreated : a.createdAt = b.createdAt) (done : Prop) [Decidable done] :
    Same i (if done then (s, none) else answerExchange s a answer).1
      (if done then (t, none) else answerExchange t b answer).1 := by
  split
  case isTrue => exact h
  case isFalse => exact answerExchange_same h hsession hcreated

-- ====== the operations

theorem touches_eq (op : Op) : touches ports i s op
    = (written ports s op).2.any fun w =>
      decide (w.2.externalKey = i.externalKey) :=
  Option.any_map

theorem untouched {stored : Option (Id × ObservedItem)}
    (hw : (written ports s a).2 = stored)
    (hkey : stored.map (·.2.externalKey) ≠ some i.externalKey) :
    touches ports i s a = false ∧ target ports s a ≠ some i := by
  subst hw
  rw [touches_eq]
  unfold target
  cases hstored : (written ports s a).2 with
  | none => exact ⟨rfl, nofun⟩
  | some w =>
    rw [hstored] at hkey
    have hne : w.2.externalKey ≠ i.externalKey := fun heq =>
      hkey (congrArg some heq)
    refine ⟨decide_eq_false hne, fun heq => hne ?_⟩
    rw [← Option.some.inj heq]

theorem Spared.titled {b : Op} (h : Spared ports i s t a b)
    (hw : touches ports i s a = false → wording a = wording b)
    (ht : titles ports s a = true) :
    titleFor (wording a) = titleFor (wording b) := by
  cases htouch : touches ports i s a with
  | false => rw [hw htouch]
  | true => exact h.title htouch ht

theorem touches_of_target (h : target ports s a = some i) :
    touches ports i s a = true := by
  unfold touches
  rw [h]
  exact decide_eq_true rfl

theorem send_same {text text' : Text} {sessionId : Option Id}
    {newSession deferAnswer : Bool} (h : Same i s t)
    (hempty : (strip text).isEmpty = (strip text').isEmpty)
    (hintent : MessageIntent.classify ports.unicode (strip text)
      = MessageIntent.classify ports.unicode (strip text'))
    (hm : target ports s
        (.send text sessionId newSession deferAnswer answer now clock)
          ≠ some i → strip text = strip text')
    (hspared : Spared ports i s t
      (.send text sessionId newSession deferAnswer answer now clock)
      (.send text' sessionId newSession deferAnswer answer now clock)) :
    Same i
      (send ports s text sessionId newSession deferAnswer answer now clock).1
      (send ports t text' sessionId newSession deferAnswer answer now
        clock).1 := by
  have htitle := hspared.titled fun htouch => hm fun htarget => by
    rw [touches_of_target htarget] at htouch
    cases htouch
  have haccepted := fun ht => (hspared.accepted ht).1
  rw [touches_eq] at haccepted
  unfold target at hm
  unfold refuses repeats at haccepted
  simp only [Bool.false_or, written, wording, titles, ← hintent]
    at hm htitle haccepted
  unfold send
  simp only [← hempty, ← hintent]
  split
  case isTrue => exact h
  case isFalse =>
    obtain ⟨h₀, hstored⟩ := storedAs_same h.alike hm
    have hs₀ := @storedAs_corpus ports s.db (strip text)
      (MessageIntent.classify ports.unicode (strip text)) now
    have ht₀ := @storedAs_corpus ports t.db (strip text')
      (MessageIntent.classify ports.unicode (strip text)) now
    have hsame₀ : Same i ⟨(storedAs ports s.db (strip text) _ now).1, s.blobs⟩
        ⟨(storedAs ports t.db (strip text') _ now).1, t.blobs⟩ :=
      ⟨h₀, hs₀.referenced h.left, ht₀.referenced h.right⟩
    have hboth := @appendUser_same i _ _ (strip text) (strip text')
      (MessageIntent.classify ports.unicode (strip text)) _ _ sessionId
      newSession now clock hsame₀ hstored
      (fun hkey => hm (untouched (a := .send text sessionId newSession
        deferAnswer answer now clock) rfl hkey).2)
      (fun ht => by
        rw [hs₀.unchangedBy, ht₀.unchangedBy]
        exact haccepted ht) htitle
    rcases hboth with ⟨e, hx, hy⟩
      | ⟨⟨s₁, a⟩, ⟨t₁, b⟩, hx, hy, hsame, hsession, hcreated⟩
    · simp only [hx, hy]
      exact hsame₀
    · simp only [hx, hy]
      exact exchange_same hsame hsession hcreated _

theorem attachTurn_same {sourceId : Id}
    {staged : List (Upload × ContentHash × Nat)} {m m' : Text}
    {intent : MessageIntent} {stored stored' : Option (Id × ObservedItem)}
    {sessionId : Option Id} {newSession : Bool} {now clock : Timestamp}
    (h : Same i s t)
    (hitem : ∃ now turnId, i.externalKey = messageKey ports now turnId)
    (hheld : ∀ x ∈ staged, s.blobs.holds x.2.1 = true
      ∧ t.blobs.holds x.2.1 = true)
    (hempty : m.isEmpty = m'.isEmpty) (hstored : StoredAlike i stored stored')
    (hm : stored.map (·.2.externalKey) ≠ some i.externalKey → m = m')
    (haccepted : stored.any (fun w => decide (w.2.externalKey = i.externalKey))
      = true → unchangedBy s.db stored = unchangedBy t.db stored')
    (hknown : stored.any (fun w => decide (w.2.externalKey = i.externalKey))
      = false → ∀ x ∈ staged,
        artifactKnown s.db x.2.1 = artifactKnown t.db x.2.1)
    (htitle : first s.db now sessionId newSession = true →
      titleFor m = titleFor m') :
    Both (fun a b => Same i a.1 b.1 ∧ a.2.sessionId = b.2.sessionId
        ∧ a.2.createdAt = b.2.createdAt)
      (attachTurn ports s sourceId staged m intent stored sessionId newSession
        now clock)
      (attachTurn ports t sourceId staged m' intent stored' sessionId
        newSession now clock) := by
  have huntouched : stored.map (·.2.externalKey) ≠ some i.externalKey →
      stored.any (fun w => decide (w.2.externalKey = i.externalKey))
        = false := by
    intro hkey
    cases stored with
    | none => rfl
    | some w => exact decide_eq_false fun heq => hkey (congrArg some heq)
  unfold attachTurn
  rcases h.alike.resolveSession now sessionId newSession
    with ⟨e, hx, hy⟩ | ⟨⟨db₁, record⟩, ⟨db₁', record'⟩, hx, hy, h₁, hrec⟩
  · rw [hx, hy]
    exact .error e
  · rw [hx, hy]
    simp only at h₁ hrec ⊢
    subst hrec
    have hcs := resolveSession_corpus hx
    have hct := resolveSession_corpus hy
    have hsame₁ : Same i { s with db := db₁ } { t with db := db₁' } :=
      ⟨h₁, hcs.referenced h.left, hct.referenced h.right⟩
    rcases @storeText_same i _ _ stored stored' clock hsame₁ hstored
        (fun ht => by
          rw [hcs.unchangedBy, hct.unchangedBy]
          exact haccepted ht)
      with ⟨e, hx', hy'⟩ | ⟨s₂, t₂, hx', hy', hsame₂, hturns, hbs, hbt, hkn⟩
    · rw [hx', hy']
      exact .error e
    · rw [hx', hy', ← hstored.key]
      simp only
      have hheld₂ : ∀ x ∈ staged, s₂.blobs.holds x.2.1 = true
          ∧ t₂.blobs.holds x.2.1 = true := fun x hx =>
        ⟨hbs _ (hheld x hx).1, hbt _ (hheld x hx).2⟩
      have hknown₂ : stored.map (·.2.externalKey) ≠ some i.externalKey →
          ∀ x ∈ staged,
            artifactKnown s₂.db x.2.1 = artifactKnown t₂.db x.2.1 := by
        intro hkey x hx
        refine hkn (huntouched hkey) _ ?_
        rw [hcs.artifactKnown, hct.artifactKnown]
        exact hknown (huntouched hkey) x hx
      rcases @recordAll_same i ports s₂ t₂ sourceId now clock staged hsame₂
          hitem hheld₂
        with ⟨e, hx'', hy''⟩ | ⟨⟨s₃, as⟩, ⟨t₃, bs⟩, hx'', hy'', hsame₃, hturns',
          hbare, hfiles⟩
      · rw [hx'', hy'']
        exact .error e
      · rw [hx'', hy'']
        simp only at hsame₃ hturns' hbare hfiles ⊢
        rw [describe_bare hbare, ← hempty]
        -- a turn of files alone says their names, in both
        have hcontent : ∀ {P : Text → Text → Prop},
            P (describe bs) (describe bs) → P m m' →
            P (if m.isEmpty then describe bs else m)
              (if m.isEmpty then describe bs else m') := by
          intro P hdescribe hsays
          split
          case isTrue => exact hdescribe
          case isFalse => exact hsays
        have htitled : nextOrdinal s₃.db record.id = 0 →
            titleFor (if m.isEmpty then describe bs else m)
              = titleFor (if m.isEmpty then describe bs else m') := by
          intro hzero
          refine @hcontent (fun a b => titleFor a = titleFor b) rfl (htitle ?_)
          unfold first
          rw [hx]
          exact beq_iff_eq.mpr ((nextOrdinal_of_turns (hturns'.trans hturns)
            _).symm.trans hzero)
        have hlength : as.length = bs.length := by
          rw [← List.length_map (f := bare), hbare, List.length_map]
        rcases @ending_same i s₃ t₃ record record.id
            (if m.isEmpty then describe bs else m)
            (if m.isEmpty then describe bs else m')
            (stored.map (·.2.externalKey)) (some intent) none now as bs true
            hsame₃ (fun hkey => ⟨hcontent rfl (hm hkey), hfiles (hknown₂ hkey)⟩)
            hlength (fun _ => htitled)
          with ⟨e, hz, hw⟩ | ⟨db₄, db₄', hz, hw, h₄⟩
        · unfold userTurn at hz hw ⊢
          simp only at hz hw ⊢
          rw [hz, hw]
          exact .error e
        · unfold userTurn at hz hw ⊢
          simp only at hz hw ⊢
          rw [hz, hw]
          exact .ok ⟨h₄, rfl, rfl⟩

theorem noteAs_same {intent : MessageIntent} (h : Alike i db db')
    (hm : (if m.isEmpty then (db, none)
      else storedAs ports db m intent now).2.map
        (fun w => (⟨w.1, w.2.externalKey⟩ : Item)) ≠ some i → m = m') :
    Alike i (if m.isEmpty then (db, none) else storedAs ports db m intent now).1
        (if m.isEmpty then (db', none)
          else storedAs ports db' m' intent now).1
      ∧ StoredAlike i
        (if m.isEmpty then (db, none) else storedAs ports db m intent now).2
        (if m.isEmpty then (db', none)
          else storedAs ports db' m' intent now).2
      ∧ SameCorpus db
        (if m.isEmpty then (db, none) else storedAs ports db m intent now).1
      ∧ SameCorpus db' (if m.isEmpty then (db', none)
        else storedAs ports db' m' intent now).1 := by
  cases he : m.isEmpty with
  | true => exact ⟨h, .nothing, ⟨rfl, rfl⟩, ⟨rfl, rfl⟩⟩
  | false =>
    rw [he] at hm
    obtain ⟨h', hstored⟩ := storedAs_same h hm
    exact ⟨h', hstored, storedAs_corpus db m intent now,
      storedAs_corpus db' m' intent now⟩

theorem attach_same {uploads : List Upload} {note note' : Option Text}
    {sessionId : Option Id} {newSession : Bool} (h : Same i s t)
    (hitem : ∃ now turnId, i.externalKey = messageKey ports now turnId)
    (hempty : (strip (note.getD [])).isEmpty = (strip (note'.getD [])).isEmpty)
    (hintent : MessageIntent.classify ports.unicode (strip (note.getD []))
      = MessageIntent.classify ports.unicode (strip (note'.getD [])))
    (hm : target ports s
        (.attach uploads note sessionId newSession answer now clock) ≠ some i →
      strip (note.getD []) = strip (note'.getD []))
    (hspared : Spared ports i s t
      (.attach uploads note sessionId newSession answer now clock)
      (.attach uploads note' sessionId newSession answer now clock)) :
    Same i
      (attach ports s uploads note sessionId newSession answer now clock).1
      (attach ports t uploads note' sessionId newSession answer now
        clock).1 := by
  have htitle := hspared.titled fun htouch => hm fun htarget => by
    rw [touches_of_target htarget] at htouch
    cases htouch
  have haccepted := fun ht => (hspared.accepted ht).1
  have hfiles := hspared.files
  rw [touches_eq] at haccepted hfiles
  unfold target at hm
  unfold refuses repeats at haccepted
  simp only [Bool.false_or, written, wording, titles, files, ← hintent,
    ← hempty] at hm htitle haccepted hfiles
  unfold attach
  split
  case isTrue => exact h
  case isFalse =>
    obtain ⟨hsource, hid⟩ : Alike i (uploadSource s.db).1 (uploadSource t.db).1
        ∧ (uploadSource s.db).2 = (uploadSource t.db).2 :=
      h.alike.ensureSource .upload "uploads"
    have hsu := ensureSource_corpus s.db .upload "uploads"
    have htu := ensureSource_corpus t.db .upload "uploads"
    simp only [← hempty, ← hintent, ← hid]
    have hresult := @stageAll_result ports uploads s.blobs t.blobs
    rcases hx : stageAll ports s.blobs uploads with ⟨bs, r⟩
    rcases hy : stageAll ports t.blobs uploads with ⟨bt, r'⟩
    rw [hx, hy] at hresult
    simp only at hresult
    subst hresult
    cases r with
    | error e => exact ⟨hsource, hsu.referenced h.left, htu.referenced h.right⟩
    | ok staged =>
      obtain ⟨-, hheld⟩ := stageAll_holds hx
      obtain ⟨-, hheld'⟩ := stageAll_holds hy
      simp only
      have hread : ∀ (source : Db) (m : Text),
          (if (strip (note.getD [])).isEmpty then (source, none)
            else storedAs ports source m
              (if (strip (note.getD [])).isEmpty then .statement
                else MessageIntent.classify ports.unicode
                  (strip (note.getD []))) now)
            = if (strip (note.getD [])).isEmpty then (source, none)
              else storedAs ports source m (MessageIntent.classify
                ports.unicode (strip (note.getD []))) now := by
        intro source m
        split
        case isTrue => rfl
        case isFalse => rfl
      rw [hread, hread]
      obtain ⟨h₀, hstored, hs₀, ht₀⟩ := noteAs_same hsource hm
      have hcs := hsu.trans hs₀
      have hct := htu.trans ht₀
      have hsame₀ : Same i ⟨_, bs⟩ ⟨_, bt⟩ :=
        ⟨h₀, hcs.referenced h.left, hct.referenced h.right⟩
      have hboth := @attachTurn_same ports i _ _ (uploadSource s.db).2 staged
        (strip (note.getD [])) (strip (note'.getD []))
        (if (strip (note.getD [])).isEmpty then .statement
          else MessageIntent.classify ports.unicode (strip (note.getD [])))
        _ _ sessionId newSession now clock hsame₀ hitem
        (fun x hx => ⟨(hheld x hx).1, (hheld' x hx).1⟩) hempty hstored
        (fun hkey => hm (untouched (a := .attach uploads note sessionId
          newSession answer now clock) rfl hkey).2)
        (fun ht => by
          rw [hcs.unchangedBy, hct.unchangedBy]
          exact haccepted ht)
        (fun ht x hx => by
          obtain ⟨u, hu, hux⟩ := (hheld x hx).2
          rw [hcs.artifactKnown, hct.artifactKnown, hux]
          exact hfiles ht u hu) htitle
      rcases hboth with ⟨e, hx, hy⟩
        | ⟨⟨s₁, a⟩, ⟨t₁, b⟩, hx, hy, hsame, hsession, hcreated⟩
      · simp only [hx, hy]
        exact hsame₀
      · simp only [hx, hy]
        exact exchange_same hsame hsession hcreated _

theorem correctTurn_same {o o' : ChatMessage} {sourceId : Id} {key : String}
    {m m' : Text} {now clock : Timestamp} (h : Same i s t)
    (ho : blankTurn i o = blankTurn i o')
    (hm : (⟨sourceId, key⟩ : Item) ≠ i → m = m')
    (haccepted : key = i.externalKey →
      unchanged s.db sourceId (messageItem ports key m now)
        = unchanged t.db sourceId (messageItem ports key m' now)) :
    Both (Same i)
      (correctTurn s o sourceId (messageItem ports key m now) m now clock)
      (correctTurn t o' sourceId (messageItem ports key m' now) m' now
        clock) := by
  have hid : o.id = o'.id := by
    rw [← blankTurn_id (i := i) o, ho, blankTurn_id]
  have hsession : o.sessionId = o'.sessionId := by
    rw [← blankTurn_sessionId (i := i) o, ho, blankTurn_sessionId]
  have hintent : o.intent = o'.intent := by
    rw [← blankTurn_intent (i := i) o, ho, blankTurn_intent]
  have hsame : SameItem i sourceId (messageItem ports key m now)
      (messageItem ports key m' now) := messageItem_same hm
  have hunchanged : unchanged s.db sourceId (messageItem ports key m now)
      = unchanged t.db sourceId (messageItem ports key m' now) := by
    by_cases hi : (⟨sourceId, key⟩ : Item) = i
    · exact haccepted (congrArg (·.externalKey) hi)
    · rw [← hm hi]
      exact h.unchanged_other hi
  unfold correctTurn sessionOf
  rw [h.alike.sessions, hsession, hid, hintent]
  split
  case h_1 => exact .error _
  case h_2 record _ =>
    rcases @storeItem_same i s t sourceId _ _ .notCorrectable clock h hsame
        (.inl rfl) (.inl rfl) hunchanged
      with ⟨e, hx, hy⟩ | ⟨s₁, t₁, hx, hy, hsame₁, -, -⟩
    · rw [hx, hy]
      exact .error e
    · rw [hx, hy]
      simp only
      rcases @ending_same i s₁ t₁ record o'.sessionId m m' (some key) o'.intent
          (some o'.id) now [] [] false hsame₁
          (fun hkey => ⟨hm fun hi => hkey (by rw [← hi]), rfl⟩) rfl nofun
        with ⟨e, hx', hy'⟩ | ⟨db₂, db₂', hx', hy', h₂⟩
      · unfold attachmentRows at hx' hy'
        unfold messageItem
        simp only
        rw [hx', hy']
        exact .error e
      · unfold attachmentRows at hx' hy'
        unfold messageItem
        simp only
        rw [hx', hy']
        exact .ok h₂

theorem correctTurn_refused {o : ChatMessage} {sourceId : Id} {key : String}
    {m : Text} {now clock : Timestamp}
    (h : unchanged s.db sourceId (messageItem ports key m now) = true) :
    ∃ e, correctTurn s o sourceId (messageItem ports key m now) m now clock
      = .error e := by
  have hstore : storeItem s sourceId (messageItem ports key m now)
      .notCorrectable clock = .error .notCorrectable := by
    obtain ⟨s', -, -, -, hingest⟩ := @ingestItem_eq ⟨0, ""⟩ s sourceId
      (messageItem ports key m now) clock (.inl rfl)
    unfold storeItem
    rw [hingest, if_pos h]
  unfold correctTurn
  split
  case h_1 => exact ⟨_, rfl⟩
  case h_2 =>
    rw [hstore]
    exact ⟨_, rfl⟩

theorem correct_same {text text' : Text} {messageId : Id} (h : Same i s t)
    (hempty : (strip text).isEmpty = (strip text').isEmpty)
    (hm : target ports s (.correct messageId text now clock) ≠ some i →
      strip text = strip text')
    (hspared : Spared ports i s t (.correct messageId text now clock)
      (.correct messageId text' now clock)) :
    Same i (correct ports s messageId text now clock).1
      (correct ports t messageId text' now clock).1 := by
  have haccepted := hspared.accepted
  unfold touches target at haccepted
  unfold target at hm
  simp only [written] at hm
  simp only [refuses, written, repeats] at haccepted
  obtain ⟨hsource, hsid⟩ : Alike i (chatSource s.db).1 (chatSource t.db).1
      ∧ (chatSource s.db).2 = (chatSource t.db).2 :=
    h.alike.ensureSource .chat "chat"
  have hcs := ensureSource_corpus s.db .chat "chat"
  have hct := ensureSource_corpus t.db .chat "chat"
  have horiginal := h.alike.messageOf messageId
  unfold correct
  simp only [← hempty]
  split
  case isTrue => exact h
  case isFalse =>
    cases hx : messageOf s.db messageId with
    | none =>
      rw [hx, Option.map_none] at horiginal
      rw [Option.map_eq_none_iff.mp horiginal.symm]
      exact h
    | some o =>
      rw [hx, Option.map_some] at horiginal
      obtain ⟨o', hy, ho⟩ := Option.map_eq_some_iff.mp horiginal.symm
      have hrole : o'.role = o.role := by
        rw [← blankTurn_role (i := i) o', ho, blankTurn_role]
      have hkey : o'.externalKey = o.externalKey := by
        rw [← blankTurn_externalKey (i := i) o', ho, blankTurn_externalKey]
      rw [hy]
      simp only [hrole, hkey]
      split
      case isTrue => exact h
      case isFalse =>
        cases hok : o.externalKey with
        | none => exact h
        | some key =>
          simp only [hx, hy, hkey, hok, Option.bind_some, Option.map_some,
            Option.any_some] at hm haccepted
          dsimp only
          have hm' : (⟨(chatSource s.db).2, key⟩ : Item) ≠ i →
              strip text = strip text' := fun hne =>
            hm fun heq => hne (Option.some.inj heq)
          have hsame₀ : Same i { s with db := (chatSource s.db).1 }
              { t with db := (chatSource t.db).1 } :=
            ⟨hsource, hcs.referenced h.left, hct.referenced h.right⟩
          -- the words of another item's turn are the same in both
          have hother : key ≠ i.externalKey →
              ((strip o.content = strip text)
                ↔ (strip o'.content = strip text')) := by
            intro hi
            have hne : ∀ x : ChatMessage, x.externalKey = some key →
                blankTurn i x = x := fun x hx => blankTurn_of_ne fun heq =>
              hi (Option.some.inj (hx.symm.trans heq))
            rw [← hne o hok, ← ho, hne o' (hkey.trans hok),
              hm' fun heq => hi (congrArg (·.externalKey) heq)]
          by_cases hs : strip o.content = strip text
          · by_cases ht : strip o'.content = strip text'
            · rw [if_pos hs, if_pos ht]
              exact h
            · -- refused in one for what was said, in the other for what
              -- is stored
              have hi : key = i.externalKey :=
                of_not_not fun hne => ht ((hother hne).mp hs)
              obtain ⟨hrefuses, hthere⟩ := haccepted (decide_eq_true hi)
              rw [decide_eq_true hs, decide_eq_false ht, Bool.true_or,
                Bool.false_or] at hrefuses
              rw [decide_eq_true hs, decide_eq_false ht] at hthere
              obtain ⟨e, he⟩ := @correctTurn_refused ports
                { t with db := (chatSource t.db).1 } o' (chatSource t.db).2
                key (strip text') now clock
                ((SameCorpus.unchanged hct _ _).trans hrefuses.symm)
              rw [if_pos hs, if_neg ht]
              simp only [he]
              rw [hthere.resolve_left nofun] at hsame₀
              exact hsame₀
          · by_cases ht : strip o'.content = strip text'
            · have hi : key = i.externalKey :=
                of_not_not fun hne => hs ((hother hne).mpr ht)
              obtain ⟨hrefuses, hthere⟩ := haccepted (decide_eq_true hi)
              rw [decide_eq_false hs, decide_eq_true ht, Bool.true_or,
                Bool.false_or] at hrefuses
              rw [decide_eq_false hs, decide_eq_true ht] at hthere
              obtain ⟨e, he⟩ := @correctTurn_refused ports
                { s with db := (chatSource s.db).1 } o (chatSource s.db).2
                key (strip text) now clock
                ((SameCorpus.unchanged hcs _ _).trans hrefuses)
              rw [if_neg hs, if_pos ht]
              simp only [he]
              rw [hthere.resolve_left nofun]
              exact h
            · rw [if_neg hs, if_neg ht]
              rcases @correctTurn_same ports i _ _ o o' (chatSource s.db).2
                  key (strip text) (strip text') now clock hsame₀ ho.symm
                  hm'
                  (fun hi => by
                    have hboth := (haccepted (decide_eq_true hi)).1
                    rw [decide_eq_false hs, decide_eq_false ht,
                      Bool.false_or, Bool.false_or, ← hsid] at hboth
                    exact (SameCorpus.unchanged hcs _ _).trans
                      (hboth.trans (SameCorpus.unchanged hct _ _).symm))
                with ⟨e, hx', hy'⟩ | ⟨s₁, t₁, hx', hy', hsame₁⟩
              · simp only [hx', ← hsid, hy']
                exact hsame₀
              · simp only [hx', ← hsid, hy']
                exact hsame₁

-- ========= the run

theorem answer_same {sessionId : Id} {answer : Answer}
    (h : Same i s t) :
    Same i (step ports s (.recordAnswer sessionId answer now))
      (step ports t (.recordAnswer sessionId answer now)) := by
  unfold step
  simp only
  rcases h.alike.recordAnswer sessionId answer now
    with ⟨e, hx, hy⟩ | ⟨db, db', hx, hy, h'⟩
  · rw [hx, hy]
    exact h
  · rw [hx, hy]
    exact ⟨h', (recordAnswer_corpus hx).referenced h.left,
      (recordAnswer_corpus hy).referenced h.right⟩

theorem step_same {s' t' : Store}
    (hitem : ∃ now turnId, i.externalKey = messageKey ports now turnId)
    (h : Same i s t) (hstep : Step ports i (Spared ports i) s t s' t') :
    Same i s' t' := by
  cases hstep with
  | same op hspared =>
    cases op with
    | send =>
      exact send_same h rfl rfl (fun _ => rfl) hspared
    | attach =>
      exact attach_same h hitem rfl rfl (fun _ => rfl) hspared
    | correct => exact correct_same h rfl (fun _ => rfl) hspared
    | recordAnswer => exact answer_same h
  | retold htold htarget hspared =>
    have hempty : ∀ {x y : Text}, x ≠ [] → y ≠ [] →
        x.isEmpty = y.isEmpty := by
      intro x y hx hy
      rw [List.isEmpty_eq_false_iff.mpr hx, List.isEmpty_eq_false_iff.mpr hy]
    cases htold with
    | send left right intent =>
      exact send_same h (hempty left right) intent
        (fun hne => absurd htarget hne) hspared
    | attach left right intent =>
      exact attach_same h hitem (hempty left right) intent
        (fun hne => absurd htarget hne) hspared
    | correct left right =>
      exact correct_same h (hempty left right)
        (fun hne => absurd htarget hne) hspared
  | derived hs ht =>
    exact ⟨(hs.alike.symm.trans h.alike).trans ht.alike, hs.referenced,
      ht.referenced⟩

theorem run_same
    (hitem : ∃ now turnId, i.externalKey = messageKey ports now turnId)
    (hrun : Runs ports i (Spared ports i) s t) : Same i s t := by
  refine Paired.rel ?_ ?_ hrun
  · rintro s t ⟨rfl, href⟩
    exact ⟨.refl s.db, href, href⟩
  · intro s t s' t' h hstep
    exact step_same hitem h hstep

end MemoryOS.Chat
