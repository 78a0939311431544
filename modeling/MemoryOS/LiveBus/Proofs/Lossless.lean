/-
The live stream is lossless within one process, and where it is not.

`Sound` is the invariant. What the running process published is numbered
from one, and its buffer is a suffix of that, so what `since` answers is a
suffix too, or the gap is told (`start_delivers`). Reading moves frames
from what is outstanding to what was received (`delivers_read`), and an
event put into the queue of a stream is delivered as long as the number
the stream compares with is one the process has already given
(`Behind`).

That last comparison is what a restart breaks. `last_event_id` is an id of
the process that died, and `since` takes it for one of its own: an empty
buffer answers "resumable", and the live loop then drops the new process's
events up to that number. `lossless_iff` says that this is the only way to
lose one.
-/
import MemoryOS.Lib.KeyedLog
import MemoryOS.LiveBus.Bus

namespace MemoryOS

open Lib

variable {δ : Type}

namespace LiveStream

-- ====== the frames

variable {w : World δ} {e : LiveEvent δ} {c : Conn δ}

theorem events_append (xs ys : List (Frame δ)) :
    events (xs ++ ys) = events xs ++ events ys :=
  List.filterMap_append

@[simp] theorem events_event (xs : List (LiveEvent δ)) :
    events (xs.map Frame.event) = xs := by
  induction xs with
  | nil => rfl
  | cons e xs ih => exact congrArg (e :: ·) ih

/-- The number the live loop compares with once the buffered events have
been sent. -/
def compared (s : Stream δ) : Option Nat :=
  (s.missed.getLast?.map LiveEvent.id).or s.last

theorem outstanding_put (s : Stream δ) (e : LiveEvent δ) :
    outstanding (s.put e) = outstanding s
      ++ (if Stream.fresh (compared s) e then [.event e] else []) := by
  unfold outstanding Stream.put
  simp only [List.filter_append, List.map_append, List.append_assoc]
  congr 3
  unfold compared
  by_cases h : Stream.fresh
      ((s.missed.getLast?.map LiveEvent.id).or s.last) e <;> simp [h]

theorem live_spec (last : Option Nat) (queue : List (LiveEvent δ)) :
    (queue.filter (Stream.fresh last) = []
        ∧ Stream.live last queue = (.keepAlive, []))
      ∨ ∃ e, queue.filter (Stream.fresh last)
            = e :: (Stream.live last queue).2.filter (Stream.fresh last)
          ∧ (Stream.live last queue).1 = .event e := by
  induction queue with
  | nil => exact .inl ⟨rfl, rfl⟩
  | cons e queue ih =>
    by_cases h : Stream.fresh last e
    · exact .inr ⟨e, by simp [Stream.live, h], by simp [Stream.live, h]⟩
    · simpa [Stream.live, h] using ih

theorem next_spec (s : Stream δ) :
    compared s.next.2 = compared s
      ∧ ((outstanding s = [] ∧ s.next.1 = .keepAlive
            ∧ outstanding s.next.2 = [])
          ∨ outstanding s = s.next.1 :: outstanding s.next.2) := by
  obtain ⟨last, gapDue, missed, queue⟩ := s
  cases gapDue with
  | true => exact ⟨rfl, .inr rfl⟩
  | false =>
    cases missed with
    | cons e rest =>
      have hlast : ((rest.getLast?.map LiveEvent.id).or (some e.id))
          = (((e :: rest).getLast?.map LiveEvent.id).or last) := by
        cases rest with
        | nil => rfl
        | cons e' rest =>
          rw [List.getLast?_cons_cons]
          cases hl : (e' :: rest).getLast? with
          | none => simp at hl
          | some l => rfl
      refine ⟨hlast, .inr ?_⟩
      simp only [outstanding, Stream.next, hlast, Bool.false_eq_true,
        if_false, List.map_cons, List.nil_append, List.cons_append]
    | nil =>
      refine ⟨rfl, ?_⟩
      rcases live_spec last queue with ⟨hnone, hlive⟩ | ⟨e, hsome, hfst⟩
      · exact .inl ⟨by simp [outstanding, hnone], by
          simp [Stream.next, hlive], by
          simp [outstanding, Stream.next, hlive]⟩
      · exact .inr (by
          simp [outstanding, Stream.next, hsome, hfst])

theorem delivers_read (c : Conn δ) :
    let c' : Conn δ := { c with
      stream := c.stream.next.2
      received := c.received ++ [c.stream.next.1] }
    c'.delivers = c.delivers ∨ c'.delivers = c.delivers ++ [.keepAlive] := by
  intro c'
  have hc' : c'.delivers = c.received
      ++ (c.stream.next.1 :: outstanding c.stream.next.2) := by
    simp [c', Conn.delivers]
  rw [hc']
  rcases (next_spec c.stream).2 with ⟨hnone, hfst, hrest⟩ | hsome
  · refine .inr ?_
    rw [Conn.delivers, hnone, hfst, hrest, List.append_nil]
  · refine .inl ?_
    rw [Conn.delivers, hsome]

theorem delivers_put (c : Conn δ) (e : LiveEvent δ) :
    ({ c with stream := c.stream.put e } : Conn δ).delivers = c.delivers
      ++ (if Stream.fresh (compared c.stream) e then [.event e] else []) := by
  simp only [Conn.delivers, outstanding_put, List.append_assoc]

theorem toldGap_of_delivers {c' : Conn δ} {more : List (Frame δ)}
    (h : c'.delivers = c.delivers ++ more)
    (hmore : ∀ last, Frame.gap last ∉ more) : c'.toldGap ↔ c.toldGap := by
  refine exists_congr fun last => ?_
  rw [h, List.mem_append]
  exact or_iff_left (hmore last)

-- ====== the invariant

/-- What the running process has published. -/
def World.own (w : World δ) : List (LiveEvent δ) :=
  w.published.drop w.started

/-- Where a connection stands: the gap is told, and not by a process that
has published nothing; or it was resumed with an id of an earlier process
and this one has published nothing yet; or the number its live loop
compares with is one this process has given. -/
def Stands (w : World δ) (c : Conn δ) : Prop :=
  (c.toldGap ∧ (Stale w c.resumed → 1 < w.bus.nextId))
    ∨ (Stale w c.resumed ∧ ¬ c.toldGap ∧ w.bus.nextId = 1
        ∧ events c.delivers = w.published.drop w.begins
        ∧ ∃ l, compared c.stream = some l ∧ 1 ≤ l)
    ∨ (¬ Stale w c.resumed
        ∧ events c.delivers = w.published.drop w.begins
        ∧ ∀ l, compared c.stream = some l → l < w.bus.nextId)

/-- The invariant. -/
structure Sound (w : World δ) : Prop where
  counted : w.started + w.bus.nextId = w.published.length + 1
  started_le : w.started ≤ w.published.length
  nths : Numbered LiveEvent.nth 0 w.published
  ids : Numbered LiveEvent.id 1 w.own
  buffer : w.bus.buffer = w.own.drop (w.own.length - w.bus.bufferSize)
  pos : ∀ e ∈ w.published, 1 ≤ e.id
  saw : ∀ e, w.saw = some e → e ∈ w.published
  begins_le : w.begins ≤ w.published.length
  given : ∀ c, w.conn = some c →
    ∀ e, Frame.event e ∈ c.delivers → e ∈ w.published
  stands : ∀ c, w.conn = some c → Stands w c

theorem Sound.own_length (h : Sound w) :
    w.own.length + 1 = w.bus.nextId := by
  have hc := h.counted
  have hs := h.started_le
  rw [World.own, List.length_drop]
  omega

theorem sound_world (bufferSize : Nat) :
    Sound (world bufferSize : World δ) where
  counted := rfl
  started_le := Nat.le_refl 0
  nths := trivial
  ids := trivial
  buffer := List.drop_nil.symm
  pos := fun _ he => absurd he List.not_mem_nil
  saw := fun _ he => by cases he
  begins_le := Nat.le_refl 0
  given := fun _ hc => by cases hc
  stands := fun _ hc => by cases hc

theorem Sound.lossless (h : Sound w) : Lossless w := by
  intro c hc
  rcases h.stands c hc with ⟨htold, -⟩ | ⟨-, -, -, heq, -⟩ | ⟨-, heq, -⟩
  · exact .inl htold
  · exact .inr heq
  · exact .inr heq

-- ====== publishing

theorem keep_newest {α : Type} (xs : List α) (x : α) (size : Nat) :
    (xs.drop (xs.length - size) ++ [x]).drop
        ((xs.drop (xs.length - size) ++ [x]).length - size)
      = (xs ++ [x]).drop ((xs ++ [x]).length - size) := by
  have happ : xs.drop (xs.length - size) ++ [x]
      = (xs ++ [x]).drop (xs.length - size) :=
    (List.drop_append_of_le_length (Nat.sub_le _ _)).symm
  rw [happ, List.drop_drop]
  congr 1
  simp only [List.length_drop, List.length_append, List.length_singleton]
  omega

theorem own_publish (h : Sound w) (e : LiveEvent δ) :
    (w.published ++ [e]).drop w.started = w.own ++ [e] :=
  List.drop_append_of_le_length h.started_le

theorem Stands.publish (h : Sound w)
    (hc : Stands w c) (hkeeps : w.bus.nextId = 1 → ¬ Stale w c.resumed)
    (e : LiveEvent δ) (he : e.id = w.bus.nextId) :
    Stands
      { w with
        bus := w.bus.publish e
        published := w.published ++ [e] }
      { c with stream := c.stream.put e } := by
  have hdel := delivers_put c e
  have htold : ({ c with stream := c.stream.put e } : Conn δ).toldGap
      ↔ c.toldGap := by
    refine toldGap_of_delivers hdel fun last hlast => ?_
    split at hlast <;> simp at hlast
  rcases hc with ⟨hgap, hnext⟩ | ⟨hstale, -, hone, -, -⟩
    | ⟨hfresh, heq, hcmp⟩
  · refine .inl ⟨htold.2 hgap, fun hstale => ?_⟩
    exact Nat.lt_succ_of_lt (hnext hstale)
  · exact absurd hstale (hkeeps hone)
  · refine .inr (.inr ⟨hfresh, ?_, fun l hl => ?_⟩)
    · have hlet : Stream.fresh (compared c.stream) e = true := by
        cases hl : compared c.stream with
        | none => rfl
        | some l =>
          have := hcmp l hl
          simp only [Stream.fresh, Bool.not_eq_true', decide_eq_false_iff_not]
          omega
      rw [hdel, if_pos hlet, events_append, heq,
        List.drop_append_of_le_length h.begins_le]
      rfl
    · exact Nat.lt_succ_of_lt (hcmp l hl)

theorem stands_dropped (h : Sound w)
    (hc : Stands w c) (hone : w.bus.nextId = 1) (hstale : Stale w c.resumed)
    (e : LiveEvent δ) (he : e.id = 1) :
    ¬ (({ c with stream := c.stream.put e } : Conn δ).toldGap
      ∨ events ({ c with stream := c.stream.put e } : Conn δ).delivers
        = (w.published ++ [e]).drop w.begins) := by
  have hdel := delivers_put c e
  rcases hc with ⟨-, hnext⟩ | ⟨-, htold, -, heq, l, hl, hpos⟩ | ⟨hfresh, -⟩
  · exact absurd (hnext hstale) (by omega)
  · have hdrop : Stream.fresh (compared c.stream) e = false := by
      rw [hl]
      simp only [Stream.fresh, Bool.not_eq_false', decide_eq_true_eq]
      omega
    rw [hdrop] at hdel
    simp only [Bool.false_eq_true, if_false, List.append_nil] at hdel
    rintro (⟨last, hgap⟩ | hall)
    · exact htold ⟨last, hdel ▸ hgap⟩
    · rw [hdel, heq, List.drop_append_of_le_length h.begins_le] at hall
      exact absurd (congrArg List.length hall) (by simp)
  · exact absurd hstale hfresh

theorem Sound.publish (h : Sound w) (kind : String) (data : δ)
    (now : Timestamp)
    (hkeeps : ∀ c, w.conn = some c → w.bus.nextId = 1 →
      ¬ Stale w c.resumed) :
    let e := w.bus.event kind data now w.published.length
    Sound { w with
      bus := w.bus.publish e
      published := w.published ++ [e]
      conn := w.conn.map fun c => { c with stream := c.stream.put e } } := by
  intro e
  have hmem : ∀ x, x ∈ w.published → x ∈ w.published ++ [e] :=
    fun _ => List.mem_append_left _
  have hlen := h.own_length
  have hown := own_publish h e
  refine
    { counted := ?_, started_le := ?_, nths := ?_, ids := ?_, buffer := ?_
      pos := ?_, saw := fun x hx => hmem x (h.saw x hx), begins_le := ?_
      given := ?_, stands := ?_ }
  · have := h.counted
    simp only [LiveBus.publish, List.length_append, List.length_singleton]
    omega
  · have := h.started_le
    simp only [List.length_append]
    omega
  · exact h.nths.concat (by simp [e, LiveBus.event])
  · simp only [World.own] at hown ⊢
    rw [hown]
    exact h.ids.concat (by simp only [e, LiveBus.event]; omega)
  · simp only [World.own] at hown ⊢
    rw [hown]
    simp only [LiveBus.publish]
    rw [h.buffer]
    exact keep_newest _ e _
  · intro x hx
    rcases List.mem_append.1 hx with hx | hx
    · exact h.pos x hx
    · rw [List.mem_singleton.1 hx]
      simp only [e, LiveBus.event]
      omega
  · have := h.begins_le
    simp only [List.length_append]
    omega
  · intro c' hc' x hx
    obtain ⟨c, hc, rfl⟩ := Option.map_eq_some_iff.1 hc'
    rw [delivers_put] at hx
    rcases List.mem_append.1 hx with hx | hx
    · exact hmem x (h.given c hc x hx)
    · split at hx
      case isTrue =>
        cases List.mem_singleton.1 hx
        exact List.mem_append_right _ (List.mem_singleton.2 rfl)
      case isFalse => exact absurd hx List.not_mem_nil
  · intro c' hc'
    obtain ⟨c, hc, rfl⟩ := Option.map_eq_some_iff.1 hc'
    exact (h.stands c hc).publish h (hkeeps c hc) e rfl

-- ====== connecting

theorem since_spec (h : Sound w) (l : Nat) :
    ((w.bus.since (some l)).2 = true
        ↔ w.bus.nextId ≤ l + w.bus.bufferSize + 1)
      ∧ ((w.bus.since (some l)).2 = true →
          (w.bus.since (some l)).1 = w.own.drop l)
      ∧ ((w.bus.since (some l)).2 = false → (w.bus.since (some l)).1 = []) := by
  have hlen := h.own_length
  have hbuf := h.buffer
  have hnum := h.ids.drop (w.own.length - w.bus.bufferSize)
  rw [← hbuf] at hnum
  cases hb : w.bus.buffer with
  | nil =>
    rw [hb] at hbuf
    have hle := List.drop_eq_nil_iff.1 hbuf.symm
    simp only [LiveBus.since, hb, decide_eq_true_eq]
    refine ⟨by omega, fun hl => ?_, fun _ => trivial⟩
    exact (List.drop_eq_nil_iff.2 (by omega)).symm
  | cons first rest =>
    have hfirst := hnum.head (by rw [hb]; rfl)
    have hne : 0 < w.bus.buffer.length := by rw [hb]; exact Nat.succ_pos _
    rw [hbuf, List.length_drop] at hne
    simp only [LiveBus.since, hb]
    rw [← hb]
    split
    case isTrue hlt =>
      refine ⟨?_, fun hf => absurd hf Bool.false_ne_true, fun _ => rfl⟩
      simp only [Bool.false_eq_true, false_iff]
      omega
    case isFalse hge =>
      refine ⟨by simp only [true_iff]; omega, fun _ => ?_, fun hf =>
        absurd hf (by simp)⟩
      simp only
      rw [hnum.filter, hbuf, List.drop_drop]
      congr 1
      omega

theorem delivers_start (bus : LiveBus δ) (saw : Option (LiveEvent δ)) :
    events (Conn.opened bus saw).delivers
        = (bus.since (saw.map LiveEvent.id)).1
      ∧ ((Conn.opened bus saw).toldGap
          ↔ (bus.since (saw.map LiveEvent.id)).2 = false)
      ∧ (∀ e, Frame.event e ∈ (Conn.opened bus saw).delivers →
          e ∈ (bus.since (saw.map LiveEvent.id)).1) := by
  have hdel : (Conn.opened bus saw).delivers
      = (if !(bus.since (saw.map LiveEvent.id)).2
          then [.gap (saw.map LiveEvent.id)] else [])
        ++ (bus.since (saw.map LiveEvent.id)).1.map .event := by
    simp [Conn.opened, Conn.delivers, outstanding, Stream.start]
  unfold Conn.toldGap
  rw [hdel]
  cases (bus.since (saw.map LiveEvent.id)).2 with
  | true => exact ⟨events_event _, by simp, by simp⟩
  | false => exact ⟨events_event _, by simp, by simp⟩

theorem Sound.own_id (h : Sound w)
    (he : e ∈ w.published) (hown : w.started ≤ e.nth) :
    w.started + e.id = e.nth + 1 ∧ e ∈ w.own := by
  have hmem : e ∈ w.own := h.nths.mem_drop he (by omega)
  have hshift := (h.nths.drop w.started).shift h.ids hmem
  exact ⟨by omega, hmem⟩

theorem Stands.connect_own (h : Sound w)
    (he : e ∈ w.published) (hown : w.started ≤ e.nth) :
    Stands { w with begins := after w.published (some e) }
      (.opened w.bus (some e)) := by
  obtain ⟨hid, hmem⟩ := h.own_id he hown
  obtain ⟨-, hall, hnone⟩ := since_spec h e.id
  obtain ⟨hev, htold, -⟩ := delivers_start w.bus (some e)
  simp only [Option.map_some] at hev htold
  have hfresh : ¬ Stale { w with begins := after w.published (some e) }
      (some e) := by
    rintro ⟨e', he', hlt⟩
    cases he'
    exact absurd hlt (Nat.not_lt.2 hown)
  cases hres : (w.bus.since (some e.id)).2 with
  | false =>
    exact .inl ⟨htold.2 hres, fun hstale => absurd hstale hfresh⟩
  | true =>
    refine .inr (.inr ⟨hfresh, ?_, fun l hl => ?_⟩)
    · rw [hev, hall hres, World.own, List.drop_drop, hid]
      rfl
    · have hmissed := hall hres
      have hlen := h.own_length
      simp only [compared, Conn.opened, Stream.start, Option.map_some] at hl
      rw [hmissed] at hl
      cases hlast : (w.own.drop e.id).getLast? with
      | none =>
        rw [hlast] at hl
        have := h.ids.range hmem
        cases hl
        show e.id < w.bus.nextId
        omega
      | some x =>
        rw [hlast] at hl
        have := h.ids.range
          (List.mem_of_mem_drop (List.mem_of_getLast? hlast))
        cases hl
        show x.id < w.bus.nextId
        omega

theorem Stands.connect_stale (h : Sound w)
    (he : e ∈ w.published) (hstale : e.nth < w.started)
    (hkeeps : w.published.length = e.nth + 1
      ∨ e.id + w.bus.bufferSize + 1 < w.bus.nextId) :
    Stands { w with begins := after w.published (some e) }
      (.opened w.bus (some e)) := by
  obtain ⟨hheld, hall, -⟩ := since_spec h e.id
  obtain ⟨hev, htold, -⟩ := delivers_start w.bus (some e)
  simp only [Option.map_some] at hev htold
  have hcount := h.counted
  have hle := h.started_le
  have hlen := h.own_length
  rcases hkeeps with hcaught | hpast
  · have hone : w.bus.nextId = 1 := by omega
    have hres := hheld.2 (by omega)
    have hown : w.own = [] := List.eq_nil_of_length_eq_zero (by omega)
    rw [hown, List.drop_nil] at hall
    refine .inr (.inl ⟨⟨e, rfl, hstale⟩, fun hgap => ?_, hone, ?_, e.id, ?_,
      h.pos e he⟩)
    · exact absurd (htold.1 hgap) (by simp [hres])
    · rw [hev, hall hres]
      exact (List.drop_eq_nil_iff.2 (by simp only [after]; omega)).symm
    · simp [compared, Conn.opened, Stream.start, hall hres]
  · refine .inl ⟨htold.2 ?_, fun _ => by show 1 < w.bus.nextId; omega⟩
    cases hres : (w.bus.since (some e.id)).2 with
    | false => rfl
    | true => exact absurd (hheld.1 hres) (by omega)

/-- Connecting with an id of an earlier process, where something was
published since and the new process still has all it published past that
id: what was published since is skipped. -/
theorem not_lossless_stale (h : Sound w)
    (he : e ∈ w.published) (hstale : e.nth < w.started)
    (hmore : w.published.length ≠ e.nth + 1)
    (hheld : w.bus.nextId ≤ e.id + w.bus.bufferSize + 1) :
    ¬ ((Conn.opened w.bus (some e)).toldGap
      ∨ events (Conn.opened w.bus (some e)).delivers
        = w.published.drop (e.nth + 1)) := by
  obtain ⟨hres, hall, -⟩ := since_spec h e.id
  obtain ⟨hev, htold, -⟩ := delivers_start w.bus (some e)
  simp only [Option.map_some] at hev htold
  have hpos := h.pos e he
  have hcount := h.counted
  have hle := h.started_le
  have hlen := h.own_length
  rw [htold, hev, hall (hres.2 hheld), hres.2 hheld]
  rintro (hf | hall)
  · exact absurd hf (by simp)
  · have hlengths := congrArg List.length hall
    simp only [List.length_drop] at hlengths
    omega

theorem Sound.connect (h : Sound w)
    (hkeeps : ∀ e, w.saw = some e → e.nth < w.started →
      w.published.length = e.nth + 1
        ∨ e.id + w.bus.bufferSize + 1 < w.bus.nextId) :
    Sound { w with
      conn := some (.opened w.bus w.saw)
      begins := after w.published w.saw } := by
  have hstands : Stands { w with begins := after w.published w.saw }
      (.opened w.bus w.saw) := by
    cases hsaw : w.saw with
    | none =>
      refine .inr (.inr ⟨?_, ?_, fun l hl => by cases hl⟩)
      · rintro ⟨e, he, -⟩
        cases he
      · exact (List.drop_eq_nil_iff.2 (Nat.le_refl _)).symm
    | some e =>
      by_cases hown : w.started ≤ e.nth
      · exact .connect_own h (h.saw e hsaw) hown
      · exact .connect_stale h (h.saw e hsaw) (Nat.not_le.1 hown)
          (hkeeps e hsaw (Nat.not_le.1 hown))
  have hbegins : after w.published w.saw ≤ w.published.length := by
    cases hsaw : w.saw with
    | none => exact Nat.le_refl _
    | some e =>
      have := h.nths.range (h.saw e hsaw)
      simp only [after]
      omega
  have hheld : ∀ x ∈ (w.bus.since (w.saw.map LiveEvent.id)).1,
      x ∈ w.published := by
    intro x hx
    cases hsaw : w.saw with
    | none =>
      rw [hsaw] at hx
      exact absurd hx List.not_mem_nil
    | some e =>
      rw [hsaw] at hx
      obtain ⟨-, hall, hnone⟩ := since_spec h e.id
      simp only [Option.map_some] at hx
      cases hres : (w.bus.since (some e.id)).2 with
      | false => rw [hnone hres] at hx; exact absurd hx List.not_mem_nil
      | true =>
        rw [hall hres] at hx
        exact List.mem_of_mem_drop (List.mem_of_mem_drop hx)
  refine { h with begins_le := hbegins, given := ?_, stands := ?_ }
  · intro c hc x hx
    cases hc
    exact hheld x ((delivers_start w.bus w.saw).2.2 x hx)
  · intro c hc
    cases hc
    exact hstands

-- ========= reading

theorem Sound.read (h : Sound w)
    (hc : w.conn = some c) :
    Sound { w with
      saw := seen w.saw c.stream.next.1
      conn := some { c with
        stream := c.stream.next.2
        received := c.received ++ [c.stream.next.1] } } := by
  have hdel := delivers_read c
  simp only at hdel
  generalize hc' : ({ c with
    stream := c.stream.next.2
    received := c.received ++ [c.stream.next.1] } : Conn δ) = c' at hdel ⊢
  have hmore : ∃ more, c'.delivers = c.delivers ++ more
      ∧ ∀ f ∈ more, f = (.keepAlive : Frame δ) := by
    rcases hdel with hsame | hbeat
    · exact ⟨[], by simpa using hsame, fun f hf => absurd hf List.not_mem_nil⟩
    · exact ⟨_, hbeat, fun f hf => List.mem_singleton.1 hf⟩
  obtain ⟨more, hmore, hbeats⟩ := hmore
  have hresumed : c'.resumed = c.resumed := by rw [← hc']
  have hcompared : compared c'.stream = compared c.stream := by
    rw [← hc']
    exact (next_spec c.stream).1
  have htold : c'.toldGap ↔ c.toldGap :=
    toldGap_of_delivers hmore fun last hl => by cases hbeats _ hl
  have hevents : events c'.delivers = events c.delivers := by
    rw [hmore, events_append]
    have hnone : events more = [] := by
      refine List.filterMap_eq_nil_iff.2 fun f hf => ?_
      rw [hbeats f hf]
    rw [hnone, List.append_nil]
  have hgiven : ∀ e, Frame.event e ∈ c'.delivers → e ∈ w.published := by
    intro e he
    rw [hmore] at he
    rcases List.mem_append.1 he with he | he
    · exact h.given c hc e he
    · cases hbeats _ he
  refine { h with saw := ?_, given := ?_, stands := ?_ }
  · intro e he
    cases hf : c.stream.next.1 with
    | event x =>
      rw [hf] at he
      cases he
      refine hgiven e ?_
      rw [← hc']
      exact List.mem_append_left _ (List.mem_append_right _ (by simp [hf]))
    | gap last =>
      rw [hf] at he
      exact h.saw e he
    | keepAlive =>
      rw [hf] at he
      exact h.saw e he
  · intro _ hx
    cases hx
    exact hgiven
  · intro _ hx
    cases hx
    have hst := h.stands c hc
    unfold Stands at hst ⊢
    rw [htold, hevents, hcompared, hresumed]
    exact hst

-- ====== the whole run

theorem Sound.step {w w' : World δ} {a : Action δ} {es : List Unit}
    (h : Sound w) (hs : machine.step w a = some (w', es)) (hkeeps : Keeps w a) :
    Sound w' := by
  cases a with
  | publish kind data now =>
    cases hs
    exact h.publish kind data now hkeeps
  | connect =>
    simp only [machine, LiveStream.step] at hs
    split at hs
    case h_1 => cases hs
    case h_2 =>
      cases hs
      exact h.connect hkeeps
  | read =>
    simp only [machine, LiveStream.step] at hs
    split at hs
    case h_1 => cases hs
    case h_2 c hc =>
      cases hs
      exact h.read hc
  | disconnect =>
    simp only [machine, LiveStream.step] at hs
    split at hs
    case h_1 => cases hs
    case h_2 =>
      cases hs
      exact { h with
        given := fun _ hx => by cases hx
        stands := fun _ hx => by cases hx }
  | restart =>
    cases hs
    have hown : w.published.drop w.published.length = [] :=
      List.drop_eq_nil_iff.2 (Nat.le_refl _)
    refine { h with
      counted := rfl
      started_le := Nat.le_refl _
      ids := ?_
      buffer := ?_
      given := fun _ hx => by cases hx
      stands := fun _ hx => by cases hx }
    · simp only [World.own, hown]
      trivial
    · simp only [World.own, hown, List.drop_nil]
      rfl

theorem keeps_of_lossless {w' : World δ} {a : Action δ} {es : List Unit}
    (h : Sound w) (hs : machine.step w a = some (w', es))
    (hP : Lossless w') : Keeps w a := by
  cases a with
  | publish kind data now =>
    cases hs
    intro c hc hone hstale
    refine stands_dropped h (h.stands c hc) hone hstale
      (w.bus.event kind data now w.published.length) hone ?_
    exact hP { c with stream := c.stream.put _ } (by simp only [hc]; rfl)
  | connect =>
    simp only [machine, LiveStream.step] at hs
    split at hs
    case h_1 => cases hs
    case h_2 =>
      cases hs
      intro e hsaw hstale
      by_contra hnot
      push Not at hnot
      refine not_lossless_stale h (h.saw e hsaw) hstale hnot.1
        (by omega) ?_
      have hopen := hP _ rfl
      simpa only [hsaw, after] using hopen
  | read => trivial
  | disconnect => trivial
  | restart => trivial

/-- The live stream is lossless, or tells the client of a gap, throughout a
run exactly when no step of it resumes across a restart untold: no client
connects with an id of an earlier process that is behind everything
published and within reach of the new process's numbers, and no process
publishes its first event into a connection resumed with an id of an
earlier one. -/
theorem lossless_iff (bufferSize : Nat) (acts : List (Action δ)) :
    machine.Always Lossless (world bufferSize) acts
      ↔ machine.EveryStep Keeps (world bufferSize) acts :=
  Machine.always_iff_everyStep Sound (fun _ => Sound.lossless)
    (fun _ _ _ _ h hs hkeeps => h.step hs hkeeps)
    (fun _ _ _ _ h hs hP => keeps_of_lossless h hs hP)
    (sound_world bufferSize)

-- ------ an event dropped after a restart

/-- A client reads the first event, the server restarts, the client
reconnects and the new process publishes its first event. -/
def restarted : List (Action Unit) :=
  [.connect, .publish "memory" () 0, .read, .restart, .connect,
    .publish "memory" () 1]

/-- The new process's event has the number of the one the client has, so it
is dropped, and no gap is told. -/
theorem not_lossless :
    ¬ ∀ (bufferSize : Nat) (acts : List (Action Unit)),
      machine.Always Lossless (world bufferSize) acts := by
  intro hall
  have hend := @Machine.Always.last _ _ _ machine Lossless _ _ restarted []
    (hall 256 restarted) rfl
  rcases hend _ rfl with ⟨last, hgap⟩ | heq
  · exact absurd hgap List.not_mem_nil
  · exact absurd heq (by decide)

end LiveStream

end MemoryOS
