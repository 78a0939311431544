/-
Telling an open page what happened (`application/live.py`).

`LiveBus` numbers what it is given, keeps the newest `buffer_size` events
and hands each to every open stream. `stream` is the body one client
reads: a gap frame if what it asked for is no longer held, the buffered
events it missed, then the queue it subscribed before it looked. All of
it lives in the process: a restart loses the buffer and numbers from one
again.

Streams share nothing but the bus, so `LiveStream.World` is the world of
one client: the bus, the stream it has open, if any, and the last event it
was given.
-/
import MemoryOS.Domain.Values
import MemoryOS.Lib.Machine

namespace MemoryOS

open Lib

variable {δ : Type}

/-- `LiveEvent`. -/
structure LiveEvent (δ : Type) where
  id : Nat
  kind : String
  data : δ
  at_ : Timestamp
  /-- Not in the source, and nothing the bus does depends on it: how many
  events had been published before this one, by this process and those
  before it. -/
  nth : Nat
deriving DecidableEq, Repr

/-- `LiveBus`; the queues it feeds are in the streams that read them. -/
structure LiveBus (δ : Type) where
  nextId : Nat
  buffer : List (LiveEvent δ)
  bufferSize : Nat
deriving DecidableEq, Repr

namespace LiveBus

/-- `LiveBus.__init__`. -/
def init (bufferSize : Nat) : LiveBus δ where
  nextId := 1
  buffer := []
  bufferSize := bufferSize

/-- The event `publish` makes. -/
def event (bus : LiveBus δ) (kind : String) (data : δ) (now : Timestamp)
    (nth : Nat) : LiveEvent δ where
  id := bus.nextId
  kind := kind
  data := data
  at_ := now
  nth := nth

/-- `LiveBus.publish`, on the bus: the oldest events over the size go. -/
def publish (bus : LiveBus δ) (e : LiveEvent δ) : LiveBus δ :=
  let buffer := bus.buffer ++ [e]
  { bus with
    nextId := bus.nextId + 1
    buffer := buffer.drop (buffer.length - bus.bufferSize) }

/-- `LiveBus.since`: the buffered events after `lastId`, and whether that
was answerable. -/
def since (bus : LiveBus δ) (lastId : Option Nat) : List (LiveEvent δ) × Bool :=
  match lastId with
  | none => ([], true)
  | some last =>
    match bus.buffer with
    | [] => ([], decide ((bus.nextId : Int) - 1 ≤ last))
    | first :: _ =>
      if (last : Int) < first.id - 1 then ([], false)
      else (bus.buffer.filter fun e => decide (last < e.id), true)

end LiveBus

/-- One SSE frame. -/
inductive Frame (δ : Type)
  /-- `event: gap`, with the id the client asked from. -/
  | gap (last : Option Nat)
  /-- `LiveEvent.render`. -/
  | event (e : LiveEvent δ)
  /-- `: keep-alive`. -/
  | keepAlive
deriving DecidableEq, Repr

/-- The locals of a `stream` that is suspended between two frames. -/
structure Stream (δ : Type) where
  /-- `last_event_id`. -/
  last : Option Nat
  /-- The gap frame is still to be sent. -/
  gapDue : Bool
  /-- What is left of `missed`. -/
  missed : List (LiveEvent δ)
  queue : List (LiveEvent δ)
deriving DecidableEq, Repr

namespace Stream

/-- The start of `stream`: `subscribe`, then `since`, with nothing
between them. -/
def start (bus : LiveBus δ) (lastEventId : Option Nat) : Stream δ where
  last := lastEventId
  gapDue := !(bus.since lastEventId).2
  missed := (bus.since lastEventId).1
  queue := []

/-- The test of the live loop: the event was not sent from the buffer. -/
def fresh (last : Option Nat) (e : LiveEvent δ) : Bool :=
  match last with
  | none => true
  | some last => !decide (e.id ≤ last)

/-- The live loop up to its next frame; an empty queue is a heartbeat. -/
def live (last : Option Nat) :
    List (LiveEvent δ) → Frame δ × List (LiveEvent δ)
  | [] => (.keepAlive, [])
  | e :: queue => if fresh last e then (.event e, queue) else live last queue

/-- `stream` up to its next frame. -/
def next (s : Stream δ) : Frame δ × Stream δ :=
  if s.gapDue then (.gap s.last, { s with gapDue := false })
  else
    match s.missed with
    | e :: rest =>
      -- the assignment that follows the `yield`
      (.event e, { s with
        missed := rest
        last := some e.id })
    | [] =>
      ((live s.last s.queue).1, { s with queue := (live s.last s.queue).2 })

/-- `put_nowait` into the queue of an open stream. -/
def put (s : Stream δ) (e : LiveEvent δ) : Stream δ :=
  { s with queue := s.queue ++ [e] }

end Stream

namespace LiveStream

/-- A connection: its stream, and what the client was given over it. -/
structure Conn (δ : Type) where
  /-- The last event the client had been given when it connected. -/
  resumed : Option (LiveEvent δ)
  stream : Stream δ
  received : List (Frame δ)
deriving DecidableEq, Repr

/-- A client that was given `saw` last connects with its id. -/
def Conn.opened (bus : LiveBus δ) (saw : Option (LiveEvent δ)) : Conn δ where
  resumed := saw
  stream := .start bus (saw.map LiveEvent.id)
  received := []

/-- The bus of the running process and one client of it. -/
structure World (δ : Type) where
  bus : LiveBus δ
  /-- Everything published so far, by any process. -/
  published : List (LiveEvent δ)
  /-- How much of it had been published when this process started. -/
  started : Nat
  /-- The last event the client was given. -/
  saw : Option (LiveEvent δ)
  conn : Option (Conn δ)
  /-- Where in `published` the client's connection begins. -/
  begins : Nat
deriving DecidableEq, Repr

/-- What can happen next. -/
inductive Action (δ : Type)
  /-- A notification reaches the bus. -/
  | publish (kind : String) (data : δ) (now : Timestamp)
  /-- The client connects, with the id of the last event it was given. -/
  | connect
  /-- It reads one frame. -/
  | read
  | disconnect
  /-- The server process stops and another one starts. -/
  | restart
deriving DecidableEq, Repr

/-- The last event the client was given once it has read a frame. -/
def seen (saw : Option (LiveEvent δ)) : Frame δ → Option (LiveEvent δ)
  | .event e => some e
  | .gap _ => saw
  | .keepAlive => saw

/-- What lies after the last event the client was given; a client that was
given none asks for nothing that is past. -/
def after (published : List (LiveEvent δ)) : Option (LiveEvent δ) → Nat
  | none => published.length
  | some e => e.nth + 1

/-- One step of the world. -/
def step (w : World δ) : Action δ → Option (World δ × List Unit)
  | .publish kind data now =>
    let e := w.bus.event kind data now w.published.length
    some ({ w with
      bus := w.bus.publish e
      published := w.published ++ [e]
      conn := w.conn.map fun c => { c with stream := c.stream.put e } }, [])
  | .connect =>
    match w.conn with
    | some _ => none
    | none =>
      some ({ w with
        conn := some (.opened w.bus w.saw)
        begins := after w.published w.saw }, [])
  | .read =>
    match w.conn with
    | none => none
    | some c =>
      some ({ w with
        saw := seen w.saw c.stream.next.1
        conn := some { c with
          stream := c.stream.next.2
          received := c.received ++ [c.stream.next.1] } }, [])
  | .disconnect =>
    match w.conn with
    | none => none
    | some _ => some ({ w with conn := none }, [])
  | .restart =>
    some ({ w with
      bus := .init w.bus.bufferSize
      started := w.published.length
      conn := none }, [])

/-- A bus and a client of it. -/
def machine : Machine (World δ) (Action δ) Unit where
  step := step

/-- A first process that has published nothing, and a client that has not
connected yet. -/
def world (bufferSize : Nat) : World δ where
  bus := .init bufferSize
  published := []
  started := 0
  saw := none
  conn := none
  begins := 0

-- ====== statement vocabulary

/-- The frames a stream sends before its next heartbeat if nothing more is
published. -/
def outstanding (s : Stream δ) : List (Frame δ) :=
  (if s.gapDue then [.gap s.last] else [])
    ++ s.missed.map .event
    ++ (s.queue.filter (Stream.fresh
        ((s.missed.getLast?.map LiveEvent.id).or s.last))).map .event

/-- Everything a connection gives its client: what was read, and what is
outstanding. -/
def Conn.delivers (c : Conn δ) : List (Frame δ) :=
  c.received ++ outstanding c.stream

/-- The events among frames. -/
def events (frames : List (Frame δ)) : List (LiveEvent δ) :=
  frames.filterMap fun f =>
    match f with
    | .event e => some e
    | .gap _ => none
    | .keepAlive => none

/-- The client is told that there is a gap. -/
def Conn.toldGap (c : Conn δ) : Prop :=
  ∃ last, Frame.gap last ∈ c.delivers

/-- An open connection gives its client exactly the events published after
the last one it had been given, each once and in order, or tells it that
there is a gap. -/
def Lossless (w : World δ) : Prop :=
  ∀ c, w.conn = some c →
    c.toldGap ∨ events c.delivers = w.published.drop w.begins

/-- The event was published by a process before the running one. -/
def Stale (w : World δ) (saw : Option (LiveEvent δ)) : Prop :=
  ∃ e, saw = some e ∧ e.nth < w.started

/-- A step on which nothing is skipped. A client that connects with an id
of an earlier process was given everything there was, or the new process
has evicted the event after the one of its own that has that id; and a
process's first event is not published into a connection that was resumed
with such an id. -/
def Keeps (w : World δ) : Action δ → Prop
  | .connect => ∀ e, w.saw = some e → e.nth < w.started →
      w.published.length = e.nth + 1
        ∨ e.id + w.bus.bufferSize + 1 < w.bus.nextId
  | .publish _ _ _ => ∀ c, w.conn = some c → w.bus.nextId = 1 →
      ¬ Stale w c.resumed
  | _ => True

end LiveStream

end MemoryOS
