/-
  Traccia Runtime formalization — the event streams of the HTTP interface (`api/app.py`:
  `stream_events`, `stream_conversation_events`).

  A client follows the stream of a run or of a conversation.  Its connection can break at any
  time, with what is still on the way; the client connects again, to any process, with the number
  of the last event it got.

  * `EventStream`: the rows and the subscription of the connection, its generator, what is on the
    way and what the client has got;
  * `EventStream.step`: what the bus, the generator, the client and the network do.

  The texts of the events and the comments that keep a connection alive are left out.
-/
import TracciaRuntime.Events.Subscribe
import TracciaRuntime.Machine.Moves

namespace TracciaRuntime

variable {δ : Type}

/-- How far the connection is. -/
inductive Connection where
  | closed
  /-- the generator of the response runs -/
  | streaming
  /-- the generator has returned -/
  | returned
  deriving DecidableEq

structure EventStream (δ : Type) where
  /-- the rows, and the subscription of the connection -/
  subscription : Subscription δ
  connection : Connection := .closed
  /-- how many events of the subscription the generator has gone through -/
  handled : Nat := 0
  /-- `delivered` -/
  delivered : Nat := 0
  /-- what the client still gets if the connection holds -/
  wire : List (StreamEvent δ) := []
  received : List (StreamEvent δ) := []

inductive EventStreamStep (δ : Type) where
  /-- a step of the bus; the subscriber makes one only for the generator -/
  | bus (a : SubscriptionStep δ)
  /-- the generator goes through the next event -/
  | handle
  | receive
  | disconnect
  /-- to a process that has yet to give these events to its queues -/
  | connect (sending : List (StreamEvent δ))

/-- `event.type in {"run.completed", "run.failed", "run.cancelled"}`; the stream of a conversation
    has no last event. -/
def ReaderKind.ends (kind : ReaderKind) (type : δ → String) (e : StreamEvent δ) : Bool :=
  match kind with
  | .run => type e.data ∈ ["run.completed", "run.failed", "run.cancelled"]
  | .conversation => false

/-- The number of the last event, after `start`. -/
def lastSequence (start : Nat) (l : List (StreamEvent δ)) : Nat :=
  (l.getLast?.map (·.sequence)).getD start

namespace EventStream

/-- The client before its first connection, which it makes with `start` as `Last-Event-ID`. -/
def initial (start maxsize : Nat) : EventStream δ :=
  { subscription := .initial start maxsize }

variable (s : EventStream δ)

/-- `if event.sequence <= delivered: continue`, else the event is sent. -/
def handle (kind : ReaderKind) (type : δ → String) (e : StreamEvent δ) : EventStream δ :=
  if e.sequence ≤ s.delivered then { s with handled := s.handled + 1 }
  else { s with
    handled := s.handled + 1
    delivered := e.sequence
    wire := s.wire ++ [e]
    connection := if kind.ends type e then .returned else .streaming }

/-- A new request: its generator subscribes after `last_id`. -/
def connect (start maxsize : Nat) (sending : List (StreamEvent δ)) : EventStream δ :=
  let last := lastSequence start s.received
  { s with
    subscription := { Subscription.initial last maxsize with
      rows := s.subscription.rows
      sending := sending }
    connection := .streaming
    handled := 0
    delivered := last }

/-- The connection is gone, and so is the queue of the subscriber. -/
def disconnect : EventStream δ :=
  { s with
    subscription := { s.subscription with phase := .outside }
    connection := .closed
    wire := [] }

variable [DecidableEq δ]

def step (kind : ReaderKind) (type : δ → String) (start maxsize : Nat) (s : EventStream δ) :
    EventStreamStep δ → Option (EventStream δ)
  | .bus a =>
    if a.reads = true ∧ s.connection ≠ .streaming then none
    else (s.subscription.step kind a).map fun σ => { s with subscription := σ }
  | .handle =>
    match s.connection, s.subscription.yielded[s.handled]? with
    | .streaming, some e => some (s.handle kind type e)
    | _, _ => none
  | .receive =>
    match s.wire with
    | e :: wire => some { s with wire, received := s.received ++ [e] }
    | [] => none
  | .disconnect => if s.connection = .closed then none else some s.disconnect
  | .connect sending =>
    if s.connection = .closed ∧ ∀ e ∈ sending, e ∈ s.subscription.rows then
      some (s.connect start maxsize sending)
    else none

end EventStream

end TracciaRuntime
