/-
  Traccia Runtime formalization — subscriptions on the PostgreSQL buses
  (`PostgresEventBus.subscribe`, `PostgresConversationEventBus.subscribe`).

  One subscriber of one stream, next to the publications of its own and of other
  processes.
-/
import TracciaRuntime.Events.Bus

namespace TracciaRuntime

variable {δ : Type}

/-- The two buses with a durable history. -/
inductive ReaderKind where
  | run
  | conversation
  deriving DecidableEq

/-- How far a subscriber is. -/
inductive ReaderPhase (δ : Type) where
  | outside
  /-- its queue is registered, the backlog is not read yet -/
  | registered
  /-- the rows of the last `history` that are still to be yielded, then the queue -/
  | reading (rest : List (StreamEvent δ))
  deriving DecidableEq

/-- The stream and one subscriber. -/
structure Subscription (δ : Type) where
  /-- the rows of the stream, in the order of their commits -/
  rows : List (StreamEvent δ) := []
  /-- events of this process that are committed and not yet given to the queues -/
  sending : List (StreamEvent δ) := []
  queue : EventQueue δ := {}
  phase : ReaderPhase δ := .outside
  /-- `cursor` of the run bus; the conversation bus only has `after` -/
  cursor : Nat
  yielded : List (StreamEvent δ) := []
  deriving DecidableEq

/-- What can happen next. -/
inductive SubscriptionStep (δ : Type) where
  /-- an `INSERT`, by a publication of this process that will get to the queues (`here`), or by
      another one -/
  | commit (e : StreamEvent δ) (here : Bool)
  /-- a publication gives its event to the queues -/
  | send (i : Nat)
  | register
  /-- `history`, for the backlog or after a timeout -/
  | read
  /-- the next row of `history` -/
  | next
  /-- the next event of the queue -/
  | take
  | idle
  deriving DecidableEq

/-- The steps of the subscriber. -/
def SubscriptionStep.reads : SubscriptionStep δ → Bool
  | register | read | next | take => true
  | _ => false

namespace Subscription

/-- The subscriber before it is registered. -/
def initial (after maxsize : Nat) : Subscription δ := { queue := { maxsize }, cursor := after }

/-- The queue gets the event if the subscriber is registered. -/
def handOver (σ : Subscription δ) (e : StreamEvent δ) : EventQueue δ :=
  if σ.phase matches .outside then σ.queue else σ.queue.offer e

/-- The subscriber yields an event. -/
def yield (σ : Subscription δ) (e : StreamEvent δ) : Subscription δ :=
  { σ with yielded := σ.yielded ++ [e] }

/-- `history(run_id, cursor)`; the conversation bus reads it once. -/
def readRows (kind : ReaderKind) (σ : Subscription δ) : Option (Subscription δ) :=
  match kind, σ.phase with
  | _, .registered | .run, .reading [] =>
    some { σ with phase := .reading (Stream.after σ.rows σ.cursor) }
  | _, _ => none

/-- `cursor = max(cursor, event.sequence)` on the run bus. -/
def advance (kind : ReaderKind) (cursor sequence : Nat) : Nat :=
  match kind with
  | .run => max cursor sequence
  | .conversation => cursor

/-- The next row of `history`. -/
def nextRow (kind : ReaderKind) (σ : Subscription δ) : Option (Subscription δ) :=
  match σ.phase with
  | .reading (e :: rest) =>
    some ({ σ with phase := .reading rest, cursor := advance kind σ.cursor e.sequence }.yield e)
  | _ => none

/-- An event out of the queue: the run bus drops what its cursor has passed. -/
def receive (kind : ReaderKind) (σ : Subscription δ) (e : StreamEvent δ) : Subscription δ :=
  match kind with
  | .run => if σ.cursor < e.sequence then { σ with cursor := e.sequence }.yield e else σ
  | .conversation => σ.yield e

/-- The next event of the queue. -/
def takeEvent (kind : ReaderKind) (σ : Subscription δ) : Option (Subscription δ) :=
  match σ.phase, σ.queue.items with
  | .reading [], e :: items => some ({ σ with queue := { σ.queue with items } }.receive kind e)
  | _, _ => none

/-- One step; publications commit with increasing sequences. -/
def step (kind : ReaderKind) (σ : Subscription δ) : SubscriptionStep δ → Option (Subscription δ)
  | .commit e here =>
    if ∀ r ∈ σ.rows, r.sequence < e.sequence then
      some { σ with
        rows := σ.rows ++ [e]
        sending := if here then σ.sending ++ [e] else σ.sending }
    else none
  | .send i =>
    match σ.sending[i]? with
    | some e => some { σ with sending := σ.sending.eraseIdx i, queue := σ.handOver e }
    | none => none
  | .register =>
    match σ.phase with
    | .outside => some { σ with phase := .registered }
    | _ => none
  | .read => σ.readRows kind
  | .next => σ.nextRow kind
  | .take => σ.takeEvent kind
  | .idle => some σ

end Subscription

/-- A run of the stream and the subscriber, without end. -/
structure Watch (kind : ReaderKind) (after maxsize : Nat) (δ : Type) where
  state : Nat → Subscription δ
  act : Nat → SubscriptionStep δ
  start : state 0 = Subscription.initial after maxsize
  step : ∀ n, (state n).step kind (act n) = some (state (n + 1))

end TracciaRuntime
