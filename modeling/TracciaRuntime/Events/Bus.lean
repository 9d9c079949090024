/-
  Traccia Runtime formalization — the event buses (`events/bus.py`,
  `conversations/stores.py`) and the emission of events (`_emit`).

  The buses of runs and of conversations have the same code; the model follows one
  stream, the events of a run or of a conversation.

  Any number of tasks call `InMemoryEventBus`. A task gives up control only where it waits: for
  the lock while another task holds it, for an event while its queue is empty, and at a `yield`.
  The sections under the lock and the loop over the queues are moves of their own, so that the
  lock has to be shown free.
-/
import TracciaRuntime.Types
import Mathlib.Logic.Function.Basic
import TracciaRuntime.Machine.Moves

namespace TracciaRuntime

variable {δ : Type}

/-- `RunEvent`, `ConversationEvent`: the number in the stream, and everything else. -/
structure StreamEvent (δ : Type) where
  sequence : Nat
  data : δ
  deriving DecidableEq

/-! ## The queue of a subscriber -/

/-- `asyncio.Queue`, with the oldest event first. -/
structure EventQueue (δ : Type) where
  maxsize : Nat := 1000
  items : List (StreamEvent δ) := []
  deriving DecidableEq

namespace EventQueue

/-- `full`; a queue of size 0 has no bound. -/
def full (q : EventQueue δ) : Bool := 0 < q.maxsize && q.maxsize ≤ q.items.length

/-- What `publish` does with a queue: the oldest event makes room for the new one. -/
def offer (q : EventQueue δ) (e : StreamEvent δ) : EventQueue δ :=
  { q with items := (if q.full then q.items.tail else q.items) ++ [e] }

end EventQueue

/-! ## The buses -/

/-- The two kinds of buses; the in-memory ones keep `history_limit` events. -/
inductive BusKind where
  | inMemory (historyLimit : Nat)
  | postgres
  deriving DecidableEq

/-- A stream: what the bus keeps of it, and everything that was ever recorded. -/
structure Stream (δ : Type) where
  history : List (StreamEvent δ) := []
  recorded : List (StreamEvent δ) := []
  deriving DecidableEq

namespace Stream

/-- `next_sequence`. -/
def nextSequence (kind : BusKind) (s : Stream δ) : Nat :=
  match kind with
  | .inMemory _ =>
    match s.history.getLast? with
    | some e => e.sequence + 1
    | none => 1
  | .postgres => (s.history.map (·.sequence)).foldl max 0 + 1

/-- `del history[:-limit]`; with limit 0 nothing is deleted. -/
def trim (limit : Nat) (history : List (StreamEvent δ)) : List (StreamEvent δ) :=
  if limit = 0 then history else history.drop (history.length - limit)

/-- The recording half of `publish`: the append and the cut, or the `INSERT` into a table in which
    the sequences of a stream are unique. -/
def publish (kind : BusKind) (s : Stream δ) (e : StreamEvent δ) : Except Exn (Stream δ) :=
  match kind with
  | .inMemory limit => .ok ⟨trim limit (s.history ++ [e]), s.recorded ++ [e]⟩
  | .postgres =>
    if ∃ r ∈ s.history, r.sequence = e.sequence then .error (.other "UniqueViolationError")
    else .ok ⟨s.history ++ [e], s.recorded ++ [e]⟩

/-- `history` of the PostgreSQL buses: `WHERE sequence>$2 ORDER BY sequence`. -/
def after (rows : List (StreamEvent δ)) (cursor : Nat) : List (StreamEvent δ) :=
  (rows.filter fun e => cursor < e.sequence).mergeSort fun e e' => e.sequence ≤ e'.sequence

end Stream

/-! ## Emission -/

/-- How far a call of `_emit` is. -/
inductive EmitPhase where
  | called
  /-- `next_sequence` has returned -/
  | numbered (sequence : Nat)
  | returned
  | raised (e : Exn)
  deriving DecidableEq

/-- The calls of `_emit` for one stream, by any number of tasks. -/
structure Emits (δ : Type) where
  stream : Stream δ := {}
  phase : Nat → EmitPhase := fun _ => .called

/-- What a call does next: ask for the number, or publish the event with the number it got. -/
inductive EmitStep where
  | ask (call : Nat)
  | put (call : Nat)
  deriving DecidableEq

namespace Emits

variable (kind : BusKind) (data : Nat → δ)

/-- One step of one call. -/
def step (σ : Emits δ) : EmitStep → Option (Emits δ)
  | .ask t =>
    match σ.phase t with
    | .called => some { σ with
        phase := Function.update σ.phase t (.numbered (σ.stream.nextSequence kind)) }
    | _ => none
  | .put t =>
    match σ.phase t with
    | .numbered n =>
      match σ.stream.publish kind ⟨n, data t⟩ with
      | .ok stream => some ⟨stream, Function.update σ.phase t .returned⟩
      | .error e => some { σ with phase := Function.update σ.phase t (.raised e) }
    | _ => none

/-- The state after an interleaving of the steps, the last step first. -/
def run : List EmitStep → Option (Emits δ)
  | [] => some {}
  | a :: steps => (run steps).bind fun σ => σ.step kind data a

end Emits

/-! ## The bus in memory -/

/-- What a task asks of the bus. -/
inductive BusCall (δ : Type) where
  | publish (e : StreamEvent δ)
  | subscribe (after : Nat)
  /-- `history`, `next_sequence`, and the calls for another run -/
  | other

/-- How far the call of a task is. -/
inductive BusStage (δ : Type) where
  /-- before its section under the lock -/
  | called
  | locked
  /-- the queues that `publish` still has to serve -/
  | putting (queues : List Nat)
  /-- the events of `backlog` that are still to be yielded; then the queue -/
  | delivering (backlog : List (StreamEvent δ))
  /-- before the section of `finally` -/
  | closing
  | closingLocked
  | done
  deriving DecidableEq

inductive BusAct where
  /-- the task goes on; a set of queues is iterated in some order -/
  | run (task : Nat) (order : List Nat)
  /-- the consumer closes its generator, or the task is cancelled where it waits -/
  | close (task : Nat)

structure InMemoryEventBus (δ : Type) where
  history : List (StreamEvent δ) := []
  /-- the tasks whose queues are subscribers of the run -/
  subscribers : List Nat := []
  locked : Bool := false
  queues : Nat → EventQueue δ := fun _ => {}
  stages : Nat → BusStage δ := fun _ => .called
  /-- the task that has not given up control -/
  running : Option Nat := none
  /-- what has been published, in this order -/
  published : List (StreamEvent δ) := []
  /-- what the subscribers have yielded -/
  yielded : Nat → List (StreamEvent δ) := fun _ => []

namespace InMemoryEventBus

/-- The task goes on to a stage. -/
def go (s : InMemoryEventBus δ) (t : Nat) (stage : BusStage δ) : InMemoryEventBus δ :=
  { s with stages := Function.update s.stages t stage, running := some t }

/-- The task has given up control. -/
def wait (s : InMemoryEventBus δ) : InMemoryEventBus δ := { s with running := none }

/-- `async with self._lock`: a task waits while the lock is held. -/
def acquire (s : InMemoryEventBus δ) (t : Nat) (stage : BusStage δ) : InMemoryEventBus δ :=
  if s.locked then s.wait else { s.go t stage with locked := true }

/-- The section of `publish`. -/
def record (limit : Nat) (s : InMemoryEventBus δ) (t : Nat) (e : StreamEvent δ)
    (order : List Nat) : Option (InMemoryEventBus δ) :=
  if order.Perm s.subscribers then
    some { s.go t (.putting order) with
      history := Stream.trim limit (s.history ++ [e])
      published := s.published ++ [e]
      locked := false }
  else none

/-- The section of `subscribe`. -/
def register (s : InMemoryEventBus δ) (t after : Nat) : InMemoryEventBus δ :=
  { s.go t (.delivering (s.history.filter fun e => after < e.sequence)) with
    subscribers := s.subscribers ++ [t]
    locked := false }

/-- The subscriber yields an event. -/
def deliver (s : InMemoryEventBus δ) (t : Nat) (e : StreamEvent δ) : InMemoryEventBus δ :=
  { s with yielded := Function.update s.yielded t (s.yielded t ++ [e]), running := none }

/-- The next event of a subscriber: of its backlog, then of its queue. -/
def next (s : InMemoryEventBus δ) (t : Nat) (backlog : List (StreamEvent δ)) :
    InMemoryEventBus δ :=
  match backlog, (s.queues t).items with
  | e :: rest, _ => (s.go t (.delivering rest)).deliver t e
  | [], e :: items =>
    { s.deliver t e with queues := Function.update s.queues t { s.queues t with items } }
  | [], [] => s.wait

/-- What a task does next, up to the next move. -/
def proceed (limit : Nat) (calls : Nat → BusCall δ) (s : InMemoryEventBus δ) (t : Nat)
    (order : List Nat) : Option (InMemoryEventBus δ) :=
  match s.stages t, calls t with
  | .called, _ => some (s.acquire t .locked)
  | .locked, .publish e => s.record limit t e order
  | .locked, .subscribe after => some (s.register t after)
  | .locked, .other => some { (s.go t .done).wait with locked := false }
  | .putting (i :: rest), .publish e =>
    some { s.go t (.putting rest) with
      queues := Function.update s.queues i ((s.queues i).offer e) }
  | .putting [], .publish _ => some (s.go t .done).wait
  | .delivering backlog, .subscribe _ => some (s.next t backlog)
  | .closing, .subscribe _ => some (s.acquire t .closingLocked)
  | .closingLocked, .subscribe _ =>
    some { (s.go t .done).wait with
      subscribers := s.subscribers.erase t
      locked := false }
  | _, _ => none

/-- A task that waits is closed. -/
def leave (calls : Nat → BusCall δ) (s : InMemoryEventBus δ) (t : Nat) :
    Option (InMemoryEventBus δ) :=
  match s.stages t, calls t with
  | .called, _ | .closing, _ => some (s.go t .done).wait
  | .delivering _, .subscribe _ => some (s.go t .closing).wait
  | _, _ => none

def step (limit : Nat) (calls : Nat → BusCall δ) (s : InMemoryEventBus δ) :
    BusAct → Option (InMemoryEventBus δ)
  | .run t order => if s.running.all (· = t) then s.proceed limit calls t order else none
  | .close t => if s.running = none then s.leave calls t else none

end InMemoryEventBus

end TracciaRuntime
