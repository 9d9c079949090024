/-
  Traccia Runtime formalization — the execution of a graph (`analytics/engine.py`: `run`,
  `resume`, `_drive`, `_schedule`, `_checkpoint`; `analytics/stores.py`).

  * `Drive`: one call of `run` or `resume`: its state object, its tasks, the store call in
    flight under the checkpoint lock, and where the call itself awaits (`Stage`);
  * `Drive.step`: the moves (`Act`) of a drive and of the store on its behalf;
  * `Session`: one drive after the other, with crashes in between;
  * `Fleet`: any number of drives at once.

  A store call takes effect at one point between its start and its answer.  The row of the
  graph in the store is its state as a later `get` reads it; the columns `id`, `tenant_id`,
  `status` and `version` of the table repeat entries of the state.  The locks are those of one
  drive, and of `gather` it is left open which of several exceptions is the first.
-/
import Mathlib.Logic.Function.Basic
import TracciaRuntime.Analytics.Engine

namespace TracciaRuntime.Analytics

open Py
open Semantics (showSorted)

variable {V : Type}

/-! ## Stores -/

/-- The state as it is read back. -/
def AnalyticalGraphState.reread (values : Values V) (s : AnalyticalGraphState V) :
    AnalyticalGraphState V :=
  { s with results := fun i => (s.results i).map fun r => { r with value := values.reread r.value } }

namespace StoreKind
variable (values : Values V) (store : StoreKind)

/-- What the store keeps of a state. -/
def kept (s : AnalyticalGraphState V) : AnalyticalGraphState V :=
  match store with
  | memory => s
  | postgres => s.reread values

/-- `create`: whether it succeeds, and the row after it. -/
def create (row : Option (AnalyticalGraphState V)) (s : AnalyticalGraphState V) :
    Bool × Option (AnalyticalGraphState V) :=
  match row with
  | none => (true, some (store.kept values s))
  | some _ => (false, row)

/-- What a second `create` raises. -/
def exists_ (id : String) : Raised :=
  match store with
  | memory => .conflict (.graphExists id)
  | postgres => .other "UniqueViolationError"
      "duplicate key value violates unique constraint \"traccia_runtime_analytical_graphs_pkey\""

/-- `save`: the guarded write of a state that bears the next version. -/
def save (row : Option (AnalyticalGraphState V)) (s : AnalyticalGraphState V) (expected : Nat) :
    Bool × Option (AnalyticalGraphState V) :=
  match row with
  | none => (false, row)
  | some current => if current.version = expected then (true, some s) else (false, row)

end StoreKind

/-- `get`. -/
def getState (row : Option (AnalyticalGraphState V)) (tenantId : String) :
    Option (AnalyticalGraphState V) :=
  row.filter fun s => s.tenantId = tenantId

/-! ## Drives -/

inductive Actor where
  | driver
  | node (id : String)
  deriving DecidableEq

/-- A call of `save` under the checkpoint lock.  `PostgresAnalyticalGraphStore` raises the
    version of the state object and reads the object when it sends the statement (`sent`),
    `InMemoryAnalyticalGraphStore` does both when it writes. -/
structure Flight (V : Type) where
  actor : Actor
  expected : Nat
  sent : AnalyticalGraphState V
  verdict : Option Bool := none

/-- How a drive comes to its end. -/
inductive Outcome where
  | completed
  /-- `analytical graph failed at nodes ...` -/
  | failedAt (ids : List String)
  /-- `analytical graph has no runnable nodes` -/
  | stuck
  /-- the branch of `TimeoutError` -/
  | timedOut
  | raised (e : Raised)
  deriving DecidableEq

def Outcome.error : Outcome → Option Raised
  | completed => none
  | failedAt ids => some (.runtime s!"analytical graph failed at nodes {showSorted ids}")
  | stuck => some (.runtime "analytical graph has no runnable nodes")
  | timedOut => some (.budgetExceeded "analytical graph timeout exhausted")
  | raised e => some e

inductive Stage where
  /-- awaits `create`, with what the store has answered -/
  | creating (verdict : Option Bool)
  /-- awaits the lock of the graph -/
  | locking
  /-- awaits the first checkpoint -/
  | opening
  /-- awaits `gather` -/
  | waiting
  /-- awaits the last checkpoint -/
  | closing (outcome : Outcome)
  | ended (outcome : Outcome)
  deriving DecidableEq

/-- What cancels the wave of tasks: the timer of the graph, or whoever cancels the drive. -/
inductive Strike where
  | timeout | cancel
  deriving DecidableEq

structure Drive (V : Type) where
  memory : AnalyticalGraphState V
  phase : String → Phase V := fun _ => .idle
  flight : Option (Flight V) := none
  stage : Stage
  strike : Option Strike := none

/-- `run`. -/
def Drive.run (context : GraphExecutionContext) : Drive V where
  memory := { tenantId := context.tenantId, userId := context.userId }
  stage := .creating none

/-- What `resume` makes of the state that it has read. -/
def AnalyticalGraphState.recover (s : AnalyticalGraphState V) : AnalyticalGraphState V :=
  { s with
    nodes := fun i =>
      if (s.nodes i).status = .running then
        { s.nodes i with
          status := .pending, error := some "recovered after an interrupted worker lease" }
      else s.nodes i
    status := if s.status = .running then .pending else s.status }

/-- `resume`. -/
def Drive.resume (graphId : String) (context : GraphExecutionContext)
    (row : Option (AnalyticalGraphState V)) : Except Raised (Drive V) :=
  match getState row context.tenantId with
  | none => .error (.configuration s!"analytical graph '{graphId}' was not found")
  | some s =>
    if s.userId ≠ context.userId then
      .error (.configuration "analytical graph belongs to another user")
    else .ok { memory := s.recover, stage := .locking }

inductive Act (V : Type) where
  /-- the store performs `create` -/
  | create
  /-- `create` returns or raises what the store has answered -/
  | created
  /-- `create` raises, or is interrupted -/
  | uncreated (e : Raised)
  /-- the drive gets the lock of the graph -/
  | locked
  /-- a checkpoint gets its lock and calls `save` -/
  | acquire (a : Actor)
  /-- the store performs the call in flight -/
  | commit
  /-- the call in flight returns or raises what the store has answered -/
  | answer
  /-- the call in flight raises, or is interrupted -/
  | broken (e : Raised)
  /-- a cancellation strikes where a lock is awaited -/
  | cut (a : Actor)
  | node (id : String) (ev : NodeEvent V)
  | strike (s : Strike)
  /-- `gather` returns, with the first task that has raised -/
  | gathered (first : Option String)

namespace Drive
variable (e : Engine V) (g : AnalyticalGraph V) (d : Drive V)

def work (i : String) : Work V where
  execution := d.memory.nodes i
  result := d.memory.results i
  phase := d.phase i

def setWork (i : String) (w : Work V) : Drive V :=
  { d with
    memory := { d.memory with
      nodes := Function.update d.memory.nodes i w.execution
      results := Function.update d.memory.results i w.result }
    phase := Function.update d.phase i w.phase }

/-- The values of the results. -/
def lookup (i : String) : Option V := (d.memory.results i).map (·.value)

/-- A branch of `_drive` after `_schedule`. -/
def finish (o : Outcome) : Drive V :=
  match o with
  | .completed => { d with memory := { d.memory with status := .completed }, stage := .closing o }
  | .raised (.timeout _) =>
    { d with
      memory := { d.memory with
        status := .failed
        nodes := fun i =>
          if (d.memory.nodes i).status = .pending ∨ (d.memory.nodes i).status = .running then
            { d.memory.nodes i with status := .cancelled, error := some "graph timeout exhausted" }
          else d.memory.nodes i }
      stage := .closing .timedOut }
  | .raised .cancelled =>
    { d with memory := { d.memory with status := .cancelled }, stage := .closing o }
  | o => { d with memory := { d.memory with status := .failed }, stage := .closing o }

def statusOf (i : String) : NodeStatus := (d.memory.nodes i).status

/-- The nodes that can start. -/
def ready : List String :=
  g.ids.filter fun i => d.statusOf i = .pending ∧ ∀ j ∈ g.dependencies i, d.statusOf j = .completed

/-- A round of `_schedule`. -/
def schedule : Drive V :=
  let incomplete := g.ids.filter fun i => d.statusOf i ≠ .completed
  let failed := incomplete.filter fun i => d.statusOf i = .failed ∨ d.statusOf i = .cancelled
  if incomplete = [] then d.finish .completed
  else if failed ≠ [] then d.finish (.failedAt failed)
  else if d.ready g = [] then d.finish .stuck
  else
    { d with
      phase := fun i => if i ∈ d.ready g then .queued else .idle
      stage := .waiting }

/-- The semaphore has a place. -/
def Vacant : Prop :=
  (g.ids.filter fun i => (d.phase i).admitted).length < min g.maximumConcurrency e.maximumConcurrency

/-- No task holds the lock of the concurrency key. -/
def Unlocked (n : AnalyticalNode V) : Prop :=
  ∀ m ∈ g.nodes, m.key = n.key → (d.phase m.id).executing = false

instance : Decidable (d.Vacant e g) := inferInstanceAs (Decidable (_ < _))
instance (n : AnalyticalNode V) : Decidable (d.Unlocked g n) :=
  inferInstanceAs (Decidable (∀ _ ∈ _, _))

/-- A checkpoint of an actor returns or raises. -/
def saved (a : Actor) (failure : Option Raised) : Option (Drive V) :=
  match a with
  | .driver =>
    match d.stage, failure with
    | .opening, none => some (d.schedule g)
    | .closing o, none => some { d with stage := .ended o }
    | .opening, some x | .closing _, some x => some { d with stage := .ended (.raised x) }
    | _, _ => none
  | .node i =>
    if d.stage = .waiting then do
      let n ← g.node i
      let w ← (d.work i).step e d.lookup n (failure.elim .saved .unsaved)
      some (d.setWork i w)
    else none

/-- The actor awaits a checkpoint. -/
def Saving (a : Actor) : Prop :=
  match a with
  | .driver => d.stage = .opening ∨ ∃ o, d.stage = .closing o
  | .node i => d.stage = .waiting ∧ i ∈ g.ids ∧ (d.phase i).saving

instance (a : Actor) : Decidable (d.Saving g a) :=
  match a with
  | .driver =>
    match h : d.stage with
    | .opening => .isTrue (.inl h)
    | .closing o => .isTrue (.inr ⟨o, h⟩)
    | .creating _ | .locking | .waiting | .ended _ => .isFalse (by simp [Saving, h])
  | .node _ => inferInstanceAs (Decidable (_ ∧ _ ∧ _))

/-- The call in flight may raise an exception of its own: a statement any, the lock of the
    store in memory only a cancellation. -/
def Breaks (verdict : Option Bool) (x : Raised) : Prop :=
  e.store = .postgres ∨ verdict = none ∧ x = .cancelled

instance (verdict : Option Bool) (x : Raised) : Decidable (Breaks e verdict x) :=
  inferInstanceAs (Decidable (_ ∨ _ ∧ _))

/-- What the task of a node awaits can happen. -/
def Can (n : AnalyticalNode V) (ev : NodeEvent V) : Prop :=
  match ev with
  | .admitted => d.Vacant e g
  | .entered => d.Unlocked g n
  | .interrupted => d.strike ≠ none
  | .saved | .unsaved _ => False
  | _ => True

instance (n : AnalyticalNode V) (ev : NodeEvent V) : Decidable (d.Can e g n ev) :=
  match ev with
  | .admitted => inferInstanceAs (Decidable (d.Vacant e g))
  | .entered => inferInstanceAs (Decidable (d.Unlocked g n))
  | .interrupted => inferInstanceAs (Decidable (d.strike ≠ none))
  | .saved | .unsaved _ => .isFalse id
  | .looked _ | .returned _ | .raised _ | .woken | .stored => .isTrue trivial

/-- The state that a call of `save` writes. -/
def payload (f : Flight V) : AnalyticalGraphState V :=
  match e.store with
  | .memory => { d.memory with version := f.expected + 1 }
  | .postgres => f.sent

/-- A checkpoint calls `save`. -/
def send (a : Actor) : Drive V :=
  match e.store with
  | .memory => { d with flight := some ⟨a, d.memory.version, d.memory, none⟩ }
  | .postgres =>
    let memory := { d.memory with version := d.memory.version + 1 }
    { d with memory, flight := some ⟨a, d.memory.version, memory.reread e.values, none⟩ }

/-- The exception that `gather` raises first. -/
def first (i : Option String) : Option Raised := i.bind fun i => (d.phase i).error

def step (row : Option (AnalyticalGraphState V)) :
    Act V → Option (Option (AnalyticalGraphState V) × Drive V)
  | .create =>
    if d.stage = .creating none then
      let (ok, row') := e.store.create e.values row d.memory
      some (row', { d with stage := .creating (some ok) })
    else none
  | .created =>
    match d.stage with
    | .creating (some true) => some (row, { d with stage := .locking })
    | .creating (some false) =>
      some (row, { d with stage := .ended (.raised (e.store.exists_ g.id)) })
    | _ => none
  | .uncreated x =>
    match d.stage with
    | .creating verdict =>
      if Breaks e verdict x then some (row, { d with stage := .ended (.raised x) }) else none
    | _ => none
  | .locked =>
    if d.stage = .locking then
      some (row, { d with memory := { d.memory with status := .running }, stage := .opening })
    else none
  | .acquire a =>
    if d.flight.isNone ∧ d.Saving g a then some (row, d.send e a) else none
  | .commit =>
    match d.flight with
    | some ⟨a, expected, sent, none⟩ =>
      let s := d.payload e ⟨a, expected, sent, none⟩
      let (ok, row') := StoreKind.save row s expected
      some (row', { d with
        memory := { d.memory with version := if ok then expected + 1 else d.memory.version }
        flight := some ⟨a, expected, sent, some ok⟩ })
    | _ => none
  | .answer =>
    match d.flight with
    | some ⟨a, _, _, some true⟩ =>
      ({ d with flight := none }.saved e g a none).map fun d => (row, d)
    | some ⟨a, expected, _, some false⟩ =>
      ({ d with memory := { d.memory with version := expected }, flight := none }.saved e g a
        (some (.conflict (.graphModified g.id)))).map fun d => (row, d)
    | _ => none
  | .broken x =>
    match d.flight with
    | some f =>
      if Breaks e f.verdict x then
        ({ d with flight := none }.saved e g f.actor (some x)).map fun d => (row, d)
      else none
    | none => none
  | .cut a =>
    match a with
    | .driver =>
      if d.flight.isNone then
        if d.stage = .locking then some (row, { d with stage := .ended (.raised .cancelled) })
        else (d.saved e g .driver (some .cancelled)).map fun d => (row, d)
      else none
    | .node i =>
      if d.strike.isSome ∧ d.Saving g a ∧ ∀ f ∈ d.flight, f.actor ≠ a then
        (d.saved e g (.node i) (some .cancelled)).map fun d => (row, d)
      else none
  | .node i ev => do
    let n ← g.node i
    if d.stage = .waiting ∧ d.Can e g n ev then
      let w ← (d.work i).step e d.lookup n ev
      some (row, d.setWork i w)
    else none
  | .strike s =>
    if d.stage = .waiting ∧ d.strike ≠ some .cancel ∧ d.strike ≠ some s then
      some (row, { d with strike := some s })
    else none
  | .gathered i =>
    if d.stage = .waiting ∧ ∀ j ∈ g.ids, (d.phase j).finished then
      match d.strike with
      | some .cancel => some (row, d.finish (.raised .cancelled))
      | some .timeout => some (row, d.finish (.raised (.timeout "")))
      | none =>
        if ∀ j ∈ g.ids, (d.phase j).error = none then some (row, d.schedule g)
        else (d.first i).map fun x => (row, d.finish (.raised x))
    else none

end Drive

end TracciaRuntime.Analytics
