/-
  Traccia Runtime formalization — the execution of one node
  (`analytics/engine.py`: `_execute_node` and the methods it calls).

  * `resolveInputs`, `prepare`, `validateResult`, `enforceResultBudget`: what the engine
    computes without awaiting anything;
  * `Phase`: where the task of a node awaits; `Work`: a node's task with the node's entries in
    the state of the graph;
  * `Work.step`: the task goes on when what it awaits has happened (`NodeEvent`).

  Handlers, the cache service and the timers answer whenever and whatever they like.
-/
import TracciaRuntime.Analytics.Contracts

namespace TracciaRuntime.Analytics

open Py

variable {V : Type}

inductive StoreKind where
  | memory | postgres
  deriving DecidableEq

/-- An `AnalyticalGraphEngine` with its collaborators; the limit is
    `analytical_execution.maximum_concurrency` of the settings. -/
structure Engine (V : Type) where
  values : Values V
  store : StoreKind
  /-- the kinds with a handler in the registry -/
  handlers : List AnalyticalNodeKind
  cache : Bool := false
  maximumConcurrency : Nat := 8
  maximumConcurrency_range : 1 ≤ maximumConcurrency ∧ maximumConcurrency ≤ 128 := by decide

/-! ## Inputs and results -/

/-- `value[k]` of a list. -/
def itemAt (items : List V) (k : Int) : Option V :=
  if 0 ≤ k then items[k.toNat]?
  else if 0 ≤ items.length + k then items[(items.length + k).toNat]?
  else none

/-- One part of a path. -/
def follow (values : Values V) (path : String) (value : V) (part : String) : Except Raised V :=
  match values.view value with
  | .mapping items =>
    match items.get part with
    | some v => .ok v
    | none => .error (.keyError part)
  | .list items =>
    match int part with
    | none => .error (.other "ValueError" s!"invalid literal for int() with base 10: '{part}'")
    | some k =>
      match itemAt items k with
      | some v => .ok v
      | none => .error (.other "IndexError" "list index out of range")
  | .other t => .error (.configuration s!"result path '{path}' cannot traverse {t}")

/-- `path.split(".")`. -/
def splitPath (path : String) : List String := (path.toList.splitOn '.').map String.ofList

/-- The value that a reference stands for. -/
def dereference (values : Values V) (lookup : String → Option V) (r : ResultReference) :
    Except Raised V :=
  match lookup r.nodeId with
  | none => .error (.keyError r.nodeId)
  | some value =>
    match r.path.filter (· ≠ "") with
    | none => .ok value
    | some path => (splitPath path).foldlM (follow values path) value

/-- `_resolve_inputs`; `lookup` gives the values of the results. -/
def resolveInputs (values : Values V) (lookup : String → Option V) (n : AnalyticalNode V) :
    Except Raised (Dict String V) :=
  n.inputs.mapM fun i => (dereference values lookup i.2).map fun v => (i.1, v)

namespace Engine
variable (e : Engine V)

/-- The inputs for the handler of a node: resolved, valid and with a handler to take them. -/
def prepare (lookup : String → Option V) (n : AnalyticalNode V) : Except Raised (Dict String V) := do
  let inputs ← resolveInputs e.values lookup n
  e.values.validate (e.values.object inputs) n.inputSchema
  require (n.kind ∈ e.handlers) (.configuration s!"no handler for analytical node '{n.kind.value}'")
  .ok inputs

def validateResult (n : AnalyticalNode V) (value : V) : Except Raised Unit :=
  if n.outputSchema = [] then .ok () else e.values.validate value n.outputSchema

def enforceResultBudget (n : AnalyticalNode V) (r : AnalyticalResult V) : Except Raised Unit := do
  let encoded ← e.values.encodedLength r.value
  require (encoded ≤ n.budget.maximumBytes)
    (.budgetExceeded s!"node '{n.id}' exceeded result byte budget")
  require (∀ k ∈ r.rowCount, k ≤ n.budget.maximumRows)
    (.budgetExceeded s!"node '{n.id}' exceeded result row budget")
  require (∀ c ∈ n.budget.maximumCostUsd, r.costUsd ≤ c)
    (.budgetExceeded s!"node '{n.id}' exceeded result cost budget")

/-- The results of a node go through the cache. -/
def caches (n : AnalyticalNode V) : Bool := e.cache && n.cache.enabled

end Engine

/-! ## Tasks -/

inductive Phase (V : Type) where
  /-- no task -/
  | idle
  /-- awaits the semaphore -/
  | queued
  /-- awaits the lock of the concurrency key -/
  | keyed
  /-- awaits the checkpoint of `RUNNING` -/
  | opening
  | looking (inputs : Dict String V)
  | handling (inputs : Dict String V) (attempt : Nat)
  | pausing (inputs : Dict String V) (attempt : Nat)
  | storing (result : AnalyticalResult V)
  /-- awaits the checkpoint of `finally`, with the exception on its way -/
  | closing (failure : Option Raised)
  /-- cancelled before `_execute_node` -/
  | withdrawn
  | ended (failure : Option Raised)

namespace Phase

/-- The task holds the semaphore. -/
def admitted : Phase V → Bool
  | idle | queued | withdrawn | ended _ => false
  | _ => true

/-- The task is in `_execute_node`. -/
def executing : Phase V → Bool
  | idle | queued | keyed | withdrawn | ended _ => false
  | _ => true

/-- The task awaits a checkpoint. -/
def saving : Phase V → Bool
  | opening | closing _ => true
  | _ => false

/-- There is no task that still runs. -/
def finished : Phase V → Bool
  | idle | withdrawn | ended _ => true
  | _ => false

/-- The exception that `gather` gets from the task. -/
def error : Phase V → Option Raised
  | withdrawn => some .cancelled
  | ended failure => failure
  | _ => none

end Phase

inductive NodeEvent (V : Type) where
  | admitted
  | entered
  | saved
  | unsaved (e : Raised)
  /-- the cache lookup returns -/
  | looked (found : Option (AnalyticalResult V))
  /-- the handler returns -/
  | returned (r : AnalyticalResult V)
  /-- the cache lookup, the handler or the cache store raises -/
  | raised (e : Raised)
  | woken
  | stored
  /-- a cancellation strikes where nothing else can be raised -/
  | interrupted

structure Work (V : Type) where
  execution : NodeExecution
  result : Option (AnalyticalResult V)
  phase : Phase V

namespace Work
variable (w : Work V)

/-- The start of `_execute_node`. -/
def begin : Work V :=
  { w with execution := { w.execution with status := .running }, phase := .opening }

/-- `_invoke`: an attempt. -/
def invoke (inputs : Dict String V) (attempt : Nat) : Work V :=
  { w with
    execution := { w.execution with attempts := attempt }
    phase := .handling inputs attempt }

/-- `except BaseException`. -/
def fail (e : Raised) : Work V :=
  { w with
    execution := { w.execution with status := .failed, error := some e.text }
    phase := .closing (some e) }

/-- The end of the `try` block. -/
def conclude (e : Engine V) (n : AnalyticalNode V) (r : AnalyticalResult V) : Work V :=
  let r : AnalyticalResult V := { r with nodeId := n.id }
  match e.enforceResultBudget n r with
  | .error x => w.fail x
  | .ok _ =>
    { execution := { w.execution with status := .completed, resultId := some r.id }
      result := some r
      phase := .closing none }

def leave (failure : Option Raised) : Work V := { w with phase := .ended failure }

def step (e : Engine V) (lookup : String → Option V) (n : AnalyticalNode V) (ev : NodeEvent V) :
    Option (Work V) :=
  match w.phase, ev with
  | .queued, .admitted => some (if n.key.isSome then { w with phase := .keyed } else w.begin)
  | .keyed, .entered => some w.begin
  | .queued, .interrupted | .keyed, .interrupted => some { w with phase := .withdrawn }
  | .opening, .saved =>
    match e.prepare lookup n with
    | .error x => some (w.leave (some x))
    | .ok inputs =>
      some (if e.caches n then { w with phase := .looking inputs } else w.invoke inputs 1)
  | .closing failure, .saved => some (w.leave failure)
  | .opening, .unsaved x | .closing _, .unsaved x => some (w.leave (some x))
  | .looking _, .looked (some r) => some (w.conclude e n r)
  | .looking inputs, .looked none => some (w.invoke inputs 1)
  | .handling _ _, .returned r =>
    match e.validateResult n r.value with
    | .error x => some (w.fail x)
    | .ok _ => some (if e.caches n then { w with phase := .storing r } else w.conclude e n r)
  | .handling inputs attempt, .raised x =>
    some (if x ≠ .cancelled ∧ attempt < n.retry.maximumAttempts then
      { w with phase := .pausing inputs attempt } else w.fail x)
  | .pausing inputs attempt, .woken => some (w.invoke inputs (attempt + 1))
  | .pausing _ _, .interrupted => some (w.fail .cancelled)
  | .storing r, .stored => some (w.conclude e n r)
  | .looking _, .raised x | .storing _, .raised x => some (w.fail x)
  | _, _ => none

end Work

end TracciaRuntime.Analytics
