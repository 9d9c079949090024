/-
  Traccia Runtime formalization — the workers of a queue (`distributed/worker.py`).

  * `Report`: what the execution of a claimed item asks of the queue, under the id of its
    worker;
  * `DistributedWorker.runOnce`: the reports of `run_once`;
  * `RunOnce`, `DistributedWorker.step`: a call of `run_once`, move by move, among the calls that
    others make of the queue;
  * `Workers`: a queue with the executions begun so far. An execution may report as often and
    as late as it likes, also when another one of the same item has begun; a worker id may be
    that of any number of executions.
-/
import TracciaRuntime.Distributed.Queue

namespace TracciaRuntime

open Py

variable {V : Type}

/-- A claimed item, with the worker that claimed it. -/
structure Execution (V : Type) where
  item : WorkItem V
  workerId : String

inductive Report (V : Type) where
  | renew (leaseSeconds : Int)
  | complete (result : Dict String V)
  | fail (error : String) (retry : Bool)

def Report.call (r : Report V) (e : Execution V) : QueueCall V :=
  match r with
  | renew leaseSeconds => .renew e.item.id e.workerId leaseSeconds
  | complete result => .complete e.item.id e.workerId result
  | fail error retry => .fail e.item.id e.workerId error retry

namespace DistributedWorker

/-- How the handler of an item ends; one that is not registered raises `KeyError`. -/
inductive Handled (V : Type) where
  | returned (result : Dict String V)
  | raised (error : String)
  | cancelled

/-- The reports of `run_once`, given the replies to them. `complete` is called in the `try`
    block. -/
def runOnce (handled : Handled V) (str : Exn → String)
    (reply : Report V → Except Exn (QueueReply V)) : List (Report V) :=
  match handled with
  | .returned result =>
    .complete result ::
      match reply (.complete result) with
      | .ok _ => []
      | .error e => [.fail (if e.isException then str e else "worker cancelled") true]
  | .raised error => [.fail error true]
  | .cancelled => [.fail "worker cancelled" true]

end DistributedWorker

/-! ## One call of `run_once` -/

/-- How a call of `run_once` ends; what is no `Exception` and no cancellation passes through. -/
inductive Outcome where
  | returned (b : Bool)
  | raised (e : Exn)
  | exited (typeName : String)
  deriving DecidableEq

/-- Where `run_once` waits. -/
inductive RunOnceStage (V : Type) where
  | claiming
  | handling
  | completing (result : Dict String V)
  /-- `fail` is called, and `next` is what follows it -/
  | failing (error : String) (next : Outcome)
  | ended (o : Outcome)

/-- A call of `run_once`, with the queue it shares; `item` is its local variable. -/
structure RunOnce (Q : WorkQueue V) where
  queue : Q.State
  item : Option (WorkItem V) := none
  stage : RunOnceStage V := .claiming
  /-- `cancel` has been called on its task -/
  cancelled : Bool := false

inductive RunOnceAct (V : Type) where
  /-- someone else calls the queue -/
  | others (c : TimedCall V)
  /-- the call of the queue that `run_once` waits for -/
  | call (now later : Time)
  /-- the handler returns -/
  | returned (result : Dict String V)
  /-- the handler raises, or its result has no JSON text; `str` of the exception may raise too -/
  | raised (e : Exn) (text : Except Exn String)
  /-- the handler raises what is no `Exception` and no cancellation -/
  | exited (typeName : String)
  /-- the task is cancelled; a call of the queue may have been served by then -/
  | cancel (served : Option (Time × Time))

structure DistributedWorker where
  workerId : String
  leaseSeconds : Int := 30
  /-- the kinds of `_handlers` -/
  kinds : List String := []

namespace DistributedWorker

/-- The `except` clauses around the handler and `complete`. -/
def recover (e : Exn) (text : Except Exn String) : RunOnceStage V :=
  if e.isException then
    match text with
    | .ok error => .failing error (.returned true)
    | .error e' => .ended (.raised e')
  else .failing "worker cancelled" (.raised e)

section
variable {Q : WorkQueue V} (w : DistributedWorker) (repr : String → String) (str : Exn → String)

/-- After the claim; a kind without a handler is a `KeyError`, and `repr` is the text of it. -/
def begin (item : WorkItem V) : RunOnceStage V :=
  if item.kind ∈ w.kinds then .handling
  else recover (.other "KeyError") (.ok (repr item.kind))

/-- The call of the queue that `run_once` waits for. -/
def pending (s : RunOnce Q) : Option (QueueCall V) :=
  match s.stage, s.item with
  | .claiming, _ => some (.claim w.workerId w.leaseSeconds)
  | .completing result, some item => some (.complete item.id w.workerId result)
  | .failing error _, some item => some (.fail item.id w.workerId error true)
  | _, _ => none

/-- What follows the reply to it. -/
def proceed (s : RunOnce Q) (reply : Except Exn (QueueReply V)) : RunOnce Q :=
  match s.stage, reply with
  | .claiming, .ok (.claimed (some item)) =>
    { s with item := some item, stage := w.begin repr item }
  | .claiming, .ok _ => { s with stage := .ended (.returned false) }
  | .completing _, .ok _ => { s with stage := .ended (.returned true) }
  | .completing _, .error e => { s with stage := recover e (.ok (str e)) }
  | .failing _ next, .ok _ => { s with stage := .ended next }
  | _, .error e => { s with stage := .ended (.raised e) }
  | _, .ok _ => s

/-- Where a cancellation leads; a handler may do with it what it likes. -/
def interrupted : RunOnceStage V → RunOnceStage V
  | .handling => .handling
  | .completing _ => recover .cancelled (.ok "")
  | .ended o => .ended o
  | _ => .ended (.raised .cancelled)

/-- `run_once`. -/
def step (s : RunOnce Q) : RunOnceAct V → Option (RunOnce Q)
  | .others c => some { s with queue := (Q.step c s.queue).2 }
  | .call now later => (w.pending s).map fun c =>
    w.proceed repr str { s with queue := (Q.step ⟨c, now, later⟩ s.queue).2 }
      (Q.step ⟨c, now, later⟩ s.queue).1
  | .returned result =>
    match s.stage with
    | .handling => some { s with stage := .completing result }
    | _ => none
  | .raised e text =>
    match s.stage with
    | .handling | .completing _ => some { s with stage := recover e text }
    | _ => none
  | .exited typeName =>
    match s.stage with
    | .handling => some { s with stage := .ended (.exited typeName) }
    | _ => none
  | .cancel served =>
    match s.stage with
    | .ended _ => none
    | stage => some { s with
        queue := match w.pending s, served with
          | some c, some t => (Q.step ⟨c, t.1, t.2⟩ s.queue).2
          | _, _ => s.queue
        stage := interrupted stage
        cancelled := true }

end

end DistributedWorker

/-! ## Workers -/

inductive WorkerAct (V : Type) where
  | enqueue (item : WorkItem V) (now : Time)
  | claim (workerId : String) (leaseSeconds : Int) (now : Time)
  | report (execution : Nat) (r : Report V) (now later : Time)

structure Workers (Q : WorkQueue V) where
  queue : Q.State := Q.init
  executions : List (Execution V) := []

namespace Workers
variable {Q : WorkQueue V}

def step (s : Workers Q) : WorkerAct V → Workers Q
  | .enqueue item now => { s with queue := (Q.step { call := .enqueue item, now } s.queue).2 }
  | .claim workerId leaseSeconds now =>
    match Q.step { call := .claim workerId leaseSeconds, now } s.queue with
    | (.ok (.claimed (some item)), queue) => ⟨queue, s.executions ++ [⟨item, workerId⟩]⟩
    | (_, queue) => { s with queue }
  | .report execution r now later =>
    match s.executions[execution]? with
    | some e => { s with queue := (Q.step { call := r.call e, now, later } s.queue).2 }
    | none => s

/-- The state after the acts, the latest first. -/
def after (Q : WorkQueue V) : List (WorkerAct V) → Workers Q
  | [] => {}
  | a :: past => (after Q past).step a

/-- The item has been claimed again since. -/
def Superseded (s : Workers Q) (i : Nat) (e : Execution V) : Prop :=
  ∃ j e', i < j ∧ s.executions[j]? = some e' ∧ e'.item.id = e.item.id

end Workers

end TracciaRuntime
