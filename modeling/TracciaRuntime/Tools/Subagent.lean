/-
  Traccia Runtime formalization — the sub-agent tool (`tools/subagent.py`).

  * `Subagent.request`: the request of the run that a call of the tool starts;
  * `Subagent.step`: the runs of a process, started by its clients or by a tool call of another
    run.  A run calls the tool whenever its model likes to, and also after other runs have
    ended.
-/
import TracciaRuntime.Types
import TracciaRuntime.Machine.Moves

namespace TracciaRuntime

open Py

variable {V : Type}

/-- The arguments that the input schema of `core.subagent` admits. -/
structure SubagentArguments where
  agent : String
  agentVersion : Option String := none
  input : String
  depth : Option Nat := none
  input_ne : input ≠ ""

/-- A run, with the number of the run whose tool call has started it. -/
structure AgentRun (V : Type) where
  id : String
  request : RunRequest V
  caller : Option Nat := none

/-- The context of a tool call of `_execute_tool`. -/
def AgentRun.context (r : AgentRun V) (agent : AgentDefinition V) (stepId callId : String) :
    ToolContext where
  runId := r.id
  stepId := stepId
  tenantId := r.request.tenantId
  userId := r.request.userId
  permissions := agent.toolPermissions
  idempotencyKey := s!"{r.id}:{callId}"

namespace Subagent

inductive Move (V : Type) where
  /-- a client starts a run -/
  | start (id : String) (request : RunRequest V)
  /-- the model of a run calls the tool -/
  | call (caller : Nat) (stepId callId : String) (arguments : SubagentArguments) (id : String)

/-- `execute`, up to `runtime.run`. -/
def request (maxDepth : Int) (arguments : SubagentArguments) (context : ToolContext) :
    Except Exn (RunRequest V) :=
  let depth : Int := arguments.depth.getD 0
  if depth ≥ maxDepth then .error (.valueError s!"sub-agent nesting limit {maxDepth} reached")
  else .ok {
    agent := arguments.agent
    agentVersion := arguments.agentVersion
    input := arguments.input
    tenantId := context.tenantId
    userId := context.userId
    metadata := [("parent_run_id", context.runId), ("depth", toString (depth + 1))] }

/-- The tool is enabled for the agent, which has its permission. -/
def Enabled (agent : AgentDefinition V) : Prop :=
  "core.subagent" ∈ agent.enabledTools ∧ "agents.delegate" ∈ agent.toolPermissions

instance (agent : AgentDefinition V) : Decidable (Enabled agent) :=
  inferInstanceAs (Decidable (_ ∧ _))

/-- The runs after a move; `agentOf` is the registry. -/
def step (maxDepth : Int) (agentOf : RunRequest V → Option (AgentDefinition V))
    (runs : List (AgentRun V)) : Move V → Option (List (AgentRun V))
  | .start id request => some (runs ++ [{ id, request }])
  | .call caller stepId callId arguments id => do
    let r ← runs[caller]?
    let agent ← agentOf r.request
    if Enabled agent then
      match (request maxDepth arguments (r.context agent stepId callId) :
          Except Exn (RunRequest V)) with
      | .ok request => some (runs ++ [{ id, request, caller := some caller }])
      -- the tool call fails, and nothing is started
      | .error _ => some runs
    else none

end Subagent

end TracciaRuntime
