/-
  Traccia Runtime formalization — the operations the runtime awaits and the
  world they act on.

  * `Op`, `Op.Resp`: an atomic section of a store, a call into a pluggable
    component (planner, policy engine, verifier, provider, tool handler, cache
    backend), or a step of the event loop;
  * `World`: the stores, the processes of the deployment with their task
    tables, and the history of policy checks and handler invocations;
  * `Config.sem`: the semantics.  What a pluggable component answers is chosen
    by the environment, every operation that leaves the process can fail before
    or after it took effect, and a suspended task can be cancelled.
-/
import TracciaRuntime.Async.Safe
import TracciaRuntime.Config.Registry
import TracciaRuntime.Persistence.Runs
import TracciaRuntime.Persistence.ToolExecutions
import TracciaRuntime.Approvals.Service

namespace TracciaRuntime

open Py Async

variable {V : Type}

/-! ## Events, verification results and cache contracts -/

structure VerificationResult where
  passed : Bool
  confidence : ℚ
  reasonCode : String
  message : String
  repairHint : Option String := none
  deriving DecidableEq

/-- The event types with their data. -/
inductive EventBody (V : Type) where
  | runStarted (agent : String)
  | stepStarted (action : ActionType)
  | contextRetrieved (messageCount sourceCount : Nat) (sourceIds : List String)
  | modelStarted
  | modelDelta (delta : String)
  | modelCompleted (provider model : String) (finishReason : FinishReason) (cacheHit : Bool)
  | toolStarted (tool : String)
  | toolCompleted (tool : String)
  | verificationCompleted (passed : Bool) (results : List VerificationResult)
  | clarificationRequired (pausePayload : Option (PausePayload V))
  | approvalRequired (pausePayload : Option (PausePayload V))
  | runCompleted (outcome : String)
  | runFailed (reason error : Option String)
  | runCancelled
  deriving DecidableEq

/-- The events after which a client stops listening. -/
def EventBody.isTerminal : EventBody V → Bool
  | runCompleted _ | runFailed .. | runCancelled => true
  | _ => false

structure RunEvent (V : Type) where
  body : EventBody V
  runId : String
  tenantId : String
  sessionId : String
  correlationId : String
  conversationId : Option String
  turnId : Option String
  parentRunId : Option String
  workflowRunId : Option String
  stepId : Option String
  sequence : Nat
  deriving DecidableEq

structure AuditEvent where
  action : String
  outcome : String
  tenantId : String
  actorId : String
  resourceId : String
  deriving DecidableEq

inductive CacheScope where
  | global | tenant | user | session | run
  deriving DecidableEq

def CacheScope.value : CacheScope → String
  | global => "global"
  | tenant => "tenant"
  | user => "user"
  | session => "session"
  | run => "run"

structure CachePolicy where
  enabled : Bool := false
  scope : CacheScope := .tenant
  ttlSeconds : Nat := 300
  maximumValueBytes : Nat := 1048576
  deriving DecidableEq

/-! ## Operations -/

inductive Op (V : Type) where
  -- run store
  | runsCreate (s : RunState V)
  | runsGet (id tenantId : String)
  | runsSave (s : RunState V) (expected : Nat)
  | runsListActive (limit : Nat)
  -- clock, identifiers, agent registry
  | utcNow
  | uuid
  | agentsGet (name : String) (version : Option String)
  | agentsRegister (definition : AgentDefinition V)
  -- approval stores
  | approvalsInsert (r : ApprovalRequest V)
  | approvalsDecide (id tenantId : String) (decision : ApprovalStatus)
      (modified : Option (Dict String V))
  | approvalsGet (id tenantId : String)
  | approvalsSave (r : ApprovalRequest V) (expected : ApprovalStatus)
  -- event bus, audit log, memory
  | nextSequence (runId : String)
  | publish (e : RunEvent V)
  | auditAppend (e : AuditEvent)
  | memoryAppend (tenantId sessionId : String) (messages : List (Message V))
  -- pluggable components
  | policyEvaluate (point : PolicyPoint) (payload : Payload V) (context : PolicyContext V)
  | buildContext (s : RunState V) (agent : AgentDefinition V)
  | plan (s : RunState V) (agent : AgentDefinition V)
  | verify (names : List String) (value : Option String) (s : RunState V)
      (agent : AgentDefinition V) (schema : Option (Dict String V))
  | generate (r : ModelRequest V) (profiles : List (ModelProfile V)) (allowlist : Finset String)
  /-- open a stream: the answer is the number of events it is going to deliver -/
  | streamOpen (r : ModelRequest V) (profiles : List (ModelProfile V)) (allowlist : Finset String)
  | streamNext
  | handler (tool : String) (arguments : Dict String V) (context : ToolContext)
  /-- the composer's `RunResult` only goes back to the client -/
  | compose (composer : String) (s : RunState V)
  | sleep (seconds : ℚ)
  -- cache
  | cacheGet (key : String)
  | cacheSet (key value : String) (ttlSeconds : Nat) (tags : List String)
  | inflightJoin (key : String)
  | futureWait (id : Nat)
  | futureSet (id : Nat) (x : Except Exn V)
  | inflightPop (key : String)
  -- tool execution stores
  | toolBegin (context : ToolContext) (toolName : String)
  | toolComplete (key : String) (result : ToolResult V)
  | toolFail (key error : String) (indeterminate : Bool)
  | pgInsert (record : ToolExecutionRecord V)
  | pgSelect (key tenantId : String)
  | pgRestart (record : ToolExecutionRecord V) (key : String)
  | pgGet (key : String)
  | pgUpdate (record : ToolExecutionRecord V)
  -- event loop
  | acquire (semaphore : String) (maxConcurrency : Nat)
  | release (semaphore : String)
  | acceptingRuns
  | stopAccepting
  | shutdownCancellation
  | schedule (runId tenantId : String)
  | taskLive (runId : String)
  /-- `_tasks[run_id]` -/
  | driverOf (runId : String)
  /-- `await task`: a caller that is cancelled here cancels the task and goes on waiting -/
  | join (task : Nat)
  | cancelTask (runId : String)
  /-- wait for the tasks to end, or for the grace period to elapse -/
  | waitTasks (tasks : List Nat) (timeout : Bool)
  | cancelTasks (tasks : List Nat)
  /-- a loop that neither awaits nor changes its condition -/
  | spin

namespace Op

/-- What an operation returns. -/
abbrev Resp : Op V → Type
  | runsCreate _ | runsSave .. => Unit
  | runsGet .. => Option (RunState V)
  | runsListActive _ => List (RunState V)
  | utcNow => Time
  | uuid => String
  | agentsGet .. => AgentDefinition V
  | agentsRegister _ => Unit
  | approvalsInsert _ => Unit
  | approvalsDecide .. => ApprovalRequest V
  | approvalsGet .. => Option (ApprovalRequest V)
  | approvalsSave .. => Bool
  | nextSequence _ => Nat
  | publish _ | auditAppend _ | memoryAppend .. => Unit
  | policyEvaluate .. => PolicyDecision V
  | buildContext .. => List (Message V) × List Citation
  | plan .. => Plan V
  | verify .. => List VerificationResult
  | generate .. => ModelResponse V
  | streamOpen .. => Nat
  | streamNext => ModelStreamEvent V
  | handler .. => V
  | compose .. | sleep _ => Unit
  | cacheGet _ => Option String
  | cacheSet .. => Unit
  | inflightJoin _ => Nat × Bool
  | futureWait _ => V
  | futureSet .. | inflightPop _ => Unit
  | toolBegin .. => ToolExecutionRecord V × Bool
  | toolComplete .. | toolFail .. => Unit
  | pgInsert _ => Bool
  | pgSelect .. => Option (ToolExecutionRecord V)
  | pgRestart .. => Bool
  | pgGet _ => Option (ToolExecutionRecord V)
  | pgUpdate _ => Unit
  | acquire .. | release _ => Unit
  | acceptingRuns | shutdownCancellation | taskLive _ | join _ => Bool
  | driverOf _ => Nat
  | stopAccepting | cancelTasks _ => List Nat
  | schedule .. | cancelTask _ | waitTasks .. | spin => Unit

/-- The calls whose answer is up to a pluggable component or an outside service. -/
def isExternal : Op V → Bool
  | auditAppend _ | policyEvaluate .. | buildContext .. | plan .. | verify .. | generate ..
  | streamOpen .. | streamNext | handler .. | compose .. | sleep _ | cacheGet _ | cacheSet .. => true
  | _ => false

/-- The steps that run inside the process, without suspending the task; they
    cannot fail but for what the code itself raises. -/
def isLocal : Op V → Bool
  | utcNow | uuid | agentsGet .. | agentsRegister _ | inflightJoin _ | futureSet ..
  | inflightPop _ | release _ | acceptingRuns | stopAccepting | shutdownCancellation | schedule ..
  | taskLive _ | driverOf _ | cancelTask _ | cancelTasks _ | spin => true
  | _ => false

/-- The environment's choice when the operation completes: the answer of a call out
    of the process, the reading of the clock, a fresh identifier. -/
abbrev Choice : Op V → Type
  | utcNow | approvalsDecide .. => Time
  | uuid => String
  | schedule .. => Nat
  | policyEvaluate .. => PolicyDecision V
  | buildContext .. => List (Message V) × List Citation
  | plan .. => Plan V
  | verify .. => List VerificationResult
  | generate .. => ModelResponse V
  | streamOpen .. => Nat
  | streamNext => ModelStreamEvent V
  | handler .. => V
  | cacheGet _ => Option String
  | join _ => Bool
  | _ => Unit

end Op

/-! ## The world -/

/-- A process of the deployment: the state of its `AgentRuntime`, `ToolExecutor`
    and `CacheService`. -/
structure Proc where
  accepting : Bool := true
  shutdownCancellation : Bool := false
  /-- `_tasks`: the driver of each run -/
  tasks : Dict String Nat := []
  /-- the free slots of each semaphore -/
  semaphores : Dict String Nat := []
  /-- `_inflight`: the future of each cache key -/
  inflight : Dict String Nat := []
  deriving DecidableEq

/-- A `plan_tool` policy check. -/
structure PlanCheck (V : Type) where
  arguments : Payload V
  context : PolicyContext V
  decision : PolicyDecision V
  deriving DecidableEq

/-- An invocation of a tool handler by `task`, whose last `plan_tool` check was `planned`. -/
structure Invocation (V : Type) where
  task : Nat
  tool : String
  arguments : Dict String V
  context : ToolContext
  planned : Option (PlanCheck V)
  deriving DecidableEq

/-- A driver task: its run, and the task that scheduled it. -/
structure Driver where
  runId : String
  tenantId : String
  scheduler : Nat
  deriving DecidableEq

structure World (V : Type) where
  now : Time := 0
  /-- the identifiers `uuid4` has given out, with the task that got them -/
  issued : Dict String Nat := []
  agents : Dict String (AgentDefinition V) := []
  runs : Runs V := []
  approvals : Approvals V := []
  executions : Executions V := []
  events : List (RunEvent V) := []
  memory : Dict (String × String) (List (Message V)) := []
  /-- futures by number; `none` while pending -/
  futures : Dict Nat (Option (Except Exn V)) := []
  procs : Nat → Proc := fun _ => {}
  drivers : Dict Nat Driver := []
  /-- the tasks that have begun to run -/
  started : Finset Nat := ∅
  /-- the tasks that have ended -/
  done : Finset Nat := ∅
  cancelRequested : Finset Nat := ∅
  /-- the last `plan_tool` check of each task -/
  planned : Nat → Option (PlanCheck V) := fun _ => none
  /-- the handler invocations, newest first -/
  invocations : List (Invocation V) := []

/-- Why `jsonschema.validate` rejects: the value, or the schema itself. -/
inductive Invalid where
  | validation (message : String)
  | schema
  deriving DecidableEq

/-- Functions of the standard library and of third-party packages that the code
    calls on values it does not look into. -/
structure Lib (V : Type) where
  /-- `str(v)` -/
  str : V → String
  /-- `json.dumps(v, default=str)` -/
  dumps : V → String
  /-- `json.loads` -/
  loads : String → Option V
  /-- `json.dumps(v, sort_keys=True, separators=(",", ":"), default=str)` -/
  canonical : V → String
  /-- `len(s.encode())` -/
  size : String → Nat
  /-- the value is `None` -/
  isNone : V → Bool
  /-- `jsonschema.validate` -/
  validate : V → Dict String V → Except Invalid Unit
  /-- the dictionary as a value -/
  ofDict : Dict String V → V
  ofString : String → V
  ofBool : Bool → V
  ofList : List V → V
  /-- what a policy put in the place of a value -/
  ofPayload : Option (Payload V) → V
  /-- `ModelResponse.model_validate`, `.model_dump` -/
  toModelResponse : V → Option (ModelResponse V)
  ofModelResponse : ModelResponse V → V
  /-- `ToolResult.model_validate`, `.model_dump` -/
  toToolResult : V → Option (ToolResult V)
  ofToolResult : ToolResult V → V
  /-- the cache material of a model request and its profiles -/
  ofModelRequest : ModelRequest V → V
  ofModelProfile : ModelProfile V → V
  ofTokenUsage : TokenUsage → V
  /-- the (keyed) SHA-256 digest -/
  digest : String → String

/-- The library functions on values that are kept as JSON texts, with every schema
    satisfied. -/
def Lib.text : Lib String where
  str := id
  dumps := id
  loads := some
  canonical := id
  size s := s.toList.length
  isNone s := s = "null"
  validate _ _ := .ok ()
  ofDict d := "\x7b" ++ ", ".intercalate (d.map fun i => "\"" ++ i.1 ++ "\": " ++ i.2) ++ "\x7d"
  ofString s := "\"" ++ s ++ "\""
  ofBool b := if b then "true" else "false"
  ofList l := "[" ++ ", ".intercalate l ++ "]"
  ofPayload
    | some (.value v) => v
    | _ => "null"
  toModelResponse _ := none
  ofModelResponse r := r.message.textContent
  toToolResult _ := none
  ofToolResult r := "\x7b\"value\": " ++ r.value ++ "\x7d"
  ofModelRequest r := "\n".intercalate (r.messages.map Message.textContent)
  ofModelProfile p := "\"" ++ p.name ++ "\""
  ofTokenUsage u := toString u.totalTokens
  digest s := "sha256:" ++ s

/-- What the runtime is wired with. -/
structure Config (V : Type) where
  lib : Lib V
  /-- the process a task runs in -/
  proc : Nat → Nat := fun _ => 0
  /-- the registered tools; the registry keeps them under their names -/
  tools : List (ToolDefinition V) := []
  planners : List String := ["direct", "react", "rule_based"]
  contextBuilders : List String := ["default"]
  composers : List String := ["default"]
  /-- the policies of the runtime's cache service, if it has one -/
  cache : Option (Dict String CachePolicy) := none
  /-- the policies of the tool executor's cache service, if it has one -/
  toolCache : Option (Dict String CachePolicy) := none
  runStore : StoreKind := .inMemory
  approvalStore : StoreKind := .inMemory
  toolStore : StoreKind := .inMemory
  eventBus : StoreKind := .inMemory

/-- The tool registered under a name. -/
def Config.tool (cfg : Config V) (name : String) : Option (ToolDefinition V) :=
  cfg.tools.find? fun d => d.name = name

end TracciaRuntime
