/-
  Traccia Runtime formalization — the contracts shared by the runtime
  (`types/contracts.py`, `exceptions/errors.py`, and the planning, policy,
  approval and tool contracts).

  * `V` is the type of the values the runtime passes on without looking into
    them (tool arguments and results, schemas, metadata);
  * times, durations, costs and confidences are rational numbers;
  * a set is a `Finset`, a tuple or list a `List`, a dictionary a `Dict`.
-/
import TracciaRuntime.Py.Dict
import Mathlib.Data.Rat.Defs
import Mathlib.Data.Finset.Insert
import Mathlib.Data.Finset.SDiff

namespace TracciaRuntime

open Py

/-- Points in time (`datetime`), in seconds. -/
abbrev Time := ℚ

/-! ## Messages and model calls -/

inductive Role where
  | system | user | assistant | tool
  deriving DecidableEq

inductive ContentBlock where
  | text (text : String)
  | image (url data mediaType : Option String)
  | file (artifactId : String) (mediaType : Option String)
  deriving DecidableEq

structure ToolCall (V : Type) where
  id : String
  name : String
  arguments : Dict String V
  deriving DecidableEq

structure Message (V : Type) where
  role : Role
  content : List ContentBlock
  name : Option String := none
  toolCallId : Option String := none
  toolCalls : List (ToolCall V) := []
  deriving DecidableEq

def Message.text {V : Type} (role : Role) (text : String) : Message V :=
  { role, content := [.text text] }

/-- The text blocks of a message, one per line. -/
def Message.textContent {V : Type} (m : Message V) : String :=
  "\n".intercalate (m.content.filterMap fun
    | .text t => some t
    | _ => none)

structure TokenUsage where
  inputTokens : Int := 0
  outputTokens : Int := 0
  cachedTokens : Int := 0
  estimatedCostUsd : ℚ := 0
  deriving DecidableEq

def TokenUsage.totalTokens (u : TokenUsage) : Int := u.inputTokens + u.outputTokens

inductive FinishReason where
  | stop | toolCalls | length | contentFilter | error | cancelled
  deriving DecidableEq

inductive ErrorKind where
  | authentication | authorization | rateLimit | timeout | unavailable | invalidRequest
  | invalidResponse | cancelled | unknown
  deriving DecidableEq

structure ToolSpec (V : Type) where
  name : String
  description : String
  inputSchema : Dict String V
  deriving DecidableEq

structure ModelRequest (V : Type) where
  messages : List (Message V)
  model : Option String := none
  tools : List (ToolSpec V) := []
  responseSchema : Option (Dict String V) := none
  temperature : Option ℚ := none
  maxOutputTokens : Option Int := none
  timeoutSeconds : Option ℚ := none
  stream : Bool := false
  rawResponseEnabled : Bool := false
  extensions : Dict String V := []
  deriving DecidableEq

structure ModelResponse (V : Type) where
  id : String
  message : Message V
  toolCalls : List (ToolCall V) := []
  finishReason : FinishReason := .stop
  usage : TokenUsage := {}
  latencyMs : ℚ := 0
  model : String
  provider : String
  rawMetadata : Option (Dict String V) := none
  deriving DecidableEq

/-- The parts of a stream event that the runtime reads. -/
structure ModelStreamEvent (V : Type) where
  delta : Option String := none
  response : Option (ModelResponse V) := none
  deriving DecidableEq

structure ModelProfile (V : Type) where
  name : String
  provider : Option String := none
  model : Option String := none
  requiredCapabilities : Finset String := {"chat"}
  qualityTier : Nat := 1
  maxCostPer1kTokens : Option ℚ := none
  maxLatencyMs : Option ℚ := none
  routingPreference : String := "balanced"
  extensions : Dict String V := []
  deriving DecidableEq

/-! ## Agents -/

structure RetryPolicy where
  maxAttempts : Nat := 3
  initialBackoffSeconds : ℚ := 1 / 10
  maxBackoffSeconds : ℚ := 5
  deriving DecidableEq

structure Budget where
  maxTokens : Int := 100000
  maxOutputTokens : Int := 8192
  maxCostUsd : ℚ := 10
  maxLatencySeconds : ℚ := 300
  deriving DecidableEq

structure MemoryPolicy where
  enabled : Bool := true
  retentionSeconds : Int := 86400
  deriving DecidableEq

structure GuardrailPolicy where
  policies : List String :=
    ["secrets", "pii", "prompt_injection", "output_validation", "authorization"]
  requireCitations : Bool := false
  deriving DecidableEq

structure VerificationPolicy where
  verifiers : List String := ["non_empty"]
  minimumConfidence : ℚ := 0
  maxRepairs : Nat := 1
  deriving DecidableEq

structure ApprovalPolicy where
  requireForSideEffects : Bool := true
  requireForDestructive : Bool := true
  expiresSeconds : Nat := 3600
  deriving DecidableEq

structure AgentDefinition (V : Type) where
  name : String
  version : String
  defaultModel : ModelProfile V
  fallbackModels : List (ModelProfile V) := []
  enabledTools : Finset String := ∅
  toolPermissions : Finset String := ∅
  contextBuilder : String := "default"
  planningStrategy : String := "react"
  memoryPolicy : MemoryPolicy := {}
  guardrailPolicy : GuardrailPolicy := {}
  verificationPolicy : VerificationPolicy := {}
  retryPolicy : RetryPolicy := {}
  approvalPolicy : ApprovalPolicy := {}
  responseComposer : String := "default"
  budget : Budget := {}
  maxSteps : Nat := 16
  modelAllowlist : Finset String := ∅
  deriving DecidableEq

def AgentDefinition.key {V : Type} (a : AgentDefinition V) : String := a.name ++ "@" ++ a.version

/-! ## Runs -/

inductive RunStatus where
  | received | validating | buildingContext | planning | awaitingClarification | awaitingApproval
  | invokingModel | invokingTool | verifying | retrying | composing | completed | failed
  | cancelled | timedOut
  deriving DecidableEq

/-- The value of a status, as it is stored and printed. -/
def RunStatus.value : RunStatus → String
  | received => "received"
  | validating => "validating"
  | buildingContext => "building_context"
  | planning => "planning"
  | awaitingClarification => "awaiting_clarification"
  | awaitingApproval => "awaiting_approval"
  | invokingModel => "invoking_model"
  | invokingTool => "invoking_tool"
  | verifying => "verifying"
  | retrying => "retrying"
  | composing => "composing"
  | completed => "completed"
  | failed => "failed"
  | cancelled => "cancelled"
  | timedOut => "timed_out"

def terminalStatuses : List RunStatus := [.completed, .failed, .cancelled, .timedOut]

def pausedStatuses : List RunStatus := [.awaitingClarification, .awaitingApproval]

structure RequestOverrides (V : Type) where
  temperature : Option ℚ := none
  maxOutputTokens : Option Int := none
  responseSchema : Option (Dict String V) := none
  deriving DecidableEq

structure RunRequest (V : Type) where
  agent : String
  agentVersion : Option String := none
  input : String
  sessionId : Option String := none
  tenantId : String
  userId : String
  correlationId : String := ""
  conversationId : Option String := none
  turnId : Option String := none
  parentRunId : Option String := none
  workflowRunId : Option String := none
  timeoutSeconds : Option ℚ := none
  stream : Bool := false
  metadata : Dict String String := []
  overrides : RequestOverrides V := {}
  deriving DecidableEq

structure ExecutionSummary where
  decisions : List String := []
  modelCalls : Nat := 0
  toolCalls : Nat := 0
  retries : Nat := 0
  usage : TokenUsage := {}
  deriving DecidableEq

structure Citation where
  id : String
  documentId : String
  chunkId : String
  source : String
  title : Option String := none
  uri : Option String := none
  score : ℚ
  deriving DecidableEq

/-- What a paused run waits for. -/
inductive PausePayload (V : Type) where
  | clarification (question : String)
  | approval (approvalId toolCallId proposedAction sideEffectSummary : String)
      (redactedParameters : Dict String V) (risk : String) (expiresAt : Time)
      (options : List String)
  deriving DecidableEq

structure RunState (V : Type) where
  id : String
  request : RunRequest V
  agentKey : Option String := none
  sessionId : String
  status : RunStatus := .received
  stepCount : Nat := 0
  attemptCount : Nat := 0
  updatedAt : Time := 0
  deadline : Option Time := none
  messages : List (Message V) := []
  pendingToolCalls : List (ToolCall V) := []
  completedToolCallIds : Finset String := ∅
  approvedToolCallIds : Finset String := ∅
  outputText : Option String := none
  error : Option String := none
  pausePayload : Option (PausePayload V) := none
  citations : List Citation := []
  summary : ExecutionSummary := {}
  version : Nat := 0
  deriving DecidableEq

/-! ## Plans -/

inductive ActionType where
  | model | tool | clarify | approve | complete | fail
  deriving DecidableEq

def ActionType.value : ActionType → String
  | model => "model"
  | tool => "tool"
  | clarify => "clarify"
  | approve => "approve"
  | complete => "complete"
  | fail => "fail"

structure PlannedAction (V : Type) where
  id : String
  type : ActionType
  description : String
  toolName : Option String := none
  arguments : Dict String V := []
  deriving DecidableEq

structure Plan (V : Type) where
  actions : List (PlannedAction V)
  decisionSummary : String
  deriving DecidableEq

/-! ## Policies -/

inductive PolicyAction where
  | allow | deny | redact | transform | requireClarification | requireApproval
  deriving DecidableEq

def PolicyAction.value : PolicyAction → String
  | allow => "allow"
  | deny => "deny"
  | redact => "redact"
  | transform => "transform"
  | requireClarification => "require_clarification"
  | requireApproval => "require_approval"

inductive PolicyPoint where
  | input | beforeRetrieval | afterRetrieval | beforeModel | afterModel | planTool | beforeTool
  | afterTool | finalResponse | beforeMemoryWrite | afterMemoryWrite
  deriving DecidableEq

def PolicyPoint.value : PolicyPoint → String
  | input => "input"
  | beforeRetrieval => "before_retrieval"
  | afterRetrieval => "after_retrieval"
  | beforeModel => "before_model"
  | afterModel => "after_model"
  | planTool => "plan_tool"
  | beforeTool => "before_tool"
  | afterTool => "after_tool"
  | finalResponse => "final_response"
  | beforeMemoryWrite => "before_memory_write"
  | afterMemoryWrite => "after_memory_write"

/-- What crosses a policy boundary. -/
inductive Payload (V : Type) where
  | text (s : String)
  | messages (ms : List (Message V))
  | request (r : ModelRequest V)
  | arguments (d : Dict String V)
  | value (v : V)
  | items (n : Nat)
  deriving DecidableEq

/-- The entries of a decision's audit metadata that the runtime reads or writes. -/
structure PolicyAudit where
  risk : Option String := none
  transforms : List String := []
  policiesInvoked : List String := []
  policiesTriggered : List String := []
  policiesSkipped : List String := []
  deriving DecidableEq

structure PolicyDecision (V : Type) where
  action : PolicyAction
  reasonCode : String
  reason : String
  value : Option (Payload V) := none
  auditMetadata : PolicyAudit := {}
  deriving DecidableEq

/-! ## Tools -/

inductive SideEffect where
  | none | read | write | external | destructive
  deriving DecidableEq

def SideEffect.value : SideEffect → String
  | none => "none"
  | read => "read"
  | write => "write"
  | external => "external"
  | destructive => "destructive"

inductive Idempotency where
  | idempotent | keyed | nonIdempotent
  deriving DecidableEq

structure ToolDefinition (V : Type) where
  name : String
  version : String
  description : String
  inputSchema : Dict String V
  outputSchema : Dict String V
  requiredPermissions : Finset String := ∅
  sideEffect : SideEffect := .none
  idempotency : Idempotency := .idempotent
  timeoutSeconds : ℚ := 30
  retryPolicy : RetryPolicy := {}
  maxConcurrency : Nat := 10
  maxResultBytes : Nat := 1048576
  deriving DecidableEq

structure ToolContext where
  runId : String
  stepId : String
  tenantId : String
  userId : String
  permissions : Finset String
  idempotencyKey : String
  deriving DecidableEq

structure ToolResult (V : Type) where
  value : V
  metadata : Dict String V := []
  artifactIds : List String := []
  redacted : Bool := false
  deriving DecidableEq

inductive ToolExecutionStatus where
  | started | completed | failed | indeterminate
  deriving DecidableEq

def ToolExecutionStatus.value : ToolExecutionStatus → String
  | started => "started"
  | completed => "completed"
  | failed => "failed"
  | indeterminate => "indeterminate"

structure ToolExecutionRecord (V : Type) where
  idempotencyKey : String
  runId : String
  stepId : String
  tenantId : String
  toolName : String
  status : ToolExecutionStatus
  result : Option (ToolResult V) := none
  error : Option String := none
  deriving DecidableEq

/-! ## Approvals -/

inductive ApprovalStatus where
  | pending | approved | rejected | modified | expired
  deriving DecidableEq

def ApprovalStatus.value : ApprovalStatus → String
  | pending => "pending"
  | approved => "approved"
  | rejected => "rejected"
  | modified => "modified"
  | expired => "expired"

/-- `ApprovalStatus(raw)`: every value of the enumeration is accepted. -/
def ApprovalStatus.parse (raw : String) : Option ApprovalStatus :=
  [pending, approved, rejected, modified, expired].find? fun s => s.value = raw

structure ApprovalRequest (V : Type) where
  id : String
  runId : String
  stepId : String
  tenantId : String
  proposedAction : String
  sideEffectSummary : String
  redactedParameters : Dict String V
  risk : String
  expiresAt : Time
  status : ApprovalStatus := .pending
  modifiedParameters : Option (Dict String V) := none
  deriving DecidableEq

/-! ## Policy contexts -/

/-- The context mapping of a policy evaluation; absent keys are `none`. -/
structure PolicyContext (V : Type) where
  agent : Option (AgentDefinition V) := none
  tool : Option (ToolDefinition V) := none
  approvalPolicy : Option ApprovalPolicy := none
  context : Option ToolContext := none
  toolCalls : Option (List (ToolCall V)) := none
  runId : Option String := none
  tenantId : Option String := none
  userId : Option String := none
  usage : Option TokenUsage := none
  stepCount : Option Nat := none
  deriving DecidableEq

/-! ## Exceptions -/

/-- The reasons of a `ConflictError`. -/
inductive Conflict where
  | draining
  | invalidTransition (current target : RunStatus)
  | runExists (id : String)
  | concurrentlyModified (id : String)
  | alreadyExecuting
  | agentRegistered (key : String)
  | cannotResume (status : RunStatus)
  | unsupportedAction (type : ActionType)
  | approvalDecided
  | approvalExpired
  | approvalConcurrentlyDecided
  | executionNotAccessible
  | reservationNotFound
  | leaseNotOwned
  | graphExists (id : String)
  | graphModified (id : String)
  | conversationDraining
  | activeResponse
  | conversationModified (id : String)
  | messageExists (id : String)
  | messageNotFound (id : String)
  deriving DecidableEq

def Conflict.message : Conflict → String
  | draining => "runtime is draining and is not accepting new runs"
  | invalidTransition a b => s!"invalid run transition: {a.value} -> {b.value}"
  | runExists id => s!"run '{id}' already exists"
  | concurrentlyModified id => s!"run '{id}' was concurrently modified"
  | alreadyExecuting => "run is already executing"
  | agentRegistered key => s!"agent '{key}' already registered"
  | cannotResume s => s!"run in '{s.value}' cannot be resumed"
  | unsupportedAction t => s!"unsupported planned action {t.value}"
  | approvalDecided => "approval request has already been decided"
  | approvalExpired => "approval request expired"
  | approvalConcurrentlyDecided => "approval request was concurrently decided"
  | executionNotAccessible => "tool execution record is not accessible to this tenant"
  | reservationNotFound => "tool execution reservation was not found"
  | leaseNotOwned => "work item lease is not owned by this worker"
  | graphExists id => s!"analytical graph '{id}' already exists"
  | graphModified id => s!"analytical graph '{id}' was concurrently modified"
  | conversationDraining => "conversation service is draining"
  | activeResponse => "conversation already has an active response"
  | conversationModified id => s!"conversation '{id}' was concurrently modified"
  | messageExists id => s!"message '{id}' already exists"
  | messageNotFound id => s!"message '{id}' was not found"

/-- Exceptions.  A timer of `asyncio.timeout` strikes as a cancellation, which the
    block turns into `TimeoutError` (`deadline`). -/
inductive Exn where
  | cancelled
  | deadline
  | timeoutError
  | conflict (c : Conflict)
  | notFound (message : String)
  | policyDenied (message : String)
  | provider (message : String) (kind : ErrorKind) (retryable : Bool)
  | toolExecution (message : String)
  | budgetExceeded (message : String)
  | verification (message : String)
  | valueError (message : String)
  /-- any other `Exception`, by its type -/
  | other (typeName : String)
  deriving DecidableEq

namespace Exn

/-- `type(exc).__name__`. -/
def typeName : Exn → String
  | cancelled | deadline => "CancelledError"
  | timeoutError => "TimeoutError"
  | conflict _ => "ConflictError"
  | notFound _ => "NotFoundError"
  | policyDenied _ => "PolicyDeniedError"
  | provider .. => "ProviderError"
  | toolExecution _ => "ToolExecutionError"
  | budgetExceeded _ => "BudgetExceededError"
  | verification _ => "VerificationError"
  | valueError _ => "ValueError"
  | other n => n

/-- Cancellations are no subclass of `Exception`. -/
def isException : Exn → Bool
  | cancelled | deadline => false
  | _ => true

/-- An `Exception` that is no `TimeoutError`. -/
def isFailure (e : Exn) : Bool := e.isException && e ≠ timeoutError

/-- `AgentRuntime._safe_error`. -/
def safeError : Exn → String
  | conflict c => c.message
  | notFound m | policyDenied m | provider m _ _ | toolExecution m | budgetExceeded m
  | verification m => m
  | e => s!"Internal error ({e.typeName})"

end Exn

end TracciaRuntime
