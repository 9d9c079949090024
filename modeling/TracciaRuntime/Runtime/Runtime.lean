/-
  Traccia Runtime formalization — the agent runtime (`runtime/runtime.py`).

  The methods of `AgentRuntime` as programs.  A method that changes its `RunState`
  returns the new one; telemetry is left out.
-/
import Mathlib.Algebra.Order.Field.Rat
import TracciaRuntime.Tools.Executor
import TracciaRuntime.Approvals.Program

namespace TracciaRuntime

open Py Async

variable {V : Type} (cfg : Config V)

namespace AgentRuntime

/-! ## Helpers -/

/-- `_require_state`. -/
def requireState (runId tenantId : String) : Task V (RunState V) := do
  let state ← await (.runsGet runId tenantId)
  match state with
  | some s => pure s
  | none => throw (.notFound s!"run '{runId}' not found")

/-- Write the state with a new status. -/
def saveAs (s : RunState V) (status : RunStatus) : Task V (RunState V) := do
  let now ← await .utcNow
  let s := { s with status, updatedAt := now }
  await (.runsSave s s.version)
  pure { s with version := s.version + 1 }

/-- `_transition`. -/
def transition (s : RunState V) (target : RunStatus) : Task V (RunState V) := do
  Prog.lift (validateTransition s.status target)
  saveAs s target

/-- `_emit`. -/
def emit (s : RunState V) (body : EventBody V) (stepId : Option String) : Task V Unit := do
  let sequence ← await (.nextSequence s.id)
  await (.publish {
    body
    runId := s.id
    tenantId := s.request.tenantId
    sessionId := s.sessionId
    correlationId := s.request.correlationId
    conversationId := s.request.conversationId
    turnId := s.request.turnId
    parentRunId := s.request.parentRunId
    workflowRunId := s.request.workflowRunId
    stepId
    sequence })

/-- `_audit`, without the redacted metadata. -/
def audit (s : RunState V) (action outcome resourceId : String) : Task V Unit :=
  await (.auditAppend { action, outcome, tenantId := s.request.tenantId,
                        actorId := s.request.userId, resourceId })

/-- `_evaluate_policy`. -/
def evaluatePolicy (point : PolicyPoint) (payload : Payload V) (s : RunState V)
    (context : PolicyContext V) : Task V (PolicyDecision V) :=
  await (.policyEvaluate point payload { context with
    runId := some s.id, tenantId := some s.request.tenantId, userId := some s.request.userId,
    usage := some s.summary.usage, stepCount := some s.stepCount })

/-- `_policy_value`; `none` is Python's `None`. -/
def policyValue (point : PolicyPoint) (payload : Payload V) (s : RunState V)
    (context : PolicyContext V) : Task V (Option (Payload V)) := do
  let decision ← evaluatePolicy point payload s context
  audit s "policy.decision" decision.action.value point.value
  match decision.action with
  | .deny => throw (.policyDenied s!"{decision.reasonCode}: {decision.reason}")
  | .redact | .transform => pure decision.value
  | .requireApproval | .requireClarification => throw (.policyDenied
      s!"policy action {decision.action.value} is unsupported at boundary {point.value}")
  | .allow => pure (some payload)

/-- `str` of a checked payload. -/
def payloadStr : Option (Payload V) → String
  | some (.text t) => t
  | none => "None"
  | p => cfg.lib.str (cfg.lib.ofPayload p)

/-- `_enforce_budget`. -/
def enforceBudget (s : RunState V) (agent : AgentDefinition V) : Except Exn Unit :=
  if s.summary.usage.totalTokens ≥ agent.budget.maxTokens then
    .error (.budgetExceeded "token budget exhausted")
  else if s.summary.usage.estimatedCostUsd ≥ agent.budget.maxCostUsd then
    .error (.budgetExceeded "cost budget exhausted")
  else .ok ()

/-- `_add_usage`. -/
def addUsage (l r : TokenUsage) : TokenUsage where
  inputTokens := l.inputTokens + r.inputTokens
  outputTokens := l.outputTokens + r.outputTokens
  cachedTokens := l.cachedTokens + r.cachedTokens
  estimatedCostUsd := l.estimatedCostUsd + r.estimatedCostUsd

/-- The state with the input that a policy let through. -/
def withInput (s : RunState V) : Option (Payload V) → RunState V
  | some (.text t) => { s with request := { s.request with input := t } }
  | _ => s

/-- `value or default` for numbers: zero and `None` are false. -/
def orElse {α : Type} [Zero α] [DecidableEq α] (x : Option α) (d : α) : α :=
  match x with
  | some a => if a = 0 then d else a
  | none => d

/-- `max(0.001, (deadline - utc_now()).total_seconds())`. -/
def remainingSeconds (s : RunState V) : Task V (Option ℚ) :=
  match s.deadline with
  | none => pure none
  | some d => do
    let now ← await .utcNow
    pure (some (max (1 / 1000) (d - now)))

/-! ## Model calls -/

/-- What a `ProviderError` carries. -/
structure ProviderFailure where
  message : String
  kind : ErrorKind
  retryable : Bool
  deriving DecidableEq

def ProviderFailure.exn (f : ProviderFailure) : Exn := .provider f.message f.kind f.retryable

/-- `_validate_model_completion`. -/
def validateCompletion (response : ModelResponse V) (request : ModelRequest V) :
    Option ProviderFailure :=
  if response.finishReason = .length then some
    ⟨"model reached its output-token limit before completing the response", .invalidResponse, true⟩
  else if response.finishReason = .contentFilter then some
    ⟨"model response was blocked by the provider content filter", .invalidResponse, false⟩
  else if (request.responseSchema.getD []) ≠ [] ∧ strip response.message.textContent = "" then some
    ⟨"model returned an empty schema-constrained response", .invalidResponse, true⟩
  else none

/-- `_record_rejected_completion`; accepted completions are charged the same way. -/
def charge (s : RunState V) (response : ModelResponse V) : RunState V :=
  { s with summary := { s.summary with
      modelCalls := s.summary.modelCalls + 1,
      usage := addUsage s.summary.usage response.usage } }

/-- The events of a stream: the text parts and the last completed response. -/
def collect (s : RunState V) (stepId : String) : Nat → List String → Option (ModelResponse V) →
    Task V (List String × Option (ModelResponse V))
  | 0, parts, completed => pure (parts, completed)
  | n + 1, parts, completed => do
    let event ← await .streamNext
    let delta := event.delta.getD ""
    let parts ← if delta = "" then pure parts else do
      emit s (.modelDelta delta) (some stepId)
      pure (parts ++ [delta])
    collect s stepId n parts (event.response.or completed)

/-- One request to the router, streamed or not. -/
def requestModel (s : RunState V) (agent : AgentDefinition V) (request : ModelRequest V)
    (profiles : List (ModelProfile V)) (stepId : String) : Task V (ModelResponse V) :=
  if request.stream then do
    let n ← await (.streamOpen request profiles agent.modelAllowlist)
    let x ← collect s stepId n [] none
    match x.2 with
    | none => throw (.provider "stream ended without a completed response" .unknown true)
    | some completed =>
      pure (if x.1 ≠ [] ∧ completed.message.textContent = "" then
          { completed with message := .text .assistant (String.join x.1) }
        else completed)
  else await (.generate request profiles agent.modelAllowlist)

/-- One attempt of `_model_with_retry`: a response or a `ProviderError`, and the state with
    the rejected completion charged. -/
def attemptModel (s : RunState V) (agent : AgentDefinition V) (request : ModelRequest V)
    (profiles : List (ModelProfile V)) (stepId : String) :
    Task V (Except ProviderFailure (ModelResponse V) × RunState V) :=
  tryCatch
    (do
      let response ← requestModel s agent request profiles stepId
      pure (match validateCompletion response request with
        | none => (.ok response, s)
        | some f => (.error f, charge s response)))
    fun
      | .provider m k r => pure (.error ⟨m, k, r⟩, s)
      | e => throw e

/-- The next request after a truncated completion; `none` gives up. -/
def raiseLimit (s : RunState V) (agent : AgentDefinition V) (request : ModelRequest V) :
    Option (ModelRequest V) :=
  let current := orElse request.maxOutputTokens agent.budget.maxOutputTokens
  let remaining := max 1 (agent.budget.maxTokens - s.summary.usage.totalTokens)
  let next := min (max (current + 256) (current * 2)) remaining
  if next ≤ current then none else some { request with maxOutputTokens := some next }

/-- Back to INVOKING_MODEL after a pause. -/
def backOff (s : RunState V) (agent : AgentDefinition V) (attempt : Nat) : Task V (RunState V) := do
  let s := { s with
    summary := { s.summary with retries := s.summary.retries + 1 }
    attemptCount := s.attemptCount + 1 }
  let s ← transition s .retrying
  await (.sleep (min agent.retryPolicy.maxBackoffSeconds
    (agent.retryPolicy.initialBackoffSeconds * 2 ^ attempt)))
  transition s .invokingModel

/-- The request of the next attempt. -/
def nextRequest (s : RunState V) (agent : AgentDefinition V) (request : ModelRequest V)
    (profiles : List (ModelProfile V)) (f : ProviderFailure) : Task V (ModelRequest V) :=
  if f.kind = .invalidResponse ∧ contains "output-token limit" f.message then
    match raiseLimit s agent request with
    | none => throw f.exn
    | some next => do
      let shown (x : Option String) := x.getD "None"
      audit s "model.output_limit_recovery" "retrying" (match profiles with
        | p :: _ => shown p.provider ++ "/" ++ shown p.model
        | [] => "")
      pure next
  else pure request

/-- `_model_with_retry`, with `rest` attempts left after this one. -/
def modelWithRetry (agent : AgentDefinition V) (profiles : List (ModelProfile V))
    (stepId : String) (attempt : Nat) :
    (rest : Nat) → RunState V → ModelRequest V → Task V (ModelResponse V × RunState V)
  | 0, s, request => do
    let x ← attemptModel s agent request profiles stepId
    match x.1 with
    | .ok response => pure (response, x.2)
    | .error f => throw f.exn
  | rest + 1, s, request => do
    let x ← attemptModel s agent request profiles stepId
    match x.1 with
    | .ok response => pure (response, x.2)
    | .error f =>
      if f.retryable then do
        Prog.lift (enforceBudget x.2 agent)
        let request ← nextRequest x.2 agent request profiles f
        let s ← backOff x.2 agent attempt
        modelWithRetry agent profiles stepId (attempt + 1) rest s request
      else throw f.exn

/-- All attempts. -/
def generateResponse (s : RunState V) (agent : AgentDefinition V) (request : ModelRequest V)
    (profiles : List (ModelProfile V)) (stepId : String) : Task V (ModelResponse V × RunState V) :=
  modelWithRetry agent profiles stepId 0 (agent.retryPolicy.maxAttempts - 1) s request

/-- A response from the cache costs nothing. -/
def markCached (response : ModelResponse V) : ModelResponse V :=
  { response with
    usage := { cachedTokens := response.usage.totalTokens }
    latencyMs := 0
    rawMetadata := some ((((response.rawMetadata.getD []).set "runtime_cache_hit"
      (cfg.lib.ofBool true))).set "cached_original_usage" (cfg.lib.ofTokenUsage response.usage)) }

/-- `_model_response`. -/
def modelResponse (s : RunState V) (agent : AgentDefinition V) (request : ModelRequest V)
    (profiles : List (ModelProfile V)) (stepId : String) :
    Task V ((ModelResponse V × Bool) × RunState V) :=
  match cfg.cache with
  | none => do
    let x ← generateResponse s agent request profiles stepId
    pure ((x.1, false), x.2)
  | some policies =>
    if request.stream ∨ request.rawResponseEnabled then do
      let x ← generateResponse s agent request profiles stepId
      pure ((x.1, false), x.2)
    else do
      let material := cfg.lib.ofDict [("agent", cfg.lib.ofString agent.key),
        ("request", cfg.lib.ofModelRequest { request with
          timeoutSeconds := none, stream := false, rawResponseEnabled := false }),
        ("profiles", cfg.lib.ofList (profiles.map cfg.lib.ofModelProfile)),
        ("allowlist", cfg.lib.ofList ((sorted agent.modelAllowlist).map cfg.lib.ofString))]
      let context : CacheContext :=
        { tenantId := some s.request.tenantId, userId := some s.request.userId,
          sessionId := some s.sessionId, runId := some s.id,
          authorizationFingerprint := s.request.metadata.get "authorization_fingerprint" }
      let x ← CacheService.getOrSetJson cfg.lib policies "model_responses" "model.response"
        material context s
        (do
          let x ← generateResponse s agent request profiles stepId
          pure (cfg.lib.ofModelResponse x.1, x.2))
        [s!"agent:{agent.key}"]
      match cfg.lib.toModelResponse x.1.1 with
      | none => throw (.other "ValidationError")
      | some response =>
        pure ((if x.1.2 then markCached cfg response else response, x.1.2), x.2)

/-- The tools of the agent, as the model sees them. -/
def toolSpecs (agent : AgentDefinition V) : List (ToolSpec V) :=
  ((cfg.tools.mergeSort fun a b => a.name ≤ b.name).filter fun d => d.name ∈ agent.enabledTools).map
    fun d => ⟨d.name, d.description, d.inputSchema⟩

/-- The model request of a step. -/
def modelRequest (s : RunState V) (agent : AgentDefinition V) (timeoutSeconds : Option ℚ) :
    ModelRequest V where
  messages := s.messages
  tools := toolSpecs cfg agent
  responseSchema := s.request.overrides.responseSchema
  temperature := s.request.overrides.temperature
  maxOutputTokens := some (min
    (orElse s.request.overrides.maxOutputTokens agent.budget.maxOutputTokens)
    (max 1 (agent.budget.maxTokens - s.summary.usage.totalTokens)))
  timeoutSeconds := timeoutSeconds
  stream := s.request.stream

/-- The response with the text that the policy let through. -/
def checkedResponse (response : ModelResponse V) (checked : Option (Payload V)) :
    ModelResponse V :=
  let replaced := { response with message := .text .assistant (payloadStr cfg checked) }
  match checked with
  | some (.text t) => if t = response.message.textContent then response else replaced
  | _ => replaced

/-- The state after a model response. -/
def withResponse (s : RunState V) (response : ModelResponse V) : RunState V :=
  let text := response.message.textContent
  { charge s response with
    outputText := if text = "" then none else some text
    pendingToolCalls := response.toolCalls
    messages := if text = "" ∧ response.toolCalls = [] then s.messages
      else s.messages ++ [{ response.message with toolCalls := response.toolCalls }] }

/-- `_execute_model`. -/
def executeModel (s : RunState V) (agent : AgentDefinition V)
    (action : PlannedAction V) : Task V (RunState V) := do
  let s ← transition s .invokingModel
  let timeoutSeconds ← remainingSeconds s
  let request := modelRequest cfg s agent timeoutSeconds
  let checked ← policyValue .beforeModel (.request request) s { agent := some agent }
  let request := match checked with
    | some (.request r) => r
    | _ => request
  emit s .modelStarted (some action.id)
  let x ← modelResponse cfg s agent request (agent.defaultModel :: agent.fallbackModels) action.id
  let checked ← policyValue .afterModel (.text x.1.1.message.textContent) x.2
    { agent := some agent, toolCalls := some x.1.1.toolCalls }
  let response := checkedResponse cfg x.1.1 checked
  let s := withResponse x.2 response
  emit s (.modelCompleted response.provider response.model response.finishReason x.1.2)
    (some action.id)
  audit s "model.call" "completed" s!"{response.provider}/{response.model}"
  transition s .planning

/-! ## Tool calls -/

/-- `_redact_mapping`. -/
def redactMapping (value : Dict String V) : Dict String V :=
  value.map fun i =>
    (i.1, if lower i.1 ∈ ["password", "secret", "token", "api_key", "authorization"] then
        cfg.lib.ofString "[REDACTED]"
      else i.2)

/-- The pause of `_execute_tool`. -/
def requestApproval (s : RunState V) (agent : AgentDefinition V) (action : PlannedAction V)
    (definition : ToolDefinition V) (callId : String) (decision : PolicyDecision V) :
    Task V (RunState V) := do
  let approval ← ApprovalService.create s.id action.id s.request.tenantId
    s!"Execute {definition.name}" (redactMapping cfg action.arguments)
    (decision.auditMetadata.risk.getD definition.sideEffect.value)
    agent.approvalPolicy.expiresSeconds
  let s := { s with pausePayload := some (.approval approval.id callId approval.proposedAction
    approval.sideEffectSummary approval.redactedParameters approval.risk approval.expiresAt
    ["approved", "rejected", "modified"]) }
  let s ← transition s .awaitingApproval
  emit s (.approvalRequired s.pausePayload) (some action.id)
  pure s

/-- The `ToolContext` of a call. -/
def toolContext (s : RunState V) (agent : AgentDefinition V) (action : PlannedAction V)
    (callId : String) : ToolContext where
  runId := s.id
  stepId := action.id
  tenantId := s.request.tenantId
  userId := s.request.userId
  permissions := agent.toolPermissions
  idempotencyKey := s!"{s.id}:{callId}"

/-- The state after a tool result. -/
def withResult (s : RunState V) (definition : ToolDefinition V) (callId : String)
    (result : ToolResult V) : RunState V :=
  { s with
    completedToolCallIds := insert callId s.completedToolCallIds
    pendingToolCalls := s.pendingToolCalls.filter fun call => call.id ≠ callId
    messages := s.messages ++ [{
      role := .tool
      name := some definition.name
      toolCallId := some callId
      content := [.text (cfg.lib.dumps result.value)] }]
    outputText := none
    summary := { s.summary with toolCalls := s.summary.toolCalls + 1 } }

/-- The call of `_execute_tool`. -/
def invokeTool (s : RunState V) (agent : AgentDefinition V) (action : PlannedAction V)
    (definition : ToolDefinition V) (callId : String) : Task V (RunState V) := do
  let s ← transition s .invokingTool
  emit s (.toolStarted definition.name) (some action.id)
  let result ← ToolExecutor.execute cfg definition.name action.arguments
    (toolContext s agent action callId)
  let s := withResult cfg s definition callId result
  emit s (.toolCompleted definition.name) (some action.id)
  audit s "tool.call" "completed" definition.name
  transition s .buildingContext

/-- `_execute_tool`. -/
def executeTool (s : RunState V) (agent : AgentDefinition V) (action : PlannedAction V) :
    Task V (RunState V) := do
  let name := action.toolName.getD ""
  Prog.raiseIf (match action.toolName with
      | some n => n ∉ agent.enabledTools
      | none => true)
    (.policyDenied (match action.toolName with
      | some n => s!"tool '{n}' is not enabled for this agent"
      | none => "tool None is not enabled for this agent"))
  let definition ← Prog.lift (toolsGet cfg name)
  let callId := removePrefix "tool-" action.id
  let decision ← evaluatePolicy .planTool (.arguments action.arguments) s
    { tool := some definition, approvalPolicy := some agent.approvalPolicy }
  if decision.action = .requireApproval ∧ callId ∉ s.approvedToolCallIds then
    requestApproval cfg s agent action definition callId decision
  else invokeTool cfg s agent action definition callId

/-! ## Completion -/

/-- The verifiers of a run. -/
def verifierNames (s : RunState V) (agent : AgentDefinition V) : List String :=
  let names := agent.verificationPolicy.verifiers
  let names := if (s.request.overrides.responseSchema.getD []) ≠ [] ∧ "json_schema" ∉ names then
    names ++ ["json_schema"] else names
  if agent.guardrailPolicy.requireCitations ∧ "citations" ∉ names then names ++ ["citations"]
  else names

/-- The repair of `_verify_and_complete`. -/
def repair (s : RunState V) : Task V (RunState V) := do
  let s := { s with
    attemptCount := s.attemptCount + 1
    outputText := none
    messages := s.messages ++
      [.text .system "Repair the previous response to satisfy validation."]
    summary := { s.summary with retries := s.summary.retries + 1 } }
  let s ← transition s .retrying
  transition s .planning

/-- The memory write of `_verify_and_complete`. -/
def writeMemory (s : RunState V) (agent : AgentDefinition V) : Task V Unit :=
  if agent.memoryPolicy.enabled then do
    let output := s.outputText.getD ""
    let persisted : List (Message V) := Message.text .user s.request.input ::
      (if output = "" then [] else [.text .assistant output])
    let checked ← policyValue .beforeMemoryWrite (.messages persisted) s { agent := some agent }
    let persisted := match checked with
      | some (.messages ms) => ms
      | _ => persisted
    await (.memoryAppend s.request.tenantId s.sessionId persisted)
    let _ ← policyValue .afterMemoryWrite (.items persisted.length) s { agent := some agent }
    pure ()
  else pure ()

/-- The end of a run that passed its verification. -/
def compose (s : RunState V) (agent : AgentDefinition V) (stepId : String) :
    Task V (RunState V) := do
  let checked ← policyValue .finalResponse (.text (s.outputText.getD "")) s { agent := some agent }
  let s := { s with outputText := some (payloadStr cfg checked) }
  let s ← transition s .composing
  writeMemory s agent
  let s ← transition s .completed
  emit s (.runCompleted "completed") (some stepId)
  pure s

/-- `_verify_and_complete`. -/
def verifyAndComplete (s : RunState V) (agent : AgentDefinition V) (stepId : String) :
    Task V (RunState V) := do
  let s ← transition s .verifying
  let results ← await (.verify (verifierNames s agent) s.outputText s agent
    s.request.overrides.responseSchema)
  let passed := results.all fun item =>
    item.passed && item.confidence ≥ agent.verificationPolicy.minimumConfidence
  emit s (.verificationCompleted passed results) (some stepId)
  if passed then compose cfg s agent stepId
  else if s.attemptCount < agent.verificationPolicy.maxRepairs then repair s
  else throw (.verification "final output failed verification")

/-! ## The driver -/

/-- `_execute_action`. -/
def executeAction (s : RunState V) (agent : AgentDefinition V) (action : PlannedAction V) :
    Task V (RunState V) :=
  let s := { s with stepCount := s.stepCount + 1 }
  match action.type with
  | .clarify => do
    let s := { s with pausePayload := some (.clarification action.description) }
    let s ← transition s .awaitingClarification
    emit s (.clarificationRequired s.pausePayload) (some action.id)
    pure s
  | .tool => executeTool cfg s agent action
  | .model => executeModel cfg s agent action
  | .complete => verifyAndComplete cfg s agent action.id
  | .fail => do
    let s := { s with error := some action.description }
    let s ← transition s .failed
    emit s (.runFailed none s.error) (some action.id)
    pure s
  | .approve => throw (.conflict (.unsupportedAction .approve))

/-- The RECEIVED branch of `_execute`. -/
def receive (s : RunState V) (agent : AgentDefinition V) : Task V (RunState V) := do
  let s ← transition s .validating
  let checked ← policyValue .input (.text s.request.input) s { agent := some agent }
  transition (withInput s checked) .buildingContext

/-- The BUILDING_CONTEXT branch of the loop. -/
def retrieve (s : RunState V) (agent : AgentDefinition V) : Task V (RunState V) := do
  let checked ← policyValue .beforeRetrieval (.text s.request.input) s { agent := some agent }
  let s := withInput s checked
  Prog.raiseIf (agent.contextBuilder ∉ cfg.contextBuilders) (.other "KeyError")
  let built ← await (.buildContext s agent)
  let s := { s with messages := built.1, citations := built.2 }
  let checked ← policyValue .afterRetrieval (.messages s.messages) s { agent := some agent }
  let s := match checked with
    | some (.messages ms) => { s with messages := ms }
    | _ => s
  emit s (.contextRetrieved s.messages.length s.citations.length (s.citations.map (·.id))) none
  transition s .planning

/-- The PLANNING branch of the loop. -/
def planStep (s : RunState V) (agent : AgentDefinition V) : Task V (RunState V) := do
  Prog.raiseIf (agent.planningStrategy ∉ cfg.planners) (.other "KeyError")
  let plan ← await (.plan s agent)
  match plan.actions with
  | [] => throw (.other "IndexError")
  | action :: _ => do
    let s := { s with summary := { s.summary with
      decisions := s.summary.decisions ++ [plan.decisionSummary] } }
    emit s (.stepStarted action.type) (some action.id)
    executeAction cfg s agent action

/-- The `while` loop of `_execute`.  Every turn takes a step, so that the steps the agent has
    left bound the turns; a state in none of the two branches would spin. -/
def loop (agent : AgentDefinition V) : Nat → RunState V → Task V (RunState V)
  | fuel, s =>
    if s.status.isSettled then pure s
    else do
      Prog.raiseIf (s.stepCount ≥ agent.maxSteps)
        (.budgetExceeded s!"maximum step limit {agent.maxSteps} reached")
      Prog.lift (enforceBudget s agent)
      let s ← if s.status = .buildingContext then retrieve cfg s agent else pure s
      if s.status = .planning then
        match fuel with
        | 0 => do
          await .spin
          pure s
        | fuel + 1 => do
          let s ← planStep cfg s agent
          loop agent fuel s
      else do
        await .spin
        pure s

/-- `_execute`. -/
def execute (s : RunState V) (agent : AgentDefinition V) : Task V (RunState V) := do
  let s ← if s.status = .received then receive s agent else pure s
  loop cfg agent (agent.maxSteps - s.stepCount) s

/-- `except TimeoutError` of `_drive_observed`. -/
def timedOut (runId tenantId : String) : Task V Unit := do
  let current ← requireState runId tenantId
  if current.status.isTerminal then pure ()
  else do
    let current ← transition current .timedOut
    emit current (.runFailed (some "timeout") none) none

/-- `except asyncio.CancelledError` of `_drive_observed`. -/
def cancelled (runId tenantId : String) : Task V Unit := do
  let current ← requireState runId tenantId
  if current.status.isTerminal then pure ()
  else do
    let shutdown ← await .shutdownCancellation
    if shutdown then do
      let _ ← saveAs current current.status.recoveryStatus
      pure ()
    else do
      let current ← transition current .cancelled
      emit current .runCancelled none

/-- `except Exception` of `_drive_observed`. -/
def failed (runId tenantId : String) (e : Exn) : Task V Unit := do
  let current ← requireState runId tenantId
  if current.status.isTerminal then pure ()
  else do
    let current ← transition { current with error := some e.safeError } .failed
    emit current (.runFailed none current.error) none

/-- `asyncio.timeout` around `_execute`: the timer's cancellation becomes a `TimeoutError`. -/
def executeTimed (s : RunState V) (agent : AgentDefinition V) : Task V Unit := do
  let remaining ← remainingSeconds s
  match remaining with
  | none => do
    let _ ← execute cfg s agent
    pure ()
  | some _ => do
    let _ ← tryCatch (execute cfg s agent).timed fun e =>
      throw (if e = .deadline then .timeoutError else e)
    pure ()

/-- `_drive_observed`. -/
def driveObserved (runId tenantId : String) (s : RunState V) (agent : AgentDefinition V) :
    Task V Unit :=
  tryCatch (executeTimed cfg s agent) fun
    | .timeoutError => timedOut runId tenantId
    | .cancelled | .deadline => cancelled runId tenantId
    | e => failed runId tenantId e

/-- `_drive`. -/
def drive (runId tenantId : String) : Task V Unit := do
  let s ← requireState runId tenantId
  let agent ← await (.agentsGet s.request.agent s.request.agentVersion)
  driveObserved cfg runId tenantId s agent
  let _ ← requireState runId tenantId
  pure ()

/-! ## The public methods -/

/-- `start`. -/
def start (request : RunRequest V) : Task V (RunState V) := do
  let accepting ← await .acceptingRuns
  Prog.raiseIf (!accepting) (.conflict .draining)
  let agent ← await (.agentsGet request.agent request.agentVersion)
  let timeout := orElse request.timeoutSeconds agent.budget.maxLatencySeconds
  let now ← await .utcNow
  let id ← await .uuid
  let fresh ← await .uuid
  let sessionId := match request.sessionId with
    | some sid => if sid = "" then fresh else sid
    | none => fresh
  let s : RunState V :=
    { id, request, sessionId, agentKey := some agent.key, updatedAt := now
      deadline := some (now + min timeout agent.budget.maxLatencySeconds) }
  await (.runsCreate s)
  emit s (.runStarted agent.key) none
  await (.schedule s.id request.tenantId)
  pure s

/-- The end of `run`: the composer of the agent makes the result. -/
def composeResult (runId tenantId : String) : Task V Unit := do
  let current ← requireState runId tenantId
  let agent ← await (.agentsGet current.request.agent current.request.agentVersion)
  Prog.raiseIf (agent.responseComposer ∉ cfg.composers) (.other "KeyError")
  await (.compose agent.responseComposer current)

/-- `run`. -/
def run (request : RunRequest V) : Task V Unit := do
  let s ← start request
  let task ← await (.driverOf s.id)
  let cancelled ← await (.join task)
  if cancelled then await (.waitTasks [task] false) else pure ()
  composeResult cfg s.id request.tenantId

/-- `cancel`. -/
def cancel (runId tenantId : String) : Task V (RunState V) := do
  let s ← requireState runId tenantId
  if s.status.isTerminal then pure s
  else do
    await (.cancelTask runId)
    let s ← transition s .cancelled
    emit s .runCancelled none
    pure s

/-- The payload of `resume`, with `str` applied to its texts. -/
structure ResumePayload (V : Type) where
  clarification : String := ""
  decision : String := ""
  modifiedParameters : Option (Dict String V) := none

/-- The approval and the call a paused run waits for. -/
def pausedFor (s : RunState V) : String × String :=
  match s.pausePayload with
  | some (.approval approvalId toolCallId ..) => (approvalId, toolCallId)
  | _ => ("", "")

/-- The state after a granted approval. -/
def granted (s : RunState V) (callId : String) (approval : ApprovalRequest V) : RunState V :=
  { s with
    approvedToolCallIds := insert callId s.approvedToolCallIds
    pendingToolCalls := if approval.status = .modified then
        s.pendingToolCalls.map fun call =>
          if call.id = callId then { call with arguments := approval.modifiedParameters.getD [] }
          else call
      else s.pendingToolCalls
    pausePayload := none }

/-- The AWAITING_CLARIFICATION branch of `resume`. -/
def clarify (s : RunState V) (payload : ResumePayload V) : Task V (RunState V) := do
  let clarification := strip payload.clarification
  Prog.raiseIf (clarification = "") (.valueError "clarification is required")
  transition { s with
    messages := s.messages ++ [.text .user clarification], pausePayload := none } .buildingContext

/-- `ApprovalStatus(raw_decision)`. -/
def parseDecision (raw : String) : Except Exn ApprovalStatus :=
  match ApprovalStatus.parse raw with
  | some d => .ok d
  | none => .error (.valueError "decision must be approved, rejected, or modified")

/-- `resume`. -/
def resume (runId tenantId : String) (payload : ResumePayload V) : Task V (RunState V) := do
  let s ← requireState runId tenantId
  match s.status with
  | .awaitingClarification => do
    let s ← clarify s payload
    await (.schedule runId tenantId)
    pure s
  | .awaitingApproval => do
    let decision ← Prog.lift (parseDecision payload.decision)
    let approval ← ApprovalService.decide cfg (pausedFor s).1 tenantId decision
      payload.modifiedParameters
    if approval.status = .rejected then do
      let s ← transition { s with error := some "Proposed action was rejected." } .failed
      emit s (.runFailed (some "approval_rejected") none) none
      pure s
    else do
      let s ← transition (granted s (pausedFor s).2 approval) .planning
      await (.schedule runId tenantId)
      pure s
  | status => throw (.conflict (.cannotResume status))

/-- One run of `recover`; `true` if a driver was scheduled. -/
def recoverRun (s : RunState V) : Task V Bool := do
  let live ← await (.taskLive s.id)
  if live ∨ s.status.isPaused then pure false
  else do
    let overdue ← match s.deadline with
      | none => pure false
      | some d => do
        let now ← await .utcNow
        pure (decide (d ≤ now))
    if overdue then do
      let s ← saveAs { s with error := some "Run deadline elapsed before recovery." } .timedOut
      emit s (.runFailed (some "timeout_during_recovery") none) none
      pure false
    else do
      let s ← if s.status.recoveryStatus = s.status then pure s
        else saveAs s s.status.recoveryStatus
      await (.schedule s.id s.request.tenantId)
      pure true

/-- The loop of `recover`. -/
def recoverAll : List (RunState V) → Nat → Task V Nat
  | [], recovered => pure recovered
  | s :: rest, recovered => do
    let scheduled ← recoverRun s
    recoverAll rest (if scheduled then recovered + 1 else recovered)

/-- `recover`. -/
def recover (limit : Nat) : Task V Nat := do
  let active ← await (.runsListActive limit)
  recoverAll active 0

/-- `shutdown`. -/
def shutdown : Task V Unit := do
  let tasks ← await .stopAccepting
  if tasks = [] then pure ()
  else do
    await (.waitTasks tasks true)
    let pending ← await (.cancelTasks tasks)
    if pending = [] then pure () else await (.waitTasks pending false)

end AgentRuntime

end TracciaRuntime
