/-
  Traccia Runtime formalization — the tool executor (`tools/executor.py`) and
  the methods of the tool execution stores it calls.
-/
import TracciaRuntime.Cache.Service
import Mathlib.Data.Finset.Sort
import Mathlib.Data.String.Basic

namespace TracciaRuntime

open Py Async

variable {V : Type} (cfg : Config V)

/-! ## Execution stores -/

namespace ToolExecutionStore

/-- `PostgresToolExecutionStore.begin`. -/
def beginPostgres (context : ToolContext) (toolName : String) :
    Task V (ToolExecutionRecord V × Bool) := do
  let record := ToolExecutionRecord.reserve context toolName
  let inserted ← await (.pgInsert record)
  if inserted then pure (record, true)
  else do
    let row ← await (.pgSelect context.idempotencyKey context.tenantId)
    match row with
    | none => throw (.conflict .executionNotAccessible)
    | some current =>
      if current.status = .failed then do
        let changed ← await (.pgRestart record context.idempotencyKey)
        pure (if changed then (record, true) else (current, false))
      else pure (current, false)

/-- `_get` and `_update` of the Postgres store. -/
def updatePostgres (key : String) (f : ToolExecutionRecord V → ToolExecutionRecord V) :
    Task V Unit := do
  let row ← await (.pgGet key)
  match row with
  | none => throw (.conflict .reservationNotFound)
  | some current => await (.pgUpdate (f current))

/-- `begin`. -/
def begin_ (context : ToolContext) (toolName : String) : Task V (ToolExecutionRecord V × Bool) :=
  match cfg.toolStore with
  | .inMemory => await (.toolBegin context toolName)
  | .postgres => beginPostgres context toolName

/-- `complete`. -/
def complete (key : String) (result : ToolResult V) : Task V Unit :=
  match cfg.toolStore with
  | .inMemory => await (.toolComplete key result)
  | .postgres => updatePostgres key (·.complete result)

/-- `fail`. -/
def fail (key error : String) (indeterminate : Bool) : Task V Unit :=
  match cfg.toolStore with
  | .inMemory => await (.toolFail key error indeterminate)
  | .postgres => updatePostgres key (·.fail error indeterminate)

end ToolExecutionStore

/-! ## The executor -/

/-- `ToolRegistry.get`. -/
def toolsGet (name : String) : Except Exn (ToolDefinition V) :=
  match cfg.tool name with
  | some d => .ok d
  | none => .error (.notFound s!"tool '{name}' is not registered")

/-- `sorted(names)`. -/
def sorted (names : Finset String) : List String := names.sort (· ≤ ·)

/-- `str` of a list of names. -/
def strList (names : List String) : String :=
  "[" ++ ", ".intercalate (names.map fun s => s!"'{s}'") ++ "]"

namespace ToolExecutor

/-- The tool changes nothing outside. -/
def readOnly (definition : ToolDefinition V) : Bool :=
  definition.sideEffect = .none || definition.sideEffect = .read

/-- `jsonschema.validate`, with a `ValidationError` turned into `message`. -/
def validate (value : V) (schema : Dict String V) (message : String → String) :
    Except Exn Unit :=
  match cfg.lib.validate value schema with
  | .ok () => .ok ()
  | .error (.validation m) => .error (.toolExecution (message m))
  | .error .schema => .error (.other "SchemaError")

/-- The checks made before the policy is asked. -/
def admitted (definition : ToolDefinition V) (name : String) (arguments : Dict String V)
    (context : ToolContext) : Except Exn Unit :=
  let missing := definition.requiredPermissions \ context.permissions
  if missing ≠ ∅ then
    .error (.policyDenied s!"missing permissions for {name}: {strList (sorted missing)}")
  else validate cfg (cfg.lib.ofDict arguments) definition.inputSchema
    fun m => s!"invalid input for {name}: {m}"

/-- What happens when the handler raises: `ok` is another attempt. -/
def handlerRaised (name : String) (last : Bool) : Exn → Except Exn Unit
  | .timeoutError =>
    if last then .error (.toolExecution s!"tool {name} timed out") else .ok ()
  | .policyDenied m => .error (.policyDenied m)
  | .toolExecution m => .error (.toolExecution m)
  | e =>
    if !e.isException then .error e
    else if last then .error (.toolExecution s!"tool {name} failed: {e.typeName}")
    else .ok ()

/-- The loop over the attempts, with `rest` attempts left after this one. -/
def attempts (definition : ToolDefinition V) (name : String) (arguments : Dict String V)
    (context : ToolContext) (attempt : Nat) : (rest : Nat) → Task V V
  | 0 =>
    tryCatch (await (.handler name arguments context)) fun e => do
      Prog.lift (handlerRaised name true e)
      throw e
  | rest + 1 => do
    let result ← tryCatch
      (do
        let v ← await (.handler name arguments context)
        pure (some v))
      fun e => do
        Prog.lift (handlerRaised name false e)
        pure none
    match result with
    | some v => pure v
    | none => do
      await (.sleep (min definition.retryPolicy.maxBackoffSeconds
        (definition.retryPolicy.initialBackoffSeconds * 2 ^ attempt)))
      attempts definition name arguments context (attempt + 1) rest

/-- `cacheable`, with the policies of the cache. -/
def cachePolicies (definition : ToolDefinition V) : Option (Dict String CachePolicy) :=
  if readOnly definition ∧ definition.idempotency = .idempotent then cfg.toolCache else none

/-- `cache_context`. -/
def cacheContext (context : ToolContext) : CacheContext where
  tenantId := some context.tenantId
  userId := some context.userId
  runId := some context.runId
  authorizationFingerprint := some (",".intercalate (sorted context.permissions))

/-- `cache_material`. -/
def cacheMaterial (definition : ToolDefinition V) (arguments : Dict String V) : V :=
  cfg.lib.ofDict [("tool", cfg.lib.ofString definition.name),
    ("version", cfg.lib.ofString definition.version), ("arguments", cfg.lib.ofDict arguments)]

/-- The output checks: schema, `after_tool` policy, schema again, size. -/
def checkOutput (definition : ToolDefinition V) (name : String) (context : ToolContext)
    (result : V) : Task V V := do
  Prog.lift (validate cfg result definition.outputSchema
    fun m => s!"invalid output from {name}: {m}")
  let decision ← await (.policyEvaluate .afterTool (.value result)
    { tool := some definition, context := some context })
  let result ← Prog.lift (match decision.action with
    | .allow => .ok result
    | .redact | .transform => do
      let result := cfg.lib.ofPayload decision.value
      validate cfg result definition.outputSchema
        fun m => s!"policy-transformed output from {name} is invalid: {m}"
      .ok result
    | _ => .error (.policyDenied decision.reason))
  Prog.raiseIf (cfg.lib.size (cfg.lib.dumps result) > definition.maxResultBytes)
    (.toolExecution s!"result from {name} exceeds configured size limit")
  pure result

/-- The cache write after the result is recorded. -/
def cacheResult (definition : ToolDefinition V) (arguments : Dict String V)
    (context : ToolContext) (wrapped : ToolResult V) : Task V Unit :=
  match cachePolicies cfg definition with
  | none => pure ()
  | some policies => do
    let _ ← CacheService.setJson cfg.lib policies "tool_results" "tool.result"
      (cacheMaterial cfg definition arguments) (cacheContext context)
      (cfg.lib.ofToolResult wrapped) [s!"tool:{definition.name}:{definition.version}"]
    pure ()

/-- Everything after the handler, up to the recorded result. -/
def finish (definition : ToolDefinition V) (name : String) (arguments : Dict String V)
    (context : ToolContext) (result : V) : Task V (ToolResult V) := do
  let result ← checkOutput cfg definition name context result
  let wrapped : ToolResult V := { value := result }
  ToolExecutionStore.complete cfg context.idempotencyKey wrapped
  cacheResult cfg definition arguments context wrapped
  pure wrapped

/-- `except BaseException`: the reservation is settled as failed. -/
def settling {α : Type} (definition : ToolDefinition V) (context : ToolContext) (p : Task V α) :
    Task V α :=
  tryCatch p fun e => do
    ToolExecutionStore.fail cfg context.idempotencyKey e.typeName (!readOnly definition)
    throw e

/-- The body of `async with semaphore`. -/
def invoke (definition : ToolDefinition V) (name : String) (arguments : Dict String V)
    (context : ToolContext) : Task V (ToolResult V) := do
  let rest := if definition.idempotency = .nonIdempotent then 0
    else definition.retryPolicy.maxAttempts - 1
  let result ← settling cfg definition context (attempts definition name arguments context 0 rest)
  settling cfg definition context (finish cfg definition name arguments context result)

/-- `async with semaphore`. -/
def guarded (definition : ToolDefinition V) (name : String) (arguments : Dict String V)
    (context : ToolContext) : Task V (ToolResult V) := do
  await (.acquire name definition.maxConcurrency)
  Prog.ensure (invoke cfg definition name arguments context) (await (.release name))

/-- A cached result, marked as such. -/
def cacheHit (cached : V) : Except Exn (ToolResult V) :=
  match cfg.lib.toToolResult cached with
  | some r => .ok { r with metadata := r.metadata.set "runtime_cache_hit" (cfg.lib.ofBool true) }
  | none => .error (.other "ValidationError")

/-- The cache lookup; `none` without a cache or a cached result. -/
def cached (definition : ToolDefinition V) (arguments : Dict String V) (context : ToolContext) :
    Task V (Option (ToolResult V)) :=
  match cachePolicies cfg definition with
  | none => pure none
  | some policies => do
    let found ← CacheService.getJson cfg.lib policies "tool_results" "tool.result"
      (cacheMaterial cfg definition arguments) (cacheContext context)
    match found with
    | none => pure none
    | some v => do
      let r ← Prog.lift (cacheHit cfg v)
      pure (some r)

/-- What follows a successful reservation. -/
def executeReserved (definition : ToolDefinition V) (name : String) (arguments : Dict String V)
    (context : ToolContext) : Task V (ToolResult V) := do
  let hit ← cached cfg definition arguments context
  match hit with
  | some wrapped => do
    ToolExecutionStore.complete cfg context.idempotencyKey wrapped
    pure wrapped
  | none => guarded cfg definition name arguments context

/-- What follows a failed reservation: the recorded result is replayed. -/
def replay (name : String) (execution : ToolExecutionRecord V) : Except Exn (ToolResult V) :=
  match execution.status, execution.result with
  | .completed, some r => .ok r
  | status, _ => .error (.toolExecution
      (s!"tool {name} has an unfinished {status.value} execution; " ++
        "manual reconciliation is required"))

/-- `execute`. -/
def execute (name : String) (arguments : Dict String V) (context : ToolContext) :
    Task V (ToolResult V) := do
  let definition ← Prog.lift (toolsGet cfg name)
  Prog.lift (admitted cfg definition name arguments context)
  let decision ← await (.policyEvaluate .beforeTool (.arguments arguments)
    { tool := some definition, context := some context })
  Prog.raiseIf (decision.action ≠ .allow) (.policyDenied decision.reason)
  let x ← ToolExecutionStore.begin_ cfg context name
  if x.2 then executeReserved cfg definition name arguments context
  else Prog.lift (replay name x.1)

end ToolExecutor

end TracciaRuntime
