/-
  Traccia Runtime formalization — the cache service (`cache/service.py`).
-/
import TracciaRuntime.Effect

namespace TracciaRuntime

open Py Async

variable {V : Type}

/-- The identity boundary of a cache entry. -/
structure CacheContext where
  tenantId : Option String := none
  userId : Option String := none
  sessionId : Option String := none
  runId : Option String := none
  authorizationFingerprint : Option String := none
  deriving DecidableEq

namespace CacheService

/-- `policy`. -/
def policy (policies : Dict String CachePolicy) (name : String) : CachePolicy :=
  (policies.get name).getD {}

/-- A part of the scope that has to be there and non-empty. -/
def required (part : Option String) (message : String) : Except Exn (List String) :=
  match part with
  | some s => if s = "" then .error (.valueError message) else .ok [s]
  | none => .error (.valueError message)

/-- `_scope_material`. -/
def scopeMaterial (context : CacheContext) (scope : CacheScope) : Except Exn String := do
  let tenant ← if scope = .global then .ok []
    else required context.tenantId s!"cache scope {scope.value} requires tenant_id"
  let user ← if scope = .user ∨ scope = .session ∨ scope = .run then
      required context.userId s!"cache scope {scope.value} requires user_id"
    else .ok []
  let session ← if scope = .session then
      required context.sessionId "cache scope session requires session_id"
    else .ok []
  let run ← if scope = .run then required context.runId "cache scope run requires run_id"
    else .ok []
  let fingerprint := match context.authorizationFingerprint with
    | some s => if s = "" then [] else [s]
    | none => []
  let joined := "\x1f".intercalate (tenant ++ user ++ session ++ run ++ fingerprint)
  .ok (if joined = "" then "global" else joined)

/-- `_namespace`. -/
def namespace_ (value : String) : String :=
  let keep (c : Char) : Bool := c.isAlphanum || c = '_' || c = '.' || c = '-'
  String.ofList ((value.toList.map fun c => if keep c then c else '_').take 96)

/-- `_key`. -/
def key (lib : Lib V) (policyName ns : String) (material : V) (context : CacheContext)
    (p : CachePolicy) : Except Exn String := do
  let scope ← scopeMaterial context p.scope
  .ok (":".intercalate ["v1", namespace_ policyName, namespace_ ns, lib.digest scope,
    lib.digest (lib.canonical material)])

section
variable (lib : Lib V) (policies : Dict String CachePolicy) (policyName ns : String)
  (material : V) (context : CacheContext)

/-- The lookup of `get_json`, which fails open. -/
def lookup (k : String) : Task V (Option V) :=
  tryCatch
    (do
      let encoded ← await (.cacheGet k)
      match encoded with
      | none => pure none
      | some e =>
        match lib.loads e with
        | some v => pure (if lib.isNone v then none else some v)
        | none => throw (.other "JSONDecodeError"))
    fun e => if e.isException then pure none else throw e

/-- `get_json`. -/
def getJson : Task V (Option V) :=
  let p := policy policies policyName
  if p.enabled then do
    let k ← Prog.lift (key lib policyName ns material context p)
    lookup lib k
  else pure none

/-- The write of `set_json`, which fails open. -/
def store (k encoded : String) (ttlSeconds : Nat) (tags : List String) : Task V Bool :=
  tryCatch
    (do
      await (.cacheSet k encoded ttlSeconds tags)
      pure true)
    fun e => if e.isException then pure false else throw e

/-- `set_json`. -/
def setJson (value : V) (tags : List String) : Task V Bool :=
  let p := policy policies policyName
  if p.enabled then
    let encoded := lib.canonical value
    if lib.size encoded > p.maximumValueBytes then pure false
    else do
      let k ← Prog.lift (key lib policyName ns material context p)
      store k encoded p.ttlSeconds (tags.map lib.digest)
  else pure false

/-- The exception as the others see it: a timer strikes with a `CancelledError`, which only the
    timeout block of its own task turns into a `TimeoutError`. -/
def shared : Exn → Exn
  | .deadline => .cancelled
  | e => e

/-- The part of `get_or_set_json` that loads the value for the others too. -/
def load {σ : Type} (future : Nat) (k : String) (loader : Task V (V × σ)) (tags : List String) :
    Task V ((V × Bool) × σ) :=
  Prog.ensure
    (tryCatch
      (do
        let x ← loader
        let _ ← setJson lib policies policyName ns material context x.1 tags
        await (.futureSet future (.ok x.1))
        pure ((x.1, false), x.2))
      fun e => do
        await (.futureSet future (.error (shared e)))
        throw e)
    (await (.inflightPop k))

/-- `get_or_set_json`; the loader may change the caller's state `s`. -/
def getOrSetJson {σ : Type} (s : σ) (loader : Task V (V × σ)) (tags : List String) :
    Task V ((V × Bool) × σ) := do
  let cached ← getJson lib policies policyName ns material context
  match cached with
  | some v => pure ((v, true), s)
  | none =>
    let p := policy policies policyName
    if p.enabled then do
      let k ← Prog.lift (key lib policyName ns material context p)
      let x ← await (.inflightJoin k)
      if x.2 then load lib policies policyName ns material context x.1 k loader tags
      else do
        let v ← await (.futureWait x.1)
        pure ((v, true), s)
    else do
      let x ← loader
      pure ((x.1, false), x.2)

end

end CacheService

end TracciaRuntime
