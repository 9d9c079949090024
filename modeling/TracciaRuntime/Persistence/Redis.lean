/-
  Traccia Runtime formalization — the Redis stores (`persistence/redis.py`) and the
  rows of the PostgreSQL run store (`persistence/postgres.py`).

  A Redis command is atomic.  A method that sends several commands takes the value
  that each of them finds: the other clients can write in between.
-/
import TracciaRuntime.Persistence.Runs

namespace TracciaRuntime

open Py

variable {V : Type}

/-! ## Keys -/

/-- The key prefix; the container keeps the default. -/
def redisPrefix : String := "traccia-runtime"

/-- `RedisRunStore._key`. -/
def RedisRunStore.key (tenantId runId : String) : String :=
  redisPrefix ++ ":tenant:" ++ tenantId ++ ":run:" ++ runId

/-- The pattern of `RedisRunStore.list_active`. -/
def RedisRunStore.pattern : String := redisPrefix ++ ":tenant:*:run:*"

/-- `RedisMemoryStore._key`. -/
def RedisMemoryStore.key (tenantId sessionId : String) : String :=
  redisPrefix ++ ":tenant:" ++ tenantId ++ ":session:" ++ sessionId ++ ":memory"

/-- The glob match of `SCAN`, for patterns whose only special character is `*`. -/
def globMatch : List Char → List Char → Bool
  | [], s => s.isEmpty
  | c :: p, s =>
    if c = '*' then s.tails.any (globMatch p)
    else match s with
      | [] => false
      | d :: s => c = d && globMatch p s

/-- `SCAN` with the pattern returns this key. -/
def RedisRunStore.scans (key : String) : Bool := globMatch pattern.toList key.toList

/-! ## The run store -/

namespace RedisRunStore

/-- What is stored under the key of a run, and how often the key has been written. -/
structure Entry (V : Type) where
  value : Option (RunState V) := none
  writes : Nat := 0

namespace Entry

/-- `SET key value`. -/
def set (e : Entry V) (s : RunState V) : Entry V := ⟨some s, e.writes + 1⟩

/-- `EXEC` after a `WATCH` that found `watched` writes. -/
def exec (e : Entry V) (watched : Nat) (s : RunState V) : Except Exn (Entry V) :=
  if e.writes = watched then .ok (e.set s) else .error (.other "WatchError")

/-- The entry some time later. -/
def Later (e e' : Entry V) : Prop := e.writes ≤ e'.writes ∧ (e.writes = e'.writes → e' = e)

end Entry

/-- `create`. -/
def create (e : Entry V) (s : RunState V) : Except Exn (Entry V) :=
  match e.value with
  | none => .ok (e.set s)
  | some _ => .error (.conflict (.runExists s.id))

/-- `save`: `WATCH`, `GET` and `EXEC` find these entries. -/
def save (s : RunState V) (expected : Nat) (atWatch atGet atExec : Entry V) :
    Except Exn (Entry V) :=
  match atGet.value with
  | none => .error (.conflict (.concurrentlyModified s.id))
  | some current =>
    if current.version ≠ expected then .error (.conflict (.concurrentlyModified s.id))
    else atExec.exec atWatch.writes { s with version := expected + 1 }

/-- The loop of `list_active` over the values of the scanned keys. -/
def collectActive (limit : Nat) : List (RunState V) → List (Option (RunState V)) → List (RunState V)
  | states, [] => states
  | states, none :: values => collectActive limit states values
  | states, some s :: values =>
    if s.status.isTerminal then collectActive limit states values
    else if (states ++ [s]).length ≥ limit then states ++ [s]
    else collectActive limit (states ++ [s]) values

/-- `list_active`; the server rejects `COUNT 0`. -/
def listActive (values : List (Option (RunState V))) (limit : Nat) :
    Except Exn (List (RunState V)) :=
  if limit = 0 then .error (.other "ResponseError")
  else .ok ((collectActive limit [] values).mergeSort fun a b => a.updatedAt ≤ b.updatedAt)

end RedisRunStore

/-! ## Rows of the PostgreSQL store -/

/-- A row of `traccia_runtime_runs`, with its `updated_at` column. -/
structure PgRun (V : Type) where
  state : RunState V
  updatedAt : Time

/-- `PostgresRunStore.list_active`; `order` is the `ORDER BY updated_at ASC` of the server. -/
def PostgresRunStore.listActive (order : List (PgRun V) → List (PgRun V)) (rows : List (PgRun V))
    (limit : Nat) : List (PgRun V) :=
  (order (rows.filter fun r => !r.state.status.isTerminal)).take limit

end TracciaRuntime
