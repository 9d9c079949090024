/-
  Traccia Runtime formalization — the memory stores (`persistence/memory.py`,
  `persistence/redis.py`, `persistence/postgres.py`).

  * `InMemoryMemoryStore`: a list for each session, which keeps everything;
  * `RedisLists`: the commands that `RedisMemoryStore` sends; a list whose time to live has passed
    is absent;
  * `PostgresMemoryStore`: the rows of the table in the order of their ids.

  The calls are made one at a time, and the clock does not move while a call is under way.
-/
import TracciaRuntime.Persistence.Redis
import Mathlib.Algebra.Order.Ring.Rat

namespace TracciaRuntime

open Py

variable {M : Type}

/-! ## In memory -/

abbrev InMemoryMemoryStore (M : Type) := Dict (String × String) (List M)

namespace InMemoryMemoryStore

/-- `self._messages[(tenant_id, session_id)]`. -/
def log (s : InMemoryMemoryStore M) (tenantId sessionId : String) : List M :=
  (Dict.get s (tenantId, sessionId)).getD []

def append (s : InMemoryMemoryStore M) (tenantId sessionId : String) (messages : List M) :
    InMemoryMemoryStore M :=
  Dict.set s (tenantId, sessionId) (log s tenantId sessionId ++ messages)

/-- `list[-limit:]` of `get`. -/
def get {α : Type} (log : List α) (limit : Nat) : List α :=
  if limit = 0 then log else log.drop (log.length - limit)

end InMemoryMemoryStore

/-! ## Redis -/

structure RedisList where
  values : List String
  expiresAt : Option Time := none

abbrev RedisLists := Dict String RedisList

namespace RedisLists

def lookup (db : RedisLists) (now : Time) (key : String) : Option RedisList :=
  (Dict.get db key).filter fun e => e.expiresAt.all fun t => now < t

/-- `RPUSH key value …`. -/
def rpush (db : RedisLists) (now : Time) (key : String) (values : List String) : RedisLists :=
  match db.lookup now key with
  | none => Dict.set db key ⟨values, none⟩
  | some e => Dict.set db key { e with values := e.values ++ values }

/-- `EXPIRE key seconds`. -/
def expire (db : RedisLists) (now : Time) (key : String) (seconds : Int) : RedisLists :=
  match db.lookup now key with
  | none => db
  | some e =>
    if seconds ≤ 0 then Dict.erase db key
    else Dict.set db key { e with expiresAt := some (now + seconds) }

/-- A negative index counts from the end. -/
def index (length : Nat) (i : Int) : Int := if i < 0 then i + length else i

/-- The elements from `start` to `stop`, both included. -/
def range (values : List String) (start stop : Int) : List String :=
  let start := max (index values.length start) 0
  let stop := index values.length stop
  (values.take (stop + 1).toNat).drop start.toNat

/-- `LRANGE key start stop`. -/
def lrange (db : RedisLists) (now : Time) (key : String) (start stop : Int) : List String :=
  ((db.lookup now key).map fun e => range e.values start stop).getD []

end RedisLists

/-- `message.model_dump_json` and `Message.model_validate_json`. -/
structure MessageJson (M : Type) where
  dump : M → String
  validate : String → Except Exn M

structure RedisMemoryStore (M : Type) where
  retention : Int := 86400
  json : MessageJson M

namespace RedisMemoryStore
variable (s : RedisMemoryStore M)

def append (db : RedisLists) (now : Time) (tenantId sessionId : String) (messages : List M) :
    RedisLists :=
  let key := key tenantId sessionId
  if messages = [] then db
  else (db.rpush now key (messages.map s.json.dump)).expire now key s.retention

def get (db : RedisLists) (now : Time) (tenantId sessionId : String) (limit : Nat) :
    Except Exn (List M) :=
  (db.lrange now (key tenantId sessionId) (-limit) (-1)).mapM s.json.validate

end RedisMemoryStore

/-! ## Postgres -/

/-- A row of `traccia_runtime_memory`. -/
structure MemoryRow where
  tenantId : String
  sessionId : String
  message : String
  expiresAt : Option Time

structure PostgresMemoryStore (M : Type) where
  retentionSeconds : Int := 86400
  json : MessageJson M

namespace PostgresMemoryStore
variable (s : PostgresMemoryStore M)

/-- The row that is inserted for a message. -/
def row (now : Time) (tenantId sessionId : String) (message : M) : MemoryRow :=
  ⟨tenantId, sessionId, s.json.dump message, some (now + s.retentionSeconds)⟩

def append (table : List MemoryRow) (now : Time) (tenantId sessionId : String)
    (messages : List M) : List MemoryRow :=
  messages.foldl (fun table message => table ++ [s.row now tenantId sessionId message]) table

def get (table : List MemoryRow) (now : Time) (tenantId sessionId : String) (limit : Nat) :
    Except Exn (List M) :=
  let rows := (table.filter fun row => (row.tenantId = tenantId ∧ row.sessionId = sessionId) ∧
    row.expiresAt.all fun t => t > now).reverse.take limit
  rows.reverse.mapM fun row => s.json.validate row.message

end PostgresMemoryStore

end TracciaRuntime
