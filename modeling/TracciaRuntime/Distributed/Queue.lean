/-
  Traccia Runtime formalization — the work queues (`distributed/contracts.py`,
  `distributed/queue.py`).

  * `InMemoryWorkQueue`: its methods hold the lock and await nothing, so each call is one
    step;
  * `PostgresWorkQueue`: each method sends one statement, but for the second one of
    `enqueue`; the calls are made one at a time;
  * `WorkQueue`: what the two have in common, with the calls made so far as a list, the
    latest first.
-/
import Mathlib.Data.List.Sort
import TracciaRuntime.Lease.Ledger
import TracciaRuntime.Types

namespace TracciaRuntime

open Py

variable {V : Type}

/-! ## Work items -/

inductive WorkStatus where
  | pending | leased | completed | failed
  deriving DecidableEq

namespace WorkStatus

def value : WorkStatus → String
  | pending => "pending"
  | leased => "leased"
  | completed => "completed"
  | failed => "failed"

def ofValue (s : String) : Option WorkStatus :=
  [pending, leased, completed, failed].find? fun x => x.value = s

@[simp] theorem ofValue_value (x : WorkStatus) : ofValue x.value = some x := by
  cases x <;> decide

theorem value_inj {x y : WorkStatus} : x.value = y.value ↔ x = y := by
  cases x <;> cases y <;> decide

end WorkStatus

structure WorkItem (V : Type) where
  id : String
  tenantId : String
  kind : String
  deduplicationKey : String
  payload : Dict String V
  status : WorkStatus := .pending
  attempts : Int := 0
  maximumAttempts : Int := 3
  maximumAttempts_range : 1 ≤ maximumAttempts ∧ maximumAttempts ≤ 20 := by decide
  availableAt : Time
  leaseOwner : Option String := none
  leaseExpiresAt : Option Time := none
  result : Option (Dict String V) := none
  error : Option String := none
  createdAt : Time
  updatedAt : Time
  deriving DecidableEq

namespace WorkItem

def key (x : WorkItem V) : String × String := (x.tenantId, x.deduplicationKey)

/-- The sort key of `claim`, compared as tuples are. -/
def before (x y : Time × Time) : Prop := x.1 < y.1 ∨ x.1 = y.1 ∧ x.2 ≤ y.2

instance : DecidableRel before := fun x y => by unfold before; infer_instance

/-- The condition of `InMemoryWorkQueue.claim`. -/
def eligible (now : Time) (x : WorkItem V) : Bool :=
  x.availableAt ≤ now ∧
    (x.status = .pending ∨
      x.status = .leased ∧ x.leaseExpiresAt.any fun e => e ≤ now) ∧
    x.attempts < x.maximumAttempts

def owned (x : WorkItem V) (workerId : String) : Bool :=
  x.status = .leased ∧ x.leaseOwner = some workerId

/-! The assignments of the methods. -/

def claim (x : WorkItem V) (now : Time) (workerId : String) (leaseSeconds : Int) : WorkItem V :=
  { x with
    status := .leased
    leaseOwner := some workerId
    leaseExpiresAt := some (now + leaseSeconds)
    attempts := x.attempts + 1
    updatedAt := now }

/-- `later` is the second reading of the clock. -/
def renew (x : WorkItem V) (now later : Time) (leaseSeconds : Int) : WorkItem V :=
  { x with leaseExpiresAt := some (now + leaseSeconds), updatedAt := later }

def complete (x : WorkItem V) (now : Time) (result : Dict String V) : WorkItem V :=
  { x with
    status := .completed
    result := some result
    leaseOwner := none
    leaseExpiresAt := none
    updatedAt := now }

def fail (x : WorkItem V) (now : Time) (error : String) (retry : Bool) : WorkItem V :=
  { x with
    error := some error
    status := if retry ∧ x.attempts < x.maximumAttempts then .pending else .failed
    leaseOwner := none
    leaseExpiresAt := none
    updatedAt := now }

end WorkItem

/-- The first of the items after a (stable) sort by `key`. -/
def earliest {α : Type} (key : α → Time × Time) (l : List α) : Option α :=
  (l.insertionSort fun x y => WorkItem.before (key x) (key y)).head?

/-! ## Calls -/

inductive QueueCall (V : Type) where
  | enqueue (item : WorkItem V)
  | claim (workerId : String) (leaseSeconds : Int)
  | renew (itemId workerId : String) (leaseSeconds : Int)
  | complete (itemId workerId : String) (result : Dict String V)
  | fail (itemId workerId error : String) (retry : Bool)

inductive QueueReply (V : Type) where
  | enqueued (item : WorkItem V) (created : Bool)
  | claimed (item : Option (WorkItem V))
  | renewed (ok : Bool)
  | done
  deriving DecidableEq

/-- A call, with the clock at its start and at its end. -/
structure TimedCall (V : Type) where
  call : QueueCall V
  now : Time
  later : Time := now

/-! ## The queue in memory -/

structure InMemoryWorkQueue (V : Type) where
  items : Dict String (WorkItem V) := []
  deduplication : Dict (String × String) String := []

namespace InMemoryWorkQueue

def enqueue (q : InMemoryWorkQueue V) (item : WorkItem V) :
    Except Exn (QueueReply V) × InMemoryWorkQueue V :=
  match (q.deduplication.get item.key).filter fun id => id ≠ "" with
  | some currentId =>
    match q.items.get currentId with
    | some current => (.ok (.enqueued current false), q)
    | none => (.error (.other "KeyError"), q)
  | none =>
    (.ok (.enqueued item true),
      ⟨q.items.set item.id item, q.deduplication.set item.key item.id⟩)

/-- `self._items[item.id]` is mutated. -/
def put (q : InMemoryWorkQueue V) (item : WorkItem V) : InMemoryWorkQueue V :=
  { q with items := q.items.set item.id item }

def candidates (q : InMemoryWorkQueue V) (now : Time) : List (WorkItem V) :=
  q.items.values.filter (WorkItem.eligible now)

def claim (q : InMemoryWorkQueue V) (now : Time) (workerId : String) (leaseSeconds : Int) :
    Except Exn (QueueReply V) × InMemoryWorkQueue V :=
  match earliest (fun x => (x.availableAt, x.createdAt)) (q.candidates now) with
  | none => (.ok (.claimed none), q)
  | some item =>
    (.ok (.claimed (some (item.claim now workerId leaseSeconds))),
      q.put (item.claim now workerId leaseSeconds))

/-- `_owned`. -/
def owned (q : InMemoryWorkQueue V) (itemId workerId : String) : Except Exn (WorkItem V) :=
  match q.items.get itemId with
  | some item => if item.owned workerId then .ok item else .error (.conflict .leaseNotOwned)
  | none => .error (.conflict .leaseNotOwned)

/-- An assignment to the item that the worker owns. -/
def update (q : InMemoryWorkQueue V) (itemId workerId : String) (reply : QueueReply V)
    (f : WorkItem V → WorkItem V) : Except Exn (QueueReply V) × InMemoryWorkQueue V :=
  match q.owned itemId workerId with
  | .ok item => (.ok reply, q.put (f item))
  | .error e => (.error e, q)

def step (c : TimedCall V) (q : InMemoryWorkQueue V) :
    Except Exn (QueueReply V) × InMemoryWorkQueue V :=
  match c.call with
  | .enqueue item => q.enqueue item
  | .claim workerId leaseSeconds => q.claim c.now workerId leaseSeconds
  | .renew itemId workerId leaseSeconds =>
    q.update itemId workerId (.renewed true) fun x => x.renew c.now c.later leaseSeconds
  | .complete itemId workerId result =>
    q.update itemId workerId .done fun x => x.complete c.now result
  | .fail itemId workerId error retry =>
    q.update itemId workerId .done fun x => x.fail c.now error retry

end InMemoryWorkQueue

/-! ## The queue in PostgreSQL -/

/-- The values under the keys of an item's JSON; times are written in ISO format. -/
inductive Json (V : Type) where
  | null
  | string (s : String)
  | number (n : Int)
  | time (t : Time)
  | object (o : Dict String V)

namespace Json

/-- The JSON of an optional value. -/
def nullable {α : Type} (f : α → Json V) : Option α → Json V
  | none => null
  | some a => f a

/-! What the types of the fields accept. -/

def asString? : Json V → Option String
  | string s => some s
  | _ => none

def asNumber? : Json V → Option Int
  | number n => some n
  | _ => none

def asTime? : Json V → Option Time
  | time t => some t
  | _ => none

def asObject? : Json V → Option (Dict String V)
  | object o => some o
  | _ => none

def orNull {α : Type} (f : Json V → Option α) : Json V → Option (Option α)
  | null => some none
  | j => (f j).map some

end Json

/-- `model_dump_json`. -/
def WorkItem.dump (x : WorkItem V) : Dict String (Json V) :=
  [("id", .string x.id), ("tenant_id", .string x.tenantId), ("kind", .string x.kind),
    ("deduplication_key", .string x.deduplicationKey), ("payload", .object x.payload),
    ("status", .string x.status.value), ("attempts", .number x.attempts),
    ("maximum_attempts", .number x.maximumAttempts), ("available_at", .time x.availableAt),
    ("lease_owner", .nullable .string x.leaseOwner),
    ("lease_expires_at", .nullable .time x.leaseExpiresAt),
    ("result", .nullable .object x.result), ("error", .nullable .string x.error),
    ("created_at", .time x.createdAt), ("updated_at", .time x.updatedAt)]

/-- `model_validate_json`, on an object that has every field. -/
def WorkItem.validate (j : Dict String (Json V)) : Option (WorkItem V) := do
  let id ← (← j.get "id").asString?
  let tenantId ← (← j.get "tenant_id").asString?
  let kind ← (← j.get "kind").asString?
  let deduplicationKey ← (← j.get "deduplication_key").asString?
  let payload ← (← j.get "payload").asObject?
  let status ← WorkStatus.ofValue (← (← j.get "status").asString?)
  let attempts ← (← j.get "attempts").asNumber?
  let maximumAttempts ← (← j.get "maximum_attempts").asNumber?
  let availableAt ← (← j.get "available_at").asTime?
  let leaseOwner ← (← j.get "lease_owner").orNull Json.asString?
  let leaseExpiresAt ← (← j.get "lease_expires_at").orNull Json.asTime?
  let result ← (← j.get "result").orNull Json.asObject?
  let error ← (← j.get "error").orNull Json.asString?
  let createdAt ← (← j.get "created_at").asTime?
  let updatedAt ← (← j.get "updated_at").asTime?
  if h : 1 ≤ maximumAttempts ∧ maximumAttempts ≤ 20 then
    some ⟨id, tenantId, kind, deduplicationKey, payload, status, attempts, maximumAttempts, h,
      availableAt, leaseOwner, leaseExpiresAt, result, error, createdAt, updatedAt⟩
  else none

namespace Json

@[simp] theorem orNull_string (s : Option String) :
    orNull asString? (nullable string s : Json V) = some s := by
  cases s <;> rfl

@[simp] theorem orNull_time (t : Option Time) :
    orNull asTime? (nullable time t : Json V) = some t := by
  cases t <;> rfl

@[simp] theorem orNull_object (o : Option (Dict String V)) :
    orNull asObject? (nullable object o) = some o := by
  cases o <;> rfl

end Json

theorem WorkItem.validate_dump (x : WorkItem V) : WorkItem.validate x.dump = some x := by
  simp [dump, validate, Dict.get, Json.asString?, Json.asNumber?, Json.asTime?, Json.asObject?,
    x.maximumAttempts_range]

/-- A row of `traccia_runtime_work_items`. -/
structure WorkRow (V : Type) where
  id : String
  tenantId : String
  kind : String
  deduplicationKey : String
  status : String
  attempts : Int
  maximumAttempts : Int
  availableAt : Time
  leaseOwner : Option String := none
  leaseExpiresAt : Option Time := none
  result : Option (Dict String V) := none
  error : Option String := none
  item : Dict String (Json V)
  createdAt : Time
  updatedAt : Time

namespace WorkRow

/-- The condition of the candidates of `PostgresWorkQueue.claim`; a comparison with `NULL` does
    not hold. -/
def candidate (now : Time) (r : WorkRow V) : Bool :=
  r.availableAt ≤ now ∧ r.attempts < r.maximumAttempts ∧
    (r.status = "pending" ∨ r.status = "leased" ∧ r.leaseExpiresAt.any fun e => e ≤ now)

def owned (itemId workerId : String) (r : WorkRow V) : Bool :=
  r.id = itemId ∧ r.leaseOwner = some workerId ∧ r.status = "leased"

/-! The `SET` clauses of the methods; `jsonb_set` is `Dict.set`. -/

def claim (now : Time) (workerId : String) (leaseSeconds : Int) (r : WorkRow V) : WorkRow V :=
  { r with
    status := "leased"
    leaseOwner := some workerId
    leaseExpiresAt := some (now + leaseSeconds)
    attempts := r.attempts + 1
    updatedAt := now
    item := (((r.item.set "status" (.string "leased")).set "lease_owner" (.string workerId)).set
      "lease_expires_at" (.time (now + leaseSeconds))).set "attempts" (.number (r.attempts + 1)) }

def renew (now : Time) (leaseSeconds : Int) (r : WorkRow V) : WorkRow V :=
  { r with
    leaseExpiresAt := some (now + leaseSeconds)
    item := r.item.set "lease_expires_at" (.time (now + leaseSeconds))
    updatedAt := now }

def complete (now : Time) (result : Dict String V) (r : WorkRow V) : WorkRow V :=
  { r with
    status := "completed"
    result := some result
    item := ((((r.item.set "status" (.string "completed")).set "result" (.object result)).set
      "lease_owner" .null).set "lease_expires_at" .null).set "updated_at" (.time now)
    leaseOwner := none
    leaseExpiresAt := none
    updatedAt := now }

/-- The `CASE` of `fail`. -/
def failStatus (status : String) (r : WorkRow V) : String :=
  if status = "pending" ∧ r.attempts < r.maximumAttempts then "pending" else "failed"

def fail (now : Time) (status error : String) (r : WorkRow V) : WorkRow V :=
  { r with
    status := r.failStatus status
    error := some error
    item := ((((r.item.set "status" (.string (r.failStatus status))).set
      "error" (.string error)).set "lease_owner" .null).set "lease_expires_at" .null).set
      "updated_at" (.time now)
    leaseOwner := none
    leaseExpiresAt := none
    updatedAt := now }

end WorkRow

namespace PostgresWorkQueue

/-- The row that `enqueue` inserts. -/
def inserted (now : Time) (x : WorkItem V) : WorkRow V :=
  { id := x.id, tenantId := x.tenantId, kind := x.kind, deduplicationKey := x.deduplicationKey
    status := x.status.value, attempts := x.attempts, maximumAttempts := x.maximumAttempts
    availableAt := x.availableAt, item := x.dump, createdAt := now, updatedAt := now }

def enqueue (rows : List (WorkRow V)) (now : Time) (x : WorkItem V) :
    Except Exn (QueueReply V) × List (WorkRow V) :=
  match rows.find? fun r => r.tenantId = x.tenantId ∧ r.deduplicationKey = x.deduplicationKey with
  | some r =>
    match WorkItem.validate r.item with
    | some y => (.ok (.enqueued y false), rows)
    | none => (.error (.other "ValidationError"), rows)
  | none =>
    if rows.any fun r => r.id = x.id then (.error (.other "UniqueViolationError"), rows)
    else (.ok (.enqueued x true), rows ++ [inserted now x])

/-- `UPDATE … SET … WHERE` with the number of rows. -/
def update (rows : List (WorkRow V)) (cond : WorkRow V → Bool) (f : WorkRow V → WorkRow V) :
    Nat × List (WorkRow V) :=
  (rows.countP cond, rows.map fun r => if cond r then f r else r)

/-- `scan` is the order in which the table is read. -/
def claim (scan : List (WorkRow V) → List (WorkRow V)) (rows : List (WorkRow V)) (now : Time)
    (workerId : String) (leaseSeconds : Int) : Except Exn (QueueReply V) × List (WorkRow V) :=
  match earliest (fun r => (r.availableAt, r.createdAt))
    ((scan rows).filter (WorkRow.candidate now)) with
  | none => (.ok (.claimed none), rows)
  | some r =>
    let rows' := (update rows (fun w => w.id = r.id) (WorkRow.claim now workerId leaseSeconds)).2
    match WorkItem.validate (r.claim now workerId leaseSeconds).item with
    | some y => (.ok (.claimed (some y)), rows')
    | none => (.error (.other "ValidationError"), rows')

def renew (rows : List (WorkRow V)) (now : Time) (itemId workerId : String) (leaseSeconds : Int) :
    Except Exn (QueueReply V) × List (WorkRow V) :=
  let (n, rows') := update rows (WorkRow.owned itemId workerId) (WorkRow.renew now leaseSeconds)
  (.ok (.renewed (n = 1)), rows')

/-- The result of a statement that must update one row. -/
def one : Nat × List (WorkRow V) → Except Exn (QueueReply V) × List (WorkRow V)
  | (n, rows') => (if n = 1 then .ok .done else .error (.conflict .leaseNotOwned), rows')

def complete (rows : List (WorkRow V)) (now : Time) (itemId workerId : String)
    (result : Dict String V) : Except Exn (QueueReply V) × List (WorkRow V) :=
  one (update rows (WorkRow.owned itemId workerId) (WorkRow.complete now result))

def fail (rows : List (WorkRow V)) (now : Time) (itemId workerId error : String) (retry : Bool) :
    Except Exn (QueueReply V) × List (WorkRow V) :=
  one (update rows (WorkRow.owned itemId workerId)
    (WorkRow.fail now (if retry then "pending" else "failed") error))

def step (scan : List (WorkRow V) → List (WorkRow V)) (c : TimedCall V) (rows : List (WorkRow V)) :
    Except Exn (QueueReply V) × List (WorkRow V) :=
  match c.call with
  | .enqueue item => enqueue rows c.now item
  | .claim workerId leaseSeconds => claim scan rows c.now workerId leaseSeconds
  | .renew itemId workerId leaseSeconds => renew rows c.now itemId workerId leaseSeconds
  | .complete itemId workerId result => complete rows c.now itemId workerId result
  | .fail itemId workerId error retry => fail rows c.now itemId workerId error retry

end PostgresWorkQueue

/-! ## Runs -/

/-- The protocol `WorkQueue`, with the stored items and those that a `claim` chooses from. -/
structure WorkQueue (V : Type) where
  State : Type
  init : State
  step : TimedCall V → State → Except Exn (QueueReply V) × State
  items : State → List (WorkItem V)
  candidates : State → Time → List (WorkItem V)

def InMemoryWorkQueue.queue (V : Type) : WorkQueue V where
  State := InMemoryWorkQueue V
  init := {}
  step := step
  items q := q.items.values
  candidates := candidates

def PostgresWorkQueue.queue (scan : List (WorkRow V) → List (WorkRow V)) : WorkQueue V where
  State := List (WorkRow V)
  init := []
  step := step scan
  items rows := rows.filterMap fun r => WorkItem.validate r.item
  candidates rows now :=
    (rows.filter (WorkRow.candidate now)).filterMap fun r => WorkItem.validate r.item

/-- What the callers see of the leases. -/
def TimedCall.event (c : TimedCall V) (reply : Except Exn (QueueReply V)) :
    Lease.Event String String Time :=
  match c.call, reply with
  | .enqueue _, .ok (.enqueued x true) => .put x.id x.maximumAttempts
  | .claim workerId leaseSeconds, .ok (.claimed (some x)) =>
    .take x.id workerId c.now (c.now + leaseSeconds)
  | .renew itemId _ leaseSeconds, .ok (.renewed true) => .extend itemId (c.now + leaseSeconds)
  | .complete itemId _ _, .ok .done => .report itemId false
  | .fail itemId _ _ retry, .ok .done => .report itemId retry
  | _, _ => .idle

namespace WorkQueue
variable (Q : WorkQueue V)

/-- The state after the calls. -/
def after : List (TimedCall V) → Q.State
  | [] => Q.init
  | c :: past => (Q.step c (after past)).2

def reply (past : List (TimedCall V)) (c : TimedCall V) : Except Exn (QueueReply V) :=
  (Q.step c (Q.after past)).1

def events : List (TimedCall V) → List (Lease.Event String String Time)
  | [] => []
  | c :: past => c.event (Q.reply past c) :: events past

end WorkQueue

/-- The items handed to `enqueue`. -/
def enqueued (calls : List (TimedCall V)) : List (WorkItem V) :=
  calls.filterMap fun c => match c.call with
    | .enqueue x => some x
    | _ => none

/-- A `WorkItem` as its constructor leaves it. -/
structure WorkItem.Unused (x : WorkItem V) : Prop where
  status : x.status = .pending
  attempts : x.attempts = 0
  leaseOwner : x.leaseOwner = none
  leaseExpiresAt : x.leaseExpiresAt = none
  result : x.result = none
  error : x.error = none

/-- Fresh items with distinct ids are enqueued, under a clock that does not go back. -/
structure Regular (calls : List (TimedCall V)) : Prop where
  unused : ∀ x ∈ enqueued calls, x.Unused
  ids : ((enqueued calls).map fun x => x.id).Nodup
  ends : ∀ c ∈ calls, c.now ≤ c.later
  clock : calls.Pairwise fun c d => d.later ≤ c.now

end TracciaRuntime
