/-
  Traccia Runtime formalization — the tool execution stores
  (`persistence/tool_executions.py`, `persistence/postgres.py`).

  The in-memory store runs each method under its lock; the Postgres store is a
  sequence of SQL statements, each atomic.  A row remembers the task that
  reserved it.
-/
import TracciaRuntime.Types

namespace TracciaRuntime

open Py

variable {V : Type}

namespace ToolExecutionRecord

/-- The record of a new reservation. -/
def reserve (context : ToolContext) (toolName : String) : ToolExecutionRecord V where
  idempotencyKey := context.idempotencyKey
  runId := context.runId
  stepId := context.stepId
  tenantId := context.tenantId
  toolName := toolName
  status := .started

/-- The record with its result. -/
def complete (r : ToolExecutionRecord V) (result : ToolResult V) : ToolExecutionRecord V :=
  { r with status := .completed, result := some result, error := none }

/-- The record of a failed execution. -/
def fail (r : ToolExecutionRecord V) (error : String) (indeterminate : Bool) :
    ToolExecutionRecord V :=
  { r with status := if indeterminate then .indeterminate else .failed, error := some error }

end ToolExecutionRecord

/-- A row of `traccia_runtime_tool_executions`, and the task that reserved it. -/
structure Row (V : Type) where
  owner : Nat
  tenantId : String
  status : ToolExecutionStatus
  record : ToolExecutionRecord V
  deriving DecidableEq

/-- The row of a reservation by task `t`. -/
def Row.reserved (t : Nat) (record : ToolExecutionRecord V) : Row V :=
  ⟨t, record.tenantId, record.status, record⟩

/-- The row with another record. -/
def Row.withRecord (row : Row V) (record : ToolExecutionRecord V) : Row V :=
  { row with status := record.status, record := record }

abbrev Executions (V : Type) := Dict String (Row V)

namespace Executions

/-! ## `InMemoryToolExecutionStore` -/

/-- `begin`. -/
def beginMem (rows : Executions V) (t : Nat) (context : ToolContext) (toolName : String) :
    (ToolExecutionRecord V × Bool) × Executions V :=
  let record := ToolExecutionRecord.reserve context toolName
  match rows.get context.idempotencyKey with
  | some row =>
    if row.record.status ≠ .failed then ((row.record, false), rows)
    else ((record, true), rows.set context.idempotencyKey (.reserved t record))
  | none => ((record, true), rows.set context.idempotencyKey (.reserved t record))

/-- `complete` and `fail` rewrite the record of the key. -/
def updateMem (rows : Executions V) (key : String)
    (f : ToolExecutionRecord V → ToolExecutionRecord V) : Except Exn (Executions V) :=
  match rows.get key with
  | some row => .ok (rows.set key (row.withRecord (f row.record)))
  | none => .error (.other "KeyError")

/-! ## `PostgresToolExecutionStore` -/

/-- `INSERT ... ON CONFLICT DO NOTHING`; `true` is `INSERT 0 1`. -/
def insert (rows : Executions V) (t : Nat) (record : ToolExecutionRecord V) :
    Bool × Executions V :=
  match rows.get record.idempotencyKey with
  | some _ => (false, rows)
  | none => (true, rows.set record.idempotencyKey (.reserved t record))

/-- `SELECT record ... WHERE idempotency_key=$1 AND tenant_id=$2`. -/
def select (rows : Executions V) (key tenantId : String) : Option (ToolExecutionRecord V) :=
  ((rows.get key).filter fun row => row.tenantId = tenantId).map (·.record)

/-- `UPDATE ... SET status='started' WHERE idempotency_key=$2 AND status='failed'`;
    `true` is `UPDATE 1`. -/
def restart (rows : Executions V) (t : Nat) (record : ToolExecutionRecord V) (key : String) :
    Bool × Executions V :=
  match rows.get key with
  | some row =>
    if row.status = .failed then
      (true, rows.set key { row.withRecord record with owner := t, status := .started })
    else (false, rows)
  | none => (false, rows)

/-- `UPDATE ... SET status=$1, record=$2 WHERE idempotency_key=$3`. -/
def update (rows : Executions V) (record : ToolExecutionRecord V) : Executions V :=
  match rows.get record.idempotencyKey with
  | some row => rows.set record.idempotencyKey (row.withRecord record)
  | none => rows

end Executions

end TracciaRuntime
