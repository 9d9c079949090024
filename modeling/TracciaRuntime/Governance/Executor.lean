/-
  Traccia Runtime formalization — the executor of governed queries (`governance/executor.py`,
  `cache/service.py`: `get_or_set_json`).

  * `GovernedQuery`: a query with its request, and the rows that the backend has for it;
  * `GovernedQueryExecutor.step`: the calls of `execute` in a process, from one `await` to the
    next.

  The calls share a cache key: they go to one entry of the store, and to one future at a time.
  The backend answers, and no call is cancelled.
-/
import TracciaRuntime.Cache.Service
import TracciaRuntime.Py.Objects
import TracciaRuntime.Machine.Moves

namespace TracciaRuntime

open Py

abbrev ResultRow := List (Key × Object)

/-- Rows as an object. -/
def ofRows (rows : List ResultRow) : Object := .list (rows.map .dict)

/-- A query, and what its calls depend on. -/
structure GovernedQuery where
  /-- what `enforce` does -/
  governed : Except Exn Unit
  context : CacheContext
  /-- what the backend answers -/
  rows : List ResultRow

structure GovernedQueryExecutor where
  /-- the policy of `query_results`, if there is a cache -/
  cache : Option CachePolicy
  maximumRows : Nat
  /-- the number of bytes of a document -/
  size : Value → Nat

/-- What a call of `execute` waits for. -/
inductive QueryStage where
  /-- `store.get` -/
  | asking
  /-- the lock of the calls in flight -/
  | joining
  /-- the future of another call -/
  | waiting (future : Nat)
  /-- the backend; with its future, if it has one -/
  | loading (future : Option Nat)
  /-- `store.set` -/
  | storing (future : Nat) (document : Value)
  /-- the lock, to leave the calls in flight -/
  | leaving (result : Except Exn Object)
  | ended (result : Except Exn (List ResultRow × Bool))

structure GovernedCalls where
  /-- what the store has under the key -/
  entry : Option Value := none
  inflight : Option Nat := none
  futures : List (Option (Except Exn Object)) := []
  calls : List (GovernedQuery × QueryStage) := []

inductive GovernedMove where
  | call (q : GovernedQuery)
  /-- the entry expires, or is evicted or invalidated -/
  | drop
  /-- a call gets what it waits for; the store may fail -/
  | resume (call : Nat) (fails : Bool)

namespace GovernedQuery

/-- What the loader returns. -/
def value (q : GovernedQuery) : Object := ofRows q.rows

end GovernedQuery

namespace GovernedCalls

/-- A call goes on. -/
def goes (w : GovernedCalls) (i : Nat) (q : GovernedQuery) (stage : QueryStage) : GovernedCalls :=
  { w with calls := w.calls.set i (q, stage) }

/-- The owner of a future sets it, and waits for the lock. -/
def settle (w : GovernedCalls) (i : Nat) (q : GovernedQuery) (future : Nat)
    (result : Except Exn Object) : GovernedCalls :=
  { w.goes i q (.leaving result) with futures := w.futures.set future (some result) }

end GovernedCalls

namespace GovernedQueryExecutor

/-- `dict(item)`; nothing else than dictionaries gets here. -/
def dictOf : Object → Except Exn ResultRow
  | .dict d => .ok d
  | _ => .error (.other "TypeError")

/-- `[dict(item) for item in value]`. -/
def rowsOf : Object → Except Exn (List ResultRow)
  | .list l => l.mapM dictOf
  | _ => .error (.other "TypeError")

variable (e : GovernedQueryExecutor) (q : GovernedQuery)

/-- `_validate_actual_rows`. -/
def validateActualRows (rows : List ResultRow) : Except Exn Unit :=
  if rows.length > e.maximumRows then
    .error (.policyDenied "governed query result exceeded the configured actual row quota")
  else .ok ()

/-- The end of `execute`. -/
def finish (value : Object) (hit : Bool) : Except Exn (List ResultRow × Bool) := do
  let rows ← rowsOf value
  e.validateActualRows rows
  .ok (rows, hit)

/-- A new call, up to its first `await`. -/
def begin : QueryStage :=
  match q.governed with
  | .error exn => .ended (.error exn)
  | .ok () =>
    match e.cache with
    | none => .loading none
    | some p =>
      if p.enabled then
        match CacheService.scopeMaterial q.context p.scope with
        | .error exn => .ended (.error exn)
        | .ok _ => .asking
      else .loading none

/-- The largest document that is stored. -/
def maximumValueBytes : Nat := (e.cache.getD {}).maximumValueBytes

/-- A call gets what it waits for. -/
def resume (w : GovernedCalls) (i : Nat) (fails : Bool) : QueryStage → Option GovernedCalls
  | .asking =>
    match if fails then none else w.entry with
    | some document => some (w.goes i q (.ended (e.finish (.loads document) true)))
    | none => some (w.goes i q .joining)
  | .joining =>
    match w.inflight with
    | some future => some (w.goes i q (.waiting future))
    | none =>
      some { w.goes i q (.loading (some w.futures.length)) with
        inflight := some w.futures.length
        futures := w.futures ++ [none] }
  | .waiting future =>
    match w.futures[future]? with
    | some (some result) => some (w.goes i q (.ended (result.bind fun v => e.finish v true)))
    | _ => none
  | .loading none => some (w.goes i q (.ended (e.finish q.value false)))
  | .loading (some future) =>
    match q.value.dumps with
    -- nothing catches what `json.dumps` raises
    | none => some (w.settle i q future (.error (.other "TypeError")))
    | some document =>
      if e.size document > e.maximumValueBytes then some (w.settle i q future (.ok q.value))
      else some (w.goes i q (.storing future document))
  | .storing future document =>
    some { w.settle i q future (.ok q.value) with
      entry := if fails then w.entry else some document }
  | .leaving result =>
    some { w.goes i q (.ended (result.bind fun v => e.finish v false)) with inflight := none }
  | .ended _ => none

def step (w : GovernedCalls) : GovernedMove → Option GovernedCalls
  | .call q => some { w with calls := w.calls ++ [(q, e.begin q)] }
  | .drop => some { w with entry := none }
  | .resume i fails => w.calls[i]?.bind fun c => e.resume c.1 w i fails c.2

end GovernedQueryExecutor

end TracciaRuntime
