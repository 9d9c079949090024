/-
  Traccia Runtime formalization — the built-in handlers of the analytical nodes that work on
  rows (`analytics/handlers.py`).

  * `Cells`: what the handlers ask of the values in the rows;
  * `Index`: a dictionary whose keys are the key cells of rows;
  * `joinResults`, `comparePeriods`, `rankResults`: the rows that the handlers return; `_result`
    adds their number and the identifiers of the inputs.

  An input that is no list is `none`.
-/
import TracciaRuntime.Analytics.Contracts

namespace TracciaRuntime.Analytics

open Py

variable {V F α : Type}

/-! ## Rows -/

/-- What the handlers ask of the values of a row, other than `None`. -/
structure Cells (V F : Type) where
  typeName : V → String
  /-- `hash(x)` does not raise -/
  hashable : V → Bool
  /-- `x is y or x == y`, by which the keys of dictionaries and the items of tuples are compared -/
  same : V → V → Bool
  same_equivalence : Equivalence fun x y => same x y = true
  /-- `x < y`, where it does not raise -/
  less : V → V → Bool
  /-- `float(x)`, if `x` is an `int` or a `float` -/
  number : V → Option (Except Raised F)
  subtract : F → F → F
  divide : F → F → F
  isZero : F → Bool
  ofFloat : F → V
  ofNat : Nat → V

/-- A row; a cell that is `None` is `none`. -/
structure Row (V : Type) where
  cells : Dict String (Option V)
  nodup : cells.keys.Nodup

namespace Row

/-- `row.get(column)`. -/
def get (r : Row V) (column : String) : Option V := (r.cells.get column).join

/-- `{**row, column: v}`. -/
def set (r : Row V) (column : String) (v : Option V) : Row V where
  cells := r.cells.set column v
  nodup := Dict.nodup_keys_set column v r.nodup

/-- `{**row, **new}`. -/
def merge (r new : Row V) : Row V where
  cells := r.cells.update new.cells
  nodup := Dict.nodup_keys_update new.cells r.nodup

/-- `{key: value for key, value in row.items() if key not in keys}`. -/
def without (r : Row V) (keys : List String) : Row V where
  cells := r.cells.filter fun i => i.1 ∉ keys
  nodup := r.nodup.sublist (List.filter_sublist.map _)

/-- `tuple(row.get(item) for item in keys)`. -/
def key (r : Row V) (keys : List String) : List (Option V) := keys.map r.get

end Row

namespace Cells
variable (c : Cells V F)

def sameCell : Option V → Option V → Bool
  | none, none => true
  | some x, some y => c.same x y
  | _, _ => false

def sameKey : List (Option V) → List (Option V) → Bool
  | [], [] => true
  | x :: xs, y :: ys => c.sameCell x y && sameKey xs ys
  | _, _ => false

/-- `<` of items of tuples, which are compared by `==` before. -/
def before (x y : V) : Bool := !c.same x y && c.less x y

/-- `hash(key)`. -/
def hash (key : List (Option V)) : Except Raised Unit :=
  key.forM fun
    | some v =>
      if c.hashable v then .ok () else .error (.other "TypeError" s!"unhashable type: '{c.typeName v}'")
    | none => .ok ()

end Cells

/-- A dictionary under keys of rows, in insertion order. -/
abbrev Index (V α : Type) := List (List (Option V) × α)

namespace Index
variable (c : Cells V F)

/-- `index.get(key)`. -/
def get : Index V α → List (Option V) → Option α
  | [], _ => none
  | e :: index, key => if c.sameKey e.1 key then some e.2 else get index key

/-- `index[key] = a`. -/
def set : Index V α → List (Option V) → α → Index V α
  | [], key, a => [(key, a)]
  | e :: index, key, a => if c.sameKey e.1 key then (e.1, a) :: index else e :: set index key a

end Index

/-! ## Joins -/

structure JoinConfiguration where
  keys : List String := []
  relationship : String := "one_to_one"

section
variable (c : Cells V F)

/-- A turn of the loop over the right rows: `index.setdefault(key, []).append(row)`. -/
def addRight (keys : List String) (index : Index V (List (Row V))) (row : Row V) :
    Except Raised (Index V (List (Row V))) := do
  c.hash (row.key keys)
  pure (index.set c (row.key keys) ((index.get c (row.key keys)).getD [] ++ [row]))

/-- The output rows of a left row. -/
def joinRow (keys : List String) (index : Index V (List (Row V))) (row : Row V) :
    Except Raised (List (Row V)) := do
  c.hash (row.key keys)
  let found := (index.get c (row.key keys)).getD []
  pure (if found = [] then [row] else found.map fun r => row.merge (r.without keys))

/-- `join_results`. -/
def joinResults (configuration : JoinConfiguration) (left right : Option (List (Row V))) :
    Except Raised (List (Row V)) :=
  match left, right with
  | some left, some right => do
    require (configuration.keys ≠ [])
      (.configuration "join_results requires left/right row lists and join keys")
    let index ← right.foldlM (addRight c configuration.keys) []
    require (¬((configuration.relationship = "one_to_one" ∨
        configuration.relationship = "many_to_one") ∧ ∃ e ∈ index, 1 < e.2.length))
      (.configuration "join would fan out beyond its declared relationship")
    let output ← left.mapM (joinRow c configuration.keys index)
    pure output.flatten
  | _, _ => throw (.configuration "join_results requires left/right row lists and join keys")

end

/-! ## Comparisons of periods -/

structure ComparisonConfiguration where
  metric : String := "value"
  keys : List String := []

section
variable (c : Cells V F)

/-- A turn of the comprehension of `baseline_index`: a later row takes the place of an earlier
    one. -/
def addBaseline (keys : List String) (index : Index V (Row V)) (row : Row V) :
    Except Raised (Index V (Row V)) := do
  c.hash (row.key keys)
  pure (index.set c (row.key keys) row)

/-- Two values as floats, if both are numbers. -/
def floats (x y : Option V) : Except Raised (Option (F × F)) :=
  match x.bind c.number, y.bind c.number with
  | some a, some b => do
    let a ← a
    let b ← b
    pure (some (a, b))
  | _, _ => pure none

/-- A current row next to its `prior`. -/
def compareRow (metric : String) (row : Row V) (prior : Option (Row V)) :
    Except Raised (Row V) := do
  let baselineValue := prior.bind (·.get metric)
  let values ← floats c (row.get metric) baselineValue
  let delta := values.map fun x => c.subtract x.1 x.2
  let percent := values.bind fun x =>
    if c.isZero x.2 then none else some (c.divide (c.subtract x.1 x.2) x.2)
  pure (((row.set ("baseline_" ++ metric) baselineValue).set ("delta_" ++ metric)
    (delta.map c.ofFloat)).set ("percent_change_" ++ metric) (percent.map c.ofFloat))

/-- A turn of the loop over the current rows. -/
def comparedRow (configuration : ComparisonConfiguration) (index : Index V (Row V)) (row : Row V) :
    Except Raised (Row V) := do
  c.hash (row.key configuration.keys)
  compareRow c configuration.metric row (index.get c (row.key configuration.keys))

/-- `compare_periods`. -/
def comparePeriods (configuration : ComparisonConfiguration)
    (current baseline : Option (List (Row V))) : Except Raised (List (Row V)) :=
  match current, baseline with
  | some current, some baseline => do
    let index ← baseline.foldlM (addBaseline c configuration.keys) []
    current.mapM (comparedRow c configuration index)
  | _, _ => throw (.configuration "compare_periods requires current and baseline row lists")

end

/-! ## Rankings -/

structure RankConfiguration where
  field : String := "None"
  descending : Bool := true
  limit : Int := 10

section
variable (c : Cells V F)

/-- `<` of the keys `(row.get(field) is not None, row.get(field))`. -/
def rankLess (field : String) (r r' : Row V) : Bool :=
  match r.get field, r'.get field with
  | some x, some y => c.before x y
  | none, some _ => true
  | _, none => false

/-- `sorted(rows, key=…, reverse=descending)` of rows whose values can be compared; equal rows keep
    their order in both directions. -/
def sortedRows (field : String) (descending : Bool) (rows : List (Row V)) : List (Row V) :=
  rows.mergeSort fun r r' => !if descending then rankLess c field r r' else rankLess c field r' r

/-- `rows[:limit]`. -/
def firstRows (limit : Int) (rows : List (Row V)) : List (Row V) :=
  rows.take (if 0 ≤ limit then limit.toNat else rows.length - limit.natAbs)

/-- `ranked`. -/
def ranked (configuration : RankConfiguration) (rows : List (Row V)) : List (Row V) :=
  firstRows configuration.limit (sortedRows c configuration.field configuration.descending rows)

/-- The rows with their ranks. -/
def withRanks (rows : List (Row V)) : List (Row V) :=
  rows.mapIdx fun i r => r.set "rank" (some (c.ofNat (i + 1)))

/-- `rank_results`. -/
def rankResults (configuration : RankConfiguration) (rows : Option (List (Row V))) :
    Except Raised (List (Row V)) :=
  match rows with
  | some rows => pure (withRanks c (ranked c configuration rows))
  | none => throw (.configuration "rank requires a rows input")

end

end TracciaRuntime.Analytics
