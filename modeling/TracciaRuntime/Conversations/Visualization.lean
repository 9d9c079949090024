/-
  Traccia Runtime formalization — chart specifications (`conversations/visualization.py`).

  `dumps` is `json.dumps(…, ensure_ascii=False, allow_nan=False).encode()`, and `loads` is
  `json.loads`.
-/
import TracciaRuntime.Py.Json

namespace TracciaRuntime

open Py

def maxChartSpecBytes : Nat := 512000

def maxInlineChartRows : Nat := 1000

def maxChartDepth : Nat := 32

/-- `_FORBIDDEN_KEYS`. -/
def forbiddenKeys : List String := ["url", "href", "expr", "calculate", "usermeta"]

/-- `_VIEW_KEYS`. -/
def viewKeys : List String := ["mark", "layer", "hconcat", "vconcat", "concat", "facet", "repeat"]

def valueError {α : Type} (text : String) : Result α := .error ⟨.value, text⟩

/-- The rows with those of a member. -/
def countRows (key : String) (nested : Value) (inlineRows : Nat) : Result Nat :=
  if key = "values" then
    match nested with
    | .list rows => .ok (inlineRows + rows.length)
    | _ => valueError "chart data.values must be an array"
  else .ok inlineRows

mutual

/-- `inspect`, from the inline rows counted so far to those counted then. -/
def inspect (depth inlineRows : Nat) : Value → Result Nat
  | .dict members =>
    if depth > maxChartDepth then valueError "chart specification nesting is too deep"
    else inspectMembers depth inlineRows members
  | .list items =>
    if depth > maxChartDepth then valueError "chart specification nesting is too deep"
    else inspectItems depth inlineRows items
  | _ =>
    if depth > maxChartDepth then valueError "chart specification nesting is too deep"
    else .ok inlineRows

/-- The loop over the members of an object. -/
def inspectMembers (depth inlineRows : Nat) : List (String × Value) → Result Nat
  | [] => .ok inlineRows
  | (key, nested) :: rest => do
    if lower key ∈ forbiddenKeys then
      valueError s!"chart specification field '{key}' is not permitted"
    else
      let counted ← countRows key nested inlineRows
      let inlineRows ← inspect (depth + 1) counted nested
      inspectMembers depth inlineRows rest

/-- The loop over the items of an array. -/
def inspectItems (depth inlineRows : Nat) : List Value → Result Nat
  | [] => .ok inlineRows
  | nested :: rest => do
    let inlineRows ← inspect (depth + 1) inlineRows nested
    inspectItems depth inlineRows rest

end

/-- `validate_vega_lite_specification`. -/
def validateVegaLiteSpecification (dumps : Value → Result (List UInt8))
    (loads : List UInt8 → Result Value) (specification : Value) : Result Value :=
  match dumps specification with
  | .error _ => valueError "chart specification must be finite JSON"
  | .ok encoded =>
    if encoded.length > maxChartSpecBytes then
      valueError s!"chart specification exceeds {maxChartSpecBytes} bytes"
    else do
      let normalized ← loads encoded
      match normalized with
      | .dict members =>
        if members = [] then valueError "chart specification must be a non-empty object"
        else if ∀ key ∈ members.map Prod.fst, key ∉ viewKeys then
          valueError "chart specification must define a Vega-Lite view"
        else
          let inlineRows ← inspect 0 0 normalized
          if inlineRows > maxInlineChartRows then
            valueError s!"chart inline data exceeds {maxInlineChartRows} rows"
          else pure normalized
      | _ => valueError "chart specification must be a non-empty object"

end TracciaRuntime
