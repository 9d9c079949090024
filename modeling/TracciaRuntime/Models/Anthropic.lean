/-
  Traccia Runtime formalization — the adapter of the Messages API
  (`models/providers/adapters.py`).

  `AnthropicProvider` inherits from `OpenAICompatibleProvider`: its methods are functions of the
  same parameters.  Its indices are any values that can be hashed; `sorted` compares numbers with
  numbers and texts with texts.
-/
import TracciaRuntime.Models.ChatCompletions

namespace Py.Value

/-- The numbers among the values. -/
def number? : Value → Option ℚ
  | bool b => some (if b then 1 else 0)
  | int n => some n
  | float x => some x
  | _ => none

/-- `x == y` for two values that can be hashed. -/
def same (x y : Value) : Bool :=
  match x, y with
  | null, null => true
  | str s, str t => s = t
  | infinity a, infinity b => a = b
  | x, y => x.number?.isSome && x.number? = y.number?

/-- `x < y`; `none` where it raises `TypeError`. -/
def less? (x y : Value) : Option Bool :=
  match x, y with
  | str s, str t => some (s < t)
  | nan, nan => some false
  | infinity a, infinity b => some (a && !b)
  | infinity a, y => if y.number?.isSome then some a else none
  | x, infinity b => if x.number?.isSome then some !b else none
  | x, y =>
    match x.number?, y.number? with
    | some a, some b => some (a < b)
    | _, _ => none

/-- `sorted(d.items())`, by the keys. -/
def sortedItems {α : Type} (d : List (Value × α)) : Result (List (Value × α)) :=
  if d.all fun x => d.all fun y => x.1.same y.1 || (x.1.less? y.1).isSome then
    .ok (d.insertionSort fun x y => y.1.less? x.1 ≠ some true)
  else typeError "'<' not supported between instances of different types"

/-- `d[key] = x` and `d[key]`, for a dictionary by values. -/
def setItem {α : Type} (d : List (Value × α)) (key : Value) (x : α) : Result (List (Value × α)) :=
  if key.hashable then
    .ok (if d.any fun y => y.1.same key then
        d.map fun y => if y.1.same key then (y.1, x) else y
      else d ++ [(key, x)])
  else typeError s!"unhashable type: '{key.typeName}'"

def getItem {α : Type} (d : List (Value × α)) (key : Value) : Result α :=
  if key.hashable then
    ((d.find? fun y => y.1.same key).map (·.2)).elim (.error ⟨.key, ""⟩) .ok
  else typeError s!"unhashable type: '{key.typeName}'"

/-- `x.get("type") == t`. -/
def hasType (t : String) (x : Value) : Result Bool :=
  (x.getD "type" .null).map fun v => v.asStr? = some t

/-- `"".join(x)`. -/
def join (l : List Value) : Result String :=
  (l.mapM fun x : Value => x.asStr?.elim
    (typeError s!"sequence item: expected str instance, {x.typeName} found") .ok).map String.join

end Py.Value

namespace TracciaRuntime

open Py

namespace AnthropicProvider
variable (p : OpenAICompatibleProvider)

/-- A field of type `dict` of a `ToolCall`. -/
def validArguments (x : Value) : Result (Dict String Value) :=
  x.asDict?.elim (.error ⟨.value, p.validationError "ToolCall"⟩) .ok

/-! ## Plain generation -/

/-- The items of `data.get("content", ())` of a type. -/
def blocks (t : String) (data : Value) : Result (List Value) := do
  let items ← (← data.getD "content" (.list [])).iter
  items.filterM (Value.hasType t)

def text (data : Value) : Result String := do
  Value.join (← (← blocks "text" data).mapM fun item => item.getD "text" (.str ""))

def call (item : Value) : Result (ToolCall Value) := do
  let id ← item.subscript "id"
  let name ← p.runtimeToolName (← item.subscript "name")
  let arguments ← item.getD "input" (.dict [])
  p.toolCall id name (← validArguments p arguments)

/-- The finish reason, from the tool calls alone. -/
def finishReason (calls : List (ToolCall Value)) : FinishReason :=
  if calls ≠ [] then .toolCalls else .stop

/-- `_response`. -/
def response (data : Value) (latencyMs : ℚ) (raw : Bool) : Result (ModelResponse Value) := do
  let text ← text data
  let calls ← (← blocks "tool_use" data).mapM (call p)
  let usage := (← data.getD "usage" .null).orElse (.dict [])
  let id ← data.getD "id" (.str "unknown")
  let usage ← p.tokenUsage (← usage.getD "input_tokens" (.int 0))
    (← usage.getD "output_tokens" (.int 0)) (.int 0)
  let model ← data.getD "model" (.str p.defaultModel)
  p.modelResponse id text calls (finishReason calls) usage latencyMs model
    (if raw then data.asDict? else none)

/-! ## Streams -/

/-- An item of `call_parts`. -/
structure CallPart where
  id : Value
  name : Value
  json : String := ""

structure StreamState where
  responseId : Value := .str "unknown"
  model : Value
  textParts : List Value := []
  callParts : List (Value × CallPart) := []
  inputTokens : Value := .int 0
  outputTokens : Value := .int 0

/-- One event. -/
def addEvent (s : StreamState) (data : Value) : Result StreamState := do
  let type ← data.getD "type" .null
  match type with
  | .str "message_start" =>
    let message ← data.getD "message" (.dict [])
    let responseId ← message.getD "id" s.responseId
    let model ← message.getD "model" s.model
    let inputTokens ← (← message.getD "usage" (.dict [])).getD "input_tokens" (.int 0)
    pure { s with responseId, model, inputTokens }
  | .str "content_block_start" =>
    let block ← data.getD "content_block" (.dict [])
    if ← block.hasType "tool_use" then
      let id ← block.subscript "id"
      let name ← p.runtimeToolName (← block.subscript "name")
      let index ← data.subscript "index"
      pure { s with callParts := ← Value.setItem s.callParts index ⟨id, name, ""⟩ }
    else pure s
  | .str "content_block_delta" =>
    let delta ← data.getD "delta" (.dict [])
    if ← delta.hasType "text_delta" then
      let piece ← delta.getD "text" (.str "")
      match piece with
      | .null | .str _ => pure { s with textParts := s.textParts ++ [piece] }
      | _ => .error ⟨.value, p.validationError "ModelStreamEvent"⟩
    else if ← delta.hasType "input_json_delta" then
      let index ← data.subscript "index"
      let part ← Value.getItem s.callParts index
      let json ← Value.concat part.json (← delta.getD "partial_json" (.str ""))
      pure { s with callParts := ← Value.setItem s.callParts index { part with json } }
    else pure s
  | .str "message_delta" =>
    let outputTokens ← (← data.getD "usage" (.dict [])).getD "output_tokens" (.int 0)
    pure { s with outputTokens }
  | _ => pure s

def readLines (s : StreamState) : List String → Result StreamState
  | [] => .ok s
  | line :: rest =>
    if "data: ".toList.isPrefixOf line.toList then
      match p.loads (removePrefix "data: " line) with
      | .ok data => do readLines (← addEvent p s data) rest
      | .error text => .error ⟨.value, text⟩
    else readLines s rest

def streamedCall (x : Value × CallPart) : Result (ToolCall Value) := do
  let arguments ← match p.loads (if x.2.json = "" then "\x7b\x7d" else x.2.json) with
    | .ok arguments => pure arguments
    | .error text => .error ⟨.value, text⟩
  p.toolCall x.2.id x.2.name (← validArguments p arguments)

/-- The response of the event `completed`. The counts are those of `model_copy`, which does not
    validate; one that is no integer is told as zero here. -/
def complete (s : StreamState) (latencyMs : ℚ) : Result (ModelResponse Value) := do
  let calls ← (← Value.sortedItems s.callParts).mapM (streamedCall p)
  let text ← Value.join s.textParts
  p.modelResponse s.responseId text calls (finishReason calls)
    { inputTokens := (p.validateInt s.inputTokens).getD 0
      outputTokens := (p.validateInt s.outputTokens).getD 0 } latencyMs s.model none

/-- `stream` on the lines of a success; `model` is that of the request. -/
def stream (model : Option String) (lines : List String) (latencyMs : ℚ) :
    Result (ModelResponse Value) := do
  let start : StreamState :=
    { model := .str (if model.getD "" = "" then p.defaultModel else model.getD "") }
  complete p (← readLines p start lines) latencyMs

end AnthropicProvider

end TracciaRuntime
