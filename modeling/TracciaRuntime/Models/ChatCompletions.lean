/-
  Traccia Runtime formalization — the adapter of OpenAI-compatible providers on any reply
  (`models/providers/openai_compatible.py`).

  * `OpenAICompatibleProvider.response`: `_response`, on a decoded body of any shape;
  * `OpenAICompatibleProvider.generate`: one request, by how it ends;
  * `OpenAICompatibleProvider.stream`: the accumulators over the lines of a stream.

  What is not of this repository is a parameter: the JSON decoder, the validation of integers by
  pydantic, and the texts of its errors.
-/
import TracciaRuntime.Py.Json
import TracciaRuntime.Types
import Mathlib.Data.List.Sort

namespace TracciaRuntime

open Py

/-- The exceptions of the operations, as those of the runtime. -/
def toExn (e : Error) : Exn :=
  match e.type with
  | .index => .other "IndexError"
  | .key => .other "KeyError"
  | .type => .other "TypeError"
  | .value => .valueError e.text
  | .attribute => .other "AttributeError"
  | .overflow => .other "OverflowError"

structure OpenAICompatibleProvider where
  providerId : String
  defaultModel : String
  /-- the Runtime names of the tools, by their names on the wire -/
  runtimeToolNames : Dict String String := []
  /-- `json.loads`, with the text of its error -/
  loads : String → Except String Value
  /-- what an `int` field accepts -/
  validateInt : Value → Option Int
  validateInt_int : ∀ n, validateInt (.int n) = some n
  /-- the text of a `ValidationError` of the model -/
  validationError : String → String
  /-- `str(x)` -/
  str : Value → String
  str_str : ∀ s, str (.str s) = s
  /-- the diagnostics that `_error_message` finds in a body -/
  detail : Except String Value → String

namespace OpenAICompatibleProvider
variable (p : OpenAICompatibleProvider)

/-! ## Contracts -/

/-- A field of type `str` of the model. -/
def validStr (model : String) (x : Value) : Result String :=
  x.asStr?.elim (.error ⟨.value, p.validationError model⟩) .ok

def validInt (model : String) (x : Value) : Result Int :=
  (p.validateInt x).elim (.error ⟨.value, p.validationError model⟩) .ok

/-- `TokenUsage(…)`. -/
def tokenUsage (input output cached : Value) : Result TokenUsage := do
  let inputTokens ← p.validInt "TokenUsage" input
  let outputTokens ← p.validInt "TokenUsage" output
  let cachedTokens ← p.validInt "TokenUsage" cached
  pure { inputTokens, outputTokens, cachedTokens }

/-- `ToolCall(…)`. -/
def toolCall (id name : Value) (arguments : Dict String Value) : Result (ToolCall Value) := do
  let id ← p.validStr "ToolCall" id
  let name ← p.validStr "ToolCall" name
  pure ⟨id, name, arguments⟩

/-- `ModelResponse(…)`, of an assistant. -/
def modelResponse (id : Value) (text : String) (toolCalls : List (ToolCall Value))
    (finishReason : FinishReason) (usage : TokenUsage) (latencyMs : ℚ) (model : Value)
    (rawMetadata : Option (Dict String Value)) : Result (ModelResponse Value) := do
  let id ← p.validStr "ModelResponse" id
  let model ← p.validStr "ModelResponse" model
  pure { id, message := .text .assistant text, toolCalls, finishReason, usage, latencyMs, model
         provider := p.providerId, rawMetadata }

/-! ## Parts of a reply -/

/-- `_error_kind`. -/
def errorKind (status : Nat) : ErrorKind × Bool :=
  if status = 401 then (.authentication, false)
  else if status = 403 then (.authorization, false)
  else if status = 429 then (.rateLimit, true)
  else if 500 ≤ status then (.unavailable, true)
  else (.invalidRequest, false)

/-- `_error_message`. -/
def errorMessage (status : Nat) (body : Except String Value) : String :=
  if p.detail body = "" then s!"{p.providerId} returned HTTP {status}"
  else s!"{p.providerId} returned HTTP {status}: {p.detail body}"

/-- The text of a content block. -/
def blockText : Value → Option String
  | .str s => some s
  | .dict d => (((Dict.get d "text").getD .null).orElse ((Dict.get d "content").getD .null)).asStr?
  | _ => none

/-- `_message_text`. -/
def messageText : Value → Result String
  | .null => .ok ""
  | .str s => .ok s
  | .list blocks => .ok (String.join (blocks.filterMap blockText))
  | _ => .error ⟨.type, "assistant message content must be text or content blocks"⟩

/-- `_tool_arguments`. -/
def toolArguments (x : Value) : Result (Dict String Value) :=
  let mapping (x : Value) : Result (Dict String Value) :=
    x.asDict?.elim (.error ⟨.type, "tool arguments must decode to a JSON object"⟩) .ok
  match x with
  | .null => .ok []
  | .str s =>
    if s = "" then .ok []
    else match p.loads s with
      | .ok x => mapping x
      | .error text => .error ⟨.value, text⟩
  | x => mapping x

/-- `_runtime_tool_name`. -/
def runtimeToolName (name : Value) : Result Value :=
  (Value.lookup p.runtimeToolNames name).map fun found => found.elim name .str

def finishMap : Dict String FinishReason :=
  [("stop", .stop), ("tool_calls", .toolCalls), ("length", .length),
    ("content_filter", .contentFilter)]

/-- `finish_map.get(reason, FinishReason.STOP)`. -/
def finishReason (reason : Value) : Result FinishReason :=
  (Value.lookup finishMap reason).map fun found => found.getD .stop

/-! ## Plain generation -/

/-- The tool call of one item of a message. -/
def call (x : Nat × Value) : Result (ToolCall Value) := do
  let id ← x.2.getD "id" .null
  let function ← x.2.subscript "function"
  let name ← p.runtimeToolName (← function.subscript "name")
  let arguments ← p.toolArguments (← function.getD "arguments" .null)
  p.toolCall (id.orElse (.str s!"call-{x.1}")) name arguments

/-- `enumerate`. -/
def enumerate (l : List Value) : List (Nat × Value) := l.zipIdx.map Prod.swap

/-- The `try` block of `_response`: the choice, the tool calls and the text. -/
def parse (data : Value) : Result (Value × List (ToolCall Value) × String) := do
  let choice ← (← data.subscript "choices").first
  let message := (← choice.getD "message" .null).orElse (.dict [])
  let items ← ((← message.getD "tool_calls" .null).orElse (.list [])).iter
  let calls ← (enumerate items).mapM p.call
  let text ← messageText (← message.getD "content" .null)
  pure (choice, calls, text)

/-- The rest of it. -/
def assemble (data choice : Value) (calls : List (ToolCall Value)) (text : String)
    (latencyMs : ℚ) (raw : Bool) : Result (ModelResponse Value) := do
  let usage := (← data.getD "usage" .null).orElse (.dict [])
  let id ← data.getD "id" (.str "unknown")
  let finish ← finishReason (← choice.getD "finish_reason" .null)
  let usage ← p.tokenUsage (← usage.getD "prompt_tokens" (.int 0))
    (← usage.getD "completion_tokens" (.int 0)) (.int 0)
  let model ← data.getD "model" (.str p.defaultModel)
  p.modelResponse id text calls finish usage latencyMs model (if raw then data.asDict? else none)

/-- `_response`: an `AttributeError` is not among the exceptions that the block handles. -/
def response (data : Value) (latencyMs : ℚ) (raw : Bool) : Except Exn (ModelResponse Value) :=
  match p.parse data with
  | .error e =>
    if e.type = .attribute then .error (toExn e)
    else .error (.provider
      s!"{p.providerId} returned an invalid chat response: {e.text}" .invalidResponse true)
  | .ok (choice, calls, text) =>
    (p.assemble data choice calls text latencyMs raw).mapError toExn

/-- How a request ends. -/
inductive Reply where
  /-- `httpx.TimeoutException` -/
  | timeout
  /-- `httpx.TransportError` -/
  | transportError
  /-- `httpx.DecodingError`: the content encoding of the body is broken -/
  | decodingError
  | response (status : Nat) (body : Except String Value)

/-- `response.is_error`. -/
def isError (status : Nat) : Bool := 400 ≤ status ∧ status ≤ 599

def generate (reply : Reply) (latencyMs : ℚ) (raw : Bool) : Except Exn (ModelResponse Value) :=
  match reply with
  | .timeout => .error (.provider s!"{p.providerId} timed out" .timeout true)
  | .transportError => .error (.provider s!"{p.providerId} transport failure" .unavailable true)
  | .decodingError => .error (.other "DecodingError")
  | .response status body =>
    if isError status then
      .error (.provider (p.errorMessage status body) (errorKind status).1 (errorKind status).2)
    else match body with
      | .ok data => p.response data latencyMs raw
      | .error text => .error (.valueError text)

/-! ## Streams -/

/-- An item of `tool_parts`. -/
structure CallPart where
  id : Value := .null
  name : String := ""
  arguments : Value := .str ""

structure StreamState where
  responseId : Value := .str "unknown"
  model : Value
  textParts : List String := []
  toolParts : Dict Int CallPart := []
  finishReason : FinishReason := .stop
  usage : TokenUsage := {}

/-- `current["arguments"]` after an item. -/
def addArguments (current arguments : Value) : Result Value :=
  match arguments with
  | .dict d => .ok (.dict d)
  | arguments =>
    if arguments.truthy then
      match current with
      | .str s => .ok (.str (s ++ p.str arguments))
      | current =>
        .error ⟨.type, s!"unsupported operand type(s) for +=: '{current.typeName}' and 'str'"⟩
    else .ok current

/-- One item of `delta["tool_calls"]`. -/
def addCall (parts : Dict Int CallPart) (item : Value) : Result (Dict Int CallPart) := do
  let index ← (← item.getD "index" (.int 0)).toInt
  let current := (Dict.get parts index).getD {}
  let id ← item.getD "id" .null
  let function := (← item.getD "function" .null).orElse (.dict [])
  let name ← Value.concat current.name ((← function.getD "name" .null).orElse (.str ""))
  let arguments ← p.addArguments current.arguments (← function.getD "arguments" .null)
  pure (Dict.set parts index ⟨if id.truthy then id else current.id, name, arguments⟩)

/-- `usage` after a chunk. -/
def addUsage (usage : TokenUsage) (chunkUsage : Value) : Result TokenUsage :=
  if chunkUsage.truthy then do
    let details := (← chunkUsage.getD "prompt_tokens_details" (.dict [])).orElse (.dict [])
    p.tokenUsage (← chunkUsage.getD "prompt_tokens" (.int 0))
      (← chunkUsage.getD "completion_tokens" (.int 0)) (← details.getD "cached_tokens" (.int 0))
  else .ok usage

/-- `text_parts` after a chunk; the event of a part is validated. -/
def addText (parts : List String) (text : Value) : Result (List String) :=
  if text.truthy then (p.validStr "ModelStreamEvent" text).map fun t => parts ++ [t]
  else .ok parts

/-- `finish_reason` after a chunk. -/
def addReason (finish : FinishReason) (reason : Value) : Result FinishReason :=
  if reason.truthy then finishReason reason else .ok finish

/-- One chunk. -/
def addChunk (s : StreamState) (chunk : Value) : Result StreamState := do
  let responseId ← chunk.getD "id" s.responseId
  let model ← chunk.getD "model" s.model
  let usage ← p.addUsage s.usage ((← chunk.getD "usage" .null).orElse (.dict []))
  let choice ← (← chunk.getD "choices" (.list [.dict []])).first
  let delta ← choice.getD "delta" (.dict [])
  let textParts ← p.addText s.textParts (← delta.getD "content" .null)
  let items ← (← delta.getD "tool_calls" (.list [])).iter
  let toolParts ← items.foldlM p.addCall s.toolParts
  let finish ← addReason s.finishReason (← choice.getD "finish_reason" .null)
  pure { responseId, model, textParts, toolParts, finishReason := finish, usage }

/-- The lines up to `[DONE]`. -/
def readLines (s : StreamState) : List String → Result StreamState
  | [] => .ok s
  | line :: rest =>
    if "data: ".toList.isPrefixOf line.toList then
      let data := removePrefix "data: " line
      if data = "[DONE]" then .ok s
      else match p.loads data with
        | .ok chunk => do readLines (← p.addChunk s chunk) rest
        | .error text => .error ⟨.value, text⟩
    else readLines s rest

/-- The items of `sorted(tool_parts.items())` as tool calls. -/
def streamedCall (x : Int × CallPart) : Result (ToolCall Value) := do
  let name ← p.runtimeToolName (.str x.2.name)
  let arguments ← p.toolArguments x.2.arguments
  p.toolCall (x.2.id.orElse (.str s!"call-{x.1}")) name arguments

def streamedCalls (parts : Dict Int CallPart) : Result (List (ToolCall Value)) :=
  (parts.insertionSort fun a b => a.1 ≤ b.1).mapM p.streamedCall

/-- The response of the event `completed`. -/
def complete (s : StreamState) (latencyMs : ℚ) : Result (ModelResponse Value) := do
  let calls ← p.streamedCalls s.toolParts
  p.modelResponse s.responseId (String.join s.textParts) calls
    (if calls ≠ [] then .toolCalls else s.finishReason) s.usage latencyMs s.model none

/-- How a streamed request ends; `failed` after the lines that have been read. -/
inductive StreamReply where
  | refused (status : Nat) (body : Except String Value)
  | lines (l : List String)
  | timeout (l : List String)
  | transportError (l : List String)

/-- `stream`, up to its last event; `model` is that of the request. -/
def stream (model : Option String) (reply : StreamReply) (latencyMs : ℚ) :
    Except Exn (ModelResponse Value) :=
  let start : StreamState :=
    { model := .str (if model.getD "" = "" then p.defaultModel else model.getD "") }
  match reply with
  | .refused status body =>
    .error (.provider (p.errorMessage status body) (errorKind status).1 (errorKind status).2)
  | .lines l =>
    ((p.readLines start l).mapError toExn).bind fun s => (p.complete s latencyMs).mapError toExn
  | .timeout l => do
    let _ ← (p.readLines start l).mapError toExn
    .error (.provider s!"{p.providerId} stream timed out" .timeout true)
  | .transportError l => do
    let _ ← (p.readLines start l).mapError toExn
    .error (.provider s!"{p.providerId} stream transport failure" .unavailable true)

end OpenAICompatibleProvider

end TracciaRuntime
