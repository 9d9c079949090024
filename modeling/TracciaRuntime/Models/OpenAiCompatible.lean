/-
  Traccia Runtime formalization — chat responses of OpenAI-compatible providers
  (`models/providers/openai_compatible.py`).

  The types `Wire…` are the parts of a decoded reply that the adapter reads; a key
  that may be missing is an `Option`.  `calls_spec` says what ids the tool calls of
  a response have: those of the provider, or `call-` and the index.
-/
import TracciaRuntime.Types
import TracciaRuntime.Py.Result

namespace TracciaRuntime

open Py

variable {V : Type}

/-! ## Replies -/

/-- `arguments` of a function call. -/
inductive WireArguments (V : Type) where
  | absent
  | text (json : String)
  | mapping (arguments : Dict String V)
  | other

structure WireFunction (V : Type) where
  name : Option String := none
  arguments : WireArguments V := .absent

structure WireCall (V : Type) where
  id : Option String := none
  function : Option (WireFunction V) := none

/-- A value that is missing or false, a text, or another value. -/
inductive WireText where
  | absent
  | text (text : String)
  | other

inductive WireBlock where
  | text (text : String)
  | mapping (text content : WireText)
  | other

inductive WireContent where
  | absent
  | text (text : String)
  | blocks (blocks : List WireBlock)
  | other

structure WireMessage (V : Type) where
  content : WireContent := .absent
  toolCalls : Option (List (WireCall V)) := none

structure WireChoice (V : Type) where
  message : Option (WireMessage V) := none
  finishReason : Option String := none

structure WireUsage where
  promptTokens : Option Int := none
  completionTokens : Option Int := none

structure WireReply (V : Type) where
  id : Option String := none
  choices : Option (List (WireChoice V)) := none
  usage : Option WireUsage := none
  model : Option String := none
  /-- the whole reply as it was decoded -/
  data : Dict String V := []

/-! ## The adapter -/

/-- The exceptions that the adapter turns into a `ProviderError`, with their texts. -/
inductive Malformed where
  | indexError | keyError (key : String) | typeError (text : String) | valueError (text : String)
  deriving DecidableEq

/-- `str(exc)`. -/
def Malformed.str : Malformed → String
  | indexError => "list index out of range"
  | keyError key => s!"'{key}'"
  | typeError text => text
  | valueError text => text

/-- `d[key]`. -/
def item {α : Type} (key : String) (x : Option α) : Except Malformed α :=
  x.elim (.error (.keyError key)) .ok

structure OpenAiCompatible (V : Type) where
  providerId : String
  defaultModel : String
  /-- the Runtime names of the tools, by their names on the wire -/
  runtimeToolNames : Dict String String := []
  /-- `json.loads`: the text of the error, or the object if the value is one -/
  loads : String → Except String (Option (Dict String V))

namespace OpenAiCompatible
variable (provider : OpenAiCompatible V)

/-- `_message_text`. -/
def messageText : WireContent → Except Malformed String
  | .absent => .ok ""
  | .text t => .ok t
  | .blocks blocks => .ok (String.join (blocks.filterMap fun
    | .text t => some t
    | .mapping t c =>
      -- `block.get("text") or block.get("content")`
      match t, c with
      | .absent, .text c | .text "", .text c => some c
      | .text t, _ => if t = "" then none else some t
      | _, _ => none
    | .other => none))
  | .other => .error (.typeError "assistant message content must be text or content blocks")

/-- `_tool_arguments`. -/
def toolArguments : WireArguments V → Except Malformed (Dict String V)
  | .absent => .ok []
  | .mapping d => .ok d
  | .other => .error (.typeError "tool arguments must decode to a JSON object")
  | .text json =>
    if json = "" then .ok []
    else match provider.loads json with
      | .ok (some d) => .ok d
      | .ok none => .error (.typeError "tool arguments must decode to a JSON object")
      | .error text => .error (.valueError text)

/-- `_runtime_tool_name`. -/
def runtimeToolName (name : String) : String := (provider.runtimeToolNames.get name).getD name

/-- `item.get("id") or f"call-{index}"`. -/
def callId (x : Nat × WireCall V) : String :=
  match x.2.id with
  | some id => if id = "" then s!"call-{x.1}" else id
  | none => s!"call-{x.1}"

/-- The tool call of one item. -/
def call (x : Nat × WireCall V) : Except Malformed (ToolCall V) := do
  let function ← item "function" x.2.function
  let name ← item "name" function.name
  let arguments ← provider.toolArguments function.arguments
  pure ⟨callId x, provider.runtimeToolName name, arguments⟩

/-- The tool calls of the items, with their indices. -/
def calls (items : List (Nat × WireCall V)) : Except Malformed (List (ToolCall V)) :=
  items.mapM provider.call

/-- `enumerate`. -/
def enumerate {α : Type} (l : List α) : List (Nat × α) := l.zipIdx.map Prod.swap

/-- `finish_map.get(reason, FinishReason.STOP)`. -/
def finishReason : Option String → FinishReason
  | some "tool_calls" => .toolCalls
  | some "length" => .length
  | some "content_filter" => .contentFilter
  | _ => .stop

/-- The choice, the tool calls and the text of a reply. -/
def parse (reply : WireReply V) : Except Malformed (WireChoice V × List (ToolCall V) × String) := do
  let choices ← item "choices" reply.choices
  let choice ← choices.head?.elim (.error .indexError) .ok
  let message := choice.message.getD {}
  let calls ← provider.calls (enumerate (message.toolCalls.getD []))
  let text ← messageText message.content
  pure (choice, calls, text)

/-- `_response`. -/
def response (reply : WireReply V) (latencyMs : ℚ) (raw : Bool) :
    Except Exn (ModelResponse V) :=
  match provider.parse reply with
  | .error e => .error (.provider
      s!"{provider.providerId} returned an invalid chat response: {e.str}" .invalidResponse true)
  | .ok (choice, calls, text) =>
    let usage := reply.usage.getD {}
    .ok {
      id := reply.id.getD "unknown"
      message := .text .assistant text
      toolCalls := calls
      finishReason := finishReason choice.finishReason
      usage := { inputTokens := usage.promptTokens.getD 0
                 outputTokens := usage.completionTokens.getD 0 }
      latencyMs
      model := reply.model.getD provider.defaultModel
      provider := provider.providerId
      rawMetadata := if raw then some reply.data else none }

/-- **The ids of the tool calls** are those of the provider or synthesised from the index. -/
theorem calls_spec {items : List (Nat × WireCall V)} {l : List (ToolCall V)}
    (h : provider.calls items = .ok l) : l.map (·.id) = items.map callId := by
  have hall := mapM_eq_ok.1 h
  clear h
  induction hall with
  | nil => rfl
  | @cons x c items l hx _ ih =>
    rw [List.map_cons, List.map_cons, ih]
    obtain ⟨function, -, hx⟩ := bind_eq_ok.1 hx
    obtain ⟨name, -, hx⟩ := bind_eq_ok.1 hx
    obtain ⟨arguments, -, hx⟩ := bind_eq_ok.1 hx
    cases hx
    rfl

end OpenAiCompatible

end TracciaRuntime
