/-
  Traccia Runtime formalization — chat completions as streams.

  What a stream says is said here without the adapter: which chunks there are (`Chunk.Is`), which
  lines send them (`Sends`) and which of them make up a reply (`Splits`).

  * a chunk has a piece of the text and pieces of tool calls, by the indices of the calls;
  * the pieces of a text are appended; the id of a call comes in one or more of its pieces;
  * the finish reason and the usage come in one or more of the chunks, and the other chunks have
    none.
-/
import TracciaRuntime.Models.ChatCompletions

namespace TracciaRuntime

open Py

/-- `d.get(key)`. -/
def field (d : Dict String Value) (key : String) : Value := (Dict.get d key).getD .null

/-- A text, or none. -/
def nullable (x : Option String) : Value := x.elim .null .str

/-- A piece of a tool call. -/
structure CallDelta where
  index : Nat
  id : Option String := none
  name : Option String := none
  arguments : Option String := none

inductive CallDelta.Is (x : CallDelta) : Value → Prop
  | intro {d f : Dict String Value} : Dict.get d "index" = some (.int x.index) →
      field d "id" = nullable x.id →
      field d "function" = .dict f ∨ field d "function" = .null ∧ f = [] →
      field f "name" = nullable x.name → field f "arguments" = nullable x.arguments →
      Is x (.dict d)

structure Chunk where
  content : Option String := none
  calls : List CallDelta := []
  reason : Value := .null
  usage : Value := .null

/-- The chunk of a reply, with its id and its model. Without pieces of tool calls `tool_calls` is
    missing, `null` or empty; the list of choices is empty in a chunk that has only the usage. -/
inductive Chunk.Is (data : Dict String Value) (c : Chunk) : Value → Prop
  | choice {d choice delta : Dict String Value} {rest items : List Value} :
      Dict.get d "id" = Dict.get data "id" → Dict.get d "model" = Dict.get data "model" →
      Dict.get d "choices" = some (.list (.dict choice :: rest)) →
      Dict.get choice "delta" = some (.dict delta) →
      field delta "content" = nullable c.content →
      Dict.get delta "tool_calls" = some (.list items) ∨
        items = [] ∧ (Dict.get delta "tool_calls" = none ∨
          Dict.get delta "tool_calls" = some .null) →
      List.Forall₂ CallDelta.Is c.calls items →
      field choice "finish_reason" = c.reason → field d "usage" = c.usage → Is data c (.dict d)
  | usage {d : Dict String Value} :
      Dict.get d "id" = Dict.get data "id" → Dict.get d "model" = Dict.get data "model" →
      Dict.get d "choices" = some (.list []) →
      c.content = none → c.calls = [] → c.reason = .null → field d "usage" = c.usage →
      Is data c (.dict d)

/-- The lines send the values as data, up to `[DONE]` or the end. -/
inductive Sends (p : OpenAICompatibleProvider) : List String → List Value → Prop
  | nil : Sends p [] []
  | done {rest : List String} : Sends p ("data: [DONE]" :: rest) []
  | skip {line : String} {rest : List String} {vs : List Value} :
      "data: ".toList.isPrefixOf line.toList = false → Sends p rest vs → Sends p (line :: rest) vs
  | data {text : String} {v : Value} {rest : List String} {vs : List Value} :
      text ≠ "[DONE]" → p.loads text = .ok v → Sends p rest vs →
      Sends p (("data: " ++ text) :: rest) (v :: vs)

/-- The pieces of a tool call. -/
def pieces (xs : List CallDelta) (i : Nat) : List CallDelta := xs.filter fun x => x.index = i

/-- The pieces make up the tool call of an item: the texts of its arguments decode to the same. -/
inductive CallSplits (p : OpenAICompatibleProvider) (xs : List CallDelta) : Value → Prop
  | intro {d f : Dict String Value} : xs ≠ [] →
      (∀ x ∈ xs, (nullable x.id).truthy → nullable x.id = field d "id") →
      ((field d "id").truthy → ∃ x ∈ xs, nullable x.id = field d "id") →
      Dict.get d "function" = some (.dict f) →
      Dict.get f "name" = some (.str (String.join (xs.map fun x => x.name.getD ""))) →
      p.toolArguments (.str (String.join (xs.map fun x => x.arguments.getD ""))) =
        p.toolArguments (field f "arguments") →
      CallSplits p xs (.dict d)

/-- A value that comes in one or more of the chunks, if it is there at all. -/
def Conveyed (x : Value) (l : List Value) : Prop :=
  (∀ y ∈ l, y.truthy → y = x) ∧ (x.truthy → x ∈ l)

/-- The chunks make up the reply with this choice, text and list of tool calls. -/
structure Splits (p : OpenAICompatibleProvider) (data choice : Dict String Value) (text : String)
    (items : List Value) (cs : List Chunk) : Prop where
  text : String.join (cs.map fun c => c.content.getD "") = text
  index : ∀ x ∈ cs.flatMap Chunk.calls, x.index < items.length
  calls : ∀ i v, items[i]? = some v → CallSplits p (pieces (cs.flatMap Chunk.calls) i) v
  reason : Conveyed (field choice "finish_reason") (cs.map Chunk.reason)
  usage : Conveyed (field data "usage") (cs.map Chunk.usage)

end TracciaRuntime
