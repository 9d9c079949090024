/-
  Traccia Runtime formalization — the tool names of a provider
  (`models/providers/openai_compatible.py`): `_wire_tool_name` and `_runtime_tool_name`.
-/
import TracciaRuntime.Types
import TracciaRuntime.Py.Result

namespace TracciaRuntime

open Py

/-- What is asked of SHA-256: the first characters of the digest of a text. -/
structure Sha256 where
  /-- `sha256(name.encode("utf-8")).hexdigest()[:12]` -/
  digest : String → List Char
  length_digest : ∀ s, (digest s).length = 12
  hexadecimal : ∀ s, ∀ c ∈ digest s, c.isDigit = true ∨ c ∈ ['a', 'b', 'c', 'd', 'e', 'f']

/-- `[A-Za-z0-9_-]`. -/
def isWireChar (c : Char) : Bool := c.isAlphanum || c = '_' || c = '-'

/-- `s.strip("_-")`. -/
def stripMarks (cs : List Char) : List Char :=
  let mark (c : Char) : Bool := c = '_' || c = '-'
  ((cs.dropWhile mark).reverse.dropWhile mark).reverse

/-- `re.sub(r"[^A-Za-z0-9_-]", "_", name).strip("_-") or "tool"`. -/
def stem (name : String) : List Char :=
  let cs := stripMarks (name.toList.map fun c => if isWireChar c then c else '_')
  if cs = [] then "tool".toList else cs

/-- The alias of a name that has none yet. -/
def toolAlias (sha : Sha256) (name : String) : String :=
  if name.length ≤ 64 ∧ name ≠ "" ∧ name.toList.all isWireChar = true then name
  else String.ofList ((stem name).take 51 ++ '_' :: sha.digest name)

/-- `_wire_tool_names` and `_runtime_tool_names`. -/
structure ToolNames where
  wire : Dict String String := []
  runtime : Dict String String := []
  deriving DecidableEq

namespace ToolNames
variable (sha : Sha256) (t : ToolNames)

/-- `_wire_tool_name`; if it raises, the tables stay as they were. -/
def wireToolName (name : String) : Except Exn (String × ToolNames) :=
  let cached := (t.wire.get name).getD ""
  if cached ≠ "" then .ok (cached, t)
  else
    let wireName := toolAlias sha name
    match t.runtime.get wireName with
    | some existing =>
      if existing ≠ name then .error (.valueError "tool name alias collision")
      else .ok (wireName, ⟨t.wire.set name wireName, t.runtime.set wireName name⟩)
    | none => .ok (wireName, ⟨t.wire.set name wireName, t.runtime.set wireName name⟩)

/-- `_runtime_tool_name`. -/
def runtimeToolName (name : String) : String := (t.runtime.get name).getD name

/-- The tables after a call. -/
def call (name : String) : ToolNames :=
  match t.wireToolName sha name with
  | .ok x => x.2
  | .error _ => t

/-- The tables of a provider after some calls. -/
def after (names : List String) : ToolNames := names.foldl (call sha) {}

end ToolNames

end TracciaRuntime
