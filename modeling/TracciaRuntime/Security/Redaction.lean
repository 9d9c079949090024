/-
  Traccia Runtime formalization — the redaction of secrets (`security/redaction.py`).
-/
import TracciaRuntime.Py.Json
import TracciaRuntime.Text.Regex

namespace TracciaRuntime

open Py Text

namespace Redaction

/-- `SENSITIVE_KEYS`. -/
def sensitiveKeys : List String :=
  ["authorization", "cookie", "password", "secret", "token", "api_key", "apikey", "credential"]

/-- The characters of a token, if case is ignored. -/
def isTokenChar (c : Char) : Bool :=
  ('a' ≤ Regex.fold c && Regex.fold c ≤ 'z') || ('0' ≤ c && c ≤ '9') ||
    c ∈ ['.', '_', '~', '+', '/', '-']

/-- `_BEARER`: `(?i)bearer\s+`, a token and `=*`. -/
def bearer : Regex :=
  .seq (.foldedWord "bearer".toList) (.seq (.plus (.char isSpace))
    (.seq (.plus (.char isTokenChar)) (.star (.char (· = '=')))))

def redacted : Value := .str "[REDACTED]"

/-- `_BEARER.sub("Bearer [REDACTED]", value)`. -/
def redactText (s : String) : String :=
  String.ofList (Regex.sub bearer (fun _ => "Bearer [REDACTED]".toList) s.toList)

mutual

/-- `redact`. -/
def redact : Value → Value
  | .str s => .str (redactText s)
  | .dict members => .dict (redactMembers members)
  | .list items => .list (redactItems items)
  | v => v

def redactMembers : List (String × Value) → List (String × Value)
  | [] => []
  | (key, item) :: rest =>
    (key, if lower key ∈ sensitiveKeys then redacted else redact item) :: redactMembers rest

def redactItems : List Value → List Value
  | [] => []
  | item :: rest => redact item :: redactItems rest

end

end Redaction

end TracciaRuntime
