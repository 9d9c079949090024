/-
  Traccia Runtime formalization — the redacting policies (`policies/engine.py`):
  `SecretRedactionPolicy` and `PIIRedactionPolicy`.

  Both walk through a payload in the same way; they differ in what they make of a text and in
  what they note of it.  The categories and the count of the audit metadata are left out.
-/
import TracciaRuntime.Types
import TracciaRuntime.Text.Pieces
import TracciaRuntime.Text.Contexts
import Mathlib.Data.Finset.Lattice.Basic

namespace TracciaRuntime

open Py Text

variable {N : Type}

/-- The classes of sequences. -/
inductive SequenceKind where
  | list | tuple | other
  deriving DecidableEq

/-- A payload at a content boundary; the scalars are numbers, `None` and the like. -/
inductive Content (N : Type) where
  | text (s : String)
  | scalar (n : N)
  | mapping (items : List (Content N × Content N))
  | sequence (kind : SequenceKind) (items : List (Content N))
  | set (elements : List (Content N))
  /-- the declared fields, and those that the model allows besides -/
  | model (fields extra : List (String × Content N))

namespace Content

/-- `tuple(items) if isinstance(value, tuple) else items`. -/
def rebuilt : SequenceKind → SequenceKind
  | .tuple => .tuple
  | _ => .list

section
variable {L : Type} [SemilatticeSup L] [OrderBot L] [DecidableEq L]
  (redactText : String → String × L)

mutual

/-- `_redact`, with what is made of a text and noted of it. -/
def redact : Content N → Content N × L
  | .text s => (.text (redactText s).1, (redactText s).2)
  | .model fields extra =>
    if (redactFields fields).2 ≠ ⊥ then
      (.model (redactFields fields).1 extra, (redactFields fields).2)
    else (.model fields extra, ⊥)
  | .mapping items =>
    if (redactItems items).2 ≠ ⊥ then (.mapping (redactItems items).1, (redactItems items).2)
    else (.mapping items, ⊥)
  | .sequence kind items =>
    if (redactAll items).2 ≠ ⊥ then
      (.sequence (rebuilt kind) (redactAll items).1, (redactAll items).2)
    else (.sequence kind items, ⊥)
  | .set elements => (.set elements, ⊥)
  | .scalar n => (.scalar n, ⊥)

def redactFields : List (String × Content N) → List (String × Content N) × L
  | [] => ([], ⊥)
  | (name, value) :: rest =>
    ((name, (redact value).1) :: (redactFields rest).1, (redact value).2 ⊔ (redactFields rest).2)

def redactItems : List (Content N × Content N) → List (Content N × Content N) × L
  | [] => ([], ⊥)
  | (key, item) :: rest =>
    ((key, (redact item).1) :: (redactItems rest).1, (redact item).2 ⊔ (redactItems rest).2)

def redactAll : List (Content N) → List (Content N) × L
  | [] => ([], ⊥)
  | item :: rest => ((redact item).1 :: (redactAll rest).1, (redact item).2 ⊔ (redactAll rest).2)

end

end

end Content

/-- The payload after a decision, if the decision redacts it. -/
def PolicyDecision.after (d : PolicyDecision (Content N)) (payload : Content N) : Content N :=
  match d.value with
  | some (.value v) => v
  | _ => payload

/-! ## Secrets -/

namespace SecretRedactionPolicy

/-- The characters of a secret, if case is ignored. -/
def isSecretChar (c : Char) : Bool :=
  ('a' ≤ Regex.fold c && Regex.fold c ≤ 'z') || ('0' ≤ c && c ≤ '9') || c ∈ ['_', '-', '/', '.']

/-- What a secret is called. -/
def keyword : Regex :=
  .anyOf [.seq (.foldedWord "api".toList)
      (.seq (.opt (.char (· ∈ ['_', '-']))) (.foldedWord "key".toList)),
    .foldedWord "password".toList, .foldedWord "secret".toList, .foldedWord "token".toList]

/-- `_pattern`. -/
def pattern : Regex :=
  .seq keyword (.seq (.star (.char isSpace)) (.seq (.char (· ∈ [':', '=']))
    (.seq (.star (.char isSpace)) (.rep (.char isSecretChar) 8 none))))

/-- `match.group(1)`: the characters of a secret at the end of the match. -/
def group (m : List Char) : List Char := (m.reverse.takeWhile isSecretChar).reverse

/-- `m.replace(s, "[REDACTED]")`, where `s` is not empty. -/
def hide (s m : List Char) : List Char :=
  Regex.sub (.word s) (fun _ => "[REDACTED]".toList) m

def redactText (s : String) : String × Bool :=
  let x := Regex.subn pattern (fun m => hide (group m) m) s.toList
  (String.ofList x.1, x.2 ≠ 0)

/-- What is noted of several texts is noted if it is of one of them. -/
instance noted : SemilatticeSup Bool := Bool.instDistribLattice.toSemilatticeSup

instance notNoted : OrderBot Bool := Bool.instBoundedOrder.toOrderBot

/-- `evaluate`. -/
def evaluate (payload : Content N) : PolicyDecision (Content N) :=
  let x := payload.redact redactText
  if x.2 then
    { action := .transform, reasonCode := "secret.redacted",
      reason := "Potential secret was redacted.", value := some (.value x.1) }
  else { action := .allow, reasonCode := "secret.clear", reason := "No secret detected." }

end SecretRedactionPolicy

/-! ## Personal identifiers -/

namespace PIIRedactionPolicy
variable (u : Unicode)

/-- `[\w.+-]`. -/
def isLocal (c : Char) : Bool := u.isWord c || c ∈ ['.', '+', '-']

/-- `[\w-]`. -/
def isDomain (c : Char) : Bool := u.isWord c || c = '-'

def email : Regex :=
  .seq (.look fun prev _ => !prev.any (isLocal u)) (.seq (.plus (.char (isLocal u)))
    (.seq (.char (· = '@')) (.seq (.plus (.char (isDomain u)))
      (.plus (.seq (.char (· = '.')) (.plus (.char (isDomain u))))))))

/-- `(?<!\d)`, the expression, and `(?!\d)`. -/
def number (r : Regex) : Regex :=
  .seq (.look fun prev _ => !prev.any u.decimal) (.seq r (.look fun _ next => !next.any u.decimal))

/-- `\d{n}`. -/
def digits (n : Nat) : Regex := .rep (.char u.decimal) n (some n)

/-- `[\s.-]?`. -/
def phoneGap : Regex := .opt (.char fun c => isSpace c || c ∈ ['.', '-'])

/-- `[\s-]?`. -/
def aadhaarGap : Regex := .opt (.char fun c => isSpace c || c = '-')

/-- `(?:\+?91[\s.-]?)?[6-9]\d{4}[\s.-]?\d{5}`. -/
def phoneDigits : Regex :=
  .seq (.opt (.seq (.opt (.char (· = '+'))) (.seq (.word "91".toList) phoneGap)))
    (.seq (.char fun c => '6' ≤ c && c ≤ '9') (.seq (digits u 4) (.seq phoneGap (digits u 5))))

def phone : Regex := number u (phoneDigits u)

/-- `[2-9]\d{3}[\s-]?\d{4}[\s-]?\d{4}`. -/
def aadhaarDigits : Regex :=
  .seq (.char fun c => '2' ≤ c && c ≤ '9') (.seq (digits u 3) (.seq aadhaarGap
    (.seq (digits u 4) (.seq aadhaarGap (digits u 4)))))

def aadhaar : Regex := number u (aadhaarDigits u)

/-- `_patterns`, each with the text that replaces a match. -/
def patterns : List (String × Regex × String) :=
  [("email", email u, "[REDACTED_EMAIL]"), ("phone", phone u, "[REDACTED_PHONE]"),
    ("aadhaar", aadhaar u, "[REDACTED_AADHAAR]")]

/-- One turn of the loop of `_redact` over the patterns. -/
def redactPattern (x : String × Finset String) (i : String × Regex × String) :
    String × Finset String :=
  let y := Regex.subn i.2.1 (fun _ => i.2.2.toList) x.1.toList
  (String.ofList y.1, if y.2 ≠ 0 then insert i.1 x.2 else x.2)

def redactText (s : String) : String × Finset String :=
  (patterns u).foldl redactPattern (s, ∅)

/-- `evaluate`. -/
def evaluate (payload : Content N) : PolicyDecision (Content N) :=
  let x := payload.redact (redactText u)
  if x.2 ≠ ∅ then
    { action := .redact, reasonCode := "pii.redacted",
      reason := "Direct personal identifiers were redacted.", value := some (.value x.1) }
  else { action := .allow, reasonCode := "pii.clear", reason := "No PII detected." }

end PIIRedactionPolicy

end TracciaRuntime
