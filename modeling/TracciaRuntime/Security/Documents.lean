/-
  Traccia Runtime formalization — the screening of untrusted documents
  (`security/documents.py`): normal form, findings and sanitising.

  Texts are lists of characters.
-/
import TracciaRuntime.Py.Lines
import TracciaRuntime.Retrieval.Ingestion
import TracciaRuntime.Text.Contexts

namespace TracciaRuntime

open Py Text

inductive FindingSeverity where
  | low | medium | high | critical
  deriving DecidableEq

structure DocumentSecurityFinding where
  kind : String
  severity : FindingSeverity
  message : String
  page : Option Int := none
  evidence : Option (List Char) := none
  deriving DecidableEq

section
variable (u : Unicode)

/-! ## Patterns -/

/-- One of some words, if case is ignored. -/
def anyWord (words : List String) : Regex := .anyOf (words.map fun w => .foldedWord w.toList)

/-- `\b(…)\b.{0,gap}\b(…)\b`. -/
def nearby (first : Regex) (gap : Nat) (second : Regex) : Regex :=
  .seq (wordBoundary u) (.seq first (.seq (wordBoundary u)
    (.seq (.rep (.char (· ≠ '\n')) 0 (some gap))
      (.seq (wordBoundary u) (.seq second (wordBoundary u))))))

/-- `(?:^|\n)\s*(system|assistant|developer)\s*:`. -/
def roleImpersonation : Regex :=
  .seq (.alt (.look fun prev _ => prev.isNone) (.char (· = '\n')))
    (.seq (.star (.char isSpace)) (.seq (anyWord ["system", "assistant", "developer"])
      (.seq (.star (.char isSpace)) (.char (· = ':')))))

/-- `_INJECTION_PATTERNS`. -/
def injectionPatterns : List (String × Regex) :=
  [("instruction_override", nearby u (anyWord ["ignore", "disregard", "forget"]) 50
      (anyWord ["previous", "prior", "above", "system"])),
    ("screening_bypass", nearby u (anyWord ["bypass", "override", "skip"]) 50
      (anyWord ["screen", "policy", "guardrail", "filter"])),
    ("score_manipulation", nearby u (anyWord ["rank", "rate", "score", "select", "hire"]) 40
      (anyWord ["100", "maximum", "highest", "perfect", "candidate"])),
    ("prompt_exfiltration", nearby u (anyWord ["reveal", "print", "repeat", "expose"]) 50
      (.anyOf [.foldedWord "system prompt".toList,
        .seq (.foldedWord "hidden instruction".toList) (.opt (.foldedWord "s".toList)),
        .seq (.foldedWord "secret".toList) (.opt (.foldedWord "s".toList))])),
    ("role_impersonation", roleImpersonation)]

/-! ## Normal form -/

/-- `" ".join(line.split())`. -/
def joinWords (line : List Char) : List Char := [' '].intercalate (splitWords line)

/-- `normalize_document_text`. -/
def normalizeDocumentText (value : List Char) : List Char :=
  let normalized := ((u.nfkc value).filter fun c => c ≠ '\x00').filter fun c => !u.format c
  trim (joinLines ((splitlines normalized).map joinWords))

/-! ## Findings -/

/-- `prompt_injection_findings`. -/
def promptInjectionFindings (text : List Char) (page : Option Int) :
    List DocumentSecurityFinding :=
  (injectionPatterns u).filterMap fun (kind, pattern) =>
    (pattern.find none text).map fun (p, q) => {
      kind := "prompt_injection." ++ kind
      severity := if kind = "instruction_override" then .critical else .high
      message := "The document contains text resembling instructions to an AI system."
      page
      evidence := some ((joinWords (Regex.between p q)).take 300) }

/-- The line matches no pattern. -/
def isSafe (line : List Char) : Bool := !(injectionPatterns u).any fun i => i.2.search line

/-- `sanitize_untrusted_text`. -/
def sanitizeUntrustedText (text : List Char) : List Char × List DocumentSecurityFinding :=
  let normalized := normalizeDocumentText u text
  (trim (joinLines ((splitlines normalized).filter (isSafe u))),
    promptInjectionFindings u normalized none)

end

end TracciaRuntime
