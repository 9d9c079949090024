/-
  Traccia Runtime formalization — the verifier of citations (`verification/verifiers.py`).
-/
import TracciaRuntime.World
import TracciaRuntime.Py.Json
import TracciaRuntime.Text.Regex

namespace TracciaRuntime

open Py Text

namespace CitationVerifier

/-- `\d`. -/
def isDecimal (c : Char) : Bool := (digit c).isSome

/-- `_marker`: `\[(S\d+)\]`. -/
def marker : Regex :=
  .seq (.word ['[', 'S']) (.seq (.plus (.char isDecimal)) (.word [']']))

/-- `_marker.findall`: the group of a match leaves the brackets out. -/
def markers (text : String) : List String :=
  (Regex.findall marker text.toList).map fun w => String.ofList w.tail.dropLast

/-- `verify`, for a text and the citations of the state. -/
def verify (value : String) (citations : List Citation) : VerificationResult :=
  if citations = [] then
    { passed := true
      confidence := 1
      reasonCode := "citations.no_sources"
      message := "No retrieved sources require citation." }
  else
    let known := (citations.map (·.id)).dedup
    let referenced := (markers value).dedup
    let unknown := referenced.filter (· ∉ known)
    if unknown ≠ [] then
      { passed := false
        confidence := 0
        reasonCode := "citations.unknown"
        message := "Unknown citation identifiers: " ++
          ", ".intercalate (unknown.mergeSort fun a b => a ≤ b) ++ "."
        repairHint := some "Use only source identifiers supplied in retrieved context." }
    else
      let used := referenced.filter (· ∈ known)
      if used = [] then
        { passed := false
          confidence := 0
          reasonCode := "citations.missing"
          message := "Retrieved evidence was available but no source was cited."
          repairHint := some "Cite grounded claims with source identifiers such as [S1]." }
      else
        { passed := true
          confidence := used.length / known.length
          reasonCode := "citations.valid"
          message := "All citation identifiers refer to retrieved evidence." }

end CitationVerifier

end TracciaRuntime
