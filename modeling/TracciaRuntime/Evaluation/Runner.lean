/-
  Traccia Runtime formalization — golden questions and their evaluation
  (`evaluation/contracts.py`, `evaluation/runner.py`).

  The values of an artifact are decoded JSON.  Spans, counters and the metadata of a question are
  left out.
-/
import TracciaRuntime.Py.Json
import TracciaRuntime.Py.Raises

namespace TracciaRuntime

open Py

/-- A number in double precision. -/
inductive Double where
  | finite (x : ℚ)
  | nan
  | infinity (negative : Bool)
  deriving DecidableEq

def Double.nonnegative : Double → Bool
  | finite x => 0 ≤ x
  | nan => false
  | infinity negative => !negative

/-- What the checks use of the standard library. -/
structure EvaluationLib where
  /-- `re.search(pattern, text, re.IGNORECASE) is not None`, for a valid pattern -/
  search : (pattern text : String) → Bool
  /-- `s.lower()` -/
  lower : String → String
  /-- `float(n)`, in range -/
  round : Int → ℚ
  /-- `float(s)`; `none` where it raises `ValueError` -/
  parse : String → Option Double
  /-- `math.isclose(a, b, rel_tol=…, abs_tol=…)`, for tolerances that are not negative -/
  isclose : (a b relative absolute : Double) → Bool

structure NumericExpectation where
  path : String
  expected : Double
  absoluteTolerance : Double := .finite 0
  relativeTolerance : Double := .finite 0
  valid : absoluteTolerance.nonnegative = true ∧ relativeTolerance.nonnegative = true := by decide

structure GoldenQuestion where
  id : String
  question : String
  expectedNodeKinds : List String := []
  requiredSqlPatterns : List String := []
  forbiddenSqlPatterns : List String := []
  numericExpectations : List NumericExpectation := []
  allowedClaims : List String := []
  forbiddenClaims : List String := []

structure EvaluationArtifact where
  nodeKinds : List String
  sql : List String
  values : Dict String Value
  claims : List String

structure CaseEvaluation where
  caseId : String
  score : ℚ
  passed : Bool
  checks : List (String × Bool)
  failures : List String
  deriving DecidableEq

structure EvaluationReport where
  cases : List CaseEvaluation
  score : ℚ
  promoted : Bool
  promotionThreshold : ℚ
  deriving DecidableEq

/-! ## Paths -/

/-- `xs[i]`; `none` where it raises `IndexError`. -/
def itemAt {α : Type} (xs : List α) (i : Int) : Option α :=
  if 0 ≤ i then xs[i.toNat]?
  else if -i ≤ xs.length then xs[(xs.length + i).toNat]?
  else none

/-- `current[int(part)] if isinstance(current, list) else current[part]`. -/
def stepInto (current : Value) (part : String) : Result Value :=
  match current with
  | .list xs =>
    match Py.int part with
    | none => .error ⟨.value, s!"invalid literal for int() with base 10: '{part}'"⟩
    | some i => (itemAt xs i).elim (.error ⟨.index, "list index out of range"⟩) .ok
  | current => current.subscript part

/-- The loop of `_path`. -/
def follow (value : Value) (parts : List String) : Result Value := parts.foldlM stepInto value

/-- `path.split(".")`. -/
def NumericExpectation.parts (x : NumericExpectation) : List String :=
  (x.path.toList.splitOn '.').map String.ofList

namespace EvaluationLib
variable (lib : EvaluationLib)

/-- The integers of a larger amount round to no double. -/
def maxInt : Nat := 2 ^ 1024 - 2 ^ 970 - 1

/-- `float(x)`. -/
def float : Value → Result Double
  | .bool b => .ok (.finite (if b then 1 else 0))
  | .int n =>
    if n.natAbs ≤ maxInt then .ok (.finite (lib.round n))
    else .error ⟨.overflow, "int too large to convert to float"⟩
  | .float x => .ok (.finite x)
  | .nan => .ok .nan
  | .infinity negative => .ok (.infinity negative)
  | .str s => (lib.parse s).elim
      (.error ⟨.value, s!"could not convert string to float: '{s}'"⟩) .ok
  | x => Value.typeError s!"float() argument must be a string or a real number, not '{x.typeName}'"

/-- `float(_path(values, expectation.path))`. -/
def measure (values : Dict String Value) (x : NumericExpectation) : Result Double := do
  let value ← follow (.dict values) x.parts
  lib.float value

/-- The exceptions that make a numeric check fail. -/
def caught : List ErrorType := [.key, .type, .value]

/-- The numeric check, after the expectations before. -/
def numericCheck (values : Dict String Value) :
    (numeric : Bool) → List NumericExpectation → Result Bool
  | numeric, [] => .ok numeric
  | numeric, x :: xs =>
    match lib.measure values x with
    | .ok actual => numericCheck values
        (numeric && lib.isclose actual x.expected x.relativeTolerance x.absoluteTolerance) xs
    | .error e => if e.type ∈ caught then .ok false else .error e

/-- `EvaluationRunner.evaluate`. -/
def evaluate (case : GoldenQuestion) (artifact : EvaluationArtifact) : Result CaseEvaluation := do
  let sqlText := "\n".intercalate artifact.sql
  let numeric ← lib.numericCheck artifact.values true case.numericExpectations
  let normalizedClaims := lib.lower (" ".intercalate artifact.claims)
  let checks := [
    ("plan", case.expectedNodeKinds.all (· ∈ artifact.nodeKinds)),
    ("sql_required", case.requiredSqlPatterns.all (lib.search · sqlText)),
    ("sql_forbidden", case.forbiddenSqlPatterns.all fun pattern => !lib.search pattern sqlText),
    ("numeric", numeric),
    ("allowed_claims", case.allowedClaims.all fun claim =>
      Py.contains (lib.lower claim) normalizedClaims),
    ("forbidden_claims", case.forbiddenClaims.all fun claim =>
      !Py.contains (lib.lower claim) normalizedClaims)]
  let failures := (checks.filter fun check => !check.2).map (·.1)
  .ok {
    caseId := case.id
    score := (checks.countP (·.2) : ℚ) / checks.length
    passed := failures.isEmpty
    checks := checks
    failures := failures }

/-- The loop of `EvaluationRunner.run`. -/
def results (cases : List GoldenQuestion)
    (executor : GoldenQuestion → Result EvaluationArtifact) : Result (List CaseEvaluation) :=
  cases.mapM fun case => do
    let artifact ← executor case
    lib.evaluate case artifact

/-- `EvaluationRunner.run`; a report has a threshold between 0 and 1. -/
def run (cases : List GoldenQuestion) (executor : GoldenQuestion → Result EvaluationArtifact)
    (promotionThreshold : ℚ) : Result EvaluationReport := do
  let results ← lib.results cases executor
  let score := if results.isEmpty then 0 else (results.map (·.score)).sum / results.length
  require (0 ≤ promotionThreshold ∧ promotionThreshold ≤ 1)
    ⟨.value, "promotion_threshold must be between 0 and 1"⟩
  .ok {
    cases := results
    score := score
    promoted := !results.isEmpty && promotionThreshold ≤ score && results.all (·.passed)
    promotionThreshold := promotionThreshold }

end EvaluationLib

end TracciaRuntime
