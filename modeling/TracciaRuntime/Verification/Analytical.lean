/-
  Traccia Runtime formalization — claim verification (`verification/analytical.py`).

  Floats are rational numbers and computed with exactly.  The text of a claim is left out.
-/
import TracciaRuntime.Analytics.Contracts
import TracciaRuntime.Py.Json

namespace TracciaRuntime

open Py Analytics

structure CellReference where
  resultNodeId : String
  row : Nat
  column : String


/-! ## Comparisons -/

/-- `isinstance(x, float)`. -/
def isFloat : Value → Bool
  | .float _ | .nan | .infinity _ => true
  | _ => false

/-- `isinstance(x, (int, float))`; a truth value is an integer. -/
def isNumber : Value → Bool
  | .bool _ | .int _ => true
  | x => isFloat x

/-- The number that a finite number is. -/
def number : Value → Option ℚ
  | .bool b => some (if b then 1 else 0)
  | .int n => some n
  | .float x => some x
  | _ => none

/-- `x == y`, for an `x` that is no container. -/
def equals : Value → Value → Bool
  | .null, .null => true
  | .str s, .str t => s = t
  | .infinity a, .infinity b => a = b
  | x, y => match number x, number y with
    | some p, some q => p = q
    | _, _ => false

def relTol : ℚ := 1 / 1000000000

/-- `math.isclose(x, float(y), rel_tol=1e-9)`. -/
def isClose : Value → Value → Bool
  | .infinity a, .infinity b => a = b
  | x, y => match number x, number y with
    | some p, some q => p = q || |p - q| ≤ relTol * max |p| |q|
    | _, _ => false

/-! ## Claims -/

/-- `AnalyticalClaim`; a value of `None` is `null`. -/
structure AnalyticalClaim where
  value : Value := .null
  evidence : List CellReference
  metric : Option String := none
  metricCertification : Option String := none
  modelVersion : Option String := none
  typed : (match value with
    | .null | .str _ | .bool _ => true
    | x => isFloat x) = true := by rfl
  cited : evidence ≠ [] := by decide

structure AnalyticalVerificationResult where
  valid : Bool
  errors : List String := []
  deriving DecidableEq

namespace AnalyticalVerifier

/-- The rank of a certification. -/
def rank : String → Option Int
  | "draft" => some 0
  | "verified" => some 1
  | "certified" => some 2
  | _ => none

section
variable (results : Dict String (AnalyticalResult Value)) (index : Nat)

/-- The cell of a reference, or what is wrong with it. -/
def cellOf (e : CellReference) : Except String Value :=
  match results.get e.resultNodeId with
  | none => .error "references a missing result row"
  | some result => match result.value with
    | .list rows => match rows[e.row]? with
      | none => .error "references a missing result row"
      | some (.dict row) => match Dict.get row e.column with
        | none => .error "references a missing result column"
        | some cell => .ok cell
      | some _ => .error "references a missing result column"
    | _ => .error "references a missing result row"

/-- The loop over the evidence: the errors and the cells. -/
def gather : List CellReference → List String × List Value
  | [] => ([], [])
  | e :: rest => match cellOf results e with
    | .ok cell => ((gather rest).1, cell :: (gather rest).2)
    | .error text => (s!"claim[{index}] {text}" :: (gather rest).1, (gather rest).2)

/-- The check of the value against the cells. -/
def checkValue (value : Value) : List Value → List String
  | [cell] =>
    match value with
    | .null => []
    | value =>
      if isFloat value && isNumber cell then
        if isClose value cell then []
        else [s!"claim[{index}] does not reconcile to its evidence cell"]
      else if equals value cell then []
      else [s!"claim[{index}] does not equal its evidence cell"]
  | _ => []

def checkCertification (minimumMetricCertification : String) (claim : AnalyticalClaim) :
    Except Exn (List String) :=
  if claim.metric.getD "" = "" then .ok []
  else
    let certification := claim.metricCertification.getD ""
    match rank minimumMetricCertification with
    | none => .error (.other "KeyError")
    | some minimum =>
      if (rank (if certification = "" then "draft" else certification)).getD (-1) < minimum then
        .ok [s!"claim[{index}] uses an insufficiently certified metric"]
      else .ok []

def checkModelVersion (requiredModelVersion : Option String) (claim : AnalyticalClaim) :
    List String :=
  if requiredModelVersion.getD "" ≠ "" ∧ claim.modelVersion ≠ requiredModelVersion then
    [s!"claim[{index}] uses the wrong model version"]
  else []

/-- The errors of one claim. -/
def verifyClaim (minimumMetricCertification : String) (requiredModelVersion : Option String)
    (claim : AnalyticalClaim) : Except Exn (List String) := do
  let gathered := gather results index claim.evidence
  let certification ← checkCertification index minimumMetricCertification claim
  pure (gathered.1 ++ checkValue index claim.value gathered.2 ++ certification ++
    checkModelVersion index requiredModelVersion claim)

end

/-- The loop over the claims, from a number on. -/
def errorsFrom (results : Dict String (AnalyticalResult Value))
    (minimumMetricCertification : String) (requiredModelVersion : Option String) :
    Nat → List AnalyticalClaim → Except Exn (List String)
  | _, [] => .ok []
  | index, claim :: rest => do
    let errors ← verifyClaim results index minimumMetricCertification requiredModelVersion claim
    let others ← errorsFrom results minimumMetricCertification requiredModelVersion (index + 1) rest
    pure (errors ++ others)

/-- `verify_claims`. -/
def verifyClaims (claims : List AnalyticalClaim) (results : Dict String (AnalyticalResult Value))
    (minimumMetricCertification : String := "verified")
    (requiredModelVersion : Option String := none) :
    Except Exn AnalyticalVerificationResult := do
  let errors ← errorsFrom results minimumMetricCertification requiredModelVersion 0 claims
  pure { valid := errors.isEmpty, errors }

end AnalyticalVerifier

end TracciaRuntime
