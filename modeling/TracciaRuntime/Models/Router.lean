/-
  Traccia Runtime formalization — the fallback of the router (`models/base.py`).

  `ModelRouter.generate` on the candidates in their order, by how the request to each of them
  ends.
-/
import TracciaRuntime.Types

namespace TracciaRuntime

variable {V : Type}

/-- A provider, with a profile of it and what it charges. -/
structure Candidate where
  providerId : String
  model : String
  costPer1kInput : ℚ := 0
  costPer1kOutput : ℚ := 0
  deriving DecidableEq

/-- The response with its estimated costs. -/
def Candidate.priced (c : Candidate) (r : ModelResponse V) : ModelResponse V :=
  { r with usage := { r.usage with
      estimatedCostUsd := (r.usage.inputTokens * c.costPer1kInput +
        r.usage.outputTokens * c.costPer1kOutput) / 1000 } }

/-- The lists `errors` and `failures`. -/
structure Failures where
  errors : List String := []
  kinds : List (ErrorKind × Bool) := []

namespace Failures

def add (f : Failures) (c : Candidate) (message : String) (kind : ErrorKind) (retryable : Bool) :
    Failures :=
  ⟨f.errors ++ [s!"{c.providerId}: {message}"], f.kinds ++ [(kind, retryable)]⟩

/-- The error that is raised in the end. -/
def exn (f : Failures) : Exn :=
  let kind := match f.kinds with
    | [] => .unknown
    | (k, _) :: rest => if rest.all fun x => x.1 = k then k else .unknown
  .provider ("all model candidates failed: " ++ "; ".intercalate f.errors) kind
    (f.kinds ≠ [] ∧ f.kinds.all fun x => x.2)

end Failures

namespace ModelRouter

/-- The loop of `generate`: only a `ProviderError` leads to the next candidate. -/
def fallBack (f : Failures) : List (Candidate × Except Exn (ModelResponse V)) →
    Except Exn (ModelResponse V)
  | [] => .error f.exn
  | (c, .ok r) :: _ => .ok (c.priced r)
  | (c, .error (.provider m k r)) :: rest => fallBack (f.add c m k r) rest
  | (_, .error e) :: _ => .error e

def generate (candidates : List (Candidate × Except Exn (ModelResponse V))) :
    Except Exn (ModelResponse V) :=
  if candidates = [] then .error (.other "CapabilityError") else fallBack {} candidates

end ModelRouter

end TracciaRuntime
