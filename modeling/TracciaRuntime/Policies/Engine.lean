/-
  Traccia Runtime formalization — the composite policy engine
  (`policies/engine.py`).

  The registered policies are given as functions; one that raises answers with
  its exception.
-/
import TracciaRuntime.Types

namespace TracciaRuntime

variable {V : Type}

structure Policy (V : Type) where
  name : String
  /-- the boundaries it applies to; `none` is all of them -/
  appliesTo : Option (List PolicyPoint) := none
  /-- the payload is `none` after a policy that redacted without a value -/
  evaluate : PolicyPoint → Option (Payload V) → PolicyContext V → Except Exn (PolicyDecision V)

namespace CompositePolicyEngine

/-- The accumulators of `evaluate`. -/
structure Progress (V : Type) where
  transformed : Option (Payload V)
  transforms : List String := []
  invoked : List String := []
  triggered : List String := []
  skipped : List String := []

/-- The decisions that end the evaluation. -/
def blocks : PolicyAction → Bool
  | .deny | .requireClarification | .requireApproval => true
  | _ => false

/-- The agent's guardrails leave the policy out. -/
def deselected (p : Policy V) (context : PolicyContext V) : Bool :=
  match context.agent with
  | some agent => !(p.name ∈ agent.guardrailPolicy.policies ∨ p.name = "authorization" ∨
      p.name = "side_effects")
  | none => false

/-- The policy does not apply to the boundary. -/
def inapplicable (p : Policy V) (point : PolicyPoint) : Bool :=
  match p.appliesTo with
  | some points => point ∉ points
  | none => false

/-- The policy is consulted at this boundary, with this context. -/
def applicable (p : Policy V) (point : PolicyPoint) (context : PolicyContext V) : Bool :=
  !deselected p context && !inapplicable p point

/-- The loop of `evaluate` over the registered policies. -/
def loop (point : PolicyPoint) (context : PolicyContext V) :
    List (Policy V) → Progress V → Except Exn (PolicyDecision V)
  | [], x =>
    if x.transforms ≠ [] then
      .ok { action := .transform, reasonCode := "policy.transformed",
            reason := "Payload transformed by policy.", value := x.transformed,
            auditMetadata := { transforms := x.transforms, policiesInvoked := x.invoked,
                               policiesTriggered := x.triggered, policiesSkipped := x.skipped } }
    else
      .ok { action := .allow, reasonCode := "policy.allowed", reason := "Allowed.",
            auditMetadata := { policiesInvoked := x.invoked, policiesTriggered := x.triggered,
                               policiesSkipped := x.skipped } }
  | p :: ps, x =>
    if deselected p context then loop point context ps x
    else if inapplicable p point then
      loop point context ps { x with skipped := x.skipped ++ [p.name] }
    else
      let x := { x with invoked := x.invoked ++ [p.name] }
      match p.evaluate point x.transformed context with
      | .error e => .error e
      | .ok d =>
        if blocks d.action then
          .ok { d with auditMetadata := { d.auditMetadata with
            policiesInvoked := x.invoked, policiesTriggered := x.triggered ++ [p.name],
            policiesSkipped := x.skipped } }
        else if d.action = .redact ∨ d.action = .transform then
          loop point context ps { x with
            transformed := d.value, transforms := x.transforms ++ [d.reasonCode],
            triggered := x.triggered ++ [p.name] }
        else loop point context ps x

/-- `evaluate`. -/
def evaluate (policies : List (Policy V)) (point : PolicyPoint) (payload : Payload V)
    (context : PolicyContext V) : Except Exn (PolicyDecision V) :=
  loop point context policies { transformed := some payload }

end CompositePolicyEngine

end TracciaRuntime
