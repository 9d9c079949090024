/-
  Traccia Runtime formalization — the methods of the approval services
  (`approvals/service.py`) as programs over their atomic sections.
-/
import TracciaRuntime.Effect

namespace TracciaRuntime

open Py Async

variable {V : Type} (cfg : Config V)

namespace ApprovalService

/-- `create`. -/
def create (runId stepId tenantId proposedAction : String) (parameters : Dict String V)
    (risk : String) (expiresSeconds : Nat) : Task V (ApprovalRequest V) := do
  let id ← await .uuid
  let now ← await .utcNow
  let request : ApprovalRequest V :=
    { id, runId, stepId, tenantId, proposedAction, risk
      sideEffectSummary := s!"Proposed {risk} operation: {proposedAction}"
      redactedParameters := parameters
      expiresAt := now + expiresSeconds }
  await (.approvalsInsert request)
  pure request

/-- `PostgresApprovalService.decide`. -/
def decidePostgres (approvalId tenantId : String) (decision : ApprovalStatus)
    (modified : Option (Dict String V)) : Task V (ApprovalRequest V) := do
  let item ← await (.approvalsGet approvalId tenantId)
  match item with
  | none => throw (.notFound "approval request not found")
  | some item => do
    Prog.raiseIf (item.status ≠ .pending) (.conflict .approvalDecided)
    let now ← await .utcNow
    if item.expiresAt ≤ now then do
      let _ ← await (.approvalsSave { item with status := .expired } .pending)
      throw (.conflict .approvalExpired)
    else do
      Prog.raiseIf (decision = .modified && modified.isNone)
        (.valueError "modified decision requires modified_parameters")
      let updated := { item with status := decision, modifiedParameters := modified }
      let saved ← await (.approvalsSave updated .pending)
      Prog.raiseIf (!saved) (.conflict .approvalConcurrentlyDecided)
      pure updated

/-- `decide`. -/
def decide (approvalId tenantId : String) (decision : ApprovalStatus)
    (modified : Option (Dict String V)) : Task V (ApprovalRequest V) :=
  match cfg.approvalStore with
  | .inMemory => await (.approvalsDecide approvalId tenantId decision modified)
  | .postgres => decidePostgres approvalId tenantId decision modified

end ApprovalService

end TracciaRuntime
