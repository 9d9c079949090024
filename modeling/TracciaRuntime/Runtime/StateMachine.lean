/-
  Traccia Runtime formalization — the run state machine
  (`runtime/state_machine.py` and `AgentRuntime._recovery_status`).
-/
import TracciaRuntime.Types

namespace TracciaRuntime

namespace RunStatus

/-- `ALLOWED_TRANSITIONS`. -/
def allowedTransitions : RunStatus → List RunStatus
  | received => [validating, cancelled]
  | validating => [buildingContext, failed, cancelled]
  | buildingContext => [planning, retrying, failed, cancelled]
  | planning => [invokingModel, invokingTool, awaitingClarification, awaitingApproval, verifying,
      composing, retrying, failed, cancelled]
  | awaitingClarification => [buildingContext, cancelled, timedOut]
  | awaitingApproval => [planning, cancelled, failed, timedOut]
  | invokingModel => [planning, verifying, retrying, failed, cancelled, timedOut]
  | invokingTool => [buildingContext, planning, retrying, failed, cancelled, timedOut]
  | verifying => [composing, retrying, failed, cancelled]
  | retrying => [buildingContext, planning, invokingModel, invokingTool, failed, cancelled, timedOut]
  | composing => [completed, failed, cancelled]
  | completed | failed | cancelled | timedOut => []

/-- `s` is one of `TERMINAL_STATUSES`. -/
def isTerminal (s : RunStatus) : Bool := s ∈ terminalStatuses

/-- `s` is one of `PAUSED_STATUSES`. -/
def isPaused (s : RunStatus) : Bool := s ∈ pausedStatuses

/-- A status in which no driver is needed. -/
def isSettled (s : RunStatus) : Bool := s.isTerminal || s.isPaused

/-- `_recovery_status`. -/
def recoveryStatus : RunStatus → RunStatus
  | validating => received
  | invokingModel | invokingTool | verifying | retrying | composing => planning
  | s => s

theorem allowedTransitions_terminal {s : RunStatus} (h : s.isTerminal = true) :
    s.allowedTransitions = [] := by
  cases s <;> first | rfl | cases h

/-- Every active run can be cancelled. -/
theorem cancelled_mem_allowedTransitions {s : RunStatus} (h : s.isTerminal = false) :
    cancelled ∈ s.allowedTransitions := by
  cases s <;> first | decide | cases h

end RunStatus

/-- `validate_transition`. -/
def validateTransition (current target : RunStatus) : Except Exn Unit :=
  if target ∈ current.allowedTransitions then .ok ()
  else .error (.conflict (.invalidTransition current target))

theorem validateTransition_eq_ok {a b : RunStatus} {u : Unit} :
    validateTransition a b = .ok u ↔ b ∈ a.allowedTransitions := by
  unfold validateTransition; split <;> simp_all

end TracciaRuntime
