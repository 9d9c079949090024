/-
  Traccia Runtime formalization — the planners (`planning/planners.py`).
-/
import TracciaRuntime.Types

namespace TracciaRuntime

open Py

variable {V : Type}

/-- `DirectPlanner.plan`. -/
def directPlan (s : RunState V) : Plan V :=
  let ready := s.outputText.getD "" ≠ ""
  { actions := [{
      id := s!"step-{s.stepCount + 1}"
      type := if ready then .complete else .model
      description := if ready then "Compose available output" else "Generate response" }]
    decisionSummary := "Direct execution selected the next bounded action." }

/-- The tool actions of the pending calls. -/
def toolActions (s : RunState V) : List (PlannedAction V) :=
  (s.pendingToolCalls.filter fun call => call.id ∉ s.completedToolCallIds).map fun call =>
    { id := "tool-" ++ call.id
      type := .tool
      description := s!"Execute requested tool {call.name}"
      toolName := some call.name
      arguments := call.arguments }

/-- `ReActPlanner.plan`. -/
def reactPlan (s : RunState V) : Plan V :=
  match toolActions s with
  | [] =>
    if s.outputText.getD "" ≠ "" then
      { actions := [{
          id := s!"complete-{s.stepCount + 1}"
          type := .complete
          description := "Finalize verified model output" }]
        decisionSummary := "A final model response is available." }
    else directPlan s
  | calls => ⟨calls, "Execute validated model-requested tool calls."⟩

/-- `RuleBasedPlanner.plan`. -/
def ruleBasedPlan (s : RunState V) : Plan V :=
  if strip s.request.input = "" then
    { actions := [{
        id := "clarify-input"
        type := .clarify
        description := "Please provide a non-empty request." }]
      decisionSummary := "Input is insufficient to execute." }
  else reactPlan s

end TracciaRuntime
