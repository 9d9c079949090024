/-
  The tool calls that the model requests, under the ReAct planner.

  `Life` follows a run from turn to turn with the calls that it owes: those of the
  last response of the model, less one for each turn that called a tool.

  * `Fresh`: the ids of the calls of a response, the provider's or synthesised, are
    distinct, and none is that of a completed call;
  * `Life.pending`: with fresh responses, the run owes its pending calls;
  * `requested_calls_honoured`: nothing is owed when the model is asked again or the
    run is completed, and a tool turn executes the call that is owed first.
-/
import TracciaRuntime.Models.OpenAiCompatible
import TracciaRuntime.Planning.Planners
import TracciaRuntime.Proof.Loop

namespace TracciaRuntime

open Py Async AgentRuntime Prog

variable {V : Type}

section
variable (cfg : Config V) (agent : AgentDefinition V)

/-! ## Turns under the ReAct planner -/

/-- The planner is ReAct's; all other answers are free. -/
def react : (o : Op V) → Except Exn o.Resp → Prop
  | .plan s _, .ok plan => plan = reactPlan s
  | _, _ => True

/-- The context is built before the planner is asked. -/
def inContext (s : RunState V) : Task V (RunState V) :=
  if s.status = .buildingContext then retrieve cfg s agent else Pure.pure s

/-- The state in which the planned action is executed. -/
def decided (s : RunState V) : RunState V :=
  { s with
    summary := { s.summary with
      decisions := s.summary.decisions ++ [(reactPlan s).decisionSummary] }
    stepCount := s.stepCount + 1 }

/-- A turn from `s` has planned this action, which is executed in `s₁`. -/
def Reaches (s s₁ : RunState V) (action : PlannedAction V) : Prop :=
  ∃ s₂ rest, (inContext cfg agent s).Gives react (.ok s₂) ∧ s₂.status = .planning ∧
    (reactPlan s₂).actions = action :: rest ∧ s₁ = decided s₂

/-- `_execute_model` up to the response. -/
def askModel (s : RunState V) (action : PlannedAction V) :
    Task V ((ModelResponse V × Bool) × RunState V) := do
  let s ← transition s .invokingModel
  let timeoutSeconds ← remainingSeconds s
  let request := modelRequest cfg s agent timeoutSeconds
  let checked ← policyValue .beforeModel (.request request) s { agent := some agent }
  let request := match checked with
    | some (.request r) => r
    | _ => request
  emit s .modelStarted (some action.id)
  modelResponse cfg s agent request (agent.defaultModel :: agent.fallbackModels) action.id

/-- `_execute_model` from the response on. -/
def takeResponse (action : PlannedAction V) (x : (ModelResponse V × Bool) × RunState V) :
    Task V (RunState V) := do
  let checked ← policyValue .afterModel (.text x.1.1.message.textContent) x.2
    { agent := some agent, toolCalls := some x.1.1.toolCalls }
  let response := checkedResponse cfg x.1.1 checked
  let s := withResponse x.2 response
  emit s (.modelCompleted response.provider response.model response.finishReason x.1.2)
    (some action.id)
  audit s "model.call" "completed" s!"{response.provider}/{response.model}"
  transition s .planning

theorem executeModel_eq (s : RunState V) (action : PlannedAction V) :
    executeModel cfg s agent action = askModel cfg agent s action >>= takeResponse cfg agent action := by
  unfold executeModel askModel
  simp only [Prog.bind_assoc]
  rfl

/-! ## The life of a run -/

/-- A run with the calls it owes; `ok` says which responses the model may give. -/
inductive Life (ok : RunState V → List (ToolCall V) → Prop) : List (ToolCall V) → RunState V → Prop
  | started {s} : s.status = .received → s.pendingToolCalls = [] → Life ok [] s
  | received {owed s s'} : Life ok owed s → s.status = .received →
      (receive s agent).Gives react (.ok s') → Life ok owed s'
  | responded {owed s s₁ action x s'} : Life ok owed s → Reaches cfg agent s s₁ action →
      action.type = .model → (askModel cfg agent s₁ action).Gives react (.ok x) →
      ok s₁ x.1.1.toolCalls → (takeResponse cfg agent action x).Gives react (.ok s') →
      Life ok x.1.1.toolCalls s'
  | called {owed s s₁ action s'} : Life ok owed s → Reaches cfg agent s s₁ action →
      action.type = .tool → (executeTool cfg s₁ agent action).Gives react (.ok s') →
      Life ok (if s'.status = .awaitingApproval then owed else owed.tail) s'
  /-- a completion that failed its verification, or ended the run -/
  | verified {owed s s₁ action s'} : Life ok owed s → Reaches cfg agent s s₁ action →
      action.type = .complete → (verifyAndComplete cfg s₁ agent action.id).Gives react (.ok s') →
      Life ok owed s'
  /-- a pause is over, with the arguments that the approval modified -/
  | granted {owed s s' approval} : Life ok owed s → s.status = .awaitingApproval →
      (transition (granted s (pausedFor s).2 approval) .planning).Gives react (.ok s') →
      Life ok (granted { s with pendingToolCalls := owed } (pausedFor s).2 approval).pendingToolCalls s'

variable {cfg agent} {s s' s₁ : RunState V} {action : PlannedAction V} {owed : List (ToolCall V)}

/-- The actions of the ReAct planner. -/
theorem reactPlan_type {rest : List (PlannedAction V)} (h : (reactPlan s).actions = action :: rest) :
    action.type = .tool ∨ action.type = .model ∨ action.type = .complete := by
  unfold reactPlan at h
  split at h
  · split at h
    · cases h; exact Or.inr (Or.inr rfl)
    · simp only [directPlan, List.cons.injEq] at h
      obtain ⟨rfl, -⟩ := h
      dsimp only
      split
      · exact Or.inr (Or.inr rfl)
      · exact Or.inr (Or.inl rfl)
  · change toolActions s = action :: rest at h
    obtain ⟨call, tail, -, ha, -⟩ := List.map_eq_cons_iff.1 h
    rw [← ha]
    exact Or.inl rfl

/-- **Every turn of the loop is a step of the run's life.** -/
theorem Life.turn (h : Life cfg agent (fun _ _ => True) owed s)
    (ht : (turn cfg agent s).Gives react (.ok s')) (hs : s.status.isHead = true) :
    ∃ owed', Life cfg agent (fun _ _ => True) owed' s' := by
  obtain ⟨_, -, ht⟩ := ht.bind_ok
  obtain ⟨_, -, ht⟩ := ht.bind_ok
  have hctx : ∃ s₂, (inContext cfg agent s).Gives react (.ok s₂) ∧ s₂.status = .planning ∧
      (planStep cfg s₂ agent).Gives react (.ok s') := by
    dsimp only at ht
    unfold inContext
    rcases RunStatus.isHead_cases hs with hst | hst
    · rw [if_pos hst] at ht ⊢
      obtain ⟨s₂, h₂, ht⟩ := ht.bind_ok
      have hp := (h₂.ends retrieve_ends).2
      rw [if_pos hp] at ht
      exact ⟨s₂, h₂, hp, ht⟩
    · rw [if_neg (by rw [hst]; decide)] at ht ⊢
      obtain ⟨s₂, h₂, ht⟩ := ht.bind_ok
      cases h₂
      rw [if_pos hst] at ht
      exact ⟨s, .pure s, hst, ht⟩
  obtain ⟨s₂, h₂, hp, ht⟩ := hctx
  obtain ⟨_, -, ht⟩ := ht.bind_ok
  obtain ⟨plan, hplan, ht⟩ := ht.bind_ok
  obtain rfl : plan = reactPlan s₂ := hplan.call_ok
  cases hacts : (reactPlan s₂).actions with
  | nil => rw [hacts] at ht; cases ht
  | cons action rest =>
    rw [hacts] at ht
    obtain ⟨_, -, ht⟩ := ht.bind_ok
    have hreach : Reaches cfg agent s (decided s₂) action := ⟨s₂, rest, h₂, hp, hacts, rfl⟩
    unfold executeAction at ht
    rcases reactPlan_type hacts with hty | hty | hty <;> rw [hty] at ht
    · exact ⟨_, h.called hreach hty ht⟩
    · change (executeModel cfg (decided s₂) agent action).Gives react (.ok s') at ht
      rw [executeModel_eq] at ht
      obtain ⟨x, hx, ht⟩ := ht.bind_ok
      exact ⟨_, h.responded hreach hty hx trivial ht⟩
    · exact ⟨_, h.verified hreach hty ht⟩

/-! ## What is owed is pending -/

/-- The ids are distinct and new. -/
def AllNew (completed : Finset String) (ids : List String) : Prop :=
  ids.Nodup ∧ ∀ id ∈ ids, id ∉ completed

/-- The calls are those that the adapter makes of the items of some reply. -/
def FromProvider (provider : OpenAiCompatible V) (_ : RunState V) (calls : List (ToolCall V)) : Prop :=
  ∃ items, provider.calls items = .ok calls

/-- And their ids, the provider's or synthesised, are distinct and new. -/
def NewFromProvider (provider : OpenAiCompatible V) (s : RunState V) (calls : List (ToolCall V)) :
    Prop :=
  ∃ items, provider.calls items = .ok calls ∧
    AllNew s.completedToolCallIds (items.map OpenAiCompatible.callId)

/-- The pending and the completed calls are the same. -/
structure KeepsCalls (s s' : RunState V) : Prop where
  pending : s'.pendingToolCalls = s.pendingToolCalls
  completed : s'.completedToolCallIds = s.completedToolCallIds

theorem KeepsCalls.trans {s₂ : RunState V} (h₁ : KeepsCalls s s₁) (h₂ : KeepsCalls s₁ s₂) :
    KeepsCalls s s₂ :=
  ⟨h₂.pending.trans h₁.pending, h₂.completed.trans h₁.completed⟩

theorem Saves.keepsCalls {target : RunStatus} (h : Saves target s s') : KeepsCalls s s' := by
  obtain ⟨now, rfl⟩ := h
  exact ⟨rfl, rfl⟩

theorem withInput_keepsCalls (x : Option (Payload V)) : KeepsCalls s (withInput s x) := by
  unfold withInput
  split <;> exact ⟨rfl, rfl⟩

theorem receive_keepsCalls : (receive s agent).Ends (KeepsCalls s) :=
  transition_ends.bind fun _ h₁ => Ends.after _ fun checked => transition_ends.mono fun _ h₂ =>
    h₁.keepsCalls.trans ((withInput_keepsCalls checked).trans h₂.keepsCalls)

theorem retrieve_keepsCalls : (retrieve cfg s agent).Ends (KeepsCalls s) := by
  refine Ends.after _ fun checked => Ends.after _ fun _ => Ends.after _ fun built =>
    Ends.after _ fun checked' => Ends.after _ fun _ => transition_ends.mono fun s' h => ?_
  refine KeepsCalls.trans ?_ h.keepsCalls
  have hin := withInput_keepsCalls (s := s) checked
  split <;> exact ⟨hin.pending, hin.completed⟩

theorem inContext_keepsCalls : (inContext cfg agent s).Ends (KeepsCalls s) := by
  unfold inContext
  split
  · exact retrieve_keepsCalls
  · exact Ends.pure ⟨rfl, rfl⟩

theorem verifyAndComplete_keepsCalls {stepId : String} :
    (verifyAndComplete cfg s agent stepId).Ends (KeepsCalls s) := by
  refine transition_ends.bind fun s₁ h₁ => Ends.after _ fun results => Ends.after _ fun _ => ?_
  split
  · refine Ends.after _ fun checked => transition_ends.bind fun s₂ h₂ => Ends.after _ fun _ =>
      transition_ends.bind fun s₃ h₃ => Ends.after _ fun _ => Ends.pure ?_
    exact h₁.keepsCalls.trans (KeepsCalls.trans ⟨h₂.keepsCalls.pending, h₂.keepsCalls.completed⟩
      h₃.keepsCalls)
  · split
    · refine transition_ends.bind fun s₂ h₂ => transition_ends.mono fun s₃ h₃ => ?_
      exact h₁.keepsCalls.trans (KeepsCalls.trans ⟨h₂.keepsCalls.pending, h₂.keepsCalls.completed⟩
        h₃.keepsCalls)
    · exact Ends.throw _

theorem Reaches.keepsCalls (h : Reaches cfg agent s s₁ action) : KeepsCalls s s₁ := by
  obtain ⟨s₂, rest, h₂, -, -, rfl⟩ := h
  obtain ⟨hp, hc⟩ := h₂.ends inContext_keepsCalls
  exact ⟨hp, hc⟩

/-- The action of a requested call. -/
def toolAction (call : ToolCall V) : PlannedAction V where
  id := "tool-" ++ call.id
  type := .tool
  description := s!"Execute requested tool {call.name}"
  toolName := some call.name
  arguments := call.arguments

theorem toolActions_new (h : AllNew s.completedToolCallIds (s.pendingToolCalls.map (·.id))) :
    toolActions s = s.pendingToolCalls.map toolAction := by
  have hall : s.pendingToolCalls.filter (fun call => call.id ∉ s.completedToolCallIds) =
      s.pendingToolCalls :=
    List.filter_eq_self.2 fun call hc => decide_eq_true (h.2 call.id (List.mem_map_of_mem hc))
  unfold toolActions
  rw [hall]
  rfl

/-- **The planner goes through the pending calls first**, if they are new. -/
theorem reactPlan_new (h : AllNew s.completedToolCallIds (s.pendingToolCalls.map (·.id)))
    {rest : List (PlannedAction V)} (ha : (reactPlan s).actions = action :: rest) :
    (s.pendingToolCalls = [] ∧ action.type ≠ .tool) ∨
      ∃ call calls, s.pendingToolCalls = call :: calls ∧ action = toolAction call := by
  unfold reactPlan at ha
  rw [toolActions_new h] at ha
  cases hp : s.pendingToolCalls with
  | nil =>
    rw [hp] at ha
    refine Or.inl ⟨rfl, fun ht => ?_⟩
    change (if s.outputText.getD "" ≠ "" then _ else directPlan s : Plan V).actions = _ at ha
    split at ha
    · cases ha; cases ht
    · simp only [directPlan, List.cons.injEq] at ha
      obtain ⟨rfl, -⟩ := ha
      dsimp only at ht
      split at ht <;> cases ht
  | cons call calls =>
    rw [hp] at ha
    cases ha
    exact Or.inr ⟨call, calls, rfl, rfl⟩

theorem Reaches.serves (h : Reaches cfg agent s s₁ action)
    (hn : AllNew s.completedToolCallIds (s.pendingToolCalls.map (·.id))) :
    (s.pendingToolCalls = [] ∧ action.type ≠ .tool) ∨
      ∃ call calls, s.pendingToolCalls = call :: calls ∧ action = toolAction call := by
  obtain ⟨s₂, rest, h₂, -, hacts, -⟩ := h
  obtain ⟨hp, hc⟩ := h₂.ends inContext_keepsCalls
  rw [← hp]
  exact reactPlan_new (by rw [hp, hc]; exact hn) hacts

/-! ## Tool turns -/

variable (cfg agent) in
/-- The executor was called with the name and the arguments of this call, and the result was
    appended as a TOOL message. -/
structure Executes (s : RunState V) (call : ToolCall V) (s' : RunState V) : Prop where
  result : ∃ d s₁ result, toolsGet cfg call.name = .ok d ∧
    (ToolExecutor.execute cfg d.name call.arguments
      (toolContext s₁ agent (toolAction call) call.id)).Gives react (.ok result) ∧
    s'.messages = s.messages ++ [{
      role := .tool
      name := some d.name
      toolCallId := some call.id
      content := [.text (cfg.lib.dumps result.value)] }]
  completed : s'.completedToolCallIds = insert call.id s.completedToolCallIds
  pending : s'.pendingToolCalls = s.pendingToolCalls.filter fun c => c.id ≠ call.id

/-- **A tool turn executes its call or pauses the run.** -/
theorem executeTool_executes {call : ToolCall V}
    (h : (executeTool cfg s agent (toolAction call)).Gives react (.ok s')) :
    (s'.status = .awaitingApproval ∧ KeepsCalls s s') ∨
      (s'.status = .buildingContext ∧ Executes cfg agent s call s') := by
  obtain ⟨_, -, h⟩ := h.bind_ok
  obtain ⟨d, hd, h⟩ := h.bind_ok
  obtain ⟨decision, -, h⟩ := h.bind_ok
  have hid : removePrefix "tool-" (toolAction call).id = call.id := removePrefix_append _ _
  rw [hid] at h
  split at h
  · obtain ⟨approval, -, h⟩ := h.bind_ok
    obtain ⟨s₁, h₁, h⟩ := h.bind_ok
    obtain ⟨_, -, h⟩ := h.bind_ok
    cases h
    obtain ⟨now, rfl⟩ := h₁.ends transition_ends
    exact Or.inl ⟨rfl, rfl, rfl⟩
  · obtain ⟨s₁, h₁, h⟩ := h.bind_ok
    obtain ⟨_, -, h⟩ := h.bind_ok
    obtain ⟨result, hres, h⟩ := h.bind_ok
    obtain ⟨_, -, h⟩ := h.bind_ok
    obtain ⟨_, -, h⟩ := h.bind_ok
    obtain ⟨now, rfl⟩ := h.ends transition_ends
    obtain ⟨now, rfl⟩ := h₁.ends transition_ends
    have hd' : toolsGet cfg call.name = .ok d := by
      change (Prog.lift (toolsGet cfg call.name) : Task V _).Gives react (.ok d) at hd
      cases htool : toolsGet cfg call.name with
      | error e => rw [htool] at hd; cases hd
      | ok d' => rw [htool] at hd; cases hd; rfl
    exact Or.inr ⟨rfl, ⟨d, _, result, hd', hres, rfl⟩, rfl, rfl⟩

theorem takeResponse_calls {x : (ModelResponse V × Bool) × RunState V} :
    (takeResponse cfg agent action x).Ends fun s' =>
      s'.pendingToolCalls = x.1.1.toolCalls ∧ s'.completedToolCallIds = x.2.completedToolCallIds := by
  refine Ends.after _ fun checked => Ends.after _ fun _ => Ends.after _ fun _ =>
    transition_ends.mono fun s' h => ?_
  obtain ⟨now, rfl⟩ := h
  refine ⟨?_, rfl⟩
  change (checkedResponse cfg x.1.1 checked).toolCalls = _
  unfold checkedResponse
  dsimp only
  split
  · split <;> rfl
  · rfl

theorem askModel_completed : (askModel cfg agent s action).Ends fun x =>
    x.2.completedToolCallIds = s.completedToolCallIds := by
  refine transition_ends.bind fun s₁ h₁ => Ends.after _ fun _ => Ends.after _ fun _ =>
    Ends.after _ fun _ => (modelResponse_ends h₁.status).mono fun x hx => ?_
  exact hx.completed.trans h₁.keepsCalls.completed

/-- The arguments that an approval modifies leave the ids alone. -/
theorem granted_ids {callId : String} {approval : ApprovalRequest V} :
    (granted s callId approval).pendingToolCalls.map (·.id) = s.pendingToolCalls.map (·.id) := by
  unfold granted
  dsimp only
  split
  · rw [List.map_map]
    refine List.map_congr_left fun call _ => ?_
    dsimp only [Function.comp_apply]
    split <;> rfl
  · rfl

/-- The completed call is taken off the pending ones. -/
theorem AllNew.tail {completed : Finset String} {call : ToolCall V} {calls : List (ToolCall V)}
    (h : AllNew completed ((call :: calls).map (·.id))) :
    ((call :: calls).filter fun c => c.id ≠ call.id) = calls ∧
      AllNew (insert call.id completed) (calls.map (·.id)) := by
  obtain ⟨hnodup, hnew⟩ := h
  rw [List.map_cons, List.nodup_cons] at hnodup
  have hne : ∀ c ∈ calls, c.id ≠ call.id := fun c hc he =>
    hnodup.1 (he ▸ List.mem_map_of_mem hc)
  refine ⟨?_, hnodup.2, fun id hid => ?_⟩
  · rw [List.filter_cons_of_neg (by simp)]
    exact List.filter_eq_self.2 fun c hc => decide_eq_true (hne c hc)
  · rw [Finset.mem_insert, not_or]
    obtain ⟨c, hc, rfl⟩ := List.mem_map.1 hid
    exact ⟨hne c hc, hnew c.id (List.mem_map_of_mem (List.mem_cons_of_mem _ hc))⟩

/-- **What is owed is pending and new.** -/
theorem Life.pending {provider : OpenAiCompatible V}
    (h : Life cfg agent (NewFromProvider provider) owed s) :
    s.pendingToolCalls = owed ∧ AllNew s.completedToolCallIds (owed.map (·.id)) := by
  induction h with
  | started _ hp => exact ⟨hp, List.nodup_nil, nofun⟩
  | received _ _ hr ih =>
    obtain ⟨hp, hc⟩ := hr.ends receive_keepsCalls
    rw [hp, hc]
    exact ih
  | responded _ hreach _ hx hok ht ih =>
    obtain ⟨hp, hc⟩ := ht.ends takeResponse_calls
    obtain ⟨items, hcalls, hnew⟩ := hok
    refine ⟨hp, ?_⟩
    rw [hc, hx.ends askModel_completed, provider.calls_spec hcalls]
    exact hnew
  | @called owed s s₁ action s' _ hreach hty ht ih =>
    obtain ⟨rfl, hnew⟩ := ih
    obtain ⟨hp, hc⟩ := hreach.keepsCalls
    rcases hreach.serves hnew with ⟨-, hne⟩ | ⟨call, calls, hcalls, rfl⟩
    · exact absurd hty hne
    · rcases executeTool_executes ht with ⟨hst, hp', hc'⟩ | ⟨hst, hex⟩
      · rw [if_pos hst, hp', hc', hp, hc]
        exact ⟨rfl, hnew⟩
      · rw [hcalls] at hnew
        obtain ⟨htail, hnew'⟩ := hnew.tail
        rw [if_neg (by rw [hst]; decide), hex.pending, hex.completed, hp, hc, hcalls, htail]
        exact ⟨rfl, hnew'⟩
  | verified _ hreach _ ht ih =>
    obtain ⟨hp, hc⟩ := hreach.keepsCalls.trans (ht.ends verifyAndComplete_keepsCalls)
    rw [hp, hc]
    exact ih
  | @granted owed s s' approval _ _ ht ih =>
    obtain ⟨rfl, hnew⟩ := ih
    obtain ⟨hp, hc⟩ := (ht.ends transition_ends).keepsCalls
    refine ⟨hp, ?_⟩
    rw [hc, granted_ids]
    exact hnew

/-! ## The theorem -/

variable (cfg agent) in
/-- Nothing is owed when the model is asked or the run is completed, and a tool turn that does
    not pause the run executes the call that is owed first. -/
structure Honours (owed : List (ToolCall V)) (s : RunState V) : Prop where
  first : ∀ s₁ action, Reaches cfg agent s s₁ action →
    action.type = .model ∨ action.type = .complete → owed = []
  next : ∀ s₁ action s', Reaches cfg agent s s₁ action → action.type = .tool →
    (executeTool cfg s₁ agent action).Gives react (.ok s') →
    s'.status = .awaitingApproval ∨
      ∃ call rest, owed = call :: rest ∧ Executes cfg agent s₁ call s'

end

namespace Sample

def provider : OpenAiCompatible String where
  providerId := "p"
  defaultModel := "m"
  loads _ := .ok (some [])

/-- A call of the tool, with this id. -/
def wireCall (id : Option String) : WireCall String := { id, function := some { name := some "send" } }

/-- The response to a reply that calls the tool once. -/
def calls (id : Option String) : ModelResponse String :=
  match provider.response { choices := some [{ message := some { toolCalls := some [wireCall id] } }] }
      0 false with
  | .ok r => r
  | .error _ => { id := "", message := .text .assistant "", model := "", provider := "" }

/-- The model always gives this response, and everything else goes through. -/
def repeats (r : ModelResponse String) : (o : Op String) → Except Exn o.Resp
  | .plan s _ => .ok (reactPlan s)
  | .generate .. => .ok r
  | .runsSave .. | .toolComplete .. => .ok ()
  | o => match world.effect sendCfg 0 o o.oblige with
    | some x => x.1
    | none => .error (.other "blocked")

theorem repeats_react (r : ModelResponse String) (o : Op String) : react o (repeats r o) := by
  cases o <;> trivial

/-- What the program returns under these answers. -/
def outcome {α : Type} (r : ModelResponse String) (d : α) (p : Task String α) : α :=
  match p.answered (repeats r) with
  | .ok a => a
  | .error _ => d

theorem gives_outcome {α : Type} {r : ModelResponse String} {d : α} {p : Task String α}
    (h : (p.answered (repeats r)).isOk = true) : p.Gives react (.ok (outcome r d p)) := by
  refine gives_answered (repeats_react r) ?_
  unfold outcome
  cases hp : p.answered (repeats r) with
  | ok a => rfl
  | error e => rw [hp] at h; cases h

/-- The action that is planned next. -/
def planned (s : RunState String) : PlannedAction String :=
  (reactPlan s).actions.headD { id := "", type := .approve, description := "" }

def run₀ : RunState String := { id := "run", request, sessionId := "session", updatedAt := 0 }

section
variable (r : ModelResponse String)

def run₁ : RunState String := outcome r run₀ (receive run₀ agent)
/-- in the context for the first model call -/
def run₂ : RunState String := outcome r run₀ (inContext sendCfg agent (run₁ r))
def answer₁ : (ModelResponse String × Bool) × RunState String :=
  outcome r ((r, false), run₀) (askModel sendCfg agent (decided (run₂ r)) (planned (run₂ r)))
/-- after the first response -/
def run₃ : RunState String :=
  outcome r run₀ (takeResponse sendCfg agent (planned (run₂ r)) (answer₁ r))
/-- after the tool turn -/
def run₄ : RunState String :=
  outcome r run₀ (executeTool sendCfg (decided (run₃ r)) agent (planned (run₃ r)))
def run₅ : RunState String := outcome r run₀ (inContext sendCfg agent (run₄ r))
def answer₂ : (ModelResponse String × Bool) × RunState String :=
  outcome r ((r, false), run₀) (askModel sendCfg agent (decided (run₅ r)) (planned (run₅ r)))
/-- after the second response -/
def run₆ : RunState String :=
  outcome r run₀ (takeResponse sendCfg agent (planned (run₅ r)) (answer₂ r))

/-- The action that is planned in a state is reached from it. -/
theorem reaches_planned {s s₂ : RunState String}
    (h : (inContext sendCfg agent s).Gives react (.ok s₂)) (hs : s₂.status = .planning)
    (ha : (reactPlan s₂).actions ≠ []) :
    Reaches sendCfg agent s (decided s₂) (planned s₂) := by
  cases hacts : (reactPlan s₂).actions with
  | nil => exact absurd hacts ha
  | cons action rest =>
    refine ⟨s₂, rest, h, hs, ?_, rfl⟩
    rw [planned, hacts]
    rfl

/-- The run up to its first response. -/
theorem life_first {ok : RunState String → List (ToolCall String) → Prop} (id : Option String)
    (h₁ : ((receive run₀ agent).answered (repeats (calls id))).isOk = true)
    (h₂ : ((inContext sendCfg agent (run₁ (calls id))).answered (repeats (calls id))).isOk = true)
    (h₃ : ((askModel sendCfg agent (decided (run₂ (calls id))) (planned (run₂ (calls id)))).answered
      (repeats (calls id))).isOk = true)
    (h₄ : ((takeResponse sendCfg agent (planned (run₂ (calls id))) (answer₁ (calls id))).answered
      (repeats (calls id))).isOk = true)
    (hs : (run₂ (calls id)).status = .planning)
    (ha : (reactPlan (run₂ (calls id))).actions ≠ []) (ht : (planned (run₂ (calls id))).type = .model)
    (hok : ok (decided (run₂ (calls id))) (answer₁ (calls id)).1.1.toolCalls) :
    Life sendCfg agent ok (answer₁ (calls id)).1.1.toolCalls (run₃ (calls id)) :=
  .responded (.received (.started rfl rfl) rfl (gives_outcome h₁))
    (reaches_planned (gives_outcome h₂) hs ha) ht (gives_outcome h₃) hok (gives_outcome h₄)

end

end Sample

end TracciaRuntime
