/-
  The driver of a run, once and for all.

  A driver works on a copy of the run state.  `Laws` says what a contract has to
  provide for such a copy: it survives interference, the operations in the
  background and the writes of the driver keep it, and an exception leaves a
  status in which it can be dealt with.  From the laws:

  * `execute_post`: `_execute` ends with a copy of the run;
  * `drive_safe`: a driver keeps the contract.

  The approval request and the call of a tool are left to the contract.
-/
import TracciaRuntime.Proof.Progress

namespace TracciaRuntime

open Py Async AgentRuntime

variable {V : Type}

/-! ## Copies of a run state -/

/-- The statuses in which a driver works on the run. -/
def RunStatus.isWorking : RunStatus → Bool
  | validating | buildingContext | planning | invokingModel | invokingTool | verifying | retrying
  | composing => true
  | _ => false

theorem RunStatus.isWorking_of_not_settled {a : RunStatus} (h : a ≠ .received)
    (hs : ¬ a.isSettled = true) : a.isWorking = true := by
  cases a <;> first | rfl | exact absurd rfl h | exact absurd rfl hs

/-- The rewrites of a status by `_transition` and by a recovery. -/
def RunStatus.Turn (a b : RunStatus) : Prop :=
  b ∈ a.allowedTransitions ∨ a.isTerminal = false ∧ b = a.recoveryStatus

/-- What the agent definition of a run is found by, and the one that was found. -/
def RunState.agentRef (s : RunState V) : String × Option String × Option String :=
  (s.request.agent, s.request.agentVersion, s.agentKey)

/-- The parts of a run state that the stores and the tool calls depend on. -/
structure Same (s s' : RunState V) : Prop where
  id : s'.id = s.id
  tenantId : s'.request.tenantId = s.request.tenantId
  version : s'.version = s.version
  status : s'.status = s.status
  approved : s'.approvedToolCallIds = s.approvedToolCallIds
  completed : s'.completedToolCallIds = s.completedToolCallIds
  pending : s'.pendingToolCalls = s.pendingToolCalls
  agentRef : s'.agentRef = s.agentRef
  pause : s.status = .awaitingApproval → s'.pausePayload = s.pausePayload

/-- A planned tool action is the action of an open call, and the model is not asked while an
    approved call is open. -/
structure Serves (s : RunState V) (action : PlannedAction V) : Prop where
  tool : action.type = .tool → ∃ call,
    s.pendingToolCalls.find? (fun c => c.id = call.id) = some call ∧
      call.id ∉ s.completedToolCallIds ∧ action.id = "tool-" ++ call.id ∧
      action.arguments = call.arguments
  model : action.type = .model → ∀ call ∈ s.pendingToolCalls,
    call.id ∈ s.approvedToolCallIds → call.id ∈ s.completedToolCallIds

theorem Serves.congr {s s' : RunState V} {action : PlannedAction V} (h : Serves s action)
    (ha : s'.approvedToolCallIds = s.approvedToolCallIds)
    (hc : s'.completedToolCallIds = s.completedToolCallIds)
    (hp : s'.pendingToolCalls = s.pendingToolCalls) : Serves s' action := by
  obtain ⟨h₁, h₂⟩ := h
  refine ⟨fun ht => ?_, fun ht => ?_⟩
  · rw [hp, hc]; exact h₁ ht
  · rw [hp, hc, ha]; exact h₂ ht

/-- The operations that write neither runs nor approvals nor agents, call no handler, and leave
    the event loop's tasks alone. -/
def Op.isBackground (o : Op V) : Bool :=
  !o.writesRuns && !o.writesApprovals && !o.isHandler && !o.isSchedule && !o.isCancellation &&
    !o.isRegister

/-- What a step of the driver ends with: a copy of the run, and after an exception one that
    can be dealt with. -/
def Post {α : Type} (Copy : World V → RunState V → Prop) (Err : RunStatus → Exn → Prop)
    (g : α → RunState V) : Except Exn α → World V → Prop
  | .ok x, w => Copy w (g x)
  | .error e, w => ∃ s, Copy w s ∧ Err s.status e

/-- **What a contract provides for the copies of the driver `t`.**  `strict` contracts rely on
    the planner to serve the pending calls; `loose` ones do not look at what a run waits for. -/
structure CopyLaws (cfg : Config V) (A : Allow cfg.sem.Ans Exn (World V)) (R : Contract (World V))
    (t : Nat) (Copy : World V → RunState V → Prop) (Err : RunStatus → Exn → Prop)
    (strict loose : Prop) : Prop where
  stable : ∀ s, R.Stable t fun w => Copy w s
  planned : ∀ w w', R.rely t w w' → w'.planned t = w.planned t
  same : ∀ w s s', Same s s' → Copy w s → Copy w s'
  raises : ∀ a e, a.isWorking = true → e.isFailure = true → Err a e
  background : ∀ s o, o.isBackground = true →
    Mild cfg.sem A R t (fun w => Copy w s) (Err s.status) o
  plan : ∀ w s agent (p : Plan V), A t w (.plan s agent) (.done (Answer.ok p)) → strict →
    ∀ a rest, p.actions = a :: rest → Serves s a
  save : ∀ b w s target now a r w', R.valid w → Copy w s → s.status.Turn target →
    (target = .awaitingApproval → s.status = .awaitingApproval ∨ loose) →
    A t w (.runsSave { s with status := target, updatedAt := now } s.version) a →
    cfg.sem.act t b w (.runsSave { s with status := target, updatedAt := now } s.version) a =
      some (r, w') →
    R.valid w' ∧ (∀ t', t' ≠ t → R.rely t' w w') ∧ match r with
      | .ok _ => Copy w' { s with status := target, updatedAt := now, version := s.version + 1 }
      | .error e => ∃ s', Copy w' s' ∧ Err s'.status e
  respond : ∀ w s calls, Copy w s → s.status.isWorking = true → (strict →
    ∀ call ∈ s.pendingToolCalls, call.id ∈ s.approvedToolCallIds →
      call.id ∈ s.completedToolCallIds) → Copy w { s with pendingToolCalls := calls }
  result : ∀ w s callId, Copy w s → s.status.isWorking = true → Copy w { s with
    completedToolCallIds := insert callId s.completedToolCallIds
    pendingToolCalls := s.pendingToolCalls.filter fun call => call.id ≠ callId }

/-- The context of the `plan_tool` check of a call. -/
def planContext (s : RunState V) (agent : AgentDefinition V) (d : ToolDefinition V) :
    PolicyContext V where
  tool := some d
  approvalPolicy := some agent.approvalPolicy
  runId := some s.id
  tenantId := some s.request.tenantId
  userId := some s.request.userId
  usage := some s.summary.usage
  stepCount := some s.stepCount

/-- The check is the one of this invocation. -/
structure Checks (check : PlanCheck V) (i : Invocation V) : Prop where
  planned : i.planned = some check
  arguments : check.arguments = .arguments i.arguments
  tool : check.context.tool.map (·.name) = some i.tool
  runId : check.context.runId = some i.context.runId

/-- The laws with those for the pause and the call of `_execute_tool`. -/
structure Laws (cfg : Config V) (A : Allow cfg.sem.Ans Exn (World V)) (R : Contract (World V))
    (t : Nat) (Copy : World V → RunState V → Prop) (Err : RunStatus → Exn → Prop)
    (strict loose : Prop) : Prop extends CopyLaws cfg A R t Copy Err strict loose where
  ask : ∀ w s agent action d decision, Copy w s → s.status = .planning →
    action.type = .tool → (strict → Serves s action) →
    removePrefix "tool-" action.id ∉ s.approvedToolCallIds →
    Safe cfg.sem.ticking A R t (Post Copy Err id)
      (requestApproval cfg s agent action d (removePrefix "tool-" action.id) decision) w
  tool : ∀ w s agent action d decision, Copy w s →
    s.status = .invokingTool → action.type = .tool → (strict → Serves s action) →
    w.planned t = some ⟨.arguments action.arguments, planContext s agent d, decision⟩ →
    (decision.action = .requireApproval →
      removePrefix "tool-" action.id ∈ s.approvedToolCallIds) →
    Safe cfg.sem.ticking A R t (fun x w' => Copy w' s ∧ ∀ e, x = .error e → Err s.status e)
      (ToolExecutor.execute cfg d.name action.arguments
        (toolContext s agent action (removePrefix "tool-" action.id))) w

/-! ## Programs in the background -/

section
open Prog
variable {s : RunState V} {X : Exn → Prop}

/-- A program whose operations stay in the background. -/
abbrev Background {α : Type} (X : Exn → Prop) (p : Task V α) : Prop :=
  Calm (fun o => o.isBackground = true) X p

/-- The operations beside the stores of the runtime: events, audit, policies, the clock and the
    provider. -/
def Op.isAside : Op V → Bool
  | nextSequence _ | publish _ | auditAppend _ | policyEvaluate .. | utcNow | generate ..
  | streamOpen .. | streamNext => true
  | _ => false

/-- A program of such operations. -/
abbrev Aside {α : Type} (X : Exn → Prop) (p : Task V α) : Prop :=
  Calm (fun o => o.isAside = true) X p

theorem Aside.background {α : Type} {p : Task V α} (hp : Aside X p) : Background X p := by
  refine hp.mono_op fun o ho => ?_
  cases o <;> first | rfl | cases ho

theorem await_calm {o : Op V} (h : o.isBackground = true) : Background X (await o) := Calm.call h

theorem emit_aside {body : EventBody V} {stepId : Option String} :
    Aside X (emit s body stepId) :=
  Calm.bind (Calm.call rfl) fun _ => Calm.call rfl

theorem emit_calm {body : EventBody V} {stepId : Option String} :
    Background X (emit s body stepId) :=
  emit_aside.background

theorem audit_aside {action outcome resourceId : String} :
    Aside X (audit s action outcome resourceId) :=
  Calm.call rfl

theorem policyValue_aside {point : PolicyPoint} {payload : Payload V} {context : PolicyContext V} :
    Aside (fun e => e.isFailure = true) (policyValue point payload s context) := by
  refine Calm.bind (Calm.call rfl) fun decision => Calm.bind audit_aside fun _ => ?_
  split <;> first | exact Calm.pure _ | exact Calm.throw rfl

theorem policyValue_calm {point : PolicyPoint} {payload : Payload V} {context : PolicyContext V} :
    Background (fun e => e.isFailure = true) (policyValue point payload s context) :=
  policyValue_aside.background

theorem remainingSeconds_aside : Aside X (remainingSeconds s) := by
  unfold remainingSeconds
  split
  · exact Calm.pure _
  · exact Calm.bind (Calm.call rfl) fun _ => Calm.pure _

variable {agent : AgentDefinition V} {request : ModelRequest V} {profiles : List (ModelProfile V)}
  {stepId : String}

theorem collect_aside {n : Nat} {parts : List String} {completed : Option (ModelResponse V)} :
    Aside X (collect s stepId n parts completed) := by
  induction n generalizing parts completed with
  | zero => exact Calm.pure _
  | succ n ih =>
    refine Calm.bind (Calm.call rfl) fun event => ?_
    dsimp only
    split
    · exact Calm.bind (Calm.pure _) fun _ => ih
    · exact Calm.bind emit_aside fun _ => Calm.bind (Calm.pure _) fun _ => ih

theorem requestModel_aside :
    Aside (fun e => e.isFailure = true) (requestModel s agent request profiles stepId) := by
  unfold requestModel
  split
  · refine Calm.bind (Calm.call rfl) fun n => Calm.bind collect_aside fun x => ?_
    split
    · exact Calm.throw rfl
    · exact Calm.pure _
  · exact Calm.call rfl

theorem attemptModel_aside :
    Aside (fun e => e.isFailure = true) (attemptModel s agent request profiles stepId) := by
  refine Calm.handle (Calm.bind requestModel_aside fun _ => Calm.pure _) fun e => ?_
  cases e <;> first | exact Calm.pure _ | exact Calm.throw (Or.inr rfl)

theorem nextRequest_aside {f : ProviderFailure} :
    Aside (fun e => e.isFailure = true) (nextRequest s agent request profiles f) := by
  unfold nextRequest
  split
  · split
    · exact Calm.throw rfl
    · exact Calm.bind audit_aside fun _ => Calm.pure _
  · exact Calm.pure _

theorem writeMemory_calm :
    Background (fun e => e.isFailure = true) (writeMemory s agent) := by
  unfold writeMemory
  split
  · exact Calm.bind policyValue_calm fun _ => Calm.bind (Calm.call rfl) fun _ =>
      Calm.bind policyValue_calm fun _ => Calm.pure _
  · exact Calm.pure _

theorem enforceBudget_eq_error {e : Exn} (h : enforceBudget s agent = .error e) :
    e.isFailure = true := by
  unfold enforceBudget at h
  split at h
  · cases h; rfl
  · split at h <;> cases h
    rfl

end

/-- An answer comes from an operation that completed. -/
theorem done_of_act_ok {cfg : Config V} {t : Nat} {b : Bool} {w w' : World V} {o : Op V}
    {a : Act cfg.sem.Ans Exn o} {x : o.Resp} (h : cfg.sem.act t b w o a = some (.ok x, w')) :
    ∃ c : o.Choice, a = .done (Answer.ok c) ∧ w.effect cfg t o c = some (.ok x, w') := by
  cases a with
  | done c =>
    cases c with
    | ok c => exact ⟨c, rfl, h⟩
    | error e => simp only [Sem.act, Config.sem] at h; split at h <;> cases h
    | lost e c =>
      simp only [Sem.act, Config.sem] at h
      split at h
      · cases h
      · rw [Option.map_eq_some_iff] at h
        obtain ⟨y, -, hy⟩ := h
        cases hy
  | before e =>
    simp only [Sem.act] at h
    split at h
    · rw [Option.map_eq_some_iff] at h
      obtain ⟨y, -, hy⟩ := h
      cases hy
    · cases h
  | after e c =>
    simp only [Sem.act] at h
    split at h
    · rw [Option.bind_eq_some_iff] at h
      obtain ⟨w₁, -, h⟩ := h
      rw [Option.map_eq_some_iff] at h
      obtain ⟨y, -, hy⟩ := h
      cases hy
    · cases h

/-- A `plan_tool` check is remembered. -/
theorem planned_of_act {cfg : Config V} {t : Nat} {b : Bool} {w w' : World V} {payload : Payload V}
    {context : PolicyContext V} {a : Act cfg.sem.Ans Exn (.policyEvaluate .planTool payload context)}
    {d : PolicyDecision V}
    (h : cfg.sem.act t b w (.policyEvaluate .planTool payload context) a = some (.ok d, w')) :
    w'.planned t = some ⟨payload, context, d⟩ := by
  obtain ⟨c, -, hc⟩ := done_of_act_ok h
  cases hc
  exact Function.update_self ..

theorem withInput_same {s : RunState V} (x : Option (Payload V)) : Same s (withInput s x) := by
  unfold withInput
  split <;> exact ⟨rfl, rfl, rfl, rfl, rfl, rfl, rfl, rfl, fun _ => rfl⟩

theorem timerAdds {cfg : Config V} : cfg.sem.TimerAdds := by
  intro t w e w₁ h
  cases e <;> first | exact h | cases h

/-! ## The driver's steps -/

section
open Prog
variable {cfg : Config V} {A : Allow cfg.sem.Ans Exn (World V)} {R : Contract (World V)} {t : Nat}
  {Copy : World V → RunState V → Prop} {Err : RunStatus → Exn → Prop}
  {strict loose : Prop} {w : World V} {s s' : RunState V} {agent : AgentDefinition V}

/-- The program is safe wherever the timer runs. -/
abbrev Ticks {α : Type} (cfg : Config V) (A : Allow cfg.sem.Ans Exn (World V))
    (R : Contract (World V)) (t : Nat) (Q : Except Exn α → World V → Prop) (p : Task V α)
    (w : World V) : Prop :=
  Safe cfg.sem.ticking A R t Q p w

namespace CopyLaws
variable (L : CopyLaws cfg A R t Copy Err strict loose) {α β : Type} {g : β → RunState V}
  {f : α → Task V β}
include L

theorem keep (hw : Copy w s) (h : Same s s') : Copy w s' := L.same w s s' h hw

/-- A program in the background keeps the copy. -/
theorem calm {X : Exn → Prop} {p : Task V α} (hp : Background X p)
    (hX : ∀ e, X e → Err s.status e) (hw : Copy w s) :
    Ticks cfg A R t (fun x w' => Copy w' s ∧ ∀ e, x = .error e → Err s.status e) p w := by
  refine Safe.of_calm (L.stable s) ((hp.mono hX).mono_op fun o ho => ?_) hw
  intro b w a r w' hv hc ha hact
  exact L.background s o ho true w a r w' hv hc ha (Sem.act_of_ticking hact)

/-- A program in the background, and what follows it. -/
theorem calm_bind {X : Exn → Prop} {p : Task V α} (hp : Background X p)
    (hX : ∀ e, X e → Err s.status e) (hw : Copy w s)
    (hf : ∀ a w', Copy w' s → Ticks cfg A R t (Post Copy Err g) (f a) w') :
    Ticks cfg A R t (Post Copy Err g) (p >>= f) w := by
  refine Safe.bind ((L.calm hp hX hw).mono fun x w' h => ?_)
  cases x with
  | ok a => exact hf a w' h.1
  | error e => exact ⟨s, h.1, h.2 e rfl⟩

/-- The same while the driver works, when its failures can be dealt with. -/
theorem work_bind {p : Task V α} (hp : Background (fun e => e.isFailure = true) p)
    (hs : s.status.isWorking = true) (hw : Copy w s)
    (hf : ∀ a w', Copy w' s → Ticks cfg A R t (Post Copy Err g) (f a) w') :
    Ticks cfg A R t (Post Copy Err g) (p >>= f) w :=
  L.calm_bind hp (fun e he => L.raises _ e hs he) hw hf

theorem emit_bind {body : EventBody V} {stepId : Option String} {s₀ : RunState V}
    {f : Unit → Task V β} (hw : Copy w s)
    (hf : ∀ w', Copy w' s → Ticks cfg A R t (Post Copy Err g) (f ()) w') :
    Ticks cfg A R t (Post Copy Err g) (emit s₀ body stepId >>= f) w :=
  L.calm_bind (X := fun _ => False) emit_calm (fun _ h => h.elim) hw fun _ => hf

/-- A write of the copy with a new status. -/
theorem saveAs_safe {target : RunStatus} (hw : Copy w s) (ht : s.status.Turn target)
    (hp : target = .awaitingApproval → s.status = .awaitingApproval ∨ loose) :
    Ticks cfg A R t (Post Copy Err id) (saveAs s target) w := by
  refine L.calm_bind (X := fun _ => False) (Calm.call rfl) (fun _ h => h.elim) hw
    fun now w' hw' => Safe.bind (Safe.call fun w₁ hr hv a ha r w₂ hact => ?_)
  obtain ⟨h₁, h₂, h₃⟩ := L.save true w₁ s target now a r w₂ hv (L.stable s w' w₁ hr hw') ht hp ha
    (Sem.act_of_ticking hact)
  refine ⟨h₁, h₂, ?_⟩
  cases r with
  | ok _ => exact h₃
  | error e => exact h₃

/-- `_transition`, while the driver works. -/
theorem transition_safe {target : RunStatus} (hw : Copy w s) (hs : s.status.isWorking = true)
    (hp : target ≠ .awaitingApproval ∨ loose) :
    Ticks cfg A R t (Post Copy Err id) (transition s target) w := by
  refine Safe.bind (Safe.lift ?_)
  cases hv : validateTransition s.status target with
  | ok u =>
    exact L.saveAs_safe hw (Or.inl (validateTransition_eq_ok.1 hv)) fun h =>
      Or.inr (hp.resolve_left fun hne => hne h)
  | error e =>
    refine ⟨s, hw, L.raises _ e hs ?_⟩
    unfold validateTransition at hv
    split at hv <;> cases hv
    rfl

theorem transition_bind {target : RunStatus} {f : RunState V → Task V β} (hw : Copy w s)
    (hs : s.status.isWorking = true) (hp : target ≠ .awaitingApproval ∨ loose)
    (hf : ∀ s' w', Saves target s s' → Copy w' s' → Ticks cfg A R t (Post Copy Err g) (f s') w') :
    Ticks cfg A R t (Post Copy Err g) (transition s target >>= f) w := by
  refine Safe.bind (((L.transition_safe hw hs hp).ends transition_ends).mono fun x w' h => ?_)
  cases x with
  | ok s' => exact hf s' w' (h.2 s' rfl) h.1
  | error e => exact h.1

/-- `_transition`, when nothing is asked of its exceptions. -/
theorem transition_any {target : RunStatus} (hw : Copy w s) (hp : target ≠ .awaitingApproval) :
    Ticks cfg A R t (fun x w' => ∀ s', x = .ok s' → Copy w' s') (transition s target) w := by
  refine Safe.bind (Safe.lift ?_)
  cases hv : validateTransition s.status target with
  | error e => exact fun s' h => by cases h
  | ok u =>
    refine (L.saveAs_safe hw (Or.inl (validateTransition_eq_ok.1 hv)) fun h => absurd h hp).mono
      fun x w' h s' hx => ?_
    subst hx; exact h

/-- A contract that does not look at approvals need not look at the pause either. -/
theorem requestApproval_safe {action : PlannedAction V} {d : ToolDefinition V} {callId : String}
    {decision : PolicyDecision V} (hl : loose)
    (hins : ∀ r, Mild cfg.sem A R t (fun w => Copy w s) (Err s.status) (.approvalsInsert r))
    (hw : Copy w s) (hs : s.status = .planning) :
    Ticks cfg A R t (Post Copy Err id)
      (requestApproval cfg s agent action d callId decision) w := by
  have hwork : s.status.isWorking = true := by rw [hs]; rfl
  have mild : ∀ o : Op V, o.isBackground = true ∨ (∃ r, o = .approvalsInsert r) →
      Mild cfg.sem.ticking A R t (fun w => Copy w s) (Err s.status) o := by
    rintro o ho b w a r w' hv hc ha hact
    rcases ho with ho | ⟨x, rfl⟩
    · exact L.background s o ho true w a r w' hv hc ha (Sem.act_of_ticking hact)
    · exact hins x true w a r w' hv hc ha (Sem.act_of_ticking hact)
  refine Safe.bind ((Safe.of_calm (X := Err s.status) (L.stable s) ?_ hw).mono fun x w₁ h => ?_)
  · exact Calm.bind (Calm.call (mild _ (Or.inl rfl))) fun _ =>
      Calm.bind (Calm.call (mild _ (Or.inl rfl))) fun _ =>
        Calm.bind (Calm.call (mild _ (Or.inr ⟨_, rfl⟩))) fun _ => Calm.pure _
  · cases x with
    | error e => exact ⟨s, h.1, h.2 e rfl⟩
    | ok approval =>
      refine L.transition_bind (L.keep h.1 ⟨rfl, rfl, rfl, rfl, rfl, rfl, rfl, rfl, fun h' => ?_⟩) hwork
        (Or.inr hl) fun s₁ w₂ _ hw₂ => L.emit_bind hw₂ fun w₃ hw₃ => Safe.pure hw₃
      rw [hs] at h'; cases h'

/-- A contract that does not look at handlers need not look at the call either. -/
theorem executeCall_safe {name : String} {arguments : Dict String V} {context : ToolContext}
    (hh : ∀ n a c, Mild cfg.sem A R t (fun w => Copy w s) (Err s.status) (.handler n a c))
    (hw : Copy w s) (hs : s.status.isWorking = true) :
    Ticks cfg A R t (fun x w' => Copy w' s ∧ ∀ e, x = .error e → Err s.status e)
      (ToolExecutor.execute cfg name arguments context) w := by
  refine Safe.of_calm (L.stable s) ((execute_calm.mono fun e he => L.raises _ e hs he).mono_op
    fun o ho => ?_) hw
  intro b w a r w' hv hc ha hact
  by_cases hb : o.isBackground = true
  · exact L.background s o hb true w a r w' hv hc ha (Sem.act_of_ticking hact)
  · cases o with
    | handler n x c => exact hh n x c true w a r w' hv hc ha (Sem.act_of_ticking hact)
    | _ => first | exact absurd rfl hb | exact (ho.elim id id).elim

end CopyLaws

namespace Laws
variable (L : Laws cfg A R t Copy Err strict loose) {α β : Type} {g : β → RunState V}
  {f : α → Task V β}
include L

/-! ### Model calls -/

variable {profiles : List (ModelProfile V)} {stepId : String} {request : ModelRequest V}

theorem backOff_safe {attempt : Nat} (hw : Copy w s) (hs : s.status.isWorking = true) :
    Ticks cfg A R t (Post Copy Err id) (backOff s agent attempt) w := by
  refine L.transition_bind (L.keep hw ⟨rfl, rfl, rfl, rfl, rfl, rfl, rfl, rfl, fun _ => rfl⟩) hs
    (Or.inl (by decide)) fun s₁ w₁ h₁ hw₁ => ?_
  have hs₁ : s₁.status.isWorking = true := by rw [h₁.status]; rfl
  exact L.work_bind (Calm.call rfl) hs₁ hw₁ fun _ w₂ hw₂ => L.transition_safe hw₂ hs₁ (Or.inl (by decide))

/-- One attempt leaves a copy that differs in its usage only. -/
theorem attemptModel_bind {f : Except ProviderFailure (ModelResponse V) × RunState V → Task V β}
    (hw : Copy w s) (hs : s.status.isWorking = true)
    (hf : ∀ x w', Carried s x.2 → Copy w' x.2 → Ticks cfg A R t (Post Copy Err g) (f x) w') :
    Ticks cfg A R t (Post Copy Err g) (attemptModel s agent request profiles stepId >>= f) w := by
  have same : (attemptModel s agent request profiles stepId).Ends fun x => Same s x.2 := by
    refine Ends.handle (Ends.after _ fun response => Ends.pure ?_) fun e => ?_
    · split <;> exact ⟨rfl, rfl, rfl, rfl, rfl, rfl, rfl, rfl, fun _ => rfl⟩
    · cases e <;> first
        | exact Ends.pure ⟨rfl, rfl, rfl, rfl, rfl, rfl, rfl, rfl, fun _ => rfl⟩
        | exact Ends.throw _
  refine Safe.bind ((((L.calm attemptModel_aside.background (fun e he => L.raises _ e hs he) hw).ends
    same).ends attemptModel_ends).mono fun x w' h => ?_)
  obtain ⟨⟨⟨hc, he⟩, hsame⟩, hcar⟩ := h
  cases x with
  | ok x => exact hf x w' (hcar x rfl) (L.keep hc (hsame x rfl))
  | error e => exact ⟨s, hc, he e rfl⟩

theorem modelWithRetry_safe {attempt rest : Nat} (hw : Copy w s)
    (hs : s.status = .invokingModel) :
    Ticks cfg A R t (Post Copy Err Prod.snd)
      (modelWithRetry agent profiles stepId attempt rest s request) w := by
  have throws : ∀ {x : RunState V} {f : ProviderFailure} {w' : World V}, Copy w' x →
      x.status = .invokingModel → Post (α := ModelResponse V × RunState V) Copy Err Prod.snd
        (.error f.exn) w' :=
    fun hc hx => ⟨_, hc, L.raises _ _ (by rw [hx]; rfl) rfl⟩
  induction rest generalizing attempt s request w with
  | zero =>
    refine L.attemptModel_bind hw (by rw [hs]; rfl) fun x w' hx hw' => ?_
    cases x.1 with
    | ok response => exact Safe.pure hw'
    | error f => exact Safe.throw (throws hw' (hx.status.trans hs))
  | succ rest ih =>
    refine L.attemptModel_bind hw (by rw [hs]; rfl) fun x w' hx hw' => ?_
    cases x.1 with
    | ok response => exact Safe.pure hw'
    | error f =>
      have hx' := hx.status.trans hs
      dsimp only
      split
      · have hwork : x.2.status.isWorking = true := by rw [hx']; rfl
        refine L.work_bind (Calm.lift fun _ => enforceBudget_eq_error) hwork hw' fun _ w₁ hw₁ =>
          L.work_bind nextRequest_aside.background hwork hw₁ fun request w₂ hw₂ =>
            Safe.bind (((L.backOff_safe hw₂ hwork).ends (backOff_ends hx')).mono fun y w₃ h => ?_)
        cases y with
        | ok s₁ => exact ih h.1 ((h.2 s₁ rfl).status.trans hx')
        | error e => exact h.1
      · exact Safe.throw (throws hw' hx')

section
variable {policies : Dict String CachePolicy} {policyName ns : String} {material : V}
  {context : CacheContext} {loader : Task V (V × RunState V)} {tags : List String}

/-- Loading a value for the others too. -/
theorem load_safe {future : Nat} {k : String}
    (hl : Ticks cfg A R t (Post Copy Err Prod.snd) loader w)
    (hend : loader.Ends fun x => x.2.status.isWorking = true) :
    Ticks cfg A R t (Post Copy Err Prod.snd)
      (CacheService.load cfg.lib policies policyName ns material context future k loader tags) w := by
  -- the driver's copy and what was raised stay as they are while the future is settled
  have settle : ∀ {p : Task V Unit} {x : Except Exn ((V × Bool) × RunState V)} {w' : World V},
      Background (fun _ => False) p → Post Copy Err Prod.snd x w' →
      Ticks cfg A R t (fun y w'' => match y with
        | .ok _ => Post Copy Err Prod.snd x w''
        | .error e => Post Copy Err (α := (V × Bool) × RunState V) Prod.snd (.error e) w'')
        p w' := by
    intro p x w' hp hx
    cases x with
    | ok v =>
      refine (L.calm hp (fun _ h => h.elim) hx).mono fun y w'' h => ?_
      cases y with
      | ok _ => exact h.1
      | error e => exact ⟨_, h.1, h.2 e rfl⟩
    | error e =>
      obtain ⟨s', hc, he⟩ := hx
      refine (L.calm hp (fun _ h => h.elim) hc).mono fun y w'' h => ?_
      cases y with
      | ok _ => exact ⟨s', h.1, he⟩
      | error e' => exact ⟨s', h.1, h.2 e' rfl⟩
  refine Safe.ensure (Safe.mono (Q := Post Copy Err Prod.snd) ?_ fun x w' hx =>
    (settle (await_calm rfl) hx).mono fun y w'' hy => by cases y <;> exact hy)
  refine Safe.handle (Safe.bind ((hl.ends hend).mono fun x w₁ h => ?_))
  cases x with
  | error e =>
    refine Safe.bind ((settle (x := .error e) (await_calm rfl) h.1).mono fun y w₂ hy => ?_)
    cases y with
    | ok _ => exact Safe.throw hy
    | error e' => exact hy
  | ok x =>
    have hs := h.2 x rfl
    -- an exception after the loader has returned goes through the same handler
    have rest : Ticks cfg A R t (Post Copy Err Prod.snd) (do
        let _ ← CacheService.setJson cfg.lib policies policyName ns material context x.1 tags
        await (.futureSet future (.ok x.1))
        Pure.pure ((x.1, false), x.2)) w₁ :=
      L.work_bind (setJson_calm fun _ _ _ _ => rfl) hs h.1 fun _ w₂ hw₂ =>
        L.work_bind (Calm.call rfl) hs hw₂ fun _ w₃ hw₃ => Safe.pure hw₃
    refine rest.mono fun y w₂ hy => ?_
    cases y with
    | ok y => exact hy
    | error e =>
      refine Safe.bind ((settle (x := .error e) (await_calm rfl) hy).mono fun z w₃ hz => ?_)
      cases z with
      | ok _ => exact Safe.throw hz
      | error e' => exact hz

theorem getOrSetJson_safe (hw : Copy w s) (hs : s.status.isWorking = true)
    (hl : ∀ w', Copy w' s → Ticks cfg A R t (Post Copy Err Prod.snd) loader w')
    (hend : loader.Ends fun x => x.2.status.isWorking = true) :
    Ticks cfg A R t (Post Copy Err Prod.snd)
      (CacheService.getOrSetJson cfg.lib policies policyName ns material context s loader tags) w := by
  refine L.work_bind (getJson_calm fun _ => rfl) hs hw fun cached w₁ hw₁ => ?_
  cases cached with
  | some v => exact Safe.pure hw₁
  | none =>
    dsimp only
    split
    · refine L.work_bind (Calm.lift fun _ => key_eq_error) hs hw₁ fun k w₂ hw₂ =>
        L.work_bind (Calm.call rfl) hs hw₂ fun x w₃ hw₃ => ?_
      split
      · exact L.load_safe (hl w₃ hw₃) hend
      · exact L.work_bind (Calm.call rfl) hs hw₃ fun v w₄ hw₄ => Safe.pure hw₄
    · refine Safe.bind ((hl w₁ hw₁).mono fun x w₂ h => ?_)
      cases x with
      | ok x => exact Safe.pure h
      | error e => exact h

end

theorem modelResponse_safe (hw : Copy w s) (hs : s.status = .invokingModel) :
    Ticks cfg A R t (Post Copy Err Prod.snd)
      (modelResponse cfg s agent request profiles stepId) w := by
  have hwork : s.status.isWorking = true := by rw [hs]; rfl
  have generate : ∀ w', Copy w' s →
      Ticks cfg A R t (Post Copy Err Prod.snd) (generateResponse s agent request profiles stepId) w' :=
    fun w' hw' => L.modelWithRetry_safe hw' hs
  have direct : Ticks cfg A R t (Post Copy Err Prod.snd) (do
      let x ← generateResponse s agent request profiles stepId
      Pure.pure ((x.1, false), x.2)) w := by
    refine Safe.bind ((generate w hw).mono fun x w' h => ?_)
    cases x with
    | ok x => exact Safe.pure h
    | error e => exact h
  unfold modelResponse
  split
  · exact direct
  · split
    · exact direct
    · have ends : (generateResponse s agent request profiles stepId >>= fun x =>
          Pure.pure (cfg.lib.ofModelResponse x.1, x.2)).Ends fun x => Carried s x.2 :=
        (modelWithRetry_ends hs).bind fun x hx => Ends.pure hx
      refine Safe.bind (((L.getOrSetJson_safe hw hwork (fun w' hw' => ?_)
        (ends.mono fun x hx => by rw [hx.status]; exact hwork)).ends
          (getOrSetJson_ends Carried.refl ends)).mono fun x w' h => ?_)
      · refine Safe.bind ((generate w' hw').mono fun x w₁ h => ?_)
        cases x with
        | ok x => exact Safe.pure h
        | error e => exact h
      · cases x with
        | error e => exact h.1
        | ok x =>
          dsimp only
          split
          · refine Safe.throw ⟨x.2, h.1, L.raises _ _ ?_ rfl⟩
            rw [(h.2 x rfl).status]; exact hwork
          · exact Safe.pure h.1

/-- `_execute_model`. -/
theorem executeModel_safe {action : PlannedAction V} (hw : Copy w s)
    (hs : s.status.isWorking = true) (ha : action.type = .model) (hserve : strict → Serves s action) :
    Ticks cfg A R t (Post Copy Err id) (executeModel cfg s agent action) w := by
  refine L.transition_bind hw hs (Or.inl (by decide)) fun s₁ w₁ h₁ hw₁ => ?_
  have hs₁ : s₁.status.isWorking = true := by rw [h₁.status]; rfl
  refine L.work_bind remainingSeconds_aside.background hs₁ hw₁ fun _ w₂ hw₂ =>
    L.work_bind policyValue_calm hs₁ hw₂ fun _ w₃ hw₃ => L.emit_bind hw₃ fun w₄ hw₄ =>
      Safe.bind (((L.modelResponse_safe hw₄ h₁.status).ends
        (modelResponse_ends h₁.status)).mono fun x w₅ h => ?_)
  cases x with
  | error e => exact h.1
  | ok x =>
    obtain ⟨hw₅, hx⟩ := h
    have hx := hx x rfl
    have hs₂ : x.2.status.isWorking = true := by rw [hx.status]; exact hs₁
    refine L.work_bind policyValue_calm hs₂ hw₅ fun checked w₆ hw₆ => ?_
    -- the answer replaces the pending calls
    have hw₇ : ∀ {w'}, Copy w' x.2 →
        Copy w' (withResponse x.2 (checkedResponse cfg x.1.1 checked)) := by
      intro w' hc
      refine L.keep (L.respond w' x.2 (checkedResponse cfg x.1.1 checked).toolCalls hc hs₂ fun hst => ?_)
        ⟨rfl, rfl, rfl, rfl, rfl, rfl, rfl, rfl, fun _ => rfl⟩
      obtain ⟨now, rfl⟩ := h₁
      exact ((hserve hst).congr hx.approved hx.completed hx.pending).model ha
    have hs₃ : (withResponse x.2 (checkedResponse cfg x.1.1 checked)).status.isWorking = true := hs₂
    exact L.emit_bind (hw₇ hw₆) fun w₇ hw₇ => L.work_bind audit_aside.background hs₃ hw₇ fun _ w₈ hw₈ =>
      L.transition_safe hw₈ hs₃ (Or.inl (by decide))

/-! ### Tool calls -/

/-- The transition to INVOKING_TOOL and its event leave the policy check alone. -/
theorem invokeTool_safe {action : PlannedAction V} {d : ToolDefinition V}
    {decision : PolicyDecision V} (hw : Copy w s) (hs : s.status = .planning)
    (ha : action.type = .tool) (hserve : strict → Serves s action)
    (hplan : w.planned t = some ⟨.arguments action.arguments, planContext s agent d, decision⟩)
    (happ : decision.action = .requireApproval →
      removePrefix "tool-" action.id ∈ s.approvedToolCallIds) :
    Ticks cfg A R t (Post Copy Err id)
      (invokeTool cfg s agent action d (removePrefix "tool-" action.id)) w := by
  generalize hchk : (⟨.arguments action.arguments, planContext s agent d, decision⟩ :
    PlanCheck V) = chk at hplan
  have stable : R.Stable t fun w => w.planned t = some chk :=
    fun w w' hr h => (L.planned w w' hr).trans h
  have keeps : ∀ o : Op V, o.plansTool = false → ∀ b w a r w', w.planned t = some chk →
      cfg.sem.ticking.act t b w o a = some (r, w') → w'.planned t = some chk :=
    fun o ho b w a r w' h hact =>
      (congrFun ((Config.act_frame (Sem.act_of_ticking hact)).planned ho) t).trans h
  have hwork : s.status.isWorking = true := by rw [hs]; rfl
  refine Safe.bind ((((L.transition_safe hw hwork (Or.inl (by decide))).ends transition_ends).and_uses stable
    ?_ hplan).mono fun x w₁ h => ?_)
  · exact Uses.bind (Uses.lift _) fun _ => Uses.bind (Uses.call (keeps _ rfl)) fun _ =>
      Uses.bind (Uses.call (keeps _ rfl)) fun _ => Uses.pure _
  obtain ⟨⟨hpost, hsave⟩, hplan₁⟩ := h
  cases x with
  | error e => exact hpost
  | ok s₁ =>
    have h₁ := hsave s₁ rfl
    have hs₁ : s₁.status.isWorking = true := by rw [h₁.status]; rfl
    refine Safe.bind (((L.calm (X := fun _ => False) emit_calm (fun _ h => h.elim) hpost).and_uses
      stable ?_ hplan₁).mono fun x w₂ h => ?_)
    · exact Uses.bind (Uses.call (keeps _ rfl)) fun _ => Uses.call (keeps _ rfl)
    obtain ⟨⟨hw₂, he⟩, hplan₂⟩ := h
    cases x with
    | error e => exact ⟨s₁, hw₂, he e rfl⟩
    | ok _ =>
      have same : s₁.approvedToolCallIds = s.approvedToolCallIds ∧
          s₁.completedToolCallIds = s.completedToolCallIds ∧
          s₁.pendingToolCalls = s.pendingToolCalls ∧
          planContext s₁ agent d = planContext s agent d := by
        obtain ⟨now, rfl⟩ := h₁; exact ⟨rfl, rfl, rfl, rfl⟩
      refine Safe.bind ((L.tool w₂ s₁ agent action d decision hw₂ h₁.status ha
        (fun hst => (hserve hst).congr same.1 same.2.1 same.2.2.1)
        (by rw [same.2.2.2, hchk]; exact hplan₂)
        (fun h => by rw [same.1]; exact happ h)).mono fun x w₃ h => ?_)
      cases x with
      | error e => exact ⟨s₁, h.1, h.2 e rfl⟩
      | ok result =>
        have hw₃ : Copy w₃ (withResult cfg s₁ d (removePrefix "tool-" action.id) result) :=
          L.keep (L.result w₃ s₁ _ h.1 hs₁) ⟨rfl, rfl, rfl, rfl, rfl, rfl, rfl, rfl, fun _ => rfl⟩
        have hs₃ : (withResult cfg s₁ d (removePrefix "tool-" action.id) result).status.isWorking =
          true := hs₁
        exact L.emit_bind hw₃ fun w₄ hw₄ => L.work_bind audit_aside.background hs₃ hw₄ fun _ w₅ hw₅ =>
          L.transition_safe hw₅ hs₃ (Or.inl (by decide))

/-- `_execute_tool`. -/
theorem executeTool_safe {action : PlannedAction V} (hw : Copy w s) (hs : s.status = .planning)
    (ha : action.type = .tool) (hserve : strict → Serves s action) :
    Ticks cfg A R t (Post Copy Err id) (executeTool cfg s agent action) w := by
  have hwork : s.status.isWorking = true := by rw [hs]; rfl
  refine L.work_bind (Calm.raiseIf rfl) hwork hw fun _ w₁ hw₁ =>
    L.work_bind (Calm.lift fun _ => toolsGet_eq_error) hwork hw₁ fun d w₂ hw₂ =>
      Safe.bind (Safe.call fun w₃ hr hv a ha' r w₄ hact => ?_)
  obtain ⟨hv₄, hr₄, hw₄, he⟩ := L.background s _ rfl true w₃ a r w₄ hv (L.stable s w₂ w₃ hr hw₂) ha'
    (Sem.act_of_ticking hact)
  refine ⟨hv₄, hr₄, ?_⟩
  cases r with
  | error e => exact ⟨s, hw₄, he e rfl⟩
  | ok decision =>
    have hplan := planned_of_act (Sem.act_of_ticking hact)
    dsimp only
    split
    · rename_i hask
      exact L.ask w₄ s agent action d decision hw₄ hs ha hserve hask.2
    · rename_i hask
      have happ : decision.action = .requireApproval →
          removePrefix "tool-" action.id ∈ s.approvedToolCallIds := by
        intro h; by_contra hc; exact hask ⟨h, hc⟩
      exact L.invokeTool_safe hw₄ hs ha hserve hplan happ

/-! ### Completion -/

theorem compose_safe (hw : Copy w s) (hs : s.status.isWorking = true) :
    Ticks cfg A R t (Post Copy Err id) (compose cfg s agent stepId) w := by
  refine L.work_bind policyValue_calm hs hw fun checked w₁ hw₁ =>
    L.transition_bind (s := { s with outputText := some (payloadStr cfg checked) })
      (L.keep hw₁ ⟨rfl, rfl, rfl, rfl, rfl, rfl, rfl, rfl, fun _ => rfl⟩) hs (Or.inl (by decide))
      fun s₁ w₂ h₁ hw₂ => ?_
  have hs₁ : s₁.status.isWorking = true := by rw [h₁.status]; rfl
  exact L.work_bind writeMemory_calm hs₁ hw₂ fun _ w₃ hw₃ =>
    L.transition_bind hw₃ hs₁ (Or.inl (by decide)) fun s₂ w₄ _ hw₄ =>
      L.emit_bind hw₄ fun w₅ hw₅ => Safe.pure hw₅

theorem repair_safe (hw : Copy w s) (hs : s.status.isWorking = true) :
    Ticks cfg A R t (Post Copy Err id) (repair s) w := by
  refine L.transition_bind (L.keep hw ⟨rfl, rfl, rfl, rfl, rfl, rfl, rfl, rfl, fun _ => rfl⟩) hs
    (Or.inl (by decide)) fun s₁ w₁ h₁ hw₁ => ?_
  exact L.transition_safe hw₁ (by rw [h₁.status]; rfl) (Or.inl (by decide))

/-- `_verify_and_complete`. -/
theorem verifyAndComplete_safe (hw : Copy w s) (hs : s.status.isWorking = true) :
    Ticks cfg A R t (Post Copy Err id) (verifyAndComplete cfg s agent stepId) w := by
  refine L.transition_bind hw hs (Or.inl (by decide)) fun s₁ w₁ h₁ hw₁ => ?_
  have hs₁ : s₁.status.isWorking = true := by rw [h₁.status]; rfl
  refine L.work_bind (await_calm rfl) hs₁ hw₁ fun results w₂ hw₂ => L.emit_bind hw₂ fun w₃ hw₃ => ?_
  split
  · exact L.compose_safe hw₃ hs₁
  · split
    · exact L.repair_safe hw₃ hs₁
    · exact Safe.throw ⟨s₁, hw₃, L.raises _ _ hs₁ rfl⟩

/-! ### The loop -/

/-- `_execute_action`, in PLANNING. -/
theorem executeAction_safe {action : PlannedAction V} (hw : Copy w s) (hs : s.status = .planning)
    (hserve : strict → Serves s action) :
    Ticks cfg A R t (Post Copy Err id) (executeAction cfg s agent action) w := by
  have hwork : s.status.isWorking = true := by rw [hs]; rfl
  have hstep : Copy w { s with stepCount := s.stepCount + 1 } :=
    L.keep hw ⟨rfl, rfl, rfl, rfl, rfl, rfl, rfl, rfl, fun _ => rfl⟩
  have hserve' : strict → Serves { s with stepCount := s.stepCount + 1 } action :=
    fun hst => (hserve hst).congr rfl rfl rfl
  unfold executeAction
  cases htype : action.type with
  | clarify =>
    refine L.transition_bind (s := { s with
        stepCount := s.stepCount + 1, pausePayload := some (.clarification action.description) })
      (L.keep hw ⟨rfl, rfl, rfl, rfl, rfl, rfl, rfl, rfl, fun h => ?_⟩) hwork (Or.inl (by decide))
      fun s₁ w₁ _ hw₁ => L.emit_bind hw₁ fun w₂ hw₂ => Safe.pure hw₂
    rw [hs] at h; cases h
  | tool => exact L.executeTool_safe hstep hs htype hserve'
  | model => exact L.executeModel_safe hstep hwork htype hserve'
  | complete => exact L.verifyAndComplete_safe hstep hwork
  | fail =>
    exact L.transition_bind (s := { s with
        stepCount := s.stepCount + 1, error := some action.description })
      (L.keep hw ⟨rfl, rfl, rfl, rfl, rfl, rfl, rfl, rfl, fun _ => rfl⟩) hwork (Or.inl (by decide))
      fun s₁ w₁ _ hw₁ => L.emit_bind hw₁ fun w₂ hw₂ => Safe.pure hw₂
  | approve => exact Safe.throw ⟨s, hw, L.raises _ _ hwork rfl⟩

/-- The PLANNING branch of the loop. -/
theorem planStep_safe (hw : Copy w s) (hs : s.status = .planning) :
    Ticks cfg A R t (Post Copy Err id) (planStep cfg s agent) w := by
  have hwork : s.status.isWorking = true := by rw [hs]; rfl
  refine L.work_bind (Calm.raiseIf rfl) hwork hw fun _ w₁ hw₁ =>
    Safe.bind (Safe.call fun w₂ hr hv a ha r w₃ hact => ?_)
  have hact' := Sem.act_of_ticking hact
  obtain ⟨hv₃, hr₃, hw₃, he⟩ := L.background s _ rfl true w₂ a r w₃ hv (L.stable s w₁ w₂ hr hw₁) ha hact'
  refine ⟨hv₃, hr₃, ?_⟩
  cases r with
  | error e => exact ⟨s, hw₃, he e rfl⟩
  | ok plan =>
    obtain ⟨c, rfl, hc⟩ := done_of_act_ok hact'
    cases hc
    dsimp only
    cases hp : plan.actions with
    | nil => exact Safe.throw ⟨s, hw₃, L.raises _ _ hwork rfl⟩
    | cons action rest =>
      refine L.emit_bind (s := { s with summary := { s.summary with
          decisions := s.summary.decisions ++ [plan.decisionSummary] } })
        (L.keep hw₃ ⟨rfl, rfl, rfl, rfl, rfl, rfl, rfl, rfl, fun _ => rfl⟩) fun w₄ hw₄ => ?_
      exact L.executeAction_safe hw₄ hs fun hst =>
        (L.plan w₂ s agent plan ha hst action rest hp).congr rfl rfl rfl

/-- The RECEIVED branch of `_execute`. -/
theorem receive_safe (hw : Copy w s) (hs : s.status = .received) :
    Ticks cfg A R t (Post Copy Err id) (receive s agent) w := by
  have hok : validateTransition s.status .validating = .ok () := by rw [hs]; rfl
  refine Safe.bind ((Safe.ends ?_ transition_ends).mono (Q := fun x w' => Post Copy Err id x w' ∧
    ∀ a, x = .ok a → Saves .validating s a) fun x w₁ h => ?_)
  · refine Safe.bind (Safe.lift ?_)
    rw [hok]
    exact L.saveAs_safe hw (by rw [hs]; exact Or.inl (by decide)) fun h => by cases h
  · cases x with
    | error e => exact h.1
    | ok s₁ =>
      have hs₁ : s₁.status.isWorking = true := by rw [(h.2 s₁ rfl).status]; rfl
      refine L.work_bind policyValue_calm hs₁ h.1 fun checked w₂ hw₂ => ?_
      refine L.transition_safe (L.keep hw₂ (withInput_same checked)) ?_ (Or.inl (by decide))
      rw [(withInput_same checked).status]; exact hs₁

/-- The BUILDING_CONTEXT branch of the loop. -/
theorem retrieve_safe (hw : Copy w s) (hs : s.status.isWorking = true) :
    Ticks cfg A R t (Post Copy Err id) (retrieve cfg s agent) w := by
  refine L.work_bind policyValue_calm hs hw fun checked w₁ hw₁ => ?_
  have same := withInput_same (s := s) checked
  have hs₁ : (withInput s checked).status.isWorking = true := by rw [same.status]; exact hs
  refine L.work_bind (Calm.raiseIf rfl) hs₁ (L.keep hw₁ same) fun _ w₂ hw₂ =>
    L.work_bind (await_calm rfl) hs₁ hw₂ fun built w₃ hw₃ => ?_
  refine L.work_bind (s := { withInput s checked with messages := built.1, citations := built.2 })
    policyValue_calm hs₁ (L.keep hw₃ ⟨rfl, rfl, rfl, rfl, rfl, rfl, rfl, rfl, fun _ => rfl⟩)
    fun checked' w₄ hw₄ => ?_
  dsimp only
  split
  · rename_i ms
    exact L.emit_bind (s := { withInput s checked with messages := ms, citations := built.2 })
      (L.keep hw₄ ⟨rfl, rfl, rfl, rfl, rfl, rfl, rfl, rfl, fun _ => rfl⟩)
      fun w₅ hw₅ => L.transition_safe hw₅ hs₁ (Or.inl (by decide))
  · exact L.emit_bind hw₄ fun w₅ hw₅ => L.transition_safe hw₅ hs₁ (Or.inl (by decide))

/-- The loop ends with a settled run. -/
def Settles (Copy : World V → RunState V → Prop) (Err : RunStatus → Exn → Prop)
    (x : Except Exn (RunState V)) (w : World V) : Prop :=
  Post Copy Err id x w ∧ ∀ s, x = .ok s → s.status.isSettled = true

omit L in
theorem Settles.error {e : Exn} (h : Post (α := RunState V) Copy Err id (.error e) w) :
    Settles Copy Err (.error e) w :=
  ⟨h, fun s h' => by cases h'⟩

omit L in
/-- A step of the driver, and what follows it. -/
theorem settles_bind {p : Task V α} {k : α → Task V (RunState V)} {h : α → RunState V}
    (hp : Ticks cfg A R t (Post Copy Err h) p w)
    (hk : ∀ a w', Copy w' (h a) → Ticks cfg A R t (Settles Copy Err) (k a) w') :
    Ticks cfg A R t (Settles Copy Err) (p >>= k) w := by
  refine Safe.bind (hp.mono fun x w' hx => ?_)
  cases x with
  | ok a => exact hk a w' hx
  | error e => exact Settles.error hx

omit L in
/-- A task that spins never goes on. -/
theorem spin_safe {Q : Except Exn (RunState V) → World V → Prop} :
    Ticks cfg A R t Q (do await .spin; Pure.pure s) w := by
  refine Safe.bind (Safe.call fun w₁ _ _ a _ r w₂ hact => ?_)
  obtain ⟨C, ⟨c, hc⟩ | ⟨e, -, hl, -⟩⟩ := Config.act_cases (Sem.act_of_ticking hact)
  · cases hc
  · cases hl

/-- One turn of the loop, with `next` in PLANNING. -/
theorem turn_safe {next : RunState V → Task V (RunState V)} (hw : Copy w s)
    (hs : s.status ≠ .received) (hset : ¬ s.status.isSettled = true)
    (hnext : ∀ s' w', Copy w' s' → s'.status = .planning →
      Ticks cfg A R t (Settles Copy Err) (next s') w') :
    Ticks cfg A R t (Settles Copy Err) (do
      Prog.raiseIf (s.stepCount ≥ agent.maxSteps)
        (.budgetExceeded s!"maximum step limit {agent.maxSteps} reached")
      Prog.lift (enforceBudget s agent)
      let s ← if s.status = .buildingContext then retrieve cfg s agent else Pure.pure s
      if s.status = .planning then next s else do
        await .spin
        Pure.pure s) w := by
  have hwork := RunStatus.isWorking_of_not_settled hs hset
  have checked : ∀ {p : Task V Unit} {k : Unit → Task V (RunState V)} {w : World V},
      Background (fun e => e.isFailure = true) p → Copy w s →
      (∀ w', Copy w' s → Ticks cfg A R t (Settles Copy Err) (k ()) w') →
      Ticks cfg A R t (Settles Copy Err) (p >>= k) w := by
    intro p k w hp hw hk
    refine Safe.bind ((L.calm hp (fun e he => L.raises _ e hwork he) hw).mono fun x w' h => ?_)
    cases x with
    | ok _ => exact hk w' h.1
    | error e => exact Settles.error ⟨s, h.1, h.2 e rfl⟩
  have go : ∀ s' w', Copy w' s' → Ticks cfg A R t (Settles Copy Err)
      (if s'.status = .planning then next s' else do await .spin; Pure.pure s') w' := by
    intro s' w' hw'
    split
    · rename_i h; exact hnext s' w' hw' h
    · exact spin_safe
  refine checked (Calm.raiseIf rfl) hw fun w₁ hw₁ =>
    checked (Calm.lift fun _ => enforceBudget_eq_error) hw₁ fun w₂ hw₂ => ?_
  dsimp only
  split
  · exact settles_bind (L.retrieve_safe hw₂ hwork) go
  · exact go s w₂ hw₂

/-- The `while` loop of `_execute`, past RECEIVED. -/
theorem loop_safe {fuel : Nat} (hw : Copy w s) (hs : s.status ≠ .received) :
    Ticks cfg A R t (Settles Copy Err) (loop cfg agent fuel s) w := by
  induction fuel generalizing s w with
  | zero =>
    unfold loop
    split
    · rename_i h; exact Safe.pure ⟨hw, fun s' h' => by cases h'; exact h⟩
    · rename_i hset
      exact L.turn_safe hw hs hset fun s' w' _ _ => spin_safe
  | succ fuel ih =>
    unfold loop
    split
    · rename_i h; exact Safe.pure ⟨hw, fun s' h' => by cases h'; exact h⟩
    · rename_i hset
      refine L.turn_safe hw hs hset fun s' w' hw' hs' =>
        Safe.bind (((L.planStep_safe hw' hs').ends planStep_ends).mono fun x w'' h => ?_)
      cases x with
      | ok s'' => exact ih h.1 (h.2 s'' rfl).ne_received
      | error e => exact Settles.error h.1

/-- **`_execute` ends with a settled copy of the run**, or raises where the exception can be
    dealt with. -/
theorem execute_safe (hw : Copy w s) :
    Ticks cfg A R t (Settles Copy Err) (execute cfg s agent) w := by
  unfold execute
  split
  · rename_i hs
    refine Safe.bind (((L.receive_safe hw hs).ends receive_ends).mono fun x w' h => ?_)
    cases x with
    | ok s' => exact L.loop_safe h.1 (by rw [(h.2 s' rfl).2]; decide)
    | error e => exact Settles.error h.1
  · rename_i hs
    exact L.loop_safe hw hs

/-! ### The whole driver -/

section
variable {runId tenantId : String}

omit L in
/-- Reading the run gives a copy of it. -/
theorem requireState_bind {G : World V → Prop} (hG : R.Stable t G) (hw : G w)
    (hidle : ∀ o : Op V, o.isBackground = true →
      Mild cfg.sem A R t (fun _ => True) (fun _ => True) o)
    (hfind : ∀ w s, R.valid w → G w → w.runs.find runId tenantId = some s → Copy w s)
    {Q : Except Exn β → World V → Prop} (hQ : ∀ e w', Q (.error e) w')
    {f : RunState V → Task V β} (hf : ∀ s w', Copy w' s → Ticks cfg A R t Q (f s) w') :
    Ticks cfg A R t Q (requireState runId tenantId >>= f) w := by
  refine Safe.bind (Safe.bind (Safe.call fun w₁ hr hv a ha r w₂ hact => ?_))
  have hact' := Sem.act_of_ticking hact
  obtain ⟨hv₂, hr₂, -, -⟩ := hidle _ rfl true w₁ a r w₂ hv trivial ha hact'
  refine ⟨hv₂, hr₂, ?_⟩
  cases r with
  | error e => exact hQ e w₂
  | ok x =>
    cases x with
    | none => exact Safe.throw (hQ _ w₂)
    | some s =>
      obtain ⟨c, -, hc⟩ := done_of_act_ok hact'
      simp only [World.effect, Option.some.injEq, Prod.mk.injEq, Except.ok.injEq] at hc
      obtain ⟨hs, rfl⟩ := hc
      exact hf s w₁ (hfind w₁ s hv (hG w w₁ hr hw) hs)

theorem settle_any {target : RunStatus} {body : RunState V → EventBody V} (hw : Copy w s)
    (hp : target ≠ .awaitingApproval) :
    Ticks cfg A R t (fun _ _ => True) (do
      let s ← transition s target
      emit s (body s) none) w := by
  refine Safe.bind ((L.transition_any hw hp).mono fun x w₁ h => ?_)
  cases x with
  | error e => trivial
  | ok s₁ =>
    exact (L.calm (X := fun _ => False) emit_calm (fun _ h => h.elim) (h s₁ rfl)).mono
      fun _ _ _ => trivial

variable {G : World V → Prop} (hG : R.Stable t G)
  (hidle : ∀ o : Op V, o.isBackground = true →
    Mild cfg.sem A R t (fun _ => True) (fun _ => True) o)
  (hfind : ∀ w s, R.valid w → G w → w.runs.find runId tenantId = some s → Copy w s)
include hG hidle hfind

theorem timedOut_safe (hw : G w) :
    Ticks cfg A R t (fun _ _ => True) (timedOut runId tenantId) w := by
  refine requireState_bind hG hw hidle hfind (fun _ _ => trivial) fun s w₁ hw₁ => ?_
  split
  · exact Safe.pure trivial
  · exact L.settle_any hw₁ (by decide)

theorem failed_safe {e : Exn} (hw : G w) :
    Ticks cfg A R t (fun _ _ => True) (failed runId tenantId e) w := by
  refine requireState_bind hG hw hidle hfind (fun _ _ => trivial) fun s w₁ hw₁ => ?_
  split
  · exact Safe.pure trivial
  · exact L.settle_any (L.keep hw₁ ⟨rfl, rfl, rfl, rfl, rfl, rfl, rfl, rfl, fun _ => rfl⟩) (by decide)

theorem cancelled_safe (hw : G w) :
    Ticks cfg A R t (fun _ _ => True) (cancelled runId tenantId) w := by
  refine requireState_bind hG hw hidle hfind (fun _ _ => trivial) fun s w₁ hw₁ => ?_
  split
  · exact Safe.pure trivial
  · rename_i hterm
    refine Safe.bind ((L.calm (X := fun _ => False) (await_calm rfl) (fun _ h => h.elim) hw₁).mono
      fun x w₂ h => ?_)
    cases x with
    | error e => trivial
    | ok shutdown =>
      dsimp only
      split
      · refine Safe.bind ((L.saveAs_safe h.1 (Or.inr ⟨by simpa using hterm, rfl⟩) ?_).mono
          fun x w₃ _ => ?_)
        · cases s.status <;> simp [RunStatus.recoveryStatus]
        · cases x <;> trivial
      · exact L.settle_any h.1 (by decide)

variable (hcopy : ∀ w s, Copy w s → G w)
include hcopy

omit hG hidle hfind in
/-- What raises in the driver's work leaves a copy, and with it what is known of the run. -/
theorem executeTimed_safe (hw : Copy w s) :
    Ticks cfg A R t (fun x w' => ∀ e, x = .error e → G w') (executeTimed cfg s agent) w := by
  have timer : cfg.sem.ticking.TimerAdds := fun _ _ _ _ h => h
  have settles : ∀ {x : Except Exn (RunState V)} {w' : World V} {e : Exn}, Settles Copy Err x w' →
      x = .error e → G w' := by
    rintro x w' e h rfl
    obtain ⟨s', hs', -⟩ := h.1
    exact hcopy w' s' hs'
  refine Safe.bind ((L.calm (X := fun _ => False) remainingSeconds_aside.background
    (fun _ h => h.elim) hw).mono fun x w₁ h => ?_)
  cases x with
  | error e => exact fun _ _ => hcopy w₁ s h.1
  | ok remaining =>
    cases remaining with
    | none =>
      refine Safe.bind ((L.execute_safe h.1).mono fun x w₂ hx => ?_)
      cases x with
      | ok s' => exact fun e he => nomatch he
      | error e => exact fun _ _ => settles hx rfl
    | some _ =>
      refine Safe.bind (Safe.handle ((Safe.of_ticking timer (L.execute_safe h.1)).2.mono
        fun x w₂ hx => ?_))
      cases x with
      | ok s' => exact fun e he => nomatch he
      | error e => exact fun _ _ => settles hx rfl

/-- A driver keeps the contract, if what is known of its run makes the stored record a copy. -/
theorem drive_under (hw : G w) :
    Safe cfg.sem A R t (fun _ _ => True) (drive cfg runId tenantId) w := by
  refine (Safe.of_ticking timerAdds ?_).1
  refine requireState_bind hG hw hidle hfind (fun _ _ => trivial) fun s w₁ hw₁ => ?_
  refine Safe.bind ((L.calm (X := fun _ => False) (await_calm rfl) (fun _ h => h.elim) hw₁).mono
    fun x w₂ h => ?_)
  cases x with
  | error e => trivial
  | ok agent =>
    refine Safe.bind (Safe.mono (Q := fun _ _ => True) ?_ fun x w₃ _ => ?_)
    · refine Safe.handle ((L.executeTimed_safe hcopy h.1).mono fun x w₃ hx => ?_)
      cases x with
      | ok u => trivial
      | error e =>
        have hw₃ := hx e rfl
        cases e with
        | timeoutError => exact L.timedOut_safe hG hidle hfind hw₃
        | cancelled => exact L.cancelled_safe hG hidle hfind hw₃
        | deadline => exact L.cancelled_safe hG hidle hfind hw₃
        | _ => exact L.failed_safe hG hidle hfind hw₃
    · cases x with
      | error e => trivial
      | ok u =>
        have reads : (do let _ ← requireState runId tenantId; Pure.pure () : Task V Unit).Uses
            fun o => o.isBackground = true := by
          refine Uses.bind (Uses.bind (Uses.call rfl) fun state => ?_) fun _ => Uses.pure _
          cases state <;> trivial
        refine (Safe.of_calm (G := fun _ => True) (X := fun _ => True) (fun _ _ _ h => h)
          (Calm.of_uses (reads.mono fun o ho b w a r w' hv hg ha hact => ?_) fun _ => trivial)
          trivial).mono fun _ _ _ => trivial
        exact hidle o ho true w a r w' hv hg ha (Sem.act_of_ticking hact)

omit hG hidle hfind hcopy in
/-- **A driver keeps the contract.** -/
theorem drive_safe (hidle : ∀ o : Op V, o.isBackground = true →
      Mild cfg.sem A R t (fun _ => True) (fun _ => True) o)
    (hfind : ∀ w s, R.valid w → w.runs.find runId tenantId = some s → Copy w s) :
    Safe cfg.sem A R t (fun _ _ => True) (drive cfg runId tenantId) w :=
  L.drive_under (G := fun _ => True) (fun _ _ _ h => h) hidle (fun w s hv _ => hfind w s hv)
    (fun _ _ _ => trivial) trivial

end

end Laws

end

end TracciaRuntime
