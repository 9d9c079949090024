/-
  What the driver's programs return.

  * `Carried s s'`: `s'` is a later copy of `s` with the same status and the same
    tool calls;
  * `executeAction_ends`: an action takes one step and hands back a status from which
    the loop goes on or ends;
  * `loop_fuel`: the steps an agent has left bound the turns of the loop, so that
    the loop of the model is the `while` loop of `_execute`.
-/
import TracciaRuntime.Runtime.Runtime
import TracciaRuntime.Proof.Executor

namespace TracciaRuntime

open Py Async AgentRuntime

variable {V : Type} {cfg : Config V} {s : RunState V} {agent : AgentDefinition V}

open Prog

/-- `s'` has the status, the step count and the tool calls of `s`. -/
structure Carried (s s' : RunState V) : Prop where
  status : s'.status = s.status
  stepCount : s'.stepCount = s.stepCount
  approved : s'.approvedToolCallIds = s.approvedToolCallIds
  completed : s'.completedToolCallIds = s.completedToolCallIds
  pending : s'.pendingToolCalls = s.pendingToolCalls

/-- `s'` is `s` with a new status, written once more. -/
def Saves (target : RunStatus) (s s' : RunState V) : Prop :=
  ∃ now, s' = { s with status := target, updatedAt := now, version := s.version + 1 }

theorem saveAs_ends {target : RunStatus} : (saveAs s target).Ends (Saves target s) :=
  Ends.after _ fun now => Ends.after _ fun _ => Ends.pure ⟨now, rfl⟩

theorem transition_ends {target : RunStatus} : (transition s target).Ends (Saves target s) :=
  Ends.after _ fun _ => saveAs_ends

theorem Carried.refl : Carried s s := ⟨rfl, rfl, rfl, rfl, rfl⟩

theorem Carried.trans {s₁ s₂ s₃ : RunState V} (h₁ : Carried s₁ s₂) (h₂ : Carried s₂ s₃) :
    Carried s₁ s₃ :=
  ⟨h₂.status.trans h₁.status, h₂.stepCount.trans h₁.stepCount, h₂.approved.trans h₁.approved,
    h₂.completed.trans h₁.completed, h₂.pending.trans h₁.pending⟩

/-! ## Model calls -/

theorem attemptModel_ends {request : ModelRequest V} {profiles : List (ModelProfile V)}
    {stepId : String} :
    (attemptModel s agent request profiles stepId).Ends fun x => Carried s x.2 := by
  refine Ends.handle (Ends.after _ fun response => Ends.pure ?_) fun e => ?_
  · split <;> exact ⟨rfl, rfl, rfl, rfl, rfl⟩
  · cases e <;> first | exact Ends.pure Carried.refl | exact Ends.throw _

theorem backOff_ends {attempt : Nat} (h : s.status = .invokingModel) :
    (backOff s agent attempt).Ends (Carried s) := by
  refine transition_ends.bind fun s₁ h₁ => Ends.after _ fun _ => transition_ends.mono ?_
  obtain ⟨now, rfl⟩ := h₁
  rintro s₂ ⟨now, rfl⟩
  exact ⟨h.symm, rfl, rfl, rfl, rfl⟩

theorem modelWithRetry_ends {profiles : List (ModelProfile V)} {stepId : String}
    {attempt rest : Nat} {request : ModelRequest V} (h : s.status = .invokingModel) :
    (modelWithRetry agent profiles stepId attempt rest s request).Ends fun x => Carried s x.2 := by
  induction rest generalizing attempt s request with
  | zero =>
    refine attemptModel_ends.bind fun x hx => ?_
    cases x.1 with
    | ok response => exact Ends.pure hx
    | error f => exact Ends.throw _
  | succ rest ih =>
    refine attemptModel_ends.bind fun x hx => ?_
    cases x.1 with
    | ok response => exact Ends.pure hx
    | error f =>
      dsimp only
      split
      · have hx' := hx.status.trans h
        refine Ends.after _ fun _ => Ends.after _ fun request =>
          (backOff_ends hx').bind fun s' h' => ?_
        exact (ih (h'.status.trans hx')).mono fun y hy => hx.trans (h'.trans hy)
      · exact Ends.throw _

theorem load_ends {σ : Type} {P : σ → Prop} {lib : Lib V} {policies : Dict String CachePolicy}
    {policyName ns : String} {material : V} {context : CacheContext} {future : Nat} {k : String}
    {loader : Task V (V × σ)} {tags : List String} (h : loader.Ends fun x => P x.2) :
    (CacheService.load lib policies policyName ns material context future k loader tags).Ends
      fun x => P x.2 := by
  refine Ends.ensure (Ends.handle (h.bind fun x hx => ?_) fun e => ?_)
  · exact Ends.after _ fun _ => Ends.after _ fun _ => Ends.pure hx
  · exact Ends.after _ fun _ => Ends.throw _

theorem getOrSetJson_ends {σ : Type} {P : σ → Prop} {lib : Lib V}
    {policies : Dict String CachePolicy} {policyName ns : String} {material : V}
    {context : CacheContext} {x₀ : σ} {loader : Task V (V × σ)} {tags : List String} (h₀ : P x₀)
    (h : loader.Ends fun x => P x.2) :
    (CacheService.getOrSetJson lib policies policyName ns material context x₀ loader tags).Ends
      fun x => P x.2 := by
  refine Ends.after _ fun cached => ?_
  cases cached with
  | some v => exact Ends.pure h₀
  | none =>
    dsimp only
    split
    · refine Ends.after _ fun k => Ends.after _ fun x => ?_
      split
      · exact load_ends h
      · exact Ends.after _ fun v => Ends.pure h₀
    · exact h.bind fun x hx => Ends.pure hx

theorem modelResponse_ends {request : ModelRequest V} {profiles : List (ModelProfile V)}
    {stepId : String} (h : s.status = .invokingModel) :
    (modelResponse cfg s agent request profiles stepId).Ends fun x => Carried s x.2 := by
  have generate : (generateResponse s agent request profiles stepId).Ends fun x => Carried s x.2 :=
    modelWithRetry_ends h
  unfold modelResponse
  split
  · exact generate.bind fun x hx => Ends.pure hx
  · split
    · exact generate.bind fun x hx => Ends.pure hx
    · refine (getOrSetJson_ends Carried.refl (generate.bind fun x hx => Ends.pure hx)).bind
        fun x hx => ?_
      split
      · exact Ends.throw _
      · exact Ends.pure hx

/-! ## Actions -/

/-- The statuses from which a turn of the loop takes a step. -/
def RunStatus.isHead (a : RunStatus) : Bool := a = .buildingContext || a = .planning

/-- The run has taken `n` steps, and the loop can go on or ends. -/
structure Advanced (n : Nat) (s : RunState V) : Prop where
  stepCount : s.stepCount = n
  status : (s.status.isHead || s.status.isSettled) = true

theorem Saves.advances {target : RunStatus} {n : Nat} {s' : RunState V} (h : Saves target s s')
    (hs : s.stepCount = n) (ht : (target.isHead || target.isSettled) = true) : Advanced n s' := by
  obtain ⟨now, rfl⟩ := h
  exact ⟨hs, ht⟩

theorem Advanced.ne_received {n : Nat} (h : Advanced n s) : s.status ≠ .received := by
  intro hs
  have := h.status
  rw [hs] at this
  cases this

theorem Saves.stepCount {target : RunStatus} {s' : RunState V} (h : Saves target s s') :
    s'.stepCount = s.stepCount := by
  obtain ⟨now, rfl⟩ := h; rfl

theorem Saves.status {target : RunStatus} {s' : RunState V} (h : Saves target s s') :
    s'.status = target := by
  obtain ⟨now, rfl⟩ := h; rfl

theorem executeModel_ends {action : PlannedAction V} {n : Nat} (hn : s.stepCount = n) :
    (executeModel cfg s agent action).Ends (Advanced n) := by
  refine transition_ends.bind fun s₁ h₁ => Ends.after _ fun _ => Ends.after _ fun _ =>
    Ends.after _ fun _ => (modelResponse_ends h₁.status).bind fun x hx => Ends.after _ fun _ =>
      Ends.after _ fun _ => Ends.after _ fun _ => transition_ends.mono fun s₂ h₂ => ?_
  exact h₂.advances (hx.stepCount.trans (h₁.stepCount.trans hn)) (by decide)

theorem executeTool_ends {action : PlannedAction V} {n : Nat} (hn : s.stepCount = n) :
    (executeTool cfg s agent action).Ends (Advanced n) := by
  refine Ends.after _ fun _ => Ends.after _ fun d => Ends.after _ fun decision => ?_
  split
  · refine Ends.after _ fun approval => transition_ends.bind fun s₁ h₁ =>
      Ends.after _ fun _ => Ends.pure ?_
    exact h₁.advances hn (by decide)
  · refine transition_ends.bind fun s₁ h₁ => Ends.after _ fun _ => Ends.after _ fun _ =>
      Ends.after _ fun _ => Ends.after _ fun _ => transition_ends.mono fun s₂ h₂ => ?_
    exact h₂.advances (h₁.stepCount.trans hn) (by decide)

theorem verifyAndComplete_ends {stepId : String} {n : Nat} (hn : s.stepCount = n) :
    (verifyAndComplete cfg s agent stepId).Ends (Advanced n) := by
  refine transition_ends.bind fun s₁ h₁ => Ends.after _ fun results => Ends.after _ fun _ => ?_
  split
  · refine Ends.after _ fun checked => transition_ends.bind fun s₂ h₂ => Ends.after _ fun _ =>
      transition_ends.bind fun s₃ h₃ => Ends.after _ fun _ => Ends.pure ?_
    exact h₃.advances (h₂.stepCount.trans (h₁.stepCount.trans hn)) (by decide)
  · split
    · refine transition_ends.bind fun s₂ h₂ => transition_ends.mono fun s₃ h₃ => ?_
      exact h₃.advances (h₂.stepCount.trans (h₁.stepCount.trans hn)) (by decide)
    · exact Ends.throw _

/-- **An action takes one step.** -/
theorem executeAction_ends {action : PlannedAction V} {n : Nat} (hn : s.stepCount = n) :
    (executeAction cfg s agent action).Ends (Advanced (n + 1)) := by
  unfold executeAction
  cases action.type with
  | clarify =>
    refine transition_ends.bind fun s₁ h₁ => Ends.after _ fun _ => Ends.pure ?_
    exact h₁.advances (congrArg (· + 1) hn) (by decide)
  | tool => exact executeTool_ends (congrArg (· + 1) hn)
  | model => exact executeModel_ends (congrArg (· + 1) hn)
  | complete => exact verifyAndComplete_ends (congrArg (· + 1) hn)
  | fail =>
    refine transition_ends.bind fun s₁ h₁ => Ends.after _ fun _ => Ends.pure ?_
    exact h₁.advances (congrArg (· + 1) hn) (by decide)
  | approve => exact Ends.throw _

theorem planStep_ends :
    (planStep cfg s agent).Ends (Advanced (s.stepCount + 1)) := by
  refine Ends.after _ fun _ => Ends.after _ fun plan => ?_
  cases plan.actions with
  | nil => exact Ends.throw _
  | cons action rest => exact Ends.after _ fun _ => executeAction_ends rfl

theorem retrieve_ends : (retrieve cfg s agent).Ends fun s' =>
    s'.stepCount = s.stepCount ∧ s'.status = .planning := by
  have input : ∀ x, (withInput s x).stepCount = s.stepCount := by
    intro x; unfold withInput; split <;> rfl
  refine Ends.after _ fun checked => Ends.after _ fun _ => Ends.after _ fun built =>
    Ends.after _ fun checked' => Ends.after _ fun _ => transition_ends.mono fun s' h => ?_
  refine ⟨h.stepCount.trans ?_, h.status⟩
  split <;> exact input checked

theorem receive_ends : (receive s agent).Ends fun s' =>
    s'.stepCount = s.stepCount ∧ s'.status = .buildingContext := by
  refine transition_ends.bind fun s₁ h₁ => Ends.after _ fun checked =>
    transition_ends.mono fun s₂ h₂ => ⟨h₂.stepCount.trans ?_, h₂.status⟩
  unfold withInput
  split <;> exact h₁.stepCount

/-! ## The loop -/

/-- **The fuel of the loop is no bound**: from the steps that are left on, more turns do not
    change the program. -/
theorem loop_fuel {fuel : Nat} (h : agent.maxSteps ≤ fuel + s.stepCount) :
    loop cfg agent fuel s = loop cfg agent (fuel + 1) s := by
  induction fuel generalizing s with
  | zero =>
    have hmax : decide (s.stepCount ≥ agent.maxSteps) = true := decide_eq_true (by omega)
    unfold loop
    rw [hmax]
    split <;> rfl
  | succ fuel ih =>
    have turn : ∀ s', s'.stepCount = s.stepCount → s.stepCount < agent.maxSteps →
        (planStep cfg s' agent >>= loop cfg agent fuel) =
          planStep cfg s' agent >>= loop cfg agent (fuel + 1) := by
      intro s' hs' hlt
      refine planStep_ends.bind_congr fun s'' h'' => ih ?_
      have := h''.stepCount
      omega
    unfold loop
    split
    · rfl
    · by_cases hmax : s.stepCount ≥ agent.maxSteps
      · rw [decide_eq_true hmax]; rfl
      · congr 1; funext _; congr 1; funext _
        have hlt : s.stepCount < agent.maxSteps := by omega
        dsimp only
        split
        · refine retrieve_ends.bind_congr fun s' hs' => ?_
          split
          · exact turn s' hs'.1 hlt
          · rfl
        · refine Ends.bind_congr (Ends.pure (P := fun s' => s' = s) rfl) fun s' hs' => ?_
          split
          · exact turn s' (by rw [hs']) hlt
          · rfl

end TracciaRuntime
