/-
  The course of a driver, told by what it knows of its run.

  `K s h` is what a driver with the past `h` knows of the run `s`, and `E h` is what it knows
  after an exception.

  * `Retains`: the program only awaits what it may, and knows as much of the run that it returns;
  * `Ways`: what is needed for the steps that neither ask the model nor verify an output;
  * `Course`: the same with these two steps; `Course.execute`: `_execute`;
  * `getOrSetJson_returns`: a call of the cache service.
-/
import TracciaRuntime.Proof.Driver
import TracciaRuntime.Cache.Calls

namespace TracciaRuntime

open Py Async Prog AgentRuntime

variable {V : Type}

/-- The operations that write no run, ask no model and verify no output. -/
def Op.isRoutine : Op V → Bool
  | runsCreate _ | runsSave .. | generate .. | streamOpen .. | streamNext | verify .. => false
  | _ => true

/-- A program of such operations. -/
abbrev Routine {α : Type} (p : Task V α) : Prop := p.Uses fun o => o.isRoutine = true

/-- `s'` is `s` at the same version, after as many attempts and with the same usage. -/
structure Continues (s s' : RunState V) : Prop where
  id : s'.id = s.id
  version : s'.version = s.version
  status : s'.status = s.status
  attemptCount : s'.attemptCount = s.attemptCount
  usage : s'.summary.usage = s.summary.usage

section
variable {s : RunState V} {agent : AgentDefinition V}

theorem Continues.refl (s : RunState V) : Continues s s := ⟨rfl, rfl, rfl, rfl, rfl⟩

theorem withInput_continues (x : Option (Payload V)) : Continues s (withInput s x) := by
  unfold withInput
  split <;> exact ⟨rfl, rfl, rfl, rfl, rfl⟩

theorem emit_routine {body : EventBody V} {stepId : Option String} :
    Routine (emit s body stepId) :=
  Uses.bind (Uses.call rfl) fun _ => Uses.call rfl

theorem policyValue_routine {point : PolicyPoint} {payload : Payload V}
    {context : PolicyContext V} : Routine (policyValue point payload s context) := by
  refine Uses.bind (Uses.call rfl) fun decision => Uses.bind (Uses.call rfl) fun _ => ?_
  split <;> trivial

theorem remainingSeconds_routine : Routine (remainingSeconds s) := by
  unfold remainingSeconds
  split
  · trivial
  · exact Uses.bind (Uses.call rfl) fun _ => Uses.pure _

theorem execute_routine {cfg : Config V} {name : String} {arguments : Dict String V}
    {context : ToolContext} : Routine (ToolExecutor.execute cfg name arguments context) := by
  refine execute_calm.uses.mono fun o ho => ?_
  cases o with
  | runsCreate | runsSave | generate | streamOpen | streamNext | verify =>
    exact (ho.elim id id).elim
  | _ => rfl

theorem writeMemory_routine : Routine (writeMemory s agent) := by
  unfold writeMemory
  split
  · exact Uses.bind policyValue_routine fun _ => Uses.bind (Uses.call rfl) fun _ =>
      Uses.bind policyValue_routine fun _ => Uses.pure _
  · trivial

theorem create_routine {runId stepId tenantId proposedAction risk : String}
    {parameters : Dict String V} {expiresSeconds : Nat} :
    Routine (ApprovalService.create runId stepId tenantId proposedAction parameters risk
      expiresSeconds) :=
  Uses.bind (Uses.call rfl) fun _ => Uses.bind (Uses.call rfl) fun _ =>
    Uses.bind (Uses.call rfl) fun _ => Uses.pure _

theorem requireState_routine {runId tenantId : String} :
    Routine (requireState runId tenantId : Task V (RunState V)) := by
  refine Uses.bind (Uses.call rfl) fun state => ?_
  cases state <;> trivial

theorem composeResult_routine {cfg : Config V} {runId tenantId : String} :
    Routine (composeResult cfg runId tenantId) :=
  Uses.bind requireState_routine fun _ => Uses.bind (Uses.call rfl) fun _ =>
    Uses.bind (Uses.raiseIf _ _) fun _ => Uses.call rfl

theorem shutdown_routine : Routine (AgentRuntime.shutdown : Task V Unit) := by
  refine Uses.bind (Uses.call rfl) fun tasks => ?_
  split
  · exact Uses.pure _
  · refine Uses.bind (Uses.call rfl) fun _ => Uses.bind (Uses.call rfl) fun pending => ?_
    split
    · exact Uses.pure _
    · exact Uses.call rfl

/-- What `start` does but create the run is routine. -/
theorem start_uses {P : Op V → Prop} {request : RunRequest V}
    (hP : ∀ o : Op V, o.isRoutine = true → P o)
    (hcreate : ∀ s : RunState V, s.attemptCount = 0 → P (.runsCreate s)) :
    (start request).Uses P :=
  Uses.bind (Uses.call (hP _ rfl)) fun _ => Uses.bind (Uses.raiseIf _ _) fun _ =>
    Uses.bind (Uses.call (hP _ rfl)) fun _ => Uses.bind (Uses.call (hP _ rfl)) fun _ =>
      Uses.bind (Uses.call (hP _ rfl)) fun _ => Uses.bind (Uses.call (hP _ rfl)) fun _ =>
        Uses.bind (Uses.call (hcreate _ rfl)) fun _ =>
          Uses.bind (emit_routine.mono fun o ho => hP o ho) fun _ =>
            Uses.bind (Uses.call (hP _ rfl)) fun _ => Uses.pure _

end

/-! ## What is known -/

section
variable (may : Awaits V → Op V → Prop) (K : RunState V → Awaits V → Prop) (E : Awaits V → Prop)
  {α β : Type}

/-- What a program ends with. -/
def EndsKnown (g : α → RunState V) : Except Exn α → Awaits V → Prop
  | .ok a, h => K (g a) h
  | .error _, h => E h

/-- Who knows the run `s` may run the program, and knows what it returns. -/
def Retains (g : α → RunState V) (s : RunState V) (p : Task V α) : Prop :=
  ∀ h, K s h → p.Obeys may (EndsKnown K E g) h

/-- **What may be done, and what is known afterwards**, but for the model and the verifiers. -/
structure Ways : Prop where
  allows : ∀ o h, o.isRoutine = true → may h o
  keep : ∀ s o r h, o.isRoutine = true → K s h → K s (⟨o, r⟩ :: h)
  continues : ∀ s s' h, Continues s s' → K s h → K s' h
  save : ∀ s target, target ≠ .retrying → Retains may K E id s (saveAs s target)
  error : ∀ s h, K s h → E h

/-- The same with these. -/
structure Course (cfg : Config V) (agent : AgentDefinition V) : Prop extends Ways may K E where
  model : ∀ s action, Retains may K E id s (executeModel cfg s agent action)
  verify : ∀ s stepId, Retains may K E id s (verifyAndComplete cfg s agent stepId)

end

section
variable {may : Awaits V → Op V → Prop} {K : RunState V → Awaits V → Prop} {E : Awaits V → Prop}
  {cfg : Config V} {agent : AgentDefinition V} {s s' : RunState V} {α β : Type}
  {g : α → RunState V} {k : β → RunState V}

theorem Retains.bind {p : Task V α} {f : α → Task V β} (hp : Retains may K E g s p)
    (hf : ∀ a, Retains may K E k (g a) (f a)) : Retains may K E k s (p >>= f) := by
  refine fun h hs => Obeys.bind ((hp h hs).mono fun x h' hx => ?_)
  cases x with
  | ok a => exact hf a h' hx
  | error e => exact hx

/-- The same with what is known of the returned value. -/
theorem Retains.bind_ends {P : α → Prop} {p : Task V α} {f : α → Task V β}
    (hp : Retains may K E g s p) (he : p.Ends P) (hf : ∀ a, P a → Retains may K E k (g a) (f a)) :
    Retains may K E k s (p >>= f) := by
  refine fun h hs => Obeys.bind (((hp h hs).ends he).mono fun x h' hx => ?_)
  cases x with
  | ok a => exact hf a (hx.2 a rfl) h' hx.1
  | error e => exact hx.1

namespace Ways
variable (W : Ways may K E)
include W

theorem of_continues {p : Task V α} (hs : Continues s s') (hp : Retains may K E g s' p) :
    Retains may K E g s p :=
  fun h hk => hp h (W.continues s s' h hs hk)

theorem pure {a : α} (ha : Continues s (g a)) : Retains may K E g s (Pure.pure a) :=
  fun h hs => W.continues s (g a) h ha hs

theorem throw {e : Exn} : Retains may K E g s (throw e) := fun h hs => W.error s h hs

/-- A routine program, and what follows it. -/
theorem routine {p : Task V β} {f : β → Task V α} (hp : Routine p)
    (hf : ∀ b, Retains may K E g s (f b)) : Retains may K E g s (p >>= f) := by
  intro h hs
  refine Obeys.bind ((Obeys.of_uses (fun o h ho _ => W.allows o h ho)
    (fun o r h ho hk => W.keep s o r h ho hk) hp hs).mono fun x h' hx => ?_)
  cases x with
  | ok b => exact hf b h' hx
  | error e => exact W.error s h' hx

theorem transition {target : RunStatus} (ht : target ≠ .retrying) (hs : Continues s s') :
    Retains may K E id s (transition s' target) := by
  refine W.of_continues hs fun h hk => Obeys.bind (Obeys.lift ?_)
  cases validateTransition s'.status target with
  | ok _ => exact W.save s' target ht h hk
  | error e => exact W.error s' h hk

/-- A step that ends with an event. -/
theorem announced {target : RunStatus} {body : RunState V → EventBody V} {stepId : Option String}
    (ht : target ≠ .retrying) (hs : Continues s s') : Retains may K E id s (do
      let s ← AgentRuntime.transition s' target
      emit s (body s) stepId
      Pure.pure s) :=
  (W.transition ht hs).bind fun _ => W.routine emit_routine fun _ => W.pure (Continues.refl _)

/-! ### The steps -/

variable {action : PlannedAction V} {stepId : String}

theorem requestApproval {d : ToolDefinition V} {callId : String} {decision : PolicyDecision V} :
    Retains may K E id s (requestApproval cfg s agent action d callId decision) :=
  W.routine create_routine fun _ => W.announced (by decide) ⟨rfl, rfl, rfl, rfl, rfl⟩

theorem invokeTool {d : ToolDefinition V} {callId : String} :
    Retains may K E id s (invokeTool cfg s agent action d callId) :=
  (W.transition (by decide) (Continues.refl s)).bind fun _ => W.routine emit_routine fun _ =>
    W.routine execute_routine fun _ => W.routine emit_routine fun _ =>
      W.routine (Uses.call rfl) fun _ => W.transition (by decide) ⟨rfl, rfl, rfl, rfl, rfl⟩

theorem executeTool : Retains may K E id s (executeTool cfg s agent action) := by
  refine W.routine (Uses.raiseIf _ _) fun _ => W.routine (Uses.lift _) fun d =>
    W.routine (Uses.call rfl) fun decision => ?_
  split
  · exact W.requestApproval
  · exact W.invokeTool

theorem compose : Retains may K E id s (compose cfg s agent stepId) := by
  refine W.routine policyValue_routine fun checked => (W.transition ?_ ?_).bind fun s₁ =>
    W.routine writeMemory_routine fun _ => W.announced (by decide) (Continues.refl s₁)
  · decide
  · exact ⟨rfl, rfl, rfl, rfl, rfl⟩

theorem receive : Retains may K E id s (receive s agent) :=
  (W.transition (by decide) (Continues.refl s)).bind fun _ =>
    W.routine policyValue_routine fun checked =>
      W.transition (by decide) (withInput_continues checked)

theorem retrieve : Retains may K E id s (retrieve cfg s agent) := by
  refine W.routine policyValue_routine fun checked => W.routine (Uses.raiseIf _ _) fun _ =>
    W.routine (Uses.call rfl) fun built => W.routine policyValue_routine fun checked' =>
      W.routine emit_routine fun _ => W.transition (by decide) ?_
  have hs := withInput_continues (s := s) checked
  split <;> exact ⟨hs.id, hs.version, hs.status, hs.attemptCount, hs.usage⟩

/-- One turn of the loop, and what follows it. -/
theorem turn {next : RunState V → Task V (RunState V)}
    (hnext : ∀ s', Retains may K E id s' (next s')) : Retains may K E id s (do
      Prog.raiseIf (s.stepCount ≥ agent.maxSteps)
        (.budgetExceeded s!"maximum step limit {agent.maxSteps} reached")
      Prog.lift (enforceBudget s agent)
      let s ← if s.status = .buildingContext then AgentRuntime.retrieve cfg s agent else Pure.pure s
      if s.status = .planning then next s else do
        await .spin
        Pure.pure s) := by
  have go : ∀ s' : RunState V, Retains may K E id s'
      (if s'.status = .planning then next s' else do await .spin; Pure.pure s') := by
    intro s'
    split
    · exact hnext s'
    · exact W.routine (Uses.call rfl) fun _ => W.pure (Continues.refl s')
  refine W.routine (Uses.raiseIf _ _) fun _ => W.routine (Uses.lift _) fun _ => ?_
  dsimp only
  split
  · exact W.retrieve.bind go
  · exact go s

end Ways

namespace Course
variable (C : Course may K E cfg agent)
include C

theorem executeAction {action : PlannedAction V} :
    Retains may K E id s (executeAction cfg s agent action) := by
  have hstep : Continues s { s with stepCount := s.stepCount + 1 } := ⟨rfl, rfl, rfl, rfl, rfl⟩
  unfold AgentRuntime.executeAction
  cases action.type with
  | clarify | fail => exact C.announced (by decide) ⟨rfl, rfl, rfl, rfl, rfl⟩
  | tool => exact C.of_continues hstep C.executeTool
  | model => exact C.of_continues hstep (C.model _ _)
  | complete => exact C.of_continues hstep (C.verify _ _)
  | approve => exact C.throw

theorem planStep : Retains may K E id s (planStep cfg s agent) := by
  refine C.routine (Uses.raiseIf _ _) fun _ => C.routine (Uses.call rfl) fun plan => ?_
  cases plan.actions with
  | nil => exact C.throw
  | cons action rest =>
    refine C.routine emit_routine fun _ => C.of_continues ?_ C.executeAction
    exact ⟨rfl, rfl, rfl, rfl, rfl⟩

theorem loop {fuel : Nat} : Retains may K E id s (loop cfg agent fuel s) := by
  induction fuel generalizing s with
  | zero =>
    unfold AgentRuntime.loop
    split
    · exact C.pure (Continues.refl s)
    · exact C.turn fun s' => C.routine (Uses.call rfl) fun _ => C.pure (Continues.refl s')
  | succ fuel ih =>
    unfold AgentRuntime.loop
    split
    · exact C.pure (Continues.refl s)
    · exact C.turn fun s' => C.planStep.bind fun _ => ih

/-- **`_execute`.** -/
theorem execute : Retains may K E id s (execute cfg s agent) := by
  unfold AgentRuntime.execute
  split
  · exact C.receive.bind fun _ => C.loop
  · exact C.loop

end Course

end

/-! ## The cache service -/

section
variable {may : Awaits V → Op V → Prop} {cfg : Config V} {policies : Dict String CachePolicy}
  {policyName ns : String} {material : V} {context : CacheContext} {tags : List String} {α σ : Type}
  {x₀ : σ} {loader : Task V (V × σ)} {I : Awaits V → Prop} {L : V × σ → Awaits V → Prop}
  {h : Awaits V} (hmay : ∀ o h, o.isRoutine = true → may h o)
include hmay

/-- A routine program keeps what routine operations keep. -/
theorem Routine.returns {p : Task V α} (hp : Routine p)
    (hI : ∀ o r h, o.isRoutine = true → I h → I (⟨o, r⟩ :: h)) (h₀ : I h) :
    p.Returns may (fun _ => I) h :=
  Obeys.mono (Obeys.of_uses (fun o h ho _ => hmay o h ho) hI hp h₀) fun _ _ hI _ _ => hI

theorem load_returns (hL : ∀ y o r h, o.isRoutine = true → L y h → L y (⟨o, r⟩ :: h)) {future : Nat}
    {k : String} (hl : loader.Returns may L h) :
    (CacheService.load cfg.lib policies policyName ns material context future k loader tags).Returns
      may (fun y h' => y.1.2 = false ∧ L (y.1.1, y.2) h') h := by
  have hset : ∀ v, Routine
      (CacheService.setJson cfg.lib policies policyName ns material context v tags) :=
    fun v => (setJson_calm (P := fun o => o.isRoutine = true) fun _ _ _ _ => rfl).uses
  refine Returns.ensure (Returns.handle (hl.bind fun y h₁ hy => ?_) fun e h₁ => ?_) (fun h₁ => ?_)
    fun y h₁ hy => ?_
  · exact Returns.bind ((hset y.1).returns hmay (hL y) hy) fun _ h₂ hy =>
      Returns.bind (Q := fun _ => L y) (.call (hmay _ _ rfl) fun _ => hL _ _ _ _ rfl hy)
        fun _ h₃ hy => .pure ⟨rfl, hy⟩
  · exact Returns.bind (Q := fun _ _ => True) (.call (hmay _ _ rfl) fun _ => trivial)
      fun _ _ _ => .throw
  · exact Obeys.call (hmay _ _ rfl) fun _ => trivial
  · exact .call (hmay _ _ rfl) fun _ => ⟨hy.1, hL _ _ _ _ rfl hy.2⟩

/-- **The cache** gives what it has, or what its loader gives. -/
theorem getOrSetJson_returns (hI : ∀ o r h, o.isRoutine = true → I h → I (⟨o, r⟩ :: h))
    (hL : ∀ y o r h, o.isRoutine = true → L y h → L y (⟨o, r⟩ :: h)) (h₀ : I h)
    (hl : ∀ h', I h' → loader.Returns may L h') :
    (CacheService.getOrSetJson cfg.lib policies policyName ns material context x₀ loader tags).Returns
      may (fun y h' => y.1.2 = true ∧ y.2 = x₀ ∧ I h' ∨
        y.1.2 = false ∧ L (y.1.1, y.2) h') h := by
  have hget : Routine (CacheService.getJson cfg.lib policies policyName ns material context) :=
    (getJson_calm fun _ => rfl).uses
  refine Returns.bind (hget.returns hmay hI h₀) fun cached h₁ h₁I => ?_
  cases cached with
  | some v => exact .pure (.inl ⟨rfl, rfl, h₁I⟩)
  | none =>
    dsimp only
    split
    · refine Returns.bind (Q := fun _ => I) (.lift fun _ _ => h₁I) fun k h₂ h₂I =>
        Returns.bind (Q := fun _ => I) (.call (hmay _ _ rfl) fun _ => hI _ _ _ rfl h₂I)
          fun x h₃ h₃I => ?_
      split
      · exact (load_returns hmay hL (hl h₃ h₃I)).mono fun _ _ hy => .inr hy
      · exact Returns.bind (Q := fun _ => I)
          (.call (hmay _ _ rfl) fun _ => hI _ _ _ rfl h₃I)
          fun _ _ h₄I => .pure (.inl ⟨rfl, rfl, h₄I⟩)
    · exact (hl h₁ h₁I).bind fun y h₂ hy => .pure (.inr ⟨rfl, hy⟩)

end

end TracciaRuntime
