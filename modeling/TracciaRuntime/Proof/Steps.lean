/-
  What the programs of a driver await.

  * `Inner p`: `p` neither looks at the agent definition nor creates a run or
    publishes the end of one;
  * `Covers agent P`: `P` holds of everything that a driver with this definition
    awaits, but for the planner;
  * `executeAction_uses`, `driveWith_uses`: so it does.
-/
import TracciaRuntime.Proof.Progress

namespace TracciaRuntime

open Py Async AgentRuntime Prog

variable {V : Type} {cfg : Config V} {s : RunState V} {agent : AgentDefinition V}

/-! ## Inside the steps -/

/-- The operations inside the steps of a run: those that look at no agent definition, create no
    run and publish no end of one. -/
def Op.isInner : Op V → Bool
  | .plan .. | .buildContext .. | .verify .. | .spin => false
  | .runsCreate _ | .agentsGet .. | .agentsRegister _ | .compose .. => false
  | .publish e => !e.body.isTerminal
  | _ => true

/-- A program of such operations. -/
abbrev Inner {α : Type} (p : Task V α) : Prop := p.Uses fun o => o.isInner = true

theorem emit_inner {body : EventBody V} {stepId : Option String} (h : body.isTerminal = false) :
    Inner (emit s body stepId) :=
  Uses.bind (Uses.call rfl) fun _ => Uses.call (congrArg (!·) h)

theorem saveAs_inner {target : RunStatus} : Inner (saveAs s target) :=
  Uses.bind (Uses.call rfl) fun _ => Uses.bind (Uses.call rfl) fun _ => Uses.pure _

theorem transition_inner {target : RunStatus} : Inner (transition s target) :=
  Uses.bind (Uses.lift _) fun _ => saveAs_inner

theorem policyValue_inner {point : PolicyPoint} {payload : Payload V}
    {context : PolicyContext V} : Inner (policyValue point payload s context) := by
  refine Uses.bind (Uses.call rfl) fun decision => Uses.bind (Uses.call rfl) fun _ => ?_
  split <;> trivial

section
variable {request : ModelRequest V} {profiles : List (ModelProfile V)} {stepId : String}

theorem collect_inner {n : Nat} {parts : List String} {completed : Option (ModelResponse V)} :
    Inner (collect s stepId n parts completed) := by
  induction n generalizing parts completed with
  | zero => trivial
  | succ n ih =>
    refine Uses.bind (Uses.call rfl) fun event => ?_
    dsimp only
    split
    · exact Uses.bind (Uses.pure _) fun _ => ih
    · exact Uses.bind (emit_inner rfl) fun _ => Uses.bind (Uses.pure _) fun _ => ih

theorem attemptModel_inner : Inner (attemptModel s agent request profiles stepId) := by
  refine Uses.handle (Uses.bind ?_ fun _ => Uses.pure _) fun e => ?_
  · unfold requestModel
    split
    · refine Uses.bind (Uses.call rfl) fun n => Uses.bind collect_inner fun x => ?_
      split <;> trivial
    · exact Uses.call rfl
  · cases e <;> trivial

theorem nextRequest_inner {f : ProviderFailure} :
    Inner (nextRequest s agent request profiles f) := by
  unfold nextRequest
  split
  · split
    · trivial
    · exact Uses.bind (Uses.call rfl) fun _ => Uses.pure _
  · trivial

theorem backOff_inner {attempt : Nat} : Inner (backOff s agent attempt) :=
  Uses.bind transition_inner fun _ => Uses.bind (Uses.call rfl) fun _ => transition_inner

theorem modelWithRetry_inner {attempt rest : Nat} :
    Inner (modelWithRetry agent profiles stepId attempt rest s request) := by
  induction rest generalizing attempt s request with
  | zero =>
    refine Uses.bind attemptModel_inner fun x => ?_
    split <;> trivial
  | succ rest ih =>
    refine Uses.bind attemptModel_inner fun x => ?_
    split
    · trivial
    · split
      · exact Uses.bind (Uses.lift _) fun _ => Uses.bind nextRequest_inner fun _ =>
          Uses.bind backOff_inner fun _ => ih
      · trivial

end

section
variable {policies : Dict String CachePolicy} {policyName ns : String} {material : V}
  {context : CacheContext} {tags : List String} {σ : Type} {loader : Task V (V × σ)}

theorem load_inner {future : Nat} {k : String} (h : Inner loader) :
    Inner (CacheService.load cfg.lib policies policyName ns material context future k loader
      tags) := by
  refine Uses.ensure (Uses.handle (Uses.bind h fun x => ?_) fun e => ?_) (Uses.call rfl)
  · refine Uses.bind ?_ fun _ => Uses.bind (Uses.call rfl) fun _ => Uses.pure _
    exact (setJson_calm (P := fun o => o.isInner = true) fun _ _ _ _ => rfl).uses
  · exact Uses.bind (Uses.call rfl) fun _ => Uses.throw _

theorem getOrSetJson_inner {x₀ : σ} (h : Inner loader) :
    Inner (CacheService.getOrSetJson cfg.lib policies policyName ns material context x₀ loader
      tags) := by
  have lookup : Inner (CacheService.getJson cfg.lib policies policyName ns material context) :=
    (getJson_calm fun _ => rfl).uses
  refine Uses.bind lookup fun cached => ?_
  cases cached with
  | some v => trivial
  | none =>
    dsimp only
    split
    · refine Uses.bind (Uses.lift _) fun k => Uses.bind (Uses.call rfl) fun x => ?_
      split
      · exact load_inner h
      · exact Uses.bind (Uses.call rfl) fun _ => Uses.pure _
    · exact Uses.bind h fun _ => Uses.pure _

end

theorem modelResponse_inner {request : ModelRequest V} {profiles : List (ModelProfile V)}
    {stepId : String} : Inner (modelResponse cfg s agent request profiles stepId) := by
  have generate : Inner (generateResponse s agent request profiles stepId) :=
    modelWithRetry_inner
  unfold modelResponse
  split
  · exact Uses.bind generate fun _ => Uses.pure _
  · split
    · exact Uses.bind generate fun _ => Uses.pure _
    · refine Uses.bind (getOrSetJson_inner (Uses.bind generate fun _ => Uses.pure _)) fun x => ?_
      split <;> trivial

theorem execute_inner {name : String} {arguments : Dict String V} {context : ToolContext} :
    Inner (ToolExecutor.execute cfg name arguments context) := by
  refine execute_calm.uses.mono fun o ho => ?_
  cases o with
  | plan | buildContext | verify | spin | publish | runsCreate | agentsGet | agentsRegister | compose =>
    exact (ho.elim id id).elim
  | _ => rfl

variable {action : PlannedAction V}

theorem remainingSeconds_inner : Inner (remainingSeconds s) := by
  unfold remainingSeconds
  split
  · trivial
  · exact Uses.bind (Uses.call rfl) fun _ => Uses.pure _

theorem executeModel_inner : Inner (executeModel cfg s agent action) :=
  Uses.bind transition_inner fun _ => Uses.bind remainingSeconds_inner fun _ =>
    Uses.bind policyValue_inner fun _ => Uses.bind (emit_inner rfl) fun _ =>
      Uses.bind modelResponse_inner fun _ => Uses.bind policyValue_inner fun _ =>
        Uses.bind (emit_inner rfl) fun _ => Uses.bind (Uses.call rfl) fun _ => transition_inner

theorem executeTool_inner : Inner (executeTool cfg s agent action) := by
  refine Uses.bind (Uses.raiseIf _ _) fun _ => Uses.bind (Uses.lift _) fun d =>
    Uses.bind (Uses.call rfl) fun decision => ?_
  split
  · refine Uses.bind ?_ fun _ => Uses.bind transition_inner fun _ =>
      Uses.bind (emit_inner rfl) fun _ => Uses.pure _
    exact Uses.bind (Uses.call rfl) fun _ => Uses.bind (Uses.call rfl) fun _ =>
      Uses.bind (Uses.call rfl) fun _ => Uses.pure _
  · exact Uses.bind transition_inner fun _ => Uses.bind (emit_inner rfl) fun _ =>
      Uses.bind execute_inner fun _ => Uses.bind (emit_inner rfl) fun _ =>
        Uses.bind (Uses.call rfl) fun _ => transition_inner

theorem writeMemory_inner : Inner (writeMemory s agent) := by
  unfold writeMemory
  split
  · exact Uses.bind policyValue_inner fun _ => Uses.bind (Uses.call rfl) fun _ =>
      Uses.bind policyValue_inner fun _ => Uses.pure _
  · trivial

theorem repair_inner : Inner (repair s) :=
  Uses.bind transition_inner fun _ => transition_inner

theorem receive_inner : Inner (receive s agent) :=
  Uses.bind transition_inner fun _ => Uses.bind policyValue_inner fun _ => transition_inner

theorem requireState_inner {runId tenantId : String} :
    Inner (requireState runId tenantId : Task V (RunState V)) := by
  refine Uses.bind (Uses.call rfl) fun state => ?_
  cases state <;> trivial

/-! ## The steps -/

/-- `P` holds of what a driver with this definition awaits, but for the planner. -/
structure Covers (agent : AgentDefinition V) (P : Op V → Prop) : Prop where
  inner : ∀ o, o.isInner = true → P o
  build : ∀ s, P (.buildContext s agent)
  verify : ∀ names v s schema, P (.verify names v s agent schema)
  publish : ∀ e, P (.publish e)

section
variable {P : Op V → Prop}

theorem Covers.of (h : Covers agent P) {α : Type} {p : Task V α} (hp : Inner p) : p.Uses P :=
  hp.mono h.inner

theorem Covers.emit (h : Covers agent P) {body : EventBody V} {stepId : Option String} :
    (emit s body stepId).Uses P :=
  Uses.bind (Uses.call (h.inner _ rfl)) fun _ => Uses.call (h.publish _)

variable (h : Covers agent P)
include h

theorem retrieve_uses : (retrieve cfg s agent).Uses P :=
  Uses.bind (h.of policyValue_inner) fun _ => Uses.bind (Uses.raiseIf _ _) fun _ =>
    Uses.bind (Uses.call (h.build _)) fun _ => Uses.bind (h.of policyValue_inner) fun _ =>
      Uses.bind h.emit fun _ => h.of transition_inner

theorem verifyAndComplete_uses {stepId : String} :
    (verifyAndComplete cfg s agent stepId).Uses P := by
  refine Uses.bind (h.of transition_inner) fun _ => Uses.bind (Uses.call (h.verify _ _ _ _)) fun _ =>
    Uses.bind h.emit fun _ => ?_
  split
  · exact Uses.bind (h.of policyValue_inner) fun _ => Uses.bind (h.of transition_inner) fun _ =>
      Uses.bind (h.of writeMemory_inner) fun _ => Uses.bind (h.of transition_inner) fun _ =>
        Uses.bind h.emit fun _ => Uses.pure _
  · split
    · exact h.of repair_inner
    · exact Uses.throw _

theorem executeAction_uses {action : PlannedAction V} :
    (executeAction cfg s agent action).Uses P := by
  unfold executeAction
  cases action.type with
  | clarify =>
    exact Uses.bind (h.of transition_inner) fun _ => Uses.bind h.emit fun _ => Uses.pure _
  | tool => exact h.of executeTool_inner
  | model => exact h.of executeModel_inner
  | complete => exact verifyAndComplete_uses h
  | fail => exact Uses.bind (h.of transition_inner) fun _ => Uses.bind h.emit fun _ => Uses.pure _
  | approve => exact Uses.throw _

/-! ## The driver -/

variable (hp : ∀ s, P (.plan s agent))
include hp

theorem planStep_uses : (planStep cfg s agent).Uses P := by
  refine Uses.bind (Uses.raiseIf _ _) fun _ => Uses.bind (Uses.call (hp _)) fun plan => ?_
  cases plan.actions with
  | nil => exact Uses.throw _
  | cons action rest => exact Uses.bind h.emit fun _ => executeAction_uses h

variable (hs : P .spin)
include hs

theorem loop_uses {fuel : Nat} : (loop cfg agent fuel s).Uses P := by
  have spins : ∀ s : RunState V, (do await .spin; Pure.pure s : Task V _).Uses P :=
    fun _ => Uses.bind (Uses.call hs) fun _ => Uses.pure _
  induction fuel generalizing s with
  | zero =>
    unfold loop
    split
    · exact Uses.pure _
    · refine Uses.bind (Uses.raiseIf _ _) fun _ => Uses.bind (Uses.lift _) fun _ => ?_
      have next : ∀ s : RunState V, (if s.status = .planning then do await .spin; Pure.pure s
          else do await .spin; Pure.pure s : Task V _).Uses P := by
        intro s
        split <;> exact spins s
      dsimp only
      split
      · exact Uses.bind (retrieve_uses h) next
      · exact next s
  | succ fuel ih =>
    unfold loop
    split
    · exact Uses.pure _
    · refine Uses.bind (Uses.raiseIf _ _) fun _ => Uses.bind (Uses.lift _) fun _ => ?_
      have next : ∀ s : RunState V, (if s.status = .planning then do
            let s ← planStep cfg s agent
            loop cfg agent fuel s
          else do await .spin; Pure.pure s : Task V _).Uses P := by
        intro s
        split
        · exact Uses.bind (planStep_uses h hp) fun _ => ih
        · exact spins s
      dsimp only
      split
      · exact Uses.bind (retrieve_uses h) next
      · exact next s

theorem execute_uses : (execute cfg s agent).Uses P := by
  unfold execute
  split
  · exact Uses.bind (h.of receive_inner) fun _ => loop_uses h hp hs
  · exact loop_uses h hp hs

theorem driveObserved_uses {runId tenantId : String} :
    (driveObserved cfg runId tenantId s agent).Uses P := by
  have finish : ∀ {s : RunState V} {target : RunStatus} {body : RunState V → EventBody V},
      (do let s ← transition s target; emit s (body s) none : Task V Unit).Uses P :=
    Uses.bind (h.of transition_inner) fun _ => h.emit
  have timed : (executeTimed cfg s agent).Uses P := by
    refine Uses.bind (h.of remainingSeconds_inner) fun remaining => ?_
    cases remaining with
    | none => exact Uses.bind (execute_uses h hp hs) fun _ => Uses.pure _
    | some _ =>
      exact Uses.bind (Uses.handle (execute_uses h hp hs).timed fun _ => Uses.throw _)
        fun _ => Uses.pure _
  have timedOut : (timedOut runId tenantId : Task V Unit).Uses P := by
    refine Uses.bind (h.of requireState_inner) fun _ => ?_
    split
    · exact Uses.pure _
    · exact finish
  have cancelled : (cancelled runId tenantId : Task V Unit).Uses P := by
    refine Uses.bind (h.of requireState_inner) fun _ => ?_
    split
    · exact Uses.pure _
    · refine Uses.bind (Uses.call (h.inner _ rfl)) fun _ => ?_
      split
      · exact Uses.bind (h.of saveAs_inner) fun _ => Uses.pure _
      · exact finish
  have failed : ∀ e, (failed runId tenantId e : Task V Unit).Uses P := by
    intro e
    refine Uses.bind (h.of requireState_inner) fun _ => ?_
    split
    · exact Uses.pure _
    · exact finish
  refine Uses.handle timed fun e => ?_
  cases e with
  | timeoutError => exact timedOut
  | cancelled | deadline => exact cancelled
  | _ => exact failed _

end

end TracciaRuntime
