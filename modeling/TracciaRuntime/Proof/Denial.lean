/-
  What a DENY at the `plan_tool` boundary is worth.

  `_execute_tool` reads REQUIRE_APPROVAL off the `plan_tool` decision and nothing
  else; a DENY is only heard if the policies deny the call again at `before_tool`.

  * `Denied policies check`: some policy that applies at `plan_tool` denies the call;
  * `deny_dominates`: where every denied call is stopped at `before_tool`, no
    handler runs for a denied call, in any interleaving and whatever is approved;
  * `planned_denial_is_ignored`: a policy that applies at `plan_tool` only.
-/
import TracciaRuntime.Proof.Driver
import TracciaRuntime.Policies.Engine
import TracciaRuntime.Runtime.System

namespace TracciaRuntime

open Py Async AgentRuntime

variable {V : Type}

/-- The policy applies at `plan_tool` and denies the call of this check. -/
def Policy.denies (p : Policy V) (check : PlanCheck V) : Bool :=
  CompositePolicyEngine.applicable p .planTool check.context &&
    match p.evaluate .planTool (some check.arguments) check.context with
    | .ok d => d.action = .deny
    | .error _ => false

/-- Some registered policy denies the call of this check. -/
def Denied (policies : List (Policy V)) (check : PlanCheck V) : Prop :=
  ∃ p ∈ policies, p.denies check = true

instance (policies : List (Policy V)) (check : PlanCheck V) : Decidable (Denied policies check) :=
  inferInstanceAs (Decidable (∃ p ∈ policies, p.denies check = true))

/-- No policy denied the call of this invocation. -/
def Cleared (policies : List (Policy V)) (i : Invocation V) : Prop :=
  ∃ check, Checks check i ∧ ¬ Denied policies check

/-- Policy evaluations that return are those of the registered policies. -/
def registered (cfg : Config V) (policies : List (Policy V)) : Allow cfg.sem.Ans Exn (World V)
  | _, _, .policyEvaluate point payload context, a => ∀ d, a = .done (Answer.ok d) →
      CompositePolicyEngine.evaluate policies point payload context = .ok d
  | _, _, _, _ => True

/-- The policies do not allow a call at `before_tool` that one of them denied at `plan_tool`. -/
def DeniesAgain (policies : List (Policy V)) (t : Nat) (w : World V) : Op V → Prop
  | .policyEvaluate .beforeTool payload context => ∀ check, w.planned t = some check →
      Denied policies check → ∀ d,
        CompositePolicyEngine.evaluate policies .beforeTool payload context = .ok d →
          d.action ≠ .allow
  | _ => True

/-- The deployment with these policies. -/
abbrev policedTasks (cfg : Config V) (policies : List (Policy V)) (calls : Nat → Call V) :=
  runtimeSys cfg (registered cfg policies) calls fun _ => True

/-- The same, where a denied call is denied again. -/
abbrev deniedTwice (cfg : Config V) (policies : List (Policy V)) :
    Allow cfg.sem.Ans Exn (World V) :=
  fun t w o a => registered cfg policies t w o a ∧ DeniesAgain policies t w o

/-- The contract: every handler was called for a cleared call. -/
def clearance (policies : List (Policy V)) : Contract (World V) where
  valid w := ∀ i ∈ w.invocations, Cleared policies i
  rely t w w' := w'.planned t = w.planned t
  refl _ _ := rfl
  trans h₁ h₂ := h₂.trans h₁

section
variable {cfg : Config V} {policies : List (Policy V)} {A : Allow cfg.sem.Ans Exn (World V)}
  {t : Nat} {b : Bool} {w w' : World V} {s : RunState V}

theorem clearance_of_frame {o : Op V} (hv : (clearance policies).valid w)
    (hf : World.Frame t o w w') (ho : o.isHandler = false) :
    (clearance policies).valid w' ∧ ∀ t', t' ≠ t → (clearance policies).rely t' w w' := by
  refine ⟨?_, hf.planned_other⟩
  intro i hi
  rw [hf.invocations ho] at hi
  exact hv i hi

theorem clearance_mild {G : World V → Prop} {X : Exn → Prop} (hG : ∀ w, G w) (hX : ∀ e, X e)
    {o : Op V} (ho : o.isHandler = false) : Mild cfg.sem A (clearance policies) t G X o := by
  intro b w a r w' hv _ _ hact
  obtain ⟨h₁, h₂⟩ := clearance_of_frame hv (Config.act_frame hact) ho
  exact ⟨h₁, h₂, hG w', fun e _ => hX e⟩

/-- Once its call is cleared, a task may call its handler. -/
theorem handler_mild {name : String} {arguments : Dict String V} {context : ToolContext}
    {check : PlanCheck V} {X : Exn → Prop} (hX : ∀ e, X e) (hclear : ¬ Denied policies check)
    (hargs : check.arguments = .arguments arguments)
    (htool : check.context.tool.map (·.name) = some name)
    (hrun : check.context.runId = some context.runId) {o : Op V}
    (ho : executeOp name arguments context o) :
    Mild cfg.sem A (clearance policies) t (fun w => w.planned t = some check) X o := by
  intro b w a r w' hv hplan _ hact
  have hf := Config.act_frame hact
  have hplan' : w'.planned t = some check :=
    (congrFun (hf.planned (executeOp_plansTool ho)) t).trans hplan
  cases hh : o.isHandler with
  | false =>
    obtain ⟨h₁, h₂⟩ := clearance_of_frame hv hf hh
    exact ⟨h₁, h₂, hplan', fun e _ => hX e⟩
  | true =>
    cases o with
    | handler n x c =>
      obtain ⟨rfl, rfl, rfl⟩ : n = name ∧ x = arguments ∧ c = context := ho.elim id fun h => h.elim
      refine ⟨fun i hi => ?_, hf.planned_other, hplan', fun e _ => hX e⟩
      rcases Config.act_handler hact with he | he
      · rw [he] at hi; exact hv i hi
      · rw [he] at hi
        rcases List.mem_cons.1 hi with rfl | hi
        · exact ⟨check, ⟨hplan, hargs, htool, hrun⟩, hclear⟩
        · exact hv i hi
    | _ => cases hh

/-! ## Drivers and calls -/

theorem clearance_copyLaws :
    CopyLaws cfg A (clearance policies) t (fun _ _ => True) (fun _ _ => True) False True where
  stable _ _ _ _ h := h
  planned _ _ h := h
  same _ _ _ _ h := h
  raises _ _ _ _ := trivial
  background s o ho := by
    refine clearance_mild (fun _ => trivial) (fun _ => trivial) ?_
    cases o <;> first | rfl | cases ho
  plan _ _ _ _ _ h := h.elim
  save b w s target now a r w' hv _ _ _ _ hact := by
    obtain ⟨h₁, h₂⟩ := clearance_of_frame hv (Config.act_frame hact) rfl
    refine ⟨h₁, h₂, ?_⟩
    cases r with
    | ok u => trivial
    | error e => exact ⟨s, trivial, trivial⟩
  respond _ _ _ h _ _ := h
  result _ _ _ h _ := h

/-- **A denied call does not get past `before_tool`.** -/
theorem execute_cleared {name : String} {arguments : Dict String V} {context : ToolContext}
    {check : PlanCheck V} (hargs : check.arguments = .arguments arguments)
    (htool : check.context.tool.map (·.name) = some name)
    (hrun : check.context.runId = some context.runId) (hplan : w.planned t = some check) :
    Ticks cfg (deniedTwice cfg policies) (clearance policies) t (fun _ _ => True)
      (ToolExecutor.execute cfg name arguments context) w := by
  refine Safe.bind (Safe.lift ?_)
  cases toolsGet cfg name with
  | error e => trivial
  | ok d =>
    refine Safe.bind (Safe.lift ?_)
    cases ToolExecutor.admitted cfg d name arguments context with
    | error e => trivial
    | ok u =>
      refine Safe.bind (Safe.call fun w₁ hr hv a ha r w₂ hact => ?_)
      have hf := Config.act_frame (Sem.act_of_ticking hact)
      obtain ⟨h₁, h₂⟩ := clearance_of_frame hv hf rfl
      refine ⟨h₁, h₂, ?_⟩
      cases r with
      | error e => trivial
      | ok decision =>
        refine Safe.bind (Safe.raiseIf (fun _ => trivial) fun hallow => ?_)
        have hplan₁ : w₁.planned t = some check := Eq.trans hr hplan
        have hplan₂ : w₂.planned t = some check := (congrFun (hf.planned rfl) t).trans hplan₁
        -- the decision is that of the policies, and it is ALLOW
        have hclear : ¬ Denied policies check := by
          intro hden
          obtain ⟨c, rfl, hc⟩ := done_of_act_ok (Sem.act_of_ticking hact)
          cases hc
          exact ha.2 check hplan₁ hden _ (ha.1 _ rfl) (by simpa using hallow)
        refine (Safe.of_calm (G := fun w => w.planned t = some check) (X := fun _ => True)
          (fun w w' hr h => Eq.trans hr h)
          ((executeAllowed_calm.mono fun _ _ => trivial).mono_op fun o ho => ?_) hplan₂).mono
          fun _ _ _ => trivial
        intro b w a r w' hv hg ha hact
        exact handler_mild (fun _ => trivial) hclear hargs htool hrun ho true w a r w' hv hg ha
          (Sem.act_of_ticking hact)

theorem clearance_laws : Laws cfg (deniedTwice cfg policies) (clearance policies) t
    (fun _ _ => True) (fun _ _ => True) False True where
  toCopyLaws := clearance_copyLaws
  ask _ _ _ _ _ _ hw hs _ _ _ := clearance_copyLaws.requestApproval_safe trivial
    (fun _ => clearance_mild (fun _ => trivial) (fun _ => trivial) rfl) hw hs
  tool _ _ _ _ _ _ _ _ _ _ hplan _ :=
    (execute_cleared rfl rfl rfl hplan).mono fun _ _ _ => ⟨trivial, fun _ _ => trivial⟩

/-- **Every task of the deployment only calls cleared handlers.** -/
theorem task_cleared {calls : Nat → Call V} {w₀ : World V} :
    Safe cfg.sem (deniedTwice cfg policies) (clearance policies) t (fun _ _ => True)
      (taskOf cfg calls w₀ t) w := by
  unfold taskOf
  split
  · refine clearance_laws.drive_safe (fun o ho => ?_) fun _ _ _ _ => trivial
    refine clearance_mild (fun _ => trivial) (fun _ => trivial) ?_
    cases o <;> first | rfl | cases ho
  · refine (Safe.of_calm (G := fun _ => True) (X := fun _ => True) (fun _ _ _ h => h)
      (Prog.Calm.of_uses ((calls t).task_uses.mono fun o ho => ?_) fun _ => trivial)
      trivial).mono fun _ _ _ => trivial
    refine clearance_mild (fun _ => trivial) (fun _ => trivial) ?_
    cases o <;> first | rfl | rcases ho with ho | ho <;> cases ho

end

theorem clearance_respects (cfg : Config V) (policies : List (Policy V)) (calls : Nat → Call V) :
    (runtimeSys cfg (deniedTwice cfg policies) calls fun _ => True).Respects (clearance policies)
      fun _ _ _ => True where
  enter := by
    rintro w t p w' hv ⟨-, rfl, rfl⟩
    exact ⟨hv, fun _ _ => rfl, task_cleared⟩
  fin _ _ _ hv _ := ⟨hv, fun _ _ => rfl⟩
  kill := by
    rintro w t w' hv ⟨-, rfl⟩
    exact ⟨hv, fun _ _ => rfl⟩

/-! ## The theorem -/

/-- **DENY dominates where it is heard**: if no call that a policy denies at `plan_tool` is
    allowed by the policies at `before_tool`, then no handler is ever called for a denied call,
    whatever the other policies decide, the tasks do in between and is approved. -/
theorem deny_dominates (cfg : Config V) (policies : List (Policy V)) (calls : Nat → Call V)
    (w₀ : World V) (h₀ : Fresh w₀) (P : Pool (Op.Resp (V := V)) Exn (World V) Unit)
    (hP : (runtimeSys cfg (deniedTwice cfg policies) calls fun _ => True).Reach (freshPool w₀) P) :
    ∀ i ∈ P.world.invocations, ∃ check, Checks check i ∧ ¬ Denied policies check := by
  refine (Sys.safe_reach (clearance_respects cfg policies calls)
    (Q := fun _ _ _ => True) ⟨fun i hi => ?_, fun _ _ hp => by cases hp⟩ hP).valid
  change i ∈ w₀.invocations at hi
  rw [h₀.invocations] at hi; cases hi

namespace Sample

/-- A policy that denies one tool, at these boundaries. -/
def freezes (tool : String) (points : List PolicyPoint) : Policy String where
  name := "freeze"
  appliesTo := some points
  evaluate _ _ context := .ok (if context.tool.map (·.name) = some tool then
      { action := .deny, reasonCode := "freeze", reason := "The tool is frozen." }
    else { action := .allow, reasonCode := "ok", reason := "Allowed." })

def startOnly (_ : Nat) : Call String := .start request

section
variable (policies : List (Policy String))

/-- The policies answer for themselves, and the planner wants to send. -/
def policed : (o : Op String) → Act sendCfg.sem.Ans Exn o
  | .policyEvaluate point payload context =>
    match CompositePolicyEngine.evaluate policies point payload context with
    | .ok d => .done (Answer.ok d)
    | .error e => .done (Answer.error e)
  | .plan .. => .done (Answer.ok
      { actions := [{ id := "tool-1", type := .tool, description := "", toolName := some "send" }]
        decisionSummary := "" })
  | o => obliging o

/-- The driver of the run, up to its handler. -/
def sends : List (Move sendCfg.sem.Ans Exn) :=
  starts 0 1 ++ .enter 1 :: List.replicate 30 (.run 1 (policed policies))

def isRegistered : (o : Op String) → Act sendCfg.sem.Ans Exn o → Bool
  | .policyEvaluate point payload context, .done (.ok d) =>
    match CompositePolicyEngine.evaluate policies point payload context with
    | .ok d' => d' = d
    | .error _ => false
  | .policyEvaluate .., _ => false
  | _, _ => true

theorem registered_of {t : Nat} {w : World String} {o : Op String} {a : Act sendCfg.sem.Ans Exn o}
    (h : isRegistered policies o a = true) : registered sendCfg policies t w o a := by
  cases o with
  | policyEvaluate point payload context =>
    rintro d rfl
    simp only [isRegistered] at h
    split at h
    · rename_i he; rw [he, of_decide_eq_true h]
    · cases h
  | _ => trivial

/-- No denied call is allowed at `before_tool`. -/
def deniesAgain (t : Nat) (w : World String) : Op String → Bool
  | .policyEvaluate .beforeTool payload context =>
    match w.planned t, CompositePolicyEngine.evaluate policies .beforeTool payload context with
    | some check, .ok d => !decide (Denied policies check) || d.action ≠ .allow
    | _, _ => true
  | _ => true

theorem deniesAgain_of {t : Nat} {w : World String} {o : Op String}
    (h : deniesAgain policies t w o = true) : DeniesAgain policies t w o := by
  cases o with
  | policyEvaluate point payload context =>
    cases point with
    | beforeTool =>
      intro check hcheck hden d hd
      simp only [deniesAgain, hcheck, hd, hden] at h
      simpa using h
    | _ => trivial
  | _ => trivial

end

end Sample

/-- A message that no policy forbids, and the theorem at the pool it leads to. -/
theorem deny_dominates_send :
    ∃ P, (runtimeSys Sample.sendCfg (deniedTwice Sample.sendCfg
        [Sample.freezes "drop" [.planTool, .beforeTool]]) Sample.startOnly fun _ => True).Reach
        (freshPool Sample.world) P ∧ P.world.invocations.length = 1 ∧
      ∀ i ∈ P.world.invocations, ∃ check, Checks check i ∧
        ¬ Denied [Sample.freezes "drop" [.planTool, .beforeTool]] check := by
  let policies := [Sample.freezes "drop" [.planTool, .beforeTool]]
  let y : Player (runtimeSys Sample.sendCfg (deniedTwice Sample.sendCfg policies)
      Sample.startOnly fun _ => True) :=
    runtimePlayer _ _ (fun t w o a => Sample.isRegistered policies o a &&
      Sample.deniesAgain policies t w o) fun t w o a h => by
        rw [Bool.and_eq_true] at h
        exact ⟨Sample.registered_of _ h.1, Sample.deniesAgain_of _ h.2⟩
  have hplay : (y.play (Sample.sends policies) (freshPool Sample.world)).map
      (fun P => P.world.invocations.length) = some 1 := by decide +kernel
  obtain ⟨P, hP, hlen⟩ := Player.exists_reach hplay
  exact ⟨P, hP, hlen, deny_dominates _ _ _ _ Sample.world_fresh P hP⟩

/-- A policy that applies at `plan_tool` only denies the tool, and its handler is called. -/
theorem planned_denial_is_ignored :
    ¬ ∀ (cfg : Config String) (policies : List (Policy String)) (calls : Nat → Call String)
        (w₀ : World String), Fresh w₀ → ∀ P, (policedTasks cfg policies calls).Reach (freshPool w₀) P →
      ∀ i ∈ P.world.invocations, ∀ check, Checks check i → ¬ Denied policies check := by
  intro hall
  let policies := [Sample.freezes "send" [.planTool]]
  let y : Player (policedTasks Sample.sendCfg policies Sample.startOnly) :=
    runtimePlayer _ _ (fun _ _ => Sample.isRegistered policies) fun _ _ _ _ =>
      Sample.registered_of policies
  have hplay : (y.play (Sample.sends policies) (freshPool Sample.world)).map
      (fun P => P.world.invocations.map fun i => i.planned.map fun c =>
        decide (c.arguments = .arguments i.arguments ∧ c.context.tool.map (·.name) = some i.tool ∧
          c.context.runId = some i.context.runId ∧ Denied policies c)) = some [some true] := by
    decide +kernel
  obtain ⟨P, hP, hx⟩ := Player.exists_reach hplay
  rw [List.map_eq_singleton_iff] at hx
  obtain ⟨i, hi, hx⟩ := hx
  rw [Option.map_eq_some_iff] at hx
  obtain ⟨check, hc, hx⟩ := hx
  obtain ⟨hargs, htool, hrun, hden⟩ := of_decide_eq_true hx
  exact hall _ _ _ _ Sample.world_fresh P hP i (by simp [hi]) check ⟨hc, hargs, htool, hrun⟩ hden

end TracciaRuntime
