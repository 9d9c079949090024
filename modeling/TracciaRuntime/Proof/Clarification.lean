/-
  Traccia Runtime formalization — the questions of the rule-based planner.

  `RuleBasedPlanner` asks for a request while the input of the run is blank, and `resume` puts
  the answer into the messages, which it does not look at.  `Dialogue` follows a run through
  its turns, pauses and answers.

  * `Dialogue.asks_iff`: after an answer the next plan is the same question unless a policy has
    put another text in place of the input;
  * `clarification_progresses_iff`: the questions of a run come to an end exactly if a policy
    does so after every answer.
-/
import TracciaRuntime.Proof.Requested

namespace TracciaRuntime

open Py Async AgentRuntime Prog

variable {V : Type}

/-! ## Turns of the rule-based planner -/

/-- The plan that asks for a request. -/
def clarifyInput : Plan V :=
  { actions := [{
      id := "clarify-input"
      type := .clarify
      description := "Please provide a non-empty request." }]
    decisionSummary := "Input is insufficient to execute." }

/-- The planner `rule_based` is the one of this name; all other answers are free. -/
def ruled : (o : Op V) → Except Exn o.Resp → Prop
  | .plan s agent, .ok plan => agent.planningStrategy = "rule_based" → plan = ruleBasedPlan s
  | _, _ => True

/-- The text that a decision puts in place of the input. -/
def PolicyDecision.replacement (decision : PolicyDecision V) : Option String :=
  match decision.action, decision.value with
  | .redact, some (.text t) | .transform, some (.text t) => some t
  | _, _ => none

section
variable (cfg : Config V)

/-- `_policy_value` after the decision. -/
def decidedValue (point : PolicyPoint) (payload : Payload V) (s : RunState V)
    (decision : PolicyDecision V) : Task V (Option (Payload V)) := do
  audit s "policy.decision" decision.action.value point.value
  match decision.action with
  | .deny => throw (.policyDenied s!"{decision.reasonCode}: {decision.reason}")
  | .redact | .transform => Pure.pure decision.value
  | .requireApproval | .requireClarification => throw (.policyDenied
      s!"policy action {decision.action.value} is unsupported at boundary {point.value}")
  | .allow => Pure.pure (some payload)

theorem policyValue_eq (point : PolicyPoint) (payload : Payload V) (s : RunState V)
    (context : PolicyContext V) : policyValue point payload s context =
      evaluatePolicy point payload s context >>= decidedValue point payload s := rfl

/-- The BUILDING_CONTEXT branch of the loop after the check of the input. -/
def gatherWith (s : RunState V) (agent : AgentDefinition V) (checked : Option (Payload V)) :
    Task V (RunState V) := do
  let s := withInput s checked
  Prog.raiseIf (agent.contextBuilder ∉ cfg.contextBuilders) (.other "KeyError")
  let built ← await (.buildContext s agent)
  let s := { s with messages := built.1, citations := built.2 }
  let checked ← policyValue .afterRetrieval (.messages s.messages) s { agent := some agent }
  let s := match checked with
    | some (.messages ms) => { s with messages := ms }
    | _ => s
  emit s (.contextRetrieved s.messages.length s.citations.length (s.citations.map (·.id))) none
  transition s .planning

/-- The same after the decision of the policies. -/
def gather (s : RunState V) (agent : AgentDefinition V) (decision : PolicyDecision V) :
    Task V (RunState V) :=
  decidedValue .beforeRetrieval (.text s.request.input) s decision >>= gatherWith cfg s agent

theorem retrieve_eq (s : RunState V) (agent : AgentDefinition V) :
    retrieve cfg s agent = evaluatePolicy .beforeRetrieval (.text s.request.input) s
      { agent := some agent } >>= gather cfg s agent :=
  calc retrieve cfg s agent = policyValue .beforeRetrieval (.text s.request.input) s
        { agent := some agent } >>= gatherWith cfg s agent := rfl
    _ = _ := by rw [policyValue_eq, Prog.bind_assoc]; rfl

/-- The PLANNING branch of the loop after the plan. -/
def followPlan (s : RunState V) (agent : AgentDefinition V) (plan : Plan V) : Task V (RunState V) :=
  match plan.actions with
  | [] => throw (.other "IndexError")
  | action :: _ => do
    let s := { s with summary := { s.summary with
      decisions := s.summary.decisions ++ [plan.decisionSummary] } }
    emit s (.stepStarted action.type) (some action.id)
    executeAction cfg s agent action

theorem planStep_eq (s : RunState V) (agent : AgentDefinition V) :
    planStep cfg s agent = (do
      Prog.raiseIf (agent.planningStrategy ∉ cfg.planners) (.other "KeyError")
      let plan ← await (.plan s agent)
      followPlan cfg s agent plan) := rfl

/-! ## The dialogue of a run -/

/-- What bears on the questions of a run. -/
inductive Exchange (V : Type) where
  /-- `resume` with a clarification -/
  | answered
  /-- the decision of the policies before a retrieval -/
  | decided (decision : PolicyDecision V)
  | planned (plan : Plan V)

/-- The driver was interrupted in `s`, and the run is driven again from `s'`. -/
structure Redriven (s s' : RunState V) : Prop where
  active : s.status.isSettled = false
  request : s'.request = s.request
  head : s'.status.isHead = true

/-- The run has come to this state, with these exchanges, the last one first.  Its agent may be
    registered anew in between, with the same planner. -/
inductive Dialogue : List (Exchange V) → RunState V → Prop
  | started {s} : s.status = .received → Dialogue [] s
  | received {s agent s'} : Dialogue [] s → s.status = .received →
      (receive s agent).Gives ruled (.ok s') → Dialogue [] s'
  | gathered {h s agent decision s'} : Dialogue h s → s.status = .buildingContext →
      (evaluatePolicy .beforeRetrieval (.text s.request.input) s
        { agent := some agent }).Gives ruled (.ok decision) →
      (gather cfg s agent decision).Gives ruled (.ok s') → Dialogue (.decided decision :: h) s'
  | followed {h s agent plan s'} : Dialogue h s → s.status = .planning →
      s.stepCount < agent.maxSteps → agent.planningStrategy = "rule_based" →
      (await (.plan s agent) : Task V (Plan V)).Gives ruled (.ok plan) →
      (followPlan cfg s agent plan).Gives ruled (.ok s') → Dialogue (.planned plan :: h) s'
  /-- the plan was not followed to the end -/
  | abandoned {h s agent plan s'} : Dialogue h s → s.status = .planning →
      s.stepCount < agent.maxSteps → agent.planningStrategy = "rule_based" →
      (await (.plan s agent) : Task V (Plan V)).Gives ruled (.ok plan) → Redriven s s' →
      Dialogue (.planned plan :: h) s'
  | redriven {h s s'} : Dialogue h s → Redriven s s' → Dialogue h s'
  | clarified {h s payload s'} : Dialogue h s → s.status = .awaitingClarification →
      (clarify s payload).Gives ruled (.ok s') → Dialogue (.answered :: h) s'
  | granted {h s approval s'} : Dialogue h s → s.status = .awaitingApproval →
      (transition (granted s (pausedFor s).2 approval) .planning).Gives ruled (.ok s') →
      Dialogue h s'

variable {cfg} {s s' : RunState V} {agent : AgentDefinition V} {h : List (Exchange V)}

/-- **Every turn of the loop goes on with the dialogue.** -/
theorem Dialogue.turn (hd : Dialogue cfg h s) (hs : s.status.isHead = true)
    (hr : agent.planningStrategy = "rule_based") (ht : (turn cfg agent s).Gives ruled (.ok s')) :
    ∃ h', Dialogue cfg h' s' := by
  obtain ⟨_, hsteps, ht⟩ := ht.bind_ok
  obtain ⟨_, -, ht⟩ := ht.bind_ok
  have hsteps' : s.stepCount < agent.maxSteps := by
    unfold Prog.raiseIf at hsteps
    split at hsteps
    · cases hsteps
    · rename_i hlt
      simpa using hlt
  have hctx : ∃ h₂ s₂, Dialogue cfg h₂ s₂ ∧ s₂.status = .planning ∧ s₂.stepCount = s.stepCount ∧
      (planStep cfg s₂ agent).Gives ruled (.ok s') := by
    dsimp only at ht
    rcases RunStatus.isHead_cases hs with hst | hst
    · rw [if_pos hst] at ht
      obtain ⟨s₂, h₂, ht⟩ := ht.bind_ok
      obtain ⟨hcount, hp⟩ := h₂.ends retrieve_ends
      rw [if_pos hp] at ht
      rw [retrieve_eq] at h₂
      obtain ⟨decision, hdec, h₂⟩ := h₂.bind_ok
      exact ⟨_, s₂, hd.gathered hst hdec h₂, hp, hcount, ht⟩
    · rw [if_neg (by rw [hst]; decide)] at ht
      obtain ⟨s₂, h₂, ht⟩ := ht.bind_ok
      cases h₂
      rw [if_pos hst] at ht
      exact ⟨h, s, hd, hst, rfl, ht⟩
  obtain ⟨h₂, s₂, hd₂, hp, hcount, ht⟩ := hctx
  rw [planStep_eq] at ht
  obtain ⟨_, -, ht⟩ := ht.bind_ok
  obtain ⟨plan, hplan, ht⟩ := ht.bind_ok
  exact ⟨_, hd₂.followed hp (hcount ▸ hsteps') hr hplan ht⟩

/-! ## The input of the run -/

theorem ruleBasedPlan_eq (s : RunState V) :
    ruleBasedPlan s = if strip s.request.input = "" then clarifyInput else reactPlan s := rfl

/-- The question is planned exactly for a blank input. -/
theorem ruleBasedPlan_asks : ruleBasedPlan s = clarifyInput ↔ strip s.request.input = "" := by
  rw [ruleBasedPlan_eq]
  split
  · rename_i hblank
    exact iff_of_true rfl hblank
  · rename_i hinput
    refine iff_of_false (fun heq => ?_) hinput
    have hacts := congrArg Plan.actions heq
    rcases reactPlan_type hacts with hty | hty | hty <;> cases hty

theorem decidedValue_ends {s₀ : RunState V} {point : PolicyPoint} {decision : PolicyDecision V} :
    (decidedValue point (.text s.request.input) s₀ decision).Ends fun checked =>
      (withInput s checked).request.input = decision.replacement.getD s.request.input := by
  have hvalue : decision.action = .redact ∨ decision.action = .transform →
      (withInput s decision.value).request.input = decision.replacement.getD s.request.input := by
    intro hact
    unfold PolicyDecision.replacement
    rcases hact with hact | hact <;> rw [hact] <;> rcases decision.value with _ | (_ | _) <;> rfl
  refine Ends.after _ fun _ => ?_
  cases hact : decision.action with
  | deny | requireApproval | requireClarification => exact Ends.throw _
  | redact => exact Ends.pure (hvalue (.inl hact))
  | transform => exact Ends.pure (hvalue (.inr hact))
  | allow =>
    refine Ends.pure ?_
    unfold PolicyDecision.replacement
    rw [hact]
    rfl

/-- Before a retrieval the policies may replace the input. -/
theorem gather_ends {decision : PolicyDecision V} : (gather cfg s agent decision).Ends fun s' =>
    s'.request.input = decision.replacement.getD s.request.input ∧ s'.status = .planning := by
  refine decidedValue_ends.bind fun checked hchecked => Ends.after _ fun _ =>
    Ends.after _ fun built => Ends.after _ fun checked' => Ends.after _ fun _ =>
      transition_ends.mono fun s' hs => ?_
  obtain ⟨now, rfl⟩ := hs
  refine ⟨?_, rfl⟩
  dsimp only
  split <;> exact hchecked

/-! ## Pauses for a clarification -/

theorem executeTool_asks_not {action : PlannedAction V} : (executeTool cfg s agent action).Ends
    fun s' => s'.status ≠ .awaitingClarification := by
  refine Ends.after _ fun _ => Ends.after _ fun _ => Ends.after _ fun decision => ?_
  split
  · refine Ends.after _ fun approval => transition_ends.bind fun s₁ h₁ =>
      Ends.after _ fun _ => Ends.pure ?_
    rw [h₁.status]; decide
  · refine Ends.after _ fun _ => Ends.after _ fun _ => Ends.after _ fun _ =>
      Ends.after _ fun _ => Ends.after _ fun _ => transition_ends.mono fun s₂ h₂ => ?_
    rw [h₂.status]; decide

theorem executeModel_asks_not {action : PlannedAction V} : (executeModel cfg s agent action).Ends
    fun s' => s'.status ≠ .awaitingClarification := by
  rw [executeModel_eq]
  refine Ends.after _ fun x => Ends.after _ fun _ => Ends.after _ fun _ => Ends.after _ fun _ =>
    transition_ends.mono fun s₂ h₂ => ?_
  rw [h₂.status]; decide

theorem verifyAndComplete_asks_not {stepId : String} :
    (verifyAndComplete cfg s agent stepId).Ends fun s' => s'.status ≠ .awaitingClarification := by
  refine Ends.after _ fun _ => Ends.after _ fun results => Ends.after _ fun _ => ?_
  split
  · refine Ends.after _ fun checked => Ends.after _ fun _ => Ends.after _ fun _ =>
      transition_ends.bind fun s₃ h₃ => Ends.after _ fun _ => Ends.pure ?_
    rw [h₃.status]; decide
  · split
    · refine Ends.after _ fun _ => transition_ends.mono fun s₃ h₃ => ?_
      rw [h₃.status]; decide
    · exact Ends.throw _

/-- The run is paused for a clarification only if its input is blank. -/
theorem followPlan_pauses : (followPlan cfg s agent (ruleBasedPlan s)).Ends fun s' =>
    s'.status = .awaitingClarification → strip s'.request.input = "" := by
  rw [ruleBasedPlan_eq]
  split
  · rename_i hblank
    refine Ends.after _ fun _ => transition_ends.bind fun s₁ h₁ =>
      Ends.after _ fun _ => Ends.pure ?_
    obtain ⟨now, rfl⟩ := h₁
    exact fun _ => hblank
  · cases hacts : (reactPlan s).actions with
    | nil =>
      rw [followPlan, hacts]
      exact Ends.throw _
    | cons action rest =>
      rw [followPlan, hacts]
      refine Ends.after _ fun _ => ?_
      unfold executeAction
      rcases reactPlan_type hacts with hty | hty | hty <;> rw [hty]
      · exact executeTool_asks_not.mono fun _ hne hst => absurd hst hne
      · exact executeModel_asks_not.mono fun _ hne hst => absurd hst hne
      · exact verifyAndComplete_asks_not.mono fun _ hne hst => absurd hst hne

/-! ## What the exchanges tell -/

namespace Exchange

def isDecided : Exchange V → Bool
  | decided _ => true
  | _ => false

/-- The text that takes the place of the input. -/
def replacement : Exchange V → Option String
  | decided decision => decision.replacement
  | _ => none

end Exchange

/-- The text that was put in place of the input last is not blank. -/
def Supplies (between : List (Exchange V)) : Prop :=
  ∃ t, (between.filterMap Exchange.replacement).head? = some t ∧ strip t ≠ ""

/-- The run was answered, the policies decided as `between` says, and this plan came next. -/
structure NextPlan (h : List (Exchange V)) (plan : Plan V) (between : List (Exchange V)) :
    Prop where
  follows : ∃ later earlier, h = later ++ .planned plan :: (between ++ .answered :: earlier)
  decided : ∀ x ∈ between, x.isDecided = true

/-- No plan that comes next after an answer is the same question. -/
def Progresses (h : List (Exchange V)) : Prop :=
  ∀ plan between, NextPlan h plan between → plan ≠ clarifyInput

/-- After every answer the policies put a text that is not blank in place of the input, before
    the next plan. -/
def Supplied (h : List (Exchange V)) : Prop :=
  ∀ plan between, NextPlan h plan between → Supplies between

/-- The input is blank in a pause, and after an answer until the policies replace it. -/
structure Tells (h : List (Exchange V)) (s : RunState V) : Prop where
  paused : s.status = .awaitingClarification → strip s.request.input = ""
  blank : ∀ between earlier, h = between ++ .answered :: earlier →
    (∀ x ∈ between, x.isDecided = true) → (strip s.request.input = "" ↔ ¬Supplies between)
  asked : ∀ plan between, NextPlan h plan between → (plan = clarifyInput ↔ ¬Supplies between)

theorem not_supplies_nil : ¬Supplies ([] : List (Exchange V)) := by
  rintro ⟨t, ht, -⟩
  cases ht

/-- A decision without a replacement leaves the input alone. -/
theorem supplies_decided {decision : PolicyDecision V} {between : List (Exchange V)}
    {input : String} (h : strip input = "" ↔ ¬Supplies between) :
    strip (decision.replacement.getD input) = "" ↔ ¬Supplies (.decided decision :: between) := by
  unfold Supplies
  cases hr : decision.replacement with
  | none =>
    rw [List.filterMap_cons_none (by exact hr)]
    exact h
  | some t =>
    rw [List.filterMap_cons_some (b := t) (by exact hr)]
    simp

/-- The next plan is the last exchange, or it came before the last one. -/
theorem NextPlan.cons_cases {x : Exchange V} {plan : Plan V} {between : List (Exchange V)}
    (h' : NextPlan (x :: h) plan between) :
    (∃ earlier, x = .planned plan ∧ h = between ++ .answered :: earlier) ∨
      NextPlan h plan between := by
  obtain ⟨⟨later, earlier, he⟩, hdec⟩ := h'
  cases later with
  | nil =>
    obtain ⟨rfl, rfl⟩ := List.cons.inj he
    exact .inl ⟨earlier, rfl, rfl⟩
  | cons y later =>
    obtain ⟨rfl, rfl⟩ := List.cons.inj he
    exact .inr ⟨⟨later, earlier, rfl⟩, hdec⟩

theorem NextPlan.answered_mem {plan : Plan V} {between : List (Exchange V)}
    (hn : NextPlan h plan between) : .answered ∈ h := by
  obtain ⟨⟨later, earlier, rfl⟩, -⟩ := hn
  simp

/-- In the first round the policies decide once. -/
theorem NextPlan.first_round {plan plan' : Plan V} {decision : PolicyDecision V}
    {between : List (Exchange V)}
    (hn : NextPlan (.planned plan :: .decided decision :: .answered :: h) plan' between)
    (hfirst : .answered ∉ h) : between = [.decided decision] := by
  rcases hn.cons_cases with ⟨earlier, -, he⟩ | hn'
  · match between with
    | [] => cases he
    | [x] => rw [(List.cons.inj he).1]
    | x :: y :: between =>
      obtain ⟨hy, -⟩ := List.cons.inj (List.cons.inj he).2
      have := hn.decided y (by simp)
      rw [← hy] at this
      cases this
  · rcases hn'.cons_cases with ⟨-, hplan, -⟩ | hn'
    · cases hplan
    rcases hn'.cons_cases with ⟨-, hplan, -⟩ | hn'
    · cases hplan
    exact absurd hn'.answered_mem hfirst

theorem Tells.silent (ht : Tells h s) (hreq : s'.request = s.request)
    (hst : s'.status ≠ .awaitingClarification) : Tells h s' where
  paused hs := absurd hs hst
  blank := by rw [hreq]; exact ht.blank
  asked := ht.asked

theorem tells_nil (hst : s.status ≠ .awaitingClarification) : Tells [] s where
  paused hs := absurd hs hst
  blank between earlier he := by simp at he
  asked plan between hn := by obtain ⟨⟨later, earlier, he⟩, -⟩ := hn; simp at he

/-- A plan from `s` is the question if the input of `s` is blank. -/
theorem Tells.planned (ht : Tells h s)
    (hst : s'.status = .awaitingClarification → strip s'.request.input = "") :
    Tells (.planned (ruleBasedPlan s) :: h) s' where
  paused := hst
  blank between earlier he hdec := by
    cases between with
    | nil => cases he
    | cons x between =>
      obtain ⟨rfl, -⟩ := List.cons.inj he
      cases hdec _ List.mem_cons_self
  asked plan between hn := by
    rcases hn.cons_cases with ⟨earlier, hplan, he⟩ | hn'
    · cases hplan
      rw [ruleBasedPlan_asks]
      exact ht.blank between earlier he hn.decided
    · exact ht.asked plan between hn'

theorem Tells.decided (ht : Tells h s) {decision : PolicyDecision V}
    (hinput : s'.request.input = decision.replacement.getD s.request.input)
    (hst : s'.status ≠ .awaitingClarification) : Tells (.decided decision :: h) s' where
  paused hs := absurd hs hst
  blank between earlier he hdec := by
    cases between with
    | nil => cases he
    | cons x between =>
      obtain ⟨rfl, hrest⟩ := List.cons.inj he
      rw [hinput]
      exact supplies_decided (ht.blank between earlier hrest fun y hy => hdec y (.tail _ hy))
  asked plan between hn := by
    rcases hn.cons_cases with ⟨-, hplan, -⟩ | hn'
    · cases hplan
    · exact ht.asked plan between hn'

/-- The input of a paused run is blank, and the answer leaves it so. -/
theorem Tells.answered (ht : Tells h s) (hs : s.status = .awaitingClarification)
    (hreq : s'.request = s.request) (hst : s'.status ≠ .awaitingClarification) :
    Tells (.answered :: h) s' where
  paused hs' := absurd hs' hst
  blank between earlier he hdec := by
    cases between with
    | nil =>
      rw [hreq]
      exact iff_of_true (ht.paused hs) not_supplies_nil
    | cons x between =>
      obtain ⟨rfl, -⟩ := List.cons.inj he
      cases hdec _ List.mem_cons_self
  asked plan between hn := by
    rcases hn.cons_cases with ⟨-, hplan, -⟩ | hn'
    · cases hplan
    · exact ht.asked plan between hn'

theorem Redriven.ne_awaiting (hr : Redriven s s') : s'.status ≠ .awaitingClarification := by
  intro hst
  have := hr.head
  rw [hst] at this
  cases this

/-- **Every run tells what its input is.** -/
theorem Dialogue.tells (hd : Dialogue cfg h s) : Tells h s := by
  induction hd with
  | started hs => exact tells_nil (by rw [hs]; decide)
  | received _ _ hr => exact tells_nil (by rw [(hr.ends receive_ends).2]; decide)
  | gathered _ _ _ hg ih =>
    obtain ⟨hinput, hst⟩ := hg.ends gather_ends
    exact ih.decided hinput (by rw [hst]; decide)
  | @followed h s agent plan s' _ _ _ hr hplan hf ih =>
    obtain rfl : plan = ruleBasedPlan s := hplan.call_ok hr
    exact ih.planned (hf.ends followPlan_pauses)
  | @abandoned h s agent plan s' _ _ _ hr hplan hre ih =>
    obtain rfl : plan = ruleBasedPlan s := hplan.call_ok hr
    exact ih.planned fun hst => absurd hst hre.ne_awaiting
  | redriven _ hre ih => exact ih.silent hre.request hre.ne_awaiting
  | clarified _ hs hc ih =>
    obtain ⟨_, -, hc⟩ := hc.bind_ok
    obtain ⟨now, rfl⟩ := hc.ends transition_ends
    exact ih.answered hs rfl nofun
  | granted _ _ ht ih =>
    obtain ⟨now, rfl⟩ := ht.ends transition_ends
    exact ih.silent rfl nofun

/-- **After an answer the run asks again** unless a policy has replaced the input. -/
theorem Dialogue.asks_iff (hd : Dialogue cfg h s) {plan : Plan V} {between : List (Exchange V)}
    (hn : NextPlan h plan between) : plan = clarifyInput ↔ ¬Supplies between :=
  hd.tells.asked plan between hn

/-- The answers of a run are not followed by the same question exactly if, after each of them,
    the policies supply an input. -/
theorem clarification_progresses_iff (cfg : Config V) (h : List (Exchange V)) (s : RunState V)
    (hd : Dialogue cfg h s) : Progresses h ↔ Supplied h :=
  forall_congr' fun _ => forall_congr' fun _ => forall_congr' fun hn =>
    (not_congr (hd.asks_iff hn)).trans not_not

end

namespace Sample

def ruleAgent : AgentDefinition String := { agent with planningStrategy := "rule_based" }

/-- A run whose input is blank. -/
def blankRun : RunState String :=
  { id := "run", request := { request with input := "   " }, sessionId := "session"
    updatedAt := 0 }

def allowed : PolicyDecision String := { action := .allow, reasonCode := "allowed", reason := "" }

/-- A decision that puts a text in place of the input. -/
def supplied : PolicyDecision String :=
  { action := .transform, reasonCode := "input", reason := "", value := some (.text "Hello") }

/-- The policies decide so before a retrieval, and everything else goes through. -/
def decides (decision : PolicyDecision String) : (o : Op String) → Except Exn o.Resp
  | .plan s _ => .ok (ruleBasedPlan s)
  | .policyEvaluate .beforeRetrieval .. => .ok decision
  | .runsSave .. => .ok ()
  | o => match world.effect sendCfg 0 o o.oblige with
    | some x => x.1
    | none => .error (.other "blocked")

theorem decides_ruled (decision : PolicyDecision String) (o : Op String) :
    ruled o (decides decision o) := by
  cases o <;> first | trivial | exact fun _ => rfl

/-- The state that the program returns. -/
def reached (decision : PolicyDecision String) (p : Task String (RunState String)) :
    RunState String :=
  match p.answered (decides decision) with
  | .ok s => s
  | .error _ => blankRun

theorem gives_reached {decision : PolicyDecision String} {p : Task String (RunState String)}
    (h : (p.answered (decides decision)).isOk = true) :
    p.Gives ruled (.ok (reached decision p)) := by
  refine gives_answered (decides_ruled decision) ?_
  unfold reached
  cases hp : p.answered (decides decision) with
  | ok s => rfl
  | error e => rw [hp] at h; cases h

/-- A state in whose context the run is planned. -/
def gathered (decision : PolicyDecision String) (s : RunState String) : RunState String :=
  reached decision (gather sendCfg s ruleAgent decision)

/-- The state after the plan. -/
def followed (s : RunState String) : RunState String :=
  reached allowed (followPlan sendCfg s ruleAgent (ruleBasedPlan s))

/-- The run is in its first pause. -/
def pausedRun : RunState String :=
  followed (gathered allowed (reached allowed (receive blankRun ruleAgent)))

def answeredRun : RunState String :=
  reached allowed (clarify pausedRun { clarification := "Hello" })

/-- A turn from `s`, in which the policies decide so. -/
theorem turn_dialogue {h : List (Exchange String)} {s : RunState String}
    (hd : Dialogue sendCfg h s) (decision : PolicyDecision String)
    (hs : s.status = .buildingContext)
    (hg : ((gather sendCfg s ruleAgent decision).answered (decides decision)).isOk = true)
    (hp : (gathered decision s).status = .planning)
    (hsteps : (gathered decision s).stepCount < ruleAgent.maxSteps)
    (hf : ((followPlan sendCfg (gathered decision s) ruleAgent
      (ruleBasedPlan (gathered decision s))).answered (decides allowed)).isOk = true) :
    Dialogue sendCfg (.planned (ruleBasedPlan (gathered decision s)) :: .decided decision :: h)
      (followed (gathered decision s)) :=
  .followed
    (.gathered hd hs (gives_answered (decides_ruled decision) rfl) (gives_reached hg))
    hp hsteps rfl (gives_answered (decides_ruled allowed) rfl) (gives_reached hf)

/-- The run up to its first answer. -/
theorem answered_dialogue : Dialogue sendCfg [.answered,
    .planned (ruleBasedPlan (gathered allowed (reached allowed (receive blankRun ruleAgent)))),
    .decided allowed] answeredRun :=
  .clarified
    (turn_dialogue (.received (.started rfl) rfl (gives_reached (by decide +kernel))) allowed
      (by decide +kernel) (by decide +kernel) (by decide +kernel) (by decide +kernel)
      (by decide +kernel))
    (by decide +kernel) (gives_reached (by decide +kernel))

end Sample

open Sample

/-- The policies supply an input after the answer, and the model is asked. -/
theorem clarification_progresses_supplied : ∃ h s, Dialogue sendCfg h s ∧
    (∃ plan between, NextPlan h plan between) ∧ Progresses h := by
  have hd := turn_dialogue answered_dialogue supplied (by decide +kernel) (by decide +kernel)
    (by decide +kernel) (by decide +kernel) (by decide +kernel)
  refine ⟨_, _, hd, ⟨_, [.decided supplied], ⟨[], _, rfl⟩, by simp [Exchange.isDecided]⟩,
    (clarification_progresses_iff _ _ _ hd).2 fun plan between hn => ?_⟩
  obtain rfl := hn.first_round (by simp)
  exact ⟨"Hello", rfl, by decide +kernel⟩

/-- The policies let everything through, and the run asks again. -/
theorem clarification_asks_again : ¬∀ (cfg : Config String) (h : List (Exchange String))
    (s : RunState String), Dialogue cfg h s → Progresses h := by
  intro hall
  have hd := turn_dialogue answered_dialogue allowed (by decide +kernel) (by decide +kernel)
    (by decide +kernel) (by decide +kernel) (by decide +kernel)
  exact hall _ _ _ hd _ [.decided allowed] ⟨⟨[], _, rfl⟩, by simp [Exchange.isDecided]⟩
    (ruleBasedPlan_asks.2 (by decide +kernel))

end TracciaRuntime
