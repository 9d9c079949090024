/-
  The conduct of drivers and calls, told from what they have awaited.

  A program knows nothing but its past, so what it may await next can be read
  off its text (`Prog.Obeys`), whatever the rest of the deployment does.

  * `driverMay`: a driver only saves the run it has read, writes CANCELLED only
    after it has received a cancellation, and appends to the memory only after it
    has written COMPOSING;
  * `Conducts`: the steps of a driver keep to that, and raise nothing but their own
    exceptions and those that they have received;
  * `drive_obeys`: so do whole drivers.
-/
import TracciaRuntime.Async.Ended
import TracciaRuntime.Proof.Flights
import TracciaRuntime.Proof.History
import TracciaRuntime.Proof.Progress

namespace TracciaRuntime

open Py Async Prog AgentRuntime

variable {V : Type}

/-! ## What may follow -/

/-- The exceptions of the programs themselves. -/
abbrev ownExn : Exn → Prop := fun e => e.isException = true

theorem ownExn_of_isFailure (e : Exn) (h : e.isFailure = true) : ownExn e := by
  cases e <;> first | rfl | cases h

/-- The run that was read under this key has the identifier `id`. -/
def HasRead (runId tenantId id : String) (h : Awaits V) : Prop :=
  ∃ s : RunState V, s.id = id ∧
    (⟨.runsGet runId tenantId, .ok (some s)⟩ : (o : Op V) × Except Exn o.Resp) ∈ h

theorem HasRead.mono {runId tenantId id : String} {h h' : Awaits V}
    (hr : HasRead runId tenantId id h) (hs : h <:+ h') : HasRead runId tenantId id h' := by
  obtain ⟨s, hs', hm⟩ := hr
  exact ⟨s, hs', hs.subset hm⟩

/-- The writes of the run store and of the memory. -/
def Op.isWrite : Op V → Bool
  | runsCreate _ | runsSave .. | memoryAppend .. => true
  | _ => false

/-- The last write of the task was COMPOSING, and it returned. -/
def HasComposed (h : Awaits V) : Prop :=
  ∃ s v h₁ h₂, s.status = .composing ∧
    h = h₁ ++ (⟨.runsSave s v, .ok ()⟩ : (o : Op V) × Except Exn o.Resp) :: h₂ ∧
    ∀ x ∈ h₁, x.1.isWrite = false

theorem HasComposed.cons {h : Awaits V} (hc : HasComposed h) {o : Op V} (ho : o.isWrite = false)
    (r : Except Exn o.Resp) : HasComposed (⟨o, r⟩ :: h) := by
  obtain ⟨s, v, h₁, h₂, hs, rfl, hn⟩ := hc
  refine ⟨s, v, ⟨o, r⟩ :: h₁, h₂, hs, rfl, fun x hx => ?_⟩
  rcases List.mem_cons.1 hx with rfl | hx
  · exact ho
  · exact hn x hx

/-- The task has received an exception that is no `Exception`. -/
def HasStruck (h : Awaits V) : Prop := ∃ e, e.isException = false ∧ Raised e h

/-- What a driver may await. -/
def driverMay (runId tenantId : String) (h : Awaits V) : Op V → Prop
  | .runsSave s _ => HasRead runId tenantId s.id h ∧ (s.status = .cancelled → HasStruck h)
  | .memoryAppend .. => HasComposed h
  | .runsCreate _ => False
  | _ => True

/-- The operations that are neither writes nor those of the cache service. -/
def Op.isBeside (o : Op V) : Bool := !o.isFlight && !o.isWrite

section
variable {o : Op V}

theorem driverMay_of_isWrite (ho : o.isWrite = false) {runId tenantId : String} (h : Awaits V) :
    driverMay runId tenantId h o := by
  cases o <;> trivial

theorem Op.isBeside_of_isAside (ho : o.isAside = true) : o.isBeside = true := by
  cases o <;> first | rfl | cases ho

end

/-- Programs of such operations that only raise their own exceptions. -/
abbrev Beside {α : Type} (p : Task V α) : Prop := Calm (fun o => o.isBeside = true) ownExn p

section
variable {α : Type} {s : RunState V} {agent : AgentDefinition V}

theorem Aside.beside {p : Task V α} {X : Exn → Prop} (hp : Aside X p) (hX : ∀ e, X e → ownExn e) :
    Beside p :=
  (hp.mono hX).mono_op fun _ => Op.isBeside_of_isAside

theorem emit_beside {body : EventBody V} {stepId : Option String} :
    Beside (emit s body stepId) :=
  Aside.beside (X := fun _ => False) emit_aside fun _ h => h.elim

theorem policyValue_beside {point : PolicyPoint} {payload : Payload V} {context : PolicyContext V} :
    Beside (policyValue point payload s context) :=
  policyValue_aside.beside ownExn_of_isFailure

theorem execute_beside {cfg : Config V} {name : String} {arguments : Dict String V}
    {context : ToolContext} : Beside (ToolExecutor.execute cfg name arguments context) := by
  refine (execute_calm.mono ownExn_of_isFailure).mono_op fun o ho => ?_
  cases o <;> first | rfl | (rcases ho with ho | ho <;> cases ho)

theorem create_beside {runId stepId tenantId proposedAction risk : String}
    {parameters : Dict String V} {expiresSeconds : Nat} :
    Beside (ApprovalService.create runId stepId tenantId proposedAction parameters risk
      expiresSeconds) :=
  Calm.bind (Calm.call rfl) fun _ => Calm.bind (Calm.call rfl) fun _ =>
    Calm.bind (Calm.call rfl) fun _ => Calm.pure _

theorem validateTransition_eq_error {a b : RunStatus} {e : Exn}
    (h : validateTransition a b = .error e) : ownExn e := by
  unfold validateTransition at h
  split at h <;> cases h
  rfl

end

/-! ## The steps of a driver -/

section
variable {cfg : Config V} {runId tenantId i : String} {α β : Type}

/-- What a driver of the run may follow. -/
abbrev driverFollow (cfg : Config V) (runId tenantId : String) : Awaits V → Op V → Prop :=
  mayFollow cfg (fun _ => True) ownExn (driverMay runId tenantId)

variable (cfg runId tenantId i) in
/-- Once the run `i` is read, the program does what a driver may, and returns a state of that
    run. -/
def Conducts (g : α → RunState V) (p : Task V α) : Prop :=
  ∀ h, HasRead runId tenantId i h → p.Obeys (driverFollow cfg runId tenantId)
    (fun x h' => EndsLevel ownExn h x h' ∧ ∀ a, x = .ok a → (g a).id = i) h

variable {g : α → RunState V} {k : β → RunState V}

theorem Conducts.pure {a : α} (ha : (g a).id = i) :
    Conducts cfg runId tenantId i g (Pure.pure a) := by
  refine fun h _ => ⟨EndsLevel.pure a, fun a' ha' => ?_⟩
  cases ha'
  exact ha

theorem Conducts.throw {e : Exn} (he : ownExn e) :
    Conducts cfg runId tenantId i g (throw e) := by
  refine fun h _ => ⟨⟨[], rfl, .nil, fun e' he' => Or.inl ?_⟩, fun a ha => nomatch ha⟩
  cases he'
  exact he

theorem Conducts.bind {p : Task V α} {f : α → Task V β} (hp : Conducts cfg runId tenantId i g p)
    (hf : ∀ a, (g a).id = i → Conducts cfg runId tenantId i k (f a)) :
    Conducts cfg runId tenantId i k (p >>= f) := by
  refine fun h hr => Obeys.bind ((hp h hr).mono fun x h' hx => ?_)
  obtain ⟨⟨l, rfl, hl, he⟩, hg⟩ := hx
  cases x with
  | error e => exact ⟨⟨l, rfl, hl, fun e' he' => he e' (by cases he'; rfl)⟩, fun a ha => nomatch ha⟩
  | ok a =>
    refine (hf a (hg a rfl) _ (hr.mono (List.suffix_append l h))).mono fun y h'' hy => ?_
    exact ⟨hy.1.append hl, hy.2⟩

/-- The program is polite whatever it returns. -/
theorem Beside.polite {p : Task V α} (hp : Beside p) :
    Polite cfg (fun _ => True) ownExn (driverMay runId tenantId) ownExn p := by
  refine Polite.of_calm (hp.mono_op fun o ho => ⟨?_, fun h => driverMay_of_isWrite ?_ h⟩) <;>
    cases o <;> first | rfl | cases ho

theorem Conducts.of_beside {p : Task V α} (hp : Beside p) (hg : p.Ends fun a => (g a).id = i) :
    Conducts cfg runId tenantId i g p :=
  fun h _ => (hp.polite h).ends hg

/-- What follows a program that ends level. -/
theorem Conducts.after {p : Task V β} {f : β → Task V α} {h : Awaits V}
    (hp : p.Obeys (driverFollow cfg runId tenantId) (EndsLevel ownExn h) h)
    (hr : HasRead runId tenantId i h) (hf : ∀ b, Conducts cfg runId tenantId i g (f b)) :
    (p >>= f).Obeys (driverFollow cfg runId tenantId)
      (fun x h' => EndsLevel ownExn h x h' ∧ ∀ a, x = .ok a → (g a).id = i) h := by
  refine Obeys.bind (hp.mono fun x h' hx => ?_)
  obtain ⟨l, rfl, hl, he⟩ := hx
  cases x with
  | error e => exact ⟨⟨l, rfl, hl, fun e' he' => he e' (by cases he'; rfl)⟩, fun a ha => nomatch ha⟩
  | ok b =>
    refine (hf b _ (hr.mono (List.suffix_append l h))).mono fun y h'' hy => ?_
    exact ⟨hy.1.append hl, hy.2⟩

/-- A program beside the run, and what follows it. -/
theorem Beside.bind {p : Task V β} {f : β → Task V α} (hp : Beside p)
    (hf : ∀ b, Conducts cfg runId tenantId i g (f b)) :
    Conducts cfg runId tenantId i g (p >>= f) :=
  fun h hr => Conducts.after (hp.polite h) hr hf

/-- It is no write. -/
theorem Beside.composed {p : Task V α} (hp : Beside p) {h : Awaits V} (hc : HasComposed h) :
    p.Obeys (driverFollow cfg runId tenantId)
      (fun x h' => EndsLevel ownExn h x h' ∧ HasComposed h') h := by
  have kept : p.Obeys (fun _ _ => True) (fun _ h' => HasComposed h') h := by
    refine Obeys.of_uses (fun _ _ _ _ => trivial) (fun o r h ho hc => hc.cons ?_ r) hp.uses hc
    cases o <;> first | rfl | cases ho
  exact (hp.polite h).and kept

end

section
variable {cfg : Config V} {runId tenantId i : String} {s : RunState V} {agent : AgentDefinition V}

/-- A step of the driver of run `i`. -/
abbrev Conducted (cfg : Config V) (runId tenantId i : String) (p : Task V (RunState V)) : Prop :=
  Conducts cfg runId tenantId i id p

/-- The last await of the task was a write of this status, and it returned. -/
def HasWritten (status : RunStatus) (h : Awaits V) : Prop :=
  ∃ s v h', s.status = status ∧
    h = (⟨.runsSave s v, .ok ()⟩ : (o : Op V) × Except Exn o.Resp) :: h'

theorem HasWritten.composed {h : Awaits V} (hw : HasWritten .composing h) : HasComposed h := by
  obtain ⟨s, v, h', hs, rfl⟩ := hw
  exact ⟨s, v, [], h', hs, rfl, fun x hx => nomatch hx⟩

theorem saveAs_obeys {target : RunStatus} {h : Awaits V} (hs : s.id = i)
    (hr : HasRead runId tenantId i h) (ht : target = .cancelled → HasStruck h) :
    (saveAs s target).Obeys (driverFollow cfg runId tenantId) (fun x h' =>
      EndsLevel ownExn h x h' ∧ ∀ s', x = .ok s' → s'.id = i ∧ HasWritten target h') h := by
  refine Obeys.bind (Obeys.call trivial fun r => ?_)
  have hl : Level h [⟨.utcNow, r⟩] := level_quiet rfl r
  cases r with
  | error e => exact ⟨.received rfl, fun a ha => nomatch ha⟩
  | ok now =>
    refine Obeys.bind (Obeys.call ⟨?_, fun hc => ?_⟩ fun r => ?_)
    · exact hs ▸ hr.mono (List.suffix_cons _ h)
    · obtain ⟨e, he, hraised⟩ := ht hc
      exact ⟨e, he, hraised.cons⟩
    · cases r with
      | ok _ =>
        refine ⟨⟨_, rfl, hl.append (level_quiet rfl _), fun e he => nomatch he⟩, fun a ha => ?_⟩
        cases ha
        exact ⟨hs, _, _, _, rfl, rfl⟩
      | error e => exact ⟨EndsLevel.append hl (.received rfl), fun a ha => nomatch ha⟩

theorem transition_obeys {target : RunStatus} {h : Awaits V} (hs : s.id = i)
    (hr : HasRead runId tenantId i h) (ht : target = .cancelled → HasStruck h) :
    (transition s target).Obeys (driverFollow cfg runId tenantId) (fun x h' =>
      EndsLevel ownExn h x h' ∧ ∀ s', x = .ok s' → s'.id = i ∧ HasWritten target h') h := by
  refine Obeys.bind (Obeys.lift ?_)
  cases hv : validateTransition s.status target with
  | ok _ => exact saveAs_obeys hs hr ht
  | error e =>
    refine ⟨⟨[], rfl, .nil, fun e' he' => Or.inl ?_⟩, fun a ha => nomatch ha⟩
    cases he'
    exact validateTransition_eq_error hv

theorem transition_conducted {target : RunStatus} (hs : s.id = i) (ht : target ≠ .cancelled) :
    Conducted cfg runId tenantId i (transition s target) :=
  fun _ hr => (transition_obeys hs hr fun hc => absurd hc ht).mono
    fun _ _ hx => ⟨hx.1, fun s' hs' => (hx.2 s' hs').1⟩

/-- A step that ends with an event. -/
theorem announced_conducted {target : RunStatus} {body : RunState V → EventBody V}
    {stepId : Option String} (hs : s.id = i) (ht : target ≠ .cancelled) :
    Conducted cfg runId tenantId i (do
      let s ← transition s target
      emit s (body s) stepId
      Pure.pure s) :=
  (transition_conducted hs ht).bind fun _ hs₁ => emit_beside.bind fun _ => .pure hs₁

/-! ### Model calls -/

variable {request : ModelRequest V} {profiles : List (ModelProfile V)} {stepId : String}

theorem attemptModel_conducts (hs : s.id = i) :
    Conducts cfg runId tenantId i Prod.snd (attemptModel s agent request profiles stepId) := by
  refine .of_beside (attemptModel_aside.beside ownExn_of_isFailure) ?_
  refine Ends.handle (Ends.after _ fun response => Ends.pure ?_) fun e => ?_
  · split <;> exact hs
  · cases e <;> first | exact Ends.pure hs | exact Ends.throw _

theorem backOff_conducted {attempt : Nat} (hs : s.id = i) :
    Conducted cfg runId tenantId i (backOff s agent attempt) := by
  refine Conducts.bind (g := id) (transition_conducted hs ?_) fun s₁ hs₁ =>
    Beside.bind (Calm.call rfl) fun _ => transition_conducted hs₁ ?_
  · decide
  · decide

theorem modelWithRetry_conducts {attempt rest : Nat} (hs : s.id = i) :
    Conducts cfg runId tenantId i Prod.snd
      (modelWithRetry agent profiles stepId attempt rest s request) := by
  induction rest generalizing attempt s request with
  | zero =>
    refine (attemptModel_conducts hs).bind fun x hx => ?_
    cases x.1 with
    | ok response => exact .pure hx
    | error f => exact .throw rfl
  | succ rest ih =>
    refine (attemptModel_conducts hs).bind fun x hx => ?_
    cases x.1 with
    | ok response => exact .pure hx
    | error f =>
      dsimp only
      split
      · refine Beside.bind (Calm.lift fun e he => ownExn_of_isFailure e (enforceBudget_eq_error he))
          fun _ => Beside.bind (nextRequest_aside.beside ownExn_of_isFailure) fun _ =>
            (backOff_conducted hx).bind fun _ hs₁ => ih hs₁
      · exact .throw rfl

/-- **A call of the cache service** whose loader is a step of the driver. -/
theorem getOrSetJson_conducts {policies : Dict String CachePolicy} {policyName ns : String}
    {material : V} {context : CacheContext} {loader : Task V (V × RunState V)}
    {tags : List String} (hs : s.id = i) (hl : Conducts cfg runId tenantId i Prod.snd loader) :
    Conducts cfg runId tenantId i Prod.snd (CacheService.getOrSetJson cfg.lib policies policyName
      ns material context s loader tags) := by
  intro h hr
  let c : CacheCall V := ⟨policies, policyName, ns, material, context, s, loader, tags⟩
  have hcall : (c.task cfg.lib).Obeys (driverFollow cfg runId tenantId) (EndsLevel ownExn h) h := by
    refine (call_obeys (fun h o ho => driverMay_of_isWrite ?_ h) ownExn_of_isFailure (fun _ => id)
      trivial fun h' hh => (hl h' (hr.mono hh)).mono fun _ _ => And.left).mono fun _ _ => And.left
    cases o <;> first | rfl | cases ho
  have hends : loader.Ends fun x => x.2.id = i := (hl h hr).ends_of fun _ _ hx => hx.2 _ rfl
  exact (hcall.ends (getOrSetJson_ends (P := fun s => s.id = i) hs hends)).mono
    fun _ _ hx => hx

theorem generateResponse_conducts (hs : s.id = i) :
    Conducts cfg runId tenantId i Prod.snd (generateResponse s agent request profiles stepId) :=
  modelWithRetry_conducts hs

theorem modelResponse_conducts (hs : s.id = i) :
    Conducts cfg runId tenantId i Prod.snd
      (modelResponse cfg s agent request profiles stepId) := by
  unfold modelResponse
  split
  · exact (generateResponse_conducts hs).bind fun x hx => .pure hx
  · split
    · exact (generateResponse_conducts hs).bind fun x hx => .pure hx
    · refine (getOrSetJson_conducts hs ((generateResponse_conducts hs).bind fun x hx =>
        .pure hx)).bind fun x hx => ?_
      split
      · exact .throw rfl
      · exact .pure hx

theorem executeModel_conducted {action : PlannedAction V} (hs : s.id = i) :
    Conducted cfg runId tenantId i (executeModel cfg s agent action) := by
  refine Conducts.bind (g := id) (transition_conducted hs ?_) fun s₁ hs₁ =>
    (remainingSeconds_aside.beside fun _ => id).bind fun _ => policyValue_beside.bind fun _ =>
      emit_beside.bind fun _ => (modelResponse_conducts hs₁).bind fun x hx =>
        policyValue_beside.bind fun _ => emit_beside.bind fun _ => Beside.bind (Calm.call rfl)
          fun _ => transition_conducted hx ?_
  · decide
  · decide

/-! ### Tool calls -/

theorem requestApproval_conducted {action : PlannedAction V} {d : ToolDefinition V}
    {callId : String} {decision : PolicyDecision V} (hs : s.id = i) :
    Conducted cfg runId tenantId i (requestApproval cfg s agent action d callId decision) := by
  refine create_beside.bind fun approval => announced_conducted hs ?_
  decide

theorem invokeTool_conducted {action : PlannedAction V} {d : ToolDefinition V} {callId : String}
    (hs : s.id = i) : Conducted cfg runId tenantId i (invokeTool cfg s agent action d callId) := by
  refine Conducts.bind (g := id) (transition_conducted hs ?_) fun s₁ hs₁ =>
    emit_beside.bind fun _ => execute_beside.bind fun _ => emit_beside.bind fun _ =>
      Beside.bind (Calm.call rfl) fun _ => transition_conducted hs₁ ?_
  · decide
  · decide

theorem executeTool_conducted {action : PlannedAction V} (hs : s.id = i) :
    Conducted cfg runId tenantId i (executeTool cfg s agent action) := by
  refine Beside.bind (Calm.raiseIf rfl) fun _ =>
    Beside.bind (Calm.lift fun e he => ownExn_of_isFailure e (toolsGet_eq_error he)) fun d =>
      Beside.bind (Calm.call rfl) fun decision => ?_
  split
  · exact requestApproval_conducted hs
  · exact invokeTool_conducted hs

/-! ### Completion -/

theorem repair_conducted (hs : s.id = i) : Conducted cfg runId tenantId i (repair s) := by
  refine Conducts.bind (g := id) (transition_conducted hs ?_) fun s₁ hs₁ =>
    transition_conducted hs₁ ?_
  · decide
  · decide

/-- The driver appends to the memory once it has written COMPOSING. -/
theorem writeMemory_obeys {h : Awaits V} (hc : HasComposed h) :
    (writeMemory s agent).Obeys (driverFollow cfg runId tenantId) (EndsLevel ownExn h) h := by
  unfold writeMemory
  split
  · refine Obeys.bind ((policyValue_beside.composed hc).mono fun x h₁ hx => ?_)
    obtain ⟨⟨l, rfl, hl, he⟩, hc₁⟩ := hx
    cases x with
    | error e => exact ⟨l, rfl, hl, fun e' he' => he e' (by cases he'; rfl)⟩
    | ok checked =>
      refine Obeys.bind (Obeys.call hc₁ fun r => ?_)
      cases r with
      | error e => exact EndsLevel.append hl (.received rfl)
      | ok _ =>
        refine (Beside.polite (Calm.bind policyValue_beside fun _ => Calm.pure ()) _).mono
          fun x h₂ hx => ?_
        exact hx.append (hl.append (level_quiet rfl _))
  · exact EndsLevel.pure ()

theorem compose_conducted (hs : s.id = i) :
    Conducted cfg runId tenantId i (compose cfg s agent stepId) := by
  refine policyValue_beside.bind fun checked h hr => Obeys.bind ?_
  have hs₀ : ({ s with outputText := some (payloadStr cfg checked) } : RunState V).id = i := hs
  have hst : RunStatus.composing = .cancelled → HasStruck h := nofun
  refine (transition_obeys hs₀ hr hst).mono fun x h₁ hx => ?_
  obtain ⟨⟨l, rfl, hl, he⟩, hs₁⟩ := hx
  cases x with
  | error e => exact ⟨⟨l, rfl, hl, fun e' he' => he e' (by cases he'; rfl)⟩, fun a ha => nomatch ha⟩
  | ok s₁ =>
    obtain ⟨hid, hw⟩ := hs₁ s₁ rfl
    refine (Conducts.after (writeMemory_obeys hw.composed) (hr.mono (List.suffix_append l h))
      fun _ => announced_conducted hid ?_).mono fun y h'' hy => ⟨hy.1.append hl, hy.2⟩
    decide

theorem verifyAndComplete_conducted (hs : s.id = i) :
    Conducted cfg runId tenantId i (verifyAndComplete cfg s agent stepId) := by
  refine Conducts.bind (g := id) (transition_conducted hs ?_) fun s₁ hs₁ =>
    Beside.bind (Calm.call rfl) fun results => emit_beside.bind fun _ => ?_
  · decide
  · split
    · exact compose_conducted hs₁
    · split
      · exact repair_conducted hs₁
      · exact .throw rfl

/-! ### The loop -/

theorem executeAction_conducted {action : PlannedAction V} (hs : s.id = i) :
    Conducted cfg runId tenantId i (executeAction cfg s agent action) := by
  unfold executeAction
  cases action.type with
  | clarify =>
    refine announced_conducted hs ?_
    decide
  | tool => exact executeTool_conducted hs
  | model => exact executeModel_conducted hs
  | complete => exact verifyAndComplete_conducted hs
  | fail =>
    refine announced_conducted hs ?_
    decide
  | approve => exact .throw rfl

theorem withInput_id (x : Option (Payload V)) : (withInput s x).id = s.id := (withInput_same x).id

theorem receive_conducted (hs : s.id = i) :
    Conducted cfg runId tenantId i (receive s agent) := by
  refine Conducts.bind (g := id) (transition_conducted hs ?_) fun s₁ hs₁ =>
    policyValue_beside.bind fun checked => transition_conducted ((withInput_id checked).trans hs₁) ?_
  · decide
  · decide

theorem retrieve_conducted (hs : s.id = i) :
    Conducted cfg runId tenantId i (retrieve cfg s agent) := by
  refine policyValue_beside.bind fun checked => Beside.bind (Calm.raiseIf rfl) fun _ =>
    Beside.bind (Calm.call rfl) fun built => policyValue_beside.bind fun checked' =>
      emit_beside.bind fun _ => transition_conducted ?_ ?_
  · split <;> exact (withInput_id checked).trans hs
  · decide

theorem planStep_conducted (hs : s.id = i) :
    Conducted cfg runId tenantId i (planStep cfg s agent) := by
  refine Beside.bind (Calm.raiseIf rfl) fun _ => Beside.bind (Calm.call rfl) fun plan => ?_
  cases plan.actions with
  | nil => exact .throw rfl
  | cons action rest => exact emit_beside.bind fun _ => executeAction_conducted hs

/-- One turn of the loop, and what follows it. -/
theorem turn_conducted {next : RunState V → Task V (RunState V)} (hs : s.id = i)
    (hnext : ∀ s', s'.id = i → Conducted cfg runId tenantId i (next s')) :
    Conducted cfg runId tenantId i (do
      Prog.raiseIf (s.stepCount ≥ agent.maxSteps)
        (.budgetExceeded s!"maximum step limit {agent.maxSteps} reached")
      Prog.lift (enforceBudget s agent)
      let s ← if s.status = .buildingContext then retrieve cfg s agent else Pure.pure s
      if s.status = .planning then next s else do
        await .spin
        Pure.pure s) := by
  have go : ∀ s' : RunState V, s'.id = i → Conducted cfg runId tenantId i
      (if s'.status = .planning then next s' else do await .spin; Pure.pure s') := by
    intro s' hs'
    split
    · exact hnext s' hs'
    · exact Beside.bind (Calm.call rfl) fun _ => .pure hs'
  refine Beside.bind (Calm.raiseIf rfl) fun _ =>
    Beside.bind (Calm.lift fun e he => ownExn_of_isFailure e (enforceBudget_eq_error he)) fun _ => ?_
  dsimp only
  split
  · exact (retrieve_conducted hs).bind go
  · exact go s hs

theorem loop_conducted {fuel : Nat} (hs : s.id = i) :
    Conducted cfg runId tenantId i (loop cfg agent fuel s) := by
  induction fuel generalizing s with
  | zero =>
    unfold loop
    split
    · exact .pure hs
    · exact turn_conducted hs fun s' hs' => Beside.bind (Calm.call rfl) fun _ => .pure hs'
  | succ fuel ih =>
    unfold loop
    split
    · exact .pure hs
    · exact turn_conducted hs fun s' hs' => (planStep_conducted hs').bind fun _ => ih

theorem execute_conducted (hs : s.id = i) :
    Conducted cfg runId tenantId i (execute cfg s agent) := by
  unfold execute
  split
  · exact (receive_conducted hs).bind fun _ => loop_conducted
  · exact loop_conducted hs

/-- The work of a driver raises its own exceptions, and those that it has received. -/
theorem executeTimed_obeys {h : Awaits V} (hr : HasRead runId tenantId s.id h) :
    (executeTimed cfg s agent).Obeys (driverFollow cfg runId tenantId) (EndsLevel ownExn h) h := by
  refine Obeys.bind (((remainingSeconds_aside (X := ownExn)).beside (fun _ => id)).polite h |>.mono
    fun x h' hx => ?_)
  obtain ⟨l, rfl, hl, he⟩ := hx
  have hwork : Conducted cfg runId tenantId s.id (execute cfg s agent) := execute_conducted rfl
  have hexec := hwork (l ++ h) (hr.mono (List.suffix_append l h))
  cases x with
  | error e => exact ⟨l, rfl, hl, fun e' he' => he e' (by cases he'; rfl)⟩
  | ok remaining =>
    cases remaining with
    | none =>
      refine Obeys.bind (hexec.mono fun x h' hx => ?_)
      obtain ⟨l', rfl, hl', he'⟩ := hx.1.append hl
      cases x with
      | ok s' => exact ⟨l', rfl, hl', fun e he => nomatch he⟩
      | error e => exact ⟨l', rfl, hl', fun e₁ he₁ => he' e₁ (by cases he₁; rfl)⟩
    | some _ =>
      refine Obeys.bind (Obeys.handle (hexec.timed.mono fun x h' hx => ?_))
      obtain ⟨l', rfl, hl', he'⟩ := hx.1.append hl
      cases x with
      | ok s' => exact ⟨l', rfl, hl', fun e he => nomatch he⟩
      | error e =>
        refine ⟨l', rfl, hl', fun e₁ he₁ => ?_⟩
        cases he₁
        split
        · exact Or.inl rfl
        · exact he' e rfl

/-! ### Whole drivers -/

/-- The run is read, and what follows. -/
theorem requireState_obeys {α : Type} {f : RunState V → Task V α} {h : Awaits V}
    (hf : ∀ s h', h <:+ h' → HasRead runId tenantId s.id h' →
      (f s).Obeys (driverFollow cfg runId tenantId) (fun _ _ => True) h') :
    (requireState runId tenantId >>= f).Obeys (driverFollow cfg runId tenantId)
      (fun _ _ => True) h := by
  refine Obeys.bind (Obeys.bind (Obeys.call trivial fun r => ?_))
  cases r with
  | error e => trivial
  | ok state =>
    cases state with
    | none => trivial
    | some s => exact hf s _ (List.suffix_cons _ h) ⟨s, rfl, List.mem_cons_self⟩

/-- The end of a run that its driver gives up. -/
theorem settle_obeys {target : RunStatus} {body : RunState V → EventBody V} {h : Awaits V}
    (hr : HasRead runId tenantId s.id h) (ht : target = .cancelled → HasStruck h) :
    (do let s ← transition s target; emit s (body s) none : Task V Unit).Obeys
      (driverFollow cfg runId tenantId) (fun _ _ => True) h := by
  refine Obeys.bind ((transition_obeys rfl hr ht).mono fun x h' hx => ?_)
  cases x with
  | error e => trivial
  | ok s' => exact (emit_beside.polite h').mono fun _ _ _ => trivial

theorem cancelled_obeys {h : Awaits V} (hst : HasStruck h) :
    (cancelled runId tenantId : Task V Unit).Obeys (driverFollow cfg runId tenantId)
      (fun _ _ => True) h := by
  refine requireState_obeys fun s h' hh hr => ?_
  have struck : ∀ {h'' : Awaits V}, h <:+ h'' → HasStruck h'' := by
    obtain ⟨e, he, o, ho⟩ := hst
    exact fun hh => ⟨e, he, o, hh.subset ho⟩
  split
  · trivial
  · refine Obeys.bind (Obeys.call trivial fun r => ?_)
    have hcons : h' <:+ ⟨.shutdownCancellation, r⟩ :: h' := List.suffix_cons _ h'
    have hh' := hh.trans hcons
    have hr' := hr.mono hcons
    cases r with
    | error e => trivial
    | ok shutdown =>
      dsimp only
      split
      · refine Obeys.bind ((saveAs_obeys rfl hr' fun _ => struck hh').mono fun x _ _ => ?_)
        cases x <;> trivial
      · exact settle_obeys hr' fun _ => struck hh'

/-- **A driver does what it may.** -/
theorem drive_obeys (cfg : Config V) (runId tenantId : String) :
    (drive cfg runId tenantId).Obeys (driverFollow cfg runId tenantId) (fun _ _ => True) [] := by
  refine requireState_obeys fun s h _ hr => Obeys.bind (Obeys.call trivial fun r => ?_)
  cases r with
  | error e => trivial
  | ok agent =>
    refine Obeys.bind (Obeys.mono (Q := fun _ _ => True) (Obeys.handle ?_) fun x h' _ => ?_)
    · refine (executeTimed_obeys (hr.mono (List.suffix_cons _ h))).mono fun x h' hx => ?_
      obtain ⟨l, rfl, -, he⟩ := hx
      cases x with
      | ok u => trivial
      | error e =>
        have struck : e.isException = false → HasStruck (l ++ ⟨.agentsGet .., .ok agent⟩ :: h) := by
          intro hexn
          rcases he e rfl with hown | hraised
          · rw [hown] at hexn; cases hexn
          · exact ⟨e, hexn, hraised.append_right⟩
        have gives : ∀ {target : RunStatus} {s : RunState V} {body : RunState V → EventBody V}
            {h : Awaits V}, target ≠ .cancelled → HasRead runId tenantId s.id h →
            (do let s ← transition s target; emit s (body s) none : Task V Unit).Obeys
              (driverFollow cfg runId tenantId) (fun _ _ => True) h :=
          fun ht hr => settle_obeys hr fun hc => absurd hc ht
        have failed : (failed runId tenantId e).Obeys (driverFollow cfg runId tenantId)
            (fun _ _ => True) (l ++ ⟨.agentsGet .., .ok agent⟩ :: h) := by
          refine requireState_obeys fun s h' _ hr => ?_
          split
          · trivial
          · exact gives (by decide) hr
        cases e with
        | timeoutError =>
          refine requireState_obeys fun s h' _ hr => ?_
          split
          · trivial
          · exact gives (by decide) hr
        | cancelled => exact cancelled_obeys (struck rfl)
        | deadline => exact cancelled_obeys (struck rfl)
        | _ => exact failed
    · cases x with
      | error e => trivial
      | ok u => exact requireState_obeys fun _ _ _ _ => trivial

end

/-! ## Calls -/

/-- What a call may await: only `cancel` writes CANCELLED, for the run it has read. -/
def callMay (c : Call V) (h : Awaits V) : Op V → Prop
  | .runsCreate s => s.status = .received
  | .runsSave s _ => s.status ≠ .composing ∧ (s.status = .cancelled →
      ∃ runId tenantId, c = .cancel runId tenantId ∧ HasRead runId tenantId s.id h)
  | .memoryAppend .. => False
  | o => o.isFlight = false

/-- The operations of the other calls. -/
def Op.isModest : Op V → Bool
  | runsCreate s => s.status = .received
  | runsSave s _ => s.status ≠ .composing && s.status ≠ .cancelled
  | memoryAppend .. => false
  | o => !o.isFlight

section
variable {cfg : Config V} {runId tenantId : String} {s : RunState V}

/-- A program of such operations. -/
abbrev Modest {α : Type} (p : Task V α) : Prop := p.Uses fun o => o.isModest = true

theorem Op.isModest_of_isBeside {o : Op V} (ho : o.isBeside = true) : o.isModest = true := by
  cases o <;> first | rfl | cases ho

theorem emit_modest {body : EventBody V} {stepId : Option String} : Modest (emit s body stepId) :=
  emit_beside.uses.mono fun _ => Op.isModest_of_isBeside

theorem requireState_modest : Modest (requireState runId tenantId : Task V (RunState V)) := by
  refine Uses.bind (Uses.call rfl) fun state => ?_
  cases state <;> trivial

theorem saveAs_modest {target : RunStatus} (h₁ : target ≠ .composing) (h₂ : target ≠ .cancelled) :
    Modest (saveAs s target) :=
  Uses.bind (Uses.call rfl) fun _ => Uses.bind (Uses.call (by simp [Op.isModest, h₁, h₂])) fun _ =>
    Uses.pure _

theorem transition_modest {target : RunStatus} (h₁ : target ≠ .composing)
    (h₂ : target ≠ .cancelled) : Modest (transition s target) :=
  Uses.bind (Uses.lift _) fun _ => saveAs_modest h₁ h₂

theorem start_modest {request : RunRequest V} : Modest (start request) :=
  Uses.bind (Uses.call rfl) fun _ => Uses.bind (Uses.raiseIf _ _) fun _ =>
    Uses.bind (Uses.call rfl) fun _ => Uses.bind (Uses.call rfl) fun _ =>
      Uses.bind (Uses.call rfl) fun _ => Uses.bind (Uses.call rfl) fun _ =>
        Uses.bind (Uses.call rfl) fun _ => Uses.bind emit_modest fun _ =>
          Uses.bind (Uses.call rfl) fun _ => Uses.pure _

theorem resume_modest {payload : ResumePayload V} : Modest (resume cfg runId tenantId payload) := by
  refine Uses.bind requireState_modest fun s => ?_
  split
  · refine Uses.bind (Uses.bind (Uses.raiseIf _ _) fun _ => transition_modest ?_ ?_) fun _ =>
      Uses.bind (Uses.call rfl) fun _ => Uses.pure _
    · decide
    · decide
  · refine Uses.bind (Uses.lift _) fun decision => Uses.bind (decide_uses.mono fun o ho => ?_)
      fun approval => ?_
    · cases o <;> first | rfl | cases ho
    · split
      · refine Uses.bind (transition_modest ?_ ?_) fun _ => Uses.bind emit_modest fun _ => Uses.pure _
        · decide
        · decide
      · refine Uses.bind (transition_modest ?_ ?_) fun _ => Uses.bind (Uses.call rfl) fun _ =>
          Uses.pure _
        · decide
        · decide
  · exact Uses.throw _

theorem recoverRun_modest : Modest (recoverRun s) := by
  have rest : ∀ overdue : Bool, Modest (if overdue = true then do
        let s ← saveAs { s with error := some "Run deadline elapsed before recovery." } .timedOut
        emit s (.runFailed (some "timeout_during_recovery") none) none
        Pure.pure false
      else do
        let s ← if s.status.recoveryStatus = s.status then Pure.pure s
          else saveAs s s.status.recoveryStatus
        await (.schedule s.id s.request.tenantId)
        Pure.pure true) := by
    intro overdue
    split
    · refine Uses.bind (saveAs_modest ?_ ?_) fun _ => Uses.bind emit_modest fun _ => Uses.pure _
      · decide
      · decide
    · dsimp only
      split
      · exact Uses.bind (Uses.pure _) fun _ => Uses.bind (Uses.call rfl) fun _ => Uses.pure _
      · rename_i hne
        refine Uses.bind (saveAs_modest ?_ ?_) fun _ => Uses.bind (Uses.call rfl) fun _ => Uses.pure _
        · cases s.status <;> decide
        · intro hc
          cases hs : s.status <;> rw [hs] at hc hne <;> first | exact hne rfl | cases hc
  refine Uses.bind (Uses.call rfl) fun live => ?_
  split
  · exact Uses.pure _
  · dsimp only
    split
    · exact rest false
    · exact Uses.bind (Uses.call rfl) fun now => rest _

theorem recoverAll_modest {l : List (RunState V)} {n : Nat} : Modest (recoverAll l n) := by
  induction l generalizing n with
  | nil => exact Uses.pure _
  | cons s l ih => exact Uses.bind recoverRun_modest fun _ => ih

theorem shutdown_modest : Modest (AgentRuntime.shutdown : Task V Unit) := by
  refine Uses.bind (Uses.call rfl) fun tasks => ?_
  split
  · exact Uses.pure _
  · refine Uses.bind (Uses.call rfl) fun _ => Uses.bind (Uses.call rfl) fun pending => ?_
    split
    · exact Uses.pure _
    · exact Uses.call rfl

theorem cancel_obeys : (cancel runId tenantId : Task V (RunState V)).Obeys
    (callMay (.cancel runId tenantId)) (fun _ _ => True) [] := by
  refine Obeys.bind (Obeys.bind (Obeys.call rfl fun r => ?_))
  cases r with
  | error e => trivial
  | ok state =>
    cases state with
    | none => trivial
    | some s =>
      change Obeys _ _ (if s.status.isTerminal = true then Pure.pure s else _) _
      split
      · trivial
      · refine Obeys.bind (Obeys.call rfl fun r => ?_)
        cases r with
        | error e => trivial
        | ok _ =>
          refine Obeys.bind (Obeys.bind (Obeys.lift ?_))
          cases validateTransition s.status .cancelled with
          | error e => trivial
          | ok _ =>
            refine Obeys.bind (Obeys.call rfl fun r => ?_)
            cases r with
            | error e => trivial
            | ok now =>
              refine Obeys.bind (Obeys.call ⟨nofun, fun _ => ?_⟩ fun r => ?_)
              · exact ⟨runId, tenantId, rfl, s, rfl, by simp⟩
              · cases r with
                | error e => trivial
                | ok _ =>
                  refine Obeys.bind (Obeys.mono (Q := fun _ _ => True) ?_ fun x h' _ => ?_)
                  · refine Obeys.of_uses (G := fun _ => True) (fun o h ho _ => ?_)
                      (fun _ _ _ _ _ => trivial) emit_beside.uses trivial
                    cases o <;> first | rfl | cases ho
                  · cases x <;> trivial

/-- **A call does what it may.** -/
theorem Call.task_obeys (cfg : Config V) (c : Call V) :
    (c.task cfg).Obeys (callMay c) (fun _ _ => True) [] := by
  have modest : ∀ {p : Task V Unit}, Modest p → p.Obeys (callMay c) (fun _ _ => True) [] := by
    intro p hp
    refine Obeys.of_uses (G := fun _ => True) (fun o h ho _ => ?_) (fun _ _ _ _ _ => trivial) hp
      trivial
    cases o with
    | runsSave s v =>
      simp only [Op.isModest, Bool.and_eq_true, decide_eq_true_eq] at ho
      exact ⟨ho.1, fun hc => absurd hc ho.2⟩
    | runsCreate s => exact of_decide_eq_true (p := s.status = .received) ho
    | _ => first | rfl | cases ho
  have dropped : ∀ {α : Type} {p : Task V α}, Modest p →
      (do let _ ← p; Pure.pure () : Task V Unit).Obeys (callMay c) (fun _ _ => True) [] :=
    fun hp => modest (Uses.bind hp fun _ => Uses.pure _)
  cases c with
  | start request => exact dropped start_modest
  | run request =>
    refine modest (run_uses start_modest (fun _ => rfl) (fun _ => rfl) (fun _ _ => rfl) fun _ _ => ?_)
    exact Uses.bind requireState_modest fun _ => Uses.bind (Uses.call rfl) fun _ =>
      Uses.bind (Uses.raiseIf _ _) fun _ => Uses.call rfl
  | cancel runId tenantId =>
    refine Obeys.bind (cancel_obeys.mono fun x h _ => ?_)
    cases x <;> trivial
  | resume runId tenantId payload => exact dropped resume_modest
  | recover limit => exact dropped (Uses.bind (Uses.call rfl) fun _ => recoverAll_modest)
  | shutdown => exact modest shutdown_modest
  | register definition => exact modest (Uses.call rfl)

end

/-! ## What the store shows -/

/-- The runs that an answer shows as they are persisted. -/
def Op.shows : (o : Op V) → Except Exn o.Resp → List (RunState V)
  | runsGet .., .ok (some s) => [s]
  | runsListActive _, .ok active => active
  | runsSave s v, .ok _ => [{ s with version := v + 1 }]
  | _, _ => []

/-- The run was persisted so. -/
def Persisted (w : World V) (s : RunState V) : Prop :=
  ∃ h, w.runs.get s.id = some h ∧ ∃ r ∈ h.records, r.state = s

section
variable {cfg : Config V} {t : Nat} {b : Bool} {w w' : World V} {s : RunState V} {o : Op V}
  {r : Except Exn o.Resp} {a : Act cfg.sem.Ans Exn o}

theorem Persisted.grows (hs : Persisted w s) (hg : Grows w.runs w'.runs) : Persisted w' s := by
  obtain ⟨h, hget, r, hr, hstate⟩ := hs
  obtain ⟨h', hget', hsuf⟩ := hg s.id h hget
  exact ⟨h', hget', r, hsuf.subset hr, hstate⟩

theorem persisted_current {id : String} {h₀ : History V} (hv : InOrder w.runs)
    (hget : w.runs.get id = some h₀) : Persisted w h₀.current.state := by
  refine ⟨h₀, ?_, h₀.current, List.mem_cons_self, rfl⟩
  rw [hv.id id h₀ hget]
  exact hget

/-- **What an answer shows is persisted.** -/
theorem persisted_of_shows (hv : InOrder w.runs) (hact : cfg.sem.act t b w o a = some (r, w'))
    (hs : s ∈ Op.shows o r) : Persisted w' s := by
  cases r with
  | error e => cases o <;> cases hs
  | ok x =>
    cases o with
    | runsGet id tenantId =>
      cases x with
      | none => cases hs
      | some s₁ =>
        obtain rfl := List.mem_singleton.1 hs
        obtain ⟨rfl, h₀, hget, rfl⟩ := act_runsGet hact
        exact persisted_current hv hget
    | runsListActive limit =>
      obtain ⟨c, -, hc⟩ := done_of_act_ok hact
      simp only [World.effect, Option.some.injEq, Prod.mk.injEq, Except.ok.injEq] at hc
      obtain ⟨rfl, rfl⟩ := hc
      obtain ⟨id, h₀, hm, rfl, -⟩ := Runs.mem_listActive hs
      exact persisted_current hv (Dict.get_of_mem hv.nodup hm)
    | runsSave s₁ v =>
      obtain rfl := List.mem_singleton.1 hs
      rcases act_runsSave hact with ⟨-, e, he⟩ | hsave
      · cases he
      · obtain ⟨h₀, -, -, hruns⟩ := Runs.save_ok hsave
        refine ⟨h₀.push ⟨t, { s₁ with version := v + 1 }⟩, ?_, _, List.mem_cons_self, rfl⟩
        rw [hruns]
        exact Dict.get_set_self _ _ _
    | _ => cases hs

end

/-! ## Deployments -/

/-- The events of a run of the runtime's programs. -/
abbrev Log (cfg : Config V) (ρ : Type) := List (Event (Op.Resp (V := V)) cfg.sem.Ans Exn ρ)

section
variable {cfg : Config V} {A : Allow cfg.sem.Ans Exn (World V)} {calls : Nat → Call V}
  {crash : Nat → Prop}

/-- The task is a driver, or the call with its number. -/
def Employed (cfg : Config V) (calls : Nat → Call V) (w : World V) (t : Nat) (p : Task V Unit) :
    Prop :=
  t ∈ w.started ∧ ((∃ d, w.drivers.get t = some d ∧ p = drive cfg d.runId d.tenantId) ∨
    w.drivers.get t = none ∧ p = (calls t).task cfg)

theorem Employed.frame {w w' : World V} {t u : Nat} {p : Task V Unit} {o : Op V}
    (h : Employed cfg calls w u p) (hf : World.Frame t o w w') : Employed cfg calls w' u p := by
  obtain ⟨hs, hd⟩ := h
  refine ⟨by rw [hf.started]; exact hs, ?_⟩
  rcases hd with ⟨d, hd, rfl⟩ | ⟨hd, rfl⟩
  · exact Or.inl ⟨d, hf.drivers_old u d hd, rfl⟩
  · right
    refine ⟨?_, rfl⟩
    cases hd' : w'.drivers.get u with
    | none => rfl
    | some d =>
      rcases hf.drivers_new u d hd' with h | ⟨-, h⟩
      · rw [hd] at h; cases h
      · exact absurd hs h

/-- The task that enters is employed. -/
theorem Employed.enter {l : Log cfg Unit} {w w' : World V} {t : Nat} {p : Task V Unit}
    (he : (runtimeSys cfg A calls crash).enter w t p w')
    (hl : ∀ u q, .entered u q ∈ l → Employed cfg calls w u q) :
    ∀ u q, .entered u q ∈ Event.entered t p :: l → Employed cfg calls w' u q := by
  obtain ⟨-, hp, rfl⟩ := he
  intro u q hq
  rcases List.mem_cons.1 hq with hq | hq
  · cases hq
    refine ⟨Finset.mem_insert_self .., ?_⟩
    unfold taskOf at hp
    split at hp
    · rename_i d hd; exact Or.inl ⟨d, hd, hp⟩
    · rename_i hd; exact Or.inr ⟨hd, hp⟩
  · obtain ⟨hs, hd⟩ := hl u q hq
    exact ⟨Finset.mem_insert_of_mem hs, hd⟩

/-- The other events employ nobody. -/
theorem Employed.old {l : Log cfg Unit} {w : World V}
    {e : Event (Op.Resp (V := V)) cfg.sem.Ans Exn Unit}
    (hl : ∀ t p, .entered t p ∈ l → Employed cfg calls w t p) (he : ∀ t p, e ≠ .entered t p) :
    ∀ t p, .entered t p ∈ e :: l → Employed cfg calls w t p := by
  intro t p hm
  rcases List.mem_cons.1 hm with hm | hm
  · exact absurd hm.symm (he t p)
  · exact hl t p hm

theorem runtimeSys_once : Sys.Once (runtimeSys cfg A calls crash) fun w => {t | t ∈ w.started} where
  enter := by
    rintro w t p w' ⟨ht, -, rfl⟩
    refine ⟨ht, fun u hu => ?_⟩
    rcases hu with rfl | hu
    · exact Finset.mem_insert_self ..
    · exact Finset.mem_insert_of_mem hu
  run hact := fun u hu => by
    change u ∈ World.started _
    rw [(Config.act_frame hact).started]
    exact hu
  fin := id
  kill := by
    rintro w t w' ⟨-, rfl⟩
    exact fun _ hu => hu

/-- **Every task of a run is employed.** -/
theorem employed {w₀ : World V} {l : Log cfg Unit}
    {P : Pool (Op.Resp (V := V)) Exn (World V) Unit}
    (h : (runtimeSys cfg A calls crash).Trace (freshPool w₀) l P) :
    ∀ t p, .entered t p ∈ l → Employed cfg calls P.world t p := by
  refine (Sys.Trace.invariant runtimeSys_once (fun _ => rfl) (fun _ => True) (fun _ _ => trivial)
    (I := fun l w => ∀ t p, .entered t p ∈ l → Employed cfg calls w t p)
    (fun _ _ h => by cases h) ?_ ?_ ?_ ?_ h).2
  · exact fun l w t p w' hen _ he => .enter he hen
  · exact fun l w t b o k a r w' _ hen _ _ hact =>
      .old (fun u q hq => (hen u q hq).frame (Config.act_frame hact)) fun _ _ h => by cases h
  · exact fun l w t x hen _ => .old hen fun _ _ h => by cases h
  · rintro l w t w' hen ⟨-, rfl⟩
    exact .old hen fun _ _ h => by cases h

/-- A driver in flight is what is left of it. -/
theorem driver_after {w₀ : World V} {l : Log cfg Unit}
    {P : Pool (Op.Resp (V := V)) Exn (World V) Unit}
    (h : (runtimeSys cfg A calls crash).Trace (freshPool w₀) l P) {t : Nat} {d : Driver}
    {q : Task V Unit} (hd : P.world.drivers.get t = some d) (ht : P.tasks t = some q) :
    (drive cfg d.runId d.tenantId).After (pastOf t l) q := by
  obtain ⟨-, ⟨p, hen, hafter⟩, -⟩ := (h.tracked runtimeSys_once fun _ => rfl).tasks t q ht
  rcases (employed h t p hen).2 with ⟨d', hd', rfl⟩ | ⟨hd', -⟩
  · rw [hd] at hd'
    cases hd'
    exact hafter
  · rw [hd] at hd'
    cases hd'

/-- An invariant of a deployment holds if what its drivers and its calls may do keeps it. -/
theorem deployment_keeps {mayDrive : String → String → Awaits V → Op V → Prop}
    {mayCall : Call V → Awaits V → Op V → Prop}
    (hdrive : ∀ runId tenantId, (drive cfg runId tenantId).Obeys (mayDrive runId tenantId)
      (fun _ _ => True) [])
    (hcall : ∀ c : Call V, (c.task cfg).Obeys (mayCall c) (fun _ _ => True) [])
    {w₀ : World V} (h₀ : Fresh w₀) {I : Log cfg Unit → World V → Prop} (hI₀ : I [] w₀)
    (enter : ∀ l w t p, I l w → pastOf t l = [] → t ∉ w.started →
      I (.entered t p :: l) { w with started := insert t w.started })
    (run : ∀ l w t b o a r w', InOrder w.runs → I l w → t ∈ w.started → A t w o a →
      (∀ d, w.drivers.get t = some d → mayDrive d.runId d.tenantId (pastOf t l) o) →
      (w.drivers.get t = none → mayCall (calls t) (pastOf t l) o) →
      cfg.sem.act t b w o a = some (r, w') → I (.awaited t o a r :: l) w')
    (fin : ∀ l w t x, I l w → I (.ended t x :: l) { w with done := insert t w.done })
    (kill : ∀ l w t, I l w → I (.killed t :: l) { w with done := insert t w.done })
    {l : Log cfg Unit} {P : Pool (Op.Resp (V := V)) Exn (World V) Unit}
    (h : (runtimeSys cfg A calls fun _ => True).Trace (freshPool w₀) l P) :
    I l P.world := by
  have valid : ∀ P, (runtimeSys cfg A calls fun _ => True).Reach (freshPool w₀) P →
      InOrder P.world.runs := fun P hP =>
    (Sys.safe_reach (histories_respects cfg calls) (fresh_safe h₀) hP).valid
  refine (Sys.Trace.invariant (I := fun l w => I l w ∧
      ∀ t p, .entered t p ∈ l → Employed cfg calls w t p)
    runtimeSys_once (fun _ => rfl) (fun w => InOrder w.runs) valid ⟨hI₀, fun _ _ h => by cases h⟩
    ?_ ?_ ?_ ?_ h).2.1
  · rintro l w t p w' ⟨hI, hen⟩ hpast he
    refine ⟨?_, .enter he hen⟩
    obtain ⟨ht, -, rfl⟩ := he
    exact enter l w t p hI hpast ht
  · rintro l w t b o k a r w' hv ⟨hI, hen⟩ ⟨p, hp, hleft⟩ ha hact
    obtain ⟨hs, hd⟩ := hen t p hp
    refine ⟨run l w t b o a r w' hv hI hs ha (fun d hd' => ?_) (fun hd' => ?_) hact,
      .old (fun u q hq => (hen u q hq).frame (Config.act_frame hact)) fun _ _ h => by cases h⟩
    · rcases hd with ⟨d₁, hd, rfl⟩ | ⟨hd, -⟩
      · rw [hd'] at hd
        cases hd
        have hmay := ((hdrive d.runId d.tenantId).after hleft).1
        rwa [List.append_nil] at hmay
      · rw [hd'] at hd; cases hd
    · rcases hd with ⟨d₁, hd, -⟩ | ⟨-, rfl⟩
      · rw [hd'] at hd; cases hd
      · have hmay := ((hcall (calls t)).after hleft).1
        rwa [List.append_nil] at hmay
  · rintro l w t x ⟨hI, hen⟩ -
    exact ⟨fin l w t x hI, .old hen fun _ _ h => by cases h⟩
  · rintro l w t w' ⟨hI, hen⟩ ⟨-, rfl⟩
    exact ⟨kill l w t hI, .old hen fun _ _ h => by cases h⟩

/-- **An invariant of a deployment** holds if the conduct of its tasks keeps it. -/
theorem deployment_invariant {w₀ : World V} (h₀ : Fresh w₀) {I : Log cfg Unit → World V → Prop}
    (hI₀ : I [] w₀)
    (enter : ∀ l w t p, I l w → pastOf t l = [] → t ∉ w.started →
      I (.entered t p :: l) { w with started := insert t w.started })
    (run : ∀ l w t b o a r w', InOrder w.runs → I l w → t ∈ w.started → A t w o a →
      (∀ d, w.drivers.get t = some d → driverFollow cfg d.runId d.tenantId (pastOf t l) o) →
      (w.drivers.get t = none → callMay (calls t) (pastOf t l) o) →
      cfg.sem.act t b w o a = some (r, w') → I (.awaited t o a r :: l) w')
    (fin : ∀ l w t x, I l w → I (.ended t x :: l) { w with done := insert t w.done })
    (kill : ∀ l w t, I l w → I (.killed t :: l) { w with done := insert t w.done })
    {l : Log cfg Unit} {P : Pool (Op.Resp (V := V)) Exn (World V) Unit}
    (h : (runtimeSys cfg A calls fun _ => True).Trace (freshPool w₀) l P) :
    I l P.world :=
  deployment_keeps (drive_obeys cfg) (Call.task_obeys cfg) h₀ hI₀ enter run fin kill h

end

end TracciaRuntime
