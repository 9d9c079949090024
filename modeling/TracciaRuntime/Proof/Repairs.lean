/-
  The repairs of a run.

  `attempt_count` grows with every retry of a model call and with every repair.  A refused output
  is repaired as long as this count is below `max_repairs`, so that retries take repairs away.

  * `Seen`: a run as a task has seen it persisted;
  * `Refused`: the task has had an output refused, and nothing has come between;
  * `mayWrite`: what may be written; `drive_writes`, `task_writes`: what is written;
  * `Tally`: the attempts of the records of a run are its retries and its repairs;
  * `repaired_iff`.
-/
import TracciaRuntime.Proof.Allowance
import TracciaRuntime.Proof.Conduct
import TracciaRuntime.Proof.Steps

namespace TracciaRuntime

open Py Async Prog AgentRuntime

variable {V : Type}

/-! ## What a task knows -/

/-- The identifier, the version, the status and the attempts of a run. -/
def RunState.stamp (s : RunState V) : String × Nat × RunStatus × Nat :=
  (s.id, s.version, s.status, s.attemptCount)

/-- The operations that neither write a run nor verify an output. -/
def Op.isNeutral : Op V → Bool
  | runsCreate _ | runsSave .. | verify .. => false
  | _ => true

/-- The output passes: `passed` of `_verify_and_complete`. -/
def AgentDefinition.accepts (agent : AgentDefinition V) (results : List VerificationResult) :
    Bool :=
  results.all fun item =>
    item.passed && item.confidence ≥ agent.verificationPolicy.minimumConfidence

namespace RepairBudget

/-- The task has seen the run persisted. -/
def Seen (s : RunState V) (h : Awaits V) : Prop :=
  ∃ x ∈ h, ∃ s₀ ∈ Op.shows x.1 x.2, s₀.stamp = s.stamp

/-- The task has had the output of `s` refused, and has neither written a run nor received an
    exception since. -/
inductive Refused (s : RunState V) (agent : AgentDefinition V) : Awaits V → Prop
  | verdict {names : List String} {output : Option String} {schema : Option (Dict String V)}
      {results : List VerificationResult} {h : Awaits V} : agent.accepts results = false →
      Refused s agent (⟨.verify names output s agent schema, .ok results⟩ :: h)
  | after {o : Op V} {x : o.Resp} {h : Awaits V} : Refused s agent h → o.isNeutral = true →
      Refused s agent (⟨o, .ok x⟩ :: h)

/-- An attempt is made with RETRYING, and by nothing else. -/
structure Attempt (old new : RunState V) : Prop where
  count : new.attemptCount = old.attemptCount + if new.status = .retrying then 1 else 0
  status : new.status = .retrying → old.status = .invokingModel ∨ old.status = .verifying

/-- The save of `s'` over version `v` repairs `s`. -/
structure Repaired (s s' : RunState V) (v : Nat) : Prop where
  id : s'.id = s.id
  version : v = s.version
  status : s'.status = .retrying

/-- The state was saved with the attempts of the one that the task has seen, and a refused output
    is repaired as long as the attempts allow it. -/
def mayWrite (h : Awaits V) : Op V → Prop
  | .runsSave s v => (∃ s₀, Seen s₀ h ∧ s₀.id = s.id ∧ s₀.version = v ∧ Attempt s₀ s) ∧
      ∀ s₁ agent, Refused s₁ agent h →
        (Repaired s₁ s v ↔ s₁.attemptCount < agent.verificationPolicy.maxRepairs)
  | .runsCreate s => s.attemptCount = 0
  | .verify _ _ s _ _ => Seen s h ∧ s.status = .verifying
  | _ => True

/-- Nothing is refused. -/
def Unrefused (h : Awaits V) : Prop := ∀ s agent, ¬ Refused s agent h

/-- What is refused is not repaired. -/
def Exhausted (h : Awaits V) : Prop :=
  ∀ s agent, Refused s agent h → ¬ s.attemptCount < agent.verificationPolicy.maxRepairs

/-- The run is as it is persisted, and its output is not refused. -/
structure Held (s : RunState V) (h : Awaits V) : Prop where
  seen : Seen s h
  unrefused : Unrefused h

section
variable {s s' s₀ : RunState V} {agent : AgentDefinition V} {o : Op V} {r : Except Exn o.Resp}
  {h h' : Awaits V}

theorem Seen.mono (hs : Seen s h) (hh : h <:+ h') : Seen s h' := by
  obtain ⟨x, hx, s₀, hs₀, hstamp⟩ := hs
  exact ⟨x, hh.subset hx, s₀, hs₀, hstamp⟩

theorem Seen.cons (hs : Seen s h) : Seen s (⟨o, r⟩ :: h) := hs.mono (List.suffix_cons _ h)

theorem Seen.of_stamp (hs : Seen s h) (he : s'.stamp = s.stamp) : Seen s' h := by
  obtain ⟨x, hx, s₀, hs₀, hstamp⟩ := hs
  exact ⟨x, hx, s₀, hs₀, hstamp.trans he.symm⟩

theorem Seen.shown (hs : s ∈ Op.shows o r) : Seen s (⟨o, r⟩ :: h) :=
  ⟨_, List.mem_cons_self, s, hs, rfl⟩

theorem Refused.tail (hr : Refused s agent (⟨o, r⟩ :: h)) (ho : o.isNeutral = true) :
    Refused s agent h := by
  cases hr with
  | verdict => cases ho
  | after hr => exact hr

theorem unrefused_error {e : Exn} : Unrefused (⟨o, .error e⟩ :: h) := by
  intro s agent hr
  cases hr

theorem unrefused_save {v : Nat} {r : Except Exn Unit} :
    Unrefused (⟨.runsSave s v, r⟩ :: h) := by
  intro s agent hr
  cases hr with
  | after _ ho => cases ho

theorem Unrefused.cons (hu : Unrefused h) (ho : o.isNeutral = true) : Unrefused (⟨o, r⟩ :: h) :=
  fun s agent hr => hu s agent (hr.tail ho)

theorem Unrefused.exhausted (hu : Unrefused h) : Exhausted h := fun s agent hr =>
  absurd hr (hu s agent)

theorem Exhausted.cons (hx : Exhausted h) (ho : o.isNeutral = true) : Exhausted (⟨o, r⟩ :: h) :=
  fun s agent hr => hx s agent (hr.tail ho)

theorem Held.cons (hs : Held s h) (ho : o.isNeutral = true) : Held s (⟨o, r⟩ :: h) :=
  ⟨hs.seen.cons, hs.unrefused.cons ho⟩

theorem mayWrite_of_isNeutral (ho : o.isNeutral = true) : mayWrite h o := by
  cases o <;> trivial

theorem isNeutral_of_isRoutine (ho : o.isRoutine = true) : o.isNeutral = true := by
  cases o <;> first | rfl | cases ho

theorem Attempt.of_ne (hc : s'.attemptCount = s.attemptCount) (hs : s'.status ≠ .retrying) :
    Attempt s s' :=
  ⟨by rw [if_neg hs]; exact hc, fun h => absurd h hs⟩

/-! ## What is written -/

/-- A write of the run that the task has seen. -/
theorem saveAs_writes {target : RunStatus} (hs : Seen s₀ h) (hid : s₀.id = s.id)
    (hv : s₀.version = s.version)
    (ha : ∀ now, Attempt s₀ { s with status := target, updatedAt := now })
    (hr : ∀ now s₁ agent, Refused s₁ agent h →
      (Repaired s₁ { s with status := target, updatedAt := now } s.version ↔
        s₁.attemptCount < agent.verificationPolicy.maxRepairs)) :
    (saveAs s target).Obeys mayWrite (EndsKnown Held Exhausted id) h := by
  refine Obeys.bind (Obeys.call trivial fun r => ?_)
  cases r with
  | error e => exact unrefused_error.exhausted
  | ok now =>
    refine Obeys.bind (Obeys.call ⟨⟨s₀, hs.cons, hid, hv, ha now⟩, fun s₁ agent hr₁ => ?_⟩
      fun r => ?_)
    · exact hr now s₁ agent (hr₁.tail rfl)
    · cases r with
      | error e => exact unrefused_save.exhausted
      | ok _ => exact ⟨.shown (List.mem_singleton.2 rfl), unrefused_save⟩

/-- A write that is no attempt, where nothing is to be repaired. -/
theorem saveAs_aside {target : RunStatus} (ht : target ≠ .retrying) (hs : Seen s h)
    (hx : Exhausted h) : (saveAs s target).Obeys mayWrite (EndsKnown Held Exhausted id) h :=
  saveAs_writes hs rfl rfl (fun _ => .of_ne rfl ht) fun _ s₁ agent hr =>
    iff_of_false (fun hrepaired => ht hrepaired.status) (hx s₁ agent hr)

/-- Another attempt. -/
theorem retry_writes (hs : Seen s h) (hstatus : s.status = .invokingModel ∨ s.status = .verifying)
    (he : s'.stamp = (s.id, s.version, s.status, s.attemptCount + 1))
    (hr : ∀ s₁ agent, Refused s₁ agent h →
      s₁ = s ∧ s₁.attemptCount < agent.verificationPolicy.maxRepairs) :
    (transition s' .retrying).Obeys mayWrite (EndsKnown Held Exhausted id) h := by
  simp only [RunState.stamp, Prod.mk.injEq] at he
  obtain ⟨hid, hv, hst, hc⟩ := he
  have hok : validateTransition s'.status .retrying = .ok () := by
    rw [hst]
    rcases hstatus with h | h <;> rw [h] <;> rfl
  refine Obeys.bind (Obeys.lift ?_)
  rw [hok]
  refine saveAs_writes hs hid.symm hv.symm (fun now => ⟨by simpa using hc, fun _ => hstatus⟩)
    fun now s₁ agent hr₁ => ?_
  obtain ⟨rfl, hlt⟩ := hr s₁ agent hr₁
  exact iff_of_true ⟨hid, hv, rfl⟩ hlt

theorem ways : Ways (V := V) mayWrite Held Exhausted where
  allows o h ho := mayWrite_of_isNeutral (isNeutral_of_isRoutine ho)
  keep s o r h ho hs := hs.cons (isNeutral_of_isRoutine ho)
  continues s s' h hs hh := by
    refine ⟨hh.seen.of_stamp ?_, hh.unrefused⟩
    rw [RunState.stamp, hs.id, hs.version, hs.status, hs.attemptCount]
    rfl
  save s target ht h hh := saveAs_aside ht hh.seen hh.unrefused.exhausted
  error s h hh := hh.unrefused.exhausted

end

/-! ## The model step -/

/-- A program of operations that neither write a run nor verify an output. -/
abbrev Neutral {α : Type} (p : Task V α) : Prop := p.Uses fun o => o.isNeutral = true

section
variable {cfg : Config V} {s : RunState V} {agent : AgentDefinition V} {request : ModelRequest V}
  {profiles : List (ModelProfile V)} {stepId : String} {α β : Type} {g : α → RunState V}

/-- The program keeps what is known of the run. -/
abbrev Writes (g : α → RunState V) (s : RunState V) (p : Task V α) : Prop :=
  Retains mayWrite Held Exhausted g s p

theorem Neutral.writes {p : Task V α} (hp : Neutral p)
    (he : p.Ends fun a => (g a).stamp = s.stamp) : Writes g s p := by
  intro h hs
  have hheld : p.Obeys mayWrite (fun _ h' => Held s h') h :=
    Obeys.of_uses (P := fun o => o.isNeutral = true) (fun _ _ ho _ => mayWrite_of_isNeutral ho)
      (fun _ _ _ ho hh => hh.cons ho) hp hs
  refine (hheld.ends he).mono fun x h' hx => ?_
  cases x with
  | ok a => exact ⟨hx.1.seen.of_stamp (hx.2 a rfl), hx.1.unrefused⟩
  | error e => exact hx.1.unrefused.exhausted

/-- A neutral program, and what follows it. -/
theorem Neutral.bind {p : Task V β} {f : β → Task V α} (hp : Neutral p)
    (hf : ∀ b, Writes g s (f b)) : Writes g s (p >>= f) :=
  (hp.writes (g := fun _ => s) ((Ends.any p).mono fun _ _ => rfl)).bind hf

theorem Writes.of_stamp (s' : RunState V) {p : Task V α} (he : s'.stamp = s.stamp)
    (hp : Writes g s' p) : Writes g s p :=
  fun h hs => hp h ⟨hs.seen.of_stamp he, hs.unrefused⟩

theorem neutral_of_aside {X : Exn → Prop} {p : Task V α} (hp : Aside X p) : Neutral p := by
  refine hp.uses.mono fun o ho => ?_
  cases o <;> first | rfl | cases ho

theorem attemptModel_writes :
    Writes Prod.snd s (attemptModel s agent request profiles stepId) := by
  refine Neutral.writes (neutral_of_aside attemptModel_aside)
    (Ends.handle (Ends.after _ fun response => Ends.pure ?_) fun e => ?_)
  · split <;> rfl
  · cases e <;> first | exact Ends.pure rfl | exact Ends.throw _

theorem backOff_writes {attempt : Nat} (hs : s.status = .invokingModel) :
    Writes id s (backOff s agent attempt) := by
  have hretry : Writes id s (transition { s with
      summary := { s.summary with retries := s.summary.retries + 1 }
      attemptCount := s.attemptCount + 1 } .retrying) := fun h hh =>
    retry_writes hh.seen (.inl hs) rfl fun s₁ agent hr => absurd hr (hh.unrefused s₁ agent)
  exact hretry.bind fun s₁ => Neutral.bind (Uses.call rfl) fun _ =>
    ways.transition (by decide) (Continues.refl s₁)

theorem modelWithRetry_writes {attempt rest : Nat} (hs : s.status = .invokingModel) :
    Writes Prod.snd s (modelWithRetry agent profiles stepId attempt rest s request) := by
  induction rest generalizing attempt s request with
  | zero =>
    refine attemptModel_writes.bind fun x => ?_
    cases x.1 with
    | ok response => exact ways.pure (Continues.refl _)
    | error f => exact ways.throw
  | succ rest ih =>
    refine attemptModel_writes.bind_ends attemptModel_ends fun x hx => ?_
    have hx₁ := hx.status.trans hs
    cases x.1 with
    | ok response => exact ways.pure (Continues.refl _)
    | error f =>
      dsimp only
      split
      · refine Neutral.bind (Uses.lift _) fun _ =>
          Neutral.bind (neutral_of_aside nextRequest_aside) fun request =>
            (backOff_writes hx₁).bind_ends (backOff_ends hx₁) fun s₁ hs₁ => ?_
        exact ih (hs₁.status.trans hx₁)
      · exact ways.throw

theorem modelResponse_writes (hs : s.status = .invokingModel) :
    Writes Prod.snd s (modelResponse cfg s agent request profiles stepId) := by
  intro h hh
  -- a verification is no part of the model step
  have hunrefused : (modelResponse cfg s agent request profiles stepId).Obeys (fun _ _ => True)
      (fun _ h' => Unrefused h') h := by
    refine Obeys.of_uses (fun _ _ _ _ => trivial) (fun o r h ho hu => ?_)
      modelResponse_inner hh.unrefused
    cases o with
    | runsSave => exact unrefused_save
    | runsCreate | verify => cases ho
    | _ => exact hu.cons rfl
  have hreturns : (modelResponse cfg s agent request profiles stepId).Returns mayWrite
      (fun y => Held y.2) h := by
    have direct : ∀ h', Held s h' →
        (generateResponse s agent request profiles stepId).Returns mayWrite
          (fun y => Held y.2) h' := fun h' hh =>
      Obeys.mono (modelWithRetry_writes hs h' hh) fun x h'' hx a ha => by
        subst ha
        exact hx
    unfold modelResponse
    split
    · exact (direct h hh).bind fun y h' hy => .pure hy
    · split
      · exact (direct h hh).bind fun y h' hy => .pure hy
      · refine Returns.bind (getOrSetJson_returns (I := Held s) (L := fun y => Held y.2)
          (fun o h ho => mayWrite_of_isNeutral (isNeutral_of_isRoutine ho))
          (fun o r h ho hy => hy.cons (isNeutral_of_isRoutine ho))
          (fun y o r h ho hy => hy.cons (isNeutral_of_isRoutine ho)) hh
          fun h' hh => (direct h' hh).bind fun y h'' hy => .pure hy) fun y h' hy => ?_
        split
        · exact .throw
        · refine .pure ?_
          rcases hy with ⟨-, hstate, hy⟩ | ⟨-, hy⟩
          · rw [← hstate] at hy
            exact hy
          · exact hy
  refine Obeys.mono (Obeys.and hreturns hunrefused) fun x h' hx => ?_
  cases x with
  | ok a => exact hx.1 a rfl
  | error e => exact hx.2.exhausted

theorem executeModel_writes {action : PlannedAction V} :
    Writes id s (executeModel cfg s agent action) := by
  refine (ways.transition (by decide) (Continues.refl s)).bind_ends transition_ends fun s₁ hs₁ => ?_
  refine ways.routine remainingSeconds_routine fun _ => ways.routine policyValue_routine fun _ =>
    ways.routine emit_routine fun _ => (modelResponse_writes hs₁.status).bind fun y => ?_
  refine ways.routine policyValue_routine fun checked =>
    Writes.of_stamp (withResponse y.2 (checkedResponse cfg y.1.1 checked)) rfl ?_
  exact ways.routine emit_routine fun _ => ways.routine (Uses.call rfl) fun _ =>
    ways.transition (by decide) (Continues.refl _)

/-! ## The verification -/

/-- The event of a refused output, and what follows it. -/
theorem refusal_writes {names : List String} {output : Option String}
    {schema : Option (Dict String V)} {results : List VerificationResult}
    {body : EventBody V} {id : Option String} {f : Unit → Task V α} {h : Awaits V}
    (hs : Held s h)
    (hf : ∀ h', Seen s h' → (∀ s₁ agent₁, Refused s₁ agent₁ h' → s₁ = s ∧ agent₁ = agent) →
      (f ()).Obeys mayWrite (EndsKnown Held Exhausted g) h') :
    (emit s body id >>= f).Obeys mayWrite (EndsKnown Held Exhausted g)
      (⟨.verify names output s agent schema, .ok results⟩ :: h) := by
  have honly : ∀ s₁ agent₁, Refused s₁ agent₁
      (⟨.verify names output s agent schema, .ok results⟩ :: h) → s₁ = s ∧ agent₁ = agent := by
    intro s₁ agent₁ hr
    cases hr with
    | verdict => exact ⟨rfl, rfl⟩
    | after _ ho => cases ho
  refine Obeys.bind (Obeys.bind (Obeys.call trivial fun r => ?_))
  cases r with
  | error e => exact unrefused_error.exhausted
  | ok sequence =>
    refine Obeys.call trivial fun r => ?_
    cases r with
    | error e => exact unrefused_error.exhausted
    | ok _ =>
      exact hf _ hs.seen.cons.cons.cons fun s₁ agent₁ hr => honly s₁ agent₁ ((hr.tail rfl).tail rfl)

theorem repair_writes {h : Awaits V} (hs : Seen s h) (hv : s.status = .verifying)
    (hr : ∀ s₁ agent, Refused s₁ agent h →
      s₁ = s ∧ s₁.attemptCount < agent.verificationPolicy.maxRepairs) :
    (repair s).Obeys mayWrite (EndsKnown Held Exhausted id) h := by
  refine Obeys.bind ((retry_writes hs (.inr hv) rfl hr).mono fun x h' hx => ?_)
  cases x with
  | ok s₁ => exact ways.transition (by decide) (Continues.refl s₁) h' hx
  | error e => exact hx

theorem verifyAndComplete_writes : Writes id s (verifyAndComplete cfg s agent stepId) := by
  refine (ways.transition (by decide) (Continues.refl s)).bind_ends transition_ends
    fun s₁ hs₁ h hh => Obeys.bind (Obeys.call ⟨hh.seen, hs₁.status⟩ fun r => ?_)
  cases r with
  | error e => exact unrefused_error.exhausted
  | ok results =>
    have hpassed : (results.all fun item =>
        item.passed && item.confidence ≥ agent.verificationPolicy.minimumConfidence) =
          agent.accepts results := rfl
    dsimp only
    rw [hpassed]
    cases hp : agent.accepts results with
    | true =>
      have hcompose : Writes id s₁ (do
          emit s₁ (.verificationCompleted true results) (some stepId)
          compose cfg s₁ agent stepId) := ways.routine emit_routine fun _ => ways.compose
      refine hcompose _ ⟨hh.seen.cons, fun s₂ agent₂ hr => ?_⟩
      cases hr with
      | verdict hn => rw [hp] at hn; cases hn
      | after _ ho => cases ho
    | false =>
      refine refusal_writes hh fun h' hseen honly => ?_
      simp only [Bool.false_eq_true, if_false]
      split
      · rename_i hlt
        refine repair_writes hseen hs₁.status fun s₂ agent₂ hr => ?_
        obtain ⟨rfl, rfl⟩ := honly s₂ agent₂ hr
        exact ⟨rfl, hlt⟩
      · rename_i hge
        intro s₂ agent₂ hr
        obtain ⟨rfl, rfl⟩ := honly s₂ agent₂ hr
        exact hge

/-- **The course of a driver** as far as its repairs go. -/
theorem course : Course mayWrite Held Exhausted cfg agent where
  toWays := ways
  model _ _ := executeModel_writes
  verify _ _ := verifyAndComplete_writes

end

/-! ## The drivers -/

/-- The run is as it is persisted, and there is nothing to repair. -/
structure Known (s : RunState V) (h : Awaits V) : Prop where
  seen : Seen s h
  exhausted : Exhausted h

section
variable {cfg : Config V} {s s' : RunState V} {agent : AgentDefinition V} {α β : Type}
  {g : α → RunState V} {runId tenantId : String} {h : Awaits V}

theorem Held.known (hs : Held s h) : Known s h := ⟨hs.seen, hs.unrefused.exhausted⟩

/-- **Where nothing is to be repaired**, the same steps may be taken. -/
theorem known_ways : Ways (V := V) mayWrite Known Exhausted where
  allows := ways.allows
  keep s o r h ho hs := ⟨hs.seen.cons, hs.exhausted.cons (isNeutral_of_isRoutine ho)⟩
  continues s s' h hs hh := by
    refine ⟨hh.seen.of_stamp ?_, hh.exhausted⟩
    rw [RunState.stamp, hs.id, hs.version, hs.status, hs.attemptCount]
    rfl
  save s target ht h hh := by
    refine (saveAs_aside ht hh.seen hh.exhausted).mono fun x h' hx => ?_
    cases x with
    | ok s₁ => exact hx.known
    | error e => exact hx
  error s h hh := hh.exhausted

/-- The program writes what it may, and leaves nothing to repair. -/
abbrev Settles (h : Awaits V) (p : Task V α) : Prop := p.Obeys mayWrite (fun _ h' => Exhausted h') h

theorem settles_of_routine {p : Task V α} (hp : Routine p) (hx : Exhausted h) : Settles h p :=
  Obeys.of_uses (P := fun o => o.isRoutine = true) (fun _ _ ho _ => ways.allows _ _ ho)
    (fun _ _ _ ho hx => hx.cons (isNeutral_of_isRoutine ho)) hp hx

/-- A routine program, and what follows it. -/
theorem Known.bind {p : Task V β} {f : β → Task V α} (hs : Known s h) (hp : Routine p)
    (hf : ∀ b h', Known s h' → Settles h' (f b)) : Settles h (p >>= f) := by
  refine Obeys.bind ((Obeys.of_uses (fun o h ho _ => ways.allows o h ho)
    (fun o r h ho hk => known_ways.keep s o r h ho hk) hp hs).mono fun x h' hx => ?_)
  cases x with
  | ok b => exact hf b h' hx
  | error e => exact hx.exhausted

/-- A program that knows the run, and the routine program that follows it. -/
theorem Known.settles {p : Task V α} {f : α → Task V β} (hs : Known s h)
    (hp : Retains mayWrite Known Exhausted g s p) (hf : ∀ a, Routine (f a)) :
    Settles h (p >>= f) := by
  refine Obeys.bind ((hp h hs).mono fun x h' hx => ?_)
  cases x with
  | ok a => exact settles_of_routine (hf a) hx.exhausted
  | error e => exact hx

/-- A run that is read, and what follows it. -/
theorem requireState_settles {f : RunState V → Task V α} (hx : Exhausted h)
    (hf : ∀ s h', Known s h' → Settles h' (f s)) :
    Settles h (requireState runId tenantId >>= f) := by
  refine Obeys.bind (Obeys.bind (Obeys.call trivial fun r => ?_))
  rcases r with e | _ | s
  · exact hx.cons rfl
  · exact hx.cons rfl
  · exact hf s _ ⟨.shown (List.mem_singleton.2 rfl), hx.cons rfl⟩

theorem timedOut_settles (hx : Exhausted h) : Settles h (timedOut runId tenantId) := by
  refine requireState_settles hx fun s h' hs => ?_
  split
  · exact hs.exhausted
  · exact hs.settles (known_ways.transition (by decide) (Continues.refl s)) fun _ => emit_routine

theorem failed_settles {e : Exn} (hx : Exhausted h) : Settles h (failed runId tenantId e) := by
  refine requireState_settles hx fun s h' hs => ?_
  split
  · exact hs.exhausted
  · exact hs.settles (known_ways.transition (by decide) ⟨rfl, rfl, rfl, rfl, rfl⟩)
      fun _ => emit_routine

theorem recoveryStatus_ne_retrying {status : RunStatus}
    (h : status.isTerminal = false ∨ status.recoveryStatus ≠ status) :
    status.recoveryStatus ≠ .retrying := by
  cases status <;> simp_all [RunStatus.recoveryStatus, RunStatus.isTerminal]

theorem cancelled_settles (hx : Exhausted h) : Settles h (cancelled runId tenantId) := by
  refine requireState_settles hx fun s h' hs => ?_
  split
  · exact hs.exhausted
  · rename_i hterminal
    have ht := recoveryStatus_ne_retrying (.inl (Bool.eq_false_of_not_eq_true hterminal))
    refine hs.bind (Uses.call rfl) fun shutdown h'' hs => ?_
    split
    · exact hs.settles (known_ways.save s _ ht) fun _ => Uses.pure _
    · exact hs.settles (known_ways.transition (by decide) (Continues.refl s)) fun _ => emit_routine

theorem unrefused_nil : Unrefused ([] : Awaits V) := by
  intro s agent hr
  cases hr

theorem executeTimed_writes (hs : Held s h) :
    Settles h (executeTimed cfg s agent) := by
  refine Obeys.bind ((Obeys.of_uses (fun o h ho _ => ways.allows o h ho)
    (fun o r h ho hk => ways.keep s o r h ho hk) remainingSeconds_routine hs).mono
      fun x h₁ hs₁ => ?_)
  cases x with
  | error e => exact hs₁.known.exhausted
  | ok remaining =>
    have hexecute : Settles h₁ (execute cfg s agent) := by
      refine (course.execute h₁ hs₁).mono fun x h₂ hx => ?_
      cases x with
      | ok s₂ => exact hx.known.exhausted
      | error e => exact hx
    cases remaining with
    | none =>
      refine Obeys.bind (hexecute.mono fun x _ hx => ?_)
      cases x <;> exact hx
    | some _ =>
      refine Obeys.bind (Obeys.mono (Q := fun _ h' => Exhausted h') (Obeys.handle
        (hexecute.timed.mono fun x _ hx => ?_)) fun x _ hx => ?_)
      · cases x <;> exact hx
      · cases x <;> exact hx

theorem driveObserved_writes (hs : Held s h) :
    Settles h (driveObserved cfg runId tenantId s agent) := by
  refine Obeys.handle ((executeTimed_writes hs).mono fun x h' hx => ?_)
  cases x with
  | ok _ => exact hx
  | error e =>
    cases e with
    | timeoutError => exact timedOut_settles hx
    | cancelled | deadline => exact cancelled_settles hx
    | _ => exact failed_settles hx

/-- **A driver writes what it may.** -/
theorem drive_writes (cfg : Config V) (runId tenantId : String) :
    Settles [] (drive cfg runId tenantId) := by
  refine Obeys.bind (Obeys.bind (Obeys.call trivial fun r => ?_))
  rcases r with e | _ | s
  · exact unrefused_error.exhausted
  · exact (unrefused_nil.cons rfl).exhausted
  · have hs : Held s [⟨.runsGet runId tenantId, .ok (some s)⟩] :=
      ⟨.shown (List.mem_singleton.2 rfl), unrefused_nil.cons rfl⟩
    refine Obeys.bind (Obeys.call trivial fun r => ?_)
    cases r with
    | error e => exact unrefused_error.exhausted
    | ok agent =>
      refine Obeys.bind ((driveObserved_writes (hs.cons rfl)).mono fun x h' hx => ?_)
      cases x with
      | ok _ => exact settles_of_routine (Uses.bind requireState_routine fun _ => Uses.pure _) hx
      | error e => exact hx

end

/-! ## The calls -/

section
variable {cfg : Config V} {s : RunState V} {runId tenantId : String} {h : Awaits V}

theorem cancel_settles : Settles [] (cancel runId tenantId : Task V (RunState V)) := by
  refine requireState_settles unrefused_nil.exhausted fun s h hs => ?_
  split
  · exact hs.exhausted
  · refine hs.bind (Uses.call rfl) fun _ h' hs => ?_
    exact hs.settles (known_ways.transition (by decide) (Continues.refl s)) fun _ =>
      Uses.bind emit_routine fun _ => Uses.pure _

theorem resume_settles {payload : ResumePayload V} :
    Settles [] (resume cfg runId tenantId payload) := by
  refine requireState_settles unrefused_nil.exhausted fun s h hs => ?_
  split
  · have hclarify : Retains mayWrite Known Exhausted id s (clarify s payload) :=
      known_ways.routine (Uses.raiseIf _ _) fun _ =>
        known_ways.transition (by decide) ⟨rfl, rfl, rfl, rfl, rfl⟩
    exact hs.settles hclarify fun _ => Uses.bind (Uses.call rfl) fun _ => Uses.pure _
  · refine hs.bind (Uses.lift _) fun decision h₁ hs => hs.bind (decide_uses.mono fun o ho => ?_)
      fun approval h₂ hs => ?_
    · cases o <;> first | rfl | cases ho
    · split
      · exact hs.settles (known_ways.transition (by decide) ⟨rfl, rfl, rfl, rfl, rfl⟩) fun _ =>
          Uses.bind emit_routine fun _ => Uses.pure _
      · exact hs.settles (known_ways.transition (by decide) ⟨rfl, rfl, rfl, rfl, rfl⟩) fun _ =>
          Uses.bind (Uses.call rfl) fun _ => Uses.pure _
  · exact hs.exhausted

theorem recoverRun_settles (hs : Known s h) : Settles h (recoverRun s) := by
  have rest : ∀ (overdue : Bool) h', Known s h' → Settles h' (if overdue = true then do
        let s ← saveAs { s with error := some "Run deadline elapsed before recovery." } .timedOut
        emit s (.runFailed (some "timeout_during_recovery") none) none
        Pure.pure false
      else do
        let s ← if s.status.recoveryStatus = s.status then Pure.pure s
          else saveAs s s.status.recoveryStatus
        await (.schedule s.id s.request.tenantId)
        Pure.pure true) := by
    intro overdue h' hs
    split
    · have hcontinues : Continues s
          { s with error := some "Run deadline elapsed before recovery." } :=
        ⟨rfl, rfl, rfl, rfl, rfl⟩
      have hsave := known_ways.of_continues hcontinues (known_ways.save _ .timedOut (by decide))
      exact hs.settles hsave fun _ => Uses.bind emit_routine fun _ => Uses.pure _
    · dsimp only
      split
      · exact settles_of_routine (Uses.bind (Uses.pure _) fun _ =>
          Uses.bind (Uses.call rfl) fun _ => Uses.pure _) hs.exhausted
      · rename_i hne
        exact hs.settles (known_ways.save _ _ (recoveryStatus_ne_retrying (.inr hne))) fun _ =>
          Uses.bind (Uses.call rfl) fun _ => Uses.pure _
  refine hs.bind (Uses.call rfl) fun live h₁ hs => ?_
  split
  · exact hs.exhausted
  · dsimp only
    split
    · exact rest false _ hs
    · exact hs.bind (Uses.call rfl) fun now h₂ hs => rest _ _ hs

theorem recoverAll_settles {l : List (RunState V)} {n : Nat} (hl : ∀ s ∈ l, Seen s h)
    (hx : Exhausted h) : Settles h (recoverAll l n) := by
  induction l generalizing n h with
  | nil => exact hx
  | cons s l ih =>
    obtain ⟨hs, hl⟩ := List.forall_mem_cons.1 hl
    -- what has been seen of the others stays seen
    have hseen : (recoverRun s).Obeys (fun _ _ => True) (fun _ h' => ∀ s ∈ l, Seen s h') h :=
      Obeys.of_uses (P := fun _ => True) (fun _ _ _ _ => trivial)
        (fun _ _ _ _ hl s hs => (hl s hs).cons) (recoverRun_modest.mono fun _ _ => trivial) hl
    refine Obeys.bind ((Obeys.and (recoverRun_settles ⟨hs, hx⟩) hseen).mono fun x h' hx' => ?_)
    cases x with
    | ok scheduled => exact ih hx'.2 hx'.1
    | error e => exact hx'.1

theorem recover_settles {limit : Nat} : Settles [] (recover limit : Task V Nat) := by
  refine Obeys.bind (Obeys.call trivial fun r => ?_)
  cases r with
  | error e => exact unrefused_error.exhausted
  | ok active =>
    exact recoverAll_settles (fun s hs => .shown hs) (unrefused_nil.cons rfl).exhausted

/-- A program that never saves a run. -/
theorem settles_of_blind {α : Type} {p : Task V α} (hp : p.Uses fun o => ∀ h, mayWrite h o) :
    p.Obeys mayWrite (fun _ _ => True) [] :=
  Obeys.of_uses (G := fun _ => True) (fun _ h ho _ => ho h) (fun _ _ _ _ _ => trivial) hp trivial

theorem blind_of_routine {α : Type} {p : Task V α} (hp : Routine p) :
    p.Uses fun o => ∀ h, mayWrite h o :=
  hp.mono fun o ho h => ways.allows o h ho

theorem start_blind {request : RunRequest V} :
    (start request).Uses fun o => ∀ h, mayWrite h o :=
  start_uses (fun o ho h => ways.allows o h ho) fun _ hs _ => hs

/-- **A call writes what it may.** -/
theorem task_writes (cfg : Config V) (c : Call V) :
    (c.task cfg).Obeys mayWrite (fun _ _ => True) [] := by
  have dropped : ∀ {α : Type} {p : Task V α}, Settles [] p →
      (do let _ ← p; Pure.pure () : Task V Unit).Obeys mayWrite (fun _ _ => True) [] := by
    intro α p hp
    refine Obeys.bind (hp.mono fun x _ _ => ?_)
    cases x <;> trivial
  cases c with
  | start request => exact settles_of_blind (Uses.bind start_blind fun _ => Uses.pure _)
  | run request =>
    exact settles_of_blind (run_uses start_blind (fun _ _ => trivial) (fun _ _ => trivial)
      (fun _ _ _ => trivial) fun _ _ => blind_of_routine composeResult_routine)
  | cancel runId tenantId => exact dropped cancel_settles
  | resume runId tenantId payload => exact dropped resume_settles
  | recover limit => exact dropped recover_settles
  | shutdown => exact settles_of_blind (blind_of_routine shutdown_routine)
  | register definition => exact settles_of_blind (Uses.call fun _ => trivial)

end

/-! ## The records -/

/-- The run was persisted so. -/
def Stored (w : World V) (s : RunState V) : Prop :=
  ∃ h, w.runs.get s.id = some h ∧ ∃ r ∈ h.records, r.state.stamp = s.stamp

/-- RETRYING adds one to the attempts of a run, and nothing else does. -/
inductive Tally : List (Saved V) → Prop
  | created {r : Saved V} : r.state.attemptCount = 0 → Tally [r]
  | saved {new old : Saved V} {rest : List (Saved V)} : Tally (old :: rest) →
      Attempt old.state new.state → Tally (new :: old :: rest)

section
variable {cfg : Config V} {t : Nat} {b : Bool} {w w' : World V} {s s₀ : RunState V} {o : Op V}
  {r : Except Exn o.Resp} {a : Act cfg.sem.Ans Exn o} {h : Awaits V}

theorem Stored.grows (hs : Stored w s) (hg : Grows w.runs w'.runs) : Stored w' s := by
  obtain ⟨h, hget, r, hr, hstamp⟩ := hs
  obtain ⟨h', hget', hsuf⟩ := hg s.id h hget
  exact ⟨h', hget', r, hsuf.subset hr, hstamp⟩

theorem Stored.of_stamp (hs : Stored w s₀) (he : s₀.stamp = s.stamp) : Stored w s := by
  obtain ⟨h, hget, r, hr, hstamp⟩ := hs
  have hid : s₀.id = s.id := congrArg Prod.fst he
  exact ⟨h, hid ▸ hget, r, hr, hstamp.trans he⟩

theorem Stored.of_persisted (hs : Persisted w s) : Stored w s := by
  obtain ⟨h, hget, r, hr, hstate⟩ := hs
  exact ⟨h, hget, r, hr, congrArg RunState.stamp hstate⟩

/-- **A write keeps the tally.** -/
theorem Tally.step (hv : InOrder w.runs) (hseen : ∀ s, Seen s h → Stored w s)
    (htally : ∀ id h, w.runs.get id = some h → Tally h.records) (hmay : mayWrite h o)
    (hact : cfg.sem.act t b w o a = some (r, w')) :
    ∀ id h, w'.runs.get id = some h → Tally h.records := by
  intro id h₁ hget₁
  by_cases ho : o.writesRuns = false
  · rw [(Config.act_frame hact).runs ho] at hget₁
    exact htally id h₁ hget₁
  · cases o with
    | runsSave s v =>
      rcases act_runsSave hact with ⟨he, -⟩ | hsave
      · rw [he] at hget₁
        exact htally id h₁ hget₁
      · obtain ⟨h₀, hget, hver, hruns⟩ := Runs.save_ok hsave
        rw [hruns, Dict.get_set] at hget₁
        split at hget₁
        · cases hget₁
          obtain ⟨⟨s₀, hs₀, hid, hv₀, hattempt⟩, -⟩ := hmay
          obtain ⟨h₂, hget₂, r, hr, hstamp⟩ := hseen s₀ hs₀
          rw [hid, hget] at hget₂
          cases hget₂
          simp only [RunState.stamp, Prod.mk.injEq] at hstamp
          obtain ⟨-, hrv, hrs, hrc⟩ := hstamp
          -- the task has seen the current record
          obtain rfl : r = h₀.current := (hv.legal _ _ hget).current_of_version hr
            (hrv.trans (hv₀.trans hver.symm))
          refine .saved (htally _ _ hget) ⟨?_, fun hretrying => ?_⟩
          · rw [hrc]; exact hattempt.count
          · rw [hrs]; exact hattempt.status hretrying
        · exact htally id h₁ hget₁
    | runsCreate s =>
      rcases act_runsCreate hact with ⟨he, -⟩ | hsave
      · rw [he] at hget₁
        exact htally id h₁ hget₁
      · obtain ⟨-, hruns⟩ := Runs.create_ok hsave
        rw [hruns, Dict.get_set] at hget₁
        split at hget₁
        · cases hget₁
          exact .created hmay
        · exact htally id h₁ hget₁
    | _ => exact absurd rfl ho

end

/-- The attempts that a run made with this status. -/
def retriesFrom (status : RunStatus) : List (Saved V) → Nat
  | new :: old :: rest =>
    (if new.state.status = .retrying ∧ old.state.status = status then 1 else 0) +
      retriesFrom status (old :: rest)
  | _ => 0

/-- The repairs of a run. -/
def repairs (records : List (Saved V)) : Nat := retriesFrom .verifying records

/-- The retries of its model calls. -/
def modelRetries (records : List (Saved V)) : Nat := retriesFrom .invokingModel records

/-- **The attempts of a run** are its repairs and its model retries. -/
theorem Tally.attemptCount {r : Saved V} {l : List (Saved V)} (h : Tally (r :: l)) :
    r.state.attemptCount = repairs (r :: l) + modelRetries (r :: l) := by
  induction l generalizing r with
  | nil =>
    cases h with
    | created h => exact h
  | cons old rest ih =>
    cases h with
    | saved hl ha =>
      have hcount := ha.count
      rw [ih hl] at hcount
      rw [hcount]
      simp only [repairs, modelRetries, retriesFrom]
      by_cases hretrying : r.state.status = .retrying
      · rcases ha.status hretrying with hold | hold
        · simp [hretrying, hold]
          omega
        · simp [hretrying, hold]
          omega
      · simp [hretrying]

theorem Tally.of_append {r : Saved V} {newer older : List (Saved V)}
    (h : Tally (newer ++ r :: older)) : Tally (r :: older) := by
  induction newer with
  | nil => exact h
  | cons x newer ih =>
    cases hn : newer ++ r :: older with
    | nil => simp at hn
    | cons old rest =>
      rw [List.cons_append, hn] at h
      cases h with
      | saved hl _ => exact ih (hn ▸ hl)

/-! ## Deployments -/

section
variable {cfg : Config V} {calls : Nat → Call V} {w w' : World V} {l : Log cfg Unit}

/-- A write after a refused output is a repair as long as the attempts allow it. -/
def Decided (w : World V) (l : Log cfg Unit) : Event (Op.Resp (V := V)) cfg.sem.Ans Exn Unit → Prop
  | .awaited t (.runsSave s' v) _ _ => ∀ s agent, Refused s agent (pastOf t l) →
      Stored w s ∧ s.status = .verifying ∧
        (Repaired s s' v ↔ s.attemptCount < agent.verificationPolicy.maxRepairs)
  | _ => True

theorem Decided.grows {e : Event (Op.Resp (V := V)) cfg.sem.Ans Exn Unit} (he : Decided w l e)
    (hg : Grows w.runs w'.runs) : Decided w' l e := by
  cases e with
  | awaited t o a r =>
    cases o with
    | runsSave s' v =>
      intro s agent hr
      obtain ⟨hs, hd⟩ := he s agent hr
      exact ⟨hs.grows hg, hd⟩
    | _ => trivial
  | _ => trivial

/-- **What holds in every state of a deployment.** -/
structure Audited (l : Log cfg Unit) (w : World V) : Prop where
  seen : ∀ t s, Seen s (pastOf t l) → Stored w s
  refused : ∀ t s agent, Refused s agent (pastOf t l) →
    Seen s (pastOf t l) ∧ s.status = .verifying
  tally : ∀ id h, w.runs.get id = some h → Tally h.records
  decided : Throughout (Decided w) l

theorem Audited.run {t : Nat} {b : Bool} {o : Op V} {a : Act cfg.sem.Ans Exn o}
    {r : Except Exn o.Resp} (hv : InOrder w.runs) (hl : Audited l w)
    (hmay : mayWrite (pastOf t l) o) (hact : cfg.sem.act t b w o a = some (r, w')) :
    Audited (.awaited t o a r :: l) w' := by
  have hg := act_grows hact
  refine ⟨fun u s hs => ?_, fun u s agent hr => ?_, .step hv (hl.seen t) hl.tally hmay hact, ?_, ?_⟩
  · by_cases hu : u = t
    · subst hu
      rw [pastOf_awaited_self] at hs
      obtain ⟨x, hx, s₀, hs₀, hstamp⟩ := hs
      rcases List.mem_cons.1 hx with rfl | hx
      · exact (Stored.of_persisted (persisted_of_shows hv hact hs₀)).of_stamp hstamp
      · exact (hl.seen u s ⟨x, hx, s₀, hs₀, hstamp⟩).grows hg
    · rw [pastOf_awaited_ne hu] at hs
      exact (hl.seen u s hs).grows hg
  · by_cases hu : u = t
    · subst hu
      rw [pastOf_awaited_self] at hr ⊢
      cases hr with
      | verdict _ => exact ⟨hmay.1.cons, hmay.2⟩
      | after hr _ => exact (hl.refused u s agent hr).imp_left Seen.cons
    · rw [pastOf_awaited_ne hu] at hr ⊢
      exact hl.refused u s agent hr
  · cases o with
    | runsSave s' v =>
      intro s agent hr
      obtain ⟨hs, hstatus⟩ := hl.refused t s agent hr
      exact ⟨(hl.seen t s hs).grows hg, hstatus, hmay.2 s agent hr⟩
    | _ => trivial
  · exact hl.decided.mono fun _ _ he => he.grows hg

/-- **Every run of a deployment** is audited. -/
theorem audited {w₀ : World V} (h₀ : Fresh w₀) {P : Pool (Op.Resp (V := V)) Exn (World V) Unit}
    (h : (anyTasks cfg calls).Trace (freshPool w₀) l P) : Audited l P.world := by
  have hobeys : ∀ {p : Task V Unit}, p.Obeys mayWrite (fun _ h' => Exhausted h') [] →
      p.Obeys mayWrite (fun _ _ => True) [] := fun hp => hp.mono fun _ _ _ => trivial
  refine deployment_keeps
    (fun runId tenantId => hobeys (drive_writes cfg runId tenantId)) (task_writes cfg) h₀
    (I := Audited) ⟨?_, ?_, ?_, trivial⟩ ?_ ?_ ?_ ?_ h
  · rintro t s ⟨x, hx, -⟩
    cases hx
  · intro t s agent hr
    cases hr
  · intro id h hget
    rw [h₀.runs] at hget
    cases hget
  · intro l w t p hl hpast ht
    have hpast := fun u => pastOf_entered (p := p) hpast u
    refine ⟨fun u s hs => hl.seen u s (hpast u ▸ hs), fun u s agent hr => ?_, hl.tally, trivial,
      hl.decided⟩
    rw [hpast u] at hr ⊢
    exact hl.refused u s agent hr
  · intro l w t b o a r w' hv hl ht ha hdrive hcall hact
    refine hl.run hv ?_ hact
    cases hd : w.drivers.get t with
    | some d => exact hdrive d hd
    | none => exact hcall hd
  · exact fun l w t x hl => ⟨hl.seen, hl.refused, hl.tally, trivial, hl.decided⟩
  · exact fun l w t hl => ⟨hl.seen, hl.refused, hl.tally, trivial, hl.decided⟩

/-- **A refused output is repaired** as long as fewer than `max_repairs` repairs were made, if and
    only if the retries of the model have taken none of them away. -/
theorem repaired_iff {w₀ : World V} (h₀ : Fresh w₀) (newer older : Log cfg Unit) {t : Nat}
    {s s' : RunState V} {v : Nat} {agent : AgentDefinition V}
    {a : Act cfg.sem.Ans Exn (.runsSave s' v)} {r : Except Exn Unit}
    {P : Pool (Op.Resp (V := V)) Exn (World V) Unit}
    (h : (anyTasks cfg calls).Trace (freshPool w₀)
      (newer ++ .awaited t (.runsSave s' v) a r :: older) P)
    (hr : Refused s agent (pastOf t older)) :
    ∃ history later record past, P.world.runs.get s.id = some history ∧
      history.records = later ++ record :: past ∧ record.state.version = s.version ∧
      record.state.status = .verifying ∧
      (Repaired s s' v → repairs (record :: past) < agent.verificationPolicy.maxRepairs) ∧
      ((Repaired s s' v ↔ repairs (record :: past) < agent.verificationPolicy.maxRepairs) ↔
        (repairs (record :: past) < agent.verificationPolicy.maxRepairs →
          repairs (record :: past) + modelRetries (record :: past) <
            agent.verificationPolicy.maxRepairs)) := by
  have hl := audited h₀ h
  obtain ⟨⟨history, hget, record, hmem, hstamp⟩, hstatus, hiff⟩ := hl.decided.of_append s agent hr
  simp only [RunState.stamp, Prod.mk.injEq] at hstamp
  obtain ⟨-, hversion, hs, hcount⟩ := hstamp
  obtain ⟨later, past, hrecords⟩ := List.append_of_mem hmem
  have htally := hl.tally _ _ hget
  rw [hrecords] at htally
  rw [← hcount, htally.of_append.attemptCount] at hiff
  have hfew := fun hlt => Nat.lt_of_le_of_lt (Nat.le_add_right (repairs (record :: past)) _)
    (hiff.1 hlt)
  refine ⟨history, later, record, past, hget, hrecords, hversion, hs.trans hstatus, hfew, ?_⟩
  constructor
  · exact fun h hlt => hiff.1 (h.2 hlt)
  · exact fun h => ⟨hfew, fun hlt => hiff.2 (h hlt)⟩

end

/-! ## Two refusals -/

section
variable {s : RunState V} {agent : AgentDefinition V} {h : Awaits V}

/-- The refused output of a past. -/
def refusal : Awaits V → Option (RunState V × AgentDefinition V)
  | [] => none
  | ⟨_, .error _⟩ :: _ => none
  | ⟨.verify _ _ s agent _, .ok results⟩ :: _ =>
    if agent.accepts results then none else some (s, agent)
  | ⟨o, .ok _⟩ :: h => if o.isNeutral then refusal h else none

theorem refused_of_refusal (hr : refusal h = some (s, agent)) : Refused s agent h := by
  induction h with
  | nil => cases hr
  | cons x h ih =>
    obtain ⟨o, r⟩ := x
    cases r with
    | error e => simp [refusal] at hr
    | ok y =>
      by_cases ho : o.isNeutral = true
      · refine .after (ih ?_) ho
        cases o <;> first | exact hr | cases ho
      · cases o with
        | verify names output s₁ agent₁ schema =>
          simp only [refusal] at hr
          split at hr
          · cases hr
          · rename_i hn
            cases hr
            exact .verdict (Bool.eq_false_of_not_eq_true hn)
        | runsCreate | runsSave => simp [refusal, Op.isNeutral] at hr
        | _ => exact absurd rfl ho

end

end RepairBudget

namespace Sample

/-- The planner ends the run. -/
def completePlan : Plan String :=
  { actions := [{ id := "complete", type := .complete, description := "" }], decisionSummary := "" }

/-- An agent whose outputs are repaired so often. -/
def repairing (maxRepairs : Nat) : AgentDefinition String :=
  { agent with verificationPolicy := { maxRepairs } }

def repairingWorld (maxRepairs : Nat) : World String :=
  { agents := [("agent@1", repairing maxRepairs)] }

/-- The provider is not available for a moment. -/
def unavailable : (o : Op String) → Act sendCfg.sem.Ans Exn o
  | .generate .. => .done (Answer.error (.provider "unavailable" .unavailable true))
  | o => obliging o

/-- The verifiers refuse the output. -/
def refuses : (o : Op String) → Act sendCfg.sem.Ans Exn o
  | .verify .. => .done (Answer.ok
    [({ passed := false, confidence := 1, reasonCode := "", message := "" } : VerificationResult)])
  | o => obliging o

abbrev repairingSys := runtimeSys sendCfg (fun _ _ _ _ => True) (fun _ => .start request)
  fun _ => True

def repairingPlayer : Player repairingSys :=
  runtimePlayer _ _ (fun _ _ _ _ => true) fun _ _ _ _ _ => trivial

/-- A model call is retried, and after `n` awaits more its output is refused. -/
def retriedAndRefused (n : Nat) : List (Move sendCfg.sem.Ans Exn) :=
  toModel ++ .run 1 unavailable :: List.replicate 14 (.run 1 (planIs completePlan)) ++
    List.replicate n (.run 1 refuses)

/-- A refused run, its agent, and the next write. -/
abbrev RefusedWrite := RunState String × AgentDefinition String × RunState String × Nat

def refusedWrite (x : List (Event (Op.Resp (V := String)) sendCfg.sem.Ans Exn Unit) ×
    Pool (Op.Resp (V := String)) Exn (World String) Unit) : Option RefusedWrite :=
  match x.1 with
  | .awaited t (.runsSave s' v) _ _ :: older =>
    (RepairBudget.refusal (pastOf t older)).map fun y => (y.1, y.2, s', v)
  | _ => none

theorem exists_of_refusedWrite {s s' : RunState String} {v : Nat} {agent : AgentDefinition String}
    {l : Log sendCfg Unit} {P : Pool (Op.Resp (V := String)) Exn (World String) Unit}
    (h : refusedWrite (l, P) = some (s, agent, s', v)) :
    ∃ t a r older, l = .awaited t (.runsSave s' v) a r :: older ∧
      RepairBudget.Refused s agent (pastOf t older) := by
  unfold refusedWrite at h
  split at h
  · rename_i t s₁ v₁ a r older hl
    obtain ⟨⟨s₂, agent₂⟩, hr, heq⟩ := Option.map_eq_some_iff.1 h
    cases heq
    exact ⟨t, a, r, older, hl, RepairBudget.refused_of_refusal hr⟩
  · cases h

theorem repairingWorld_fresh (maxRepairs : Nat) : Fresh (repairingWorld maxRepairs) :=
  ⟨rfl, rfl, rfl, rfl⟩

end Sample

namespace RepairBudget

open Sample

/-- Two repairs leave one after a retry. -/
theorem repaired_sample : ∃ (older : Log sendCfg Unit) (t : Nat) (s s' : RunState String) (v : Nat)
    (agent : AgentDefinition String) (a : Act sendCfg.sem.Ans Exn (.runsSave s' v))
    (r : Except Exn Unit) (P : Pool (Op.Resp (V := String)) Exn (World String) Unit),
    repairingSys.Trace (freshPool (repairingWorld 2)) (.awaited t (.runsSave s' v) a r :: older) P ∧
      Refused s agent (pastOf t older) ∧ Repaired s s' v ∧
      ∃ history later record past, P.world.runs.get s.id = some history ∧
        history.records = later ++ record :: past ∧ repairs (record :: past) < 2 := by
  obtain ⟨l, P, hP, hf⟩ := repairingPlayer.exists_trace (retriedAndRefused 9)
    (freshPool (repairingWorld 2)) (fun x => (refusedWrite x).map fun y : RefusedWrite =>
      decide (y.2.1.verificationPolicy.maxRepairs = 2 ∧ y.2.2.1.id = y.1.id ∧
        y.2.2.2 = y.1.version ∧ y.2.2.1.status = .retrying)) (a := some true) (by decide +kernel)
  obtain ⟨⟨s, agent, s', v⟩, hwrite, heq⟩ := Option.map_eq_some_iff.1 hf
  obtain ⟨hmax, hid, hversion, hstatus⟩ := of_decide_eq_true heq
  obtain ⟨t, a, r, older, rfl, hr⟩ := exists_of_refusedWrite hwrite
  obtain ⟨history, later, record, past, hget, hrecords, -, -, hfew, -⟩ :=
    repaired_iff (repairingWorld_fresh 2) [] older hP hr
  refine ⟨older, t, s, s', v, agent, a, r, P, hP, hr, ⟨hid, hversion, hstatus⟩, history, later,
    record, past, hget, hrecords, ?_⟩
  have hlt := hfew ⟨hid, hversion, hstatus⟩
  rwa [hmax] at hlt

/-- The only repair is spent by a retry of the model. -/
theorem unrepaired : ¬ ∀ (cfg : Config String) (calls : Nat → Call String) (w₀ : World String)
    (newer older : Log cfg Unit) (t : Nat) (s s' : RunState String) (v : Nat)
    (agent : AgentDefinition String) (a : Act cfg.sem.Ans Exn (.runsSave s' v))
    (r : Except Exn Unit) (P : Pool (Op.Resp (V := String)) Exn (World String) Unit), Fresh w₀ →
    (anyTasks cfg calls).Trace (freshPool w₀)
      (newer ++ .awaited t (.runsSave s' v) a r :: older) P →
    Refused s agent (pastOf t older) →
    ∀ history later record past, P.world.runs.get s.id = some history →
      history.records = later ++ record :: past → record.state.version = s.version →
      (Repaired s s' v ↔ repairs (record :: past) < agent.verificationPolicy.maxRepairs) := by
  intro hclaim
  obtain ⟨l, P, hP, hf⟩ := repairingPlayer.exists_trace (retriedAndRefused 10)
    (freshPool (repairingWorld 1)) (fun x => ((refusedWrite x).map fun y : RefusedWrite =>
      decide (y.1.id = "run" ∧ y.1.version = 8 ∧ y.2.1.verificationPolicy.maxRepairs = 1 ∧
        y.2.2.1.status = .failed),
      (x.2.world.runs.get "run").map fun h => (h.past.map (·.state.version), repairs h.past)))
    (a := (some true, some ([8, 7, 6, 5, 4, 3, 2, 1, 0], 0))) (by decide +kernel)
  obtain ⟨hwrite, hhistory⟩ := Prod.mk.inj hf
  obtain ⟨⟨s, agent, s', v⟩, hwrite, heq⟩ := Option.map_eq_some_iff.1 hwrite
  obtain ⟨history, hget, heq'⟩ := Option.map_eq_some_iff.1 hhistory
  obtain ⟨hid, hversion, hmax, hstatus⟩ := of_decide_eq_true heq
  obtain ⟨hversions, hrepairs⟩ := Prod.mk.inj heq'
  obtain ⟨t, a, r, older, rfl, hr⟩ := exists_of_refusedWrite hwrite
  obtain ⟨record, past, hpast, hrecord, -⟩ := List.map_eq_cons_iff.1 hversions
  have hiff := hclaim sendCfg _ _ [] older t s s' v agent a r P (repairingWorld_fresh 1) hP hr
    history [history.current] record past (hid ▸ hget) (congrArg (history.current :: ·) hpast)
    (hrecord.trans hversion.symm)
  rw [← hpast, hrepairs, hmax] at hiff
  have hretrying := (hiff.2 Nat.one_pos).status
  rw [hstatus] at hretrying
  cases hretrying

end RepairBudget

end TracciaRuntime
