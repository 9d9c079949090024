/-
  What a handler call that needs an approval rests on.

  * `Granted w runId c arguments`: the run waited for the decision on a request made
    for call `c`, and the decision was APPROVED with the pending call's arguments or
    MODIFIED with these;
  * `Good w s`: every open call that the state `s` counts as approved was granted
    with the arguments it is pending with;
  * `approval_sound`: with planners that serve the pending calls, and no decision
    but the three that `resume` advertises, every handler whose `plan_tool` check
    asked for an approval runs as granted.

  A run state is `Good` for itself and stays so, whoever else writes the run: a
  decided request never changes, and records are never taken back.
-/
import TracciaRuntime.Proof.History
import TracciaRuntime.Planning.Planners

namespace TracciaRuntime

open Py Async AgentRuntime

variable {V : Type}

/-- The pending call with this id. -/
def RunState.call (s : RunState V) (c : String) : Option (ToolCall V) :=
  s.pendingToolCalls.find? fun x => x.id = c

/-- Run `runId` waited for the decision on the request `aid`, made for its call `c`. -/
structure Asked (w : World V) (runId c aid : String) (item : Item V) (call : ToolCall V) :
    Prop where
  paused : ∃ h r, w.runs.get runId = some h ∧ r ∈ h.records ∧
    r.state.status = .awaitingApproval ∧ pausedFor r.state = (aid, c) ∧ r.state.call c = some call
  stored : w.approvals.get aid = some item
  runId : item.request.runId = runId
  stepId : item.request.stepId = "tool-" ++ c

/-- The decision lets the call go ahead with these arguments. -/
def Item.Grants (item : Item V) (call : ToolCall V) (arguments : Dict String V) : Prop :=
  item.request.status = .approved ∧ arguments = call.arguments ∨
    item.request.status = .modified ∧ item.request.modifiedParameters = some arguments

def Granted (w : World V) (runId c : String) (arguments : Dict String V) : Prop :=
  ∃ aid item call, Asked w runId c aid item call ∧ item.Grants call arguments

/-- An invocation rests on its check and, if that asked for an approval, on a granted one. -/
def Authorized (w : World V) (i : Invocation V) : Prop :=
  ∃ check, Checks check i ∧ (check.decision.action = .requireApproval →
    ∃ c, i.context.stepId = "tool-" ++ c ∧ Granted w i.context.runId c i.arguments)

/-- What a run state claims about approvals is so. -/
structure Good (w : World V) (s : RunState V) : Prop where
  approved : ∀ c ∈ s.approvedToolCallIds, c ∉ s.completedToolCallIds →
    ∃ call, s.call c = some call ∧ Granted w s.id c call.arguments
  paused : s.status = .awaitingApproval → ∃ call item, s.call (pausedFor s).2 = some call ∧
    w.approvals.get (pausedFor s).1 = some item ∧ item.request.runId = s.id ∧
    item.request.stepId = "tool-" ++ (pausedFor s).2

/-! ## Moving on -/

/-- A request stays as it is, or its decision comes in. -/
def Item.Later (i i' : Item V) : Prop :=
  i' = i ∨ i.request.status = .pending ∧ i'.request.status ≠ .pending ∧
    i'.request = { i.request with
      status := i'.request.status, modifiedParameters := i'.request.modifiedParameters }

theorem Item.Later.trans {i₁ i₂ i₃ : Item V} (h₁ : i₁.Later i₂) (h₂ : i₂.Later i₃) :
    i₁.Later i₃ := by
  rcases h₁ with rfl | ⟨hp, hn, he⟩
  · exact h₂
  · rcases h₂ with rfl | ⟨hp', -, -⟩
    · exact Or.inr ⟨hp, hn, he⟩
    · exact absurd hp' hn

theorem Item.Later.runId {i i' : Item V} (h : i.Later i') : i'.request.runId = i.request.runId := by
  rcases h with rfl | ⟨-, -, he⟩
  · rfl
  · rw [he]

theorem Item.Later.stepId {i i' : Item V} (h : i.Later i') :
    i'.request.stepId = i.request.stepId := by
  rcases h with rfl | ⟨-, -, he⟩
  · rfl
  · rw [he]

theorem Item.Later.id {i i' : Item V} (h : i.Later i') : i'.request.id = i.request.id := by
  rcases h with rfl | ⟨-, -, he⟩
  · rfl
  · rw [he]

/-- A decided request is final. -/
theorem Item.Later.eq_of_decided {i i' : Item V} (h : i.Later i')
    (hd : i.request.status ≠ .pending) : i' = i :=
  h.resolve_right fun h => hd h.1

/-- Histories grow and requests get decided. -/
structure Onward (w w' : World V) : Prop where
  runs : Grows w.runs w'.runs
  approvals : ∀ aid i, w.approvals.get aid = some i →
    ∃ i', w'.approvals.get aid = some i' ∧ i.Later i'

theorem Onward.trans {w₁ w₂ w₃ : World V} (h₁ : Onward w₁ w₂) (h₂ : Onward w₂ w₃) :
    Onward w₁ w₃ := by
  refine ⟨h₁.runs.trans h₂.runs, fun aid i hi => ?_⟩
  obtain ⟨i', hi', hl⟩ := h₁.approvals aid i hi
  obtain ⟨i'', hi'', hl'⟩ := h₂.approvals aid i' hi'
  exact ⟨i'', hi'', hl.trans hl'⟩

theorem Onward.of_eq {w w' : World V} (hg : Grows w.runs w'.runs)
    (ha : w'.approvals = w.approvals) : Onward w w' :=
  ⟨hg, fun aid i hi => ⟨i, by rw [ha]; exact hi, Or.inl rfl⟩⟩

section
variable {w w' : World V} {s s' : RunState V}

theorem Granted.mono {runId c : String} {arguments : Dict String V} (ho : Onward w w')
    (h : Granted w runId c arguments) : Granted w' runId c arguments := by
  obtain ⟨aid, item, call, ⟨⟨h, r, hget, hr, hp⟩, hitem, hrun, hstep⟩, hgr⟩ := h
  obtain ⟨h', hget', hsuf⟩ := ho.runs runId h hget
  obtain ⟨item', hitem', hl⟩ := ho.approvals aid item hitem
  have hd : item.request.status ≠ .pending := by
    rcases hgr with ⟨hs, -⟩ | ⟨hs, -⟩ <;> rw [hs] <;> decide
  rw [hl.eq_of_decided hd] at hitem'
  exact ⟨aid, item, call, ⟨⟨h', r, hget', hsuf.subset hr, hp⟩, hitem', hrun, hstep⟩, hgr⟩

theorem Authorized.mono {i : Invocation V} (ho : Onward w w') (h : Authorized w i) :
    Authorized w' i := by
  obtain ⟨check, hc, h⟩ := h
  refine ⟨check, hc, fun hd => ?_⟩
  obtain ⟨c, hs, hg⟩ := h hd
  exact ⟨c, hs, hg.mono ho⟩

theorem Good.mono (ho : Onward w w') (h : Good w s) : Good w' s := by
  refine ⟨fun c hc hn => ?_, fun hs => ?_⟩
  · obtain ⟨call, hcall, hg⟩ := h.approved c hc hn
    exact ⟨call, hcall, hg.mono ho⟩
  · obtain ⟨call, item, hcall, hitem, hrun, hstep⟩ := h.paused hs
    obtain ⟨item', hitem', hl⟩ := ho.approvals _ _ hitem
    exact ⟨call, item', hcall, hitem', hl.runId.trans hrun, hl.stepId.trans hstep⟩

/-- What a state claims about approvals is in these fields. -/
theorem Good.congr (h : Good w s) (hid : s'.id = s.id)
    (ha : s'.approvedToolCallIds = s.approvedToolCallIds)
    (hc : s'.completedToolCallIds = s.completedToolCallIds)
    (hp : s'.pendingToolCalls = s.pendingToolCalls)
    (hpause : s'.status = .awaitingApproval →
      s.status = .awaitingApproval ∧ s'.pausePayload = s.pausePayload) : Good w s' := by
  have hcall : ∀ c, s'.call c = s.call c := fun c => by unfold RunState.call; rw [hp]
  refine ⟨fun c => ?_, fun hs => ?_⟩
  · rw [ha, hc, hcall, hid]; exact h.approved c
  · obtain ⟨hs', hpp⟩ := hpause hs
    have hfor : pausedFor s' = pausedFor s := by unfold pausedFor; rw [hpp]
    rw [hfor, hcall, hid]; exact h.paused hs'

end

/-! ## The contract -/

/-- Everything that is written down about approvals is so. -/
structure Vetted (w : World V) : Prop where
  nodup : w.runs.keys.Nodup
  records : ∀ id h, w.runs.get id = some h → ∀ r ∈ h.records, r.state.id = id ∧ Good w r.state
  items : ∀ aid i, w.approvals.get aid = some i →
    i.request.id = aid ∧ (w.issued.get aid).isSome = true
  invocations : ∀ i ∈ w.invocations, Authorized w i

/-- What task `t` tolerates: no other task uses an identifier that was issued to `t`. -/
structure Tolerated (t : Nat) (w w' : World V) : Prop where
  onward : Onward w w'
  planned : w'.planned t = w.planned t
  issued : ∀ id u, w.issued.get id = some u → w'.issued.get id = some u
  fresh : ∀ id, w.issued.get id = some t → w.approvals.get id = none → w'.approvals.get id = none

/-- The contract of approvals. -/
def vetting : Contract (World V) where
  valid := Vetted
  rely := Tolerated
  refl _ _ := ⟨.of_eq (Grows.refl _) rfl, rfl, fun _ _ h => h, fun _ _ h => h⟩
  trans h₁ h₂ := ⟨h₁.onward.trans h₂.onward, h₂.planned.trans h₁.planned,
    fun id u h => h₂.issued id u (h₁.issued id u h),
    fun id hi hn => h₂.fresh id (h₁.issued id _ hi) (h₁.fresh id hi hn)⟩

section
variable {cfg : Config V} {A : Allow cfg.sem.Ans Exn (World V)} {t : Nat} {b : Bool}
  {w w' : World V} {s : RunState V}

theorem Good.stable (s : RunState V) : vetting.Stable t fun w => Good w s :=
  fun _ _ hr h => h.mono hr.onward

/-- A step that leaves the approvals alone. -/
theorem tolerated_of_frame {o : Op V} (hg : Grows w.runs w'.runs) (hf : World.Frame t o w w')
    (ha : w'.approvals = w.approvals) : ∀ t', t' ≠ t → vetting.rely t' w w' :=
  fun t' ht => ⟨.of_eq hg ha, hf.planned_other t' ht, hf.issued, fun id _ hn => by rw [ha]; exact hn⟩

/-- What was vetted stays vetted while nothing is added. -/
theorem Vetted.of_eq (hv : Vetted w) (hr : w'.runs = w.runs) (ho : Onward w w')
    (hitems : ∀ aid i, w'.approvals.get aid = some i →
      i.request.id = aid ∧ (w'.issued.get aid).isSome = true)
    (hinv : ∀ i ∈ w'.invocations, Authorized w' i) : Vetted w' := by
  refine ⟨?_, fun id h hg r hmem => ?_, hitems, hinv⟩
  · rw [hr]; exact hv.nodup
  · rw [hr] at hg
    obtain ⟨hid, hgood⟩ := hv.records id h hg r hmem
    exact ⟨hid, hgood.mono ho⟩

theorem Vetted.items_of_frame {o : Op V} (hv : Vetted w) (hf : World.Frame t o w w')
    (ha : w'.approvals = w.approvals) : ∀ aid i, w'.approvals.get aid = some i →
      i.request.id = aid ∧ (w'.issued.get aid).isSome = true := by
  intro aid i hi
  rw [ha] at hi
  obtain ⟨hid, hiss⟩ := hv.items aid i hi
  obtain ⟨u, hu⟩ := Option.isSome_iff_exists.1 hiss
  exact ⟨hid, by rw [hf.issued aid u hu]; rfl⟩

/-- An operation that writes no runs and no approvals and calls no handler. -/
theorem vetting_of_idle {o : Op V} {a : Act cfg.sem.Ans Exn o} {r : Except Exn o.Resp}
    (hv : Vetted w) (ho : o.isIdle = true) (hact : cfg.sem.act t b w o a = some (r, w')) :
    Vetted w' ∧ (∀ t', t' ≠ t → vetting.rely t' w w') ∧ Onward w w' := by
  have hf := Config.act_frame hact
  obtain ⟨h₁, h₂, h₃⟩ : o.writesRuns = false ∧ o.writesApprovals = false ∧ o.isHandler = false := by
    cases o <;> first | exact ⟨rfl, rfl, rfl⟩ | cases ho
  have on : Onward w w' := .of_eq (act_grows hact) (hf.approvals h₂)
  refine ⟨hv.of_eq (hf.runs h₁) on (hv.items_of_frame hf (hf.approvals h₂)) fun i hi => ?_,
    tolerated_of_frame on.runs hf (hf.approvals h₂), on⟩
  rw [hf.invocations h₃] at hi
  exact (hv.invocations i hi).mono on

theorem vetting_idle {o : Op V} (ho : o.isIdle = true) {G : World V → Prop} {X : Exn → Prop}
    (hG : ∀ w w', Onward w w' → G w → G w') (hX : ∀ e, X e) : Mild cfg.sem A vetting t G X o := by
  intro b w a r w' hv hg _ hact
  obtain ⟨h₁, h₂, h₃⟩ := vetting_of_idle hv ho hact
  exact ⟨h₁, h₂, hG w w' h₃ hg, fun e _ => hX e⟩

/-- **Records of good states may be added.** -/
theorem vetting_write {o : Op V} {a : Act cfg.sem.Ans Exn o} {r : Except Exn o.Resp}
    (hv : Vetted w) (ha : o.writesApprovals = false) (hh : o.isHandler = false)
    (hact : cfg.sem.act t b w o a = some (r, w'))
    (hnodup : w'.runs.keys.Nodup)
    (hnew : ∀ id h, w'.runs.get id = some h → ∀ r ∈ h.records,
      (∃ h₀, w.runs.get id = some h₀ ∧ r ∈ h₀.records) ∨ r.state.id = id ∧ Good w r.state) :
    Vetted w' ∧ (∀ t', t' ≠ t → vetting.rely t' w w') ∧ Onward w w' := by
  have hf := Config.act_frame hact
  have on : Onward w w' := .of_eq (act_grows hact) (hf.approvals ha)
  refine ⟨⟨hnodup, fun id h hg r hr => ?_, hv.items_of_frame hf (hf.approvals ha), fun i hi => ?_⟩,
    tolerated_of_frame on.runs hf (hf.approvals ha), on⟩
  · rcases hnew id h hg r hr with ⟨h₀, hg₀, hr₀⟩ | ⟨hid, hgood⟩
    · obtain ⟨hid, hgood⟩ := hv.records id h₀ hg₀ r hr₀
      exact ⟨hid, hgood.mono on⟩
    · exact ⟨hid, hgood.mono on⟩
  · rw [hf.invocations hh] at hi
    exact (hv.invocations i hi).mono on

theorem vetting_save {v : Nat} {a : Act cfg.sem.Ans Exn (.runsSave s v)} {r : Except Exn Unit}
    (hv : Vetted w) (hs : Good w s) (hact : cfg.sem.act t b w (.runsSave s v) a = some (r, w')) :
    Vetted w' ∧ (∀ t', t' ≠ t → vetting.rely t' w w') ∧ Onward w w' := by
  rcases act_runsSave hact with ⟨he, -⟩ | hsave
  · refine vetting_write hv rfl rfl hact (by rw [he]; exact hv.nodup) fun id h hg r hr => ?_
    rw [he] at hg; exact Or.inl ⟨h, hg, hr⟩
  · obtain ⟨h₀, hget, -, he⟩ := Runs.save_ok hsave
    refine vetting_write hv rfl rfl hact (by rw [he]; exact Dict.nodup_keys_set _ _ hv.nodup)
      fun id h hg r hr => ?_
    rw [he, Dict.get_set] at hg
    split at hg
    · rename_i hid
      cases hg
      rcases List.mem_cons.1 hr with rfl | hr
      · exact Or.inr ⟨hid.symm, hs.congr rfl rfl rfl rfl fun h => ⟨h, rfl⟩⟩
      · exact Or.inl ⟨h₀, by rw [hid]; exact hget, hr⟩
    · exact Or.inl ⟨h, hg, hr⟩

theorem vetting_create {a : Act cfg.sem.Ans Exn (.runsCreate s)} {r : Except Exn Unit}
    (hv : Vetted w) (hs : Good w s) (hact : cfg.sem.act t b w (.runsCreate s) a = some (r, w')) :
    Vetted w' ∧ (∀ t', t' ≠ t → vetting.rely t' w w') ∧ Onward w w' := by
  rcases act_runsCreate hact with ⟨he, -⟩ | hsave
  · refine vetting_write hv rfl rfl hact (by rw [he]; exact hv.nodup) fun id h hg r hr => ?_
    rw [he] at hg; exact Or.inl ⟨h, hg, hr⟩
  · obtain ⟨-, he⟩ := Runs.create_ok hsave
    refine vetting_write hv rfl rfl hact (by rw [he]; exact Dict.nodup_keys_set _ _ hv.nodup)
      fun id h hg r hr => ?_
    rw [he, Dict.get_set] at hg
    split at hg
    · rename_i hid
      cases hg
      rw [List.mem_singleton.1 hr]
      exact Or.inr ⟨hid.symm, hs⟩
    · exact Or.inl ⟨h, hg, hr⟩

end

/-! ## Drivers -/

/-- The planner serves the pending calls. -/
def serving (cfg : Config V) : Allow cfg.sem.Ans Exn (World V)
  | _, _, .plan s _, a => ∀ p, a = .done (Answer.ok p) →
      ∀ action rest, p.actions = action :: rest → Serves s action
  | _, _, _, _ => True

section
variable {cfg : Config V} {t : Nat} {b : Bool} {w w' : World V} {s : RunState V}

/-- A new answer of the model replaces the pending calls when no approved one is open. -/
theorem Good.respond {calls : List (ToolCall V)} (h : Good w s) (hs : s.status ≠ .awaitingApproval)
    (hdone : ∀ call ∈ s.pendingToolCalls, call.id ∈ s.approvedToolCallIds →
      call.id ∈ s.completedToolCallIds) : Good w { s with pendingToolCalls := calls } := by
  refine ⟨fun c hc hn => ?_, fun h' => absurd h' hs⟩
  obtain ⟨call, hcall, -⟩ := h.approved c hc hn
  have hid : call.id = c := by simpa using List.find?_some hcall
  subst hid
  exact absurd (hdone call (List.mem_of_find?_eq_some hcall) hc) hn

/-- A completed call leaves the others as they are. -/
theorem Good.complete {callId : String} (h : Good w s) (hs : s.status ≠ .awaitingApproval) :
    Good w { s with
      completedToolCallIds := insert callId s.completedToolCallIds
      pendingToolCalls := s.pendingToolCalls.filter fun call => call.id ≠ callId } := by
  refine ⟨fun c hc hn => ?_, fun h' => absurd h' hs⟩
  simp only [Finset.mem_insert, not_or] at hn
  obtain ⟨call, hcall, hg⟩ := h.approved c hc hn.2
  refine ⟨call, ?_, hg⟩
  unfold RunState.call at hcall ⊢
  rw [List.find?_filter, ← hcall]
  congr 1
  funext x
  by_cases hx : x.id = c
  · simp [hx, hn.1]
  · simp [hx]

theorem isWorking_ne {a : RunStatus} (h : a.isWorking = true) : a ≠ .awaitingApproval := by
  rintro rfl; cases h

theorem vetting_copyLaws :
    CopyLaws cfg (serving cfg) vetting t Good (fun _ _ => True) True False where
  stable := Good.stable
  planned _ _ h := h.planned
  same _ _ _ h hg := hg.congr h.id h.approved h.completed h.pending fun hs =>
    ⟨h.status.symm.trans hs, h.pause (h.status.symm.trans hs)⟩
  raises _ _ _ _ := trivial
  background s o ho := by
    refine vetting_idle ?_ (fun _ _ on hg => hg.mono on) fun _ => trivial
    cases o <;> first | rfl | cases ho
  plan _ _ _ p ha _ := ha p rfl
  save b w s target now a r w' hv hg _ hp _ hact := by
    have hs : Good w { s with status := target, updatedAt := now } :=
      hg.congr rfl rfl rfl rfl fun h => ⟨(hp h).resolve_right id, rfl⟩
    obtain ⟨h₁, h₂, h₃⟩ := vetting_save hv hs hact
    refine ⟨h₁, h₂, ?_⟩
    cases r with
    | ok u => exact (hs.mono h₃).congr rfl rfl rfl rfl fun h => ⟨h, rfl⟩
    | error e => exact ⟨s, hg.mono h₃, trivial⟩
  respond _ _ _ hg hs hdone := hg.respond (isWorking_ne hs) (hdone trivial)
  result _ _ _ hg hs := hg.complete (isWorking_ne hs)

/-- A state that is good with its new status may be saved. -/
theorem saveAs_vetted {target : RunStatus} (hg : Good w { s with status := target }) :
    Ticks cfg (serving cfg) vetting t (Post Good (fun _ _ => True) id) (saveAs s target) w := by
  refine vetting_copyLaws.calm_bind (X := fun _ => False) (s := { s with status := target })
    (await_calm rfl) (fun _ h => h.elim) hg fun now w₁ hg₁ =>
      Safe.bind (Safe.call fun w₂ hr hv a ha r w₃ hact => ?_)
  have hs : Good w₂ { s with status := target, updatedAt := now } :=
    (Good.stable _ w₁ w₂ hr hg₁).congr rfl rfl rfl rfl fun h => ⟨h, rfl⟩
  obtain ⟨h₁, h₂, h₃⟩ := vetting_save hv hs (Sem.act_of_ticking hact)
  refine ⟨h₁, h₂, ?_⟩
  cases r with
  | ok u => exact (hs.mono h₃).congr rfl rfl rfl rfl fun h => ⟨h, rfl⟩
  | error e => exact ⟨_, hs.mono h₃, trivial⟩

/-- `t` holds an identifier that no request has yet. -/
def Holds (t : Nat) (id : String) (w : World V) : Prop :=
  w.issued.get id = some t ∧ w.approvals.get id = none

theorem Holds.stable {id : String} : (vetting (V := V)).Stable t (Holds t id) :=
  fun _ _ hr h => ⟨hr.issued id t h.1, hr.fresh id h.1 h.2⟩

/-- A request under a fresh identifier. -/
theorem vetting_insert {x : ApprovalRequest V} {a : Act cfg.sem.Ans Exn (.approvalsInsert x)}
    {r : Except Exn Unit} (hv : Vetted w) (hh : Holds t x.id w)
    (hact : cfg.sem.act t b w (.approvalsInsert x) a = some (r, w')) :
    Vetted w' ∧ (∀ t', t' ≠ t → vetting.rely t' w w') ∧ Onward w w' ∧
      ∀ u, r = .ok u → w'.approvals.get x.id = some ⟨x, none⟩ := by
  have hf := Config.act_frame hact
  have hr := hf.runs rfl
  have hinv := hf.invocations rfl
  have grows : Grows w.runs w'.runs := act_grows hact
  rcases act_approvalsInsert hact with ⟨he, e, rfl⟩ | he
  · have on : Onward w w' := .of_eq grows he
    refine ⟨hv.of_eq hr on (hv.items_of_frame hf he) fun i hi => ?_,
      tolerated_of_frame grows hf he, on, fun u h => by cases h⟩
    rw [hinv] at hi; exact (hv.invocations i hi).mono on
  · have hother : ∀ aid, aid ≠ x.id → w'.approvals.get aid = w.approvals.get aid :=
      fun aid hne => by rw [he, Dict.get_set_ne hne]
    have on : Onward w w' := by
      refine ⟨grows, fun aid i hi => ⟨i, ?_, Or.inl rfl⟩⟩
      rw [hother aid (by rintro rfl; rw [hh.2] at hi; cases hi)]; exact hi
    refine ⟨hv.of_eq hr on (fun aid i hi => ?_) (fun i hi => ?_), fun t' ht => ⟨on,
      hf.planned_other t' ht, hf.issued, fun id hi hn => ?_⟩, on, fun _ _ => by rw [he]; simp⟩
    · by_cases hid : aid = x.id
      · subst hid
        rw [he, Dict.get_set_self] at hi
        cases hi
        exact ⟨rfl, by rw [hf.issued _ t hh.1]; rfl⟩
      · rw [hother aid hid] at hi
        obtain ⟨h₁, h₂⟩ := hv.items aid i hi
        obtain ⟨u, hu⟩ := Option.isSome_iff_exists.1 h₂
        exact ⟨h₁, by rw [hf.issued aid u hu]; rfl⟩
    · rw [hinv] at hi; exact (hv.invocations i hi).mono on
    · rw [hother id (by rintro rfl; rw [hh.1] at hi; cases hi; exact ht rfl)]; exact hn

/-- `create` leaves a request for this run and step. -/
theorem create_vetted {runId stepId tenantId proposedAction risk : String}
    {parameters : Dict String V} {expiresSeconds : Nat} (hg : Good w s) :
    Ticks cfg (serving cfg) vetting t (fun x w' => Good w' s ∧ ∀ approval, x = .ok approval →
        ∃ item, w'.approvals.get approval.id = some item ∧ item.request.runId = runId ∧
          item.request.stepId = stepId)
      (ApprovalService.create runId stepId tenantId proposedAction parameters risk expiresSeconds)
      w := by
  refine Safe.bind (Safe.call fun w₁ hr hv a _ r w₂ hact => ?_)
  have hact' := Sem.act_of_ticking hact
  obtain ⟨h₁, h₂, on⟩ := vetting_of_idle hv rfl hact'
  have hg₂ : Good w₂ s := (Good.stable s w w₁ hr hg).mono on
  refine ⟨h₁, h₂, ?_⟩
  cases r with
  | error e => exact ⟨hg₂, fun _ h => by cases h⟩
  | ok id =>
    -- the identifier is new, so no request has it
    have hh : Holds t id w₂ := by
      obtain ⟨c, -, hc⟩ := done_of_act_ok hact'
      simp only [World.effect] at hc
      split at hc
      · cases hc
      · rename_i hn
        cases hc
        refine ⟨Dict.get_set_self _ _ _, ?_⟩
        cases hi : w₁.approvals.get id with
        | none => rfl
        | some i => exact absurd (hv.items id i hi).2 hn
    refine Safe.bind (Safe.call fun w₃ hr₃ hv₃ a _ r w₄ hact₄ => ?_)
    have hact₄ := Sem.act_of_ticking hact₄
    obtain ⟨h₁, h₂, on₄⟩ := vetting_of_idle hv₃ rfl hact₄
    have hg₄ : Good w₄ s := (Good.stable s w₂ w₃ hr₃ hg₂).mono on₄
    refine ⟨h₁, h₂, ?_⟩
    cases r with
    | error e => exact ⟨hg₄, fun _ h => by cases h⟩
    | ok now =>
      have hf := Config.act_frame hact₄
      have hh₃ := Holds.stable w₂ w₃ hr₃ hh
      have hh₄ : Holds t id w₄ := ⟨hf.issued id t hh₃.1, by rw [hf.approvals rfl]; exact hh₃.2⟩
      refine Safe.bind (Safe.call fun w₅ hr₅ hv₅ a _ r w₆ hact₆ => ?_)
      obtain ⟨h₁, h₂, on₆, hnew⟩ := vetting_insert hv₅ (Holds.stable w₄ w₅ hr₅ hh₄)
        (Sem.act_of_ticking hact₆)
      have hg₆ : Good w₆ s := (Good.stable s w₄ w₅ hr₅ hg₄).mono on₆
      refine ⟨h₁, h₂, ?_⟩
      cases r with
      | error e => exact ⟨hg₆, fun _ h => by cases h⟩
      | ok u =>
        refine Safe.pure ⟨hg₆, fun approval h => ?_⟩
        cases h
        exact ⟨_, hnew u rfl, rfl, rfl⟩

/-- The pause of `_execute_tool`. -/
theorem ask_vetted {agent : AgentDefinition V} {action : PlannedAction V} {d : ToolDefinition V}
    {decision : PolicyDecision V} (hg : Good w s) (hs : s.status = .planning)
    (ha : action.type = .tool) (hserve : Serves s action) :
    Ticks cfg (serving cfg) vetting t (Post Good (fun _ _ => True) id)
      (requestApproval cfg s agent action d (removePrefix "tool-" action.id) decision) w := by
  obtain ⟨call, hcall, -, hid, -⟩ := hserve.tool ha
  have hcallId : removePrefix "tool-" action.id = call.id := by rw [hid, removePrefix_append]
  rw [hcallId]
  refine Safe.bind ((create_vetted hg).mono fun x w₁ h => ?_)
  cases x with
  | error e => exact ⟨s, h.1, trivial⟩
  | ok approval =>
    obtain ⟨item, hitem, hrun, hstep⟩ := h.2 approval rfl
    -- the paused state waits for the request that was just made
    have hgood : Good w₁ { s with
        status := .awaitingApproval
        pausePayload := some (.approval approval.id call.id approval.proposedAction
          approval.sideEffectSummary approval.redactedParameters approval.risk approval.expiresAt
          ["approved", "rejected", "modified"]) } :=
      ⟨h.1.approved, fun _ => ⟨call, item, hcall, hitem, hrun, hstep.trans hid⟩⟩
    refine Safe.bind (Safe.bind (Safe.lift ?_))
    rw [show validateTransition s.status .awaitingApproval = .ok () by rw [hs]; rfl]
    refine (saveAs_vetted hgood).mono fun x w₂ h => ?_
    cases x with
    | error e => exact h
    | ok s₁ => exact vetting_copyLaws.emit_bind h fun w₃ hw₃ => Safe.pure hw₃

/-- The call of `_execute_tool`. -/
theorem call_vetted {agent : AgentDefinition V} {action : PlannedAction V} {d : ToolDefinition V}
    {decision : PolicyDecision V} (hg : Good w s) (ha : action.type = .tool)
    (hserve : Serves s action)
    (hplan : w.planned t = some ⟨.arguments action.arguments, planContext s agent d, decision⟩)
    (happ : decision.action = .requireApproval →
      removePrefix "tool-" action.id ∈ s.approvedToolCallIds) :
    Ticks cfg (serving cfg) vetting t (fun _ w' => Good w' s)
      (ToolExecutor.execute cfg d.name action.arguments
        (toolContext s agent action (removePrefix "tool-" action.id))) w := by
  obtain ⟨call, hcall, hopen, hid, hargs⟩ := hserve.tool ha
  have hcallId : removePrefix "tool-" action.id = call.id := by rw [hid, removePrefix_append]
  generalize hcheck : (⟨.arguments action.arguments, planContext s agent d, decision⟩ :
    PlanCheck V) = check at hplan
  refine (Safe.of_calm (G := fun w => Good w s ∧ w.planned t = some check) (X := fun _ => True)
    (fun w w' hr h => ⟨Good.stable s w w' hr h.1, hr.planned.trans h.2⟩)
    ((execute_calm.mono fun _ _ => trivial).mono_op fun o ho => ?_) ⟨hg, hplan⟩).mono
    fun _ _ h => h.1.1
  intro b w a r w' hv h _ hact
  have hact := Sem.act_of_ticking hact
  have hf := Config.act_frame hact
  have hpt : o.plansTool = false := executeOp_plansTool ho
  have hplan' : w'.planned t = some check := (congrFun (hf.planned hpt) t).trans h.2
  by_cases hi : o.isIdle = true
  · obtain ⟨h₁, h₂, on⟩ := vetting_of_idle hv hi hact
    exact ⟨h₁, h₂, ⟨h.1.mono on, hplan'⟩, fun _ _ => trivial⟩
  · cases o with
    | handler n x c =>
      obtain ⟨rfl, rfl, rfl⟩ : n = d.name ∧ x = action.arguments ∧ c = toolContext s agent action _ :=
        ho.elim id fun h => h.elim
      have on : Onward w w' := .of_eq (act_grows hact) (hf.approvals rfl)
      refine ⟨hv.of_eq (hf.runs rfl) on (hv.items_of_frame hf (hf.approvals rfl)) fun i hi => ?_,
        tolerated_of_frame on.runs hf (hf.approvals rfl), ⟨h.1.mono on, hplan'⟩, fun _ _ => trivial⟩
      have old : i ∈ w.invocations → Authorized w' i := fun hi => (hv.invocations i hi).mono on
      rcases Config.act_handler hact with he | he
      · rw [he] at hi; exact old hi
      · rw [he] at hi
        rcases List.mem_cons.1 hi with rfl | hi
        · refine ⟨check, ⟨h.2, ?_, ?_, ?_⟩, fun hd => ?_⟩
          · rw [← hcheck]
          · rw [← hcheck]; rfl
          · rw [← hcheck]; rfl
          · have hmem : call.id ∈ s.approvedToolCallIds := by
              rw [← hcallId]; exact happ (by rw [← hcheck] at hd; exact hd)
            obtain ⟨call', hcall', hgr⟩ := h.1.approved call.id hmem hopen
            have heq : call' = call := Option.some.inj (hcall'.symm.trans hcall)
            subst heq
            exact ⟨call'.id, hid, by rw [hargs]; exact hgr.mono on⟩
        · exact old hi
    | _ => first | exact absurd rfl hi | exact (ho.elim id id).elim

theorem vetting_laws : Laws cfg (serving cfg) vetting t Good (fun _ _ => True) True False where
  toCopyLaws := vetting_copyLaws
  ask _ _ _ _ _ _ hg hs ha hserve _ := ask_vetted hg hs ha (hserve trivial)
  tool _ _ _ _ _ _ hg _ ha hserve hplan happ :=
    (call_vetted hg ha (hserve trivial) hplan happ).mono fun _ _ h => ⟨h, fun _ _ => trivial⟩

/-! ## Decisions -/

/-- A pending request of the store gets its decision. -/
theorem vetting_decided {o : Op V} {a : Act cfg.sem.Ans Exn o} {r : Except Exn o.Resp}
    {aid : String} {i i' : Item V} (hv : Vetted w) (hw : o.writesRuns = false)
    (hh : o.isHandler = false) (hact : cfg.sem.act t b w o a = some (r, w'))
    (hget : w.approvals.get aid = some i) (he : w'.approvals = w.approvals.set aid i')
    (hl : i.Later i') :
    Vetted w' ∧ (∀ t', t' ≠ t → vetting.rely t' w w') ∧ Onward w w' := by
  have hf := Config.act_frame hact
  have on : Onward w w' := by
    refine ⟨act_grows hact, fun aid' j hj => ?_⟩
    rw [he, Dict.get_set]
    split
    · rename_i hid
      rw [hid, hget] at hj; cases hj
      exact ⟨i', rfl, hl⟩
    · exact ⟨j, hj, Or.inl rfl⟩
  refine ⟨hv.of_eq (hf.runs hw) on (fun aid' j hj => ?_) (fun j hj => ?_), fun t' ht => ⟨on,
    hf.planned_other t' ht, hf.issued, fun id _ hn => ?_⟩, on⟩
  · have issued : ∀ {k}, (w.issued.get k).isSome = true → (w'.issued.get k).isSome = true := by
      intro k hk
      obtain ⟨u, hu⟩ := Option.isSome_iff_exists.1 hk
      rw [hf.issued k u hu]; rfl
    rw [he, Dict.get_set] at hj
    split at hj
    · rename_i hid
      cases hj
      obtain ⟨h₁, h₂⟩ := hv.items aid i hget
      rw [hid]
      exact ⟨hl.id.trans h₁, issued h₂⟩
    · obtain ⟨h₁, h₂⟩ := hv.items aid' j hj
      exact ⟨h₁, issued h₂⟩
  · rw [hf.invocations hh] at hj; exact (hv.invocations j hj).mono on
  · rw [he, Dict.get_set_ne (by rintro rfl; rw [hget] at hn; cases hn)]; exact hn

/-- Nothing is decided. -/
theorem vetting_undecided {o : Op V} {a : Act cfg.sem.Ans Exn o} {r : Except Exn o.Resp}
    (hv : Vetted w) (hw : o.writesRuns = false) (hh : o.isHandler = false)
    (hact : cfg.sem.act t b w o a = some (r, w')) (he : w'.approvals = w.approvals) :
    Vetted w' ∧ (∀ t', t' ≠ t → vetting.rely t' w w') ∧ Onward w w' := by
  have hf := Config.act_frame hact
  have on : Onward w w' := .of_eq (act_grows hact) he
  refine ⟨hv.of_eq (hf.runs hw) on (hv.items_of_frame hf he) fun i hi => ?_,
    tolerated_of_frame on.runs hf he, on⟩
  rw [hf.invocations hh] at hi; exact (hv.invocations i hi).mono on

/-- The request `aid` was made for call `c` of run `runId`. -/
def Requested (runId c aid : String) (w : World V) : Prop :=
  ∃ i, w.approvals.get aid = some i ∧ i.request.runId = runId ∧ i.request.stepId = "tool-" ++ c

theorem Requested.mono {runId c aid : String} (on : Onward w w') (h : Requested runId c aid w) :
    Requested runId c aid w' := by
  obtain ⟨i, hi, hr, hs⟩ := h
  obtain ⟨i', hi', hl⟩ := on.approvals aid i hi
  exact ⟨i', hi', hl.runId.trans hr, hl.stepId.trans hs⟩

/-- The decision on `aid` is on record, as it was returned. -/
structure Decided (runId c aid : String) (decision : ApprovalStatus) (approval : ApprovalRequest V)
    (w : World V) : Prop where
  stored : ∃ i, w.approvals.get aid = some i ∧ i.request = approval
  runId : approval.runId = runId
  stepId : approval.stepId = "tool-" ++ c
  status : approval.status = decision
  modified : decision = .modified → approval.modifiedParameters ≠ none

/-- What `decide` ends with: the decision it returns is on record. -/
def Settled (w₀ : World V) (runId c aid : String) (decision : ApprovalStatus)
    (x : Except Exn (ApprovalRequest V)) (w : World V) : Prop :=
  Onward w₀ w ∧ ∀ approval, x = .ok approval → Decided runId c aid decision approval w

theorem Settled.error {w₀ : World V} {runId c aid : String} {decision : ApprovalStatus} {e : Exn}
    (h : Onward w₀ w) : Settled w₀ runId c aid decision (.error e) w :=
  ⟨h, fun _ h => by cases h⟩

variable {runId c aid tenantId : String} {decision : ApprovalStatus}
  {modified : Option (Dict String V)}

/-- `decide` of the in-memory service. -/
theorem decideMemory_vetted (hd : decision ≠ .pending) (hreq : Requested runId c aid w) :
    Ticks cfg (serving cfg) vetting t (Settled w runId c aid decision)
      (await (.approvalsDecide aid tenantId decision modified)) w := by
  refine Safe.call fun w₁ hr hv a _ r w₂ hact => ?_
  have hact := Sem.act_of_ticking hact
  obtain ⟨i, hi, hrun, hstep⟩ := hreq.mono hr.onward
  rcases act_approvalsDecide hact with ⟨he, e, rfl⟩ | ⟨j, hj, hp, ⟨⟨e, rfl⟩, he⟩ | ⟨hres, he, hm⟩⟩
  · obtain ⟨h₁, h₂, on⟩ := vetting_undecided hv rfl rfl hact he
    exact ⟨h₁, h₂, .error (hr.onward.trans on)⟩
  · obtain ⟨h₁, h₂, on⟩ := vetting_decided hv rfl rfl hact hj he
      (Or.inr ⟨hp, by change ApprovalStatus.expired ≠ .pending; decide, rfl⟩)
    exact ⟨h₁, h₂, .error (hr.onward.trans on)⟩
  · obtain ⟨h₁, h₂, on⟩ := vetting_decided hv rfl rfl hact hj he (Or.inr ⟨hp, hd, rfl⟩)
    refine ⟨h₁, h₂, hr.onward.trans on, fun approval h => ?_⟩
    rw [hi] at hj; cases hj
    rcases hres with ⟨e, rfl⟩ | rfl
    · cases h
    · cases h
      exact ⟨⟨_, by rw [he]; exact Dict.get_set_self _ _ _, rfl⟩, hrun, hstep, rfl, hm⟩

/-- The conditional update finds a pending request as it was read, or nothing happens. -/
theorem update_vetted {i : Item V} {st : ApprovalStatus}
    {m : Option (Dict String V)} {w₀ : World V} {r : Except Exn Bool}
    {a : Act cfg.sem.Ans Exn (.approvalsSave
      { i.request with status := st, modifiedParameters := m } .pending)}
    (hst : st ≠ .pending) (hget : w₀.approvals.get aid = some i) (hid : i.request.id = aid)
    (hp : i.request.status = .pending) (on : Onward w₀ w) (hv : Vetted w)
    (hact : cfg.sem.act t b w (.approvalsSave
      { i.request with status := st, modifiedParameters := m } .pending) a = some (r, w')) :
    Vetted w' ∧ (∀ t', t' ≠ t → vetting.rely t' w w') ∧ Onward w w' ∧ (r = .ok true →
      ∃ i', w'.approvals.get aid = some i' ∧
        i'.request = { i.request with status := st, modifiedParameters := m }) := by
  rcases act_approvalsSave hact with ⟨he, hne⟩ | ⟨j, hj, hjp, he, -⟩
  · obtain ⟨h₁, h₂, on'⟩ := vetting_undecided hv rfl rfl hact he
    exact ⟨h₁, h₂, on', fun h => absurd h hne⟩
  · change w.approvals.get i.request.id = some j at hj
    change w'.approvals = w.approvals.set i.request.id _ at he
    rw [hid] at hj he
    obtain ⟨i', hi', hl⟩ := on.approvals aid i hget
    rw [hj] at hi'; cases hi'
    have heq : j = i := hl.resolve_right fun h => h.2.1 hjp
    subst heq
    obtain ⟨h₁, h₂, on'⟩ := vetting_decided hv rfl rfl hact hj he (Or.inr ⟨hp, hst, rfl⟩)
    exact ⟨h₁, h₂, on', fun _ => ⟨_, by rw [he]; exact Dict.get_set_self _ _ _, rfl⟩⟩

/-- `decide` of the PostgreSQL service. -/
theorem decidePostgres_vetted (hd : decision ≠ .pending) (hreq : Requested runId c aid w) :
    Ticks cfg (serving cfg) vetting t (Settled w runId c aid decision)
      (ApprovalService.decidePostgres aid tenantId decision modified) w := by
  refine Safe.bind (Safe.call fun w₁ hr hv a _ r w₂ hact => ?_)
  have hact := Sem.act_of_ticking hact
  obtain ⟨h₁, h₂, on₂⟩ := vetting_of_idle hv rfl hact
  refine ⟨h₁, h₂, ?_⟩
  cases r with
  | error e => exact .error (hr.onward.trans on₂)
  | ok found =>
    obtain ⟨x, -, hx⟩ := done_of_act_ok hact
    cases hx
    obtain ⟨i, hi, hrun, hstep⟩ := hreq.mono hr.onward
    cases hfound : w₁.approvals.find aid tenantId with
    | none => exact Safe.throw (.error hr.onward)
    | some item =>
      -- the item that was read is the request of this call
      have hitem : item = i.request := by
        simp only [Approvals.find, Option.map_eq_some_iff] at hfound
        obtain ⟨j, hj, rfl⟩ := hfound
        have hj := (Option.filter_eq_some_iff.1 hj).1
        rw [hi] at hj; cases hj; rfl
      subst hitem
      refine Safe.bind (Safe.raiseIf (fun _ => .error hr.onward) fun hpend => ?_)
      have hp : i.request.status = .pending := by simpa using hpend
      refine Safe.bind (Safe.call fun w₃ hr₃ hv₃ a _ r w₄ hact₄ => ?_)
      obtain ⟨h₁, h₂, on₄⟩ := vetting_of_idle hv₃ rfl (Sem.act_of_ticking hact₄)
      have on : Onward w₁ w₄ := hr₃.onward.trans on₄
      have hid := (hv.items aid i hi).1
      refine ⟨h₁, h₂, ?_⟩
      cases r with
      | error e => exact .error (hr.onward.trans on)
      | ok now =>
        dsimp only
        split
        · refine Safe.bind (Safe.call fun w₅ hr₅ hv₅ a _ r w₆ hact₆ => ?_)
          obtain ⟨h₁, h₂, on₆, -⟩ := update_vetted (show ApprovalStatus.expired ≠ .pending by decide) hi hid hp
            (on.trans hr₅.onward) hv₅ (Sem.act_of_ticking hact₆)
          have on₆ := hr.onward.trans ((on.trans hr₅.onward).trans on₆)
          refine ⟨h₁, h₂, ?_⟩
          cases r with
          | error e => exact .error on₆
          | ok saved => exact Safe.throw (.error on₆)
        · refine Safe.bind (Safe.raiseIf (fun _ => .error (hr.onward.trans on)) fun hmod => ?_)
          refine Safe.bind (Safe.call fun w₅ hr₅ hv₅ a _ r w₆ hact₆ => ?_)
          obtain ⟨h₁, h₂, on₆, h₃⟩ := update_vetted hd hi hid hp (on.trans hr₅.onward) hv₅
            (Sem.act_of_ticking hact₆)
          have on₆ := hr.onward.trans ((on.trans hr₅.onward).trans on₆)
          refine ⟨h₁, h₂, ?_⟩
          cases r with
          | error e => exact .error on₆
          | ok saved =>
            refine Safe.bind (Safe.raiseIf (fun _ => .error on₆) fun hsaved => ?_)
            have hsaved : saved = true := by simpa using hsaved
            subst hsaved
            refine Safe.pure ⟨on₆, fun approval h => ?_⟩
            cases h
            refine ⟨h₃ rfl, hrun, hstep, rfl, fun hdm hn => ?_⟩
            simp [hdm, show modified = none from hn] at hmod

/-- `decide` records what it returns. -/
theorem decide_vetted (hd : decision ≠ .pending) (hreq : Requested runId c aid w) :
    Ticks cfg (serving cfg) vetting t (Settled w runId c aid decision)
      (ApprovalService.decide cfg aid tenantId decision modified) w := by
  unfold ApprovalService.decide
  split
  · exact decideMemory_vetted hd hreq
  · exact decidePostgres_vetted hd hreq

/-! ## Calls -/

/-- `s` is a record of its run. -/
def Recorded (w : World V) (s : RunState V) : Prop :=
  ∃ h r, w.runs.get s.id = some h ∧ r ∈ h.records ∧ r.state = s

theorem Recorded.mono (on : Onward w w') (h : Recorded w s) : Recorded w' s := by
  obtain ⟨h, r, hget, hr, hs⟩ := h
  obtain ⟨h', hget', hsuf⟩ := on.runs s.id h hget
  exact ⟨h', r, hget', hsuf.subset hr, hs⟩

theorem recorded_of_mem {id : String} {h : History V} (hv : Vetted w) (hm : (id, h) ∈ w.runs) :
    Good w h.current.state ∧ Recorded w h.current.state := by
  have hget := Dict.get_of_mem hv.nodup hm
  obtain ⟨hid, hg⟩ := hv.records id h hget h.current List.mem_cons_self
  exact ⟨hg, h, h.current, by rw [hid]; exact hget, List.mem_cons_self, rfl⟩

theorem vetting_callLaws : CallLaws cfg (serving cfg) vetting t Good True False where
  toCopyLaws := vetting_copyLaws
  idle _ ho := vetting_idle ho (fun _ _ _ h => h) fun _ => trivial
  own _ _ ho _ _ _ _ _ hg hact :=
    hg.mono (.of_eq (act_grows hact) ((Config.act_frame hact).approvals ho))
  read _ _ _ hv hm := (recorded_of_mem hv hm).1
  create s hs b w a r w' hv _ _ hact := by
    have hg : Good w s := by
      refine ⟨fun c hc => ?_, fun h => ?_⟩
      · rw [hs.approved] at hc; exact absurd hc (Finset.notMem_empty c)
      · rw [hs.status] at h; cases h
    obtain ⟨h₁, h₂, -⟩ := vetting_create hv hg hact
    exact ⟨h₁, h₂, trivial, fun _ _ => trivial⟩
  overdue b w s now a r w' hv hg _ _ _ hact := by
    have hs : Good w { s with status := .timedOut, updatedAt := now } :=
      hg.congr rfl rfl rfl rfl fun h => by cases h
    obtain ⟨h₁, h₂, h₃⟩ := vetting_save hv hs hact
    exact ⟨h₁, h₂, fun _ _ => (hs.mono h₃).congr rfl rfl rfl rfl fun h => by cases h⟩

theorem call_map {l : List (ToolCall V)} {f : ToolCall V → ToolCall V} (hf : ∀ x, (f x).id = x.id)
    (c : String) : (l.map f).find? (fun x => x.id = c) = (l.find? fun x => x.id = c).map f := by
  rw [List.find?_map]
  congr 2
  funext x
  simp [hf]

/-- **What `resume` counts as approved was granted.** -/
theorem Good.grant {approval : ApprovalRequest V} {decision : ApprovalStatus} (hg : Good w s)
    (hs : s.status = .awaitingApproval) (hrec : Recorded w s)
    (hdec : Decided s.id (pausedFor s).2 (pausedFor s).1 decision approval w)
    (hd : decision = .approved ∨ decision = .modified) :
    Good w { granted s (pausedFor s).2 approval with status := .planning } := by
  obtain ⟨call, -, hcall, -⟩ := hg.paused hs
  obtain ⟨h, r, hget, hr, rfl⟩ := hrec
  obtain ⟨item, hitem, rfl⟩ := hdec.stored
  have hasked : Asked w r.state.id (pausedFor r.state).2 (pausedFor r.state).1 item call :=
    ⟨⟨h, r, hget, hr, hs, rfl, hcall⟩, hitem, hdec.runId, hdec.stepId⟩
  have hmod : item.request.status = .modified ↔ decision = .modified := by rw [hdec.status]
  refine ⟨fun c hc hn => ?_, fun h => by cases h⟩
  by_cases hcc : c = (pausedFor r.state).2
  · -- the call that was decided on
    subst hcc
    by_cases hm : decision = .modified
    · obtain ⟨m, hmp⟩ := Option.ne_none_iff_exists'.1 (hdec.modified hm)
      refine ⟨{ call with arguments := m }, ?_, ⟨_, item, call, hasked,
        Or.inr ⟨hmod.2 hm, hmp⟩⟩⟩
      have hid : call.id = (pausedFor r.state).2 := by simpa using List.find?_some hcall
      simp only [RunState.call, granted, hmod.2 hm, if_true]
      rw [call_map (fun x => by split <;> rfl), show r.state.pendingToolCalls.find? _ = _ from hcall]
      simp [hid, hmp]
    · refine ⟨call, ?_, ⟨_, item, call, hasked, Or.inl ⟨?_, rfl⟩⟩⟩
      · simp only [RunState.call, granted, mt hmod.1 hm, if_false]; exact hcall
      · rw [hdec.status]; exact hd.resolve_right hm
  · -- the others are as before
    have hc' : c ∈ r.state.approvedToolCallIds := by
      simpa [granted, hcc] using hc
    obtain ⟨call', hcall', hgr⟩ := hg.approved c hc' hn
    refine ⟨call', ?_, hgr⟩
    have hid : call'.id = c := by simpa using List.find?_some hcall'
    simp only [RunState.call, granted]
    split
    · rw [call_map (fun x => by split <;> rfl), show r.state.pendingToolCalls.find? _ = _ from hcall']
      simp [hid, hcc]
    · exact hcall'

theorem parseDecision_eq_ok {raw : String} {d : ApprovalStatus}
    (h : parseDecision raw = .ok d) : d.value = raw := by
  unfold parseDecision at h
  split at h
  · rename_i d' hp; cases h; simpa using List.find?_some hp
  · cases h

/-- The decision is not one of the two that `resume` accepts but does not ask for. -/
def Advertised (payload : ResumePayload V) : Prop :=
  payload.decision ≠ ApprovalStatus.pending.value ∧ payload.decision ≠ ApprovalStatus.expired.value

/-- What follows the decision. -/
theorem granting_vetted {approval : ApprovalRequest V} (hg : Good w s) (hrec : Recorded w s)
    (hs : s.status = .awaitingApproval)
    (hd : decision = .approved ∨ decision = .rejected ∨ decision = .modified)
    (hdec : Decided s.id (pausedFor s).2 (pausedFor s).1 decision approval w) :
    Keeping cfg (serving cfg) vetting t (if approval.status = .rejected then do
        let s ← transition { s with error := some "Proposed action was rejected." } .failed
        emit s (.runFailed (some "approval_rejected") none) none
        pure s
      else do
        let s ← transition (granted s (pausedFor s).2 approval) .planning
        await (.schedule runId tenantId)
        pure s) w := by
  split
  · have hrejected : Good w { s with error := some "Proposed action was rejected." } :=
      hg.congr rfl rfl rfl rfl fun h => ⟨h, rfl⟩
    exact vetting_callLaws.transition_keeping hrejected (by decide)
      fun _ _ _ => vetting_callLaws.emit_keeping fun _ => Safe.pure trivial
  · rename_i hrej
    have hgr := hg.grant hs hrec hdec
      (hd.imp_right fun h => h.resolve_left fun h => hrej (by rw [hdec.status, h]))
    refine Safe.bind (Safe.bind (Safe.lift ?_))
    cases validateTransition (granted s (pausedFor s).2 approval).status .planning with
    | error e => trivial
    | ok u =>
      refine (saveAs_vetted hgr).mono fun x w₁ _ => ?_
      cases x with
      | error e => trivial
      | ok s' => exact vetting_callLaws.schedule_keeping

/-- `resume` with a decision that it asks for. -/
theorem resume_vetted {payload : ResumePayload V} (hpay : Advertised payload) :
    Keeping cfg (serving cfg) vetting t (resume cfg runId tenantId payload) w := by
  refine Laws.requireState_bind (G := fun _ => True) (fun _ _ _ h => h) trivial (fun o ho => ?_)
    (fun w s hv _ h => (?_ : Good w s ∧ Recorded w s)) (fun _ _ => trivial) fun s w₁ hw₁ => ?_
  · exact vetting_callLaws.idle o (by cases o <;> first | rfl | cases ho)
  · obtain ⟨h₀, hg, rfl, -⟩ := Runs.find_eq_some h
    exact recorded_of_mem hv (Dict.mem_of_get hg)
  · obtain ⟨hg, hrec⟩ := hw₁
    split
    · rename_i hs
      exact Keeping.bind (vetting_callLaws.clarify_keeping hg hs) fun _ _ =>
        vetting_callLaws.schedule_keeping
    · rename_i hs
      refine Safe.bind (Safe.lift ?_)
      cases hparse : parseDecision payload.decision with
      | error e => trivial
      | ok decision =>
        have hval := parseDecision_eq_ok hparse
        have hd : decision = .approved ∨ decision = .rejected ∨ decision = .modified := by
          cases decision with
          | pending => exact absurd hval.symm hpay.1
          | expired => exact absurd hval.symm hpay.2
          | _ => simp
        obtain ⟨call, item, -, hitem, hrun, hstep⟩ := hg.paused hs
        refine Safe.bind ((decide_vetted (c := (pausedFor s).2) ?_
          ⟨item, hitem, hrun, hstep⟩).mono fun x w₂ h => ?_)
        · rcases hd with rfl | rfl | rfl <;> decide
        · cases x with
          | error e => trivial
          | ok approval => exact granting_vetted (hg.mono h.1) (hrec.mono h.1) hs hd (h.2 approval rfl)
    · exact Safe.throw trivial

/-- **Every task of the deployment calls handlers as granted.** -/
theorem task_vetted {calls : Nat → Call V} {w₀ : World V}
    (hcalls : ∀ runId tenantId payload, calls t = .resume runId tenantId payload →
      Advertised payload) :
    Safe cfg.sem (serving cfg) vetting t (fun _ _ => True) (taskOf cfg calls w₀ t) w := by
  refine vetting_callLaws.task_keeping (fun runId tenantId => ?_)
    fun runId tenantId payload hc => resume_vetted (hcalls _ _ _ hc)
  refine vetting_laws.drive_safe (fun o ho => ?_) fun w s hv h => ?_
  · exact vetting_callLaws.idle o (by cases o <;> first | rfl | cases ho)
  · obtain ⟨h₀, hg, rfl, -⟩ := Runs.find_eq_some h
    exact (recorded_of_mem hv (Dict.mem_of_get hg)).1

end

theorem vetting_respects (cfg : Config V) (calls : Nat → Call V)
    (hcalls : ∀ t runId tenantId payload, calls t = .resume runId tenantId payload →
      Advertised payload) :
    (runtimeSys cfg (serving cfg) calls fun _ => True).Respects vetting fun _ _ _ => True := by
  -- entering, ending and crashing touch nothing that is vetted
  have rest : ∀ w w' : World V, Vetted w → w'.runs = w.runs → w'.approvals = w.approvals →
      w'.issued = w.issued → w'.invocations = w.invocations → w'.planned = w.planned →
      Vetted w' ∧ ∀ t, Tolerated t w w' := by
    intro w w' hv hr ha hi hn hp
    have onward : Onward w w' := .of_eq (by rw [hr]; exact Grows.refl _) ha
    refine ⟨hv.of_eq hr onward (by rw [ha, hi]; exact hv.items) fun i hm => ?_, fun t =>
      ⟨onward, by rw [hp], by rw [hi]; exact fun _ _ h => h, by rw [ha]; exact fun _ _ h => h⟩⟩
    rw [hn] at hm
    exact (hv.invocations i hm).mono onward
  refine ⟨?_, fun t x w hv _ => ?_, ?_⟩
  · rintro w t p w' hv ⟨-, rfl, rfl⟩
    obtain ⟨h₁, h₂⟩ := rest w { w with started := insert t w.started } hv rfl rfl rfl rfl rfl
    exact ⟨h₁, fun t' _ => h₂ t', task_vetted (hcalls t)⟩
  · obtain ⟨h₁, h₂⟩ := rest w { w with done := insert t w.done } hv rfl rfl rfl rfl rfl
    exact ⟨h₁, fun t' _ => h₂ t'⟩
  · rintro w t w' hv ⟨-, rfl⟩
    obtain ⟨h₁, h₂⟩ := rest w { w with done := insert t w.done } hv rfl rfl rfl rfl rfl
    exact ⟨h₁, fun t' _ => h₂ t'⟩

/-! ## Planners -/

/-- The first open call is the first one with its id. -/
theorem find?_open {l : List (ToolCall V)} {done : Finset String} {call : ToolCall V}
    (h : l.find? (fun x => x.id ∉ done) = some call) :
    l.find? (fun x => x.id = call.id) = some call := by
  induction l with
  | nil => cases h
  | cons x l ih =>
    by_cases hx : x.id ∈ done
    · simp only [List.find?_cons, hx, not_true_eq_false, decide_false] at h
      have hcall : call.id ∉ done := by simpa using List.find?_some h
      have hne : x.id ≠ call.id := fun he => hcall (he ▸ hx)
      simp only [List.find?_cons, hne, decide_false]
      exact ih h
    · simp only [List.find?_cons, hx, not_false_eq_true, decide_true, Option.some.injEq] at h
      subst h; simp

/-- **The ReAct planner serves the pending calls.** -/
theorem reactPlan_serves (s : RunState V) (action : PlannedAction V) (rest : List (PlannedAction V))
    (h : (reactPlan s).actions = action :: rest) : Serves s action := by
  unfold reactPlan at h
  split at h
  · rename_i hnone
    -- no call is open, so that every pending call is completed
    have hdone : ∀ call ∈ s.pendingToolCalls, call.id ∈ s.completedToolCallIds := by
      intro call hc
      by_contra hopen
      have : call ∈ s.pendingToolCalls.filter fun x => x.id ∉ s.completedToolCallIds := by
        simp [hc, hopen]
      rw [List.map_eq_nil_iff.1 hnone] at this; cases this
    refine ⟨fun ht => ?_, fun _ call hc _ => hdone call hc⟩
    split at h
    · cases h; cases ht
    · simp only [directPlan, List.cons.injEq] at h
      obtain ⟨rfl, -⟩ := h
      dsimp only at ht
      split at ht <;> cases ht
  · rename_i calls _
    obtain ⟨call, tail, hcall, rfl, -⟩ : ∃ call tail,
        s.pendingToolCalls.filter (fun x => x.id ∉ s.completedToolCallIds) = call :: tail ∧
        action = { id := "tool-" ++ call.id, type := .tool
                   description := s!"Execute requested tool {call.name}"
                   toolName := some call.name, arguments := call.arguments } ∧ True := by
      change toolActions s = action :: rest at h
      obtain ⟨call, tail, hl, ha, -⟩ := List.map_eq_cons_iff.1 h
      exact ⟨call, tail, hl, ha.symm, trivial⟩
    have hfind : s.pendingToolCalls.find? (fun x => x.id ∉ s.completedToolCallIds) = some call := by
      rw [← List.head?_filter, hcall]; rfl
    refine ⟨fun _ => ⟨call, find?_open hfind, by simpa using List.find?_some hfind, rfl, rfl⟩,
      fun ht => by cases ht⟩

/-! ## The theorem -/

/-- **Approval soundness**: if the planner serves the pending calls, and no `resume` is called
    with the decision "pending" or "expired", then every handler whose `plan_tool` check asked
    for an approval was called after the request made for that call had been decided APPROVED,
    with the pending call's own arguments, or MODIFIED, with the modified parameters. -/
theorem approval_sound (cfg : Config V) (calls : Nat → Call V)
    (hcalls : ∀ t runId tenantId payload, calls t = .resume runId tenantId payload →
      Advertised payload)
    (w₀ : World V) (h₀ : Fresh w₀) (P : Pool (Op.Resp (V := V)) Exn (World V) Unit)
    (hP : (runtimeSys cfg (serving cfg) calls fun _ => True).Reach (freshPool w₀) P) :
    ∀ i ∈ P.world.invocations, ∃ check, Checks check i ∧
      (check.decision.action = .requireApproval → ∃ c, i.context.stepId = "tool-" ++ c ∧
        Granted P.world i.context.runId c i.arguments) := by
  refine (Sys.safe_reach (vetting_respects cfg calls hcalls) (Q := fun _ _ _ => True)
    ⟨⟨?_, fun id h hg => ?_, fun aid i hi => ?_, fun i hi => ?_⟩, fun _ _ hp => by cases hp⟩
    hP).valid.invocations
  · change w₀.runs.keys.Nodup; rw [h₀.runs]; exact List.nodup_nil
  · change w₀.runs.get id = some h at hg; rw [h₀.runs] at hg; cases hg
  · change w₀.approvals.get aid = some i at hi; rw [h₀.approvals] at hi; cases hi
  · change i ∈ w₀.invocations at hi; rw [h₀.invocations] at hi; cases hi

namespace Sample

/-- A run is started, and its pause is answered with this decision. -/
def answers (decision : String) : Nat → Call String
  | 0 => .start request
  | _ => .resume "run" "tenant" { decision }

/-- The model calls the tool once, the policies ask for an approval, and the ReAct planner
    plans. -/
def asks : (o : Op String) → Act sendCfg.sem.Ans Exn o
  | .policyEvaluate .planTool _ _ => .done (Answer.ok
      { action := .requireApproval, reasonCode := "approval", reason := "Ask first." })
  | .plan s _ => .done (Answer.ok (reactPlan s))
  | .generate .. => .done (Answer.ok
      { id := "r", message := .text .assistant "", model := "m", provider := "p"
        toolCalls := [{ id := "c", name := "send", arguments := [("to", "\"someone\"")] }] })
  | .uuid => .done (Answer.ok "approval")
  | o => obliging o

/-- The run pauses, is resumed, and goes on up to the handler. -/
def answered : List (Move sendCfg.sem.Ans Exn) :=
  starts 0 1 ++ .enter 1 :: List.replicate 48 (.run 1 asks) ++
    .enter 2 :: obliges 2 4 ++ [.run 2 (driverIs 3)] ++ .enter 3 :: List.replicate 15 (.run 3 asks)

/-- Plans come from the ReAct planner. -/
def isReact : (o : Op String) → Act sendCfg.sem.Ans Exn o → Bool
  | .plan s _, .done (.ok p) => p = reactPlan s
  | .plan .., _ => false
  | _, _ => true

theorem serving_of {t : Nat} {w : World String} {o : Op String} {a : Act sendCfg.sem.Ans Exn o}
    (h : isReact o a = true) : serving sendCfg t w o a := by
  cases o with
  | plan s agent =>
    rintro p rfl action rest hp
    rw [of_decide_eq_true h] at hp
    exact reactPlan_serves s action rest hp
  | _ => trivial

end Sample

/-- An approved call, and the theorem at the pool it leads to. -/
theorem approval_sound_approved :
    ∃ P, (runtimeSys Sample.sendCfg (serving Sample.sendCfg) (Sample.answers "approved")
        fun _ => True).Reach (freshPool Sample.world) P ∧
      P.world.invocations.map (fun i => i.planned.map (·.decision.action)) =
        [some .requireApproval] ∧
      ∀ i ∈ P.world.invocations, ∃ check, Checks check i ∧
        (check.decision.action = .requireApproval → ∃ c, i.context.stepId = "tool-" ++ c ∧
          Granted P.world i.context.runId c i.arguments) := by
  let y : Player (runtimeSys Sample.sendCfg (serving Sample.sendCfg) (Sample.answers "approved")
      fun _ => True) :=
    runtimePlayer _ _ (fun _ _ => Sample.isReact) fun _ _ _ _ => Sample.serving_of
  have hplay : (y.play Sample.answered (freshPool Sample.world)).map
      (fun P => P.world.invocations.map fun i => i.planned.map (·.decision.action)) =
      some [some .requireApproval] := by decide +kernel
  obtain ⟨P, hP, hx⟩ := Player.exists_reach hplay
  refine ⟨P, hP, hx, approval_sound _ _ (fun t runId tenantId payload h => ?_) _
    Sample.world_fresh P hP⟩
  unfold Sample.answers at h
  split at h <;> cases h
  exact ⟨by decide, by decide⟩

/-- A request is decided "expired", and the handler is called all the same. -/
theorem expired_approval_invokes :
    ¬ ∀ (cfg : Config String) (calls : Nat → Call String) (w₀ : World String), Fresh w₀ →
      ∀ P, (anyTasks cfg calls).Reach (freshPool w₀) P →
        ∀ i ∈ P.world.invocations, ∀ check, Checks check i →
          check.decision.action = .requireApproval →
            ∃ c, i.context.stepId = "tool-" ++ c ∧ Granted P.world i.context.runId c i.arguments := by
  intro hall
  let y : Player (anyTasks Sample.sendCfg (Sample.answers "expired")) :=
    runtimePlayer _ _ (fun _ _ _ _ => true) fun _ _ _ _ _ => trivial
  have hplay : (y.play Sample.answered (freshPool Sample.world)).map
      (fun P => (P.world.approvals.all fun x => x.2.request.status = .expired,
        P.world.invocations.map fun i => i.planned.map fun c =>
          decide (c.arguments = .arguments i.arguments ∧ c.context.tool.map (·.name) = some i.tool ∧
            c.context.runId = some i.context.runId ∧ c.decision.action = .requireApproval))) =
      some (true, [some true]) := by decide +kernel
  obtain ⟨P, hP, hx⟩ := Player.exists_reach hplay
  rw [Prod.mk.injEq, List.map_eq_singleton_iff] at hx
  obtain ⟨hexp, i, hi, hx⟩ := hx
  rw [Option.map_eq_some_iff] at hx
  obtain ⟨check, hc, hx⟩ := hx
  obtain ⟨hargs, htool, hrun, hask⟩ := of_decide_eq_true hx
  obtain ⟨c, -, aid, item, call, hasked, hgr⟩ := hall _ _ _ Sample.world_fresh P hP i (by simp [hi])
    check ⟨hc, hargs, htool, hrun⟩ hask
  have hst : item.request.status = .expired := by
    simpa using List.all_eq_true.1 hexp _ (Dict.mem_of_get hasked.stored)
  rcases hgr with ⟨h, -⟩ | ⟨h, -⟩ <;> rw [hst] at h <;> cases h

end TracciaRuntime
