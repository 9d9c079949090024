/-
  The agent definition of a run.

  `start` resolves the agent of a request and records its key, but every driver
  and the composition of the result resolve it again.  A request that names a
  version always gets the same definition; one that does not gets the latest,
  which a registration can change.

  * `references`: what a task knows about the definition it works with;
  * `Agreed`: what the tasks know fits the registry and the records;
  * `definition_kept`: if no registration takes over while a run that could get
    it is unfinished, every driver works with the recorded definition;
  * `definition_changed`: otherwise it need not.
-/
import TracciaRuntime.Async.Follows
import TracciaRuntime.Proof.History
import TracciaRuntime.Proof.Steps

namespace TracciaRuntime

open Py Async AgentRuntime Prog

variable {V : Type}

/-! ## What a task knows -/

/-- The driver of a run that has read the state and found the agent. -/
def driveWith (cfg : Config V) (d : Driver) (s : RunState V) (agent : AgentDefinition V) :
    Task V Unit := do
  driveObserved cfg d.runId d.tenantId s agent
  let _ ← requireState d.runId d.tenantId
  Pure.pure ()

/-- The driver that has read the state. -/
def lookUp (cfg : Config V) (d : Driver) (s : RunState V) : Task V Unit := do
  let agent ← await (.agentsGet s.request.agent s.request.agentVersion)
  driveWith cfg d s agent

theorem drive_eq (cfg : Config V) (d : Driver) :
    drive cfg d.runId d.tenantId = requireState d.runId d.tenantId >>= lookUp cfg d := rfl

/-- Where a task stands. -/
inductive Stage (V : Type) where
  | idle
  | other
  /-- a driver, before and after it reads the state, and with its definition -/
  | driver (d : Driver)
  | looked (d : Driver) (s : RunState V)
  | working (d : Driver) (agent : AgentDefinition V)
  /-- a driver that read a terminal state -/
  | ended (d : Driver) (s : RunState V)
  /-- `start` and `run`: the request, its definition, and the run -/
  | starting (request : RunRequest V)
  | resolved (request : RunRequest V) (agent : AgentDefinition V)
  | created (request : RunRequest V) (runId : String)
  /-- the end of `run` -/
  | reading (request : RunRequest V) (s : RunState V)
  | composing (agent : AgentDefinition V) (s : RunState V)

namespace Stage

/-- The stage of a call. -/
def isCaller : Stage V → Bool
  | other | starting _ | resolved .. | created .. | reading .. | composing .. => true
  | _ => false

end Stage

/-- **Resolve, then create or work**: runs are created with the key of the definition that was
    resolved for their request, and results are composed with the one of the state that was read. -/
def references : Protocol (Op.Resp (V := V)) Exn (Stage V) where
  may
    | .resolved request agent, .runsCreate s => s.request = request ∧ s.agentKey = some agent.key
    | _, .runsCreate _ => False
    | .starting request, .agentsGet name version =>
      name = request.agent ∧ version = request.agentVersion
    | .looked _ s, .agentsGet name version | .reading _ s, .agentsGet name version =>
      name = s.request.agent ∧ version = s.request.agentVersion
    | _, .agentsGet .. => False
    | .driver d, .runsGet id _ => id = d.runId
    | .created _ runId, .runsGet id _ => id = runId
    | .composing agent s, .compose name s' => name = agent.responseComposer ∧ s' = s
    | _, .compose .. => False
    | _, _ => True
  next
    | .driver d, .runsGet .., .ok (some s) => .looked d s
    | .looked d s, .agentsGet .., .ok agent =>
      if s.status.isTerminal then .ended d s else .working d agent
    | .starting request, .agentsGet .., .ok agent => .resolved request agent
    | .resolved request _, .runsCreate s, .ok _ => .created request s.id
    | .created request _, .runsGet .., .ok (some s) => .reading request s
    | .reading _ s, .agentsGet .., .ok agent => .composing agent s
    | g, _, _ => g

/-- Neither a creation nor a look at the registry or a composer. -/
def Op.isDriven : Op V → Bool
  | .runsCreate _ | .agentsGet .. | .compose .. => false
  | _ => true

/-- The awaits at which a task comes to another stage. -/
inductive Advances : Stage V → (o : Op V) → Except Exn o.Resp → Stage V → Prop
  | looked {d id tenantId s} :
      Advances (.driver d) (.runsGet id tenantId) (.ok (some s)) (.looked d s)
  | ended {d s name version agent} : s.status.isTerminal = true →
      Advances (.looked d s) (.agentsGet name version) (.ok agent) (.ended d s)
  | working {d s name version agent} : s.status.isTerminal = false →
      Advances (.looked d s) (.agentsGet name version) (.ok agent) (.working d agent)
  | resolved {request name version agent} :
      Advances (.starting request) (.agentsGet name version) (.ok agent) (.resolved request agent)
  | created {request agent s u} :
      Advances (.resolved request agent) (.runsCreate s) (.ok u) (.created request s.id)
  | reading {request runId id tenantId s} :
      Advances (.created request runId) (.runsGet id tenantId) (.ok (some s)) (.reading request s)
  | composing {request s name version agent} :
      Advances (.reading request s) (.agentsGet name version) (.ok agent) (.composing agent s)

theorem next_cases {g g' : Stage V} {o : Op V} {r : Except Exn o.Resp}
    (h : references.next g o r = g') : g' = g ∨ Advances g o r g' := by
  subst h
  unfold references
  dsimp only
  split
  · exact .inr .looked
  · split
    · rename_i hs
      exact .inr (.ended hs)
    · rename_i hs
      exact .inr (.working (by simpa using hs))
  · exact .inr .resolved
  · exact .inr .created
  · exact .inr .reading
  · exact .inr .composing
  · exact .inl rfl

theorem next_isCaller {g : Stage V} {o : Op V} {r : Except Exn o.Resp} (h : g.isCaller = true) :
    (references.next g o r).isCaller = true := by
  generalize hg : references.next g o r = g'
  rcases next_cases hg with rfl | ha
  · exact h
  · cases ha <;> first | rfl | cases h

/-- A driver at work stays at its stage, until it is done. -/
theorem next_working {d : Driver} {agent : AgentDefinition V} {o : Op V} {r : Except Exn o.Resp} :
    references.next (.working d agent) o r = .working d agent := by
  generalize hg : references.next (.working d agent) o r = g'
  rcases next_cases hg with rfl | ha
  · rfl
  · cases ha

theorem next_ended {d : Driver} {s : RunState V} {o : Op V} {r : Except Exn o.Resp} :
    references.next (.ended d s) o r = .ended d s := by
  generalize hg : references.next (.ended d s) o r = g'
  rcases next_cases hg with rfl | ha
  · rfl
  · cases ha

theorem may_working {d : Driver} {agent : AgentDefinition V} {o : Op V} (ho : o.isDriven = true) :
    references.may (.working d agent) o := by
  unfold references
  dsimp only
  split <;> trivial

theorem may_ended {d : Driver} {s : RunState V} {o : Op V} (ho : o.isDriven = true) :
    references.may (.ended d s) o := by
  unfold references
  dsimp only
  split <;> trivial

/-! ## The programs -/

section
variable {cfg : Config V} {d : Driver} {s : RunState V} {agent : AgentDefinition V}

theorem driveWith_uses {P : Op V → Prop} (h : Covers agent P) (hp : ∀ s, P (.plan s agent))
    (hs : P .spin) : (driveWith cfg d s agent).Uses P :=
  Uses.bind (driveObserved_uses h hp hs) fun _ =>
    Uses.bind (h.of requireState_inner) fun _ => Uses.pure _

theorem driveWith_driven : (driveWith cfg d s agent).Uses fun o => o.isDriven = true := by
  refine driveWith_uses ⟨fun o ho => ?_, fun _ => rfl, fun _ _ _ _ => rfl, fun _ => rfl⟩
    (fun _ => rfl) rfl
  cases o <;> first | rfl | cases ho

/-- A settled run takes no step, whatever the definition. -/
theorem execute_settled (h : s.status.isTerminal = true) : execute cfg s agent = Pure.pure s := by
  have hr : s.status ≠ .received := by intro hs; rw [hs] at h; cases h
  have hset : s.status.isSettled = true := by simp [RunStatus.isSettled, h]
  unfold execute
  rw [if_neg hr]
  change loop cfg agent (agent.maxSteps - s.stepCount) s = Pure.pure s
  unfold loop
  rw [if_pos hset]

theorem driveWith_settled (h : s.status.isTerminal = true) (agent' : AgentDefinition V) :
    driveWith cfg d s agent = driveWith cfg d s agent' := by
  unfold driveWith driveObserved executeTimed
  rw [execute_settled h, execute_settled h]

/-- `start`, with what is done with the new run. -/
theorem start_follows {request : RunRequest V} {k : RunState V → Task V Unit}
    (hk : ∀ s, (k s).Follows references (.created request s.id)) :
    (start request >>= k).Follows references (.starting request) := by
  unfold start emit
  simp only [Prog.bind_assoc]
  refine Follows.call trivial fun accepting => ?_
  cases accepting with
  | false => trivial
  | true =>
    exact Follows.call ⟨rfl, rfl⟩ fun agent => Follows.call trivial fun now =>
      Follows.call trivial fun id => Follows.call trivial fun fresh =>
        Follows.call ⟨rfl, rfl⟩ fun _ => Follows.call trivial fun _ => Follows.call trivial fun _ =>
          Follows.call trivial fun _ => hk _

theorem run_follows {request : RunRequest V} :
    (AgentRuntime.run cfg request).Follows references (.starting request) := by
  have compose : ∀ id, (composeResult cfg id request.tenantId).Follows references
      (.created request id) := by
    intro id
    unfold composeResult requireState
    simp only [Prog.bind_assoc]
    refine Follows.call rfl fun state => ?_
    cases state with
    | none => trivial
    | some s =>
      refine Follows.call ⟨rfl, rfl⟩ fun agent => ?_
      by_cases hc : agent.responseComposer ∈ cfg.composers
      · rw [show decide (agent.responseComposer ∉ cfg.composers) = false by simpa using hc]
        refine ⟨⟨rfl, rfl⟩, fun r => ?_⟩
        cases r <;> trivial
      · rw [show decide (agent.responseComposer ∉ cfg.composers) = true by simpa using hc]
        trivial
  refine start_follows fun s => Follows.call trivial fun task => Follows.call trivial fun cancelled => ?_
  cases cancelled with
  | false => exact compose s.id
  | true => exact Follows.call trivial fun _ => compose s.id

/-- The other calls. -/
theorem follows_other {α : Type} {p : Task V α} (h : p.Uses fun o => o.isDriven = true) :
    p.Follows references .other := by
  have may : ∀ o : Op V, o.isDriven = true → references.may .other o := by
    intro o ho
    unfold references
    dsimp only
    split <;> trivial
  have next : ∀ (o : Op V) r, references.next .other o r = .other := by
    intro o r
    generalize hg : references.next .other o r = g'
    rcases next_cases hg with rfl | ha
    · rfl
    · cases ha
  induction p with
  | pure a => trivial
  | raise e => trivial
  | await b o k ih => exact ⟨may o h.1, fun r => by rw [next]; exact ih r (h.2 r)⟩

/-- The request of a call that starts a run. -/
def Call.request? : Call V → Option (RunRequest V)
  | start request | run request => some request
  | _ => none

/-- Where a call begins. -/
def Call.stage (c : Call V) : Stage V :=
  match c.request? with
  | some request => .starting request
  | none => .other

/-- **The calls follow the protocol.** -/
theorem call_follows (c : Call V) : (c.task cfg).Follows references c.stage := by
  have driven : ∀ {α : Type} {p : Task V α}, Controls p → p.Uses fun o => o.isDriven = true :=
    fun hp => hp.mono fun o ho => by cases o <;> first | rfl | cases ho
  have dropped : ∀ {α : Type} {p : Task V α}, (p.Uses fun o => o.isDriven = true) →
      (do let _ ← p; Pure.pure () : Task V Unit).Follows references .other :=
    fun hp => follows_other (Uses.bind hp fun _ => Uses.pure _)
  cases c with
  | start request => exact start_follows fun _ => trivial
  | run request => exact run_follows
  | cancel runId tenantId => exact dropped (driven cancel_controls)
  | resume runId tenantId payload =>
    refine dropped (resume_uses.mono fun o ho => ?_)
    rcases ho with ho | ho <;> cases o <;> first | rfl | cases ho
  | recover limit =>
    exact dropped (driven (Uses.bind (Uses.call rfl) fun _ => recoverAll_controls))
  | shutdown => exact follows_other (driven shutdown_controls)
  | register definition => exact follows_other (Uses.call rfl)

/-- The program of a task at this stage. -/
inductive Plays (cfg : Config V) : Task V Unit → Stage V → Prop
  | driver {d : Driver} {p} : p = drive cfg d.runId d.tenantId → Plays cfg p (.driver d)
  | looked {d : Driver} {s p} : p = lookUp cfg d s → Plays cfg p (.looked d s)
  | working {d : Driver} {s agent p} : Residual (driveWith cfg d s agent) p →
      Plays cfg p (.working d agent)
  | ended {d : Driver} {s p} : (∀ agent, Residual (driveWith cfg d s agent) p) →
      (p.Uses fun o => o.isDriven = true) → Plays cfg p (.ended d s)
  | caller {g p} : g.isCaller = true → p.Follows references g → Plays cfg p g
  | finished {g p x} : g ≠ .idle → p.result = some x → Plays cfg p g

/-- **A task stays at its stage or moves on as the protocol says.** -/
theorem Plays.await {b : Bool} {o : Op V} {k : Except Exn o.Resp → Task V Unit} {g : Stage V}
    (h : Plays cfg (.await b o k) g) :
    references.may g o ∧ ∀ r, Plays cfg (k r) (references.next g o r) := by
  cases h with
  | @driver d _ h =>
    cases (h : Prog.await b o k = Prog.await false (.runsGet d.runId d.tenantId) _)
    refine ⟨rfl, fun r => ?_⟩
    cases r with
    | error e => exact .finished (x := .error e) nofun rfl
    | ok state =>
      cases state with
      | none => exact .finished nofun rfl
      | some s => exact .looked rfl
  | @looked d s _ h =>
    cases (h : Prog.await b o k =
      Prog.await false (.agentsGet s.request.agent s.request.agentVersion) _)
    refine ⟨⟨rfl, rfl⟩, fun r => ?_⟩
    cases r with
    | error e => exact .finished (x := .error e) nofun rfl
    | ok agent =>
      cases hs : s.status.isTerminal with
      | false =>
        have hnext : references.next (.looked d s)
            (.agentsGet s.request.agent s.request.agentVersion) (.ok agent) = .working d agent :=
          if_neg (by rw [hs]; decide)
        rw [hnext]
        exact .working .refl
      | true =>
        have hnext : references.next (.looked d s)
            (.agentsGet s.request.agent s.request.agentVersion) (.ok agent) = .ended d s :=
          if_pos hs
        rw [hnext]
        refine .ended (fun agent' => ?_) driveWith_driven
        have he : driveWith cfg d s agent = driveWith cfg d s agent' := driveWith_settled hs agent'
        change Residual (driveWith cfg d s agent') (driveWith cfg d s agent)
        rw [he]
        exact .refl
  | @working d s agent _ h =>
    have hu := h.uses driveWith_driven
    refine ⟨may_working hu.1, fun r => ?_⟩
    rw [next_working]
    exact .working (h.await r)
  | @ended d s _ h hu =>
    refine ⟨may_ended hu.1, fun r => ?_⟩
    rw [next_ended]
    exact .ended (fun agent => (h agent).await r) (hu.2 r)
  | caller hg h =>
    exact ⟨h.1, fun r => .caller (next_isCaller hg) (h.2 r)⟩
  | finished _ h => cases h

end

/-! ## The registry and the records -/

namespace World
variable (w : World V)

/-- The run recorded this definition. -/
def Records (s : RunState V) (agent : AgentDefinition V) : Prop :=
  s.agentKey = some agent.key ∧ w.agents.get agent.key = some agent

/-- The registry finds the recorded definition. -/
def Finds (s : RunState V) : Prop :=
  ∃ agent, registryGet w.agents s.request.agent s.request.agentVersion = .ok agent ∧
    s.agentKey = some agent.key

/-- The task runs. -/
def InFlight (t : Nat) : Prop := t ∈ w.started ∧ t ∉ w.done

/-- Someone may still look up this agent at this version: a call that starts such a run, or a run
    that is not over, because of its status or of a driver. -/
def Busy (calls : Nat → Call V) (name : String) (version : Option String) : Prop :=
  (∃ t request, w.InFlight t ∧ w.drivers.get t = none ∧ (calls t).request? = some request ∧
    request.agent = name ∧ request.agentVersion = version) ∨
  ∃ id h, w.runs.get id = some h ∧ h.current.state.request.agent = name ∧
    h.current.state.request.agentVersion = version ∧
    (h.current.state.status.isTerminal = false ∨
      ∃ t d, w.InFlight t ∧ w.drivers.get t = some d ∧ d.runId = id)

variable {w}

theorem Finds.congr {s s' : RunState V} (h : w.Finds s) (he : s'.agentRef = s.agentRef) :
    w.Finds s' := by
  obtain ⟨agent, hg, hk⟩ := h
  simp only [RunState.agentRef, Prod.mk.injEq] at he
  exact ⟨agent, by rw [he.1, he.2.1]; exact hg, by rw [he.2.2]; exact hk⟩

theorem Records.congr {s s' : RunState V} {agent : AgentDefinition V} (h : w.Records s agent)
    (he : s'.agentRef = s.agentRef) : w.Records s' agent := by
  simp only [RunState.agentRef, Prod.mk.injEq] at he
  exact ⟨by rw [he.2.2]; exact h.1, h.2⟩

theorem Finds.records {s : RunState V} (hr : Registered w.agents) (h : w.Finds s) :
    ∃ agent, registryGet w.agents s.request.agent s.request.agentVersion = .ok agent ∧
      w.Records s agent := by
  obtain ⟨agent, hg, hk⟩ := h
  exact ⟨agent, hg, hk, registryGet_key hr hg⟩

end World

/-- What a step may change. -/
structure Evolves (calls : Nat → Call V) (w w' : World V) : Prop where
  flight : ∀ t, w.InFlight t → w'.InFlight t
  drivers : ∀ t, t ∈ w.started → w'.drivers.get t = w.drivers.get t
  runs : Grows w.runs w'.runs
  order : InOrder w'.runs
  agents : ∀ k agent, w.agents.get k = some agent → w'.agents.get k = some agent
  finds : ∀ name version agent, w.Busy calls name version →
    registryGet w.agents name version = .ok agent → registryGet w'.agents name version = .ok agent

/-- What a task knows at its stage. -/
def Knows (calls : Nat → Call V) (w : World V) (t : Nat) : Stage V → Prop
  | .idle => True
  | .other => w.drivers.get t = none
  | .driver d => w.drivers.get t = some d
  | .looked d s => w.drivers.get t = some d ∧ ∃ h, w.runs.get d.runId = some h ∧
      s.agentRef = h.current.state.agentRef ∧ (s.status.isTerminal = false → w.Finds s)
  | .working d agent => w.drivers.get t = some d ∧ ∃ h, w.runs.get d.runId = some h ∧
      w.Records h.current.state agent
  | .ended d _ => w.drivers.get t = some d ∧ ∃ h, w.runs.get d.runId = some h
  | .starting request => w.drivers.get t = none ∧ (calls t).request? = some request
  | .resolved request agent => w.drivers.get t = none ∧ (calls t).request? = some request ∧
      registryGet w.agents request.agent request.agentVersion = .ok agent
  | .created request id => w.drivers.get t = none ∧ (calls t).request? = some request ∧
      ∃ h, w.runs.get id = some h ∧ h.current.state.request.agent = request.agent ∧
        h.current.state.request.agentVersion = request.agentVersion ∧ w.Finds h.current.state
  | .reading request s => w.drivers.get t = none ∧ (calls t).request? = some request ∧
      s.request.agent = request.agent ∧ s.request.agentVersion = request.agentVersion ∧
      w.Finds s ∧ ∃ h, w.runs.get s.id = some h ∧ s.agentRef = h.current.state.agentRef
  | .composing agent s => w.drivers.get t = none ∧ ∃ h, w.runs.get s.id = some h ∧
      w.Records h.current.state agent

/-- The registry, the records and what the tasks know fit together. -/
structure Agreed (calls : Nat → Call V) (w : World V) (g : Nat → Stage V) : Prop where
  registry : Registered w.agents
  runs : ∀ id h, w.runs.get id = some h → ∃ agent, w.Records h.current.state agent
  active : ∀ id h, w.runs.get id = some h → h.current.state.status.isTerminal = false →
    w.Finds h.current.state
  done : ∀ t ∈ w.done, t ∈ w.started
  flight : ∀ t, g t ≠ .idle → w.InFlight t
  knows : ∀ t, Knows calls w t (g t)

section
variable {cfg : Config V} {calls : Nat → Call V} {t : Nat} {b : Bool} {w w' : World V}
  {g : Nat → Stage V} {x : Stage V}

theorem World.Records.evolve {s : RunState V} {agent : AgentDefinition V} (h : w.Records s agent)
    (he : Evolves calls w w') : w'.Records s agent :=
  ⟨h.1, he.agents _ _ h.2⟩

theorem World.Finds.evolve {s : RunState V} (h : w.Finds s) (he : Evolves calls w w')
    (hb : w.Busy calls s.request.agent s.request.agentVersion) : w'.Finds s := by
  obtain ⟨agent, hg, hk⟩ := h
  exact ⟨agent, he.finds _ _ _ hb hg, hk⟩

theorem Knows.evolve (h : Knows calls w t x) (hf : x ≠ .idle → w.InFlight t)
    (he : Evolves calls w w') : Knows calls w' t x := by
  have hd : x ≠ .idle → w'.drivers.get t = w.drivers.get t := fun hx => he.drivers t (hf hx).1
  cases x with
  | idle => trivial
  | other => exact (hd nofun).trans h
  | driver d => exact (hd nofun).trans h
  | looked d s =>
    obtain ⟨hdr, h₀, hget, href, hfind⟩ := h
    obtain ⟨h₁, hget', href'⟩ := he.runs.agentRef he.order hget
    refine ⟨(hd nofun).trans hdr, h₁, hget', href.trans href'.symm, fun hs => ?_⟩
    refine (hfind hs).evolve he (Or.inr ⟨d.runId, h₀, hget, ?_, ?_, Or.inr ⟨t, d, hf nofun, hdr, rfl⟩⟩)
    · exact (congrArg (·.1) href).symm
    · exact (congrArg (·.2.1) href).symm
  | working d agent =>
    obtain ⟨hdr, h₀, hget, hrec⟩ := h
    obtain ⟨h₁, hget', href'⟩ := he.runs.agentRef he.order hget
    exact ⟨(hd nofun).trans hdr, h₁, hget', (hrec.evolve he).congr href'⟩
  | ended d s =>
    obtain ⟨hdr, h₀, hget⟩ := h
    obtain ⟨h₁, hget', -⟩ := he.runs.agentRef he.order hget
    exact ⟨(hd nofun).trans hdr, h₁, hget'⟩
  | starting request => exact ⟨(hd nofun).trans h.1, h.2⟩
  | resolved request agent =>
    obtain ⟨hdr, hreq, hg⟩ := h
    refine ⟨(hd nofun).trans hdr, hreq, he.finds _ _ _ (Or.inl ?_) hg⟩
    exact ⟨t, request, hf nofun, hdr, hreq, rfl, rfl⟩
  | created request id =>
    obtain ⟨hdr, hreq, h₀, hget, hn, hver, hfind⟩ := h
    obtain ⟨h₁, hget', href'⟩ := he.runs.agentRef he.order hget
    have hb : w.Busy calls request.agent request.agentVersion :=
      Or.inl ⟨t, request, hf nofun, hdr, hreq, rfl, rfl⟩
    refine ⟨(hd nofun).trans hdr, hreq, h₁, hget', ?_, ?_, ?_⟩
    · exact (congrArg (·.1) href').trans hn
    · exact (congrArg (·.2.1) href').trans hver
    · exact (hfind.evolve he (by rw [hn, hver]; exact hb)).congr href'
  | reading request s =>
    obtain ⟨hdr, hreq, hn, hver, hfind, h₀, hget, href⟩ := h
    obtain ⟨h₁, hget', href'⟩ := he.runs.agentRef he.order hget
    have hb : w.Busy calls request.agent request.agentVersion :=
      Or.inl ⟨t, request, hf nofun, hdr, hreq, rfl, rfl⟩
    refine ⟨(hd nofun).trans hdr, hreq, hn, hver, ?_, h₁, hget', href.trans href'.symm⟩
    exact hfind.evolve he (by rw [hn, hver]; exact hb)
  | composing agent s =>
    obtain ⟨hdr, h₀, hget, hrec⟩ := h
    obtain ⟨h₁, hget', href'⟩ := he.runs.agentRef he.order hget
    exact ⟨(hd nofun).trans hdr, h₁, hget', (hrec.evolve he).congr href'⟩

/-- The agreement goes on, if the runs that a step creates keep to it. -/
theorem Agreed.evolve (h : Agreed calls w g) (he : Evolves calls w w')
    (hr : Registered w'.agents) (hdone : ∀ t ∈ w'.done, t ∈ w'.started)
    (hnew : ∀ id h', w'.runs.get id = some h' → w.runs.get id = none → w'.Finds h'.current.state) :
    Agreed calls w' g where
  registry := hr
  runs id h' hget' := by
    cases hget : w.runs.get id with
    | none =>
      obtain ⟨agent, -, hrec⟩ := (hnew id h' hget' hget).records hr
      exact ⟨agent, hrec⟩
    | some h₀ =>
      obtain ⟨h₁, hget₁, href⟩ := he.runs.agentRef he.order hget
      rw [hget'] at hget₁; cases hget₁
      obtain ⟨agent, hrec⟩ := h.runs id h₀ hget
      exact ⟨agent, (hrec.evolve he).congr href⟩
  active id h' hget' hs := by
    cases hget : w.runs.get id with
    | none => exact hnew id h' hget' hget
    | some h₀ =>
      obtain ⟨h₁, hget₁, href⟩ := he.runs.agentRef he.order hget
      rw [hget'] at hget₁; cases hget₁
      have hactive : h₀.current.state.status.isTerminal = false := by
        by_contra hc
        have hfinal := he.runs.terminal he.order hget (by simpa using hc)
        rw [hget'] at hfinal; cases hfinal
        exact hc hs
      refine ((h.active id h₀ hget hactive).evolve he (Or.inr ?_)).congr href
      exact ⟨id, h₀, hget, rfl, rfl, Or.inl hactive⟩
  done := hdone
  flight t ht := he.flight t (h.flight t ht)
  knows t := (h.knows t).evolve (h.flight t) he

theorem Agreed.set (h : Agreed calls w g) (hk : Knows calls w t x) (hf : x ≠ .idle → w.InFlight t) :
    Agreed calls w (Function.update g t x) := by
  refine ⟨h.registry, h.runs, h.active, h.done, fun t' ht' => ?_, fun t' => ?_⟩
  · by_cases ht : t' = t
    · subst ht; rw [Function.update_self] at ht'; exact hf ht'
    · rw [Function.update_of_ne ht] at ht'; exact h.flight t' ht'
  · by_cases ht : t' = t
    · subst ht; rw [Function.update_self]; exact hk
    · rw [Function.update_of_ne ht]; exact h.knows t'

theorem act_register {d : AgentDefinition V} {a : Act cfg.sem.Ans Exn (.agentsRegister d)}
    {r : Except Exn Unit} (h : cfg.sem.act t b w (.agentsRegister d) a = some (r, w')) :
    w'.agents = w.agents ∨ registryRegister w.agents d = .ok w'.agents := by
  obtain ⟨C, ⟨c, hc⟩ | ⟨e, -, hl, -⟩⟩ := Config.act_cases h
  · simp only [World.effect, Option.some.injEq] at hc
    cases hs : registryRegister w.agents d with
    | ok agents =>
      rw [show registryRegister (w.flagged C).agents d = _ from hs] at hc
      cases hc; exact Or.inr rfl
    | error e =>
      rw [show registryRegister (w.flagged C).agents d = _ from hs] at hc
      cases hc; exact Or.inl rfl
  · cases hl

variable (cfg calls) in
/-- A registration that takes over comes when nobody may look up the agent without a version. -/
def keepsLatest : Allow cfg.sem.Ans Exn (World V) := fun _ w o _ =>
  ∀ d, o = .agentsRegister d → TakesOver w.agents d →
    ∀ version, isLatest version = true → ¬ w.Busy calls d.name version

section
variable {o : Op V} {a : Act cfg.sem.Ans Exn o} {r : Except Exn o.Resp}

theorem Evolves.of_act (hallow : keepsLatest cfg calls t w o a) (hv' : InOrder w'.runs)
    (hact : cfg.sem.act t b w o a = some (r, w')) : Evolves calls w w' := by
  have hf := Config.act_frame hact
  have flight : ∀ u, w.InFlight u → w'.InFlight u := by
    intro u hu
    unfold World.InFlight
    rw [hf.started, hf.done]
    exact hu
  have drivers : ∀ u, u ∈ w.started → w'.drivers.get u = w.drivers.get u := by
    intro u hu
    cases hd : w.drivers.get u with
    | some d => exact hf.drivers_old u d hd
    | none =>
      cases hd' : w'.drivers.get u with
      | none => rfl
      | some d =>
        rcases hf.drivers_new u d hd' with h | ⟨-, h⟩
        · rw [hd] at h; cases h
        · exact absurd hu h
  by_cases ho : o.isRegister = true
  · cases o with
    | agentsRegister d =>
      rcases act_register hact with he | he
      · exact ⟨flight, drivers, act_grows hact, hv', fun k agent hk => by rw [he]; exact hk,
          fun _ _ _ _ hg => by rw [he]; exact hg⟩
      · obtain ⟨hnone, hset⟩ := registryRegister_ok he
        refine ⟨flight, drivers, act_grows hact, hv', fun k agent hk => ?_,
          fun name version agent hb hg => registryGet_register he (fun hover => ?_) hg⟩
        · rw [hset, Dict.get_set_ne]
          · exact hk
          · rintro rfl; rw [hnone] at hk; cases hk
        · rintro ⟨rfl, hver⟩
          exact hallow d rfl hover version hver hb
    | _ => cases ho
  · have he := hf.agents (by simpa using ho)
    exact ⟨flight, drivers, act_grows hact, hv', fun k agent hk => by rw [he]; exact hk,
      fun _ _ _ _ hg => by rw [he]; exact hg⟩

/-- What a run is created with is found. -/
theorem Agreed.created (h : Agreed calls w g) (hmay : references.may (g t) o)
    (hact : cfg.sem.act t b w o a = some (r, w')) {id : String} {h' : History V}
    (hget' : w'.runs.get id = some h') (hget : w.runs.get id = none) :
    w'.Finds h'.current.state := by
  have hf := Config.act_frame hact
  by_cases ho : o.writesRuns = false
  · rw [hf.runs ho, hget] at hget'; cases hget'
  · cases o with
    | runsSave s v =>
      rcases act_runsSave hact with ⟨he, -⟩ | hs
      · rw [he, hget] at hget'; cases hget'
      · obtain ⟨h₀, hget₀, -, he⟩ := Runs.save_ok hs
        rw [he, Dict.get_set] at hget'
        split at hget'
        · rename_i hid; rw [hid, hget₀] at hget; cases hget
        · rw [hget] at hget'; cases hget'
    | runsCreate s =>
      rcases act_runsCreate hact with ⟨he, -⟩ | hs
      · rw [he, hget] at hget'; cases hget'
      · obtain ⟨-, he⟩ := Runs.create_ok hs
        rw [he, Dict.get_set] at hget'
        split at hget'
        · cases hget'
          have hk := h.knows t
          cases hg : g t with
          | resolved request agent =>
            rw [hg] at hmay hk
            obtain ⟨rfl, hkey⟩ := hmay
            refine ⟨agent, ?_, hkey⟩
            rw [hf.agents rfl]
            exact hk.2.2
          | _ => rw [hg] at hmay; exact hmay.elim
        · rw [hget] at hget'; cases hget'
    | _ => exact absurd rfl ho

theorem act_agentsGet {name : String} {version : Option String}
    {a : Act cfg.sem.Ans Exn (.agentsGet name version)} {agent : AgentDefinition V}
    (h : cfg.sem.act t b w (.agentsGet name version) a = some (.ok agent, w')) :
    w' = w ∧ registryGet w.agents name version = .ok agent := by
  obtain ⟨c, -, hc⟩ := done_of_act_ok h
  simp only [World.effect, Option.some.injEq, Prod.mk.injEq] at hc
  exact ⟨hc.2.symm, hc.1⟩

/-- **What a task knows after an await.** -/
theorem Knows.next (h : Agreed calls w g) (hv : InOrder w.runs) (hx : Knows calls w t x)
    (hx' : Knows calls w' t x) (hmay : references.may x o)
    (hact : cfg.sem.act t b w o a = some (r, w')) : Knows calls w' t (references.next x o r) := by
  generalize hg : references.next x o r = x'
  rcases next_cases hg with rfl | ha
  · exact hx'
  clear hg
  cases ha with
  | @looked d _ tenantId s =>
    obtain rfl : _ = d.runId := hmay
    obtain ⟨rfl, h₀, hget, rfl⟩ := act_runsGet hact
    exact ⟨hx, h₀, hget, rfl, h.active _ h₀ hget⟩
  | ended hs =>
    obtain ⟨rfl, rfl⟩ := hmay
    obtain ⟨rfl, hget⟩ := act_agentsGet hact
    obtain ⟨hdr, h₀, hruns, -, -⟩ := hx
    exact ⟨hdr, h₀, hruns⟩
  | working hs =>
    obtain ⟨rfl, rfl⟩ := hmay
    obtain ⟨rfl, hget⟩ := act_agentsGet hact
    obtain ⟨hdr, h₀, hruns, href, hfind⟩ := hx
    obtain ⟨agent', hg', hrec⟩ := (hfind hs).records h.registry
    cases hget.symm.trans hg'
    exact ⟨hdr, h₀, hruns, hrec.congr href.symm⟩
  | resolved =>
    obtain ⟨rfl, rfl⟩ := hmay
    obtain ⟨rfl, hget⟩ := act_agentsGet hact
    exact ⟨hx.1, hx.2, hget⟩
  | @created request agent s u =>
    obtain ⟨rfl, hkey⟩ := hmay
    rcases act_runsCreate hact with ⟨-, e, he⟩ | hs
    · cases he
    · obtain ⟨-, hruns⟩ := Runs.create_ok hs
      refine ⟨hx'.1, hx'.2.1, ⟨⟨t, s⟩, []⟩, ?_, rfl, rfl, agent, hx'.2.2, hkey⟩
      rw [hruns]; exact Dict.get_set_self _ _ _
  | @reading request runId id tenantId s =>
    obtain rfl : id = runId := hmay
    obtain ⟨rfl, h₀, hget, rfl⟩ := act_runsGet hact
    obtain ⟨hdr, hreq, h₁, hget₁, hn, hver, hfind⟩ := hx
    cases hget.symm.trans hget₁
    refine ⟨hdr, hreq, hn, hver, hfind, h₀, ?_, rfl⟩
    rw [hv.id _ _ hget]; exact hget
  | composing =>
    obtain ⟨rfl, rfl⟩ := hmay
    obtain ⟨rfl, hget⟩ := act_agentsGet hact
    obtain ⟨hdr, -, -, -, hfind, h₀, hruns, href⟩ := hx
    obtain ⟨agent', hg', hrec⟩ := hfind.records h.registry
    cases hget.symm.trans hg'
    exact ⟨hdr, h₀, hruns, hrec.congr href.symm⟩

/-- **An await that follows the protocol keeps the agreement.** -/
theorem Agreed.act (h : Agreed calls w g) (hv : InOrder w.runs) (hv' : InOrder w'.runs)
    (hmay : references.may (g t) o) (hallow : keepsLatest cfg calls t w o a)
    (hact : cfg.sem.act t b w o a = some (r, w')) :
    Agreed calls w' (Function.update g t (references.next (g t) o r)) := by
  have hf := Config.act_frame hact
  have he := Evolves.of_act hallow hv' hact
  have hr : Registered w'.agents := by
    by_cases ho : o.isRegister = true
    · cases o with
      | agentsRegister d =>
        rcases act_register hact with he | he
        · rw [he]; exact h.registry
        · exact h.registry.register he
      | _ => cases ho
    · rw [hf.agents (by simpa using ho)]; exact h.registry
  have h' : Agreed calls w' g := by
    refine h.evolve he hr (fun u hu => ?_) fun id h₁ hget' hget => h.created hmay hact hget' hget
    rw [hf.done] at hu; rw [hf.started]
    exact h.done u hu
  refine h'.set (Knows.next h hv (h.knows t) (h'.knows t) hmay hact) fun hn => h'.flight t ?_
  rintro hidle
  rw [hidle] at hn
  exact hn (by cases o <;> rfl)

end

end

/-! ## The theorem -/

/-- The deployment in which a registration takes over only when it disturbs no run. -/
abbrev orderlyTasks (cfg : Config V) (calls : Nat → Call V) :=
  runtimeSys cfg (keepsLatest cfg calls) calls fun _ => True

theorem Agreed.of_eq {calls : Nat → Call V} {w w' : World V} {g : Nat → Stage V}
    (h : Agreed calls w g) (ha : w'.agents = w.agents) (hr : w'.runs = w.runs)
    (hd : w'.drivers = w.drivers) (hdone : ∀ t ∈ w'.done, t ∈ w'.started)
    (hf : ∀ t, g t ≠ .idle → w'.InFlight t) : Agreed calls w' g := by
  obtain ⟨h₁, h₂, h₃, -, -, h₆⟩ := h
  have knows : ∀ t, Knows calls w' t (g t) ↔ Knows calls w t (g t) := by
    intro t
    cases g t <;> simp only [Knows, World.Finds, World.Records, ha, hr, hd]
  refine ⟨by rw [ha]; exact h₁, ?_, ?_, hdone, hf, fun t => (knows t).2 (h₆ t)⟩
  · unfold World.Records; rw [ha, hr]; exact h₂
  · unfold World.Finds; rw [ha, hr]; exact h₃

/-- A task that ends forgets what it knew. -/
theorem Agreed.leave {calls : Nat → Call V} {w : World V} {g : Nat → Stage V} {t : Nat}
    (h : Agreed calls w g) (hin : w.InFlight t) :
    Agreed calls { w with done := insert t w.done } (Function.update g t .idle) := by
  refine (h.set (t := t) (x := .idle) trivial fun hn => absurd rfl hn).of_eq rfl rfl rfl
    (fun u hu => ?_) fun u hu => ?_
  · rcases Finset.mem_insert.1 hu with rfl | hu
    · exact hin.1
    · exact h.done u hu
  · have hne : u ≠ t := by rintro rfl; rw [Function.update_self] at hu; exact hu rfl
    rw [Function.update_of_ne hne] at hu
    refine ⟨(h.flight u hu).1, fun hm => ?_⟩
    rcases Finset.mem_insert.1 hm with hm | hm
    · exact hne hm
    · exact (h.flight u hu).2 hm

theorem Plays.ne_idle {cfg : Config V} {p : Task V Unit} {x : Stage V} (h : Plays cfg p x) :
    x ≠ .idle := by
  cases h with
  | caller hg => rintro rfl; cases hg
  | finished hx => exact hx
  | _ => nofun

theorem references_conform (cfg : Config V) (calls : Nat → Call V) :
    (orderlyTasks cfg calls).Conforms histories references (Plays cfg) (Agreed calls) where
  await _ _ _ _ h := h.await
  enter := by
    rintro w g t p w' h ⟨hn, rfl, rfl⟩
    have hidle : g t = .idle := by
      by_contra hg
      exact hn (h.flight t hg).1
    have hnd : t ∉ w.done := fun hd => hn (h.done t hd)
    have hw : Agreed calls { w with started := insert t w.started } g := by
      refine h.of_eq rfl rfl rfl (fun u hu => Finset.mem_insert_of_mem (h.done u hu)) fun u hu => ?_
      exact ⟨Finset.mem_insert_of_mem (h.flight u hu).1, (h.flight u hu).2⟩
    have hin : World.InFlight { w with started := insert t w.started } t :=
      ⟨Finset.mem_insert_self _ _, hnd⟩
    cases hd : w.drivers.get t with
    | some d =>
      refine ⟨.driver d, hw.set hd fun _ => hin, .driver ?_⟩
      simp only [taskOf, hd]
    | none =>
      have hp : taskOf cfg calls w t = (calls t).task cfg := by simp only [taskOf, hd]
      refine ⟨(calls t).stage, hw.set ?_ fun _ => hin, ?_⟩
      · unfold Call.stage
        cases hreq : (calls t).request? with
        | some request => exact ⟨hd, hreq⟩
        | none => exact hd
      · rw [hp]
        refine .caller ?_ (call_follows _)
        unfold Call.stage
        cases (calls t).request? <;> rfl
  run w g t b o a r w' hv hv' h hmay hallow hact := h.act hv hv' hmay hallow hact
  fin w g t p z h hp _ := ⟨.idle, h.leave (h.flight t hp.ne_idle)⟩
  kill := by
    rintro w g t p w' h hp ⟨-, rfl⟩
    exact ⟨.idle, h.leave (h.flight t hp.ne_idle)⟩

/-- The driver has not looked up its agent yet. -/
def Unresolved (cfg : Config V) (d : Driver) (p : Task V Unit) : Prop :=
  p = drive cfg d.runId d.tenantId ∨ ∃ s, p = lookUp cfg d s

/-- **Runs keep their agent definition**: the recorded key does not change and is the key of a
    registered definition, what a driver does is what `_drive_observed` does with this definition,
    and its composer makes the result. -/
structure KeepsDefinition (cfg : Config V) (P : Pool (Op.Resp (V := V)) Exn (World V) Unit) :
    Prop where
  records : ∀ id h, P.world.runs.get id = some h →
    ∃ agent, ∀ r ∈ h.records, P.world.Records r.state agent
  drivers : ∀ t p d, P.tasks t = some p → P.world.drivers.get t = some d →
    Unresolved cfg d p ∨ ∃ h s agent, P.world.runs.get d.runId = some h ∧
      P.world.Records h.current.state agent ∧ Residual (driveWith cfg d s agent) p
  composers : ∀ t b name s k, P.tasks t = some (.await b (.compose name s) k) →
    ∃ h agent, P.world.runs.get s.id = some h ∧ P.world.Records h.current.state agent ∧
      name = agent.responseComposer

/-- **A run keeps its agent definition**, if a registration that changes what requests without a
    version get comes only when no such run is being started or is unfinished. -/
theorem definition_kept (cfg : Config V) (calls : Nat → Call V) (w₀ : World V) (h₀ : Fresh w₀)
    (hr : Registered w₀.agents) (hd : w₀.done = ∅)
    (P : Pool (Op.Resp (V := V)) Exn (World V) Unit)
    (hP : (orderlyTasks cfg calls).Reach (freshPool w₀) P) : KeepsDefinition cfg P := by
  have hstart : Agreed calls w₀ fun _ => .idle := by
    refine ⟨hr, fun id h hget => ?_, fun id h hget => ?_, fun t ht => ?_,
      fun _ hn => absurd rfl hn, fun _ => trivial⟩
    · rw [h₀.runs] at hget; cases hget
    · rw [h₀.runs] at hget; cases hget
    · rw [hd] at ht; cases ht
  have hsafe := Sys.safe_reach (histories_respects cfg calls) (fresh_safe h₀) hP
  obtain ⟨g, hg, hplays⟩ := Sys.follows_reach (histories_respects cfg calls)
    (references_conform cfg calls) (fresh_safe h₀) ⟨_, hstart, fun _ _ hp => by cases hp⟩ hP
  refine ⟨fun id h hget => ?_, fun t p d hp hdr => ?_, fun t b name s k hp => ?_⟩
  · obtain ⟨agent, hrec⟩ := hg.runs id h hget
    exact ⟨agent, fun r hr => hrec.congr ((hsafe.valid.legal id h hget).agentRef r hr)⟩
  · have hk := hg.knows t
    have hpl := hplays t p hp
    generalize hx : g t = x at hk hpl
    cases hpl with
    | driver h =>
      cases (show some _ = some d from hk.symm.trans hdr)
      exact Or.inl (Or.inl h)
    | looked h =>
      cases (show some _ = some d from hk.1.symm.trans hdr)
      exact Or.inl (Or.inr ⟨_, h⟩)
    | working h =>
      cases (show some _ = some d from hk.1.symm.trans hdr)
      obtain ⟨-, h₁, hget, hrec⟩ := hk
      exact Or.inr ⟨h₁, _, _, hget, hrec, h⟩
    | ended h _ =>
      cases (show some _ = some d from hk.1.symm.trans hdr)
      obtain ⟨-, h₁, hget⟩ := hk
      obtain ⟨agent, hrec⟩ := hg.runs _ h₁ hget
      exact Or.inr ⟨h₁, _, agent, hget, hrec, h agent⟩
    | caller hc _ =>
      exfalso
      have hnone : P.world.drivers.get t = none := by
        cases x <;> first | cases hc; done | exact hk | exact hk.1
      rw [hdr] at hnone; cases hnone
    | finished _ h => rw [(hsafe.safe t p hp).1] at h; cases h
  · have hk := hg.knows t
    obtain ⟨hmay, -⟩ := (hplays t _ hp).await
    cases hx : g t with
    | composing agent s' =>
      rw [hx] at hmay hk
      obtain ⟨rfl, rfl⟩ := hmay
      obtain ⟨-, h₁, hget, hrec⟩ := hk
      exact ⟨h₁, agent, hget, hrec, rfl⟩
    | _ => rw [hx] at hmay; exact hmay.elim

namespace Sample

/-- The agent in two versions. -/
def release (version : String) : AgentDefinition String := { agent with version := version }

def released : World String := { agents := [("agent@1.0.0", release "1.0.0")] }

theorem released_registered : Registered released.agents :=
  ⟨by decide, fun k d h => by cases List.mem_singleton.1 h; rfl⟩

/-- A run is started, and then the second version is registered. -/
def upgrade (version : Option String) : Nat → Call String
  | 0 => .start { request with agentVersion := version }
  | _ => .register (release "2.0.0")

/-- The run is started, the registration comes before the driver gets to run, and the driver
    goes on until it builds the context. -/
def upgrades {cfg : Config String} : List (Move cfg.sem.Ans Exn) :=
  starts 0 1 ++ [.enter 2, .run 2 obliging] ++ .enter 1 :: obliges 1 11

/-- The key of the definition with which a driver is about to build the context. -/
def contextAgent : Task String Unit → Option String
  | .await _ (.buildContext _ agent) _ => some agent.key
  | _ => none

theorem contextAgent_eq {p : Task String Unit} {key : String} (h : contextAgent p = some key) :
    ∃ b s agent k, p = .await b (.buildContext s agent) k ∧ agent.key = key := by
  unfold contextAgent at h
  split at h
  · rename_i b s agent k
    exact ⟨b, s, agent, k, rfl, Option.some.inj h⟩
  · cases h

end Sample

/-- A driver only builds contexts with its definition. -/
theorem buildContext_agent {cfg : Config V} {d : Driver} {s s' : RunState V} {b : Bool}
    {agent agent' : AgentDefinition V} {k : Except Exn (List (Message V) × List Citation) → Task V Unit}
    (h : Residual (driveWith cfg d s agent) (.await b (.buildContext s' agent') k)) :
    agent' = agent := by
  have hu : (driveWith cfg d s agent).Uses fun o => ∀ s a, o = .buildContext s a → a = agent := by
    refine driveWith_uses ⟨fun o ho s a h => ?_, fun _ _ _ h => ?_, fun _ _ _ _ _ _ h => ?_,
      fun _ _ _ h => ?_⟩ (fun _ _ _ h => ?_) fun _ _ h => ?_
    · rw [h] at ho; cases ho
    · injection h with _ h; exact h.symm
    all_goals cases h
  exact (h.uses hu).1 s' agent' rfl

/-- The driver of a run whose request names no version takes the version that was registered
    after the run was started. -/
theorem definition_changed :
    ¬ ∀ (cfg : Config String) (calls : Nat → Call String) (w₀ : World String), Fresh w₀ →
      Registered w₀.agents → w₀.done = ∅ → ∀ P, (anyTasks cfg calls).Reach (freshPool w₀) P →
      KeepsDefinition cfg P := by
  intro hall
  let y : Player (anyTasks { lib := .text } (Sample.upgrade none)) :=
    runtimePlayer _ _ (fun _ _ _ _ => true) fun _ _ _ _ _ => trivial
  have hplay : (y.play Sample.upgrades (freshPool Sample.released)).map (fun P =>
      ((P.tasks 1).bind Sample.contextAgent, (P.world.drivers.get 1).map (·.runId),
        (P.world.runs.get "run").bind (·.current.state.agentKey))) =
      some (some "agent@2.0.0", some "run", some "agent@1.0.0") := by decide +kernel
  obtain ⟨P, hP, hx⟩ := Player.exists_reach hplay
  simp only [Prod.mk.injEq, Option.bind_eq_some_iff, Option.map_eq_some_iff] at hx
  obtain ⟨⟨p, hp, hctx⟩, ⟨d, hd, hid⟩, ⟨h, hget, hkey⟩⟩ := hx
  obtain ⟨b, s, agent, k, rfl, hagent⟩ := Sample.contextAgent_eq hctx
  have hkeeps := hall _ _ _ ⟨rfl, rfl, rfl, rfl⟩ Sample.released_registered rfl P hP
  rcases hkeeps.drivers 1 _ d hp hd with (h' | ⟨s', h'⟩) | ⟨h₁, s', agent', hget₁, hrec, hres⟩
  · cases (h' : Prog.await b _ k = Prog.await false (.runsGet d.runId d.tenantId) _)
  · cases (h' : Prog.await b _ k =
      Prog.await false (.agentsGet s'.request.agent s'.request.agentVersion) _)
  · rw [hid, hget] at hget₁
    cases hget₁
    have hsame := buildContext_agent hres
    subst hsame
    have := hrec.1
    rw [hkey, hagent] at this
    exact absurd this (by decide)

/-- Registrations come while every run names its version. -/
def Sample.named {cfg : Config String} (w : World String) :
    (o : Op String) → Act cfg.sem.Ans Exn o → Bool
  | .agentsRegister _, _ => w.runs.all fun i => !isLatest i.2.current.state.request.agentVersion
  | _, _ => true

theorem Sample.named_keeps {cfg : Config String} {t : Nat} {w : World String} {o : Op String}
    {a : Act cfg.sem.Ans Exn o} (h : Sample.named w o a = true) :
    keepsLatest cfg (Sample.upgrade (some "1.0.0")) t w o a := by
  rintro d rfl - version hver (⟨u, request, -, -, hreq, -, rfl⟩ | ⟨id, h₀, hget, -, rfl, -⟩)
  · cases u with
    | zero => cases hreq; cases hver
    | succ u => cases hreq
  · have := List.all_eq_true.1 h _ (Dict.mem_of_get hget)
    rw [hver] at this; cases this

/-- The driver of a run whose request names its version is not disturbed. -/
theorem definition_kept_named :
    ∃ P b s agent k, (orderlyTasks { lib := .text } (Sample.upgrade (some "1.0.0"))).Reach
        (freshPool Sample.released) P ∧
      registryGet P.world.agents "agent" none = .ok (Sample.release "2.0.0") ∧
      P.tasks 1 = some (.await b (.buildContext s agent) k) ∧ agent.key = "agent@1.0.0" ∧
      KeepsDefinition { lib := .text } P := by
  let y : Player (orderlyTasks { lib := .text } (Sample.upgrade (some "1.0.0"))) :=
    runtimePlayer _ _ (fun _ => Sample.named) fun _ _ _ _ => Sample.named_keeps
  have hplay : (y.play Sample.upgrades (freshPool Sample.released)).map (fun P =>
      ((P.tasks 1).bind Sample.contextAgent,
        decide (registryGet P.world.agents "agent" none = .ok (Sample.release "2.0.0")))) =
      some (some "agent@1.0.0", true) := by decide +kernel
  obtain ⟨P, hP, hx⟩ := Player.exists_reach hplay
  simp only [Prod.mk.injEq, Option.bind_eq_some_iff, decide_eq_true_eq] at hx
  obtain ⟨⟨p, hp, hctx⟩, hreg⟩ := hx
  obtain ⟨b, s, agent, k, rfl, hagent⟩ := Sample.contextAgent_eq hctx
  exact ⟨P, b, s, agent, k, hP, hreg, hp, hagent,
    definition_kept _ _ _ ⟨rfl, rfl, rfl, rfl⟩ Sample.released_registered rfl P hP⟩

end TracciaRuntime
