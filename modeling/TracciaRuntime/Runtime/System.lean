/-
  Traccia Runtime formalization — a deployment of the runtime.

  Any number of processes share the stores.  Clients call the public methods at
  any time, the scheduled drivers start when their event loop gets to them, and
  a task can vanish with its process.
-/
import TracciaRuntime.Runtime.Runtime
import TracciaRuntime.Async.Play

namespace TracciaRuntime

open Py Async

variable {V : Type}

/-- A call of a public method, of the runtime or of its agent registry. -/
inductive Call (V : Type) where
  | start (request : RunRequest V)
  | run (request : RunRequest V)
  | cancel (runId tenantId : String)
  | resume (runId tenantId : String) (payload : AgentRuntime.ResumePayload V)
  | recover (limit : Nat)
  | shutdown
  | register (definition : AgentDefinition V)

/-- The task of a call; its answer is dropped. -/
def Call.task (cfg : Config V) : Call V → Task V Unit
  | start request => do
    let _ ← AgentRuntime.start request
    pure ()
  | run request => AgentRuntime.run cfg request
  | cancel runId tenantId => do
    let _ ← AgentRuntime.cancel runId tenantId
    pure ()
  | resume runId tenantId payload => do
    let _ ← AgentRuntime.resume cfg runId tenantId payload
    pure ()
  | recover limit => do
    let _ ← AgentRuntime.recover limit
    pure ()
  | shutdown => AgentRuntime.shutdown
  | register definition => await (.agentsRegister definition)

/-- What task `t` runs: a scheduled driver, or the call with this number. -/
def taskOf (cfg : Config V) (calls : Nat → Call V) (w : World V) (t : Nat) : Task V Unit :=
  match w.drivers.get t with
  | some d => AgentRuntime.drive cfg d.runId d.tenantId
  | none => (calls t).task cfg

/-- The deployment: `calls t` is the call with number `t`, and the tasks in `crash` can vanish. -/
def runtimeSys (cfg : Config V) (allow : Allow cfg.sem.Ans Exn (World V)) (calls : Nat → Call V)
    (crash : Nat → Prop) : Sys (Op.Resp (V := V)) Exn (World V) Unit where
  toSem := cfg.sem
  allow := allow
  enter w t p w' := t ∉ w.started ∧ p = taskOf cfg calls w t ∧
    w' = { w with started := insert t w.started }
  fin t _ w := { w with done := insert t w.done }
  kill w t w' := crash t ∧ w' = { w with done := insert t w.done }

/-- No run has been started. -/
structure Fresh (w : World V) : Prop where
  runs : w.runs = []
  approvals : w.approvals = []
  drivers : w.drivers = []
  invocations : w.invocations = []

/-- The deployment before its first call. -/
def freshPool (w : World V) : Pool (Op.Resp (V := V)) Exn (World V) Unit := ⟨w, fun _ => none⟩

/-! ## What the calls await -/

/-- The operations of `cancel`, `recover` and `shutdown`, and of `resume` but for its decision. -/
def Op.isControl : Op V → Bool
  | runsGet .. | runsSave .. | runsListActive _ | utcNow | nextSequence _ | publish _
  | stopAccepting | schedule .. | taskLive _ | cancelTask _ | waitTasks .. | cancelTasks _ => true
  | _ => false

/-- The operations that the public methods await themselves, but for the decision of `resume`. -/
def Op.isCalled : Op V → Bool
  | runsCreate _ | uuid | agentsGet .. | agentsRegister _ | compose .. | acceptingRuns | driverOf _
  | join _ => true
  | o => o.isControl

/-- The operations of `decide`. -/
def Op.isDecision : Op V → Bool
  | approvalsDecide .. | approvalsGet .. | approvalsSave .. | utcNow => true
  | _ => false

section
open Prog AgentRuntime
variable {cfg : Config V} {s : RunState V} {runId tenantId : String}

/-- A program of the operations of control. -/
abbrev Controls {α : Type} (p : Task V α) : Prop := p.Uses fun o => o.isControl = true

/-- A program of the operations of the calls. -/
abbrev Called {α : Type} (p : Task V α) : Prop := p.Uses fun o => o.isCalled = true

theorem Controls.called {α : Type} {p : Task V α} (hp : Controls p) : Called p := by
  refine hp.mono fun o ho => ?_
  cases o <;> first | rfl | cases ho

theorem requireState_controls : Controls (requireState runId tenantId : Task V (RunState V)) :=
  Uses.bind (Uses.call rfl) fun state => by
    cases state with
    | none => exact Uses.throw _
    | some s => exact Uses.pure _

theorem saveAs_controls {status : RunStatus} : Controls (saveAs s status) :=
  Uses.bind (Uses.call rfl) fun _ => Uses.bind (Uses.call rfl) fun _ => Uses.pure _

theorem transition_controls {target : RunStatus} : Controls (transition s target) :=
  Uses.bind (Uses.lift _) fun _ => saveAs_controls

theorem emit_controls {body : EventBody V} {stepId : Option String} :
    Controls (emit s body stepId) :=
  Uses.bind (Uses.call rfl) fun _ => Uses.call rfl

theorem start_called {request : RunRequest V} : Called (start request) :=
  Uses.bind (Uses.call rfl) fun _ => Uses.bind (Uses.raiseIf _ _) fun _ =>
    Uses.bind (Uses.call rfl) fun _ => Uses.bind (Uses.call rfl) fun _ =>
      Uses.bind (Uses.call rfl) fun _ => Uses.bind (Uses.call rfl) fun _ =>
        Uses.bind (Uses.call rfl) fun _ => Uses.bind emit_controls.called fun _ =>
          Uses.bind (Uses.call rfl) fun _ => Uses.pure _

theorem composeResult_called : Called (composeResult cfg runId tenantId) :=
  Uses.bind requireState_controls.called fun _ => Uses.bind (Uses.call rfl) fun _ =>
    Uses.bind (Uses.raiseIf _ _) fun _ => Uses.call rfl

/-- What `run` does once the run is started. -/
theorem run_uses {P : Op V → Prop} {request : RunRequest V} (hs : (start request).Uses P)
    (hd : ∀ id, P (.driverOf id)) (hj : ∀ d, P (.join d)) (hw : ∀ l b, P (.waitTasks l b))
    (hc : ∀ runId tenantId, (composeResult cfg runId tenantId).Uses P) :
    (run cfg request).Uses P := by
  refine Uses.bind hs fun s => Uses.bind (Uses.call (hd _)) fun task =>
    Uses.bind (Uses.call (hj _)) fun cancelled => ?_
  dsimp only
  split
  · exact Uses.bind (Uses.call (hw _ _)) fun _ => hc _ _
  · exact hc _ _

theorem cancel_controls : Controls (cancel runId tenantId : Task V (RunState V)) := by
  refine Uses.bind requireState_controls fun s => ?_
  split
  · exact Uses.pure _
  · exact Uses.bind (Uses.call rfl) fun _ => Uses.bind transition_controls fun _ =>
      Uses.bind emit_controls fun _ => Uses.pure _

theorem decide_uses {id : String} {decision : ApprovalStatus}
    {modified : Option (Dict String V)} :
    (ApprovalService.decide cfg id tenantId decision modified).Uses fun o =>
      o.isDecision = true := by
  unfold ApprovalService.decide
  split
  · exact Uses.call rfl
  · refine Uses.bind (Uses.call rfl) fun item => ?_
    cases item with
    | none => exact Uses.throw _
    | some item =>
      refine Uses.bind (Uses.raiseIf _ _) fun _ => Uses.bind (Uses.call rfl) fun now => ?_
      split
      · exact Uses.bind (Uses.call rfl) fun _ => Uses.throw _
      · exact Uses.bind (Uses.raiseIf _ _) fun _ => Uses.bind (Uses.call rfl) fun _ =>
          Uses.bind (Uses.raiseIf _ _) fun _ => Uses.pure _

theorem resume_uses {payload : ResumePayload V} :
    (resume cfg runId tenantId payload).Uses fun o =>
      o.isControl = true ∨ o.isDecision = true := by
  have called : ∀ {α : Type} {p : Task V α}, Controls p →
      p.Uses fun o => o.isControl = true ∨ o.isDecision = true :=
    fun hp => hp.mono fun _ => Or.inl
  refine Uses.bind (called requireState_controls) fun s => ?_
  split
  · exact called (Uses.bind (Uses.bind (Uses.raiseIf _ _) fun _ => transition_controls) fun _ =>
      Uses.bind (Uses.call rfl) fun _ => Uses.pure _)
  · refine Uses.bind (Uses.lift _) fun decision =>
      Uses.bind (decide_uses.mono fun _ => Or.inr) fun approval => ?_
    split
    · exact called (Uses.bind transition_controls fun _ => Uses.bind emit_controls fun _ => Uses.pure _)
    · exact called (Uses.bind transition_controls fun _ =>
        Uses.bind (Uses.call rfl) fun _ => Uses.pure _)
  · exact Uses.throw _

theorem recoverRun_controls : Controls (recoverRun s) := by
  have rest : ∀ overdue : Bool, Controls (if overdue = true then do
        let s ← saveAs { s with error := some "Run deadline elapsed before recovery." } .timedOut
        emit s (.runFailed (some "timeout_during_recovery") none) none
        Pure.pure false
      else do
        let s ← if s.status.recoveryStatus = s.status then Pure.pure s
          else saveAs s s.status.recoveryStatus
        await (.schedule s.id s.request.tenantId)
        Pure.pure true) := by
    intro overdue
    split
    · exact Uses.bind saveAs_controls fun _ => Uses.bind emit_controls fun _ => Uses.pure _
    · dsimp only
      split
      · exact Uses.bind (Uses.pure _) fun _ => Uses.bind (Uses.call rfl) fun _ => Uses.pure _
      · exact Uses.bind saveAs_controls fun _ => Uses.bind (Uses.call rfl) fun _ => Uses.pure _
  refine Uses.bind (Uses.call rfl) fun live => ?_
  split
  · exact Uses.pure _
  · dsimp only
    split
    · exact rest false
    · exact Uses.bind (Uses.call rfl) fun now => rest _

theorem recoverAll_controls {l : List (RunState V)} {n : Nat} : Controls (recoverAll l n) := by
  induction l generalizing n with
  | nil => exact Uses.pure _
  | cons s l ih => exact Uses.bind recoverRun_controls fun _ => ih

theorem shutdown_controls : Controls (AgentRuntime.shutdown : Task V Unit) := by
  refine Uses.bind (Uses.call rfl) fun tasks => ?_
  split
  · exact Uses.pure _
  · refine Uses.bind (Uses.call rfl) fun _ => Uses.bind (Uses.call rfl) fun pending => ?_
    split
    · exact Uses.pure _
    · exact Uses.call rfl

/-- An operation of a call. -/
def Op.OfCall (o : Op V) : Prop := o.isCalled = true ∨ o.isDecision = true

/-- **A call awaits nothing else**: no planner, policy, model or tool handler. -/
theorem Call.task_uses (c : Call V) : (c.task cfg).Uses Op.OfCall := by
  have called : ∀ {α : Type} {p : Task V α}, Called p →
      (do let _ ← p; Pure.pure () : Task V Unit).Uses Op.OfCall :=
    fun hp => Uses.bind (hp.mono fun _ => Or.inl) fun _ => Uses.pure _
  cases c with
  | start request => exact called start_called
  | run request =>
    exact (run_uses start_called (fun _ => rfl) (fun _ => rfl) (fun _ _ => rfl)
      fun _ _ => composeResult_called).mono fun _ => Or.inl
  | cancel runId tenantId => exact called cancel_controls.called
  | resume runId tenantId payload =>
    refine Uses.bind (resume_uses.mono fun o ho => ?_) fun _ => Uses.pure _
    exact ho.imp_left fun h => by cases o <;> first | rfl | cases h
  | recover limit => exact called (Uses.bind (Uses.call rfl) fun _ => recoverAll_controls.called)
  | shutdown => exact shutdown_controls.called.mono fun _ => Or.inl
  | register definition => exact Uses.call (Or.inl rfl)

end

/-! ## Writes of the run store -/

section
variable {cfg : Config V} {t : Nat} {b : Bool} {w w' : World V}

/-- A save takes effect or changes nothing; when it returns it took effect. -/
theorem act_runsSave {s : RunState V} {v : Nat} {a : Act cfg.sem.Ans Exn (.runsSave s v)}
    {r : Except Exn Unit} (h : cfg.sem.act t b w (.runsSave s v) a = some (r, w')) :
    (w'.runs = w.runs ∧ ∃ e, r = .error e) ∨
      Runs.save cfg.runStore w.runs t s v = .ok w'.runs := by
  have eff : ∀ {C : Finset Nat} {c} {r' : Except Exn Unit},
      (w.flagged C).effect cfg t (.runsSave s v) c = some (r', w') →
      (w'.runs = w.runs ∧ ∃ e, r' = .error e) ∨
        Runs.save cfg.runStore w.runs t s v = .ok w'.runs := by
    intro C c r' hc
    simp only [World.effect, Option.some.injEq] at hc
    cases hs : Runs.save cfg.runStore w.runs t s v with
    | ok runs =>
      rw [show Runs.save cfg.runStore (w.flagged C).runs t s v = _ from hs] at hc
      cases hc; exact Or.inr rfl
    | error e =>
      rw [show Runs.save cfg.runStore (w.flagged C).runs t s v = _ from hs] at hc
      cases hc; exact Or.inl ⟨rfl, e, rfl⟩
  obtain ⟨C, ⟨c, hc⟩ | ⟨e, rfl, -, rfl | rfl | ⟨c, r', hc⟩⟩⟩ := Config.act_cases h
  · exact eff hc
  · exact Or.inl ⟨rfl, e, rfl⟩
  · exact Or.inl ⟨rfl, e, rfl⟩
  · rcases eff hc with h | h
    · exact Or.inl ⟨h.1, e, rfl⟩
    · exact Or.inr h

theorem act_runsCreate {s : RunState V} {a : Act cfg.sem.Ans Exn (.runsCreate s)}
    {r : Except Exn Unit} (h : cfg.sem.act t b w (.runsCreate s) a = some (r, w')) :
    (w'.runs = w.runs ∧ ∃ e, r = .error e) ∨
      Runs.create cfg.runStore w.runs t s = .ok w'.runs := by
  have eff : ∀ {C : Finset Nat} {c} {r' : Except Exn Unit},
      (w.flagged C).effect cfg t (.runsCreate s) c = some (r', w') →
      (w'.runs = w.runs ∧ ∃ e, r' = .error e) ∨
        Runs.create cfg.runStore w.runs t s = .ok w'.runs := by
    intro C c r' hc
    simp only [World.effect, Option.some.injEq] at hc
    cases hs : Runs.create cfg.runStore w.runs t s with
    | ok runs =>
      rw [show Runs.create cfg.runStore (w.flagged C).runs t s = _ from hs] at hc
      cases hc; exact Or.inr rfl
    | error e =>
      rw [show Runs.create cfg.runStore (w.flagged C).runs t s = _ from hs] at hc
      cases hc; exact Or.inl ⟨rfl, e, rfl⟩
  obtain ⟨C, ⟨c, hc⟩ | ⟨e, rfl, -, rfl | rfl | ⟨c, r', hc⟩⟩⟩ := Config.act_cases h
  · exact eff hc
  · exact Or.inl ⟨rfl, e, rfl⟩
  · exact Or.inl ⟨rfl, e, rfl⟩
  · rcases eff hc with h | h
    · exact Or.inl ⟨h.1, e, rfl⟩
    · exact Or.inr h

end

/-! ## Writes of the approval store -/

section
variable {cfg : Config V} {t : Nat} {b : Bool} {w w' : World V}

theorem act_approvalsInsert {x : ApprovalRequest V} {a : Act cfg.sem.Ans Exn (.approvalsInsert x)}
    {r : Except Exn Unit} (h : cfg.sem.act t b w (.approvalsInsert x) a = some (r, w')) :
    (w'.approvals = w.approvals ∧ ∃ e, r = .error e) ∨
      w'.approvals = w.approvals.set x.id ⟨x, none⟩ := by
  obtain ⟨C, ⟨c, hc⟩ | ⟨e, rfl, -, rfl | rfl | ⟨c, r', hc⟩⟩⟩ := Config.act_cases h
  · cases hc; exact Or.inr rfl
  · exact Or.inl ⟨rfl, e, rfl⟩
  · exact Or.inl ⟨rfl, e, rfl⟩
  · cases hc; exact Or.inr rfl

/-- A decision in the in-memory service. -/
theorem act_approvalsDecide {id tenantId : String} {decision : ApprovalStatus}
    {modified : Option (Dict String V)}
    {a : Act cfg.sem.Ans Exn (.approvalsDecide id tenantId decision modified)}
    {r : Except Exn (ApprovalRequest V)}
    (h : cfg.sem.act t b w (.approvalsDecide id tenantId decision modified) a = some (r, w')) :
    (w'.approvals = w.approvals ∧ ∃ e, r = .error e) ∨
    ∃ i, w.approvals.get id = some i ∧ i.request.status = .pending ∧
      ((∃ e, r = .error e) ∧ w'.approvals = w.approvals.set id
          ⟨{ i.request with status := .expired }, some t⟩ ∨
        ((∃ e, r = .error e) ∨
          r = .ok { i.request with status := decision, modifiedParameters := modified }) ∧
        w'.approvals = w.approvals.set id
          ⟨{ i.request with status := decision, modifiedParameters := modified }, some t⟩ ∧
        (decision = .modified → modified ≠ none)) := by
  have eff : ∀ {C : Finset Nat} {c} {r' : Except Exn (ApprovalRequest V)},
      (w.flagged C).effect cfg t (.approvalsDecide id tenantId decision modified) c =
        some (r', w') → ∃ now, w.approvals.decide t now id tenantId decision modified =
          (r', w'.approvals) := by
    intro C c r' hc
    simp only [World.effect] at hc
    split at hc
    · cases hc
    · cases hc; exact ⟨_, rfl⟩
  obtain ⟨C, ⟨c, hc⟩ | ⟨e, rfl, -, rfl | rfl | ⟨c, r', hc⟩⟩⟩ := Config.act_cases h
  · obtain ⟨now, hd⟩ := eff hc
    rcases Approvals.decide_cases hd with ⟨e, rfl, he⟩ | ⟨i, hg, hp, ⟨e, rfl, he⟩ | ⟨hr, he, hm⟩⟩
    · exact Or.inl ⟨he, e, rfl⟩
    · exact Or.inr ⟨i, hg, hp, Or.inl ⟨⟨e, rfl⟩, he⟩⟩
    · exact Or.inr ⟨i, hg, hp, Or.inr ⟨Or.inr hr, he, hm⟩⟩
  · exact Or.inl ⟨rfl, e, rfl⟩
  · exact Or.inl ⟨rfl, e, rfl⟩
  · obtain ⟨now, hd⟩ := eff hc
    rcases Approvals.decide_cases hd with ⟨-, -, he⟩ | ⟨i, hg, hp, ⟨-, -, he⟩ | ⟨-, he, hm⟩⟩
    · exact Or.inl ⟨he, e, rfl⟩
    · exact Or.inr ⟨i, hg, hp, Or.inl ⟨⟨e, rfl⟩, he⟩⟩
    · exact Or.inr ⟨i, hg, hp, Or.inr ⟨Or.inl ⟨e, rfl⟩, he, hm⟩⟩

/-- The conditional update of the PostgreSQL service. -/
theorem act_approvalsSave {x : ApprovalRequest V} {expected : ApprovalStatus}
    {a : Act cfg.sem.Ans Exn (.approvalsSave x expected)} {r : Except Exn Bool}
    (h : cfg.sem.act t b w (.approvalsSave x expected) a = some (r, w')) :
    (w'.approvals = w.approvals ∧ r ≠ .ok true) ∨
    ∃ i, w.approvals.get x.id = some i ∧ i.request.status = expected ∧
      w'.approvals = w.approvals.set x.id ⟨x, some t⟩ ∧ r ≠ .ok false := by
  have eff : ∀ {C : Finset Nat} {c} {r' : Except Exn Bool},
      (w.flagged C).effect cfg t (.approvalsSave x expected) c = some (r', w') →
      ∃ saved, r' = .ok saved ∧ w.approvals.save t x expected = (saved, w'.approvals) := by
    intro C c r' hc
    cases hc; exact ⟨_, rfl, rfl⟩
  obtain ⟨C, ⟨c, hc⟩ | ⟨e, rfl, -, rfl | rfl | ⟨c, r', hc⟩⟩⟩ := Config.act_cases h
  · obtain ⟨saved, rfl, hs⟩ := eff hc
    rcases Approvals.save_cases hs with ⟨rfl, he⟩ | ⟨i, hg, hp, rfl, he⟩
    · exact Or.inl ⟨he, by simp⟩
    · exact Or.inr ⟨i, hg, hp, he, by simp⟩
  · exact Or.inl ⟨rfl, by simp⟩
  · exact Or.inl ⟨rfl, by simp⟩
  · obtain ⟨saved, -, hs⟩ := eff hc
    rcases Approvals.save_cases hs with ⟨-, he⟩ | ⟨i, hg, hp, -, he⟩
    · exact Or.inl ⟨he, by simp⟩
    · exact Or.inr ⟨i, hg, hp, he, by simp⟩

end

/-! ## Computed runs -/

/-- The deployment in an environment that `ok` accepts. -/
def runtimePlayer (cfg : Config V) {allow : Allow cfg.sem.Ans Exn (World V)}
    (calls : Nat → Call V) {crash : Nat → Prop}
    (ok : Nat → World V → (o : Op V) → Act cfg.sem.Ans Exn o → Bool)
    (hok : ∀ t w o a, ok t w o a = true → allow t w o a) :
    Player (runtimeSys cfg allow calls crash) where
  spawn w t := if t ∈ w.started then none
    else some (taskOf cfg calls w t, { w with started := insert t w.started })
  enter := by
    intro w t p w' h
    split at h
    · cases h
    · rename_i ht; cases h; exact ⟨ht, rfl, rfl⟩
  ok := ok
  allow h := hok _ _ _ _ h

namespace Sample

/-- An agent with one tool that sends something. -/
def agent : AgentDefinition String :=
  { name := "agent", version := "1", defaultModel := { name := "model" }, enabledTools := {"send"} }

def request : RunRequest String :=
  { agent := "agent", input := "Hello", tenantId := "tenant", userId := "user" }

/-- The runtime with that tool. -/
def sendCfg : Config String where
  lib := .text
  tools := [{ name := "send", version := "1", description := "", inputSchema := []
              outputSchema := [] }]

def world : World String := { agents := [("agent@1", agent)] }

theorem world_fresh : Fresh world := ⟨rfl, rfl, rfl, rfl⟩

section
variable {cfg : Config String}

/-- Awaits in the obliging environment, but for the answers that a run turns on. -/
def uuidIs (id : String) : (o : Op String) → Act cfg.sem.Ans Exn o
  | .uuid => .done (Answer.ok id)
  | o => obliging o

def driverIs (d : Nat) : (o : Op String) → Act cfg.sem.Ans Exn o
  | .schedule .. => .done (Answer.ok d)
  | o => obliging o

def planIs (p : Plan String) : (o : Op String) → Act cfg.sem.Ans Exn o
  | .plan .. => .done (Answer.ok p)
  | o => obliging o

/-- `n` awaits of task `t` in the obliging environment. -/
def obliges (t n : Nat) : List (Move cfg.sem.Ans Exn) := List.replicate n (.run t obliging)

/-- Call `t` starts the run `run` with driver `d`. -/
def starts (t d : Nat) : List (Move cfg.sem.Ans Exn) :=
  .enter t :: obliges t 3 ++ [.run t (uuidIs "run"), .run t (uuidIs "session")] ++ obliges t 3 ++
    [.run t (driverIs d)]

end

end Sample

end TracciaRuntime
