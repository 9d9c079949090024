/-
  Traccia Runtime formalization — what the operations do.

  * `World.effect`: an operation completes for task `t`;
  * `Config.sem`: the semantics of the runtime's programs, with failures and
    cancellations;
  * the frame lemmas: which parts of the world an await can change.
-/
import TracciaRuntime.World
import Mathlib.Data.Finset.Erase
import Mathlib.Data.Finset.Dedup

namespace TracciaRuntime

open Py Async

variable {V : Type}

namespace World
variable (w : World V)

def updateProc (p : Nat) (f : Proc → Proc) : World V :=
  { w with procs := Function.update w.procs p (f (w.procs p)) }

/-- The driver of a run in process `p`, if it is not done. -/
def liveTask (p : Nat) (runId : String) : Option Nat :=
  ((w.procs p).tasks.get runId).filter fun d => d ∉ w.done

/-- `next_sequence` of the two event buses. -/
def nextSequence (kind : StoreKind) (runId : String) : Nat :=
  let sequences := (w.events.filter fun e => e.runId = runId).map (·.sequence)
  match kind with
  | .inMemory => sequences.head?.getD 0 + 1
  | .postgres => sequences.foldl max 0 + 1

/-- What is already the case when a handler is called, even if it raises. -/
def touch (t : Nat) : Op V → World V
  | .handler tool arguments context =>
    { w with invocations := ⟨t, tool, arguments, context, w.planned t⟩ :: w.invocations }
  | _ => w

/-- The operation completes for task `t`. -/
def effect (cfg : Config V) (t : Nat) : (o : Op V) → o.Choice →
    Option (Except Exn o.Resp × World V)
  | .runsCreate s, _ => some (match Runs.create cfg.runStore w.runs t s with
    | .ok runs => (.ok (), { w with runs := runs })
    | .error e => (.error e, w))
  | .runsGet id tenantId, _ => some (.ok (w.runs.find id tenantId), w)
  | .runsSave s expected, _ => some (match Runs.save cfg.runStore w.runs t s expected with
    | .ok runs => (.ok (), { w with runs := runs })
    | .error e => (.error e, w))
  | .runsListActive limit, _ => some (.ok (w.runs.listActive limit), w)
  | .utcNow, (now : Time) => if now < w.now then none else some (.ok now, { w with now := now })
  | .uuid, (id : String) =>
    if (w.issued.get id).isSome then none
    else some (.ok id, { w with issued := w.issued.set id t })
  | .agentsGet name version, _ => some (registryGet w.agents name version, w)
  | .agentsRegister d, _ => some (match registryRegister w.agents d with
    | .ok agents => (.ok (), { w with agents := agents })
    | .error e => (.error e, w))
  | .approvalsInsert r, _ => some (.ok (), { w with approvals := w.approvals.set r.id ⟨r, none⟩ })
  | .approvalsDecide id tenantId decision modified, (now : Time) =>
    if now < w.now then none
    else
      let x := w.approvals.decide t now id tenantId decision modified
      some (x.1, { w with now := now, approvals := x.2 })
  | .approvalsGet id tenantId, _ => some (.ok (w.approvals.find id tenantId), w)
  | .approvalsSave r expected, _ =>
    let x := w.approvals.save t r expected
    some (.ok x.1, { w with approvals := x.2 })
  | .nextSequence runId, _ => some (.ok (w.nextSequence cfg.eventBus runId), w)
  | .publish e, _ =>
    if cfg.eventBus = .postgres ∧ ∃ e' ∈ w.events, e'.runId = e.runId ∧ e'.sequence = e.sequence
    then some (.error (.other "UniqueViolationError"), w)
    else some (.ok (), { w with events := e :: w.events })
  | .auditAppend _, _ => some (.ok (), w)
  | .memoryAppend tenantId sessionId messages, _ =>
    let kept := (w.memory.get (tenantId, sessionId)).getD []
    some (.ok (), { w with memory := w.memory.set (tenantId, sessionId) (kept ++ messages) })
  | .policyEvaluate point payload context, (d : PolicyDecision V) =>
    some (.ok d, if point = .planTool then
        { w with planned := Function.update w.planned t (some ⟨payload, context, d⟩) }
      else w)
  | .buildContext .., x => some (.ok x, w)
  | .plan .., x => some (.ok x, w)
  | .verify .., x => some (.ok x, w)
  | .generate .., x => some (.ok x, w)
  | .streamOpen .., x => some (.ok x, w)
  | .streamNext, x => some (.ok x, w)
  | .handler tool arguments context, x => some (.ok x, w.touch t (.handler tool arguments context))
  | .compose .., _ => some (.ok (), w)
  | .sleep _, _ => some (.ok (), w)
  | .cacheGet _, x => some (.ok x, w)
  | .cacheSet .., _ => some (.ok (), w)
  | .inflightJoin key, _ =>
    match (w.procs (cfg.proc t)).inflight.get key with
    | some f => some (.ok (f, false), w)
    | none =>
      let f := w.futures.length
      let w := { w with futures := w.futures.set f none }
      some (.ok (f, true), w.updateProc (cfg.proc t) fun p => { p with
        inflight := p.inflight.set key f })
  | .futureWait f, _ => match w.futures.get f with
    | some (some x) => some (x, w)
    | _ => none
  | .futureSet f x, _ => match w.futures.get f with
    | some none => some (.ok (), { w with futures := w.futures.set f (some x) })
    | _ => some (.ok (), w)
  | .inflightPop key, _ => some (.ok (), w.updateProc (cfg.proc t) fun p => { p with
      inflight := p.inflight.erase key })
  | .toolBegin context toolName, _ =>
    let x := w.executions.beginMem t context toolName
    some (.ok x.1, { w with executions := x.2 })
  | .toolComplete key result, _ => some (match w.executions.updateMem key (·.complete result) with
    | .ok rows => (.ok (), { w with executions := rows })
    | .error e => (.error e, w))
  | .toolFail key error indeterminate, _ =>
    some (match w.executions.updateMem key (·.fail error indeterminate) with
    | .ok rows => (.ok (), { w with executions := rows })
    | .error e => (.error e, w))
  | .pgInsert record, _ =>
    let x := w.executions.insert t record
    some (.ok x.1, { w with executions := x.2 })
  | .pgSelect key tenantId, _ => some (.ok (w.executions.select key tenantId), w)
  | .pgRestart record key, _ =>
    let x := w.executions.restart t record key
    some (.ok x.1, { w with executions := x.2 })
  | .pgGet key, _ => some (.ok ((w.executions.get key).map (·.record)), w)
  | .pgUpdate record, _ => some (.ok (), { w with executions := w.executions.update record })
  | .acquire name maxConcurrency, _ =>
    let free := ((w.procs (cfg.proc t)).semaphores.get name).getD maxConcurrency
    if free = 0 then none
    else some (.ok (), w.updateProc (cfg.proc t) fun p => { p with
      semaphores := p.semaphores.set name (free - 1) })
  | .release name, _ => some (.ok (), w.updateProc (cfg.proc t) fun p => { p with
      semaphores := p.semaphores.set name ((p.semaphores.get name).getD 0 + 1) })
  | .acceptingRuns, _ => some (.ok (w.procs (cfg.proc t)).accepting, w)
  | .stopAccepting, _ =>
    some (.ok ((w.procs (cfg.proc t)).tasks.values.filter fun d => d ∉ w.done),
      w.updateProc (cfg.proc t) fun p => { p with accepting := false })
  | .shutdownCancellation, _ => some (.ok (w.procs (cfg.proc t)).shutdownCancellation, w)
  | .schedule runId tenantId, (d : Nat) =>
    match w.liveTask (cfg.proc t) runId with
    | some _ => some (.error (.conflict .alreadyExecuting), w)
    | none =>
      if d ∈ w.started ∨ (w.drivers.get d).isSome ∨ cfg.proc d ≠ cfg.proc t then none
      else
        let w := { w with drivers := w.drivers.set d ⟨runId, tenantId, t⟩ }
        some (.ok (), w.updateProc (cfg.proc t) fun p => { p with tasks := p.tasks.set runId d })
  | .taskLive runId, _ => some (.ok (w.liveTask (cfg.proc t) runId).isSome, w)
  | .driverOf runId, _ => some (match (w.procs (cfg.proc t)).tasks.get runId with
    | some d => .ok d
    | none => .error (.other "KeyError"), w)
  | .join d, (cancelled : Bool) =>
    if cancelled then
      some (.ok true, { w with cancelRequested := insert d w.cancelRequested })
    else if d ∈ w.done then some (.ok false, w) else none
  | .cancelTask runId, _ => some (.ok (), match w.liveTask (cfg.proc t) runId with
    | some d => { w with cancelRequested := insert d w.cancelRequested }
    | none => w)
  | .waitTasks tasks timeout, _ =>
    if timeout = true ∨ ∀ d ∈ tasks, d ∈ w.done then some (.ok (), w) else none
  | .cancelTasks tasks, _ =>
    let pending := tasks.filter fun d => d ∉ w.done
    let w := { w with cancelRequested := w.cancelRequested ∪ pending.toFinset }
    some (.ok pending, w.updateProc (cfg.proc t) fun p => { p with shutdownCancellation := true })
  | .spin, _ => none

/-- The world with other cancellation flags. -/
def flagged (C : Finset Nat) : World V := { w with cancelRequested := C }

/-- An exception strikes the suspended task `t`: a cancellation, requested for a
    driver by the runtime and for any other task by its caller, or the timer. -/
def interrupt (t : Nat) (timed : Bool) : Exn → Option (World V)
  | .cancelled =>
    if t ∈ w.cancelRequested then some { w with cancelRequested := w.cancelRequested.erase t }
    else if (w.drivers.get t).isSome then none else some w
  | .deadline => if timed then some w else none
  | _ => none

end World

/-- How an operation ends that is not interrupted: it completes, it fails, or it takes
    effect but the reply is lost. -/
inductive Answer (C : Type) where
  | ok (c : C)
  | error (e : Exn)
  | lost (e : Exn) (c : C)

/-- The semantics of the runtime's programs. -/
def Config.sem (cfg : Config V) : Sem (Op.Resp (V := V)) Exn (World V) where
  Ans o := Answer o.Choice
  eff t w o
    | .ok c => w.effect cfg t o c
    | .error e => if o.isLocal ∨ e = .deadline then none else some (.error e, w.touch t o)
    | .lost e c =>
      if o.isLocal ∨ e = .deadline then none
      else (w.effect cfg t o c).map fun x => (.error e, x.2)
  susp o := !o.isLocal
  intr t timed w := w.interrupt t timed

/-- The programs of the runtime. -/
abbrev Task (V α : Type) := Prog (Op.Resp (V := V)) Exn α

/-- `await` one operation. -/
abbrev await (o : Op V) : Task V o.Resp := Prog.call o

/-! ## What an await can change -/

namespace Op

def writesRuns : Op V → Bool
  | runsCreate _ | runsSave .. => true
  | _ => false

def writesApprovals : Op V → Bool
  | approvalsInsert _ | approvalsDecide .. | approvalsSave .. => true
  | _ => false

def writesExecutions : Op V → Bool
  | toolBegin .. | toolComplete .. | toolFail .. | pgInsert _ | pgRestart .. | pgUpdate _ => true
  | _ => false

def isHandler : Op V → Bool
  | handler .. => true
  | _ => false

def plansTool : Op V → Bool
  | policyEvaluate .planTool .. => true
  | _ => false

def isSchedule : Op V → Bool
  | schedule .. => true
  | _ => false

def isCancellation : Op V → Bool
  | cancelTask _ | cancelTasks _ | join _ => true
  | _ => false

def isRegister : Op V → Bool
  | agentsRegister _ => true
  | _ => false

def isPublish : Op V → Bool
  | publish _ => true
  | _ => false

end Op

/-- The parts of the world that operation `o` of task `t` leaves alone. -/
structure World.Frame (t : Nat) (o : Op V) (w w' : World V) : Prop where
  agents : o.isRegister = false → w'.agents = w.agents
  started : w'.started = w.started
  done : w'.done = w.done
  runs : o.writesRuns = false → w'.runs = w.runs
  approvals : o.writesApprovals = false → w'.approvals = w.approvals
  executions : o.writesExecutions = false → w'.executions = w.executions
  events : o.isPublish = false → w'.events = w.events
  invocations : o.isHandler = false → w'.invocations = w.invocations
  planned : o.plansTool = false → w'.planned = w.planned
  planned_other : ∀ t', t' ≠ t → w'.planned t' = w.planned t'
  drivers : o.isSchedule = false → w'.drivers = w.drivers
  tasks : o.isSchedule = false → ∀ p, (w'.procs p).tasks = (w.procs p).tasks
  issued : ∀ id u, w.issued.get id = some u → w'.issued.get id = some u
  issued_new : ∀ id u, w'.issued.get id = some u → w.issued.get id = some u ∨ u = t
  drivers_old : ∀ d x, w.drivers.get d = some x → w'.drivers.get d = some x
  drivers_new : ∀ d x, w'.drivers.get d = some x →
    w.drivers.get d = some x ∨ x.scheduler = t ∧ d ∉ w.started
  shutdown : o.isCancellation = false →
    ∀ p, (w'.procs p).shutdownCancellation = (w.procs p).shutdownCancellation

namespace World
variable {cfg : Config V} {t : Nat} {w w₁ w' : World V} {o : Op V}

theorem updateProc_tasks (p q : Nat) {f : Proc → Proc} (hf : ∀ x, (f x).tasks = x.tasks) :
    ((w.updateProc p f).procs q).tasks = (w.procs q).tasks := by
  unfold updateProc
  by_cases h : q = p
  · subst h; simp [hf]
  · simp [Function.update_of_ne h]

theorem updateProc_shutdown (p q : Nat) {f : Proc → Proc}
    (hf : ∀ x, (f x).shutdownCancellation = x.shutdownCancellation) :
    ((w.updateProc p f).procs q).shutdownCancellation = (w.procs q).shutdownCancellation := by
  unfold updateProc
  by_cases h : q = p
  · subst h; simp [hf]
  · simp [Function.update_of_ne h]

theorem Frame.refl : Frame t o w w := by
  constructor <;> intros <;> first | rfl | assumption | exact Or.inl ‹_›

theorem Frame.trans (h₁ : Frame t o w w₁) (h₂ : Frame t o w₁ w') : Frame t o w w' where
  agents h := (h₂.agents h).trans (h₁.agents h)
  started := h₂.started.trans h₁.started
  done := h₂.done.trans h₁.done
  runs h := (h₂.runs h).trans (h₁.runs h)
  approvals h := (h₂.approvals h).trans (h₁.approvals h)
  executions h := (h₂.executions h).trans (h₁.executions h)
  events h := (h₂.events h).trans (h₁.events h)
  invocations h := (h₂.invocations h).trans (h₁.invocations h)
  planned h := (h₂.planned h).trans (h₁.planned h)
  planned_other t' h := (h₂.planned_other t' h).trans (h₁.planned_other t' h)
  drivers h := (h₂.drivers h).trans (h₁.drivers h)
  tasks h p := (h₂.tasks h p).trans (h₁.tasks h p)
  issued id u h := h₂.issued id u (h₁.issued id u h)
  issued_new id u h := (h₂.issued_new id u h).elim (h₁.issued_new id u) Or.inr
  drivers_old d x h := h₂.drivers_old d x (h₁.drivers_old d x h)
  drivers_new d x h := by
    rcases h₂.drivers_new d x h with h | ⟨hs, hd⟩
    · exact h₁.drivers_new d x h
    · exact Or.inr ⟨hs, h₁.started ▸ hd⟩
  shutdown h p := (h₂.shutdown h p).trans (h₁.shutdown h p)

/-- The clock, the memory, the futures and the cancellation flags are in no frame. -/
theorem Frame.aside {now : Time} {memory : Dict (String × String) (List (Message V))}
    {futures : Dict Nat (Option (Except Exn V))} {C : Finset Nat} : Frame t o w
      { w with now := now, memory := memory, futures := futures, cancelRequested := C } :=
  { (Frame.refl : Frame t o w w) with }

theorem Frame.of_agents {agents : Dict String (AgentDefinition V)} (ho : o.isRegister = true) :
    Frame t o w { w with agents := agents } :=
  { (Frame.refl : Frame t o w w) with agents := fun h => by rw [ho] at h; cases h }

theorem Frame.of_runs {runs : Runs V} (ho : o.writesRuns = true) :
    Frame t o w { w with runs := runs } :=
  { (Frame.refl : Frame t o w w) with runs := fun h => by rw [ho] at h; cases h }

theorem Frame.of_approvals {now : Time} {approvals : Approvals V} (ho : o.writesApprovals = true) :
    Frame t o w { w with now := now, approvals := approvals } :=
  { (Frame.refl : Frame t o w w) with approvals := fun h => by rw [ho] at h; cases h }

theorem Frame.of_executions {executions : Executions V} (ho : o.writesExecutions = true) :
    Frame t o w { w with executions := executions } :=
  { (Frame.refl : Frame t o w w) with executions := fun h => by rw [ho] at h; cases h }

theorem Frame.of_events {events : List (RunEvent V)} (ho : o.isPublish = true) :
    Frame t o w { w with events := events } :=
  { (Frame.refl : Frame t o w w) with events := fun h => by rw [ho] at h; cases h }

theorem Frame.updateProc {p : Nat} {f : Proc → Proc} (h : Frame t o w w₁)
    (ht : ∀ x, (f x).tasks = x.tasks)
    (hs : o.isCancellation = false →
      ∀ x, (f x).shutdownCancellation = x.shutdownCancellation) :
    Frame t o w (w₁.updateProc p f) :=
  h.trans { (Frame.refl : Frame t o w₁ w₁) with
    tasks := fun _ q => updateProc_tasks p q ht
    shutdown := fun ho q => updateProc_shutdown p q (hs ho) }

theorem touch_frame : Frame t o w (w.touch t o) := by
  cases o with
  | handler tool arguments context =>
    constructor <;> intros <;> first | rfl | contradiction | assumption | exact Or.inl ‹_›
  | _ => exact Frame.refl

theorem effect_frame {c : o.Choice} {r : Except Exn o.Resp}
    (h : w.effect cfg t o c = some (r, w')) : Frame t o w w' := by
  cases o with
  | handler tool arguments context => cases h; exact touch_frame
  | policyEvaluate point payload context =>
    cases h
    by_cases hp : point = .planTool
    · subst hp
      refine { (Frame.refl : Frame t (.policyEvaluate .planTool payload context : Op V) w w) with
        planned := by intros; contradiction
        planned_other := fun t' ht => Function.update_of_ne ht _ _ }
    · simp only [hp, if_false]; exact Frame.refl
  | uuid =>
    simp only [effect] at h
    split at h <;> cases h
    rename_i hc
    refine { (Frame.refl : Frame t (.uuid : Op V) w w) with
      issued := fun id u hu => ?_, issued_new := fun id u hu => ?_ }
    · refine (Dict.get_set_ne ?_).trans hu
      rintro rfl; simp [hu] at hc
    · rw [Dict.get_set] at hu
      split at hu
      · cases hu; exact Or.inr rfl
      · exact Or.inl hu
  | schedule runId tenantId =>
    simp only [effect] at h
    (repeat' split at h) <;> cases h
    · exact Frame.refl
    · rename_i hd
      push Not at hd
      refine { (Frame.refl : Frame t (.schedule runId tenantId : Op V) w w) with
        drivers := by intros; contradiction, tasks := by intros; contradiction
        shutdown := fun _ p => updateProc_shutdown _ _ fun _ => rfl
        drivers_old := fun d' x hx => ?_, drivers_new := fun d' x hx => ?_ }
      · refine (Dict.get_set_ne ?_).trans hx
        rintro rfl; simp [hx] at hd
      · change (w.drivers.set c _).get d' = some x at hx
        rw [Dict.get_set] at hx
        split at hx
        · cases hx; subst_vars; exact Or.inr ⟨rfl, hd.1⟩
        · exact Or.inl hx
  | _ =>
    simp only [effect] at h
    (repeat' split at h) <;> cases h <;>
      first
        | exact Frame.aside
        | exact Frame.of_runs rfl
        | exact Frame.of_approvals rfl
        | exact Frame.of_executions rfl
        | exact Frame.aside.updateProc (fun _ => rfl) fun _ _ => rfl
        | exact Frame.aside.updateProc (fun _ => rfl) fun h => by cases h
        | exact Frame.of_agents rfl
        | exact Frame.of_events rfl

theorem effect_cancelRequested {c : o.Choice} {r : Except Exn o.Resp}
    (h : w.effect cfg t o c = some (r, w')) (ho : o.isCancellation = false) :
    w'.cancelRequested = w.cancelRequested := by
  cases o with
  | policyEvaluate point payload context => cases h; split <;> rfl
  | _ =>
    first
      | cases ho; done
      | simp only [effect] at h
        (repeat' split at h) <;> cases h <;> rfl

theorem interrupt_eq {timed : Bool} {e : Exn} (h : w.interrupt t timed e = some w₁) :
    ∃ C, w₁ = w.flagged C := by
  cases e <;> simp only [interrupt] at h <;> (repeat' split at h) <;> cases h <;> exact ⟨_, rfl⟩

theorem flagged_frame {C : Finset Nat} : Frame t o w (w.flagged C) := by
  constructor <;> intros <;> first | rfl | assumption | exact Or.inl ‹_›

theorem interrupt_frame {timed : Bool} {e : Exn} (h : w.interrupt t timed e = some w₁) :
    Frame t o w w₁ := by
  obtain ⟨C, rfl⟩ := interrupt_eq h
  exact flagged_frame

end World

section
variable {cfg : Config V} {t : Nat} {b : Bool} {w w' : World V} {o : Op V}
  {a : Act cfg.sem.Ans Exn o} {r : Except Exn o.Resp}

/-- **What one await of the runtime can do**, up to the cancellation flags `C`: the
    operation completes, or the task gets an exception while the operation took
    effect or not. -/
theorem Config.act_cases (h : cfg.sem.act t b w o a = some (r, w')) :
    ∃ C, (∃ c, (w.flagged C).effect cfg t o c = some (r, w')) ∨
      (∃ e, r = .error e ∧ o.isLocal = false ∧
        (w' = w.flagged C ∨
          w' = (w.flagged C).touch t o ∨
          ∃ c r', (w.flagged C).effect cfg t o c = some (r', w'))) := by
  have eff : ∀ {w₁ : World V} {r₁} {c : Answer o.Choice}, cfg.sem.eff t w₁ o c = some (r₁, w') →
      (∃ c, w₁.effect cfg t o c = some (r₁, w')) ∨
      (∃ e, r₁ = .error e ∧ o.isLocal = false ∧
        (w' = w₁.touch t o ∨ ∃ c r', w₁.effect cfg t o c = some (r', w'))) := by
    intro w₁ r₁ c hc
    cases c with
    | ok c => exact Or.inl ⟨c, hc⟩
    | error e =>
      simp only [Config.sem] at hc
      split at hc
      · cases hc
      · rename_i hl; push Not at hl
        cases hc; exact Or.inr ⟨e, rfl, by simpa using hl.1, Or.inl rfl⟩
    | lost e c =>
      simp only [Config.sem] at hc
      split at hc
      · cases hc
      · rename_i hl; push Not at hl
        rw [Option.map_eq_some_iff] at hc
        obtain ⟨⟨r', w''⟩, he, hx⟩ := hc
        cases hx
        exact Or.inr ⟨e, rfl, by simpa using hl.1, Or.inr ⟨c, r', he⟩⟩
  rcases Sem.act_cases _ h with ⟨c, rfl, hc⟩ | ⟨e, w₁, hs, hi, rfl, hw⟩
  · refine ⟨w.cancelRequested, ?_⟩
    rcases eff hc with ⟨c, hc⟩ | ⟨e, rfl, hl, hw⟩
    · exact Or.inl ⟨c, hc⟩
    · exact Or.inr ⟨e, rfl, hl, Or.inr hw⟩
  · obtain ⟨C, rfl⟩ := World.interrupt_eq hi
    have hl : o.isLocal = false := by simpa [Config.sem] using hs
    refine ⟨C, Or.inr ⟨e, rfl, hl, ?_⟩⟩
    rcases hw with rfl | ⟨c, r', hc⟩
    · exact Or.inl rfl
    · rcases eff hc with ⟨c, hc⟩ | ⟨_, _, _, hw⟩
      · exact Or.inr (Or.inr ⟨c, r', hc⟩)
      · exact Or.inr hw

/-- **Frame**: an await leaves alone what its operation leaves alone. -/
theorem Config.act_frame (h : cfg.sem.act t b w o a = some (r, w')) : World.Frame t o w w' := by
  obtain ⟨C, hc⟩ := Config.act_cases h
  have h₀ : World.Frame t o w (w.flagged C) := World.flagged_frame
  rcases hc with ⟨c, hc⟩ | ⟨e, -, -, rfl | rfl | ⟨c, r', hc⟩⟩
  · exact h₀.trans (World.effect_frame hc)
  · exact h₀
  · exact h₀.trans World.touch_frame
  · exact h₀.trans (World.effect_frame hc)

/-- Only a cancellation asks for one. -/
theorem Config.act_cancelRequested (h : cfg.sem.act t b w o a = some (r, w'))
    (ho : o.isCancellation = false) : w'.cancelRequested ⊆ w.cancelRequested := by
  have eff : ∀ {w₁ : World V} {c : Answer o.Choice} {r₁},
      cfg.sem.eff t w₁ o c = some (r₁, w') → w'.cancelRequested = w₁.cancelRequested := by
    intro w₁ c r₁ hc
    cases c with
    | ok c => exact World.effect_cancelRequested hc ho
    | error e =>
      simp only [Config.sem] at hc
      split at hc <;> cases hc
      cases o <;> rfl
    | lost e c =>
      simp only [Config.sem] at hc
      split at hc
      · cases hc
      · rw [Option.map_eq_some_iff] at hc
        obtain ⟨⟨r', w''⟩, he, hx⟩ := hc
        cases hx
        exact World.effect_cancelRequested he ho
  rcases Sem.act_cases _ h with ⟨c, rfl, hc⟩ | ⟨e, w₁, -, hi, rfl, hw⟩
  · rw [eff hc]
  · have hsub : w₁.cancelRequested ⊆ w.cancelRequested := by
      cases e <;> simp only [Config.sem, World.interrupt] at hi <;> (repeat' split at hi) <;>
        cases hi <;> first | exact Finset.erase_subset _ _ | exact Finset.Subset.refl _
    rcases hw with rfl | ⟨c, r', hc⟩
    · exact hsub
    · rw [eff hc]; exact hsub

/-- A handler is called once, with the task's last `plan_tool` check, or not at all. -/
theorem Config.act_handler {tool : String} {arguments : Dict String V} {context : ToolContext}
    {a : Act cfg.sem.Ans Exn (.handler tool arguments context)} {r : Except Exn V}
    (h : cfg.sem.act t b w (.handler tool arguments context) a = some (r, w')) :
    w'.invocations = w.invocations ∨
      w'.invocations = ⟨t, tool, arguments, context, w.planned t⟩ :: w.invocations := by
  obtain ⟨C, ⟨c, hc⟩ | ⟨e, -, -, rfl | rfl | ⟨c, r', hc⟩⟩⟩ := Config.act_cases h
  · cases hc; exact Or.inr rfl
  · exact Or.inl rfl
  · exact Or.inr rfl
  · cases hc; exact Or.inr rfl

/-- The operation completes, without failure or interruption. -/
def Completes (a : Act cfg.sem.Ans Exn o) : Prop := ∃ c : o.Choice, a = .done (Answer.ok c)

/-- The operation fails with an `Exception`, not with a cancellation. -/
def Fails (a : Act cfg.sem.Ans Exn o) : Prop :=
  ∃ e, e.isException = true ∧
    (a = .done (Answer.error e) ∨ ∃ c : o.Choice, a = .done (Answer.lost e c))

/-- The operation does not both take effect and raise. -/
def Clean (a : Act cfg.sem.Ans Exn o) : Prop :=
  (∀ e (c : Answer o.Choice), a ≠ .after e c) ∧ ∀ e (c : o.Choice), a ≠ .done (Answer.lost e c)

theorem Completes.clean (ha : Completes a) : Clean a := by
  obtain ⟨c, rfl⟩ := ha
  refine ⟨fun e c' h => ?_, fun e c' h => ?_⟩
  · cases h
  · injection h with h
    cases h

theorem Completes.act (ha : Completes a) (h : cfg.sem.act t b w o a = some (r, w')) :
    ∃ c, w.effect cfg t o c = some (r, w') := by
  obtain ⟨c, rfl⟩ := ha
  exact ⟨c, h⟩

theorem Fails.act (ha : Fails a) (h : cfg.sem.act t b w o a = some (r, w')) :
    ∃ e, e.isException = true ∧ r = .error e := by
  obtain ⟨e, he, rfl | ⟨c, rfl⟩⟩ := ha
  · simp only [Sem.act, Config.sem] at h
    split at h <;> cases h
    exact ⟨e, he, rfl⟩
  · simp only [Sem.act, Config.sem] at h
    split at h
    · cases h
    · rw [Option.map_eq_some_iff] at h
      obtain ⟨x, -, hx⟩ := h
      cases hx
      exact ⟨e, he, rfl⟩

theorem Clean.act (ha : Clean a) (h : cfg.sem.act t b w o a = some (r, w')) :
    (∃ c, w.effect cfg t o c = some (r, w')) ∨
      ∃ C e, r = .error e ∧ (w' = w.flagged C ∨
        w' = (w.flagged C).touch t o) := by
  cases a with
  | done c =>
    cases c with
    | ok c => exact Or.inl ⟨c, h⟩
    | error e =>
      simp only [Sem.act, Config.sem] at h
      split at h <;> cases h
      exact Or.inr ⟨w.cancelRequested, e, rfl, Or.inr rfl⟩
    | lost e c => exact absurd rfl (ha.2 e c)
  | before e =>
    simp only [Sem.act] at h
    split at h
    · rw [Option.map_eq_some_iff] at h
      obtain ⟨w₁, hi, hx⟩ := h
      cases hx
      obtain ⟨C, rfl⟩ := World.interrupt_eq hi
      exact Or.inr ⟨C, e, rfl, Or.inl rfl⟩
    · cases h
  | after e c => exact absurd rfl (ha.1 e c)

end

/-! ## An obliging environment -/

/-- Answers under which a tool call goes through. -/
def Op.oblige : (o : Op String) → o.Choice
  | .utcNow | .approvalsDecide .. => (0 : ℚ)
  | .uuid => "id"
  | .schedule .. => (0 : Nat)
  | .policyEvaluate .. =>
    { action := .allow, reasonCode := "policy.allowed", reason := "Allowed." }
  | .buildContext .. => ([], [])
  | .plan .. => { actions := [], decisionSummary := "" }
  | .verify .. => []
  | .generate .. => { id := "r", message := .text .assistant "", model := "m", provider := "p" }
  | .streamOpen .. => (0 : Nat)
  | .streamNext => {}
  | .handler .. => "\"done\""
  | .cacheGet _ => none
  | .join _ => false
  | .runsCreate _ | .runsGet .. | .runsSave .. | .runsListActive _ | .agentsGet .. | .agentsRegister _
  | .approvalsInsert _ | .approvalsGet .. | .approvalsSave .. | .nextSequence _ | .publish _
  | .auditAppend _ | .memoryAppend .. | .compose .. | .sleep _ | .cacheSet .. | .inflightJoin _ | .futureWait _
  | .futureSet .. | .inflightPop _ | .toolBegin .. | .toolComplete .. | .toolFail ..
  | .pgInsert _ | .pgSelect .. | .pgRestart .. | .pgGet _ | .pgUpdate _ | .acquire ..
  | .release _ | .acceptingRuns | .stopAccepting | .shutdownCancellation | .taskLive _ | .driverOf _
  | .cancelTask _ | .waitTasks .. | .cancelTasks _ | .spin => ()

/-- Every await ends with these answers. -/
def obliging {cfg : Config String} (o : Op String) : Act cfg.sem.Ans Exn o :=
  .done (Answer.ok o.oblige)

theorem obliging_completes {cfg : Config String} (o : Op String) :
    Completes (@obliging cfg o) := ⟨_, rfl⟩

end TracciaRuntime
