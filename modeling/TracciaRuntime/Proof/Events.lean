/-
  The events that end a run.

  A task may publish the end of a run only after it has itself persisted a
  terminal status of that run, and once for each such write (`notices`).  That
  every task does so is read off the programs; that two tasks cannot both do so
  for one run is the compare-and-swap of the run store: a terminal record is
  never replaced.

  * `task_abides`: every call and every driver follows the protocol;
  * `Announced`: the published ends, the persisted statuses and the tasks that
    still have an end to publish fit together;
  * `terminal_event_unique`: at most one end of a run is published, and it is the
    one that was persisted.
-/
import TracciaRuntime.Async.Follows
import TracciaRuntime.Proof.History
import TracciaRuntime.Proof.Steps

namespace TracciaRuntime

open Py Async AgentRuntime Prog

variable {V : Type}

/-! ## The protocol -/

/-- The event reports this status. -/
def EventBody.reports : EventBody V → RunStatus → Bool
  | runCompleted _, .completed => true
  | runFailed .., .failed => true
  | runFailed .., .timedOut => true
  | runCancelled, .cancelled => true
  | _, _ => false

theorem EventBody.reports_terminal {body : EventBody V} {a : RunStatus}
    (h : body.reports a = true) : a.isTerminal = true := by
  cases body <;> cases a <;> first | rfl | cases h

/-- The end of a run that the task has persisted and not yet published. -/
abbrev Notice := Option (String × RunStatus)

/-- **Persist, then publish**: the end of a run is published by the task that persisted it, at
    most once. -/
def notices : Protocol (Op.Resp (V := V)) Exn Notice where
  may g
    | .publish e => e.body.isTerminal = true → ∃ a, g = some (e.runId, a) ∧ e.body.reports a = true
    | _ => True
  next g
    | .runsSave s _, .ok _ => if s.status.isTerminal then some (s.id, s.status) else g
    | .publish e, _ => if e.body.isTerminal then none else g
    | _, _ => g

/-- An operation that is not the end of a run. -/
abbrev Silent (o : Op V) : Prop := ∀ g, notices.may g o

section
variable {α β : Type} {s : RunState V} {p : Task V α}

theorem silent_of_inner {o : Op V} (h : o.isInner = true) : Silent o := by
  intro g
  cases o with
  | publish e => intro he; rw [Op.isInner, he] at h; cases h
  | _ => trivial

theorem Inner.abides (h : Inner p) : p.Abides notices :=
  Abides.of_uses (h.mono fun _ => silent_of_inner)

theorem await_abides {o : Op V} (h : Silent o) : (await o).Abides notices :=
  Abides.of_uses (Uses.call h)

/-- After the write of a terminal status its end may be published. -/
theorem saveAs_abides {target : RunStatus} {k : RunState V → Task V β}
    (ht : target.isTerminal = true)
    (hk : ∀ s', s'.id = s.id → (k s').Follows notices (some (s'.id, target))) :
    (saveAs s target >>= k).Abides notices := by
  intro g
  refine ⟨trivial, fun r => ?_⟩
  cases r with
  | error e => trivial
  | ok now =>
    refine ⟨trivial, fun r => ?_⟩
    cases r with
    | error e => trivial
    | ok u =>
      have hg : notices.next g (.runsSave { s with status := target, updatedAt := now } s.version)
          (.ok u) = some (s.id, target) := if_pos ht
      exact hg ▸ hk _ rfl

theorem transition_abides {target : RunStatus} {k : RunState V → Task V β}
    (ht : target.isTerminal = true)
    (hk : ∀ s', s'.id = s.id → (k s').Follows notices (some (s'.id, target))) :
    (transition s target >>= k).Abides notices := by
  unfold transition
  rw [Prog.bind_assoc]
  exact Abides.bind (Inner.abides (Uses.lift _)) fun _ => saveAs_abides ht hk

theorem emit_follows {body : EventBody V} {stepId : Option String} {a : RunStatus}
    (h : body.reports a = true) : (emit s body stepId).Follows notices (some (s.id, a)) := by
  refine ⟨trivial, fun r => ?_⟩
  cases r with
  | error e => trivial
  | ok n =>
    refine ⟨fun _ => ⟨a, rfl, h⟩, fun r => ?_⟩
    cases r <;> trivial

/-- The event, and what follows it. -/
theorem emit_then {body : EventBody V} {stepId : Option String} {a : RunStatus} {x : β}
    (h : body.reports a = true) :
    (do emit s body stepId; Pure.pure x : Task V β).Follows notices (some (s.id, a)) :=
  (emit_follows h).bind fun _ => Inner.abides (Uses.pure _)

end

/-! ## The programs follow it -/

section
variable {cfg : Config V} {s : RunState V} {agent : AgentDefinition V} {runId tenantId : String}

theorem compose_abides {stepId : String} : (compose cfg s agent stepId).Abides notices := by
  refine Abides.bind policyValue_inner.abides fun checked =>
    Abides.bind transition_inner.abides fun s₁ => Abides.bind writeMemory_inner.abides fun _ => ?_
  exact transition_abides rfl fun _ _ => emit_then rfl

theorem verifyAndComplete_abides {stepId : String} :
    (verifyAndComplete cfg s agent stepId).Abides notices := by
  refine Abides.bind transition_inner.abides fun s₁ =>
    Abides.bind (await_abides fun _ => trivial) fun results =>
      Abides.bind (emit_inner rfl).abides fun _ => ?_
  split
  · exact compose_abides
  · split
    · exact repair_inner.abides
    · exact Inner.abides (Uses.throw _)

theorem executeAction_abides {action : PlannedAction V} :
    (executeAction cfg s agent action).Abides notices := by
  unfold executeAction
  cases action.type with
  | clarify =>
    exact Inner.abides (Uses.bind transition_inner fun _ =>
      Uses.bind (emit_inner rfl) fun _ => Uses.pure _)
  | tool => exact executeTool_inner.abides
  | model => exact executeModel_inner.abides
  | complete => exact verifyAndComplete_abides
  | fail => exact transition_abides rfl fun _ _ => emit_then rfl
  | approve => exact Inner.abides (Uses.throw _)

theorem planStep_abides : (planStep cfg s agent).Abides notices := by
  refine Abides.bind (Inner.abides (Uses.raiseIf _ _)) fun _ => Abides.bind ?_ fun plan => ?_
  · exact Abides.of_uses (Uses.call fun _ => trivial)
  · cases plan.actions with
    | nil => exact Inner.abides (Uses.throw _)
    | cons action rest => exact Abides.bind (emit_inner rfl).abides fun _ => executeAction_abides

theorem retrieve_abides : (retrieve cfg s agent).Abides notices :=
  Abides.bind policyValue_inner.abides fun _ => Abides.bind (Inner.abides (Uses.raiseIf _ _)) fun _ =>
    Abides.bind (await_abides fun _ => trivial) fun _ => Abides.bind policyValue_inner.abides fun _ =>
      Abides.bind (emit_inner rfl).abides fun _ => transition_inner.abides

theorem loop_abides {fuel : Nat} : (loop cfg agent fuel s).Abides notices := by
  have spins : ∀ s : RunState V, (do await .spin; Pure.pure s : Task V _).Abides notices := fun s =>
    Abides.of_uses (Uses.bind (Uses.call fun _ => trivial) fun _ => Uses.pure _)
  induction fuel generalizing s with
  | zero =>
    unfold loop
    split
    · exact Inner.abides (Uses.pure _)
    · refine Abides.bind (Inner.abides (Uses.raiseIf _ _)) fun _ =>
        Abides.bind (Inner.abides (Uses.lift _)) fun _ => ?_
      have next : ∀ s : RunState V, (if s.status = .planning then do await .spin; Pure.pure s
          else do await .spin; Pure.pure s : Task V _).Abides notices := by
        intro s
        split <;> exact spins s
      dsimp only
      split
      · exact Abides.bind retrieve_abides next
      · exact next s
  | succ fuel ih =>
    unfold loop
    split
    · exact Inner.abides (Uses.pure _)
    · refine Abides.bind (Inner.abides (Uses.raiseIf _ _)) fun _ =>
        Abides.bind (Inner.abides (Uses.lift _)) fun _ => ?_
      have next : ∀ s : RunState V, (if s.status = .planning then do
            let s ← planStep cfg s agent
            loop cfg agent fuel s
          else do await .spin; Pure.pure s : Task V _).Abides notices := by
        intro s
        split
        · exact Abides.bind planStep_abides fun _ => ih
        · exact spins s
      dsimp only
      split
      · exact Abides.bind retrieve_abides next
      · exact next s

theorem execute_abides : (execute cfg s agent).Abides notices := by
  unfold execute
  split
  · exact Abides.bind receive_inner.abides fun _ => loop_abides
  · exact loop_abides

theorem timedOut_abides : (timedOut runId tenantId : Task V Unit).Abides notices := by
  refine Abides.bind requireState_inner.abides fun s => ?_
  split
  · exact Inner.abides (Uses.pure _)
  · exact transition_abides rfl fun _ _ => emit_follows rfl

theorem failed_abides {e : Exn} : (failed runId tenantId e : Task V Unit).Abides notices := by
  refine Abides.bind requireState_inner.abides fun s => ?_
  split
  · exact Inner.abides (Uses.pure _)
  · exact transition_abides rfl fun _ _ => emit_follows rfl

theorem cancelled_abides : (cancelled runId tenantId : Task V Unit).Abides notices := by
  refine Abides.bind requireState_inner.abides fun s => ?_
  split
  · exact Inner.abides (Uses.pure _)
  · refine Abides.bind (Inner.abides (Uses.call rfl)) fun shutdown => ?_
    split
    · exact Inner.abides (Uses.bind saveAs_inner fun _ => Uses.pure _)
    · exact transition_abides rfl fun _ _ => emit_follows rfl

theorem driveObserved_abides : (driveObserved cfg runId tenantId s agent).Abides notices := by
  have timed : (executeTimed cfg s agent).Abides notices := by
    refine Abides.bind (Inner.abides remainingSeconds_inner) fun remaining => ?_
    cases remaining with
    | none => exact Abides.bind execute_abides fun _ => Inner.abides (Uses.pure _)
    | some _ =>
      refine Abides.bind (Abides.handle (fun g => (execute_abides g).timed) fun e => ?_)
        fun _ => Inner.abides (Uses.pure _)
      exact Inner.abides (Uses.throw _)
  refine Abides.handle timed fun e => ?_
  cases e with
  | timeoutError => exact timedOut_abides
  | cancelled => exact cancelled_abides
  | deadline => exact cancelled_abides
  | _ => exact failed_abides

theorem drive_abides : (drive cfg runId tenantId).Abides notices :=
  Abides.bind requireState_inner.abides fun _ => Abides.bind (await_abides fun _ => trivial) fun _ =>
    Abides.bind driveObserved_abides fun _ =>
      Abides.bind requireState_inner.abides fun _ => Inner.abides (Uses.pure _)

/-! ## The calls -/

theorem start_silent {request : RunRequest V} : (start request).Uses Silent :=
  Uses.bind (Uses.call fun _ => trivial) fun _ => Uses.bind (Uses.raiseIf _ _) fun _ =>
    Uses.bind (Uses.call fun _ => trivial) fun _ => Uses.bind (Uses.call fun _ => trivial) fun _ =>
      Uses.bind (Uses.call fun _ => trivial) fun _ => Uses.bind (Uses.call fun _ => trivial) fun _ =>
        Uses.bind (Uses.call fun _ => trivial) fun _ =>
          Uses.bind ((emit_inner rfl).mono fun _ => silent_of_inner) fun _ =>
            Uses.bind (Uses.call fun _ => trivial) fun _ => Uses.pure _

theorem run_silent {request : RunRequest V} : (AgentRuntime.run cfg request).Uses Silent :=
  run_uses start_silent (fun _ _ => trivial) (fun _ _ => trivial) (fun _ _ _ => trivial) fun _ _ =>
    Uses.bind (requireState_inner.mono fun _ => silent_of_inner) fun _ =>
      Uses.bind (Uses.call fun _ => trivial) fun _ =>
        Uses.bind (Uses.raiseIf _ _) fun _ => Uses.call fun _ => trivial

theorem cancel_abides : (cancel runId tenantId : Task V (RunState V)).Abides notices := by
  refine Abides.bind requireState_inner.abides fun s => ?_
  split
  · exact Inner.abides (Uses.pure _)
  · exact Abides.bind (Inner.abides (Uses.call rfl)) fun _ =>
      transition_abides rfl fun _ _ => emit_then rfl

theorem schedule_abides {α : Type} {x : α} :
    (do await (.schedule runId tenantId); Pure.pure x : Task V α).Abides notices :=
  Inner.abides (Uses.bind (Uses.call rfl) fun _ => Uses.pure _)

theorem resume_abides {payload : ResumePayload V} :
    (resume cfg runId tenantId payload).Abides notices := by
  refine Abides.bind requireState_inner.abides fun s => ?_
  split
  · refine Abides.bind (Inner.abides ?_) fun _ => schedule_abides
    exact Uses.bind (Uses.raiseIf _ _) fun _ => transition_inner
  · refine Abides.bind (Inner.abides (Uses.lift _)) fun decision =>
      Abides.bind (Inner.abides (decide_uses.mono fun o ho => ?_)) fun approval => ?_
    · cases o <;> first | rfl | cases ho
    · split
      · exact transition_abides rfl fun _ _ => emit_then rfl
      · exact Abides.bind transition_inner.abides fun _ => schedule_abides
  · exact Inner.abides (Uses.throw _)

theorem recoverRun_abides : (recoverRun s).Abides notices := by
  have rest : ∀ overdue : Bool, (if overdue = true then do
        let s ← saveAs { s with error := some "Run deadline elapsed before recovery." } .timedOut
        emit s (.runFailed (some "timeout_during_recovery") none) none
        Pure.pure false
      else do
        let s ← if s.status.recoveryStatus = s.status then Pure.pure s
          else saveAs s s.status.recoveryStatus
        await (.schedule s.id s.request.tenantId)
        Pure.pure true : Task V Bool).Abides notices := by
    intro overdue
    split
    · exact saveAs_abides rfl fun _ _ => emit_then rfl
    · dsimp only
      split
      · exact schedule_abides
      · exact Abides.bind saveAs_inner.abides fun _ => schedule_abides
  refine Abides.bind (Inner.abides (Uses.call rfl)) fun live => ?_
  split
  · exact Inner.abides (Uses.pure _)
  · dsimp only
    split
    · exact rest false
    · exact Abides.bind (Inner.abides (Uses.call rfl)) fun now => rest _

theorem recoverAll_abides {l : List (RunState V)} {n : Nat} :
    (recoverAll l n).Abides notices := by
  induction l generalizing n with
  | nil => exact Inner.abides (Uses.pure _)
  | cons s l ih => exact Abides.bind recoverRun_abides fun _ => ih

theorem shutdown_inner : Inner (AgentRuntime.shutdown : Task V Unit) := by
  refine Uses.bind (Uses.call rfl) fun tasks => ?_
  split
  · exact Uses.pure _
  · refine Uses.bind (Uses.call rfl) fun _ => Uses.bind (Uses.call rfl) fun pending => ?_
    split
    · exact Uses.pure _
    · exact Uses.call rfl

/-- **Every task of the deployment follows the protocol.** -/
theorem task_abides {calls : Nat → Call V} {w : World V} {t : Nat} :
    (taskOf cfg calls w t).Abides notices := by
  have dropped : ∀ {α : Type} {p : Task V α}, p.Abides notices →
      (do let _ ← p; Pure.pure () : Task V Unit).Abides notices :=
    fun hp => Abides.bind hp fun _ => Inner.abides (Uses.pure _)
  unfold taskOf
  split
  · exact drive_abides
  · cases calls t with
    | start request => exact dropped (Abides.of_uses start_silent)
    | run request => exact Abides.of_uses run_silent
    | cancel runId tenantId => exact dropped cancel_abides
    | resume runId tenantId payload => exact dropped resume_abides
    | recover limit =>
      exact dropped (Abides.bind (Inner.abides (Uses.call rfl)) fun _ => recoverAll_abides)
    | shutdown => exact shutdown_inner.abides
    | register definition => exact await_abides fun _ => trivial

end

/-! ## The events and the records -/

/-- The ends of run `id` among the events. -/
def ends (id : String) (events : List (RunEvent V)) : List (RunEvent V) :=
  events.filter fun e => e.runId = id && e.body.isTerminal

theorem mem_ends {id : String} {e : RunEvent V} {events : List (RunEvent V)} :
    e ∈ ends id events ↔ e ∈ events ∧ e.runId = id ∧ e.body.isTerminal = true := by
  simp [ends]

/-- The persisted status of run `id` is `a`. -/
def World.Persisted (w : World V) (id : String) (a : RunStatus) : Prop :=
  ∃ h, w.runs.get id = some h ∧ h.current.state.status = a

/-- The events, the records and the ends that are still to be published fit together. -/
structure Announced (w : World V) (g : Nat → Notice) : Prop where
  events : ∀ id, ∀ e ∈ ends id w.events, ∃ a, w.Persisted id a ∧ e.body.reports a = true
  once : ∀ id, (ends id w.events).length ≤ 1
  notice : ∀ t id a, g t = some (id, a) → w.Persisted id a ∧ a.isTerminal = true ∧
    ends id w.events = []
  unique : ∀ t t' id a a', g t = some (id, a) → g t' = some (id, a') → t = t'

section
variable {cfg : Config V} {t : Nat} {b : Bool} {w w' : World V} {g : Nat → Notice}

theorem World.Persisted.kept {id : String} {a : RunStatus} (h : w.Persisted id a)
    (ha : a.isTerminal = true) (hg : Grows w.runs w'.runs) (hv : InOrder w'.runs) :
    w'.Persisted id a := by
  obtain ⟨h₀, hget, rfl⟩ := h
  exact ⟨h₀, hg.terminal hv hget ha, rfl⟩

/-- A task gives up its notice, or keeps it. -/
theorem Announced.drop {x : Notice} (h : Announced w g) (hx : ∀ y, x = some y → g t = some y) :
    Announced w (Function.update g t x) := by
  have old : ∀ {t' y}, Function.update g t x t' = some y → g t' = some y := by
    intro t' y hy
    by_cases ht : t' = t
    · subst ht; rw [Function.update_self] at hy; exact hx y hy
    · rwa [Function.update_of_ne ht] at hy
  exact ⟨h.events, h.once, fun t' id a hy => h.notice t' id a (old hy),
    fun t₁ t₂ id a a' h₁ h₂ => h.unique t₁ t₂ id a a' (old h₁) (old h₂)⟩

/-- The records go on, and nothing is published. -/
theorem Announced.kept (h : Announced w g) (hg : Grows w.runs w'.runs) (hv : InOrder w'.runs)
    (he : w'.events = w.events) : Announced w' g := by
  refine ⟨fun id e hm => ?_, fun id => he ▸ h.once id, fun t id a hy => ?_, h.unique⟩
  · rw [he] at hm
    obtain ⟨a, hp, hr⟩ := h.events id e hm
    exact ⟨a, hp.kept (EventBody.reports_terminal hr) hg hv, hr⟩
  · obtain ⟨hp, ha, hn⟩ := h.notice t id a hy
    exact ⟨hp.kept ha hg hv, ha, by rw [he]; exact hn⟩

theorem Announced.of_eq (h : Announced w g) (hr : w'.runs = w.runs) (he : w'.events = w.events) :
    Announced w' g := by
  have hp : ∀ id a, w'.Persisted id a ↔ w.Persisted id a := by
    intro id a; unfold World.Persisted; rw [hr]
  refine ⟨fun id e hm => ?_, fun id => he ▸ h.once id, fun t id a hy => ?_, h.unique⟩
  · rw [he] at hm
    simpa only [hp] using h.events id e hm
  · rw [he, hp]; exact h.notice t id a hy

/-- The end of a run that was persisted last is not published, and nobody else is to. -/
theorem Announced.fresh {id : String} {a : RunStatus} (h : Announced w g)
    (hp : w.Persisted id a) (ha : a.isTerminal = false) :
    ends id w.events = [] ∧ ∀ t a', g t ≠ some (id, a') := by
  have other : ∀ a', w.Persisted id a' → a'.isTerminal = false := by
    rintro a' ⟨h', hget', rfl⟩
    obtain ⟨h₀, hget, rfl⟩ := hp
    rw [hget] at hget'; cases hget'
    exact ha
  refine ⟨List.eq_nil_iff_forall_not_mem.2 fun e he => ?_, fun t a' hg => ?_⟩
  · obtain ⟨a', hp', hr⟩ := h.events id e he
    exact absurd (EventBody.reports_terminal hr) (by rw [other a' hp']; decide)
  · obtain ⟨hp', ha', -⟩ := h.notice t id a' hg
    rw [other a' hp'] at ha'; cases ha'

/-- An event is published or it is not. -/
theorem act_publish {e : RunEvent V} {a : Act cfg.sem.Ans Exn (.publish e)} {r : Except Exn Unit}
    (h : cfg.sem.act t b w (.publish e) a = some (r, w')) :
    w'.events = w.events ∨ w'.events = e :: w.events := by
  have eff : ∀ {C : Finset Nat} {c} {r' : Except Exn Unit},
      (w.flagged C).effect cfg t (.publish e) c = some (r', w') →
      w'.events = w.events ∨ w'.events = e :: w.events := by
    intro C c r' hc
    simp only [World.effect] at hc
    split at hc <;> cases hc
    · exact Or.inl rfl
    · exact Or.inr rfl
  obtain ⟨C, ⟨c, hc⟩ | ⟨e', -, -, rfl | rfl | ⟨c, r', hc⟩⟩⟩ := Config.act_cases h
  · exact eff hc
  · exact Or.inl rfl
  · exact Or.inl rfl
  · exact eff hc

theorem ends_cons {id : String} {e : RunEvent V} {events : List (RunEvent V)} :
    ends id (e :: events) =
      if e.runId = id ∧ e.body.isTerminal = true then e :: ends id events else ends id events := by
  simp [ends, List.filter_cons]

/-- An event that ends no run. -/
theorem Announced.publish_other {e : RunEvent V} (h : Announced w g)
    (he : e.body.isTerminal = false) (hr : w'.runs = w.runs) (hw : w'.events = e :: w.events) :
    Announced w' g := by
  have hends : ∀ id, ends id w'.events = ends id w.events := by
    intro id
    rw [hw, ends_cons, if_neg (by rw [he]; simp)]
  have hp : ∀ id a, w'.Persisted id a ↔ w.Persisted id a := by
    intro id a; unfold World.Persisted; rw [hr]
  refine ⟨fun id e' hm => ?_, fun id => ?_, fun t id a hy => ?_, h.unique⟩
  · rw [hends] at hm
    simpa only [hp] using h.events id e' hm
  · rw [hends]; exact h.once id
  · rw [hends, hp]; exact h.notice t id a hy

/-- The task publishes the end that it has persisted. -/
theorem Announced.publish {e : RunEvent V} {a : RunStatus} (h : Announced w g)
    (hg : g t = some (e.runId, a)) (hrep : e.body.reports a = true) (hr : w'.runs = w.runs)
    (hw : w'.events = e :: w.events) : Announced w' (Function.update g t none) := by
  obtain ⟨hp, -, hnil⟩ := h.notice t e.runId a hg
  have hpers : ∀ id a, w.Persisted id a → w'.Persisted id a := by
    intro id a h; unfold World.Persisted; rw [hr]; exact h
  -- what the other tasks hold is for other runs
  have other : ∀ {t' id a'}, Function.update g t none t' = some (id, a') →
      g t' = some (id, a') ∧ e.runId ≠ id := by
    intro t' id a' hy
    have ht : t' ≠ t := by rintro rfl; rw [Function.update_self] at hy; cases hy
    rw [Function.update_of_ne ht] at hy
    refine ⟨hy, ?_⟩
    rintro rfl
    exact ht (h.unique t' t _ _ _ hy hg)
  refine ⟨fun id e' hm => ?_, fun id => ?_, fun t' id a' hy => ?_, fun t₁ t₂ id a₁ a₂ h₁ h₂ => ?_⟩
  · rw [hw, ends_cons] at hm
    split at hm
    · rename_i hid
      rcases List.mem_cons.1 hm with rfl | hm
      · exact ⟨a, hid.1 ▸ hpers _ _ hp, hrep⟩
      · rw [← hid.1, hnil] at hm; cases hm
    · obtain ⟨a', hp', hr'⟩ := h.events id e' hm
      exact ⟨a', hpers _ _ hp', hr'⟩
  · rw [hw, ends_cons]
    split
    · rename_i hid
      rw [← hid.1, hnil]; exact Nat.le_refl 1
    · exact h.once id
  · obtain ⟨hy, hne⟩ := other hy
    obtain ⟨hp', ha', hn'⟩ := h.notice t' id a' hy
    refine ⟨hpers _ _ hp', ha', ?_⟩
    rw [hw, ends_cons, if_neg fun hid => hne hid.1]
    exact hn'
  · exact h.unique t₁ t₂ id a₁ a₂ (other h₁).1 (other h₂).1

/-- The task persists the end of a run. -/
theorem Announced.save {s : RunState V} {v : Nat} (h : Announced w g) (hv : InOrder w'.runs)
    (hs : s.status.isTerminal = true) (hsave : Runs.save cfg.runStore w.runs t s v = .ok w'.runs)
    (hg : Grows w.runs w'.runs) (he : w'.events = w.events) :
    Announced w' (Function.update g t (some (s.id, s.status))) := by
  obtain ⟨h₀, hget, hver, hruns⟩ := Runs.save_ok hsave
  have hget' : w'.runs.get s.id = some (h₀.push ⟨t, { s with version := v + 1 }⟩) := by
    rw [hruns]; exact Dict.get_set_self _ _ _
  -- the record that was replaced is not terminal
  have hactive : h₀.current.state.status.isTerminal = false := by
    have hlegal := hv.legal _ _ hget'
    cases hlegal with
    | saved _ hsucc => exact hsucc.active
  obtain ⟨hnil, hnone⟩ := h.fresh ⟨h₀, hget, rfl⟩ hactive
  have hkept := h.kept hg hv he
  refine ⟨hkept.events, hkept.once, fun t' id a hy => ?_, fun t₁ t₂ id a₁ a₂ h₁ h₂ => ?_⟩
  · by_cases ht : t' = t
    · subst ht
      rw [Function.update_self] at hy
      cases hy
      exact ⟨⟨_, hget', rfl⟩, hs, by rw [he]; exact hnil⟩
    · rw [Function.update_of_ne ht] at hy
      exact hkept.notice t' id a hy
  · by_cases ht₁ : t₁ = t <;> by_cases ht₂ : t₂ = t
    · rw [ht₁, ht₂]
    · subst ht₁
      rw [Function.update_self] at h₁
      rw [Function.update_of_ne ht₂] at h₂
      cases h₁
      exact absurd h₂ (hnone t₂ a₂)
    · subst ht₂
      rw [Function.update_of_ne ht₁] at h₁
      rw [Function.update_self] at h₂
      cases h₂
      exact absurd h₁ (hnone t₁ a₁)
    · rw [Function.update_of_ne ht₁] at h₁
      rw [Function.update_of_ne ht₂] at h₂
      exact h.unique t₁ t₂ id a₁ a₂ h₁ h₂

/-- **An await that follows the protocol keeps the invariant.** -/
theorem Announced.act {o : Op V} {a : Act cfg.sem.Ans Exn o} {r : Except Exn o.Resp}
    (h : Announced w g) (hv' : InOrder w'.runs) (hmay : notices.may (g t) o)
    (hact : cfg.sem.act t b w o a = some (r, w')) :
    Announced w' (Function.update g t (notices.next (g t) o r)) := by
  have hf := Config.act_frame hact
  have hg := act_grows hact
  have quiet : o.isPublish = false → Announced w' (Function.update g t (g t)) := fun ho =>
    (h.kept hg hv' (hf.events ho)).drop fun _ hy => hy
  cases o with
  | publish e =>
    have hr := hf.runs rfl
    cases hb : e.body.isTerminal with
    | false =>
      have hnext : notices.next (g t) (.publish e) r = g t := if_neg (by rw [hb]; decide)
      rw [hnext]
      rcases act_publish hact with he | he
      · exact (h.kept hg hv' he).drop fun _ hy => hy
      · exact (h.publish_other hb hr he).drop fun _ hy => hy
    | true =>
      have hnext : notices.next (g t) (.publish e) r = none := if_pos hb
      rw [hnext]
      obtain ⟨st, hgt, hrep⟩ := hmay hb
      rcases act_publish hact with he | he
      · exact (h.kept hg hv' he).drop fun _ hy => by cases hy
      · exact h.publish hgt hrep hr he
  | runsSave s v =>
    cases r with
    | error e => exact quiet rfl
    | ok u =>
      cases hs : s.status.isTerminal with
      | false =>
        have hnext : notices.next (g t) (.runsSave s v) (.ok u) = g t := if_neg (by rw [hs]; decide)
        rw [hnext]
        exact quiet rfl
      | true =>
        have hnext : notices.next (g t) (.runsSave s v) (.ok u) = some (s.id, s.status) := if_pos hs
        rw [hnext]
        rcases act_runsSave hact with ⟨-, e, he⟩ | hsave
        · cases he
        · exact h.save hv' hs hsave hg (hf.events rfl)
  | _ => exact quiet rfl

end

/-! ## The theorem -/

theorem notices_conform (cfg : Config V) (calls : Nat → Call V) :
    (anyTasks cfg calls).Conforms histories notices (Follows notices) Announced where
  await _ _ _ _ h := h
  enter := by
    rintro w g t p w' h ⟨-, rfl, rfl⟩
    have hw : Announced { w with started := insert t w.started } g := h.of_eq rfl rfl
    exact ⟨none, hw.drop nofun, task_abides none⟩
  run w g t b o a r w' _ hv' h hmay _ hact := h.act hv' hmay hact
  fin w g t p z h _ _ := by
    have hw : Announced { w with done := insert t w.done } g := h.of_eq rfl rfl
    exact ⟨none, hw.drop nofun⟩
  kill := by
    rintro w g t p w' h - ⟨-, rfl⟩
    have hw : Announced { w with done := insert t w.done } g := h.of_eq rfl rfl
    exact ⟨none, hw.drop nofun⟩

/-- **Terminal event uniqueness**: whatever the calls and drivers of a deployment do, are struck by
    and crash at, at most one event that ends a run is published, and it reports the persisted
    terminal status. -/
theorem terminal_event_unique (cfg : Config V) (calls : Nat → Call V) (w₀ : World V)
    (h₀ : Fresh w₀) (he₀ : w₀.events = []) (P : Pool (Op.Resp (V := V)) Exn (World V) Unit)
    (hP : (anyTasks cfg calls).Reach (freshPool w₀) P) (id : String) :
    (P.world.events.filter fun e => e.runId = id && e.body.isTerminal).length ≤ 1 ∧
    ∀ e ∈ P.world.events, e.runId = id → e.body.isTerminal = true →
      ∃ h, P.world.runs.get id = some h ∧ e.body.reports h.current.state.status = true := by
  have hstart : Announced w₀ fun _ => none := by
    refine ⟨fun id e he => ?_, fun id => ?_, nofun, nofun⟩
    · rw [he₀] at he; cases he
    · rw [he₀]; exact Nat.zero_le 1
  obtain ⟨g, hg, -⟩ := Sys.follows_reach (histories_respects cfg calls) (notices_conform cfg calls)
    (fresh_safe h₀) ⟨_, hstart, fun _ _ hp => by cases hp⟩ hP
  refine ⟨hg.once id, fun e he hid ht => ?_⟩
  obtain ⟨a, ⟨h, hget, rfl⟩, hr⟩ := hg.events id e (mem_ends.2 ⟨he, hid, ht⟩)
  exact ⟨h, hget, hr⟩

/-- A run that is cancelled before its driver gets to it: the driver publishes nothing. -/
theorem terminal_event_cancelled :
    ∃ P h e, (anyTasks { lib := .text } Sample.startAndCancel).Reach (freshPool Sample.world) P ∧
      1 ∈ P.world.done ∧ P.world.runs.get "run" = some h ∧
      h.current.state.status = .cancelled ∧
      (P.world.events.filter fun e => e.runId = "run" && e.body.isTerminal) = [e] ∧
      e.body = .runCancelled := by
  let y : Player (anyTasks { lib := .text } Sample.startAndCancel) :=
    runtimePlayer _ _ (fun _ _ _ _ => true) fun _ _ _ _ _ => trivial
  have hplay : (y.play (Sample.starts 0 1 ++ .enter 2 :: Sample.obliges 2 6 ++
      .enter 1 :: Sample.obliges 1 4) (freshPool Sample.world)).map (fun P =>
        ((P.world.events.filter fun e => e.runId = "run" && e.body.isTerminal).map (·.body),
          decide (1 ∈ P.world.done))) = some ([.runCancelled], true) := by decide +kernel
  obtain ⟨P, hP, hx⟩ := Player.exists_reach hplay
  simp only [Prod.mk.injEq, decide_eq_true_eq] at hx
  obtain ⟨he, hdone⟩ := hx
  obtain ⟨-, hrep⟩ := terminal_event_unique _ _ _ Sample.world_fresh rfl P hP "run"
  rw [List.map_eq_singleton_iff] at he
  obtain ⟨e, hfilter, hbody⟩ := he
  have hm : e ∈ P.world.events.filter fun e => e.runId = "run" && e.body.isTerminal := by
    rw [hfilter]; exact List.mem_singleton.2 rfl
  obtain ⟨hev, hid, ht⟩ := mem_ends.1 hm
  obtain ⟨h, hget, hstatus⟩ := hrep e hev hid ht
  refine ⟨P, h, e, hP, hdone, hget, ?_, hfilter, hbody⟩
  rw [hbody] at hstatus
  cases hs : h.current.state.status <;> rw [hs] at hstatus <;> first | rfl | cases hstatus

end TracciaRuntime
