/-
  The public methods of the runtime, once and for all.

  `CallLaws` adds to the laws of a copy what the calls of a deployment need: a
  record read from the store is a copy, and a new run and an overdue one may be
  written.  From the laws `start`, `cancel`, `recover` and `shutdown` keep the
  contract; `resume` does so where approvals do not matter, and is left to the
  contract otherwise.
-/
import TracciaRuntime.Proof.Driver
import TracciaRuntime.Runtime.System

namespace TracciaRuntime

open Py Async AgentRuntime

variable {V : Type}

/-- The error of a run that `recover` gives up. -/
def overdueError : String := "Run deadline elapsed before recovery."

/-- A run as `start` creates it. -/
structure Created (s : RunState V) : Prop where
  version : s.version = 0
  status : s.status = .received
  approved : s.approvedToolCallIds = ∅

/-- The operations that write neither runs nor approvals and call no handler. -/
def Op.isIdle (o : Op V) : Bool := !o.writesRuns && !o.writesApprovals && !o.isHandler

/-- **What a contract provides for the calls of task `t`.** -/
structure CallLaws (cfg : Config V) (A : Allow cfg.sem.Ans Exn (World V)) (R : Contract (World V))
    (t : Nat) (Copy : World V → RunState V → Prop) (strict loose : Prop) : Prop extends
    CopyLaws cfg A R t Copy (fun _ _ => True) strict loose where
  idle : ∀ o : Op V, o.isIdle = true → Mild cfg.sem A R t (fun _ => True) (fun _ => True) o
  own : ∀ s (o : Op V), o.writesApprovals = false → ∀ b w a r w', Copy w s →
    cfg.sem.act t b w o a = some (r, w') → Copy w' s
  read : ∀ w id h, R.valid w → (id, h) ∈ w.runs → Copy w h.current.state
  create : ∀ s, Created s → Mild cfg.sem A R t (fun _ => True) (fun _ => True) (.runsCreate s)
  overdue : ∀ b w s now a r w', R.valid w → Copy w s → s.status.isTerminal = false →
    s.error = some overdueError →
    A t w (.runsSave { s with status := .timedOut, updatedAt := now } s.version) a →
    cfg.sem.act t b w (.runsSave { s with status := .timedOut, updatedAt := now } s.version) a =
      some (r, w') →
    R.valid w' ∧ (∀ t', t' ≠ t → R.rely t' w w') ∧ ∀ u, r = .ok u →
      Copy w' { s with status := .timedOut, updatedAt := now, version := s.version + 1 }

section
open Prog
variable {cfg : Config V} {A : Allow cfg.sem.Ans Exn (World V)} {R : Contract (World V)} {t : Nat}
  {Copy : World V → RunState V → Prop} {strict loose : Prop} {w : World V} {s : RunState V}
  {runId tenantId : String} {α β : Type} {f : α → Task V β}

/-- A program that keeps the contract, whatever it ends with. -/
abbrev Keeping (cfg : Config V) (A : Allow cfg.sem.Ans Exn (World V)) (R : Contract (World V))
    (t : Nat) (p : Task V α) (w : World V) : Prop :=
  Ticks cfg A R t (fun _ _ => True) p w

theorem Keeping.bind {p : Task V α} (hp : Keeping cfg A R t p w)
    (hf : ∀ a w', Keeping cfg A R t (f a) w') : Keeping cfg A R t (p >>= f) w :=
  Safe.bind (hp.mono fun x w' _ => by
    cases x with
    | ok a => exact hf a w'
    | error e => trivial)

/-- A program whose operations keep the contract anyway. -/
theorem Keeping.of_uses {p : Task V α} (hp : p.Uses fun o =>
      Mild cfg.sem A R t (fun _ => True) (fun _ => True) o) : Keeping cfg A R t p w := by
  refine (Safe.of_calm (G := fun _ => True) (X := fun _ => True) (fun _ _ _ h => h)
    (Calm.of_uses (hp.mono fun o ho b w a r w' hv hg ha hact => ?_) fun _ => trivial)
    trivial).mono fun _ _ _ => trivial
  exact ho true w a r w' hv hg ha (Sem.act_of_ticking hact)

theorem emit_uses {P : Op V → Prop} (hn : ∀ id, P (.nextSequence id)) (hp : ∀ e, P (.publish e))
    {body : EventBody V} {stepId : Option String} : (emit s body stepId).Uses P :=
  Uses.bind (Uses.call (hn _)) fun _ => Uses.call (hp _)

namespace CallLaws
variable (L : CallLaws cfg A R t Copy strict loose)
include L

/-- Copies stay copies through everything but a write of approvals. -/
theorem through {p : Task V α} {l : List (RunState V)} (hp : Keeping cfg A R t p w)
    (hu : p.Uses fun o => o.writesApprovals = false) (hw : ∀ s ∈ l, Copy w s) :
    Ticks cfg A R t (fun _ w' => ∀ s ∈ l, Copy w' s) p w := by
  have stable : R.Stable t fun w => ∀ s ∈ l, Copy w s :=
    fun w w' hr h s hs => L.stable s w w' hr (h s hs)
  refine (hp.and_uses stable (hu.mono fun o ho b w a r w' h hact s hs => ?_) hw).mono
    fun _ _ h => h.2
  exact L.own s o ho true w a r w' (h s hs) (Sem.act_of_ticking hact)

/-- What follows a program of idle operations still has its copy. -/
theorem idle_bind {p : Task V α} (hp : p.Uses fun o => o.isIdle = true) (hc : Copy w s)
    (hf : ∀ a w', Copy w' s → Keeping cfg A R t (f a) w') : Keeping cfg A R t (p >>= f) w := by
  have hl : ∀ s' ∈ [s], Copy w s' := fun s' hs' => by rw [List.mem_singleton.1 hs']; exact hc
  refine Safe.bind ((L.through (Keeping.of_uses (hp.mono fun o => L.idle o)) (hp.mono fun o ho => ?_)
    hl).mono fun x w' h => ?_)
  · cases o <;> first | rfl | cases ho
  · cases x with
    | ok a => exact hf a w' (h s (List.mem_singleton.2 rfl))
    | error e => trivial

theorem requireState_keeping {f : RunState V → Task V β}
    (hf : ∀ s w', Copy w' s → s.request.tenantId = tenantId → Keeping cfg A R t (f s) w') :
    Keeping cfg A R t (requireState runId tenantId >>= f) w := by
  refine Laws.requireState_bind (G := fun _ => True) (fun _ _ _ h => h) trivial
    (fun o ho => L.idle o ?_) (fun w s hv _ h => (?_ : Copy w s ∧ s.request.tenantId = tenantId))
    (fun _ _ => trivial) fun s w' h => hf s w' h.1 h.2
  · cases o <;> first | rfl | cases ho
  · obtain ⟨h₀, hg, rfl, ht⟩ := Runs.find_eq_some h
    exact ⟨L.read w runId h₀ hv (Dict.mem_of_get hg), ht⟩

theorem transition_keeping {target : RunStatus} {f : RunState V → Task V β} (hc : Copy w s)
    (hp : target ≠ .awaitingApproval) (hf : ∀ s' w', Copy w' s' → Keeping cfg A R t (f s') w') :
    Keeping cfg A R t (transition s target >>= f) w := by
  refine Safe.bind ((L.transition_any hc hp).mono fun x w' h => ?_)
  cases x with
  | ok s' => exact hf s' w' (h s' rfl)
  | error e => trivial

theorem emit_keeping {body : EventBody V} {stepId : Option String} {s₀ : RunState V}
    {f : Unit → Task V β} (hf : ∀ w', Keeping cfg A R t (f ()) w') :
    Keeping cfg A R t (emit s₀ body stepId >>= f) w :=
  Keeping.bind (Keeping.of_uses (emit_uses (fun _ => L.idle _ rfl) fun _ => L.idle _ rfl))
    fun _ => hf

theorem start_mild {request : RunRequest V} : (start request).Uses fun o =>
    Mild cfg.sem A R t (fun _ => True) (fun _ => True) o := by
  refine Uses.bind (Uses.call (L.idle _ rfl)) fun _ => ?_
  refine Uses.bind (Uses.raiseIf _ _) fun _ => Uses.bind (Uses.call (L.idle _ rfl)) fun _ => ?_
  refine Uses.bind (Uses.call (L.idle _ rfl)) fun _ =>
    Uses.bind (Uses.call (L.idle _ rfl)) fun _ => Uses.bind (Uses.call (L.idle _ rfl)) fun _ => ?_
  exact Uses.bind (Uses.call (L.create _ ⟨rfl, rfl, rfl⟩)) fun _ =>
    Uses.bind (emit_uses (fun _ => L.idle _ rfl) fun _ => L.idle _ rfl) fun _ =>
      Uses.bind (Uses.call (L.idle _ rfl)) fun _ => Uses.pure _

theorem start_keeping {request : RunRequest V} : Keeping cfg A R t (start request) w :=
  Keeping.of_uses L.start_mild

theorem run_keeping {request : RunRequest V} : Keeping cfg A R t (AgentRuntime.run cfg request) w := by
  refine Keeping.of_uses (run_uses L.start_mild (fun _ => L.idle _ rfl) (fun _ => L.idle _ rfl)
    (fun _ _ => L.idle _ rfl) fun runId tenantId => ?_)
  refine Uses.bind (Uses.bind (Uses.call (L.idle _ rfl)) fun state => ?_) fun _ =>
    Uses.bind (Uses.call (L.idle _ rfl)) fun _ =>
      Uses.bind (Uses.raiseIf _ _) fun _ => Uses.call (L.idle _ rfl)
  cases state <;> trivial

theorem cancel_keeping : Keeping cfg A R t (cancel runId tenantId : Task V (RunState V)) w := by
  refine L.requireState_keeping fun s w₁ hc _ => ?_
  split
  · exact Safe.pure trivial
  · exact L.idle_bind (Uses.call rfl) hc fun _ w₂ hc₂ =>
      L.transition_keeping hc₂ (by decide) fun s' w₃ _ => L.emit_keeping fun w₄ => Safe.pure trivial

theorem schedule_keeping {a : α} : Keeping cfg A R t (do
    await (.schedule runId tenantId)
    Pure.pure a) w :=
  Keeping.of_uses (Uses.bind (Uses.call (L.idle _ rfl)) fun _ => Uses.pure _)

theorem clarify_keeping {payload : ResumePayload V} (hc : Copy w s)
    (hs : s.status = .awaitingClarification) : Keeping cfg A R t (clarify s payload) w := by
  unfold clarify
  generalize strip payload.clarification = text
  refine L.idle_bind (Uses.raiseIf _ _) hc fun _ w₁ hc₁ => ?_
  have hc₂ : Copy w₁ { s with messages := s.messages ++ [.text .user text], pausePayload := none } :=
    L.keep hc₁ ⟨rfl, rfl, rfl, rfl, rfl, rfl, rfl, rfl, fun h => by rw [hs] at h; cases h⟩
  exact (L.transition_any hc₂ (by decide)).mono fun _ _ _ => trivial

/-- The two rewrites of `recover`. -/
theorem overdue_keeping {f : RunState V → Task V β} (hc : Copy w s)
    (ha : s.status.isTerminal = false) (he : s.error = some overdueError)
    (hf : ∀ s' w', Keeping cfg A R t (f s') w') :
    Keeping cfg A R t (saveAs s .timedOut >>= f) w := by
  refine Keeping.bind (L.idle_bind (Uses.call rfl) hc fun now w₁ hc₁ => ?_) hf
  refine Safe.bind (Safe.call fun w₂ hr hv a hal r w₃ hact => ?_)
  obtain ⟨h₁, h₂, -⟩ := L.overdue true w₂ s now a r w₃ hv (L.stable s w₁ w₂ hr hc₁) ha he hal
    (Sem.act_of_ticking hact)
  refine ⟨h₁, h₂, ?_⟩
  cases r with
  | ok u => exact Safe.pure trivial
  | error e => trivial

theorem recovered_keeping {f : RunState V → Task V β} (hc : Copy w s)
    (ha : s.status.isTerminal = false) (hf : ∀ s' w', Keeping cfg A R t (f s') w') :
    Keeping cfg A R t (saveAs s s.status.recoveryStatus >>= f) w := by
  refine Keeping.bind ((L.saveAs_safe hc (Or.inr ⟨ha, rfl⟩) ?_).mono fun _ _ _ => trivial) hf
  cases s.status <;> simp [RunStatus.recoveryStatus]

/-- One run of `recover`. -/
theorem recoverRun_keeping (hc : Copy w s) (ha : s.status.isTerminal = false) :
    Keeping cfg A R t (recoverRun s) w := by
  -- what follows the look at the deadline
  have rest : ∀ overdue w', Copy w' s → Keeping cfg A R t (if overdue = true then do
        let s ← saveAs { s with error := some overdueError } .timedOut
        emit s (.runFailed (some "timeout_during_recovery") none) none
        Pure.pure false
      else do
        let s ← if s.status.recoveryStatus = s.status then Pure.pure s
          else saveAs s s.status.recoveryStatus
        await (.schedule s.id s.request.tenantId)
        Pure.pure true) w' := by
    intro overdue w' hc'
    split
    · exact L.overdue_keeping (L.keep hc' ⟨rfl, rfl, rfl, rfl, rfl, rfl, rfl, rfl, fun _ => rfl⟩) ha rfl
        fun s' w₁ => L.emit_keeping fun _ => Safe.pure trivial
    · dsimp only
      split
      · exact L.schedule_keeping
      · exact L.recovered_keeping hc' ha fun _ _ => L.schedule_keeping
  refine L.idle_bind (Uses.call rfl) hc fun live w₁ hc₁ => ?_
  split
  · exact Safe.pure trivial
  · dsimp only
    split
    · exact rest false w₁ hc₁
    · exact L.idle_bind (Uses.call rfl) hc₁ fun now w₂ hc₂ => rest _ w₂ hc₂

theorem recoverAll_keeping {l : List (RunState V)} {n : Nat} (hl : ∀ s ∈ l, Copy w s)
    (ha : ∀ s ∈ l, s.status.isTerminal = false) : Keeping cfg A R t (recoverAll l n) w := by
  induction l generalizing n w with
  | nil => exact Safe.pure trivial
  | cons s l ih =>
    have hs := hl s List.mem_cons_self
    refine Safe.bind ((L.through (recoverRun_keeping L hs (ha s List.mem_cons_self))
      (recoverRun_controls.mono fun o ho => ?_) fun s' hs' => hl s' (List.mem_cons_of_mem _ hs')).mono
      fun x w' h => ?_)
    · cases o <;> first | rfl | cases ho
    · cases x with
      | error e => trivial
      | ok scheduled => exact ih h fun s' hs' => ha s' (List.mem_cons_of_mem _ hs')

theorem recover_keeping {limit : Nat} : Keeping cfg A R t (recover limit : Task V Nat) w := by
  refine Safe.bind (Safe.call fun w₁ _ hv a ha r w₂ hact => ?_)
  have hact' := Sem.act_of_ticking hact
  obtain ⟨h₁, h₂, -, -⟩ := L.idle _ rfl true w₁ a r w₂ hv trivial ha hact'
  refine ⟨h₁, h₂, ?_⟩
  cases r with
  | error e => trivial
  | ok active =>
    obtain ⟨c, -, hc⟩ := done_of_act_ok hact'
    cases hc
    refine L.recoverAll_keeping (fun s hs => ?_) fun s hs => ?_
    · obtain ⟨id, h, hm, rfl, -⟩ := Runs.mem_listActive hs
      exact L.read _ id h hv hm
    · obtain ⟨-, -, -, -, ha⟩ := Runs.mem_listActive hs
      exact ha

theorem shutdown_keeping : Keeping cfg A R t (AgentRuntime.shutdown : Task V Unit) w := by
  refine Keeping.of_uses (Uses.bind (Uses.call (L.idle _ rfl)) fun tasks => ?_)
  split
  · exact Uses.pure _
  · refine Uses.bind (Uses.call (L.idle _ rfl)) fun _ =>
      Uses.bind (Uses.call (L.idle _ rfl)) fun pending => ?_
    split
    · exact Uses.pure _
    · exact Uses.call (L.idle _ rfl)

/-- `resume`, where approvals do not matter. -/
theorem resume_keeping {payload : ResumePayload V}
    (hdec : ∀ s (o : Op V), o.isDecision = true →
      Mild cfg.sem A R t (fun w => Copy w s) (fun _ => True) o)
    (hfail : ∀ w s, Copy w s → Copy w { s with error := some "Proposed action was rejected." })
    (hgrant : ∀ w s callId approval, Copy w s → Copy w (granted s callId approval)) :
    Keeping cfg A R t (resume cfg runId tenantId payload) w := by
  refine L.requireState_keeping fun s w₁ hc _ => ?_
  split
  · rename_i hs
    exact Keeping.bind (L.clarify_keeping hc hs) fun _ _ => L.schedule_keeping
  · refine L.idle_bind (Uses.lift (parseDecision payload.decision)) hc fun decision w₂ hc₂ => ?_
    refine Safe.bind ((Safe.of_calm (X := fun _ => True) (L.stable s) (Calm.of_uses
      (decide_uses.mono fun o ho b w a r w' hv hg ha hact => ?_) fun _ => trivial) hc₂).mono
      fun x w₃ h => ?_)
    · exact hdec s o ho true w a r w' hv hg ha (Sem.act_of_ticking hact)
    · cases x with
      | error e => trivial
      | ok approval =>
        dsimp only
        split
        · exact L.transition_keeping (hfail w₃ s h.1) (by decide) fun s' w₄ _ =>
            L.emit_keeping fun _ => Safe.pure trivial
        · exact L.transition_keeping (hgrant w₃ s _ approval h.1) (by decide)
            fun _ _ _ => L.schedule_keeping
  · exact Safe.throw trivial

/-- **Every task of the deployment keeps the contract**, if its driver and its `resume` do. -/
theorem task_keeping {calls : Nat → Call V} {w₀ : World V}
    (hdrive : ∀ runId tenantId,
      Safe cfg.sem A R t (fun _ _ => True) (drive cfg runId tenantId) w)
    (hresume : ∀ runId tenantId payload, calls t = .resume runId tenantId payload →
      Keeping cfg A R t (resume cfg runId tenantId payload) w) :
    Safe cfg.sem A R t (fun _ _ => True) (taskOf cfg calls w₀ t) w := by
  have dropped : ∀ {α : Type} {p : Task V α}, Keeping cfg A R t p w →
      Safe cfg.sem A R t (fun _ _ => True) (do let _ ← p; Pure.pure ()) w :=
    fun hp => (Safe.of_ticking timerAdds (Keeping.bind hp fun _ _ => Safe.pure trivial)).1
  unfold taskOf
  split
  · exact hdrive _ _
  · cases hcall : calls t with
    | start request => exact dropped L.start_keeping
    | run request => exact (Safe.of_ticking timerAdds L.run_keeping).1
    | cancel runId tenantId => exact dropped L.cancel_keeping
    | resume runId tenantId payload => exact dropped (hresume _ _ _ hcall)
    | recover limit => exact dropped L.recover_keeping
    | shutdown => exact (Safe.of_ticking timerAdds L.shutdown_keeping).1
    | register definition =>
      exact (Safe.of_ticking timerAdds (Keeping.of_uses (Uses.call (L.idle _ rfl)))).1

end CallLaws

end

end TracciaRuntime
