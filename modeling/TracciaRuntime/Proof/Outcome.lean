/-
  How the driver of a run ends.

  * `RunStatus.Endable a e`: a run in status `a` can be ended for the exception `e`,
    as the transition table has it;
  * `driver_settles`: if every exception strikes the driver in a status in which the
    run can be ended for it, the driver leaves the run terminal or paused, and no
    `ConflictError` of `validate_transition` escapes;
  * `late_planner_strands_run`: the deadline of a run elapses while its planner is
    at work.

  The driver is alone on its run, but not in the world: `Apart` is what the other
  tasks may do between two of its awaits.
-/
import TracciaRuntime.Proof.Driver
import TracciaRuntime.Runtime.System

namespace TracciaRuntime

open Py Async AgentRuntime

variable {V : Type}

/-- A run in status `a` can be timed out or failed for `e`, or has ended. -/
def RunStatus.Endable (a : RunStatus) (e : Exn) : Prop :=
  (e = .deadline ∨ e = .timeoutError → .timedOut ∈ a.allowedTransitions ∨ a.isTerminal = true) ∧
    (e.isFailure = true → .failed ∈ a.allowedTransitions ∨ a.isTerminal = true)

instance (a : RunStatus) (e : Exn) : Decidable (a.Endable e) :=
  inferInstanceAs (Decidable (_ ∧ _))

/-- `t` is the driver of the run in a process that is up, and nobody has asked to cancel it. -/
structure Driving (cfg : Config V) (runId tenantId : String) (t : Nat) (w : World V) : Prop where
  stored : ∃ h, w.runs.get runId = some h ∧ h.current.state.id = runId ∧
    h.current.state.request.tenantId = tenantId
  driver : (w.drivers.get t).isSome = true
  uncancelled : t ∉ w.cancelRequested
  up : (w.procs (cfg.proc t)).shutdownCancellation = false

/-- The other tasks leave the run and its driver alone. -/
structure Apart (cfg : Config V) (runId : String) (t : Nat) (w w' : World V) : Prop where
  runs : w'.runs.get runId = w.runs.get runId
  agents : w'.agents = w.agents
  driver : w'.drivers.get t = w.drivers.get t
  uncancelled : t ∈ w'.cancelRequested → t ∈ w.cancelRequested
  up : (w'.procs (cfg.proc t)).shutdownCancellation = (w.procs (cfg.proc t)).shutdownCancellation
  planned : w'.planned t = w.planned t

theorem Apart.refl {cfg : Config V} {runId : String} {t : Nat} (w : World V) :
    Apart cfg runId t w w := ⟨rfl, rfl, rfl, id, rfl, rfl⟩

/-- The contract of a driver that is alone on its run. -/
def alone (cfg : Config V) (runId tenantId : String) (t : Nat) : Contract (World V) where
  valid := Driving cfg runId tenantId t
  rely u w w' := u = t → Apart cfg runId t w w'
  refl _ w _ := Apart.refl w
  trans h₁ h₂ h := by
    obtain ⟨a₁, a₂, a₃, a₄, a₅, a₆⟩ := h₁ h
    obtain ⟨b₁, b₂, b₃, b₄, b₅, b₆⟩ := h₂ h
    exact ⟨b₁.trans a₁, b₂.trans a₂, b₃.trans a₃, fun h => a₄ (b₄ h), b₅.trans a₅, b₆.trans a₆⟩

/-- The run store does its work unless the deadline strikes there, and the event bus raises no
    `ConflictError` of `validate_transition`. -/
structure StoresWork (cfg : Config V) (t : Nat) (w : World V) (o : Op V)
    (a : Act cfg.sem.Ans Exn o) : Prop where
  runs : (∃ id tenantId, o = .runsGet id tenantId) ∨ (∃ s v, o = .runsSave s v) →
    Completes a ∨ a = .before .deadline ∨ ∃ c, a = .after .deadline (Answer.ok c)
  events : (∃ id, o = .nextSequence id) ∨ (∃ x, o = .publish x) → ∀ b e w',
    cfg.sem.act t b w o a = some (.error e, w') → ∀ x y, e ≠ .conflict (.invalidTransition x y)

/-- An exception strikes only while the run can be ended for it. -/
def StrikesEndable (cfg : Config V) (runId tenantId : String) : Allow cfg.sem.Ans Exn (World V) :=
  fun t w o a => ∀ b e w', cfg.sem.act t b w o a = some (.error e, w') →
    ∀ s, w'.runs.find runId tenantId = some s → s.status.Endable e

def endable (cfg : Config V) (runId tenantId : String) : Allow cfg.sem.Ans Exn (World V) :=
  fun t w o a => StoresWork cfg t w o a ∧ StrikesEndable cfg runId tenantId t w o a

/-- `s` is the current record of the run, as far as the driver's writes depend on it. -/
structure Current (runId tenantId : String) (w : World V) (s : RunState V) : Prop where
  id : s.id = runId
  tenant : s.request.tenantId = tenantId
  stored : ∃ h, w.runs.get runId = some h ∧ h.current.state.id = runId ∧
    h.current.state.request.tenantId = tenantId ∧ h.current.state.version = s.version ∧
    h.current.state.status = s.status

section
variable {cfg : Config V} {runId tenantId : String} {t : Nat} {b : Bool} {w w' : World V}
  {s s' : RunState V}

theorem Current.congr (h : Current runId tenantId w s) (hi : s'.id = s.id)
    (ht : s'.request.tenantId = s.request.tenantId) (hv : s'.version = s.version)
    (hs : s'.status = s.status) : Current runId tenantId w s' := by
  refine ⟨hi.trans h.id, ht.trans h.tenant, ?_⟩
  rw [hv, hs]; exact h.stored

theorem Current.of_get (h : Current runId tenantId w s)
    (he : w'.runs.get runId = w.runs.get runId) : Current runId tenantId w' s := by
  refine ⟨h.id, h.tenant, ?_⟩
  rw [he]; exact h.stored

theorem Current.find (h : Current runId tenantId w s) :
    ∃ s₁, w.runs.find runId tenantId = some s₁ ∧ Current runId tenantId w s₁ ∧
      s₁.status = s.status := by
  obtain ⟨h₀, hget, hi, ht, hv, hs⟩ := h.stored
  refine ⟨h₀.current.state, ?_, ⟨hi, ht, h₀, hget, hi, ht, rfl, rfl⟩, hs⟩
  simp [Runs.find, Runs.state?, hget, ht]

theorem current_of_find (hv : Driving cfg runId tenantId t w)
    (h : w.runs.find runId tenantId = some s) : Current runId tenantId w s := by
  obtain ⟨h₀, hget, rfl, -⟩ := Runs.find_eq_some h
  obtain ⟨h₁, hget₁, hi, ht⟩ := hv.stored
  rw [hget] at hget₁; cases hget₁
  exact ⟨hi, ht, h₀, hget, hi, ht, rfl, rfl⟩

theorem Current.stable (s : RunState V) :
    (alone cfg runId tenantId t).Stable t fun w => Current runId tenantId w s :=
  fun _ _ hr h => h.of_get (hr rfl).runs

/-- An operation that leaves the run and the event loop's tasks alone. -/
theorem driving_of_act {o : Op V} {a : Act cfg.sem.Ans Exn o} {r : Except Exn o.Resp}
    (hv : Driving cfg runId tenantId t w) (hr : w'.runs.get runId = w.runs.get runId)
    (hs : o.isSchedule = false) (hc : o.isCancellation = false)
    (hact : cfg.sem.act t b w o a = some (r, w')) : Driving cfg runId tenantId t w' := by
  have hf := Config.act_frame hact
  refine ⟨by rw [hr]; exact hv.stored, by rw [hf.drivers hs]; exact hv.driver, fun h => ?_, ?_⟩
  · exact hv.uncancelled (Config.act_cancelRequested hact hc h)
  · rw [hf.shutdown hc]; exact hv.up

/-- The driver's own save goes through, and its copy stays the current record. -/
theorem current_save {now : Time} {target : RunStatus}
    {a : Act cfg.sem.Ans Exn (.runsSave { s with status := target, updatedAt := now } s.version)}
    {r : Except Exn Unit} (hv : Driving cfg runId tenantId t w) (hw : Current runId tenantId w s)
    (hact : cfg.sem.act t b w
      (.runsSave { s with status := target, updatedAt := now } s.version) a = some (r, w')) :
    Driving cfg runId tenantId t w' ∧
      (Current runId tenantId w' s ∧ (∃ e, r = .error e) ∨ Current runId tenantId w'
        { s with status := target, updatedAt := now, version := s.version + 1 }) := by
  have hf := Config.act_frame hact
  rcases act_runsSave hact with ⟨he, e, rfl⟩ | hsave
  · have hget : w'.runs.get runId = w.runs.get runId := by rw [he]
    exact ⟨driving_of_act hv hget rfl rfl hact, Or.inl ⟨hw.of_get hget, e, rfl⟩⟩
  · obtain ⟨h₀, -, -, he⟩ := Runs.save_ok hsave
    have hget : w'.runs.get runId = some (h₀.push ⟨t, { s with
        status := target, updatedAt := now, version := s.version + 1 }⟩) := by
      rw [he, ← hw.id]; exact Dict.get_set_self _ _ _
    refine ⟨⟨⟨_, hget, hw.id, hw.tenant⟩, ?_, fun h => ?_, ?_⟩, Or.inr
      ⟨hw.id, hw.tenant, _, hget, hw.id, hw.tenant, rfl, rfl⟩⟩
    · rw [hf.drivers rfl]; exact hv.driver
    · exact hv.uncancelled (Config.act_cancelRequested hact rfl h)
    · rw [hf.shutdown rfl]; exact hv.up

/-! ## The laws of the driver -/

/-- What strikes the driver meets its run in a status where it can be ended. -/
theorem struck {o : Op V} {a : Act cfg.sem.Ans Exn o} {e : Exn}
    (ha : endable cfg runId tenantId t w o a)
    (hact : cfg.sem.act t b w o a = some (.error e, w')) (hc : Current runId tenantId w' s) :
    s.status.Endable e := by
  obtain ⟨s₁, hfind, -, hs⟩ := hc.find
  rw [← hs]; exact ha.2 b e w' hact s₁ hfind

theorem alone_mild {o : Op V} (hr : o.writesRuns = false) (hs : o.isSchedule = false)
    (hc : o.isCancellation = false) :
    Mild cfg.sem (endable cfg runId tenantId) (alone cfg runId tenantId t) t
      (fun w => Current runId tenantId w s) s.status.Endable o := by
  intro b w a r w' hv hw ha hact
  have hget : w'.runs.get runId = w.runs.get runId := by rw [(Config.act_frame hact).runs hr]
  have hw' := hw.of_get hget
  refine ⟨driving_of_act hv hget hs hc hact, fun t' ht h => absurd h ht, hw', fun e he => ?_⟩
  subst he
  exact struck ha hact hw'

theorem alone_copyLaws : CopyLaws cfg (endable cfg runId tenantId) (alone cfg runId tenantId t) t
    (Current runId tenantId) RunStatus.Endable False True where
  stable := Current.stable
  planned _ _ h := (h rfl).planned
  same _ _ _ h hc := hc.congr h.id h.tenantId h.version h.status
  raises a e ha he := by
    refine ⟨fun h => ?_, fun _ => Or.inl ?_⟩
    · rcases h with rfl | rfl <;> cases he
    · cases a <;> first | decide | cases ha
  background s o ho := by
    refine alone_mild ?_ ?_ ?_ <;> cases o <;> first | rfl | cases ho
  plan _ _ _ _ _ h := h.elim
  save b w s target now a r w' hv hc _ _ ha hact := by
    obtain ⟨h₁, h₂⟩ := current_save hv hc hact
    refine ⟨h₁, fun t' ht h => absurd h ht, ?_⟩
    rcases h₂ with ⟨h₂, e, rfl⟩ | h₂
    · exact ⟨s, h₂, struck ha hact h₂⟩
    · cases r with
      | ok u => exact h₂
      | error e => exact ⟨_, h₂, struck ha hact h₂⟩
  respond _ _ _ hc _ _ := hc.congr rfl rfl rfl rfl
  result _ _ _ hc _ := hc.congr rfl rfl rfl rfl

theorem alone_laws : Laws cfg (endable cfg runId tenantId) (alone cfg runId tenantId t) t
    (Current runId tenantId) RunStatus.Endable False True where
  toCopyLaws := alone_copyLaws
  ask _ _ _ _ _ _ hw hs _ _ _ :=
    alone_copyLaws.requestApproval_safe trivial (fun _ => alone_mild rfl rfl rfl) hw hs
  tool _ _ _ _ _ _ hw hs _ _ _ _ :=
    alone_copyLaws.executeCall_safe (fun _ _ _ => alone_mild rfl rfl rfl) hw (by rw [hs]; rfl)

/-! ## The end of the driver -/

/-- The driver has settled its run, and nothing of `validate_transition` has escaped. -/
def Ended {α : Type} (runId tenantId : String) (x : Except Exn α) (w : World V) : Prop :=
  (∃ s, Current runId tenantId w s ∧ s.status.isSettled = true) ∧
    ∀ a b, x ≠ .error (.conflict (.invalidTransition a b))

/-- The programs of the driver outside its timeout block. -/
abbrev Drives {α : Type} (cfg : Config V) (runId tenantId : String) (t : Nat)
    (Q : Except Exn α → World V → Prop) (p : Task V α) (w : World V) : Prop :=
  Safe cfg.sem (endable cfg runId tenantId) (alone cfg runId tenantId t) t Q p w

/-- Outside the timeout block the run store does its work. -/
theorem completes_of_untimed {o : Op V} {a : Act cfg.sem.Ans Exn o} {r : Except Exn o.Resp}
    (ho : (∃ id tenantId, o = .runsGet id tenantId) ∨ ∃ s v, o = .runsSave s v)
    (ha : endable cfg runId tenantId t w o a)
    (hact : cfg.sem.act t false w o a = some (r, w')) : Completes a := by
  rcases ha.1.runs ho with h | rfl | ⟨c, rfl⟩
  · exact h
  · simp [Sem.act, Config.sem, World.interrupt] at hact
  · simp [Sem.act, Config.sem, World.interrupt] at hact

variable {α β : Type}

/-- Reading the run gives its current record. -/
theorem requireState_current {Q : Except Exn β → World V → Prop} {f : RunState V → Task V β}
    (hw : Current runId tenantId w s)
    (hf : ∀ s₁ w', Current runId tenantId w' s₁ → s₁.status = s.status →
      Drives cfg runId tenantId t Q (f s₁) w') :
    Drives cfg runId tenantId t Q (requireState runId tenantId >>= f) w := by
  refine Safe.bind (Safe.bind (Safe.call fun w₁ hr hv a ha r w₂ hact => ?_))
  obtain ⟨c, rfl⟩ := completes_of_untimed (Or.inl ⟨_, _, rfl⟩) ha hact
  cases hact
  obtain ⟨s₁, hfind, hc, hs⟩ := (Current.stable s w w₁ hr hw).find
  refine ⟨hv, fun t' ht h => absurd h ht, ?_⟩
  rw [hfind]
  exact hf s₁ w₁ hc hs

/-- The clock does not fail. -/
theorem utcNow_bind {Q : Except Exn β → World V → Prop} {f : Time → Task V β}
    (hw : Current runId tenantId w s)
    (hf : ∀ now w', Current runId tenantId w' s → Drives cfg runId tenantId t Q (f now) w') :
    Drives cfg runId tenantId t Q (await .utcNow >>= f) w := by
  refine Safe.bind (Safe.call fun w₁ hr hv a ha r w₂ hact => ?_)
  obtain ⟨h₁, h₂, h₃, -⟩ := alone_mild rfl rfl rfl false w₁ a r w₂ hv
    (Current.stable s w w₁ hr hw) ha hact
  refine ⟨h₁, h₂, ?_⟩
  cases r with
  | ok now => exact hf now w₂ h₃
  | error e =>
    exfalso
    obtain ⟨C, ⟨c, hc⟩ | ⟨_, _, hl, _⟩⟩ := Config.act_cases hact
    · simp only [World.effect] at hc
      split at hc <;> cases hc
    · cases hl

/-- A transition of the table goes through. -/
theorem transition_bind {target : RunStatus} {Q : Except Exn β → World V → Prop}
    {f : RunState V → Task V β} (hw : Current runId tenantId w s)
    (ht : target ∈ s.status.allowedTransitions)
    (hf : ∀ s₁ w', Current runId tenantId w' s₁ → s₁.status = target →
      Drives cfg runId tenantId t Q (f s₁) w') :
    Drives cfg runId tenantId t Q (transition s target >>= f) w := by
  refine Safe.bind (Safe.bind (Safe.lift ?_))
  rw [(validateTransition_eq_ok (u := ())).2 ht]
  refine utcNow_bind hw fun now w₁ hw₁ => Safe.bind (Safe.call fun w₂ hr hv a ha r w₃ hact => ?_)
  have hw₂ := Current.stable s w₁ w₂ hr hw₁
  obtain ⟨h₁, h₂⟩ := current_save hv hw₂ hact
  refine ⟨h₁, fun t' ht h => absurd h ht, ?_⟩
  -- the stored version is the one of the copy, so the save returns
  obtain ⟨c, rfl⟩ := completes_of_untimed (Or.inr ⟨_, _, rfl⟩) ha hact
  obtain ⟨h₀, hget, -, htn, hv₀, -⟩ := hw₂.stored
  obtain ⟨runs', hsave⟩ := Runs.exists_save (s := { s with status := target, updatedAt := now })
    (by rw [show _ = _ from hw₂.id]; exact hget) (htn.trans hw₂.tenant.symm) cfg.runStore t
  rw [hv₀] at hsave
  change w₂.effect cfg t _ c = _ at hact
  simp only [World.effect, hsave, Option.some.injEq] at hact
  cases hact
  refine hf _ _ (h₂.resolve_left ?_) rfl
  rintro ⟨-, e, he⟩
  cases he

/-- An event bus that fails leaves the run as it is. -/
theorem event_ended {o : Op V} (hb : o.isBackground = true)
    (ho : (∃ id, o = .nextSequence id) ∨ ∃ x, o = .publish x) (hw : Current runId tenantId w s) :
    Drives cfg runId tenantId t (fun x w' => Current runId tenantId w' s ∧
      ∀ a b, x ≠ .error (.conflict (.invalidTransition a b))) (await o) w := by
  refine Safe.call fun w₁ hr hv a ha r w₂ hact => ?_
  obtain ⟨h₁, h₂, h₃, -⟩ := alone_copyLaws.background s o hb false w₁ a r w₂ hv
    (Current.stable s w w₁ hr hw) ha hact
  refine ⟨h₁, h₂, h₃, fun a b h => ?_⟩
  subst h
  exact ha.1.events ho false _ w₂ hact a b rfl

theorem emit_ended {body : EventBody V} {stepId : Option String} {s₀ : RunState V}
    (hw : Current runId tenantId w s) (hs : s.status.isSettled = true) :
    Drives cfg runId tenantId t (Ended runId tenantId) (emit s₀ body stepId) w := by
  refine Safe.bind ((event_ended rfl (Or.inl ⟨_, rfl⟩) hw).mono fun x w₁ h => ?_)
  cases x with
  | error e => exact ⟨⟨s, h.1, hs⟩, fun a b he => h.2 a b (by cases he; rfl)⟩
  | ok sequence =>
    exact (event_ended rfl (Or.inr ⟨_, rfl⟩) h.1).mono fun x w₂ h => ⟨⟨s, h.1, hs⟩, h.2⟩

/-- A transition to a terminal status, and its event. -/
theorem settle_ended {target : RunStatus} {body : RunState V → EventBody V}
    (hw : Current runId tenantId w s) (ht : target ∈ s.status.allowedTransitions)
    (hterm : target.isTerminal = true) :
    Drives cfg runId tenantId t (Ended runId tenantId) (do
      let s ← transition s target
      emit s (body s) none) w :=
  transition_bind hw ht fun s₁ w₁ hw₁ hs₁ => emit_ended hw₁ (by
    rw [hs₁, RunStatus.isSettled, hterm]; rfl)

/-- A run that has ended already stays as it is. -/
theorem ended_of_terminal {x : Unit} (hw : Current runId tenantId w s)
    (hs : s.status.isTerminal = true) : Ended runId tenantId (.ok x : Except Exn Unit) w :=
  ⟨⟨s, hw, by rw [RunStatus.isSettled, hs]; rfl⟩, fun a b h => by cases h⟩

theorem timedOut_ended (hw : Current runId tenantId w s)
    (he : .timedOut ∈ s.status.allowedTransitions ∨ s.status.isTerminal = true) :
    Drives cfg runId tenantId t (Ended runId tenantId) (timedOut runId tenantId) w := by
  refine requireState_current hw fun s₁ w₁ hw₁ hs₁ => ?_
  split
  · rename_i hterm; exact Safe.pure (ended_of_terminal hw₁ hterm)
  · rename_i hterm
    rw [← hs₁] at he
    exact settle_ended hw₁ (he.resolve_right hterm) rfl

theorem failed_ended {e : Exn} (hw : Current runId tenantId w s)
    (he : .failed ∈ s.status.allowedTransitions ∨ s.status.isTerminal = true) :
    Drives cfg runId tenantId t (Ended runId tenantId) (failed runId tenantId e) w := by
  refine requireState_current hw fun s₁ w₁ hw₁ hs₁ => ?_
  split
  · rename_i hterm; exact Safe.pure (ended_of_terminal hw₁ hterm)
  · rename_i hterm
    rw [← hs₁] at he
    exact settle_ended (hw₁.congr rfl rfl rfl rfl) (he.resolve_right hterm) rfl

theorem cancelled_ended (hw : Current runId tenantId w s) :
    Drives cfg runId tenantId t (Ended runId tenantId) (cancelled runId tenantId) w := by
  refine requireState_current hw fun s₁ w₁ hw₁ hs₁ => ?_
  split
  · rename_i hterm; exact Safe.pure (ended_of_terminal hw₁ hterm)
  · rename_i hterm
    refine Safe.bind (Safe.call fun w₂ hr hv a ha r w₃ hact => ?_)
    -- the process is not shutting down
    obtain ⟨h₁, h₂, h₃, -⟩ := alone_mild rfl rfl rfl false w₂ a r w₃ hv
      (Current.stable s₁ w₁ w₂ hr hw₁) ha hact
    refine ⟨h₁, h₂, ?_⟩
    obtain ⟨C, ⟨c, hc⟩ | ⟨_, _, hl, _⟩⟩ := Config.act_cases hact
    · cases hc
      dsimp only
      rw [show ((w₂.flagged C).procs (cfg.proc t)).shutdownCancellation = false from hv.up]
      exact settle_ended h₃ (RunStatus.cancelled_mem_allowedTransitions (by simpa using hterm)) rfl
    · cases hl

/-- What `_execute` ends with under its timeout. -/
def Executed {α : Type} (runId tenantId : String) : Except Exn α → World V → Prop
  | .ok _, w => ∃ s, Current runId tenantId w s ∧ s.status.isSettled = true
  | .error e, w => ∃ s, Current runId tenantId w s ∧ s.status.Endable e

theorem Executed.of_settles {x : Except Exn (RunState V)}
    (h : Laws.Settles (Current runId tenantId) RunStatus.Endable x w) :
    Executed runId tenantId x w := by
  cases x with
  | ok s => exact ⟨s, h.1, h.2 s rfl⟩
  | error e => exact h.1

theorem executeTimed_executed {agent : AgentDefinition V} (hw : Current runId tenantId w s) :
    Drives cfg runId tenantId t (Executed runId tenantId) (executeTimed cfg s agent) w := by
  refine Safe.bind ((Safe.of_ticking timerAdds (alone_copyLaws.calm (X := fun _ => False)
    remainingSeconds_aside.background (fun _ h => h.elim) hw)).1.mono fun x w₁ h => ?_)
  cases x with
  | error e => exact ⟨s, h.1, h.2 e rfl⟩
  | ok remaining =>
    have hexec := Safe.of_ticking timerAdds
      (alone_laws (t := t).execute_safe h.1 : Ticks cfg _ _ t _ (execute cfg s agent) w₁)
    cases remaining with
    | none =>
      refine Safe.bind (hexec.1.mono fun x w₂ h => ?_)
      cases x with
      | ok s₂ => exact Safe.pure (Executed.of_settles h)
      | error e => exact Executed.of_settles h
    | some _ =>
      refine Safe.bind (Safe.handle (hexec.2.mono fun x w₂ h => ?_))
      cases x with
      | ok s₂ => exact Safe.pure (Executed.of_settles h)
      | error e =>
        -- the timer's cancellation becomes a `TimeoutError`
        obtain ⟨s₂, hw₂, he⟩ := Executed.of_settles h
        refine Safe.throw ⟨s₂, hw₂, ?_⟩
        split
        · rename_i hd
          subst hd
          exact ⟨fun _ => he.1 (Or.inl rfl), fun hf => by cases hf⟩
        · exact he

theorem driveObserved_ended {agent : AgentDefinition V} (hw : Current runId tenantId w s) :
    Drives cfg runId tenantId t (Ended runId tenantId)
      (driveObserved cfg runId tenantId s agent) w := by
  refine Safe.handle ((executeTimed_executed hw).mono fun x w₁ h => ?_)
  cases x with
  | ok u => exact ⟨h, fun a b h => by cases h⟩
  | error e =>
    obtain ⟨s₁, hw₁, he⟩ := h
    cases e with
    | timeoutError => exact timedOut_ended hw₁ (he.1 (Or.inr rfl))
    | cancelled => exact cancelled_ended hw₁
    | deadline => exact cancelled_ended hw₁
    | _ => exact failed_ended hw₁ (he.2 rfl)

/-- **The driver settles its run.** -/
theorem drive_ended {agent : AgentDefinition V} (hv : Driving cfg runId tenantId t w)
    (hfind : w.runs.find runId tenantId = some s)
    (hagent : registryGet w.agents s.request.agent s.request.agentVersion = .ok agent) :
    Drives cfg runId tenantId t (Ended runId tenantId) (drive cfg runId tenantId) w := by
  have hw := current_of_find hv hfind
  refine Safe.bind (Safe.bind (Safe.call fun w₁ hr hv₁ a ha r w₂ hact => ?_))
  obtain ⟨c, rfl⟩ := completes_of_untimed (Or.inl ⟨_, _, rfl⟩) ha hact
  cases hact
  have hfind₁ : w₁.runs.find runId tenantId = some s := by
    simpa only [Runs.find, Runs.state?, (hr rfl).runs] using hfind
  refine ⟨hv₁, fun t' ht h => absurd h ht, ?_⟩
  rw [hfind₁]
  refine Safe.bind (Safe.call fun w₂ hr₂ hv₂ a ha₂ r w₃ hact₃ => ?_)
  -- the agent is still registered
  have hagents : w₂.agents = w.agents := (hr₂ rfl).agents.trans (hr rfl).agents
  obtain ⟨h₁, h₂, h₃, -⟩ := alone_mild rfl rfl rfl false w₂ a r w₃ hv₂
    (Current.stable s w₁ w₂ hr₂ (Current.stable s w w₁ hr hw)) ha₂ hact₃
  refine ⟨h₁, h₂, ?_⟩
  obtain ⟨C, ⟨c, hc⟩ | ⟨_, _, hl, _⟩⟩ := Config.act_cases hact₃
  · cases hc
    rw [show (w₂.flagged C).agents = w.agents from hagents, hagent]
    refine Safe.bind ((driveObserved_ended h₃).mono fun x w₄ h => ?_)
    cases x with
    | error e => exact h
    | ok u =>
      obtain ⟨⟨s₄, hw₄, hs₄⟩, -⟩ := h
      exact requireState_current hw₄ fun s₅ w₅ hw₅ hs₅ =>
        Safe.pure ⟨⟨s₅, hw₅, by rw [hs₅]; exact hs₄⟩, fun a b h => by cases h⟩
  · cases hl

end

/-! ## The theorem -/

/-- **The end of a driver settles its run**: if the agent of the run is registered, and every
    exception that strikes the driver finds the run in a status in which it can be ended for it,
    then the run is terminal or paused when its driver ends, and no `ConflictError` of
    `validate_transition` escapes. -/
theorem driver_settles (cfg : Config V) (runId tenantId : String) (t : Nat) (w w' : World V)
    (s : RunState V) (agent : AgentDefinition V) (x : Except Exn Unit)
    (hv : Driving cfg runId tenantId t w) (hfind : w.runs.find runId tenantId = some s)
    (hagent : registryGet w.agents s.request.agent s.request.agentVersion = .ok agent)
    (hrun : Async.Runs cfg.sem (endable cfg runId tenantId) (Apart cfg runId t) t
      (drive cfg runId tenantId) w x w') :
    (∃ s', w'.runs.find runId tenantId = some s' ∧ s'.status.isSettled = true) ∧
      ∀ a b, x ≠ .error (.conflict (.invalidTransition a b)) := by
  have apart : ∀ w w', Driving cfg runId tenantId t w → Apart cfg runId t w w' →
      Driving cfg runId tenantId t w' ∧ (alone cfg runId tenantId t).rely t w w' := by
    intro w w' hv ha
    refine ⟨⟨?_, ?_, fun h => hv.uncancelled (ha.uncancelled h), ?_⟩, fun _ => ha⟩
    · rw [ha.runs]; exact hv.stored
    · rw [ha.driver]; exact hv.driver
    · rw [ha.up]; exact hv.up
  obtain ⟨-, ⟨s', hw', hs'⟩, hx⟩ := (drive_ended hv hfind hagent).sound apart hv hrun
  obtain ⟨s₁, hfind₁, -, hs₁⟩ := hw'.find
  exact ⟨⟨s₁, hfind₁, by rw [hs₁]; exact hs'⟩, hx⟩

/-- The await returns. -/
def returns (cfg : Config V) (t : Nat) (w : World V) (o : Op V) : Act cfg.sem.Ans Exn o → Bool
  | .done (.ok c) => match w.effect cfg t o c with
    | some (.ok _, _) => true
    | _ => false
  | _ => false

theorem returns_endable {cfg : Config V} {runId tenantId : String} {t : Nat} {w : World V}
    {o : Op V} {a : Act cfg.sem.Ans Exn o} (h : returns cfg t w o a = true) :
    endable cfg runId tenantId t w o a := by
  have hc : Completes a := by
    unfold returns at h
    split at h
    · rename_i c; exact ⟨c, rfl⟩
    · cases h
  obtain ⟨c, rfl⟩ := hc
  have ok : ∀ b e w', cfg.sem.act t b w o (.done (Answer.ok c)) ≠ some (.error e, w') := by
    intro b e w' hact
    change w.effect cfg t o c = _ at hact
    simp [returns, hact] at h
  exact ⟨⟨fun _ => Or.inl ⟨c, rfl⟩, fun _ b e w' hact => absurd hact (ok b e w')⟩,
    fun b e w' hact => absurd hact (ok b e w')⟩

namespace Sample

/-- A run that has been started, with task 1 as its driver. -/
def startedRun : RunState String :=
  { id := "run", request := request, sessionId := "session", agentKey := some "agent@1"
    deadline := some 300 }

def startedWorld : World String :=
  { world with
    runs := [("run", ⟨⟨0, startedRun⟩, []⟩)]
    drivers := [(1, ⟨"run", "tenant", 0⟩)]
    started := {0, 1} }

theorem startedWorld_driving : Driving sendCfg "run" "tenant" 1 startedWorld :=
  ⟨⟨_, rfl, rfl, rfl⟩, rfl, by decide, rfl⟩

/-- A plan to complete the run. -/
def finish : Plan String :=
  { actions := [{ id := "finish", type := .complete, description := "" }], decisionSummary := "" }

/-- The deadline of the run elapses while the planner is at work. -/
def latePlanner : (o : Op String) → Act sendCfg.sem.Ans Exn o
  | .plan .. => .before .deadline
  | o => obliging o

def isPlan : Op String → Bool
  | .plan .. => true
  | _ => false

end Sample

open Sample

/-- A started run whose planner completes it. -/
theorem driver_settles_completed :
    ∃ x w', Async.Runs sendCfg.sem (endable sendCfg "run" "tenant") (Apart sendCfg "run" 1) 1
        (drive sendCfg "run" "tenant") startedWorld x w' ∧
      (∃ s, w'.runs.find "run" "tenant" = some s ∧ s.status.isSettled = true) ∧
      x = .ok () := by
  have hrun : (runWith sendCfg.sem 1 (returns sendCfg 1) (fun _ => planIs finish) 0
      (drive sendCfg "run" "tenant") startedWorld).map Prod.fst = some (.ok ()) := by
    decide +kernel
  rw [Option.map_eq_some_iff] at hrun
  obtain ⟨⟨x, w'⟩, hrun, rfl⟩ := hrun
  have hrun : Async.Runs sendCfg.sem (endable sendCfg "run" "tenant") (Apart sendCfg "run" 1) 1
      (drive sendCfg "run" "tenant") startedWorld (.ok ()) w' :=
    runs_of_runWith Apart.refl (fun _ _ _ => returns_endable) hrun
  obtain ⟨hs, -⟩ := driver_settles sendCfg "run" "tenant" 1 startedWorld w' startedRun agent _
    startedWorld_driving rfl rfl hrun
  exact ⟨_, w', hrun, hs, rfl⟩

/-- **A run without a driver**: the deadline elapses while the planner is at work.  PLANNING has
    no transition to TIMED_OUT, so that a `ConflictError` escapes and the run stays in PLANNING. -/
theorem late_planner_strands_run :
    ∃ x w', Async.Runs sendCfg.sem (StoresWork sendCfg) (Apart sendCfg "run" 1) 1
        (drive sendCfg "run" "tenant") startedWorld x w' ∧
      x = .error (.conflict (.invalidTransition .planning .timedOut)) ∧
      ∃ s, w'.runs.find "run" "tenant" = some s ∧ s.status = .planning := by
  have hrun : (runWith sendCfg.sem 1 (fun w o a => returns sendCfg 1 w o a || isPlan o)
      (fun _ => latePlanner) 0 (drive sendCfg "run" "tenant") startedWorld).map
      (fun x => (x.1, (x.2.runs.find "run" "tenant").map (·.status))) =
        some (.error (.conflict (.invalidTransition .planning .timedOut)), some .planning) := by
    decide +kernel
  rw [Option.map_eq_some_iff] at hrun
  obtain ⟨⟨x, w'⟩, hrun, hx⟩ := hrun
  simp only [Prod.mk.injEq, Option.map_eq_some_iff] at hx
  obtain ⟨rfl, s, hfind, hs⟩ := hx
  refine ⟨_, w', runs_of_runWith Apart.refl (fun w o a h => ?_) hrun, rfl, s, hfind, hs⟩
  rw [Bool.or_eq_true] at h
  rcases h with h | h
  · exact (show endable sendCfg "run" "tenant" 1 w o a from returns_endable h).1
  · cases o with
    | plan s₀ agent₀ =>
      refine ⟨?_, ?_⟩
      · rintro (⟨_, _, he⟩ | ⟨_, _, he⟩) <;> cases he
      · rintro (⟨_, he⟩ | ⟨_, he⟩) <;> cases he
    | _ => cases h

end TracciaRuntime
