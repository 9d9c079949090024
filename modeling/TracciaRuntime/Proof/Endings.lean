/-
  The nodes of a graph that has come to its end.

  * `Tidy`: a state in which a graph at its end has no node that is `RUNNING`;
  * `Secure`: no task raises where its node would stay as it is: before the `try` block, or in
    the last checkpoint of a node that is `COMPLETED`;
  * `carried_tidy`: every secure move keeps this; `Fleet.ends_tidy`: how the nodes of a graph end.
-/
import TracciaRuntime.Proof.Snapshots

namespace TracciaRuntime.Analytics

open Machine AnalyticalGraphState

variable {V : Type} {e : Engine V} {g : AnalyticalGraph V} {row row' : Option (AnalyticalGraphState V)}
  {d d' : Drive V} {p s s' : AnalyticalGraphState V}

/-- The graph has come to its end. -/
def GraphStatus.final : GraphStatus → Bool
  | .completed | .failed | .cancelled => true
  | .pending | .running => false

/-- A graph at its end has no node that is `RUNNING`. -/
def AnalyticalGraphState.Tidy (s : AnalyticalGraphState V) : Prop :=
  s.status.final → ∀ i, (s.nodes i).status ≠ .running

/-- An exception here leaves the node as it is. -/
def Phase.exposed : Phase V → Bool
  | .opening | .closing none => true
  | _ => false

/-- No task raises where it is exposed. -/
def Secure (g : AnalyticalGraph V) (d : Drive V) (_ : Act V) (d' : Drive V) : Prop :=
  ∀ i ∈ g.ids, (d.phase i).exposed → (d'.phase i).error = none

instance (a : Act V) : Decidable (Secure g d a d') :=
  inferInstanceAs (Decidable (∀ i ∈ g.ids, _ → _))

/-- The node has failed or has been cancelled, and says why. -/
def NodeExecution.Spoiled (x : NodeExecution) : Prop :=
  (x.status = .failed ∨ x.status = .cancelled) ∧ x.error.isSome

/-- What the tasks of a drive leave of their nodes. -/
structure Drive.Orderly (d : Drive V) : Prop where
  driven : d.stage = .opening ∨ d.stage = .waiting → d.memory.status = .running
  raised : ∀ i x, d.phase i = .ended (some x) → (d.memory.nodes i).Spoiled

theorem AnalyticalGraphState.Tidy.still (h : s.Tidy) (hn : s'.nodes = s.nodes) (hs : s'.status = s.status) :
    s'.Tidy := by
  intro hf i
  rw [hs] at hf
  rw [hn]
  exact h hf i

/-- The graph is not at its end. -/
theorem AnalyticalGraphState.Tidy.of_running (h : s.status = .running) : s.Tidy := fun hf => by
  rw [h] at hf
  cases hf

theorem AnalyticalGraphState.Tidy.kept (h : s.Tidy) (e : Engine V) : (e.store.kept e.values s).Tidy := by
  cases e.store with
  | memory => exact h
  | postgres => exact h

theorem AnalyticalGraphState.Tidy.recover (p : AnalyticalGraphState V) : p.recover.Tidy := fun _ i => by
  rcases Fleet.recover_cases p i with ⟨-, h⟩ | ⟨hne, h⟩
  · rw [h]
    nofun
  · rw [h]
    exact hne

/-! ## Moves -/

/-- Only the lock of the graph leads to the first checkpoint. -/
theorem Move.opens {a : Act V} (hm : Move e g row d a row' d')
    (h : d.stage = .opening → d.memory.status = .running) :
    d'.stage = .opening → d'.memory.status = .running := by
  have hschedule : ∀ d₁ : Drive V, (d₁.schedule g).stage ≠ .opening := by
    intro d₁
    have hs := scheduled g d₁
    generalize d₁.schedule g = d₂ at hs
    have hfinish : ∀ o, (d₁.finish o).stage ≠ .opening := fun o => by
      obtain ⟨o', hs', -⟩ := d₁.finish_stage o
      rw [hs']
      exact fun h => by cases h
    cases hs with
    | wave => exact fun h => by cases h
    | _ => exact hfinish _
  have hsaved : ∀ {d₁ : Drive V} {b : Actor} {failure : Option Raised},
      d₁.saved e g b failure = some d' → d'.stage ≠ .opening := by
    intro d₁ b failure hs
    cases b with
    | driver =>
      simp only [Drive.saved] at hs
      split at hs
      · cases hs
        exact hschedule d₁
      all_goals
        cases hs
        try exact fun h => by cases h
    | node i =>
      simp only [Drive.saved, Option.ite_none_right_eq_some] at hs
      obtain ⟨hwait, hs⟩ := hs
      obtain ⟨n, -, hs⟩ := Option.bind_eq_some_iff.1 hs
      obtain ⟨w, -, hs⟩ := Option.bind_eq_some_iff.1 hs
      cases hs
      rw [show (d₁.setWork i w).stage = .waiting from hwait]
      exact fun h => by cases h
  intro ho
  cases hm with
  | create | created | quit => cases ho
  | locked => rfl
  | acquire =>
    unfold Drive.send at ho ⊢
    cases he : e.store with
    | memory =>
      rw [he] at ho
      exact h ho
    | postgres =>
      rw [he] at ho
      exact h ho
  | commit => exact h ho
  | answer _ hs | conflict _ hs | broken _ _ hs | cut _ _ hs => exact absurd ho (hsaved hs)
  | node hs | strike hs =>
    have hstage : d.stage = .opening := ho
    rw [hs] at hstage
    cases hstage
  | struck | failed =>
    obtain ⟨o, hs, -⟩ := d.finish_stage _
    rw [hs] at ho
    cases ho
  | again => exact absurd ho (hschedule d)

/-- A secure task that raises has spoiled its node. -/
theorem Goes.spoiled {lookup : String → Option V} {n : AnalyticalNode V} {w w' : Work V}
    {ev : NodeEvent V} (hg : Goes e lookup n w ev w') (ha : w.phase.Agrees w.execution)
    (hsecure : w.phase.exposed → w'.phase.error = none) {x : Raised}
    (hx : w'.phase = .ended (some x)) : w'.execution.Spoiled := by
  have herror : w'.phase.error = some x := by rw [hx]; rfl
  have hnot : w.phase.exposed = false := by
    by_contra hexposed
    rw [hsecure (by simpa using hexposed)] at herror
    cases herror
  have hclosing : ∀ f, w.phase = .closing (some f) → w.execution.Spoiled := fun f hf => by
    rw [hf] at ha
    exact ⟨.inl ha.1, by rw [ha.2]; rfl⟩
  cases hg with
  | unprepared hp =>
    rw [hp] at hnot
    cases hnot
  | @close failure hp =>
    cases failure with
    | none =>
      rw [hp] at hnot
      cases hnot
    | some f => exact hclosing f hp
  | unsaved hp =>
    cases hph : w.phase with
    | closing failure =>
      rw [hph] at hnot
      cases failure with
      | none => cases hnot
      | some f => exact hclosing f hph
    | opening =>
      rw [hph] at hnot
      cases hnot
    | _ =>
      rw [hph] at hp
      cases hp
  | _ => cases hx

/-- No task has left its node `RUNNING`. -/
theorem not_running_of_over (hd : d.Sound g) (hr : d.Orderly) (hs : d.stage = .waiting)
    (hover : ∀ j ∈ g.ids, (d.phase j).finished) (i : String) :
    (d.memory.nodes i).status ≠ .running := by
  have hagrees := hd.agrees hs i
  have hfinished : (d.phase i).finished := by
    by_cases hi : i ∈ g.ids
    · exact hover i hi
    · rw [(hd.outside i hi).1]
      rfl
  cases hp : d.phase i with
  | idle =>
    rw [hp] at hagrees
    exact hagrees
  | withdrawn =>
    rw [hp] at hagrees
    rw [show (d.memory.nodes i).status = .pending from hagrees]
    exact fun h => by cases h
  | ended failure =>
    rw [hp] at hagrees
    cases failure with
    | none =>
      rw [show (d.memory.nodes i).status = .completed from hagrees]
      exact fun h => by cases h
    | some x =>
      rcases (hr.raised i x hp).1 with h | h <;> rw [h] <;> exact fun h => by cases h
  | _ =>
    rw [hp] at hfinished
    cases hfinished

/-- The drive comes to the end of its tasks. -/
theorem tidy_finish {o : Outcome} (hrunning : ∀ i, (d.memory.nodes i).status ≠ .running)
    (hr : ∀ i x, d.phase i = .ended (some x) → (d.memory.nodes i).Spoiled) :
    (d.finish o).memory.Tidy ∧ (d.finish o).Orderly := by
  have hstage : ∀ {st}, (d.finish o).stage = st → st ≠ .opening ∧ st ≠ .waiting := by
    intro st hst
    obtain ⟨o', ho', -⟩ := d.finish_stage o
    rw [ho'] at hst
    rw [← hst]
    exact ⟨fun h => by (cases h), fun h => by (cases h)⟩
  have hdriven : (d.finish o).stage = .opening ∨ (d.finish o).stage = .waiting →
      (d.finish o).memory.status = .running := fun h =>
    h.elim (fun h => absurd h (hstage rfl).1) fun h => absurd h (hstage rfl).2
  rcases d.finish_cases o with ⟨m, -, -, -, hn⟩ | ⟨-, hn, -⟩
  · refine ⟨fun _ i => ?_, hdriven, fun i x hx => ?_⟩
    · rw [hn]
      dsimp only
      split
      · exact fun h => by cases h
      · exact hrunning i
    · rw [Drive.finish_phase] at hx
      rw [hn]
      dsimp only
      split
      · exact ⟨.inr rfl, rfl⟩
      · exact hr i x hx
  · refine ⟨fun _ i => by rw [hn]; exact hrunning i, hdriven, fun i x hx => ?_⟩
    rw [Drive.finish_phase] at hx
    rw [hn]
    exact hr i x hx

theorem tidy_schedule (hstatus : d.memory.status = .running)
    (hrunning : ∀ i, (d.memory.nodes i).status ≠ .running)
    (hr : ∀ i x, d.phase i = .ended (some x) → (d.memory.nodes i).Spoiled) :
    (d.schedule g).memory.Tidy ∧ (d.schedule g).Orderly := by
  have hs := scheduled g d
  generalize d.schedule g = d' at hs
  cases hs with
  | completed | failedAt | stuck => exact tidy_finish hrunning hr
  | wave =>
    refine ⟨.of_running hstatus, fun _ => hstatus, fun i x hx => ?_⟩
    dsimp only at hx
    split at hx <;> cases hx

theorem tidy_turn {a : Act V} (hd : d.Sound g) (hq : d.memory.Tidy) (hr : d.Orderly)
    (ht : Turn e g d a d') (hopen : d'.stage = .opening → d'.memory.status = .running)
    (hsecure : Secure g d a d') : d'.memory.Tidy ∧ d'.Orderly := by
  cases ht with
  | still hw hs hst =>
    have hn : d'.memory.nodes = d.memory.nodes :=
      funext fun i => congrArg Work.execution (congrFun hw i)
    have hraised : ∀ i x, d'.phase i = .ended (some x) → (d'.memory.nodes i).Spoiled :=
      fun i x hx => by
        rw [hn]
        rw [show d'.phase i = d.phase i from congrArg Work.phase (congrFun hw i)] at hx
        exact hr.raised i x hx
    rcases hst with hst | hst
    · refine ⟨hq.still hn hst, fun h => ?_, hraised⟩
      rcases h with h | h
      · exact hopen h
      · rw [hst]
        exact hr.driven (.inr (hs.waiting h))
    · exact ⟨.of_running (hopen hst), fun _ => hopen hst, hraised⟩
  | @work i n ev w _ hs hn hg _ hw hs' hst _ =>
    have hstatus : d'.memory.status = .running := hst.trans (hr.driven (.inr hs))
    refine ⟨.of_running hstatus, fun _ => hstatus, fun j x hx => ?_⟩
    by_cases hji : j = i
    · subst hji
      have hself : d'.work j = w := by rw [hw, Function.update_self]
      have hphase : d'.phase j = w.phase := congrArg Work.phase hself
      have hexecution : d'.memory.nodes j = w.execution := congrArg Work.execution hself
      rw [hphase] at hx
      rw [hexecution]
      refine hg.spoiled (hd.agrees hs j) (fun hexposed => ?_) hx
      rw [← hphase]
      exact hsecure j (GraphFields.mem_ids_of_node hn) hexposed
    · have hother : d'.work j = d.work j := by rw [hw, Function.update_of_ne hji]
      rw [show d'.phase j = d.phase j from congrArg Work.phase hother] at hx
      rw [show d'.memory.nodes j = d.memory.nodes j from congrArg Work.execution hother]
      exact hr.raised j x hx
  | @schedule d₁ hd₁ hc =>
    have hn : ∀ i, d₁.memory.nodes i = d.memory.nodes i := fun i =>
      congrArg Work.execution (congrFun hd₁.work i)
    have hp : ∀ i, d₁.phase i = d.phase i := fun i => congrArg Work.phase (congrFun hd₁.work i)
    refine tidy_schedule ?_ (fun i => ?_) fun i x hx => ?_
    · rw [hd₁.status]
      rcases hc with hs | ⟨hs, -⟩
      · exact hr.driven (.inl hs)
      · exact hr.driven (.inr hs)
    · rw [hn]
      rcases hc with hs | ⟨hs, -, hover⟩
      · exact (hd.early (by rw [hs]; rfl) i).1
      · exact not_running_of_over hd hr hs (fun j hj => (hover j hj).1) i
    · rw [hp] at hx
      rw [hn]
      exact hr.raised i x hx
  | finish hs hover _ => exact tidy_finish (not_running_of_over hd hr hs hover) hr.raised

/-- **Every secure move keeps the nodes in order.** -/
theorem carried_tidy (e : Engine V) (g : AnalyticalGraph V) :
    Carried e g Tidy Drive.Orderly (Secure g) where
  version _ _ h := h.still rfl rfl
  kept _ h := h.kept e
  run _ := ⟨fun hf => by (cases hf), fun h => by (rcases h with h | h <;> cases h),
    fun _ _ hx => by (cases hx)⟩
  resume p _ := ⟨.recover p, fun h => by (rcases h with h | h <;> cases h),
    fun _ _ hx => by (cases hx)⟩
  move _ _ _ _ _ hd hq hr hm hc :=
    tidy_turn hd hq hr hm.turn (hm.opens fun h => hr.driven (.inl h)) hc

/-! ## Runs -/

/-- **How the nodes of a graph end**, in any number of drives: once the graph is at its end in the
    store, no node is `RUNNING`, and a node whose task has raised is `FAILED` or `CANCELLED`, with
    an error. -/
theorem Fleet.ends_tidy (e : Engine V) (g : AnalyticalGraph V) {t : Fleet V}
    (hs : Steps (Fleet.step e g) (Fleet.Under e g (Secure g)) {} t) :
    (∀ p, t.row = some p → p.status.final → ∀ i, (p.nodes i).status ≠ .running) ∧
      ∀ k d, t.drives k = some d → ∀ i x, d.phase i = .ended (some x) →
        ((d.memory.nodes i).status = .failed ∨ (d.memory.nodes i).status = .cancelled) ∧
          (d.memory.nodes i).error.isSome := by
  obtain ⟨hrow, hdrives⟩ := (carried_tidy e g).fleet hs
  exact ⟨fun p hp => (hrow p hp).2.2, fun k d hd => (hdrives k d hd).drive.raised⟩

/-- The handler of the first of three nodes raises. -/
def Sample.failing : List (FleetAct Sample.Value) :=
  .run 0 context :: (started ++ .node "a" .admitted :: checkpoint (.node "a") ++
    .node "a" (.raised (.other "ValueError" "no rows")) :: checkpoint (.node "a") ++
    handled "b" ++ handled "c" ++ .gathered (some "a") :: checkpoint .driver).map (.go 0)

theorem Fleet.ends_tidy_sample : ∃ p : AnalyticalGraphState Sample.Value,
    p.status = .failed ∧ (p.nodes "a").error = some "ValueError: no rows" ∧
      ∀ i, (p.nodes i).status ≠ .running := by
  let step := Fleet.step (Sample.engine .postgres) Sample.graph
  have hplay : ((play step {} Sample.failing).bind fun t => t.row.map fun p =>
      (p.status, (p.nodes "a").error)) = some (.failed, some "ValueError: no rows") := by rfl
  obtain ⟨t, ht, hplay⟩ := Option.bind_eq_some_iff.1 hplay
  obtain ⟨p, hp, hp'⟩ := Option.map_eq_some_iff.1 hplay
  simp only [Prod.mk.injEq] at hp'
  have halong : Along step (Fleet.Under (Sample.engine .postgres) Sample.graph
      (Secure Sample.graph)) {} Sample.failing := by decide +kernel
  have hends := Fleet.ends_tidy (Sample.engine .postgres) Sample.graph (steps_of_along halong ht)
  exact ⟨p, hp'.1, hp'.2, hends.1 p hp (by rw [hp'.1]; rfl)⟩

end TracciaRuntime.Analytics
