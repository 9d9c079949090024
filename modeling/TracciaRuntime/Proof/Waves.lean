/-
  The drives of a graph one after the other, and those in which nothing fails.

  * `Knows`, `Inv`: what a drive knows of the row; no other drive writes it, so that the row
    never gets ahead of the drive, whatever the store raises;
  * `Drive.Handles`: a handler runs; `Knows.handles`: what holds then;
  * `Inv.steps`: the row keeps what is `COMPLETED`;
  * `Clean`: no node is `FAILED` or `CANCELLED`, in memory, on its way to the store and in it;
    `Move.clean`: moves keep this that fail no node and in which no timer strikes;
  * `Healthy`: nothing strikes, no task raises, and the drive has the version of the row;
    `Healthy.move`: smooth moves in which no task raises keep this.
-/
import TracciaRuntime.Analytics.Sessions
import TracciaRuntime.Proof.Deadlines
import TracciaRuntime.Proof.Fleets

namespace TracciaRuntime.Analytics

open Machine AnalyticalGraphState

variable {V : Type} {e : Engine V} {g : AnalyticalGraph V} {row row' : Option (AnalyticalGraphState V)}
  {d d' : Drive V} {p p' : AnalyticalGraphState V}

/-! ## Tasks outside a wave -/

/-- Only a drive that waits has tasks. -/
def Drive.Live (d : Drive V) : Prop := ∀ i, (d.phase i).finished = false → d.stage = .waiting

/-- The handler of a node runs. -/
def Drive.Handles (d : Drive V) (i : String) : Prop :=
  ∃ inputs attempt, d.phase i = .handling inputs attempt

theorem Drive.live_schedule (d : Drive V) (g : AnalyticalGraph V)
    (h : ∀ i, (d.phase i).finished) : (d.schedule g).Live := by
  have hs := scheduled g d
  generalize d.schedule g = d' at hs
  cases hs with
  | wave => exact fun _ _ => rfl
  | _ =>
    intro i hi
    rw [Drive.finish_phase, h i] at hi
    cases hi

theorem Turn.live {a : Act V} (h : Turn e g d a d') (hd : d.Sound g) (hl : d.Live) : d'.Live := by
  cases h with
  | still hw hs _ =>
    intro i hi
    have hp : d'.phase i = d.phase i := congrArg Work.phase (congrFun hw i)
    rw [hp] at hi
    have hwait := hl i hi
    rw [hwait] at hs
    generalize d'.stage = s at hs
    cases hs with
    | same => rfl
    | early he _ => cases he
    | quit _ hne => exact absurd rfl hne
  | work _ _ _ _ _ hs => exact fun _ _ => hs
  | @schedule d₁ ha hc =>
    refine d₁.live_schedule g fun i => ?_
    have hp : d₁.phase i = d.phase i := congrArg Work.phase (congrFun ha.work i)
    rw [hp]
    rcases hc with hs | ⟨-, -, hover⟩
    · rw [(hd.early (by rw [hs]; rfl) i).2]
      rfl
    · by_cases hi : i ∈ g.ids
      · exact (hover i hi).1
      · rw [(hd.outside i hi).1]
        rfl
  | finish _ hover _ =>
    intro i hi
    rw [Drive.finish_phase] at hi
    by_cases hg : i ∈ g.ids
    · rw [hover i hg] at hi
      cases hi
    · rw [(hd.outside i hg).1] at hi
      cases hi

/-! ## What a drive knows -/

namespace Session

/-- What the drive knows of the row, which only it writes. -/
structure Knows (e : Engine V) (g : AnalyticalGraph V) (row : Option (AnalyticalGraphState V))
    (d : Drive V) : Prop where
  sound : d.Sound g
  flown : d.Flown g
  live : d.Live
  row : d.Registered → ∃ p, row = some p ∧ d.Linked e g (fun _ => True) p

structure Inv (e : Engine V) (g : AnalyticalGraph V) (s : Session V) : Prop where
  row : ∀ p, s.row = some p → Kept e p ∧ p.Sound g
  drive : ∀ d, s.drive = some d → Knows e g s.row d

/-- The row loses nothing. -/
def Keeping (row row' : Option (AnalyticalGraphState V)) : Prop :=
  ∀ p, row = some p → ∃ p', row' = some p' ∧ Keeps p p'

theorem Keeping.refl (row : Option (AnalyticalGraphState V)) : Keeping row row := fun p hp =>
  ⟨p, hp, .refl p⟩

theorem Knows.move {a : Act V} (h : Knows e g row d) (hm : Move e g row d a row' d')
    (hrow : ∀ p, row = some p → Kept e p ∧ p.Sound g) :
    Knows e g row' d' ∧ Keeping row row' ∧ ∀ p, row' = some p → Kept e p ∧ p.Sound g := by
  have hsound := hm.turn.sound h.sound
  have hflown := hm.flown h.flown
  have hlive := hm.turn.live h.sound h.live
  by_cases hr : d.Registered
  · obtain ⟨p, rfl, hl⟩ := h.row hr
    rcases hm.linked h.sound hl hr fun _ _ _ => trivial with ⟨rfl, hl'⟩ | ⟨p', rfl, hs⟩
    · exact ⟨⟨hsound, hflown, hlive, fun _ => ⟨p, rfl, hl'⟩⟩, .refl _, hrow⟩
    · refine ⟨⟨hsound, hflown, hlive, fun _ => ⟨p', rfl, hs.linked _⟩⟩, fun p₁ hp₁ => ?_, ?_⟩
      · cases hp₁
        exact ⟨p', rfl, hs.keeps trivial⟩
      · rintro p₁ hp₁
        cases hp₁
        exact hs.kept
  · rcases hm.unregistered h.flown hr with ⟨hs, rfl, rfl, rfl⟩ | ⟨rfl, hr'⟩
    · have hflight : d.flight = none := h.flown.grounded_of_early (.inl ⟨_, hs⟩)
      refine ⟨⟨hsound, hflown, hlive, fun _ => ⟨_, rfl, ⟨fun _ => below_kept e _, ?_⟩⟩⟩, nofun, ?_⟩
      · intro _ f hf
        rw [show ({ d with stage := .creating (some true) } : Drive V).flight = none from hflight]
          at hf
        cases hf
      · rintro p hp
        cases hp
        exact ⟨kept_kept e _, h.sound.memory.kept e⟩
    · exact ⟨⟨hsound, hflown, hlive, fun hr₁ => absurd hr₁ hr'⟩, .refl _, hrow⟩

theorem Knows.run (context : GraphExecutionContext) : Knows e g row (Drive.run context) where
  sound := by
    have h : Fleet.Attached e g row (Drive.run context) := .run context
    exact h.sound
  flown := nofun
  live i hi := by cases hi
  row := fun h => h.elim

theorem Knows.resume {id : String} {context : GraphExecutionContext}
    (h : Drive.resume id context row = .ok d) (hrow : ∀ p, row = some p → Kept e p ∧ p.Sound g) :
    Knows e g row d := by
  have ha := Fleet.Attached.resume h hrow
  obtain ⟨p, rfl, -, -, rfl⟩ := Fleet.resume_cases h
  refine ⟨ha.sound, ha.flown, fun i hi => (by cases hi), fun hr => ?_⟩
  obtain ⟨p', hp', hl, -⟩ := ha.row hr
  cases hp'
  -- the drive has the version of the row
  exact ⟨p, rfl, fun _ => hl.below rfl, fun _ f hf => by cases hf⟩

theorem Inv.start : Inv e g ({} : Session V) :=
  ⟨fun p hp => by (cases hp), fun d hd => by (cases hd)⟩

theorem Inv.step {s s' : Session V} {a : SessionAct V} (h : Inv e g s)
    (hs : s.step e g a = some s') : Inv e g s' ∧ Keeping s.row s'.row := by
  cases a with
  | run context =>
    simp only [Session.step, Option.ite_none_right_eq_some] at hs
    obtain ⟨-, hs⟩ := hs
    cases hs
    exact ⟨⟨h.row, fun d hd => by cases hd; exact .run context⟩, .refl _⟩
  | resume context =>
    simp only [Session.step, Option.ite_none_right_eq_some] at hs
    obtain ⟨-, hs⟩ := hs
    split at hs
    · rename_i d hd
      cases hs
      exact ⟨⟨h.row, fun d hd' => by cases hd'; exact .resume hd h.row⟩, .refl _⟩
    · cases hs
      exact ⟨h, .refl _⟩
  | go a =>
    obtain ⟨d, hd, hs⟩ := Option.bind_eq_some_iff.1 hs
    obtain ⟨⟨row', d'⟩, hstep, hs⟩ := Option.bind_eq_some_iff.1 hs
    cases hs
    obtain ⟨hk, hg, hrow⟩ := (h.drive d hd).move (move_of_step hstep) h.row
    exact ⟨⟨hrow, fun d₁ hd₁ => by cases hd₁; exact hk⟩, hg⟩
  | crash =>
    cases hs
    exact ⟨⟨h.row, fun d hd => by (cases hd)⟩, .refl _⟩

theorem Inv.steps {s s' : Session V} {P : Session V → SessionAct V → Prop} (h : Inv e g s)
    (hs : Steps (Session.step e g) P s s') : Inv e g s' ∧ Keeping s.row s'.row := by
  induction hs with
  | refl => exact ⟨h, .refl _⟩
  | tail _ hm ih =>
    obtain ⟨a, -, hstep⟩ := hm
    obtain ⟨hi, hk⟩ := ih
    obtain ⟨hi', hk'⟩ := hi.step hstep
    refine ⟨hi', fun p hp => ?_⟩
    obtain ⟨p₁, hp₁, hkeeps⟩ := hk p hp
    obtain ⟨p₂, hp₂, hkeeps'⟩ := hk' p₁ hp₁
    exact ⟨p₂, hp₂, hkeeps.trans hkeeps'⟩

/-- **What holds while a handler runs.** -/
theorem Knows.handles (h : Knows e g row d) {i : String} (hi : d.Handles i) :
    (∀ j ∈ g.dependencies i, d.statusOf j = .completed ∧ (d.memory.results j).isSome) ∧
      d.statusOf i ≠ .completed ∧ ∀ p, row = some p → (p.nodes i).status ≠ .completed := by
  obtain ⟨inputs, attempt, hphase⟩ := hi
  have hwait : d.stage = .waiting := h.live i (by rw [hphase]; rfl)
  have hrunning : d.statusOf i = .running := by
    have hagrees := h.sound.agrees hwait i
    rw [hphase] at hagrees
    exact hagrees
  refine ⟨fun j hj => ?_, by rw [hrunning]; nofun, fun p hp hc => ?_⟩
  · have hc := h.sound.deps hwait i (by rw [hphase]; nofun) j hj
    exact ⟨hc, h.sound.result j hc⟩
  · obtain ⟨p', hp', hl⟩ := h.row (by rw [Drive.Registered, hwait]; trivial)
    rw [hp] at hp'
    cases hp'
    rw [Drive.statusOf, (hl.below trivial i hc).1, hc] at hrunning
    cases hrunning

end Session

/-! ## Nodes that have not failed -/

variable {a : Act V}

/-- No node is `FAILED` or `CANCELLED`. -/
def AnalyticalGraphState.Clean (s : AnalyticalGraphState V) : Prop :=
  ∀ i, (s.nodes i).status ≠ .failed ∧ (s.nodes i).status ≠ .cancelled

theorem AnalyticalGraphState.clean_recover (h : p.Clean) : p.recover.Clean := by
  intro i
  rcases Fleet.recover_cases p i with ⟨-, hi⟩ | ⟨-, hi⟩
  · rw [hi]
    exact ⟨nofun, nofun⟩
  · rw [hi]
    exact h i

/-- The task is on its way out of `except BaseException`. -/
def Phase.fails : Phase V → Bool
  | .closing (some _) => true
  | _ => false

theorem Goes.clean {lookup : String → Option V} {n : AnalyticalNode V} {w w' : Work V}
    {ev : NodeEvent V} (h : Goes e lookup n w ev w') (hp : w'.phase.fails = false)
    (hw : w.execution.status ≠ .failed ∧ w.execution.status ≠ .cancelled) :
    w'.execution.status ≠ .failed ∧ w'.execution.status ≠ .cancelled := by
  cases h with
  | begin => exact ⟨nofun, nofun⟩
  | fail => cases hp
  | complete => exact ⟨nofun, nofun⟩
  | _ => exact hw

namespace Drive

theorem clean_setWork {lookup : String → Option V} {i : String} {n : AnalyticalNode V}
    {ev : NodeEvent V} {w : Work V} (h : d.memory.Clean) (hg : Goes e lookup n (d.work i) ev w)
    (hp : ((d.setWork i w).phase i).fails = false) : (d.setWork i w).memory.Clean := by
  rw [show (d.setWork i w).phase i = w.phase from Function.update_self ..] at hp
  intro j
  by_cases hj : j = i
  · subst hj
    rw [show (d.setWork j w).memory.nodes j = w.execution from Function.update_self ..]
    exact hg.clean hp (h j)
  · rw [show (d.setWork i w).memory.nodes j = d.memory.nodes j from Function.update_of_ne hj _ _]
    exact h j

theorem clean_finish {o : Outcome} (h : d.memory.Clean) (ho : ∀ m, o ≠ .raised (.timeout m)) :
    (d.finish o).memory.Clean := by
  rcases d.finish_cases o with ⟨m, hm, -⟩ | ⟨-, hn, -⟩
  · exact absurd hm (ho m)
  · intro i
    rw [hn]
    exact h i

theorem clean_schedule (h : d.memory.Clean) : (d.schedule g).memory.Clean := by
  have hs := scheduled g d
  generalize d.schedule g = d' at hs
  cases hs with
  | wave => exact h
  | _ => exact clean_finish h nofun

theorem clean_saved {b : Actor} {failure : Option Raised} (h : d.memory.Clean)
    (hs : d.saved e g b failure = some d') (hp : ∀ i, (d'.phase i).fails = false) :
    d'.memory.Clean := by
  cases b with
  | driver =>
    simp only [saved] at hs
    split at hs <;> cases hs
    · exact clean_schedule h
    all_goals exact h
  | node i =>
    simp only [saved, Option.ite_none_right_eq_some] at hs
    obtain ⟨-, hs⟩ := hs
    obtain ⟨n, -, hs⟩ := Option.bind_eq_some_iff.1 hs
    obtain ⟨w, hw, hs⟩ := Option.bind_eq_some_iff.1 hs
    cases hs
    exact clean_setWork h (goes_of_step hw) (hp i)

end Drive

/-- No node of a drive has failed. -/
structure Clean (e : Engine V) (row : Option (AnalyticalGraphState V)) (d : Drive V) : Prop where
  memory : d.memory.Clean
  sent : e.store = .postgres → ∀ f ∈ d.flight, f.verdict = none → f.sent.Clean
  row : ∀ p, row = some p → p.Clean

theorem Clean.of_flight (h : Clean e row d) (hm : d'.memory.Clean)
    (hf : d'.flight = d.flight ∨ d'.flight = none) : Clean e row d' := by
  refine ⟨hm, fun he f hff => ?_, h.row⟩
  rcases hf with hf | hf
  · rw [hf] at hff
    exact h.sent he f hff
  · rw [hf] at hff
    cases hff

theorem Clean.run (context : GraphExecutionContext) (hrow : ∀ p, row = some p → p.Clean) :
    Clean e row (Drive.run context) :=
  ⟨fun _ => ⟨nofun, nofun⟩, fun _ f hf => (by cases hf), hrow⟩

theorem Clean.resume {id : String} {context : GraphExecutionContext}
    (h : Drive.resume id context row = .ok d) (hrow : ∀ p, row = some p → p.Clean) :
    Clean e row d := by
  obtain ⟨p, rfl, -, -, rfl⟩ := Fleet.resume_cases h
  exact ⟨clean_recover (hrow p rfl), fun _ f hf => (by cases hf), hrow⟩

/-- What a call of `save` writes. -/
theorem Clean.payload {b : Actor} {expected : Nat} {sent : AnalyticalGraphState V}
    (h : Clean e row d) (hf : d.flight = some ⟨b, expected, sent, none⟩) :
    (d.payload e ⟨b, expected, sent, none⟩).Clean := by
  unfold Drive.payload
  cases he : e.store with
  | memory => exact h.memory
  | postgres => exact h.sent he _ hf rfl

/-- **Moves that fail no node**, and in which no timer strikes. -/
theorem Move.clean (h : Move e g row d a row' d') (hc : Clean e row d)
    (ht : ∀ x, Raises d a x → ∀ m, x ≠ .timeout m) (hp : ∀ i, (d'.phase i).fails = false) :
    Clean e row' d' := by
  cases h with
  | @create ok _ hs hcreate =>
    refine ⟨hc.memory, hc.sent, fun p hrow => ?_⟩
    cases row with
    | none =>
      cases hcreate
      cases hrow
      intro i
      rw [kept_nodes]
      exact hc.memory i
    | some p₀ =>
      cases hcreate
      exact hc.row p hrow
  | created | quit | locked | strike => exact hc.of_flight hc.memory (.inl rfl)
  | acquire hflight hs =>
    unfold Drive.send
    cases he : e.store with
    | memory =>
      refine ⟨hc.memory, fun h => ?_, hc.row⟩
      rw [he] at h
      cases h
    | postgres =>
      refine ⟨hc.memory, fun _ f hf _ => ?_, hc.row⟩
      cases hf
      exact hc.memory
  | @commit b expected sent ok row' hflight hsave =>
    refine ⟨hc.memory, fun _ f hf hv => ?_, fun p hrow => ?_⟩
    · cases hf
      cases hv
    · rcases StoreKind.save_cases hsave with ⟨-, rfl, -⟩ | ⟨-, rfl, -⟩
      · cases hrow
        exact hc.payload hflight
      · exact hc.row p hrow
  | answer _ hs | conflict _ hs | broken _ _ hs =>
    refine hc.of_flight (Drive.clean_saved ?_ hs hp) (.inr (Drive.saved_frame hs).1)
    exact hc.memory
  | cut _ _ hs =>
    exact hc.of_flight (Drive.clean_saved hc.memory hs hp) (.inl (Drive.saved_frame hs).1)
  | @node i n ev w hs hn hcan hg =>
    exact hc.of_flight (Drive.clean_setWork hc.memory hg (hp i)) (.inl rfl)
  | @struck _ s hs hover hst =>
    have hx := ht s.raised (.inl (by rw [hst]; rfl))
    exact hc.of_flight (Drive.clean_finish hc.memory fun m hm => hx m (Outcome.raised.inj hm))
      (.inl (d.finish_flight _))
  | again => exact hc.of_flight (Drive.clean_schedule hc.memory) (.inl (d.schedule_frame g).1)
  | @failed i x hs hover hst herr =>
    have hx := ht x (.inr ⟨hst, i, rfl, herr⟩)
    exact hc.of_flight (Drive.clean_finish hc.memory fun m hm => hx m (Outcome.raised.inj hm))
      (.inl (d.finish_flight _))

/-! ## Drives in which no task raises -/

/-- The task raises, or has raised. -/
def Phase.raises : Phase V → Bool
  | .closing (some _) | .ended (some _) | .withdrawn => true
  | _ => false

/-- Neither a timer nor a cancellation strikes, and no call of the store raises. -/
def Act.smooth : Act V → Bool
  | .uncreated _ | .broken _ | .cut _ | .strike _ => false
  | _ => true

/-- The graph is `COMPLETED`, and all its nodes are. -/
def AnalyticalGraphState.Done (g : AnalyticalGraph V) (s : AnalyticalGraphState V) : Prop :=
  s.status = .completed ∧ ∀ i ∈ g.ids, (s.nodes i).status = .completed

theorem AnalyticalGraphState.Done.results (h : p.Done g) (hp : p.Sound g) (i : String) :
    (p.results i).isSome ↔ i ∈ g.ids := by
  constructor
  · intro hi
    by_contra hout
    rw [hp.outside i hout] at hi
    cases hi
  · exact fun hi => hp.result i (h.2 i hi)

/-- The drive is past its tasks. -/
def Stage.over : Stage → Bool
  | .closing _ | .ended _ => true
  | _ => false

namespace Session

/-- What holds of a drive in which nothing has failed. -/
structure Healthy (e : Engine V) (g : AnalyticalGraph V) (row : Option (AnalyticalGraphState V))
    (d : Drive V) : Prop where
  strike : d.strike = none
  phases : ∀ i, (d.phase i).raises = false
  current : d.Registered → ∃ p, row = some p ∧ p.version = d.base
  answered : ∀ f ∈ d.flight, f.verdict ≠ some false
  closing : ∀ o, d.stage = .closing o → o = .completed ∧ d.memory.Done g ∧ ∀ f ∈ d.flight,
    (e.store = .postgres → f.verdict = none → f.sent.Done g) ∧
    (f.verdict = some true → ∃ p, row = some p ∧ p.Done g)
  ended : ∀ o, d.stage = .ended o → o = .raised (e.store.exists_ g.id) ∨
    o = .completed ∧ ∃ p, row = some p ∧ p.Done g

/-- A drive at its tasks, or before them. -/
theorem Healthy.of_open (hstrike : d.strike = none) (hphases : ∀ i, (d.phase i).raises = false)
    (hcurrent : d.Registered → ∃ p, row = some p ∧ p.version = d.base)
    (hflight : d.flight = none) (hopen : d.stage.over = false) : Healthy e g row d where
  strike := hstrike
  phases := hphases
  current := hcurrent
  answered f hf := by
    rw [hflight] at hf
    cases hf
  closing o ho := by
    rw [ho] at hopen
    cases hopen
  ended o ho := by
    rw [ho] at hopen
    cases hopen

theorem Healthy.run (context : GraphExecutionContext) : Healthy e g row (Drive.run context) :=
  .of_open rfl (fun _ => rfl) (fun h => h.elim) rfl rfl

theorem Healthy.resume {id : String} {context : GraphExecutionContext}
    (h : Drive.resume id context row = .ok d) : Healthy e g row d := by
  obtain ⟨p, rfl, -, -, rfl⟩ := Fleet.resume_cases h
  exact .of_open rfl (fun _ => rfl) (fun _ => ⟨p, rfl, rfl⟩) rfl rfl

/-- A round of the scheduler comes to a wave or to the end. -/
theorem healthy_schedule (hstrike : d.strike = none) (hphases : ∀ i, (d.phase i).raises = false)
    (hclean : d.memory.Clean) (hrow : ∃ p, row = some p ∧ p.version = d.memory.version)
    (hflight : d.flight = none) (hsound : (d.schedule g).Sound g) :
    Healthy e g row (d.schedule g) := by
  have hs := scheduled g d
  generalize d.schedule g = d' at hs hsound
  cases hs with
  | completed hall =>
    have hf : (d.finish .completed).flight = none := hflight
    refine ⟨hstrike, hphases, fun _ => ?_, ?_, fun o ho => ?_, fun o ho => by (cases ho)⟩
    · rw [Drive.base, hf]
      exact hrow
    · intro f hff
      rw [hf] at hff
      cases hff
    · cases ho
      refine ⟨rfl, ⟨rfl, hall⟩, fun f hff => ?_⟩
      rw [hf] at hff
      cases hff
  | failedAt hfailed =>
    obtain ⟨i, -, hi⟩ := hfailed
    rcases hi with hi | hi
    · exact absurd hi (hclean i).1
    · exact absurd hi (hclean i).2
  | stuck => exact absurd rfl hsound.stuck.1
  | wave =>
    refine .of_open hstrike (fun i => ?_) (fun _ => ?_) hflight rfl
    · dsimp only
      split_ifs <;> rfl
    · rw [Drive.base, show ({ d with
        phase := fun i => if i ∈ d.ready g then .queued else .idle
        stage := .waiting } : Drive V).flight = none from hflight]
      exact hrow

theorem done_reread (values : Values V) (h : p.Done g) : (p.reread values).Done g := h

theorem Healthy.create {ok : Bool} (h : Healthy e g row d) (hf : d.Flown g)
    (hs : d.stage = .creating none) (hc : e.store.create e.values row d.memory = (ok, row')) :
    Healthy e g row' { d with stage := .creating (some ok) } := by
  have hflight : d.flight = none := hf.grounded_of_early (.inl ⟨_, hs⟩)
  cases row with
  | none =>
    cases hc
    refine .of_open h.strike h.phases (fun _ => ⟨_, rfl, ?_⟩) hflight rfl
    rw [kept_version, Drive.base, show ({ d with stage := .creating (some true) } :
      Drive V).flight = none from hflight]
  | some p =>
    cases hc
    exact .of_open h.strike h.phases (fun hr => hr.elim) hflight rfl

theorem Healthy.created (h : Healthy e g row d) (hf : d.Flown g)
    (hs : d.stage = .creating (some true)) : Healthy e g row { d with stage := .locking } := by
  have hflight : d.flight = none := hf.grounded_of_early (.inl ⟨_, hs⟩)
  refine .of_open h.strike h.phases (fun _ => ?_) hflight rfl
  exact h.current (by rw [Drive.Registered, hs]; trivial)

/-- The graph is there already. -/
theorem Healthy.refused (h : Healthy e g row d) :
    Healthy e g row { d with stage := .ended (.raised (e.store.exists_ g.id)) } := by
  refine ⟨h.strike, h.phases, fun hr => hr.elim, h.answered, fun o ho => by (cases ho),
    fun o ho => ?_⟩
  cases ho
  exact .inl rfl

theorem Healthy.locked (h : Healthy e g row d) (hf : d.Flown g) (hs : d.stage = .locking) :
    Healthy e g row
      { d with memory := { d.memory with status := .running }, stage := .opening } := by
  have hflight : d.flight = none := hf.grounded_of_early (.inr hs)
  refine .of_open h.strike h.phases (fun _ => ?_) hflight rfl
  exact h.current (by rw [Drive.Registered, hs]; trivial)

theorem Healthy.acquire {a : Actor} (h : Healthy e g row d) (hflight : d.flight = none)
    (hs : d.Saving g a) : Healthy e g row (d.send e a) := by
  have hr : d.Registered := by
    rcases hs.driver_or with ⟨-, hs | ⟨o, hs⟩⟩ | ⟨i, -, hs, -⟩ <;> rw [Drive.Registered, hs] <;>
      trivial
  obtain ⟨p, hp, hv⟩ := h.current hr
  rw [Drive.base, hflight] at hv
  have hended : ∀ o, d.stage ≠ .ended o := by
    rintro o ho
    rw [Drive.Registered, ho] at hr
    exact hr
  unfold Drive.send
  cases he : e.store with
  | memory =>
    refine ⟨h.strike, h.phases, fun _ => ⟨p, hp, hv⟩, fun f hf => ?_, fun o ho => ?_,
      fun o ho => absurd ho (hended o)⟩
    · cases hf
      intro hverdict
      cases hverdict
    · obtain ⟨ho', hdone, -⟩ := h.closing o ho
      refine ⟨ho', hdone, fun f hf => ⟨fun h => ?_, ?_⟩⟩
      · rw [he] at h
        cases h
      · cases hf
        intro hverdict
        cases hverdict
  | postgres =>
    refine ⟨h.strike, h.phases, fun _ => ⟨p, hp, hv⟩, fun f hf => ?_, fun o ho => ?_,
      fun o ho => absurd ho (hended o)⟩
    · cases hf
      intro hverdict
      cases hverdict
    · obtain ⟨ho', hdone, -⟩ := h.closing o ho
      refine ⟨ho', hdone, fun f hf => ?_⟩
      cases hf
      exact ⟨fun _ _ => done_reread e.values hdone, fun hverdict => by (cases hverdict)⟩

/-- The write succeeds: nobody else has written the row. -/
theorem Healthy.commit {a : Actor} {expected : Nat} {sent : AnalyticalGraphState V} {ok : Bool}
    (h : Healthy e g row d) (hk : Knows e g row d)
    (hflight : d.flight = some ⟨a, expected, sent, none⟩)
    (hs : StoreKind.save row (d.payload e ⟨a, expected, sent, none⟩) expected = (ok, row')) :
    Healthy e g row' { d with
      memory := { d.memory with version := if ok then expected + 1 else d.memory.version }
      flight := some ⟨a, expected, sent, some ok⟩ } := by
  have hsaving : d.Saving g a := hk.flown ⟨a, expected, sent, none⟩ hflight
  have hr : d.Registered := by
    rcases hsaving.driver_or with ⟨-, hs | ⟨o, hs⟩⟩ | ⟨i, -, hs, -⟩ <;>
      rw [Drive.Registered, hs] <;> trivial
  have hended : ∀ o, d.stage ≠ .ended o := by
    rintro o ho
    rw [Drive.Registered, ho] at hr
    exact hr
  obtain ⟨p, rfl, hv⟩ := h.current hr
  obtain ⟨p', hp', hl⟩ := hk.row hr
  cases hp'
  rw [Drive.base, hflight] at hv
  rw [StoreKind.save, if_pos hv] at hs
  cases hs
  have hversion : (d.payload e ⟨a, expected, sent, none⟩).version = expected + 1 := by
    unfold Drive.payload
    cases he : e.store with
    | memory => rfl
    | postgres => exact (hl.sent he _ hflight rfl).2.1
  refine ⟨h.strike, h.phases, fun _ => ⟨_, rfl, hversion⟩, fun f hf => ?_, fun o ho => ?_,
    fun o ho => absurd ho (hended o)⟩
  · cases hf
    intro hverdict
    cases hverdict
  · obtain ⟨ho', hdone, hfl⟩ := h.closing o ho
    refine ⟨ho', hdone, fun f hf => ?_⟩
    cases hf
    refine ⟨fun _ hverdict => by (cases hverdict), fun _ => ⟨_, rfl, ?_⟩⟩
    unfold Drive.payload
    cases he : e.store with
    | memory => exact hdone
    | postgres => exact (hfl _ hflight).1 he rfl

/-- A task goes on. -/
theorem Healthy.setWork {i : String} {w : Work V} (h : Healthy e g row d)
    (hs : d.stage = .waiting) (hp : w.phase.raises = false) :
    Healthy e g row (d.setWork i w) where
  strike := h.strike
  phases j := by
    by_cases hj : j = i
    · subst hj
      rw [show (d.setWork j w).phase j = w.phase from Function.update_self ..]
      exact hp
    · rw [show (d.setWork i w).phase j = d.phase j from Function.update_of_ne hj _ _]
      exact h.phases j
  current := h.current
  answered := h.answered
  closing o ho := by
    rw [show (d.setWork i w).stage = .waiting from hs] at ho
    cases ho
  ended o ho := by
    rw [show (d.setWork i w).stage = .waiting from hs] at ho
    cases ho

/-- A checkpoint that has succeeded has left its version in the row. -/
theorem Healthy.version {a : Actor} {expected : Nat} {sent : AnalyticalGraphState V}
    (h : Healthy e g row d) (hf : d.Flown g)
    (hflight : d.flight = some ⟨a, expected, sent, some true⟩) :
    ∃ p, row = some p ∧ p.version = d.memory.version := by
  have hsaving : d.Saving g a := hf ⟨a, expected, sent, some true⟩ hflight
  have hr : d.Registered := by
    rcases hsaving.driver_or with ⟨-, hs | ⟨o, hs⟩⟩ | ⟨i, -, hs, -⟩ <;>
      rw [Drive.Registered, hs] <;> trivial
  obtain ⟨p, hp, hv⟩ := h.current hr
  rw [Drive.base, hflight] at hv
  exact ⟨p, hp, hv⟩

/-- The last checkpoint has succeeded. -/
theorem Healthy.closed {o : Outcome} {expected : Nat} {sent : AnalyticalGraphState V}
    (h : Healthy e g row d) (hs : d.stage = .closing o)
    (hflight : d.flight = some ⟨.driver, expected, sent, some true⟩) :
    Healthy e g row { d with stage := .ended o, flight := none } := by
  obtain ⟨ho, -, hfl⟩ := h.closing o hs
  have hdone := (hfl _ hflight).2 rfl
  refine ⟨h.strike, h.phases, fun hr => hr.elim, fun f hf => by (cases hf),
    fun o' ho' => by (cases ho'), fun o' ho' => ?_⟩
  cases ho'
  exact .inr ⟨ho, hdone⟩

theorem raises_of_error {ph : Phase V} {x : Raised} (h : ph.error = some x) :
    ph.raises = true := by
  cases ph with
  | withdrawn => rfl
  | ended failure =>
    rw [show failure = some x from h]
    rfl
  | _ => cases h

/-- Where nothing strikes and no task has raised, `gather` raises nothing. -/
theorem Healthy.quiet (h : Healthy e g row d) {x : Raised} : ¬ Raises d a x := by
  rintro (hst | ⟨-, j, -, herr⟩)
  · rw [h.strike] at hst
    cases hst
  · have hraises := raises_of_error herr
    rw [h.phases] at hraises
    cases hraises

theorem fails_of_raises {ph : Phase V} (h : ph.raises = false) : ph.fails = false := by
  cases ph with
  | closing failure =>
    cases failure with
    | none => rfl
    | some x => cases h
  | _ => rfl

/-- What the smooth moves of a drive do in which nothing fails. -/
inductive Advances (e : Engine V) (g : AnalyticalGraph V) (row : Option (AnalyticalGraphState V))
    (d : Drive V) : Option (AnalyticalGraphState V) → Drive V → Prop
  | create {ok : Bool} {row' : Option (AnalyticalGraphState V)} : d.stage = .creating none →
      e.store.create e.values row d.memory = (ok, row') →
      Advances e g row d row' { d with stage := .creating (some ok) }
  | created : d.stage = .creating (some true) → Advances e g row d row { d with stage := .locking }
  | refused : d.stage = .creating (some false) →
      Advances e g row d row { d with stage := .ended (.raised (e.store.exists_ g.id)) }
  | locked : d.stage = .locking →
      Advances e g row d row
        { d with memory := { d.memory with status := .running }, stage := .opening }
  | acquire {a : Actor} : d.flight = none → d.Saving g a → Advances e g row d row (d.send e a)
  | commit {a : Actor} {expected : Nat} {sent : AnalyticalGraphState V} {ok : Bool}
      {row' : Option (AnalyticalGraphState V)} :
      d.flight = some ⟨a, expected, sent, none⟩ →
      StoreKind.save row (d.payload e ⟨a, expected, sent, none⟩) expected = (ok, row') →
      Advances e g row d row' { d with
        memory := { d.memory with version := if ok then expected + 1 else d.memory.version }
        flight := some ⟨a, expected, sent, some ok⟩ }
  | opened {expected : Nat} {sent : AnalyticalGraphState V} : d.stage = .opening →
      d.flight = some ⟨.driver, expected, sent, some true⟩ →
      Advances e g row d row ({ d with flight := none }.schedule g)
  | closed {o : Outcome} {expected : Nat} {sent : AnalyticalGraphState V} : d.stage = .closing o →
      d.flight = some ⟨.driver, expected, sent, some true⟩ →
      Advances e g row d row { d with stage := .ended o, flight := none }
  | saved {i : String} {n : AnalyticalNode V} {w : Work V} {expected : Nat}
      {sent : AnalyticalGraphState V} : d.stage = .waiting →
      d.flight = some ⟨.node i, expected, sent, some true⟩ → g.node i = some n →
      Goes e d.lookup n (d.work i) .saved w →
      Advances e g row d row ({ d with flight := none }.setWork i w)
  | node {i : String} {n : AnalyticalNode V} {ev : NodeEvent V} {w : Work V} :
      d.stage = .waiting → g.node i = some n → Goes e d.lookup n (d.work i) ev w →
      Advances e g row d row (d.setWork i w)
  | again : d.stage = .waiting → (∀ j ∈ g.ids, (d.phase j).finished) →
      Advances e g row d row (d.schedule g)

/-- Where nothing fails, a checkpoint that is answered has succeeded. -/
theorem Healthy.answer (h : Healthy e g row d) (hf : d.Flown g)
    (hs : d.step e g row .answer = some (row', d')) : Advances e g row d row' d' := by
  cases move_of_step hs with
  | quit hstage _ => simp [Drive.step, hf.grounded_of_early hstage] at hs
  | conflict hflight _ => exact absurd rfl (h.answered _ hflight)
  | @answer a _ _ _ hflight hsaved =>
    cases a with
    | driver =>
      simp only [Drive.saved] at hsaved
      split at hsaved
      · rename_i hstage _
        cases hsaved
        exact .opened hstage hflight
      · rename_i hstage _
        cases hsaved
        exact .closed hstage hflight
      · rename_i hnone
        cases hnone
      · rename_i hnone
        cases hnone
      · cases hsaved
    | node i =>
      simp only [Drive.saved, Option.ite_none_right_eq_some] at hsaved
      obtain ⟨hwait, hsaved⟩ := hsaved
      obtain ⟨n, hn, hsaved⟩ := Option.bind_eq_some_iff.1 hsaved
      obtain ⟨w, hw, hsaved⟩ := Option.bind_eq_some_iff.1 hsaved
      cases hsaved
      exact .saved hwait hflight hn (goes_of_step hw)

/-- **Where nothing fails, every smooth move advances the drive.** -/
theorem Healthy.advances {a : Act V} (h : Healthy e g row d) (hf : d.Flown g)
    (hs : d.step e g row a = some (row', d')) (ha : a.smooth) : Advances e g row d row' d' := by
  cases a with
  | create =>
    simp only [Drive.step, Option.ite_none_right_eq_some] at hs
    obtain ⟨hstage, hs⟩ := hs
    cases hs
    exact .create hstage rfl
  | created =>
    simp only [Drive.step] at hs
    split at hs
    · rename_i hstage
      cases hs
      exact .created hstage
    · rename_i hstage
      cases hs
      exact .refused hstage
    · cases hs
  | locked =>
    simp only [Drive.step, Option.ite_none_right_eq_some] at hs
    obtain ⟨hstage, hs⟩ := hs
    cases hs
    exact .locked hstage
  | acquire a =>
    simp only [Drive.step, Option.ite_none_right_eq_some] at hs
    obtain ⟨⟨hflight, hsaving⟩, hs⟩ := hs
    cases hs
    exact .acquire (Option.isNone_iff_eq_none.1 hflight) hsaving
  | commit =>
    simp only [Drive.step] at hs
    split at hs
    · rename_i hflight
      cases hs
      exact .commit hflight rfl
    · cases hs
  | answer => exact h.answer hf hs
  | node i ev =>
    obtain ⟨n, hn, hs⟩ := Option.bind_eq_some_iff.1 hs
    rw [Option.ite_none_right_eq_some] at hs
    obtain ⟨⟨hwait, -⟩, hs⟩ := hs
    obtain ⟨w, hw, hs⟩ := Option.bind_eq_some_iff.1 hs
    cases hs
    exact .node hwait hn (goes_of_step hw)
  | gathered j =>
    cases move_of_step hs with
    | quit hstage _ =>
      simp only [Drive.step, Option.ite_none_right_eq_some] at hs
      rcases hstage with ⟨v, hstage⟩ | hstage <;> rw [hstage] at hs <;> cases hs.1.1
    | again hwait hover => exact .again hwait hover
    | struck _ _ hst =>
      rw [h.strike] at hst
      cases hst
    | failed _ _ _ herr =>
      have hraises := raises_of_error herr
      rw [h.phases] at hraises
      cases hraises
  | uncreated _ => cases ha
  | broken _ => cases ha
  | cut _ => cases ha
  | strike _ => cases ha

/-- **A smooth move in which no task raises.** -/
theorem Healthy.move {a : Act V} (h : Healthy e g row d) (hk : Knows e g row d)
    (hc : d.memory.Clean) (hs : d.step e g row a = some (row', d')) (ha : a.smooth)
    (hphases : ∀ i, (d'.phase i).raises = false) : Healthy e g row' d' := by
  have hsound := (move_of_step hs).turn.sound hk.sound
  cases h.advances hk.flown hs ha with
  | create hstage hcreate => exact h.create hk.flown hstage hcreate
  | created hstage => exact h.created hk.flown hstage
  | refused => exact h.refused
  | locked hstage => exact h.locked hk.flown hstage
  | acquire hflight hsaving => exact h.acquire hflight hsaving
  | commit hflight hsave => exact h.commit hk hflight hsave
  | opened hstage hflight =>
    exact healthy_schedule h.strike h.phases hc (h.version hk.flown hflight) rfl hsound
  | closed hstage hflight => exact h.closed hstage hflight
  | @saved i _ w _ _ hwait hflight =>
    have hi := hphases i
    rw [show (({ d with flight := none } : Drive V).setWork i w).phase i = w.phase from
      Function.update_self ..] at hi
    have hopen : Healthy e g row { d with flight := none } := by
      refine .of_open h.strike h.phases (fun _ => h.version hk.flown hflight) rfl ?_
      rw [show ({ d with flight := none } : Drive V).stage = .waiting from hwait]
      rfl
    exact hopen.setWork hwait hi
  | @node i _ _ w hwait =>
    have hi := hphases i
    rw [show (d.setWork i w).phase i = w.phase from Function.update_self ..] at hi
    exact h.setWork hwait hi
  | again hwait hover =>
    have hflight := hk.flown.grounded_of_over hwait hover
    obtain ⟨p, hp, hv⟩ := h.current (by rw [Drive.Registered, hwait]; trivial)
    rw [Drive.base, hflight] at hv
    exact healthy_schedule h.strike h.phases hc ⟨p, hp, hv⟩ hflight hsound

end Session

end TracciaRuntime.Analytics
