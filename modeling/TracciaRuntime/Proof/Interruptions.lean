/-
  The resumption of a graph that was interrupted.

  * `Unscathed`: runs in which drives may be cancelled and the store may raise, but no node
    becomes `FAILED` or `CANCELLED`; `Scathless.steps`: the row stays clean;
  * `Resumes`: a resumed drive runs only nodes that are not `COMPLETED`, and ends `COMPLETED`;
  * `resumes`: a graph resumes after every unscathed run.
-/
import TracciaRuntime.Proof.Scheduling

namespace TracciaRuntime.Analytics

open Machine AnalyticalGraphState

variable {V : Type} {e : Engine V} {g : AnalyticalGraph V} {row row' : Option (AnalyticalGraphState V)}
  {d d' : Drive V} {p p' : AnalyticalGraphState V} {a : Act V}

/-! ## Interrupted drives -/

/-- The task fails its node, or raises a `TimeoutError`. -/
def Phase.spoils : Phase V → Bool
  | .closing (some _) | .ended (some (.timeout _)) => true
  | _ => false

theorem Phase.fails_of_spoils {ph : Phase V} (h : ph.spoils = false) : ph.fails = false := by
  cases ph with
  | closing failure =>
    cases failure with
    | none => rfl
    | some x => cases h
  | _ => rfl

theorem Phase.error_of_spoils {ph : Phase V} (h : ph.spoils = false) {m : String} :
    ph.error ≠ some (.timeout m) := by
  intro herr
  cases ph with
  | withdrawn => cases herr
  | ended failure =>
    rw [show failure = some (.timeout m) from herr] at h
    cases h
  | _ => cases herr

/-- The timer of the graph strikes. -/
def Act.times : Act V → Bool
  | .strike .timeout => true
  | _ => false

namespace Session

variable {s s' : Session V}

/-- The timer does not strike, and no task fails its node. -/
def Unscathed (e : Engine V) (g : AnalyticalGraph V) (s : Session V) : SessionAct V → Prop
  | .go x => x.times = false ∧ ∀ d ∈ s.drive, ∀ r ∈ d.step e g s.row x, ∀ i ∈ g.ids,
      (r.2.phase i).spoils = false
  | _ => True

instance (b : SessionAct V) : Decidable (Unscathed e g s b) :=
  match b with
  | .go _ => inferInstanceAs (Decidable (_ ∧ _))
  | .run _ | .resume _ | .crash => .isTrue trivial

/-- No node has failed. -/
structure Scathless (e : Engine V) (g : AnalyticalGraph V) (s : Session V) : Prop where
  inv : Inv e g s
  row : ∀ p, s.row = some p → p.Clean
  drive : ∀ d, s.drive = some d → Clean e s.row d ∧ d.strike ≠ some .timeout ∧
    ∀ i, (d.phase i).spoils = false

theorem Scathless.step {b : SessionAct V} (h : Scathless e g s) (hu : Unscathed e g s b)
    (hs : s.step e g b = some s') : Scathless e g s' := by
  have hinv := (h.inv.step hs).1
  cases b with
  | run context =>
    simp only [Session.step, Option.ite_none_right_eq_some] at hs
    obtain ⟨-, hs⟩ := hs
    cases hs
    refine ⟨hinv, h.row, fun d hd => ?_⟩
    cases hd
    exact ⟨.run context h.row, fun hst => by (cases hst), fun _ => rfl⟩
  | resume context =>
    simp only [Session.step, Option.ite_none_right_eq_some] at hs
    obtain ⟨-, hs⟩ := hs
    split at hs
    · rename_i d hd
      cases hs
      refine ⟨hinv, h.row, fun d₁ hd₁ => ?_⟩
      cases hd₁
      have hclean : Clean e s.row d := .resume hd h.row
      obtain ⟨p, -, -, -, rfl⟩ := Fleet.resume_cases hd
      exact ⟨hclean, fun hst => by (cases hst), fun _ => rfl⟩
    · cases hs
      exact h
  | go x =>
    obtain ⟨d, hd, hs⟩ := Option.bind_eq_some_iff.1 hs
    obtain ⟨⟨row', d'⟩, hstep, hs⟩ := Option.bind_eq_some_iff.1 hs
    cases hs
    obtain ⟨hclean, hstrike, hspoils⟩ := h.drive d hd
    obtain ⟨hx, hspoils'⟩ := hu
    have hspoils' : ∀ i, (d'.phase i).spoils = false := fun i => by
      by_cases hi : i ∈ g.ids
      · exact hspoils' d hd _ hstep i hi
      · rw [((hinv.drive d' rfl).sound.outside i hi).1]
        rfl
    have hm := move_of_step hstep
    have hraises : ∀ y, Raises d x y → ∀ m, y ≠ .timeout m := by
      rintro y (hst | ⟨-, j, -, herr⟩) m rfl
      · obtain ⟨st, hst, hy⟩ := Option.map_eq_some_iff.1 hst
        cases st with
        | timeout => exact hstrike hst
        | cancel => cases hy
      · exact Phase.error_of_spoils (hspoils j) herr
    have hclean' := hm.clean hclean hraises fun i => Phase.fails_of_spoils (hspoils' i)
    refine ⟨hinv, hclean'.row, fun d₁ hd₁ => ?_⟩
    cases hd₁
    refine ⟨hclean', ?_, hspoils'⟩
    rcases hm.quiet with ⟨y, -, -, rfl⟩ | ⟨-, hsame | ⟨st, rfl, -, hst⟩⟩
    · rw [Drive.finish_strike]
      exact hstrike
    · rw [hsame]
      exact hstrike
    · rw [hst]
      rintro ⟨⟩
      cases hx
  | crash =>
    cases hs
    exact ⟨hinv, h.row, fun d hd => by (cases hd)⟩

theorem Scathless.steps (hs : Steps (Session.step e g) (Unscathed e g) {} s) : Scathless e g s :=
  hs.keeps ⟨.start, fun p hp => by (cases hp), fun d hd => by (cases hd)⟩
    fun _ _ _ h hu hstep => h.step hu hstep

/-! ## Resumed drives -/

/-- A drive that has read its row only ends in its last checkpoint. -/
theorem Healthy.registered (h : Healthy e g row d) (hk : Knows e g row d) (hr : d.Registered)
    (hs : d.step e g row a = some (row', d')) (ha : a.smooth) :
    d'.Registered ∨ d'.stage = .ended .completed := by
  have hschedule : ∀ d₁ : Drive V, (d₁.schedule g).Registered := by
    intro d₁
    have hs := scheduled g d₁
    generalize d₁.schedule g = d₂ at hs
    cases hs with
    | wave => trivial
    | _ => trivial
  cases h.advances hk.flown hs ha with
  | create hstage | refused hstage =>
    rw [Drive.Registered, hstage] at hr
    exact hr.elim
  | created | locked => exact .inl trivial
  | acquire =>
    refine .inl ?_
    unfold Drive.send
    cases e.store <;> exact hr
  | opened => exact .inl (hschedule _)
  | again => exact .inl (hschedule _)
  | closed hstage =>
    rw [(h.closing _ hstage).1]
    exact .inr rfl
  | commit | saved | node => exact .inl hr

/-- A drive that has ended does not move. -/
theorem stage_ne_ended (h : Move e g row d a row' d') (hf : d.Flown g) (o : Outcome) :
    d.stage ≠ .ended o := by
  intro hs
  have hsaving : ∀ b, ¬ d.Saving g b := fun b hb => by
    rcases hb.driver_or with ⟨-, ho | ⟨o, ho⟩⟩ | ⟨i, -, ho, -⟩ <;> rw [hs] at ho <;> cases ho
  have hflight := hf.grounded hsaving
  cases h with
  | create hc | created hc | locked hc | node hc | strike hc | struck hc | again hc | failed hc =>
    rw [hs] at hc
    cases hc
  | quit hc => rcases hc with ⟨v, hc⟩ | hc <;> rw [hs] at hc <;> cases hc
  | acquire _ hsv => exact hsaving _ hsv
  | commit hfl _ | answer hfl _ | conflict hfl _ | broken hfl _ _ =>
    rw [hflight] at hfl
    cases hfl
  | @cut b _ _ _ hsv =>
    cases b with
    | driver =>
      unfold Drive.saved at hsv
      rw [hs] at hsv
      cases hsv
    | node i =>
      simp only [Drive.saved, hs, Option.ite_none_right_eq_some] at hsv
      cases hsv.1

/-- The drive goes on, and nothing fails. -/
def Going (e : Engine V) (g : AnalyticalGraph V) (s : Session V) (b : SessionAct V) : Prop :=
  Calm e g s b ∧ ∃ x, b = .go x

/-- The drive runs only nodes that are not `COMPLETED` in the row `p`, and brings the graph to its
    end. -/
structure Resumes (e : Engine V) (g : AnalyticalGraph V) (p : AnalyticalGraphState V)
    (s : Session V) : Prop where
  reruns : ∀ s', Steps (Session.step e g) (Going e g) s s' → ∀ d i, s'.drive = some d →
    (p.nodes i).status = .completed → ¬ d.Handles i
  progress : ∀ s', Steps (Session.step e g) (Going e g) s s' → ∀ d, s'.drive = some d →
    (∀ o, d.stage ≠ .ended o) → ∃ x : Act V, x.smooth ∧ (s'.step e g (.go x)).isSome
  ends : ∀ s', Steps (Session.step e g) (Going e g) s s' → ∀ x s'', Calm e g s' (.go x) →
    s'.step e g (.go x) = some s'' → s''.weight g < s'.weight g
  completed : ∀ s', Steps (Session.step e g) (Going e g) s s' → ∀ d o, s'.drive = some d →
    d.stage = .ended o → o = .completed ∧ ∃ p', s'.row = some p' ∧ p'.status = .completed ∧
      (∀ i ∈ g.ids, (p'.nodes i).status = .completed) ∧ ∀ i, (p'.results i).isSome ↔ i ∈ g.ids

/-- A drive that has read its row, and has not failed. -/
structure Resumed (e : Engine V) (g : AnalyticalGraph V) (p : AnalyticalGraphState V)
    (s : Session V) : Prop where
  unfailed : Unfailed e g s
  row : ∃ p', s.row = some p' ∧ Keeps p p'
  drive : ∀ d, s.drive = some d → d.Registered ∨ d.stage = .ended .completed

theorem Resumed.step {b : SessionAct V} (h : Resumed e g p s) (hg : Going e g s b)
    (hs : s.step e g b = some s') : Resumed e g p s' := by
  obtain ⟨hcalm, x, rfl⟩ := hg
  obtain ⟨p₁, hp₁, hk₁⟩ := h.row
  obtain ⟨p₂, hp₂, hk₂⟩ := (h.unfailed.inv.step hs).2 p₁ hp₁
  refine ⟨h.unfailed.step hcalm hs, ⟨p₂, hp₂, hk₁.trans hk₂⟩, ?_⟩
  obtain ⟨d, hd, hs⟩ := Option.bind_eq_some_iff.1 hs
  obtain ⟨⟨row', d'⟩, hstep, hs⟩ := Option.bind_eq_some_iff.1 hs
  cases hs
  intro d₁ hd₁
  cases hd₁
  have hdrive := h.unfailed.drive d hd
  rcases h.drive d hd with hr | hend
  · exact hdrive.2.registered (h.unfailed.inv.drive d hd) hr hstep hcalm.1
  · exact absurd hend (stage_ne_ended (move_of_step hstep) (h.unfailed.inv.drive d hd).flown _)

theorem Resumed.steps (h : Resumed e g p s) (hs : Steps (Session.step e g) (Going e g) s s') :
    Resumed e g p s' :=
  hs.keeps h fun _ _ _ h hg hstep => h.step hg hstep

theorem Resumed.promised (h : Resumed e g p s) : Resumes e g p s where
  reruns s' hs d i hd hi hhandles := by
    have h' := h.steps hs
    obtain ⟨p', hp', hk⟩ := h'.row
    refine ((h'.unfailed.inv.drive d hd).handles hhandles).2.2 p' hp' ?_
    rw [(hk i hi).1]
    exact hi
  progress s' hs d hd hend := by
    have hcan : ∃ x : Act V, x.smooth ∧ (d.step e g s'.row x).isSome :=
      Drive.can_go ((h.steps hs).unfailed.inv.drive d hd).flown hend
    obtain ⟨x, hx, hsome⟩ := hcan
    obtain ⟨r, hr⟩ := Option.isSome_iff_exists.1 hsome
    exact ⟨x, hx, by simp [Session.step, hd, hr]⟩
  ends s' hs x s'' hc hstep := (h.steps hs).unfailed.weight_lt hc hstep
  completed s' hs d o hd ho := by
    have h' := h.steps hs
    have hend : o = .completed := by
      rcases h'.drive d hd with hr | hend
      · rw [Drive.Registered, ho] at hr
        exact hr.elim
      · rw [ho] at hend
        cases hend
        rfl
    refine ⟨hend, ?_⟩
    rcases (h'.unfailed.drive d hd).2.ended o ho with hexists | ⟨-, p', hp', hdone⟩
    · rw [hend] at hexists
      cases hexists
    · exact ⟨p', hp', hdone.1, hdone.2, hdone.results (h'.unfailed.inv.row p' hp').2⟩

/-- **An interrupted graph resumes**, as long as no node has become `FAILED` or `CANCELLED`. -/
theorem resumes (e : Engine V) (g : AnalyticalGraph V) {s : Session V}
    (hs : Steps (Session.step e g) (Unscathed e g) {} s) (hidle : s.Idle)
    {context : GraphExecutionContext} {d : Drive V}
    (hd : Drive.resume g.id context s.row = .ok d) : ∃ p s', s.row = some p ∧
      s.step e g (.resume context) = some s' ∧ s'.drive = some d ∧ Resumes e g p s' := by
  obtain ⟨hinv, hrow, -⟩ := Scathless.steps hs
  obtain ⟨p, hp, -, -, rfl⟩ := Fleet.resume_cases hd
  have hstep : s.step e g (.resume context) =
      some { s with drive := some { memory := p.recover, stage := .locking } } := by
    rw [Session.step, if_pos hidle, hd]
  refine ⟨p, _, hp, hstep, rfl, Resumed.promised ⟨⟨(hinv.step hstep).1, hrow, fun d₁ hd₁ => ?_⟩,
    ⟨p, hp, .refl p⟩, fun d₁ hd₁ => ?_⟩⟩
  · cases hd₁
    exact ⟨.resume hd hrow, .resume hd⟩
  · cases hd₁
    exact .inl trivial

/-- A process crashes after the first of three nodes. -/
def interrupted : List (SessionAct Sample.Value) :=
  .run Sample.context :: (Sample.started ++ Sample.handled "a").map .go ++ [.crash]

theorem resumes_sample : ∃ p s', (p.nodes "a").status = .completed ∧
    Resumes (Sample.engine .postgres) Sample.graph p s' := by
  let step := Session.step (Sample.engine .postgres) Sample.graph
  have hplay : ((play step {} interrupted).map fun s => (decide s.Idle,
      s.row.map fun p => ((p.nodes "a").status, p.tenantId, p.userId))) =
      some (true, some (.completed, "t", "u")) := by rfl
  have halong : Along step (Unscathed (Sample.engine .postgres) Sample.graph) {} interrupted := by
    decide +kernel
  obtain ⟨s, hs, hplay⟩ := Option.map_eq_some_iff.1 hplay
  simp only [Prod.mk.injEq, decide_eq_true_eq] at hplay
  obtain ⟨hidle, hrow⟩ := hplay
  obtain ⟨p, hp, hrow⟩ := Option.map_eq_some_iff.1 hrow
  simp only [Prod.mk.injEq] at hrow
  obtain ⟨hcompleted, htenant, huser⟩ := hrow
  have hfound : getState s.row "t" = some p := by simp [getState, hp, Option.filter, htenant]
  have hd : Drive.resume "g" Sample.context s.row =
      .ok { memory := p.recover, stage := .locking } := by
    simp [Drive.resume, Sample.context, hfound, huser]
  obtain ⟨p', s', hp', -, -, h⟩ := resumes (Sample.engine .postgres) Sample.graph
    (steps_of_along halong hs) hidle hd
  rw [hp] at hp'
  cases hp'
  exact ⟨p, s', hcompleted, h⟩

end Session

end TracciaRuntime.Analytics
