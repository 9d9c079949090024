/-
  The moves of a drive.

  * `Move`: what a drive and the store on its behalf can do next, and when; `move_of_step`: the
    moves are these;
  * `Turn`: what of it touches the tasks: a task goes on, the nodes that are ready start, the
    drive comes to its end, or nothing of the kind;
  * `Drive.Sound`: the invariant of the nodes and the tasks; `Move.sound`: every move keeps it;
  * `Drive.Sound.not_stuck`: the scheduler finds a node that is ready.
-/
import TracciaRuntime.Analytics.Driver
import TracciaRuntime.Proof.Works

namespace TracciaRuntime.Analytics

variable {V : Type} {e : Engine V} {g : AnalyticalGraph V} {row row' : Option (AnalyticalGraphState V)}
  {d d' : Drive V}

/-- The drive has not got to its tasks. -/
def Stage.early : Stage → Bool
  | .creating _ | .locking | .opening => true
  | _ => false

/-- The exception that a strike becomes. -/
def Strike.raised : Strike → Raised
  | timeout => .timeout ""
  | cancel => .cancelled

inductive Move (e : Engine V) (g : AnalyticalGraph V) (row : Option (AnalyticalGraphState V))
    (d : Drive V) : Act V → Option (AnalyticalGraphState V) → Drive V → Prop
  | create {ok : Bool} {row' : Option (AnalyticalGraphState V)} : d.stage = .creating none →
      e.store.create e.values row d.memory = (ok, row') →
      Move e g row d .create row' { d with stage := .creating (some ok) }
  | created : d.stage = .creating (some true) →
      Move e g row d .created row { d with stage := .locking }
  | quit {a : Act V} {x : Raised} : (∃ v, d.stage = .creating v) ∨ d.stage = .locking →
      (∀ x, a ≠ .broken x) →
      Move e g row d a row { d with stage := .ended (.raised x) }
  | locked : d.stage = .locking →
      Move e g row d .locked row
        { d with memory := { d.memory with status := .running }, stage := .opening }
  | acquire {a : Actor} : d.flight = none → d.Saving g a →
      Move e g row d (.acquire a) row (d.send e a)
  | commit {a : Actor} {expected : Nat} {sent : AnalyticalGraphState V} {ok : Bool}
      {row' : Option (AnalyticalGraphState V)} :
      d.flight = some ⟨a, expected, sent, none⟩ →
      StoreKind.save row (d.payload e ⟨a, expected, sent, none⟩) expected = (ok, row') →
      Move e g row d .commit row' { d with
        memory := { d.memory with version := if ok then expected + 1 else d.memory.version }
        flight := some ⟨a, expected, sent, some ok⟩ }
  | answer {a : Actor} {expected : Nat} {sent : AnalyticalGraphState V} {d' : Drive V} :
      d.flight = some ⟨a, expected, sent, some true⟩ →
      { d with flight := none }.saved e g a none = some d' → Move e g row d .answer row d'
  | conflict {a : Actor} {expected : Nat} {sent : AnalyticalGraphState V} {d' : Drive V} :
      d.flight = some ⟨a, expected, sent, some false⟩ →
      { d with memory := { d.memory with version := expected }, flight := none }.saved e g a
        (some (.conflict (.graphModified g.id))) = some d' → Move e g row d .answer row d'
  | broken {f : Flight V} {x : Raised} {d' : Drive V} : d.flight = some f →
      Drive.Breaks e f.verdict x →
      { d with flight := none }.saved e g f.actor (some x) = some d' →
      Move e g row d (.broken x) row d'
  | cut {a : Actor} {d' : Drive V} : (∀ f ∈ d.flight, f.actor ≠ a) →
      (a = .driver ∨ d.strike.isSome) →
      d.saved e g a (some .cancelled) = some d' → Move e g row d (.cut a) row d'
  | node {i : String} {n : AnalyticalNode V} {ev : NodeEvent V} {w : Work V} :
      d.stage = .waiting → g.node i = some n → d.Can e g n ev →
      Goes e d.lookup n (d.work i) ev w → Move e g row d (.node i ev) row (d.setWork i w)
  | strike {s : Strike} : d.stage = .waiting → d.strike ≠ some .cancel → d.strike ≠ some s →
      Move e g row d (.strike s) row { d with strike := some s }
  | struck {i : Option String} {s : Strike} : d.stage = .waiting →
      (∀ j ∈ g.ids, (d.phase j).finished) → d.strike = some s →
      Move e g row d (.gathered i) row (d.finish (.raised s.raised))
  | again {i : Option String} : d.stage = .waiting → (∀ j ∈ g.ids, (d.phase j).finished) →
      d.strike = none → (∀ j ∈ g.ids, (d.phase j).error = none) →
      Move e g row d (.gathered i) row (d.schedule g)
  | failed {i : String} {x : Raised} : d.stage = .waiting →
      (∀ j ∈ g.ids, (d.phase j).finished) → d.strike = none → (d.phase i).error = some x →
      Move e g row d (.gathered (some i)) row (d.finish (.raised x))

theorem move_of_step {a : Act V} (h : d.step e g row a = some (row', d')) :
    Move e g row d a row' d' := by
  cases a with
  | create =>
    simp only [Drive.step, Option.ite_none_right_eq_some] at h
    obtain ⟨hs, h⟩ := h
    cases h
    exact .create hs rfl
  | created =>
    simp only [Drive.step] at h
    split at h
    · rename_i hs; cases h; exact .created hs
    · rename_i hs; cases h; exact .quit (.inl ⟨_, hs⟩) (by simp)
    · cases h
  | uncreated x =>
    simp only [Drive.step] at h
    split at h
    · rename_i hs
      split at h
      · cases h; exact .quit (.inl ⟨_, hs⟩) (by simp)
      · cases h
    · cases h
  | locked =>
    simp only [Drive.step, Option.ite_none_right_eq_some] at h
    obtain ⟨hs, h⟩ := h
    cases h
    exact .locked hs
  | acquire a =>
    simp only [Drive.step, Option.ite_none_right_eq_some] at h
    obtain ⟨⟨hf, hs⟩, h⟩ := h
    cases h
    exact .acquire (Option.isNone_iff_eq_none.1 hf) hs
  | commit =>
    simp only [Drive.step] at h
    split at h
    · rename_i hf; cases h; exact .commit hf rfl
    · cases h
  | answer =>
    simp only [Drive.step] at h
    split at h
    · rename_i hf
      obtain ⟨d₁, h₁, h⟩ := Option.map_eq_some_iff.1 h
      cases h
      exact .answer hf h₁
    · rename_i hf
      obtain ⟨d₁, h₁, h⟩ := Option.map_eq_some_iff.1 h
      cases h
      exact .conflict hf h₁
    · cases h
  | broken x =>
    simp only [Drive.step] at h
    split at h
    · rename_i hf
      rw [Option.ite_none_right_eq_some] at h
      obtain ⟨hb, h⟩ := h
      obtain ⟨d₁, h₁, h⟩ := Option.map_eq_some_iff.1 h
      cases h
      exact .broken hf hb h₁
    · cases h
  | cut a =>
    cases a with
    | driver =>
      simp only [Drive.step, Option.ite_none_right_eq_some] at h
      obtain ⟨hf, h⟩ := h
      have hf := Option.isNone_iff_eq_none.1 hf
      split at h
      · rename_i hs; cases h; exact .quit (.inr hs) (by simp)
      · obtain ⟨d₁, h₁, h⟩ := Option.map_eq_some_iff.1 h
        cases h
        exact .cut (by simp [hf]) (.inl rfl) h₁
    | node i =>
      simp only [Drive.step, Option.ite_none_right_eq_some] at h
      obtain ⟨⟨hs, -, hf⟩, h⟩ := h
      obtain ⟨d₁, h₁, h⟩ := Option.map_eq_some_iff.1 h
      cases h
      exact .cut hf (.inr hs) h₁
  | node i ev =>
    obtain ⟨n, hn, h⟩ := Option.bind_eq_some_iff.1 h
    rw [Option.ite_none_right_eq_some] at h
    obtain ⟨⟨hs, hc⟩, h⟩ := h
    obtain ⟨w, hw, h⟩ := Option.bind_eq_some_iff.1 h
    cases h
    exact .node hs hn hc (goes_of_step hw)
  | strike s =>
    simp only [Drive.step, Option.ite_none_right_eq_some] at h
    obtain ⟨⟨hs, hc, hne⟩, h⟩ := h
    cases h
    exact .strike hs hc hne
  | gathered i =>
    simp only [Drive.step, Option.ite_none_right_eq_some] at h
    obtain ⟨⟨hs, hover⟩, h⟩ := h
    split at h
    · rename_i hst; cases h; exact .struck (s := .cancel) hs hover hst
    · rename_i hst; cases h; exact .struck (s := .timeout) hs hover hst
    · rename_i hst
      split at h
      · rename_i herr; cases h; exact .again hs hover hst herr
      · obtain ⟨x, hx, h⟩ := Option.map_eq_some_iff.1 h
        cases h
        obtain ⟨j, rfl, hj⟩ := Option.bind_eq_some_iff.1 hx
        exact .failed hs hover hst hj

/-! ## What touches the tasks -/

/-- The tasks, the stage and the strike are the same. -/
structure Drive.Alike (d d₁ : Drive V) : Prop where
  work : d₁.work = d.work
  stage : d₁.stage = d.stage
  strike : d₁.strike = d.strike
  status : d₁.memory.status = d.memory.status

/-- How the stage moves while no task does. -/
inductive Stage.Stays : Stage → Stage → Prop
  | same (s : Stage) : Stays s s
  | early {s s' : Stage} : s.early → s'.early → Stays s s'
  | quit {s : Stage} (x : Raised) : s ≠ .waiting → Stays s (.ended (.raised x))
  | ended (o : Outcome) : Stays (.closing o) (.ended o)

/-- The move lets the task of the node go on with this event. -/
def Act.Tells (a : Act V) (i : String) (ev : NodeEvent V) : Prop :=
  a = .node i ev ∨ ev = .saved ∨ ∃ x, ev = .unsaved x

inductive Turn (e : Engine V) (g : AnalyticalGraph V) (d : Drive V) : Act V → Drive V → Prop
  | still {a : Act V} {d' : Drive V} : d'.work = d.work → d.stage.Stays d'.stage →
      (d'.memory.status = d.memory.status ∨ d'.stage = .opening) → Turn e g d a d'
  | work {a : Act V} {i : String} {n : AnalyticalNode V} {ev : NodeEvent V} {w : Work V}
      {d' : Drive V} : d.stage = .waiting → g.node i = some n →
      Goes e d.lookup n (d.work i) ev w → a.Tells i ev →
      d'.work = Function.update d.work i w → d'.stage = .waiting →
      d'.memory.status = d.memory.status → d'.strike = d.strike → Turn e g d a d'
  | schedule {a : Act V} {d₁ : Drive V} : d.Alike d₁ →
      (d.stage = .opening ∨ d.stage = .waiting ∧ d.strike = none ∧
        ∀ j ∈ g.ids, (d.phase j).finished ∧ (d.phase j).error = none) →
      Turn e g d a (d₁.schedule g)
  | finish {a : Act V} {x : Raised} : d.stage = .waiting → (∀ j ∈ g.ids, (d.phase j).finished) →
      (d.strike.map Strike.raised = some x ∨ d.strike = none ∧ ∃ j, (d.phase j).error = some x) →
      Turn e g d a (d.finish (.raised x))

theorem Drive.work_setWork (d : Drive V) (i : String) (w : Work V) :
    (d.setWork i w).work = Function.update d.work i w := by
  funext j
  by_cases hj : j = i
  · subst hj; simp [work, setWork]
  · simp [work, setWork, hj]

theorem Drive.lookup_of_work {d d₁ : Drive V} (h : d₁.work = d.work) : d₁.lookup = d.lookup := by
  funext j
  have hj := congrFun h j
  simp only [work, Work.mk.injEq] at hj
  simp only [lookup, hj.2.1]

/-- The end of a checkpoint. -/
theorem Drive.turn_of_saved {d₁ : Drive V} {a : Act V} {b : Actor} {failure : Option Raised}
    (h : d₁.saved e g b failure = some d') (hd : d.Alike d₁) : Turn e g d a d' := by
  obtain ⟨hw, hs, hst, hg⟩ := hd
  cases b with
  | driver =>
    simp only [Drive.saved] at h
    split at h
    · rename_i ho
      cases h
      exact .schedule ⟨hw, hs, hst, hg⟩ (.inl (hs ▸ ho))
    · rename_i ho
      cases h
      refine .still hw ?_ (.inl hg)
      rw [← hs, ho]
      exact .ended _
    · rename_i ho
      cases h
      refine .still hw ?_ (.inl hg)
      rw [← hs, ho]
      exact .quit _ (by simp)
    · rename_i ho
      cases h
      refine .still hw ?_ (.inl hg)
      rw [← hs, ho]
      exact .quit _ (by simp)
    · cases h
  | node i =>
    simp only [Drive.saved, Option.ite_none_right_eq_some] at h
    obtain ⟨hwait, h⟩ := h
    obtain ⟨n, hn, h⟩ := Option.bind_eq_some_iff.1 h
    obtain ⟨w, hgo, h⟩ := Option.bind_eq_some_iff.1 h
    cases h
    have hgo := goes_of_step hgo
    rw [Drive.lookup_of_work hw, hw] at hgo
    refine .work (hs ▸ hwait) hn hgo ?_ (by rw [Drive.work_setWork, hw]) hwait hg hst
    cases failure with
    | none => exact .inr (.inl rfl)
    | some x => exact .inr (.inr ⟨x, rfl⟩)

theorem Move.turn {a : Act V} (h : Move e g row d a row' d') : Turn e g d a d' := by
  cases h with
  | create hs | created hs =>
    exact .still rfl (by rw [hs]; exact .early rfl rfl) (.inl rfl)
  | quit hs =>
    refine .still rfl (.quit _ ?_) (.inl rfl)
    rcases hs with ⟨v, hs⟩ | hs <;> rw [hs] <;> nofun
  | locked hs => exact .still rfl (by rw [hs]; exact .early rfl rfl) (.inr rfl)
  | acquire hf hs =>
    refine .still ?_ ?_ (.inl ?_) <;> unfold Drive.send <;> cases e.store <;>
      first | rfl | exact .same _
  | commit hf hs => exact .still rfl (.same _) (.inl rfl)
  | answer hf hs => exact Drive.turn_of_saved hs ⟨rfl, rfl, rfl, rfl⟩
  | conflict hf hs => exact Drive.turn_of_saved hs ⟨rfl, rfl, rfl, rfl⟩
  | broken hf hb hs => exact Drive.turn_of_saved hs ⟨rfl, rfl, rfl, rfl⟩
  | cut hf ha hs => exact Drive.turn_of_saved hs ⟨rfl, rfl, rfl, rfl⟩
  | node hs hn hc hg =>
    exact .work hs hn hg (.inl rfl) (Drive.work_setWork d _ _) hs rfl rfl
  | strike hs => exact .still rfl (.same _) (.inl rfl)
  | struck hs hover hst => exact .finish hs hover (.inl (by rw [hst]; rfl))
  | again hs hover hst herr =>
    exact .schedule ⟨rfl, rfl, rfl, rfl⟩ (.inr ⟨hs, hst, fun j hj => ⟨hover j hj, herr j hj⟩⟩)
  | failed hs hover hst herr => exact .finish hs hover (.inr ⟨hst, _, herr⟩)

/-! ## The scheduler -/

/-- What a round of the scheduler comes to. -/
inductive Scheduled (g : AnalyticalGraph V) (d : Drive V) : Drive V → Prop
  | completed : (∀ i ∈ g.ids, d.statusOf i = .completed) → Scheduled g d (d.finish .completed)
  | failedAt {ids : List String} : (∃ i ∈ g.ids, d.statusOf i = .failed ∨ d.statusOf i = .cancelled) →
      Scheduled g d (d.finish (.failedAt ids))
  | stuck {i : String} : i ∈ g.ids → d.statusOf i ≠ .completed →
      (∀ j ∈ g.ids, d.statusOf j ≠ .failed ∧ d.statusOf j ≠ .cancelled) → d.ready g = [] →
      Scheduled g d (d.finish .stuck)
  | wave : d.ready g ≠ [] →
      Scheduled g d { d with
        phase := fun i => if i ∈ d.ready g then .queued else .idle
        stage := .waiting }

theorem scheduled (g : AnalyticalGraph V) (d : Drive V) : Scheduled g d (d.schedule g) := by
  have hmem : ∀ i, i ∈ (g.ids.filter fun i => d.statusOf i ≠ .completed) ↔
      i ∈ g.ids ∧ d.statusOf i ≠ .completed := fun i => by simp
  unfold Drive.schedule
  dsimp only
  split
  · rename_i hn
    refine .completed fun i hi => ?_
    by_contra hne
    have := (hmem i).2 ⟨hi, hne⟩
    rw [hn] at this
    cases this
  rename_i hne
  split
  · rename_i hf
    obtain ⟨i, hi⟩ := List.exists_mem_of_ne_nil _ hf
    simp only [List.mem_filter, decide_eq_true_eq] at hi
    exact .failedAt ⟨i, hi.1.1, hi.2⟩
  rename_i hf
  split
  · rename_i hr
    obtain ⟨i, hi⟩ := List.exists_mem_of_ne_nil _ hne
    obtain ⟨hi, hs⟩ := (hmem i).1 hi
    refine .stuck hi hs (fun j hj => ?_) hr
    rw [not_not, List.filter_eq_nil_iff] at hf
    have hfj := hf j
    simp only [hmem, decide_eq_true_eq, not_or] at hfj
    by_cases hc : d.statusOf j = .completed
    · rw [hc]; exact ⟨nofun, nofun⟩
    · exact hfj ⟨hj, hc⟩
  · exact .wave (by assumption)

theorem Drive.mem_ready {i : String} : i ∈ d.ready g ↔ i ∈ g.ids ∧ d.statusOf i = .pending ∧
    ∀ j ∈ g.dependencies i, d.statusOf j = .completed := by
  simp [ready]

/-- **The scheduler finds a node that is ready.** -/
theorem Drive.ready_ne {i : String} (hi : i ∈ g.ids) (hc : d.statusOf i ≠ .completed)
    (h : ∀ j ∈ g.ids, d.statusOf j = .pending ∨ d.statusOf j = .completed) : d.ready g ≠ [] := by
  obtain ⟨l, hs, hl⟩ := g.exists_order
  obtain ⟨j, hj, hnj, hdeps⟩ := @Dag.Sorted.ready _ _ l hs (fun j => d.statusOf j = .completed) i
    ((hl i).2 hi) hc
  have hj' := (hl j).1 hj
  exact List.ne_nil_of_mem (Drive.mem_ready.2 ⟨hj', (h j hj').resolve_right hnj, hdeps⟩)

/-! ## The end of a drive -/

namespace Drive

theorem finish_phase (d : Drive V) (o : Outcome) : (d.finish o).phase = d.phase := by
  unfold finish; split <;> rfl

theorem finish_results (d : Drive V) (o : Outcome) :
    (d.finish o).memory.results = d.memory.results := by
  unfold finish; split <;> rfl

theorem finish_flight (d : Drive V) (o : Outcome) : (d.finish o).flight = d.flight := by
  unfold finish; split <;> rfl

theorem finish_version (d : Drive V) (o : Outcome) :
    (d.finish o).memory.version = d.memory.version := by
  unfold finish; split <;> rfl

/-- Only the branch of `TimeoutError` touches the nodes, and no other ends in `timedOut`. -/
theorem finish_cases (d : Drive V) (o : Outcome) :
    (∃ m, o = .raised (.timeout m) ∧ (d.finish o).stage = .closing .timedOut ∧
      (d.finish o).memory.status = .failed ∧
      (d.finish o).memory.nodes = fun i =>
        if d.statusOf i = .pending ∨ d.statusOf i = .running then
          { d.memory.nodes i with status := .cancelled, error := some "graph timeout exhausted" }
        else d.memory.nodes i) ∨
    (d.finish o).stage = .closing o ∧ (d.finish o).memory.nodes = d.memory.nodes ∧
      ((d.finish o).memory.status = .completed ↔ o = .completed) := by
  unfold finish
  split
  · exact .inr ⟨rfl, rfl, by simp⟩
  · exact .inl ⟨_, rfl, rfl, rfl, rfl⟩
  · exact .inr ⟨rfl, rfl, by simp⟩
  · rename_i hc _ _
    exact .inr ⟨rfl, rfl, iff_of_false nofun hc⟩

theorem finish_stage (d : Drive V) (o : Outcome) : ∃ o', (d.finish o).stage = .closing o' ∧
    (o' = o ∨ o' = .timedOut) := by
  rcases d.finish_cases o with ⟨m, -, hs, -⟩ | ⟨hs, -⟩
  · exact ⟨_, hs, .inr rfl⟩
  · exact ⟨_, hs, .inl rfl⟩

/-- The end of a drive leaves the nodes that are `COMPLETED` as they are, and makes none so. -/
theorem finish_completed (d : Drive V) (o : Outcome) (i : String) :
    ((d.finish o).statusOf i = .completed ↔ d.statusOf i = .completed) ∧
      (d.statusOf i = .completed → (d.finish o).memory.nodes i = d.memory.nodes i) := by
  rcases d.finish_cases o with ⟨m, -, -, -, hn⟩ | ⟨-, hn, -⟩
  · by_cases hc : d.statusOf i = .pending ∨ d.statusOf i = .running
    · have hne : d.statusOf i ≠ .completed := by rcases hc with h | h <;> rw [h] <;> nofun
      refine ⟨⟨fun h => ?_, fun h => absurd h hne⟩, fun h => absurd h hne⟩
      rw [statusOf, hn] at h
      simp [hc] at h
    · have hi : (d.finish o).memory.nodes i = d.memory.nodes i := by rw [hn]; simp [hc]
      exact ⟨by rw [statusOf, hi, statusOf], fun _ => hi⟩
  · exact ⟨by rw [statusOf, hn, statusOf], fun _ => by rw [hn]⟩

theorem finish_not_skipped (d : Drive V) (o : Outcome) {i : String} (h : d.statusOf i ≠ .skipped) :
    (d.finish o).statusOf i ≠ .skipped := by
  rcases d.finish_cases o with ⟨m, -, -, -, hn⟩ | ⟨-, hn, -⟩
  · rw [statusOf, hn]
    dsimp only
    split
    · nofun
    · exact h
  · rw [statusOf, hn]; exact h

/-! ## The invariant -/

/-- What holds of the nodes and the tasks of a drive. -/
structure Sound (g : AnalyticalGraph V) (d : Drive V) : Prop where
  outside : ∀ i, i ∉ g.ids → d.phase i = .idle ∧ d.memory.results i = none
  result : ∀ i, d.statusOf i = .completed → (d.memory.results i).isSome
  skipped : ∀ i, d.statusOf i ≠ .skipped
  early : d.stage.early → ∀ i, d.statusOf i ≠ .running ∧ d.phase i = .idle
  agrees : d.stage = .waiting → ∀ i, (d.phase i).Agrees (d.memory.nodes i)
  deps : d.stage = .waiting → ∀ i, d.phase i ≠ .idle →
    ∀ j ∈ g.dependencies i, d.statusOf j = .completed
  stuck : d.stage ≠ .closing .stuck ∧ d.stage ≠ .ended .stuck

end Drive

open Drive

theorem Drive.Sound.finish (h : d.Sound g) {o : Outcome} (ho : o ≠ .stuck) :
    (d.finish o).Sound g := by
  obtain ⟨o', hs, ho'⟩ := d.finish_stage o
  refine ⟨fun i hi => ?_, fun i hi => ?_, fun i => d.finish_not_skipped o (h.skipped i), ?_, ?_, ?_,
    ?_⟩
  · rw [finish_phase, finish_results]; exact h.outside i hi
  · rw [finish_results]
    exact h.result i ((d.finish_completed o i).1.1 hi)
  · rw [hs]; nofun
  · rw [hs]; nofun
  · rw [hs]; nofun
  · rw [hs]
    refine ⟨fun he => ?_, nofun⟩
    rcases ho' with rfl | rfl
    · cases he; exact ho rfl
    · cases he

/-- **The drive never finds itself without a node to run.** -/
theorem Drive.Sound.schedule (h : d.Sound g)
    (hp : ∀ i, d.statusOf i ≠ .running) : (d.schedule g).Sound g := by
  have hs := scheduled g d
  revert hs
  generalize d.schedule g = d'
  intro hs
  cases hs with
  | completed => exact h.finish nofun
  | failedAt => exact h.finish nofun
  | stuck hi hc hf hr =>
    refine absurd hr (Drive.ready_ne hi hc fun j hj => ?_)
    have h1 := hp j
    have h2 := hf j hj
    have h3 := h.skipped j
    revert h1 h2 h3
    cases d.statusOf j <;> simp
  | wave hr =>
    refine ⟨fun i hi => ⟨?_, (h.outside i hi).2⟩, h.result, h.skipped, nofun, fun _ i => ?_,
      fun _ i hi j hj => ?_, nofun, nofun⟩
    · have : i ∉ d.ready g := fun hm => hi (Drive.mem_ready.1 hm).1
      simp [this]
    · by_cases hm : i ∈ d.ready g
      · simp only [hm, if_true]
        exact (Drive.mem_ready.1 hm).2.1
      · simp only [hm, if_false]
        exact hp i
    · by_cases hm : i ∈ d.ready g
      · exact (Drive.mem_ready.1 hm).2.2 j hj
      · simp [hm] at hi

theorem Stage.Stays.waiting {s s' : Stage} (h : s.Stays s') (hs : s' = .waiting) : s = .waiting := by
  cases h with
  | same => exact hs
  | early _ h => rw [hs] at h; cases h
  | quit | ended => cases hs

theorem Stage.Stays.of_early {s s' : Stage} (h : s.Stays s') (hs : s'.early) : s.early := by
  cases h with
  | same => exact hs
  | early h _ => exact h
  | quit | ended => cases hs

theorem Stage.Stays.stuck {s s' : Stage} (h : s.Stays s') (hs : s ≠ .closing .stuck ∧ s ≠ .ended .stuck) :
    s' ≠ .closing .stuck ∧ s' ≠ .ended .stuck := by
  cases h with
  | same => exact hs
  | early _ h => constructor <;> (rintro rfl; cases h)
  | quit => exact ⟨nofun, nofun⟩
  | ended o =>
    refine ⟨nofun, fun h => ?_⟩
    cases h
    exact hs.1 rfl

/-- The nodes and the tasks are as before. -/
theorem Drive.Sound.still (h : d.Sound g) (hw : d'.work = d.work) (hs : d.stage.Stays d'.stage) :
    d'.Sound g := by
  have hn : ∀ i, d'.memory.nodes i = d.memory.nodes i := fun i =>
    congrArg Work.execution (congrFun hw i)
  have hr : ∀ i, d'.memory.results i = d.memory.results i := fun i =>
    congrArg Work.result (congrFun hw i)
  have hp : ∀ i, d'.phase i = d.phase i := fun i => congrArg Work.phase (congrFun hw i)
  have hst : ∀ i, d'.statusOf i = d.statusOf i := fun i => congrArg NodeExecution.status (hn i)
  refine ⟨fun i hi => ?_, fun i hi => ?_, fun i => ?_, fun he i => ?_, fun hs' i => ?_,
    fun hs' i hi j hj => ?_, ?_⟩
  · rw [hp, hr]; exact h.outside i hi
  · rw [hr]; rw [hst] at hi; exact h.result i hi
  · rw [hst]; exact h.skipped i
  · rw [hst, hp]; exact h.early (hs.of_early he) i
  · rw [hp, hn]; exact h.agrees (hs.waiting hs') i
  · rw [hp] at hi; rw [hst]; exact h.deps (hs.waiting hs') i hi j hj
  · exact hs.stuck h.stuck

theorem Drive.Sound.work (h : d.Sound g) {i : String} {n : AnalyticalNode V} {ev : NodeEvent V}
    {w : Work V} (hs : d.stage = .waiting) (hn : g.node i = some n)
    (hg : Goes e d.lookup n (d.work i) ev w) (hw : d'.work = Function.update d.work i w)
    (hs' : d'.stage = .waiting) : d'.Sound g := by
  have hsound : (d.work i).Sound := ⟨h.result i, h.skipped i, h.agrees hs i⟩
  have hsound' := hg.sound hsound
  have hi : i ∈ g.ids := GraphFields.mem_ids_of_node hn
  have hother : ∀ j, j ≠ i → d'.work j = d.work j := fun j hj => by
    rw [hw, Function.update_of_ne hj]
  have hself : d'.work i = w := by rw [hw, Function.update_self]
  -- a dependency that is completed stays so
  have hdone : ∀ j, d.statusOf j = .completed → d'.statusOf j = .completed := by
    intro j hj
    by_cases hji : j = i
    · subst hji
      have hstill := (hg.completed_still hsound.agrees hj).1
      have heq : d'.memory.nodes j = w.execution := congrArg Work.execution hself
      rw [statusOf, heq, hstill]
      exact hj
    · rw [statusOf, show d'.memory.nodes j = d.memory.nodes j from
        congrArg Work.execution (hother j hji)]
      exact hj
  have hall : ∀ j, (d'.work j).Sound := by
    intro j
    by_cases hji : j = i
    · subst hji; rw [hself]; exact hsound'
    · rw [hother j hji]; exact ⟨h.result j, h.skipped j, h.agrees hs j⟩
  refine ⟨fun j hj => ?_, fun j => (hall j).result, fun j => (hall j).skipped, ?_,
    fun _ j => (hall j).agrees, fun _ j hj k hk => hdone k ?_, ?_⟩
  · have hji : j ≠ i := by rintro rfl; exact hj hi
    rw [show d'.phase j = d.phase j from congrArg Work.phase (hother j hji),
      show d'.memory.results j = d.memory.results j from congrArg Work.result (hother j hji)]
    exact h.outside j hj
  · rw [hs']; nofun
  · refine h.deps hs j (fun hidle => hj ?_) k hk
    by_cases hji : j = i
    · subst hji
      have hlt := hg.weight_lt.1
      rw [show (d.work j).phase = .idle from hidle] at hlt
      exact absurd hlt (Nat.not_lt_zero _)
    · rw [show d'.phase j = d.phase j from congrArg Work.phase (hother j hji)]
      exact hidle
  · rw [hs']; exact ⟨nofun, nofun⟩

/-- **Every turn keeps the invariant.** -/
theorem Turn.sound {a : Act V} (h : Turn e g d a d') (hd : d.Sound g) : d'.Sound g := by
  cases h with
  | still hw hs _ => exact hd.still hw hs
  | work hs hn hg _ hw hs' => exact hd.work hs hn hg hw hs'
  | @schedule d₁ ha hc =>
    have hd₁ : d₁.Sound g := hd.still ha.work (by rw [ha.stage]; exact .same _)
    refine hd₁.schedule fun i => ?_
    have hst : d₁.statusOf i = d.statusOf i :=
      congrArg (fun w : Work V => w.execution.status) (congrFun ha.work i)
    rw [hst]
    rcases hc with hs | ⟨hs, -, hover⟩
    · exact (hd.early (by rw [hs]; rfl) i).1
    · have hagree := hd.agrees hs i
      by_cases hi : i ∈ g.ids
      · obtain ⟨h1, h2⟩ := hover i hi
        revert hagree h1 h2
        cases d.phase i with
        | idle => exact fun h _ _ => h
        | withdrawn => exact fun _ _ h => by cases h
        | ended f =>
          rintro h - (rfl : f = none)
          rw [show d.statusOf i = .completed from h]
          nofun
        | _ => exact fun _ h _ => by cases h
      · rw [(hd.outside i hi).1] at hagree
        exact hagree
  | finish hs hover _ => exact hd.finish nofun

/-- A node that is `COMPLETED` keeps its execution and its result. -/
theorem Turn.completed_still {a : Act V} (h : Turn e g d a d') (hd : d.Sound g) {i : String}
    (hi : d.statusOf i = .completed) :
    d'.memory.nodes i = d.memory.nodes i ∧ d'.memory.results i = d.memory.results i := by
  cases h with
  | still hw hs _ =>
    exact ⟨congrArg Work.execution (congrFun hw i), congrArg Work.result (congrFun hw i)⟩
  | @work j n ev w _ hs hn hg _ hw hs' =>
    by_cases hij : i = j
    · subst hij
      obtain ⟨h1, h2⟩ := hg.completed_still (hd.agrees hs i) hi
      have hself : d'.work i = w := by rw [hw, Function.update_self]
      exact ⟨(congrArg Work.execution hself).trans h1, (congrArg Work.result hself).trans h2⟩
    · have hother : d'.work i = d.work i := by rw [hw, Function.update_of_ne hij]
      exact ⟨congrArg Work.execution hother, congrArg Work.result hother⟩
  | @schedule d₁ ha _ =>
    have hn : d₁.memory.nodes i = d.memory.nodes i :=
      congrArg Work.execution (congrFun ha.work i)
    have hr : d₁.memory.results i = d.memory.results i :=
      congrArg Work.result (congrFun ha.work i)
    have hfin : ∀ o, (d₁.finish o).memory.nodes i = d.memory.nodes i ∧
        (d₁.finish o).memory.results i = d.memory.results i := fun o => by
      refine ⟨?_, by rw [finish_results, hr]⟩
      rw [(d₁.finish_completed o i).2 (by rw [statusOf, hn]; exact hi), hn]
    have hs := scheduled g d₁
    revert hs
    generalize d₁.schedule g = d₂
    intro hs
    cases hs with
    | completed | failedAt | stuck => exact hfin _
    | wave => exact ⟨hn, hr⟩
  | finish => exact ⟨(d.finish_completed _ i).2 hi, by rw [finish_results]⟩

end TracciaRuntime.Analytics
