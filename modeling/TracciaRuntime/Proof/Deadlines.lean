/-
  The two timeouts of a graph.

  * `Clocked`: the drives of a graph with a clock; the timer of the graph strikes when its
    seconds have passed since the drive has got to its tasks;
  * `Move.quiet`: only a `gather` that raises ends a drive in `timedOut` or cancels its nodes;
  * `classified_iff`: a drive takes a `TimeoutError` for the timer of the graph exactly when
    `gather` raises one that a node has raised.
-/
import TracciaRuntime.Proof.Fleets
import Mathlib.Algebra.Order.Ring.Rat

namespace TracciaRuntime.Analytics

open Machine

variable {V : Type}

/-! ## Drives with a clock -/

/-- The seconds that a graph has, of its own and by the deployment. -/
structure GraphTimer where
  timeoutSeconds : ℚ
  maximumGraphTimeoutSeconds : ℚ

/-- `min(graph.timeout_seconds, self._maximum_graph_timeout_seconds)`. -/
def GraphTimer.allowed (timer : GraphTimer) : ℚ :=
  min timer.timeoutSeconds timer.maximumGraphTimeoutSeconds

/-- The drives of a graph at a time, and when each has got to its tasks. -/
structure Clocked (V : Type) where
  fleet : Fleet V := {}
  now : ℚ := 0
  entered : Nat → ℚ := fun _ => 0

namespace Clocked
variable (e : Engine V) (g : AnalyticalGraph V) (timer : GraphTimer) (s : Clocked V)

/-- The timer of a drive does not strike before its time. -/
def onTime (time : ℚ) : FleetAct V → Bool
  | .go k (.strike .timeout) => s.entered k + timer.allowed ≤ time
  | _ => true

/-- Drive `k` is at its tasks. -/
def waits (k : Nat) : Bool := (s.fleet.drives k).any fun d => d.stage = .waiting

def step (x : ℚ × FleetAct V) : Option (Clocked V) :=
  if s.now ≤ x.1 ∧ s.onTime timer x.1 x.2 then
    (s.fleet.step e g x.2).map fun fleet =>
      { fleet
        now := x.1
        entered := fun k => if s.waits k then s.entered k else x.1 }
  else none

end Clocked

/-! ## Moves -/

variable {e : Engine V} {g : AnalyticalGraph V} {timer : GraphTimer}
  {row row' : Option (AnalyticalGraphState V)} {d d' d₁ : Drive V} {a : Act V}

namespace Drive

/-- The drive is in the branch of `TimeoutError`, or has raised the error of it. -/
def TimedOut (d : Drive V) : Prop := d.stage = .closing .timedOut ∨ d.stage = .ended .timedOut

/-- Only the nodes of the graph have tasks. -/
def Outside (g : AnalyticalGraph V) (d : Drive V) : Prop := ∀ i, i ∉ g.ids → d.phase i = .idle

/-- The move has nothing to do with a timeout. -/
structure Quiet (g : AnalyticalGraph V) (d d' : Drive V) : Prop where
  timedOut : d'.TimedOut → d.TimedOut
  cancelled : ∀ i, d'.statusOf i = .cancelled → d.statusOf i = .cancelled
  early : d'.stage.early → d.stage.early
  waiting : d'.stage = .waiting → d.stage = .waiting ∨ d.stage = .opening
  outside : d.Outside g → d'.Outside g

theorem Quiet.of_stage (hn : d'.memory.nodes = d.memory.nodes) (hp : d'.phase = d.phase)
    (ht : d'.TimedOut → d.TimedOut) (he : d'.stage.early → d.stage.early)
    (hw : d'.stage = .waiting → d.stage = .waiting ∨ d.stage = .opening) : Quiet g d d' where
  timedOut := ht
  cancelled i := by
    rw [statusOf, hn]
    exact id
  early := he
  waiting := hw
  outside ho i hi := by
    rw [hp]
    exact ho i hi

/-- The stage stays as it is. -/
theorem Quiet.of_same (hn : d'.memory.nodes = d.memory.nodes) (hp : d'.phase = d.phase)
    (hs : d'.stage = d.stage) : Quiet g d d' := by
  refine .of_stage hn hp ?_ ?_ ?_
  · unfold TimedOut
    rw [hs]
    exact id
  · rw [hs]
    exact id
  · rw [hs]
    exact .inl

/-- The drive ends, and not in the branch of `TimeoutError`. -/
theorem Quiet.of_closed {o : Outcome} (hn : d'.memory.nodes = d.memory.nodes)
    (hp : d'.phase = d.phase) (hs : d'.stage = .closing o ∨ d'.stage = .ended o)
    (ho : o = .timedOut → d.TimedOut) : Quiet g d d' := by
  refine .of_stage hn hp ?_ ?_ ?_
  · rintro (h | h)
    · rcases hs with hs | hs
      · rw [hs] at h; cases h; exact ho rfl
      · rw [hs] at h; cases h
    · rcases hs with hs | hs
      · rw [hs] at h; cases h
      · rw [hs] at h; cases h; exact ho rfl
  · rcases hs with hs | hs <;> (rw [hs]; intro h; cases h)
  · rcases hs with hs | hs <;> (rw [hs]; intro h; cases h)

theorem quiet_finish {o : Outcome} (ho : ∀ m, o ≠ .raised (.timeout m)) (ht : o ≠ .timedOut) :
    Quiet g d (d.finish o) ∧ (d.finish o).stage = .closing o ∧
      (d.finish o).memory.nodes = d.memory.nodes := by
  rcases d.finish_cases o with ⟨m, h, -⟩ | ⟨hs, hn, -⟩
  · exact absurd h (ho m)
  · exact ⟨.of_closed hn (d.finish_phase o) (.inl hs) fun h => absurd h ht, hs, hn⟩

theorem quiet_schedule (hs : d.stage = .waiting ∨ d.stage = .opening) :
    Quiet g d (d.schedule g) := by
  have hscheduled := scheduled g d
  generalize d.schedule g = d' at hscheduled
  cases hscheduled with
  | completed => exact (quiet_finish (by simp) (by simp)).1
  | failedAt => exact (quiet_finish (by simp) (by simp)).1
  | stuck => exact (quiet_finish (by simp) (by simp)).1
  | wave =>
    refine ⟨?_, fun i h => h, ?_, fun _ => hs, fun _ i hi => ?_⟩
    · rintro (h | h) <;> cases h
    · intro h; cases h
    · exact if_neg fun hready => hi (mem_ready.1 hready).1

end Drive

/-- No event of a task cancels its node. -/
theorem Goes.cancelled {lookup : String → Option V} {n : AnalyticalNode V} {w w' : Work V}
    {ev : NodeEvent V} (h : Goes e lookup n w ev w') (hc : w'.execution.status = .cancelled) :
    w.execution.status = .cancelled := by
  cases h with
  | begin => cases hc
  | fail => cases hc
  | complete => cases hc
  | _ => exact hc

namespace Drive

theorem quiet_setWork {lookup : String → Option V} {i : String} {n : AnalyticalNode V}
    {ev : NodeEvent V} {w : Work V} (hn : g.node i = some n)
    (h : Goes e lookup n (d.work i) ev w) : Quiet g d (d.setWork i w) where
  timedOut := id
  cancelled j hj := by
    by_cases hji : j = i
    · subst hji
      have hw : w.execution.status = .cancelled := by
        simpa [statusOf, setWork] using hj
      exact h.cancelled hw
    · simpa [statusOf, setWork, hji] using hj
  early := id
  waiting := .inl
  outside ho j hj := by
    have hne : j ≠ i := fun hji => hj (hji ▸ List.mem_map.2 ⟨n, g.mem_of_node hn⟩)
    simpa [setWork, hne] using ho j hj

theorem finish_strike (d : Drive V) (o : Outcome) : (d.finish o).strike = d.strike := by
  unfold finish; split <;> rfl

theorem schedule_strike : (d.schedule g).strike = d.strike := by
  have hscheduled := scheduled g d
  generalize d.schedule g = d' at hscheduled
  cases hscheduled with
  | wave => rfl
  | _ => exact finish_strike d _

/-- The end of a checkpoint. -/
theorem quiet_saved {b : Actor} {failure : Option Raised} (h : d.saved e g b failure = some d') :
    Quiet g d d' ∧ d'.strike = d.strike := by
  cases b with
  | driver =>
    simp only [saved] at h
    split at h
    · rename_i ho
      cases h
      exact ⟨quiet_schedule (.inr ho), schedule_strike⟩
    · rename_i o ho
      cases h
      exact ⟨.of_closed rfl rfl (.inr rfl) fun h => .inl (h ▸ ho), rfl⟩
    · cases h
      exact ⟨.of_closed rfl rfl (.inr rfl) (by simp), rfl⟩
    · cases h
      exact ⟨.of_closed rfl rfl (.inr rfl) (by simp), rfl⟩
    · cases h
  | node i =>
    simp only [saved, Option.ite_none_right_eq_some] at h
    obtain ⟨-, h⟩ := h
    obtain ⟨n, hn, h⟩ := Option.bind_eq_some_iff.1 h
    obtain ⟨w, hw, h⟩ := Option.bind_eq_some_iff.1 h
    cases h
    exact ⟨quiet_setWork hn (goes_of_step hw), rfl⟩

theorem Quiet.trans_same (h : Quiet g d₁ d') (hn : d₁.memory.nodes = d.memory.nodes)
    (hp : d₁.phase = d.phase) (hs : d₁.stage = d.stage) : Quiet g d d' where
  timedOut ht := by
    have h₁ := h.timedOut ht
    unfold TimedOut at h₁
    rwa [hs] at h₁
  cancelled i hi := by
    have h₁ := h.cancelled i hi
    rwa [statusOf, hn] at h₁
  early he := by
    rw [← hs]
    exact h.early he
  waiting hw := by
    rw [← hs]
    exact h.waiting hw
  outside ho := h.outside fun i hi => by
    rw [hp]
    exact ho i hi

end Drive

/-- What `gather` raises ends the drive. -/
def Raises (d : Drive V) (a : Act V) (x : Raised) : Prop :=
  d.strike.map Strike.raised = some x ∨
    d.strike = none ∧ ∃ j, a = .gathered (some j) ∧ (d.phase j).error = some x

/-- **Only a `gather` that raises has to do with a timeout.** -/
theorem Move.quiet (h : Move e g row d a row' d') :
    (∃ x, d.stage = .waiting ∧ Raises d a x ∧ d' = d.finish (.raised x)) ∨
    Drive.Quiet g d d' ∧ (d'.strike = d.strike ∨
      ∃ s, a = .strike s ∧ d.stage = .waiting ∧ d'.strike = some s) := by
  cases h with
  | create hs =>
    refine .inr ⟨.of_stage rfl rfl ?_ (fun _ => by rw [hs]; rfl) (fun h => by cases h), .inl rfl⟩
    rintro (h | h) <;> cases h
  | created hs =>
    refine .inr ⟨.of_stage rfl rfl ?_ (fun _ => by rw [hs]; rfl) (fun h => by cases h), .inl rfl⟩
    rintro (h | h) <;> cases h
  | quit => exact .inr ⟨.of_closed rfl rfl (.inr rfl) (by simp), .inl rfl⟩
  | locked hs =>
    refine .inr ⟨.of_stage rfl rfl ?_ (fun _ => by rw [hs]; rfl) (fun h => by cases h), .inl rfl⟩
    rintro (h | h) <;> cases h
  | acquire =>
    refine .inr ⟨.of_same ?_ ?_ ?_, .inl ?_⟩ <;> unfold Drive.send <;> cases e.store <;> rfl
  | commit => exact .inr ⟨.of_same rfl rfl rfl, .inl rfl⟩
  | answer _ hs =>
    obtain ⟨hq, hstrike⟩ := Drive.quiet_saved hs
    exact .inr ⟨hq.trans_same rfl rfl rfl, .inl hstrike⟩
  | conflict _ hs =>
    obtain ⟨hq, hstrike⟩ := Drive.quiet_saved hs
    exact .inr ⟨hq.trans_same rfl rfl rfl, .inl hstrike⟩
  | broken _ _ hs =>
    obtain ⟨hq, hstrike⟩ := Drive.quiet_saved hs
    exact .inr ⟨hq.trans_same rfl rfl rfl, .inl hstrike⟩
  | cut _ _ hs =>
    obtain ⟨hq, hstrike⟩ := Drive.quiet_saved hs
    exact .inr ⟨hq, .inl hstrike⟩
  | node _ hn _ hg => exact .inr ⟨Drive.quiet_setWork hn hg, .inl rfl⟩
  | strike hs => exact .inr ⟨.of_same rfl rfl rfl, .inr ⟨_, rfl, hs, rfl⟩⟩
  | struck hs _ hst => exact .inl ⟨_, hs, .inl (by rw [hst]; rfl), rfl⟩
  | again hs => exact .inr ⟨Drive.quiet_schedule (.inl hs), .inl Drive.schedule_strike⟩
  | failed hs _ hst herr => exact .inl ⟨_, hs, .inr ⟨hst, _, rfl, herr⟩, rfl⟩

theorem Drive.gathered_raises {j : String} {x : Raised}
    (h : d.step e g row (.gathered (some j)) = some (row', d')) (hs : d.strike = none)
    (hj : j ∈ g.ids) (hx : (d.phase j).error = some x) : d' = d.finish (.raised x) := by
  simp only [Drive.step, Option.ite_none_right_eq_some] at h
  obtain ⟨-, h⟩ := h
  rw [hs] at h
  dsimp only at h
  split at h
  · rename_i hnone
    rw [hnone j hj] at hx
    cases hx
  · rw [Drive.first, Option.bind_some, hx] at h
    cases h
    rfl

/-! ## Runs -/

namespace Clocked

variable {s s' : Clocked V} {k : Nat} {time : ℚ}

/-- What the timers keep. -/
structure Timed (g : AnalyticalGraph V) (timer : GraphTimer) (s : Clocked V) (k : Nat)
    (d : Drive V) : Prop where
  early : d.stage.early → d.strike = none
  struck : d.stage = .waiting → d.strike = some .timeout → s.entered k + timer.allowed ≤ s.now
  outside : d.Outside g

def Inv (g : AnalyticalGraph V) (timer : GraphTimer) (s : Clocked V) : Prop :=
  ∀ k d, s.fleet.drives k = some d → s.Timed g timer k d

/-- A step of a drive. -/
theorem go_step (h : s.step e g timer (time, .go k a) = some s')
    (hd : s.fleet.drives k = some d) : ∃ row' d', d.step e g s.fleet.row a = some (row', d') ∧
      s' = { fleet := ⟨row', Function.update s.fleet.drives k (some d')⟩
             now := time
             entered := fun k => if s.waits k then s.entered k else time } ∧
      s.now ≤ time ∧ s.onTime timer time (.go k a) := by
  simp only [step, Option.ite_none_right_eq_some] at h
  obtain ⟨⟨hnow, htime⟩, h⟩ := h
  obtain ⟨fleet, hf, rfl⟩ := Option.map_eq_some_iff.1 h
  obtain ⟨d₁, hd₁, hf⟩ := Option.bind_eq_some_iff.1 hf
  rw [hd] at hd₁
  cases hd₁
  obtain ⟨⟨row', d'⟩, hstep, hf⟩ := Option.bind_eq_some_iff.1 hf
  cases hf
  exact ⟨row', d', hstep, rfl, hnow, htime⟩

theorem waits_iff (hd : s.fleet.drives k = some d) : s.waits k = true ↔ d.stage = .waiting := by
  simp [waits, hd]

/-- A drive that stays as it is. -/
theorem Timed.later (h : s.Timed g timer k d) (hd : s.fleet.drives k = some d)
    (hnow : s.now ≤ time) (hs' : s'.now = time)
    (he : s'.entered = fun k => if s.waits k then s.entered k else time) :
    s'.Timed g timer k d where
  early := h.early
  struck hw hst := by
    rw [he, hs']
    dsimp only
    rw [if_pos ((waits_iff hd).2 hw)]
    exact (h.struck hw hst).trans hnow
  outside := h.outside

/-- A drive that has just begun. -/
theorem Timed.fresh (he : d.stage.early) (hs : d.strike = none) (hp : d.phase = fun _ => .idle) :
    s.Timed g timer k d where
  early _ := hs
  struck hw := by
    rw [hw] at he
    cases he
  outside i _ := by rw [hp]

theorem Timed.move (h : s.Timed g timer k d) (hd : s.fleet.drives k = some d)
    (hm : Move e g row d a row' d') (hnow : s.now ≤ time)
    (htime : s.onTime timer time (.go k a)) (hs' : s'.now = time)
    (he : s'.entered = fun k => if s.waits k then s.entered k else time) :
    s'.Timed g timer k d' := by
  rcases hm.quiet with ⟨x, hw, -, rfl⟩ | ⟨hq, hstrike⟩
  · obtain ⟨o, hs, -⟩ := d.finish_stage (.raised x)
    refine ⟨fun hearly => ?_, fun hwait => ?_, fun i hi => ?_⟩
    · rw [hs] at hearly
      cases hearly
    · rw [hs] at hwait
      cases hwait
    · rw [d.finish_phase]
      exact h.outside i hi
  · refine ⟨fun hearly => ?_, fun hwait hst => ?_, hq.outside h.outside⟩
    · have hold := hq.early hearly
      rcases hstrike with hsame | ⟨st, -, hw, -⟩
      · rw [hsame]
        exact h.early hold
      · rw [hw] at hold
        cases hold
    · -- it has got to its tasks just now, or been at them when the timer struck
      rcases hstrike with hsame | ⟨st, rfl, hw, hst'⟩
      · rw [hsame] at hst
        rcases hq.waiting hwait with hw | ho
        · rw [he, hs']
          dsimp only
          rw [if_pos ((waits_iff hd).2 hw)]
          exact (h.struck hw hst).trans hnow
        · have hnone := h.early (by rw [ho]; rfl)
          rw [hnone] at hst
          cases hst
      · rw [hst] at hst'
        cases hst'
        rw [he, hs']
        dsimp only
        rw [if_pos ((waits_iff hd).2 hw)]
        exact of_decide_eq_true htime

theorem Inv.step {x : ℚ × FleetAct V} (h : Inv g timer s) (hs : s.step e g timer x = some s') :
    Inv g timer s' := by
  obtain ⟨time, a⟩ := x
  have hs₀ := hs
  simp only [Clocked.step, Option.ite_none_right_eq_some] at hs
  obtain ⟨⟨hnow, htime⟩, hs⟩ := hs
  obtain ⟨fleet, hf, rfl⟩ := Option.map_eq_some_iff.1 hs
  let s' : Clocked V :=
    { fleet, now := time, entered := fun k => if s.waits k then s.entered k else time }
  -- a drive other than the one that moves stays as it is
  have hput : ∀ {k : Nat} {x : Option (Drive V)} {row : Option (AnalyticalGraphState V)},
      fleet = ⟨row, Function.update s.fleet.drives k x⟩ →
      (∀ d₁, x = some d₁ → s'.Timed g timer k d₁) → Inv g timer s' := by
    intro k x row hfleet hx j d hd
    change fleet.drives j = some d at hd
    rw [hfleet] at hd
    dsimp only at hd
    by_cases hj : j = k
    · subst hj
      rw [Function.update_self] at hd
      exact hx d hd
    · rw [Function.update_of_ne hj] at hd
      exact (h j d hd).later hd hnow rfl rfl
  cases a with
  | run k context =>
    simp only [Fleet.step, Option.ite_none_right_eq_some] at hf
    obtain ⟨-, hf⟩ := hf
    cases hf
    refine hput rfl fun d₁ hd₁ => ?_
    cases hd₁
    exact .fresh rfl rfl rfl
  | resume k context =>
    simp only [Fleet.step, Option.ite_none_right_eq_some] at hf
    obtain ⟨-, hf⟩ := hf
    split at hf
    · rename_i d hd
      cases hf
      refine hput rfl fun d₁ hd₁ => ?_
      cases hd₁
      obtain ⟨p, -, -, -, rfl⟩ := Fleet.resume_cases hd
      exact .fresh rfl rfl rfl
    · cases hf
      exact fun j d hd => (h j d hd).later hd hnow rfl rfl
  | go k a =>
    obtain ⟨d, hd, hf⟩ := Option.bind_eq_some_iff.1 hf
    obtain ⟨⟨row', d'⟩, hstep, hf⟩ := Option.bind_eq_some_iff.1 hf
    cases hf
    refine hput rfl fun d₁ hd₁ => ?_
    cases hd₁
    exact (h k d hd).move hd (move_of_step hstep) hnow htime rfl rfl
  | crash k =>
    cases hf
    exact hput rfl fun d₁ hd₁ => by cases hd₁

/-- A timeout of the graph is one of its own timer, and a node that fails fails the drive. -/
structure Classifies (g : AnalyticalGraph V) (timer : GraphTimer) (s : Clocked V) (k : Nat)
    (a : Act V) (d : Drive V) (s' : Clocked V) (d' : Drive V) : Prop where
  deadline : ¬ d.TimedOut → d'.TimedOut → s.entered k + timer.allowed ≤ s'.now
  cancels : ∀ i, d.statusOf i ≠ .cancelled → d'.statusOf i = .cancelled →
    s.entered k + timer.allowed ≤ s'.now
  failure : ∀ j ∈ g.ids, ∀ x, a = .gathered (some j) → d.strike = none →
    (d.phase j).error = some x →
    d'.stage = .closing (.raised x) ∧ d'.memory.nodes = d.memory.nodes

/-- What `gather` raises for a node, before the timer of the graph has struck, is no
    `TimeoutError`. -/
def Told (d : Drive V) (a : Act V) : Prop :=
  ∀ j m, a = .gathered (some j) → d.strike = none → (d.phase j).error ≠ some (.timeout m)

theorem classifies_iff (hI : Inv g timer s) (hs : s.step e g timer (time, .go k a) = some s')
    (hd : s.fleet.drives k = some d) (hd' : s'.fleet.drives k = some d') :
    Classifies g timer s k a d s' d' ↔ Told d a := by
  obtain ⟨row', d₁, hstep, rfl, hnow, -⟩ := go_step hs hd
  obtain rfl : d₁ = d' := by simpa using hd'
  have ht := hI k d hd
  constructor
  · rintro hc j m rfl hst herr
    have hj : j ∈ g.ids := by
      by_contra hj
      rw [ht.outside j hj] at herr
      cases herr
    have hclosing := (hc.failure j hj _ rfl hst herr).1
    rw [Drive.gathered_raises hstep hst hj herr] at hclosing
    cases hclosing
  · intro htold
    have hfailure : ∀ j ∈ g.ids, ∀ x, a = .gathered (some j) → d.strike = none →
        (d.phase j).error = some x →
        d₁.stage = .closing (.raised x) ∧ d₁.memory.nodes = d.memory.nodes := by
      rintro j hj x rfl hst herr
      rw [Drive.gathered_raises hstep hst hj herr]
      have hx : ∀ m, Outcome.raised x ≠ .raised (.timeout m) := by
        intro m hm
        cases hm
        exact htold j m rfl hst herr
      exact (Drive.quiet_finish (g := g) hx (by simp)).2
    have still : ∀ {d₁ : Drive V}, Drive.Quiet g d d₁ →
        (¬ d.TimedOut → d₁.TimedOut → s.entered k + timer.allowed ≤ time) ∧
        ∀ i, d.statusOf i ≠ .cancelled → d₁.statusOf i = .cancelled →
          s.entered k + timer.allowed ≤ time := fun hq =>
      ⟨fun hn hy => absurd (hq.timedOut hy) hn, fun i hn hy => absurd (hq.cancelled i hy) hn⟩
    rcases (move_of_step hstep).quiet with ⟨x, hw, hraises | ⟨hst, j, rfl, herr⟩, rfl⟩ | ⟨hq, -⟩
    · obtain ⟨st, hst, rfl⟩ := Option.map_eq_some_iff.1 hraises
      cases st with
      | timeout =>
        have hdue := (ht.struck hw hst).trans hnow
        exact ⟨fun _ _ => hdue, fun _ _ _ => hdue, hfailure⟩
      | cancel =>
        have hq : Drive.Quiet g d (d.finish (.raised Strike.cancel.raised)) :=
          (Drive.quiet_finish (by simp [Strike.raised]) (by simp)).1
        exact ⟨(still hq).1, (still hq).2, hfailure⟩
    · have hq : Drive.Quiet g d (d.finish (.raised x)) := by
        refine (Drive.quiet_finish (fun m hm => ?_) (by simp)).1
        cases hm
        exact htold j m rfl hst herr
      exact ⟨(still hq).1, (still hq).2, hfailure⟩
    · exact ⟨(still hq).1, (still hq).2, hfailure⟩

/-- `P` holds of every step that a drive takes in the run. -/
def Along (e : Engine V) (g : AnalyticalGraph V) (timer : GraphTimer) (l : List (ℚ × FleetAct V))
    (P : Clocked V → Nat → Act V → Drive V → Clocked V → Drive V → Prop) : Prop :=
  ∀ l₁ time k a l₂, l = l₁ ++ (time, .go k a) :: l₂ →
    ∀ s s', play (step e g timer) {} l₁ = some s → s.step e g timer (time, .go k a) = some s' →
      ∀ d d', s.fleet.drives k = some d → s'.fleet.drives k = some d' → P s k a d s' d'

theorem inv_of_play {l : List (ℚ × FleetAct V)} (h : play (step e g timer) {} l = some s) :
    Inv g timer s := by
  have hsteps : Steps (step e g timer) anything {} s := steps_of_play (fun _ _ _ => trivial) h
  refine hsteps.keeps (I := Inv g timer) (fun k d hd => ?_) fun s a s' hI _ => hI.step
  cases hd

/-- **The timeouts of a run are told apart** exactly if `gather` never raises a `TimeoutError` of
    a node. -/
theorem classified_iff (e : Engine V) (g : AnalyticalGraph V) (timer : GraphTimer)
    (l : List (ℚ × FleetAct V)) :
    Along e g timer l (Classifies g timer) ↔ Along e g timer l fun _ _ a d _ _ => Told d a := by
  constructor
  · intro h l₁ time k a l₂ hl s s' hplay hs d d' hd hd'
    have hstep := h l₁ time k a l₂ hl s s' hplay hs d d' hd hd'
    exact (classifies_iff (inv_of_play hplay) hs hd hd').1 hstep
  · intro h l₁ time k a l₂ hl s s' hplay hs d d' hd hd'
    have hstep := h l₁ time k a l₂ hl s s' hplay hs d d' hd hd'
    exact (classifies_iff (inv_of_play hplay) hs hd hd').2 hstep

end Clocked

/-! ## A sample -/

namespace Sample

theorem chain_first : (fields "a" []).validateReferences = .ok () := by decide

theorem chain_second : (fields "b" ["a"]).validateReferences = .ok () := by decide

/-- A node and one that depends on it. -/
def chainNodes : List (AnalyticalNode Value) :=
  [⟨fields "a" [], chain_first⟩, ⟨fields "b" ["a"], chain_second⟩]

theorem chainNodes_ne : chainNodes ≠ [] := by simp [chainNodes]

def chainFields : GraphFields Value :=
  { graph.toGraphFields with nodes := chainNodes, nodes_ne := chainNodes_ne }

theorem chainFields_valid : chainFields.validateDag = .ok () := by decide +kernel

def chain : AnalyticalGraph Value := ⟨chainFields, chainFields_valid⟩

/-- The handler of a node runs out of the time that the node has. -/
def exhausted (i : String) : List (Act Value) :=
  .node i .admitted :: checkpoint (.node i) ++ .node i (.raised (.timeout "")) ::
    checkpoint (.node i)

def timingOut : List (ℚ × FleetAct Value) :=
  (.run 0 context :: (started ++ exhausted "a" ++ [Act.gathered (some "a")]).map (.go 0)).map
    fun a => (0, a)

end Sample

open Analytics.Sample

/-- No time has passed, and the graph has timed out. -/
theorem Clocked.misclassified : ∃ s d,
    play (Clocked.step (engine .memory) chain ⟨300, 300⟩) {} timingOut = some s ∧
    s.fleet.drives 0 = some d ∧ d.TimedOut ∧ d.statusOf "b" = .cancelled ∧
    s.now = 0 ∧ s.entered 0 + GraphTimer.allowed ⟨300, 300⟩ = 300 := by
  have h : ((play (Clocked.step (engine .memory) chain ⟨300, 300⟩) {} timingOut).bind fun s =>
      (s.fleet.drives 0).map fun d => (d.stage, d.statusOf "b", s.now,
        s.entered 0 + GraphTimer.allowed ⟨300, 300⟩)) =
      some (.closing .timedOut, .cancelled, 0, 300) := by decide +kernel
  obtain ⟨s, hplay, h⟩ := Option.bind_eq_some_iff.1 h
  obtain ⟨d, hd, h⟩ := Option.map_eq_some_iff.1 h
  simp only [Prod.mk.injEq] at h
  obtain ⟨hstage, hb, hnow, htime⟩ := h
  exact ⟨s, d, hplay, hd, .inl hstage, hb, hnow, htime⟩

end TracciaRuntime.Analytics
