/-
  The scheduler of a graph.

  * `Drive.weight`: how far a drive is from its end; `Healthy.weight_lt`: every smooth move of a
    drive in which nothing fails lowers it;
  * `Drive.can_go`: a drive that has not ended can go on;
  * `Calm`, `Unfailed`: runs in which no node fails;
  * `schedules`: when handlers run, and how drives end.
-/
import TracciaRuntime.Proof.Waves
import Mathlib.Algebra.Order.BigOperators.Group.List
import Mathlib.Algebra.Order.Ring.Nat

namespace TracciaRuntime.Analytics

open Machine AnalyticalGraphState

variable {V : Type} {e : Engine V} {g : AnalyticalGraph V} {row row' : Option (AnalyticalGraphState V)}
  {d d' : Drive V} {p p' : AnalyticalGraphState V} {a : Act V}

/-! ## How far a drive is from its end -/

namespace Drive

/-- The moves that are left for the drive itself. -/
def stageWeight : Stage → Nat
  | .creating none => 6
  | .creating (some _) => 5
  | .locking => 4
  | .opening => 3
  | .waiting => 2
  | .closing _ => 1
  | .ended _ => 0

/-- The moves that are left of a checkpoint. -/
def flightWeight : Option (Flight V) → Nat
  | none => 2
  | some f => if f.verdict = none then 1 else 0

/-- How far the tasks of the graph are from their ends. -/
def taskWeight (g : AnalyticalGraph V) (d : Drive V) : Nat :=
  (g.nodes.map fun n => (d.work n.id).weight n).sum

/-- How far a drive is from its end; a checkpoint has three moves. -/
def weight (g : AnalyticalGraph V) (d : Drive V) : Nat :=
  3 * (stageWeight d.stage + d.taskWeight g) + flightWeight d.flight

theorem taskWeight_congr (h : d'.work = d.work) : d'.taskWeight g = d.taskWeight g := by
  simp only [taskWeight, h]

theorem weight_of_phase {n : AnalyticalNode V} {w : Work V} (h : w.phase ≠ .idle) :
    w.weight n = w.phase.weight n := by
  unfold Work.weight
  split
  · rename_i hidle
    exact absurd hidle h
  · rfl

end Drive

theorem Goes.busy {lookup : String → Option V} {n : AnalyticalNode V} {w w' : Work V}
    {ev : NodeEvent V} (h : Goes e lookup n w ev w') : w.phase ≠ .idle ∧ w'.phase ≠ .idle := by
  constructor
  · intro hidle
    have hlt := h.weight_lt.1
    rw [hidle] at hlt
    exact absurd hlt (Nat.not_lt_zero _)
  · cases h with
    | begin | fail | complete | withdraw | key | unprepared | look | start | close | unsaved | miss
      | pause | again | store => nofun

/-- A task goes on, and the others stay where they are. -/
theorem Drive.taskWeight_setWork {lookup : String → Option V} {i : String} {n : AnalyticalNode V}
    {ev : NodeEvent V} {w : Work V} (hn : g.node i = some n)
    (hg : Goes e lookup n (d.work i) ev w) :
    (d.setWork i w).taskWeight g < d.taskWeight g := by
  obtain ⟨hmem, hid⟩ := GraphFields.mem_of_node hn
  have hlt : ((d.setWork i w).work i).weight n < (d.work i).weight n := by
    rw [Drive.work_setWork, Function.update_self, weight_of_phase hg.busy.1,
      weight_of_phase hg.busy.2]
    exact hg.weight_lt.1
  refine List.sum_lt_sum _ _ (fun m hm => ?_) ⟨n, hmem, ?_⟩
  · by_cases hmi : m.id = i
    · have hmn : m = n := by
        have hinj := List.inj_on_of_nodup_map g.nodup
        exact hinj hm hmem (hmi.trans hid.symm)
      rw [hmn, hid]
      exact hlt.le
    · rw [Drive.work_setWork, Function.update_of_ne hmi]
  · rw [hid]
    exact hlt

/-- A wave brings the nodes that are ready nearer to their ends. -/
theorem Drive.taskWeight_schedule (hover : ∀ i ∈ g.ids, (d.phase i).finished)
    (hidle : ∀ i, d.statusOf i = .pending → d.phase i = .idle) (hsound : (d.schedule g).Sound g)
    (hclean : d.memory.Clean) :
    (d.schedule g).stage = .waiting ∧ (d.schedule g).taskWeight g < d.taskWeight g ∨
      stageWeight (d.schedule g).stage = 1 ∧ (d.schedule g).taskWeight g = d.taskWeight g := by
  have hs := scheduled g d
  generalize d.schedule g = d' at hs hsound
  cases hs with
  | completed => exact .inr ⟨rfl, rfl⟩
  | failedAt hfailed =>
    obtain ⟨i, -, hi⟩ := hfailed
    rcases hi with hi | hi
    · exact absurd hi (hclean i).1
    · exact absurd hi (hclean i).2
  | stuck => exact absurd rfl hsound.stuck.1
  | wave hready =>
    have hle : ∀ n ∈ g.nodes, n.id ∉ d.ready g →
        (({ d with
            phase := fun i => if i ∈ d.ready g then .queued else .idle
            stage := .waiting } : Drive V).work n.id).weight n ≤ (d.work n.id).weight n := by
      intro n hn hnot
      have hfin := hover n.id (List.mem_map_of_mem hn)
      simp only [work, Work.weight, if_neg hnot]
      by_cases hp : (d.memory.nodes n.id).status = .pending
      · rw [if_pos hp, hidle n.id hp]
        simp only [hp, if_true, le_refl]
      · rw [if_neg hp]
        exact Nat.zero_le _
    have hlt : ∀ n ∈ g.nodes, n.id ∈ d.ready g →
        (({ d with
            phase := fun i => if i ∈ d.ready g then .queued else .idle
            stage := .waiting } : Drive V).work n.id).weight n < (d.work n.id).weight n := by
      intro n hn hin
      obtain ⟨-, hp, -⟩ := Drive.mem_ready.1 hin
      simp only [work, Work.weight, if_pos hin, hidle n.id hp]
      rw [show (d.memory.nodes n.id).status = .pending from hp, if_pos rfl, Phase.weight]
      omega
    have hsum : (({ d with
        phase := fun i => if i ∈ d.ready g then .queued else .idle
        stage := .waiting } : Drive V).taskWeight g) < d.taskWeight g := by
      obtain ⟨i, hi⟩ := List.exists_mem_of_ne_nil _ hready
      obtain ⟨n, hn, rfl⟩ := List.mem_map.1 (Drive.mem_ready.1 hi).1
      refine List.sum_lt_sum _ _ (fun m hm => ?_) ⟨n, hn, hlt n hn hi⟩
      by_cases hin : m.id ∈ d.ready g
      · exact (hlt m hm hin).le
      · exact hle m hm hin
    exact .inl ⟨rfl, hsum⟩

namespace Session

/-- Nodes that are `PENDING` after a wave have no tasks. -/
theorem idle_of_over (h : Healthy e g row d) (hk : Knows e g row d) (hwait : d.stage = .waiting)
    (hover : ∀ j ∈ g.ids, (d.phase j).finished) {i : String} (hi : d.statusOf i = .pending) :
    d.phase i = .idle := by
  by_cases hg : i ∈ g.ids
  · have hagrees := hk.sound.agrees hwait i
    have hfin := hover i hg
    have hraises := h.phases i
    have hstatus : (d.memory.nodes i).status = .pending := hi
    cases hp : d.phase i with
    | idle => rfl
    | ended failure =>
      rw [hp] at hagrees hraises
      cases failure with
      | none =>
        rw [show (d.memory.nodes i).status = .completed from hagrees] at hstatus
        cases hstatus
      | some x => cases hraises
    | withdrawn =>
      rw [hp] at hraises
      cases hraises
    | _ =>
      rw [hp] at hfin
      cases hfin
  · exact (hk.sound.outside i hg).1

theorem lt_of_goes {k : Nat} (h : d'.weight g + 3 ≤ k) : d'.weight g < k := by omega

/-- A round of the scheduler. -/
theorem weight_schedule (h : (d.schedule g).stage = .waiting ∧
      (d.schedule g).taskWeight g < d.taskWeight g ∨
      Drive.stageWeight (d.schedule g).stage = 1 ∧ (d.schedule g).taskWeight g = d.taskWeight g)
    (hge : 2 ≤ Drive.stageWeight d.stage) : (d.schedule g).weight g + 3 ≤ d.weight g := by
  rw [Drive.weight, Drive.weight, (d.schedule_frame g).1]
  rcases h with ⟨hs, ht⟩ | ⟨hs, ht⟩
  · rw [hs, show Drive.stageWeight .waiting = 2 from rfl]
    omega
  · rw [hs, ht]
    omega

theorem weight_setWork {lookup : String → Option V} {i : String} {n : AnalyticalNode V}
    {ev : NodeEvent V} {w : Work V} (hn : g.node i = some n)
    (hg : Goes e lookup n (d.work i) ev w) : (d.setWork i w).weight g + 3 ≤ d.weight g := by
  have ht := Drive.taskWeight_setWork hn hg
  rw [Drive.weight, Drive.weight, show (d.setWork i w).stage = d.stage from rfl,
    show (d.setWork i w).flight = d.flight from rfl]
  omega

/-- The drive goes on by itself. -/
theorem weight_of_stage (hw : d'.work = d.work) (hf : d'.flight = d.flight)
    (hs : Drive.stageWeight d'.stage < Drive.stageWeight d.stage) :
    d'.weight g + 3 ≤ d.weight g := by
  rw [Drive.weight, Drive.weight, Drive.taskWeight_congr hw, hf]
  omega

/-- A checkpoint goes on. -/
theorem weight_of_flight (hw : d'.work = d.work) (hs : d'.stage = d.stage)
    (hf : Drive.flightWeight d'.flight < Drive.flightWeight d.flight) :
    d'.weight g < d.weight g := by
  rw [Drive.weight, Drive.weight, Drive.taskWeight_congr hw, hs]
  omega

/-- A checkpoint is over. -/
theorem weight_landed : ({ d with flight := none } : Drive V).weight g ≤ d.weight g + 2 := by
  have ht : ({ d with flight := none } : Drive V).taskWeight g = d.taskWeight g :=
    Drive.taskWeight_congr rfl
  rw [Drive.weight, Drive.weight, ht]
  simp only [Drive.flightWeight]
  omega

/-- **Every smooth move brings a drive in which nothing fails nearer to its end.** -/
theorem Healthy.weight_lt (h : Healthy e g row d) (hk : Knows e g row d) (hc : d.memory.Clean)
    (hs : d.step e g row a = some (row', d')) (ha : a.smooth) :
    d'.weight g < d.weight g := by
  have hsound := (move_of_step hs).turn.sound hk.sound
  have hlanded : ({ d with flight := none } : Drive V).weight g ≤ d.weight g + 2 := weight_landed
  cases h.advances hk.flown hs ha with
  | create hstage =>
    exact lt_of_goes (weight_of_stage rfl rfl (by rw [hstage]; exact Nat.le_refl 6))
  | created hstage =>
    exact lt_of_goes (weight_of_stage rfl rfl (by rw [hstage]; exact Nat.le_refl 5))
  | refused hstage =>
    exact lt_of_goes (weight_of_stage rfl rfl (by rw [hstage]; exact Nat.succ_pos 4))
  | locked hstage =>
    exact lt_of_goes (weight_of_stage rfl rfl (by rw [hstage]; exact Nat.le_refl 4))
  | acquire hflight =>
    refine weight_of_flight ?_ ?_ ?_
    · unfold Drive.send
      cases e.store <;> rfl
    · unfold Drive.send
      cases e.store <;> rfl
    · rw [hflight]
      unfold Drive.send
      cases e.store <;> exact Nat.le_refl 2
  | commit hflight => exact weight_of_flight rfl rfl (by rw [hflight]; exact Nat.le_refl 1)
  | opened hstage =>
    have hidle : ∀ i, d.phase i = .idle := fun i => (hk.sound.early (by rw [hstage]; rfl) i).2
    have hgoes : (({ d with flight := none } : Drive V).schedule g).weight g + 3 ≤
        ({ d with flight := none } : Drive V).weight g := by
      refine weight_schedule (Drive.taskWeight_schedule (fun i _ => ?_) (fun i _ => hidle i)
        hsound hc) ?_
      · dsimp only
        rw [hidle i]
        rfl
      · dsimp only
        rw [hstage]
        exact Nat.le_succ 2
    omega
  | @closed o _ _ hstage =>
    have hgoes : ({ d with stage := .ended o, flight := none } : Drive V).weight g + 3 ≤
        ({ d with flight := none } : Drive V).weight g :=
      weight_of_stage rfl rfl (by dsimp only; rw [hstage]; exact Nat.succ_pos 0)
    omega
  | saved hwait hflight hn hg =>
    have hgoes := weight_setWork (d := { d with flight := none }) hn hg
    omega
  | node hwait hn hg => exact lt_of_goes (weight_setWork hn hg)
  | again hwait hover =>
    exact lt_of_goes (weight_schedule (Drive.taskWeight_schedule hover
      (fun i hi => idle_of_over h hk hwait hover hi) hsound hc) (by rw [hwait]; rfl))

end Session

/-! ## A drive can always go on -/

namespace Work
variable {lookup : String → Option V} {n : AnalyticalNode V} {w : Work V}

theorem step_saving (h : w.phase.saving) (failure : Option Raised) :
    (w.step e lookup n (failure.elim .saved .unsaved)).isSome := by
  cases hp : w.phase with
  | opening =>
    cases failure with
    | none =>
      simp only [Option.elim_none, step, hp]
      split <;> rfl
    | some x => simp [step, hp]
  | closing f => cases failure <;> simp [step, hp]
  | _ =>
    rw [hp] at h
    cases h

/-- Handlers, the cache and timers may answer. -/
theorem exists_event (h : w.phase.trying) : ∃ ev, (∀ d : Drive V, d.Can e g n ev) ∧
    (w.step e lookup n ev).isSome := by
  cases hp : w.phase with
  | looking inputs => exact ⟨.looked none, fun _ => trivial, by simp [step, hp]⟩
  | handling inputs attempt =>
    exact ⟨.raised (.other "RuntimeError" ""), fun _ => trivial, by simp [step, hp]⟩
  | pausing inputs attempt => exact ⟨.woken, fun _ => trivial, by simp [step, hp]⟩
  | storing r => exact ⟨.stored, fun _ => trivial, by simp [step, hp]⟩
  | _ =>
    rw [hp] at h
    cases h

end Work

namespace Drive

theorem saved_isSome {a : Actor} {failure : Option Raised} (h : d.Saving g a) :
    (d.saved e g a failure).isSome := by
  cases a with
  | driver =>
    rcases h with hs | ⟨o, hs⟩ <;> cases failure <;> simp [saved, hs]
  | node i =>
    obtain ⟨hs, hi, hp⟩ := h
    obtain ⟨n, hn⟩ := GraphFields.exists_node hi
    have hsome : ((d.work i).step e d.lookup n (failure.elim .saved .unsaved)).isSome :=
      Work.step_saving hp failure
    obtain ⟨w, hw⟩ := Option.isSome_iff_exists.1 hsome
    simp [saved, hs, hn, hw]

/-- A checkpoint can go on. -/
theorem can_save {a : Actor} (hf : d.Flown g) (h : d.Saving g a) :
    ∃ act : Act V, act.smooth ∧ (d.step e g row act).isSome := by
  cases hflight : d.flight with
  | none => exact ⟨.acquire a, rfl, by simp [step, hflight, h]⟩
  | some f =>
    have hsaving := hf f hflight
    obtain ⟨b, expected, sent, verdict⟩ := f
    cases verdict with
    | none => exact ⟨.commit, rfl, by simp [step, hflight]⟩
    | some ok =>
      refine ⟨.answer, rfl, ?_⟩
      cases ok with
      | true =>
        simp only [step, hflight, Option.isSome_map]
        exact saved_isSome (d := { d with flight := none }) hsaving
      | false =>
        simp only [step, hflight, Option.isSome_map]
        exact saved_isSome (d := { d with
          memory := { d.memory with version := expected }, flight := none }) hsaving

/-- A task can go on. -/
theorem can_node {i : String} {n : AnalyticalNode V} {ev : NodeEvent V} (hs : d.stage = .waiting)
    (hn : g.node i = some n) (hc : d.Can e g n ev)
    (hw : ((d.work i).step e d.lookup n ev).isSome) :
    ∃ act : Act V, act.smooth ∧ (d.step e g row act).isSome := by
  obtain ⟨w, hw⟩ := Option.isSome_iff_exists.1 hw
  exact ⟨.node i ev, rfl, by simp [step, hn, hs, hc, hw]⟩

theorem executing_cases {ph : Phase V} (h : ph.executing) : ph.saving ∨ ph.trying := by
  cases ph with
  | opening | closing => exact .inl rfl
  | looking | handling | pausing | storing => exact .inr rfl
  | _ => cases h

/-- A task that is in `_execute_node` can go on, or what it waits for can. -/
theorem can_execute {i : String} (hf : d.Flown g) (hs : d.stage = .waiting) (hi : i ∈ g.ids)
    (h : (d.phase i).executing) : ∃ act : Act V, act.smooth ∧ (d.step e g row act).isSome := by
  rcases executing_cases h with hp | hp
  · exact can_save hf (show d.Saving g (.node i) from ⟨hs, hi, hp⟩)
  · obtain ⟨n, hn⟩ := GraphFields.exists_node hi
    have hevent : ∃ ev, (∀ d : Drive V, d.Can e g n ev) ∧
        ((d.work i).step e d.lookup n ev).isSome := Work.exists_event hp
    obtain ⟨ev, hc, hw⟩ := hevent
    exact can_node hs hn (hc d) hw

/-- When all tasks are at their ends, `gather` is over. -/
theorem can_gather (hs : d.stage = .waiting) (hover : ∀ j ∈ g.ids, (d.phase j).finished) :
    ∃ act : Act V, act.smooth ∧ (d.step e g row act).isSome := by
  have hgather : d.stage = .waiting ∧ ∀ j ∈ g.ids, (d.phase j).finished = true := ⟨hs, hover⟩
  cases hst : d.strike with
  | some s =>
    refine ⟨.gathered none, rfl, ?_⟩
    simp only [step, if_pos hgather, hst]
    cases s <;> rfl
  | none =>
    by_cases herr : ∀ j ∈ g.ids, (d.phase j).error = none
    · refine ⟨.gathered none, rfl, ?_⟩
      simp only [step, if_pos hgather, hst, if_pos herr]
      rfl
    · have hex : ∃ j ∈ g.ids, (d.phase j).error ≠ none := by
        by_contra hall
        exact herr fun j hj => by
          by_contra hne
          exact hall ⟨j, hj, hne⟩
      obtain ⟨j, -, hj⟩ := hex
      obtain ⟨x, hx⟩ := Option.ne_none_iff_exists'.1 hj
      refine ⟨.gathered (some j), rfl, ?_⟩
      simp only [step, if_pos hgather, hst, if_neg herr, first, Option.bind_some, hx]
      rfl

theorem can_wait (hf : d.Flown g) (hs : d.stage = .waiting) :
    ∃ act : Act V, act.smooth ∧ (d.step e g row act).isSome := by
  by_cases hexecuting : ∃ i ∈ g.ids, (d.phase i).executing
  · obtain ⟨i, hi, hp⟩ := hexecuting
    exact can_execute hf hs hi hp
  have hnone : ∀ i ∈ g.ids, (d.phase i).executing = false := fun i hi => by
    by_contra hp
    exact hexecuting ⟨i, hi, by simpa using hp⟩
  by_cases hkeyed : ∃ i ∈ g.ids, d.phase i = .keyed
  · -- nobody holds the lock of the key
    obtain ⟨i, hi, hp⟩ := hkeyed
    obtain ⟨n, hn⟩ := GraphFields.exists_node hi
    have hcan : d.Can e g n .entered := fun m hm _ => hnone m.id (List.mem_map_of_mem hm)
    exact can_node hs hn hcan (by simp [work, Work.step, hp])
  by_cases hqueued : ∃ i ∈ g.ids, d.phase i = .queued
  · -- nobody holds a place of the semaphore
    obtain ⟨i, hi, hp⟩ := hqueued
    obtain ⟨n, hn⟩ := GraphFields.exists_node hi
    have hempty : (g.ids.filter fun j => (d.phase j).admitted) = [] := by
      rw [List.filter_eq_nil_iff]
      intro j hj hadmitted
      have hexec := hnone j hj
      have hkey : d.phase j ≠ .keyed := fun h => hkeyed ⟨j, hj, h⟩
      revert hadmitted hexec hkey
      cases d.phase j <;> simp [Phase.admitted, Phase.executing]
    have hcan : d.Can e g n .admitted := by
      show (g.ids.filter fun j => (d.phase j).admitted).length < min g.maximumConcurrency
        e.maximumConcurrency
      rw [hempty]
      exact lt_min g.maximumConcurrency_range.1 e.maximumConcurrency_range.1
    exact can_node hs hn hcan (by simp [work, Work.step, hp])
  -- all tasks are at their ends
  have hover : ∀ i ∈ g.ids, (d.phase i).finished := by
    intro i hi
    have hexec := hnone i hi
    have hkey : d.phase i ≠ .keyed := fun h => hkeyed ⟨i, hi, h⟩
    have hqueue : d.phase i ≠ .queued := fun h => hqueued ⟨i, hi, h⟩
    revert hexec hkey hqueue
    cases d.phase i <;> simp [Phase.finished, Phase.executing]
  exact can_gather hs hover

/-- **A drive that has not ended can go on** by itself, or when a handler answers. -/
theorem can_go (hf : d.Flown g) (hend : ∀ o, d.stage ≠ .ended o) :
    ∃ act : Act V, act.smooth ∧ (d.step e g row act).isSome := by
  cases hs : d.stage with
  | creating v =>
    cases v with
    | none => exact ⟨.create, rfl, by simp [step, hs]⟩
    | some ok => exact ⟨.created, rfl, by cases ok <;> simp [step, hs]⟩
  | locking => exact ⟨.locked, rfl, by simp [step, hs]⟩
  | opening => exact can_save hf (show d.Saving g .driver from .inl hs)
  | waiting => exact can_wait hf hs
  | closing o => exact can_save hf (show d.Saving g .driver from .inr ⟨o, hs⟩)
  | ended o => exact absurd hs (hend o)

end Drive

/-! ## Runs -/

namespace Session

variable {s s' : Session V}

/-- Nothing strikes, the store raises nothing, and no task raises: no node fails in its inputs,
    its handler, its output or its budget. -/
def Calm (e : Engine V) (g : AnalyticalGraph V) (s : Session V) : SessionAct V → Prop
  | .go x => x.smooth ∧ ∀ d ∈ s.drive, ∀ r ∈ d.step e g s.row x, ∀ i ∈ g.ids,
      (r.2.phase i).raises = false
  | _ => True

instance (b : SessionAct V) : Decidable (Calm e g s b) :=
  match b with
  | .go _ => inferInstanceAs (Decidable (_ ∧ _))
  | .run _ | .resume _ | .crash => .isTrue trivial

/-- Nothing has failed. -/
structure Unfailed (e : Engine V) (g : AnalyticalGraph V) (s : Session V) : Prop where
  inv : Inv e g s
  row : ∀ p, s.row = some p → p.Clean
  drive : ∀ d, s.drive = some d → Clean e s.row d ∧ Healthy e g s.row d

theorem Unfailed.start : Unfailed e g ({} : Session V) :=
  ⟨.start, fun p hp => by (cases hp), fun d hd => by (cases hd)⟩

theorem Unfailed.step {b : SessionAct V} (h : Unfailed e g s) (hc : Calm e g s b)
    (hs : s.step e g b = some s') : Unfailed e g s' := by
  have hinv := (h.inv.step hs).1
  cases b with
  | run context =>
    simp only [Session.step, Option.ite_none_right_eq_some] at hs
    obtain ⟨-, hs⟩ := hs
    cases hs
    exact ⟨hinv, h.row, fun d hd => by cases hd; exact ⟨.run context h.row, .run context⟩⟩
  | resume context =>
    simp only [Session.step, Option.ite_none_right_eq_some] at hs
    obtain ⟨-, hs⟩ := hs
    split at hs
    · rename_i d hd
      cases hs
      exact ⟨hinv, h.row, fun d hd' => by cases hd'; exact ⟨.resume hd h.row, .resume hd⟩⟩
    · cases hs
      exact h
  | go a =>
    obtain ⟨d, hd, hs⟩ := Option.bind_eq_some_iff.1 hs
    obtain ⟨⟨row', d'⟩, hstep, hs⟩ := Option.bind_eq_some_iff.1 hs
    cases hs
    obtain ⟨hsmooth, hphases⟩ := hc
    have hraises : ∀ i, (d'.phase i).raises = false := fun i => by
      by_cases hi : i ∈ g.ids
      · exact hphases d hd _ hstep i hi
      · rw [((hinv.drive d' rfl).sound.outside i hi).1]
        rfl
    obtain ⟨hclean, hhealthy⟩ := h.drive d hd
    have hclean' := (move_of_step hstep).clean hclean (fun x hx => absurd hx hhealthy.quiet)
      fun i => fails_of_raises (hraises i)
    have hhealthy' := hhealthy.move (h.inv.drive d hd) hclean.memory hstep hsmooth hraises
    exact ⟨hinv, hclean'.row, fun d₁ hd₁ => by cases hd₁; exact ⟨hclean', hhealthy'⟩⟩
  | crash =>
    cases hs
    exact ⟨hinv, h.row, fun d hd => by (cases hd)⟩

theorem Unfailed.steps (h : Unfailed e g s) (hs : Steps (Session.step e g) (Calm e g) s s') :
    Unfailed e g s' :=
  hs.keeps h fun _ _ _ h hc hstep => h.step hc hstep

/-- How far the drive of a session is from its end. -/
def weight (g : AnalyticalGraph V) (s : Session V) : Nat := (s.drive.map (·.weight g)).getD 0

theorem Unfailed.weight_lt {x : Act V} (h : Unfailed e g s) (hc : Calm e g s (.go x))
    (hs : s.step e g (.go x) = some s') : s'.weight g < s.weight g := by
  obtain ⟨d, hd, hs⟩ := Option.bind_eq_some_iff.1 hs
  obtain ⟨⟨row', d'⟩, hstep, hs⟩ := Option.bind_eq_some_iff.1 hs
  cases hs
  have hlt := (h.drive d hd).2.weight_lt (h.inv.drive d hd) (h.drive d hd).1.memory hstep
    hc.1
  rw [weight, weight, hd]
  exact hlt

/-- What the scheduler promises for a graph. -/
structure Schedules (e : Engine V) (g : AnalyticalGraph V) : Prop where
  /-- A handler runs only for a node whose dependencies are `COMPLETED` with a result, and that
      is not `COMPLETED` itself. -/
  invoked : ∀ s, Steps (Session.step e g) anything {} s → ∀ d i, s.drive = some d → d.Handles i →
    (∀ j ∈ g.dependencies i, d.statusOf j = .completed ∧ (d.memory.results j).isSome) ∧
      d.statusOf i ≠ .completed
  /-- A node that is `COMPLETED` stays so in its drive. -/
  stays : ∀ s, Steps (Session.step e g) anything {} s → ∀ d i, s.drive = some d →
    d.statusOf i = .completed → ∀ x s' d', s.step e g (.go x) = some s' → s'.drive = some d' →
    d'.statusOf i = .completed
  /-- A node that is `COMPLETED` in the store is not handled again. -/
  once : ∀ s s', Steps (Session.step e g) anything {} s →
    Steps (Session.step e g) anything s s' → ∀ p i, s.row = some p →
    (p.nodes i).status = .completed → ∀ d, s'.drive = some d → ¬ d.Handles i
  /-- The error for no runnable nodes is not reached. -/
  runnable : ∀ s, Steps (Session.step e g) anything {} s → ∀ d, s.drive = some d →
    d.stage ≠ .closing .stuck ∧ d.stage ≠ .ended .stuck
  /-- A drive that has not ended can go on. -/
  progress : ∀ s, Steps (Session.step e g) anything {} s → ∀ d, s.drive = some d →
    (∀ o, d.stage ≠ .ended o) → ∃ x : Act V, x.smooth ∧ (s.step e g (.go x)).isSome
  /-- If nothing fails, it comes to its end. -/
  ends : ∀ s, Steps (Session.step e g) (Calm e g) {} s → ∀ x s', Calm e g s (.go x) →
    s.step e g (.go x) = some s' → s'.weight g < s.weight g
  /-- If nothing has failed, the graph ends `COMPLETED` with the results of its nodes; only a
      `run` of a graph that is in the store already raises. -/
  completed : ∀ s, Steps (Session.step e g) (Calm e g) {} s → ∀ d o, s.drive = some d →
    d.stage = .ended o → o = .raised (e.store.exists_ g.id) ∨
      o = .completed ∧ ∃ p, s.row = some p ∧ p.status = .completed ∧
        (∀ i ∈ g.ids, (p.nodes i).status = .completed) ∧ ∀ i, (p.results i).isSome ↔ i ∈ g.ids

/-- **The scheduler** runs a node when its dependencies are done, once, and never runs out of
    nodes; if nothing fails, it completes the graph. -/
theorem schedules (e : Engine V) (g : AnalyticalGraph V) : Schedules e g where
  invoked s hs d i hd hi := by
    have h := ((Inv.start.steps hs).1.drive d hd).handles hi
    exact ⟨h.1, h.2.1⟩
  stays s hs d i hd hi x s' d' hstep hd' := by
    obtain ⟨d₁, hd₁, hstep⟩ := Option.bind_eq_some_iff.1 hstep
    obtain ⟨⟨row', d₂⟩, hmove, hstep⟩ := Option.bind_eq_some_iff.1 hstep
    cases hstep
    cases hd'
    rw [hd] at hd₁
    cases hd₁
    have hsound := ((Inv.start.steps hs).1.drive d hd).sound
    rw [Drive.statusOf, ((move_of_step hmove).turn.completed_still hsound hi).1]
    exact hi
  once s s' hs hs' p i hp hi d hd hhandles := by
    have hinv := (Inv.start.steps hs).1
    obtain ⟨hinv', hkeeps⟩ := hinv.steps hs'
    obtain ⟨p', hp', hk⟩ := hkeeps p hp
    refine ((hinv'.drive d hd).handles hhandles).2.2 p' hp' ?_
    rw [(hk i hi).1]
    exact hi
  runnable s hs d hd := ((Inv.start.steps hs).1.drive d hd).sound.stuck
  progress s hs d hd hend := by
    have hcan : ∃ x : Act V, x.smooth ∧ (d.step e g s.row x).isSome :=
      Drive.can_go ((Inv.start.steps hs).1.drive d hd).flown hend
    obtain ⟨x, hx, hsome⟩ := hcan
    obtain ⟨r, hr⟩ := Option.isSome_iff_exists.1 hsome
    exact ⟨x, hx, by simp [Session.step, hd, hr]⟩
  ends s hs x s' hc hstep := (Unfailed.start.steps hs).weight_lt hc hstep
  completed s hs d o hd ho := by
    have h := Unfailed.start.steps hs
    rcases (h.drive d hd).2.ended o ho with hexists | ⟨rfl, p, hp, hdone⟩
    · exact .inl hexists
    · exact .inr ⟨rfl, p, hp, hdone.1, hdone.2, hdone.results (h.inv.row p hp).2⟩

end Session

end TracciaRuntime.Analytics
