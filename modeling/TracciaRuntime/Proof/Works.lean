/-
  The task of one node.

  * `Goes`: what a task can do next, and when; `goes_of_step`: the moves are these;
  * `Work.Sound`: what the phase of a task says about the status of its node; `Goes.sound`:
    every move keeps it;
  * `Goes.completed_still`: a node that is `COMPLETED` keeps its execution and its result;
  * `Work.weight`: how far a task is from its end; `Goes.weight_lt`: every move lowers it.
-/
import TracciaRuntime.Analytics.Engine

namespace TracciaRuntime.Analytics

variable {V : Type} {e : Engine V} {lookup : String → Option V} {n : AnalyticalNode V}
  {w w' : Work V} {ev : NodeEvent V}

/-- The task is in the `try` block of `_execute_node`. -/
def Phase.trying : Phase V → Bool
  | .looking _ | .handling _ _ | .pausing _ _ | .storing _ => true
  | _ => false

namespace Work

/-- The node is `COMPLETED` with this result. -/
def complete (w : Work V) (n : AnalyticalNode V) (r : AnalyticalResult V) : Work V where
  execution := { w.execution with status := .completed, resultId := some r.id }
  result := some { r with nodeId := n.id }
  phase := .closing none

end Work

/-- Where the result of a node comes from. -/
def Yields (e : Engine V) (n : AnalyticalNode V) (r : AnalyticalResult V) (p : Phase V)
    (ev : NodeEvent V) : Prop :=
  (∃ inputs, p = .looking inputs ∧ ev = .looked (some r)) ∨
  (∃ inputs k, p = .handling inputs k ∧ ev = .returned r ∧ e.validateResult n r.value = .ok ()) ∨
  p = .storing r ∧ ev = .stored

/-- What makes the `try` block raise. -/
def Fails (e : Engine V) (n : AnalyticalNode V) (x : Raised) (p : Phase V) (ev : NodeEvent V) :
    Prop :=
  p.trying ∧ ev = .raised x ∨
  (∃ inputs k, p = .pausing inputs k ∧ ev = .interrupted ∧ x = .cancelled) ∨
  (∃ r inputs k, p = .handling inputs k ∧ ev = .returned r ∧
    e.validateResult n r.value = .error x) ∨
  ∃ r, Yields e n r p ev ∧ e.enforceResultBudget n { r with nodeId := n.id } = .error x

inductive Goes (e : Engine V) (lookup : String → Option V) (n : AnalyticalNode V) (w : Work V) :
    NodeEvent V → Work V → Prop
  | key : w.phase = .queued → n.key.isSome → Goes e lookup n w .admitted { w with phase := .keyed }
  | begin {ev : NodeEvent V} :
      w.phase = .queued ∧ ev = .admitted ∨ w.phase = .keyed ∧ ev = .entered →
      Goes e lookup n w ev w.begin
  | withdraw : w.phase = .queued ∨ w.phase = .keyed →
      Goes e lookup n w .interrupted { w with phase := .withdrawn }
  | unprepared {x : Raised} : w.phase = .opening → e.prepare lookup n = .error x →
      Goes e lookup n w .saved (w.leave (some x))
  | look {inputs : Py.Dict String V} : w.phase = .opening → e.prepare lookup n = .ok inputs →
      e.caches n →
      Goes e lookup n w .saved { w with phase := .looking inputs }
  | start {inputs : Py.Dict String V} : w.phase = .opening → e.prepare lookup n = .ok inputs →
      Goes e lookup n w .saved (w.invoke inputs 1)
  | close {failure : Option Raised} : w.phase = .closing failure →
      Goes e lookup n w .saved (w.leave failure)
  | unsaved {x : Raised} : w.phase.saving → Goes e lookup n w (.unsaved x) (w.leave (some x))
  | miss {inputs : Py.Dict String V} : w.phase = .looking inputs →
      Goes e lookup n w (.looked none) (w.invoke inputs 1)
  | pause {inputs : Py.Dict String V} {k : Nat} {x : Raised} : w.phase = .handling inputs k →
      k < n.retry.maximumAttempts →
      Goes e lookup n w (.raised x) { w with phase := .pausing inputs k }
  | again {inputs : Py.Dict String V} {k : Nat} : w.phase = .pausing inputs k →
      Goes e lookup n w .woken (w.invoke inputs (k + 1))
  | store {inputs : Py.Dict String V} {k : Nat} {r : AnalyticalResult V} :
      w.phase = .handling inputs k → e.caches n → e.validateResult n r.value = .ok () →
      Goes e lookup n w (.returned r) { w with phase := .storing r }
  | fail {ev : NodeEvent V} {x : Raised} : Fails e n x w.phase ev → Goes e lookup n w ev (w.fail x)
  | complete {ev : NodeEvent V} {r : AnalyticalResult V} : Yields e n r w.phase ev →
      e.enforceResultBudget n { r with nodeId := n.id } = .ok () →
      Goes e lookup n w ev (w.complete n r)

theorem Yields.trying {r : AnalyticalResult V} {p : Phase V} (h : Yields e n r p ev) :
    p.trying = true := by
  rcases h with ⟨_, rfl, -⟩ | ⟨_, _, rfl, -⟩ | ⟨rfl, -⟩ <;> rfl

theorem Fails.trying {x : Raised} {p : Phase V} (h : Fails e n x p ev) : p.trying = true := by
  rcases h with ⟨h, -⟩ | ⟨_, _, rfl, -⟩ | ⟨_, _, _, rfl, -⟩ | ⟨r, h, -⟩
  · exact h
  · rfl
  · rfl
  · exact h.trying

theorem goes_conclude {r : AnalyticalResult V} (h : Yields e n r w.phase ev) :
    Goes e lookup n w ev (w.conclude e n r) := by
  unfold Work.conclude
  dsimp only
  split
  · exact .fail (.inr (.inr (.inr ⟨r, h, by assumption⟩)))
  · exact .complete h (by assumption)

theorem goes_of_step (h : w.step e lookup n ev = some w') : Goes e lookup n w ev w' := by
  unfold Work.step at h
  split at h
  case h_1 hp =>
    cases h
    split
    · exact .key hp (by assumption)
    · exact .begin (.inl ⟨hp, rfl⟩)
  case h_2 hp => cases h; exact .begin (.inr ⟨hp, rfl⟩)
  case h_3 hp => cases h; exact .withdraw (.inl hp)
  case h_4 hp => cases h; exact .withdraw (.inr hp)
  case h_5 hp =>
    split at h
    · cases h; exact .unprepared hp (by assumption)
    · rename_i inputs hok
      cases h
      split
      · exact .look hp hok (by assumption)
      · exact .start hp hok
  case h_6 hp => cases h; exact .close hp
  case h_7 hp => cases h; exact .unsaved (by rw [hp]; rfl)
  case h_8 hp => cases h; exact .unsaved (by rw [hp]; rfl)
  case h_9 hp => cases h; exact goes_conclude (.inl ⟨_, hp, rfl⟩)
  case h_10 hp => cases h; exact .miss hp
  case h_11 hp =>
    split at h
    · cases h; exact .fail (.inr (.inr (.inl ⟨_, _, _, hp, rfl, by assumption⟩)))
    · rename_i u hok
      cases h
      split
      · exact .store hp (by assumption) hok
      · exact goes_conclude (.inr (.inl ⟨_, _, hp, rfl, hok⟩))
  case h_12 hp =>
    cases h
    split
    · rename_i hc; exact .pause hp hc.2
    · exact .fail (.inl ⟨by rw [hp]; rfl, rfl⟩)
  case h_13 hp => cases h; exact .again hp
  case h_14 hp => cases h; exact .fail (.inr (.inl ⟨_, _, hp, rfl, rfl⟩))
  case h_15 hp => cases h; exact goes_conclude (.inr (.inr ⟨hp, rfl⟩))
  case h_16 hp => cases h; exact .fail (.inl ⟨by rw [hp]; rfl, rfl⟩)
  case h_17 hp => cases h; exact .fail (.inl ⟨by rw [hp]; rfl, rfl⟩)
  case h_18 => cases h

/-! ## What the phase says -/

/-- What the phase of a task says about the execution of its node. -/
def Phase.Agrees (x : NodeExecution) : Phase V → Prop
  | .idle => x.status ≠ .running
  | .queued | .keyed | .withdrawn => x.status = .pending
  | .opening | .looking _ | .handling _ _ | .pausing _ _ | .storing _ => x.status = .running
  | .closing none | .ended none => x.status = .completed
  | .closing (some f) => x.status = .failed ∧ x.error = some f.text
  | .ended (some _) =>
    x.status = .running ∨ x.status = .completed ∨ x.status = .failed ∧ x.error.isSome

structure Work.Sound (w : Work V) : Prop where
  result : w.execution.status = .completed → w.result.isSome
  skipped : w.execution.status ≠ .skipped
  agrees : w.phase.Agrees w.execution

namespace Phase
variable {p : Phase V} {x : NodeExecution}

theorem Agrees.trying (h : p.Agrees x) (hp : p.trying) : x.status = .running := by
  cases p with
  | looking | handling | pausing | storing => exact h
  | _ => cases hp

/-- The task of a node that is `COMPLETED` is at its end, or there is none. -/
theorem Agrees.completed (h : p.Agrees x) (hs : x.status = .completed) :
    p = .idle ∨ p = .closing none ∨ ∃ f, p = .ended f := by
  cases p with
  | idle => exact .inl rfl
  | ended f => exact .inr (.inr ⟨f, rfl⟩)
  | closing f =>
    cases f with
    | none => exact .inr (.inl rfl)
    | some f => rw [h.1] at hs; cases hs
  | _ => rw [show x.status = _ from h] at hs; cases hs

theorem Agrees.close {f : Option Raised} (h : (closing f : Phase V).Agrees x) :
    (ended f : Phase V).Agrees x := by
  cases f with
  | none => exact h
  | some f => exact .inr (.inr ⟨h.1, by rw [h.2]; rfl⟩)

theorem Agrees.unsaved {f : Raised} (h : p.Agrees x) (hp : p.saving) :
    (ended (some f) : Phase V).Agrees x := by
  cases p with
  | opening => exact .inl h
  | closing f =>
    cases f with
    | none => exact .inr (.inl h)
    | some f => exact .inr (.inr ⟨h.1, by rw [h.2]; rfl⟩)
  | _ => cases hp

end Phase

theorem Goes.sound (h : Goes e lookup n w ev w') (hw : w.Sound) : w'.Sound := by
  obtain ⟨hr, hs, ha⟩ := hw
  cases h with
  | key hp _ | look hp _ _ | pause hp _ | store hp _ _ | unprepared hp _ =>
    rw [hp] at ha
    exact ⟨hr, hs, by first | exact ha | exact .inl ha⟩
  | withdraw hp =>
    refine ⟨hr, hs, ?_⟩
    rcases hp with hp | hp <;> rw [hp] at ha <;> exact ha
  | begin => exact ⟨nofun, nofun, rfl⟩
  | start hp _ | miss hp | again hp =>
    rw [hp] at ha
    exact ⟨hr, hs, ha⟩
  | close hp => rw [hp] at ha; exact ⟨hr, hs, ha.close⟩
  | unsaved hp => exact ⟨hr, hs, ha.unsaved hp⟩
  | fail => exact ⟨nofun, nofun, rfl, rfl⟩
  | complete => exact ⟨fun _ => rfl, nofun, rfl⟩

/-- **A node that is `COMPLETED` keeps its execution and its result.** -/
theorem Goes.completed_still (h : Goes e lookup n w ev w') (ha : w.phase.Agrees w.execution)
    (hs : w.execution.status = .completed) :
    w'.execution = w.execution ∧ w'.result = w.result := by
  have hc := ha.completed hs
  cases h with
  | key | withdraw | unprepared | look | close | unsaved | pause | store => exact ⟨rfl, rfl⟩
  | begin hp => rcases hp with ⟨hp, -⟩ | ⟨hp, -⟩ <;> simp [hp] at hc
  | start hp _ | miss hp | again hp => simp [hp] at hc
  | fail hp => rw [ha.trying hp.trying] at hs; cases hs
  | complete hy _ => rw [ha.trying hy.trying] at hs; cases hs

/-- Only a task in the `try` block is done with its node. -/
theorem Goes.completes (h : Goes e lookup n w ev w') (hs : w.execution.status ≠ .completed)
    (hs' : w'.execution.status = .completed) :
    ∃ r, Yields e n r w.phase ev ∧ w' = w.complete n r ∧
      e.enforceResultBudget n { r with nodeId := n.id } = .ok () := by
  cases h with
  | complete hy hb => exact ⟨_, hy, rfl, hb⟩
  | begin => cases hs'
  | fail => cases hs'
  | _ => exact absurd hs' hs

/-! ## How far a task is from its end -/

/-- The weight of the attempts that are left after the first `k`. -/
def attempts (n : AnalyticalNode V) (k : Nat) : Nat := 2 * (n.retry.maximumAttempts - k)

/-- How far a task is from its end; the moves of a checkpoint weigh less than 3. -/
def Phase.weight (n : AnalyticalNode V) : Phase V → Nat
  | .idle => 0
  | .queued => attempts n 0 + 12
  | .keyed => attempts n 0 + 11
  | .opening => attempts n 0 + 10
  | .looking _ => attempts n 0 + 6
  | .handling _ k => attempts n k + 5
  | .pausing _ k => attempts n (k + 1) + 6
  | .storing _ => 4
  | .closing _ => 3
  | .withdrawn | .ended _ => 0

/-- The weight of a node outside the wave is that of the tasks it still needs. -/
def Work.weight (n : AnalyticalNode V) (w : Work V) : Nat :=
  match w.phase with
  | .idle => if w.execution.status = .pending then attempts n 0 + 13 else 0
  | p => p.weight n

theorem Phase.weight_ge {p : Phase V} (hp : p.finished = false) : 3 ≤ p.weight n := by
  cases p with
  | idle | withdrawn | ended => cases hp
  | _ => simp only [weight]; omega

theorem Phase.lt_weight {p : Phase V} (hp : p.trying) : 3 < p.weight n := by
  cases p with
  | looking | handling | pausing | storing => simp only [weight]; omega
  | _ => cases hp

theorem Phase.saving_over {p : Phase V} (hp : p.saving) : p.finished = false := by
  cases p with
  | opening | closing => rfl
  | _ => cases hp

theorem Fails.not_saved {x : Raised} {p : Phase V} (h : Fails e n x p ev) :
    ev ≠ .saved ∧ ∀ x, ev ≠ .unsaved x := by
  rcases h with ⟨-, rfl⟩ | ⟨_, _, -, rfl, -⟩ | ⟨_, _, _, -, rfl, -⟩ | ⟨r, h, -⟩
  · exact ⟨nofun, nofun⟩
  · exact ⟨nofun, nofun⟩
  · exact ⟨nofun, nofun⟩
  · rcases h with ⟨_, -, rfl⟩ | ⟨_, _, -, rfl, -⟩ | ⟨-, rfl⟩ <;> exact ⟨nofun, nofun⟩

/-- **Every move lowers the weight**, by more than the moves of a checkpoint weigh if it ends
    one. -/
theorem Goes.weight_lt (h : Goes e lookup n w ev w') :
    w'.phase.weight n < w.phase.weight n ∧
      (ev = .saved ∨ (∃ x, ev = .unsaved x) → w'.phase.weight n + 3 ≤ w.phase.weight n) := by
  cases h with
  | key hp => simp [Phase.weight, hp]
  | begin hp =>
    rcases hp with ⟨hp, rfl⟩ | ⟨hp, rfl⟩ <;> simp [Phase.weight, Work.begin, hp]
  | withdraw hp => rcases hp with hp | hp <;> simp [Phase.weight, hp]
  | unprepared hp => simp [Phase.weight, Work.leave, hp]
  | look hp => simp [Phase.weight, hp]
  | start hp => simp only [Phase.weight, Work.invoke, hp, attempts]; omega
  | close hp => simp [Phase.weight, Work.leave, hp]
  | unsaved hp =>
    have h3 := Phase.weight_ge (n := n) (Phase.saving_over hp)
    simp only [Work.leave, show (Phase.ended (V := V) _).weight n = 0 from rfl]
    omega
  | miss hp =>
    refine ⟨?_, fun h => by (rcases h with h | ⟨_, h⟩ <;> cases h)⟩
    simp only [Phase.weight, Work.invoke, hp, attempts]
    omega
  | pause hp hk =>
    refine ⟨?_, fun h => by (rcases h with h | ⟨_, h⟩ <;> cases h)⟩
    simp only [Phase.weight, hp, attempts]
    omega
  | again hp => simp [Phase.weight, Work.invoke, hp]
  | store hp => simp [Phase.weight, hp]
  | fail hf =>
    refine ⟨Phase.lt_weight hf.trying, ?_⟩
    rintro (h | ⟨x, h⟩)
    · exact absurd h hf.not_saved.1
    · exact absurd h (hf.not_saved.2 x)
  | complete hy hb =>
    refine ⟨Phase.lt_weight hy.trying, ?_⟩
    rcases hy with ⟨_, -, rfl⟩ | ⟨_, _, -, rfl, -⟩ | ⟨-, rfl⟩ <;> rintro (h | ⟨x, h⟩) <;> cases h

end TracciaRuntime.Analytics
