/-
  The `while` loop of `_execute`.

  * `turn`: one turn of the loop as the source has it, and `loop_eq`: the loop of
    the model goes round by such turns;
  * `turn_ends`, `turn_plans`: a turn takes one step, asks the planner once, and
    hands back a status from which the loop goes on or ends;
  * `loop_progress`: what holds at every head of the loop, and how many there are.
-/
import TracciaRuntime.Proof.Driver
import TracciaRuntime.Proof.Steps
import TracciaRuntime.Runtime.System

namespace TracciaRuntime

open Py Async AgentRuntime Prog

variable {V : Type} {cfg : Config V} {s s' : RunState V} {agent : AgentDefinition V}

/-! ## Programs that do not ask the planner -/

/-- Neither a call of the planner nor a loop that goes on for ever. -/
def Op.isOrdinary : Op V → Bool
  | .plan .. | .spin => false
  | _ => true

/-- The program does not ask the planner. -/
abbrev Ordinary {α : Type} (p : Task V α) : Prop := p.Uses fun o => o.isOrdinary = true

variable (agent) in
theorem covers_ordinary : Covers agent fun o : Op V => o.isOrdinary = true where
  inner o ho := by cases o <;> first | rfl | cases ho
  build _ := rfl
  verify _ _ _ _ := rfl
  publish _ := rfl

/-! ## Turns -/

variable (cfg agent) in
/-- One turn of the loop: a state in none of the two branches is left as it is. -/
def turn (s : RunState V) : Task V (RunState V) := do
  Prog.raiseIf (s.stepCount ≥ agent.maxSteps)
    (.budgetExceeded s!"maximum step limit {agent.maxSteps} reached")
  Prog.lift (enforceBudget s agent)
  let s ← if s.status = .buildingContext then retrieve cfg s agent else Pure.pure s
  if s.status = .planning then planStep cfg s agent else Pure.pure s

theorem RunStatus.isHead_cases {a : RunStatus} (h : a.isHead = true) :
    a = .buildingContext ∨ a = .planning := by
  simpa [RunStatus.isHead] using h

/-- **A turn takes one step**, and hands back a status from which the loop goes on or ends. -/
theorem turn_ends (hs : s.status.isHead = true) :
    (turn cfg agent s).Ends (Advanced (s.stepCount + 1)) := by
  refine Ends.after _ fun _ => Ends.after _ fun _ => ?_
  dsimp only
  rcases RunStatus.isHead_cases hs with h | h
  · rw [if_pos h]
    refine retrieve_ends.bind fun s' hs' => ?_
    rw [if_pos hs'.2, ← hs'.1]
    exact planStep_ends
  · rw [if_neg (by rw [h]; decide)]
    refine Ends.bind (Ends.pure (P := fun s' => s' = s) rfl) fun s' hs' => ?_
    rw [hs', if_pos h]
    exact planStep_ends

/-- A turn in which no step is left raises. -/
theorem turn_out_of_steps (h : agent.maxSteps ≤ s.stepCount) {P : RunState V → Prop} :
    (turn cfg agent s).Ends P := by
  unfold turn
  rw [decide_eq_true (show s.stepCount ≥ agent.maxSteps from h)]
  trivial

variable (cfg agent) in
/-- The `while` loop, with the turns that the agent has left. -/
def whileLoop (s : RunState V) : Task V (RunState V) :=
  loop cfg agent (agent.maxSteps - s.stepCount) s

theorem whileLoop_settled (hs : s.status.isSettled = true) :
    whileLoop cfg agent s = Pure.pure s := by
  unfold whileLoop loop
  rw [if_pos hs]

/-- **The loop goes round by turns.** -/
theorem whileLoop_turn (hs : s.status.isHead = true) :
    whileLoop cfg agent s = turn cfg agent s >>= whileLoop cfg agent := by
  have hset : ¬s.status.isSettled = true := by
    cases h : s.status <;> rw [h] at hs <;> first | decide | cases hs
  change loop cfg agent (agent.maxSteps - s.stepCount) s = _
  by_cases hmax : s.stepCount ≥ agent.maxSteps
  · unfold turn loop
    rw [if_neg hset, decide_eq_true hmax]
    rfl
  · obtain ⟨fuel, hfuel⟩ : ∃ fuel, agent.maxSteps - s.stepCount = fuel + 1 :=
      ⟨agent.maxSteps - s.stepCount - 1, by omega⟩
    have rest : ∀ s', s'.stepCount = s.stepCount → (planStep cfg s' agent >>= loop cfg agent fuel) =
        planStep cfg s' agent >>= whileLoop cfg agent := by
      intro s' hs'
      refine planStep_ends.bind_congr fun s'' hs'' => ?_
      unfold whileLoop
      rw [hs''.stepCount, hs', show agent.maxSteps - (s.stepCount + 1) = fuel by omega]
    generalize whileLoop cfg agent = next at rest ⊢
    unfold turn loop
    rw [if_neg hset, hfuel, bind_assoc]
    congr 1; funext _
    rw [bind_assoc]
    congr 1; funext _
    dsimp only
    rcases RunStatus.isHead_cases hs with h | h
    · rw [if_pos h, if_pos h, bind_assoc]
      refine retrieve_ends.bind_congr fun s' hs' => ?_
      rw [if_pos hs'.2, if_pos hs'.2]
      exact rest s' hs'.1
    · rw [if_neg (by rw [h]; decide), if_neg (by rw [h]; decide)]
      change (if s.status = .planning then _ else _) = (if s.status = .planning then _ else _) >>= _
      rw [if_pos h, if_pos h]
      exact rest s rfl

/-- The loop ends with a run that is settled. -/
theorem whileLoop_ends (hs : (s.status.isHead || s.status.isSettled) = true) :
    (whileLoop cfg agent s).Ends fun s' => s'.status.isSettled = true := by
  induction hn : agent.maxSteps - s.stepCount using Nat.strong_induction_on generalizing s with
  | _ n ih =>
    cases hset : s.status.isSettled with
    | true =>
      rw [whileLoop_settled hset]
      exact Ends.pure hset
    | false =>
      have hhead : s.status.isHead = true := by simpa [hset] using hs
      rw [whileLoop_turn hhead]
      by_cases hmax : agent.maxSteps ≤ s.stepCount
      · exact (turn_out_of_steps hmax (P := fun _ => False)).bind fun s' h => h.elim
      · refine (turn_ends hhead).bind fun s' hs' => ?_
        have hstep := hs'.stepCount
        exact ih (agent.maxSteps - s'.stepCount) (by omega) hs'.status rfl

/-! ## Planned actions -/

def Op.isPlan : Op V → Bool
  | .plan .. => true
  | _ => false

/-- The number of calls of the planner. -/
def planCalls (ops : List (Op V)) : Nat := ops.countP Op.isPlan

theorem planCalls_append (ops₁ ops₂ : List (Op V)) :
    planCalls (ops₁ ++ ops₂) = planCalls ops₁ + planCalls ops₂ := List.countP_append

theorem Ordinary.planCalls {α : Type} {p : Task V α} (hp : Ordinary p) {ops : List (Op V)}
    {x : Except Exn α} (h : p.Path ops x) : planCalls ops = 0 := by
  refine List.countP_eq_zero.2 fun o ho => ?_
  have hord := h.uses hp o ho
  cases o <;> first | exact Bool.false_ne_true | cases hord

theorem Ordinary.path_bind {α β : Type} {p : Task V α} {f : α → Task V β} (hp : Ordinary p)
    {ops : List (Op V)} {x : Except Exn β} (h : (p >>= f).Path ops x) :
    (∃ e, x = .error e ∧ TracciaRuntime.planCalls ops = 0) ∨
      ∃ a ops₁ ops₂, p.Path ops₁ (.ok a) ∧ (f a).Path ops₂ x ∧
        TracciaRuntime.planCalls ops = TracciaRuntime.planCalls ops₂ := by
  rcases h.bind_cases with ⟨e, he, h⟩ | ⟨a, ops₁, ops₂, rfl, h₁, h₂⟩
  · exact Or.inl ⟨e, he, hp.planCalls h⟩
  · exact Or.inr ⟨a, ops₁, ops₂, h₁, h₂, by rw [planCalls_append, hp.planCalls h₁, Nat.zero_add]⟩

/-- The planner is asked once, unless an exception comes before. -/
def PlansOnce (ops : List (Op V)) (x : Except Exn (RunState V)) : Prop :=
  planCalls ops = 1 ∨ planCalls ops = 0 ∧ ∃ e, x = .error e

theorem planStep_plans {ops : List (Op V)} {x : Except Exn (RunState V)}
    (h : (planStep cfg s agent).Path ops x) : PlansOnce ops x := by
  rcases Ordinary.path_bind (Uses.raiseIf _ _) h with ⟨e, he, h⟩ | ⟨_, _, ops₁, -, h, hops⟩
  · exact Or.inr ⟨h, e, he⟩
  rw [PlansOnce, hops]
  rcases h.bind_cases with ⟨e, he, h⟩ | ⟨plan, ops₂, ops₃, rfl, h₂, h₃⟩
  · rw [h.call_eq]
    exact Or.inl rfl
  · rw [h₂.call_eq, planCalls_append]
    refine Or.inl ?_
    suffices H : planCalls ops₃ = 0 by rw [H]; rfl
    cases hacts : plan.actions with
    | nil =>
      rw [hacts] at h₃
      cases h₃
      rfl
    | cons action rest =>
      rw [hacts] at h₃
      exact Ordinary.planCalls (Uses.bind (covers_ordinary agent).emit fun _ =>
        executeAction_uses (covers_ordinary agent)) h₃

/-- **A turn executes one planned action.** -/
theorem turn_plans (hs : s.status.isHead = true) {ops : List (Op V)}
    {x : Except Exn (RunState V)} (h : (turn cfg agent s).Path ops x) : PlansOnce ops x := by
  rcases Ordinary.path_bind (Uses.raiseIf _ _) h with ⟨e, he, h⟩ | ⟨_, _, ops₁, -, h, hops⟩
  · exact Or.inr ⟨h, e, he⟩
  rw [PlansOnce, hops]
  rcases Ordinary.path_bind (Uses.lift _) h with ⟨e, he, h⟩ | ⟨_, _, ops₂, -, h, hops⟩
  · exact Or.inr ⟨h, e, he⟩
  rw [hops]
  dsimp only at h
  rcases RunStatus.isHead_cases hs with hst | hst
  · rw [if_pos hst] at h
    rcases Ordinary.path_bind (retrieve_uses (covers_ordinary agent)) h with ⟨e, he, h⟩ | ⟨s', _, ops₃, hp, h, hops⟩
    · exact Or.inr ⟨h, e, he⟩
    rw [hops]
    rw [if_pos (hp.ends retrieve_ends).2] at h
    exact planStep_plans h
  · rw [if_neg (by rw [hst]; decide)] at h
    change Path (if s.status = .planning then _ else _) _ _ at h
    rw [if_pos hst] at h
    exact planStep_plans h

/-! ## The heads of the loop -/

variable (agent) in
/-- The state with which the loop is entered: RECEIVED is left before. -/
def Enters (s s₀ : RunState V) : Prop :=
  if s.status = .received then ∃ ops, (receive s agent).Path ops (.ok s₀) else s₀ = s

variable (cfg agent) in
/-- The state at the head of the loop after `n` turns, with some answers. -/
inductive Head (s₀ : RunState V) : Nat → RunState V → Prop
  | first : Head s₀ 0 s₀
  | next {n : Nat} {s s' : RunState V} {ops : List (Op V)} : Head s₀ n s →
      s.status.isSettled = false → (turn cfg agent s).Path ops (.ok s') → Head s₀ (n + 1) s'

theorem Enters.advanced {s₀ : RunState V} (h : Enters agent s s₀)
    (hs : s.status = .received ∨ s.status.isHead = true) :
    s₀.stepCount = s.stepCount ∧ s₀.status.isHead = true := by
  unfold Enters at h
  split at h
  · obtain ⟨ops, h⟩ := h
    obtain ⟨hstep, hstatus⟩ := h.ends receive_ends
    exact ⟨hstep, by rw [hstatus]; rfl⟩
  · rename_i hne
    subst h
    exact ⟨rfl, hs.resolve_left hne⟩

/-- What holds at the head of the loop. -/
theorem Head.advanced {s₀ : RunState V} (hs : s₀.status.isHead = true) {n : Nat}
    (h : Head cfg agent s₀ n s) : Advanced (s₀.stepCount + n) s ∧
      (n = 0 ∨ s₀.stepCount + n ≤ agent.maxSteps) := by
  induction h with
  | first => exact ⟨⟨rfl, by rw [hs]; rfl⟩, Or.inl rfl⟩
  | @next n s s' ops _ hset hturn ih =>
    have hhead : s.status.isHead = true := by simpa [hset] using ih.1.status
    have hnext := hturn.ends (turn_ends hhead)
    have hstep := ih.1.stepCount
    refine ⟨⟨by rw [hnext.stepCount]; omega, hnext.status⟩, Or.inr ?_⟩
    by_contra hmax
    exact hturn.ends (turn_out_of_steps (P := fun _ => False) (by omega))

/-- `_execute` ends with a run that is settled. -/
theorem execute_ends (hs : s.status = .received ∨ s.status.isHead = true) :
    (execute cfg s agent).Ends fun s' => s'.status.isSettled = true := by
  change Ends _ (if s.status = .received then receive s agent >>= whileLoop cfg agent
    else Pure.pure s >>= whileLoop cfg agent)
  split
  · exact receive_ends.bind fun s' hs' => whileLoop_ends (by rw [hs'.2]; rfl)
  · rename_i hne
    refine Ends.bind (Ends.pure (P := fun s' => s' = s) rfl) fun s' hs' => whileLoop_ends ?_
    rw [hs', hs.resolve_left hne]
    rfl

/-- **Loop progress**: from a status that `start`, `resume` or `recover` leaves, the loop is
    at BUILDING_CONTEXT or PLANNING at each of its heads, executes one planned action in each
    turn, and ends after as many turns as there are steps left, and one. -/
theorem loop_progress (cfg : Config V) (agent : AgentDefinition V) (s : RunState V)
    (hs : s.status = .received ∨ s.status = .buildingContext ∨ s.status = .planning) :
    (∀ s₀ n s', Enters agent s s₀ → Head cfg agent s₀ n s' → s'.status.isSettled = false →
      (s'.status = .buildingContext ∨ s'.status = .planning) ∧
      n + 1 ≤ agent.maxSteps - s.stepCount + 1 ∧
      (∀ ops x, (turn cfg agent s').Path ops x → PlansOnce ops x) ∧
      whileLoop cfg agent s' = turn cfg agent s' >>= whileLoop cfg agent) ∧
    (execute cfg s agent).Ends fun s' => s'.status.isSettled = true := by
  have hs : s.status = .received ∨ s.status.isHead = true := by
    rcases hs with hs | hs | hs
    · exact Or.inl hs
    all_goals exact Or.inr (by rw [hs]; rfl)
  refine ⟨fun s₀ n s' henter hhead hset => ?_, execute_ends hs⟩
  obtain ⟨hstep, hstatus⟩ := henter.advanced hs
  obtain ⟨hadv, hturns⟩ := hhead.advanced hstatus
  have hs' : s'.status.isHead = true := by simpa [hset] using hadv.status
  refine ⟨RunStatus.isHead_cases hs', ?_, fun ops x h => turn_plans hs' h, whileLoop_turn hs'⟩
  omega

/-- A run of the sample agent that has been received. -/
theorem loop_progress_received :
    (execute Sample.sendCfg { id := "run", request := Sample.request, sessionId := "session", updatedAt := 0 }
      Sample.agent).Ends fun s' => s'.status.isSettled = true :=
  (loop_progress Sample.sendCfg Sample.agent
    { id := "run", request := Sample.request, sessionId := "session", updatedAt := 0 } (Or.inl rfl)).2

end TracciaRuntime
