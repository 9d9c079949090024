/-
  How deep sub-agents are nested.

  * `Below`: a run is so many sub-agent runs below a run of a client;
  * `step_cases`: what a move does; `CallersFirst`: callers come before the runs they start;
  * `delegation_bounded_iff`: no chain of sub-agent runs gets longer than the tool allows, exactly
    if a run at the end of a longest chain passes its depth.
-/
import TracciaRuntime.Tools.Subagent

namespace TracciaRuntime

open Py Machine Subagent

variable {V : Type} {maxDepth : Int} {agentOf : RunRequest V → Option (AgentDefinition V)}
  {runs runs' : List (AgentRun V)} {i j n : Nat}

/-- Run `i` is `n` sub-agent runs below a run of a client. -/
inductive Below (runs : List (AgentRun V)) : Nat → Nat → Prop
  | top {i : Nat} {r : AgentRun V} : runs[i]? = some r → r.caller = none → Below runs i 0
  | sub {i j n : Nat} {r : AgentRun V} : runs[i]? = some r → r.caller = some j → Below runs j n →
    Below runs i (n + 1)

/-- No more than `maxDepth` sub-agent runs below a run of a client. -/
def Bounded (maxDepth : Int) (runs : List (AgentRun V)) : Prop :=
  ∀ i n, Below runs i n → 0 < n → (n : Int) ≤ maxDepth

/-- A run that is `maxDepth` sub-agent runs below the top passes a depth that says so. -/
def TellsDepth (maxDepth : Int) (runs : List (AgentRun V)) : Move V → Prop
  | .start .. => True
  | .call caller _ _ arguments _ =>
    ∀ n : Nat, Below runs caller n → maxDepth ≤ n → maxDepth ≤ (arguments.depth.getD 0 : Nat)

/-- Callers come before the runs they start. -/
def CallersFirst (runs : List (AgentRun V)) : Prop :=
  ∀ (i j : Nat) (r : AgentRun V), runs[i]? = some r → r.caller = some j → j < i

/-! ## Chains -/

theorem Below.unique {m : Nat} (h : Below runs i n) (h' : Below runs i m) : n = m := by
  induction h generalizing m with
  | top hi hnone =>
    cases h' with
    | top => rfl
    | sub hi' hsome =>
      rw [hi] at hi'
      cases hi'
      rw [hnone] at hsome
      cases hsome
  | sub hi hsome _ ih =>
    cases h' with
    | top hi' hnone =>
      rw [hi] at hi'
      cases hi'
      rw [hnone] at hsome
      cases hsome
    | sub hi' hsome' h' =>
      rw [hi] at hi'
      cases hi'
      rw [hsome] at hsome'
      cases hsome'
      rw [ih h']

theorem Below.lt (h : Below runs i n) : i < runs.length := by
  cases h with
  | top hi _ => exact (List.getElem?_eq_some_iff.1 hi).1
  | sub hi _ _ => exact (List.getElem?_eq_some_iff.1 hi).1

/-- Runs stay where they are. -/
theorem Below.append (h : Below runs i n) (rest : List (AgentRun V)) : Below (runs ++ rest) i n := by
  induction h with
  | top hi hnone =>
    exact .top ((List.getElem?_append_left (List.getElem?_eq_some_iff.1 hi).1).trans hi) hnone
  | sub hi hsome _ ih =>
    exact .sub ((List.getElem?_append_left (List.getElem?_eq_some_iff.1 hi).1).trans hi) hsome ih

/-- A chain of the runs before one is a chain without it. -/
theorem Below.of_append (hfirst : CallersFirst (runs ++ runs')) (h : Below (runs ++ runs') i n)
    (hi : i < runs.length) : Below runs i n := by
  induction h with
  | top hr hnone => exact .top (List.getElem?_append_left hi ▸ hr) hnone
  | sub hr hsome _ ih =>
    exact .sub (List.getElem?_append_left hi ▸ hr) hsome
      (ih ((hfirst _ _ _ hr hsome).trans hi))

/-! ## Moves -/

/-- **A move** adds a run of a client, or a run below one that passed too small a depth, or none. -/
theorem step_cases {a : Move V} (h : step maxDepth agentOf runs a = some runs') :
    (∃ id request, a = .start id request ∧ runs' = runs ++ [⟨id, request, none⟩]) ∨
    ∃ caller stepId callId arguments id, a = .call caller stepId callId arguments id ∧
      caller < runs.length ∧
      ((((arguments.depth.getD 0 : Nat) : Int) < maxDepth ∧
          ∃ request, runs' = runs ++ [⟨id, request, some caller⟩]) ∨
        (maxDepth ≤ (arguments.depth.getD 0 : Nat) ∧ runs' = runs)) := by
  cases a with
  | start id request =>
    cases h
    exact .inl ⟨id, request, rfl, rfl⟩
  | call caller stepId callId arguments id =>
    refine .inr ⟨caller, stepId, callId, arguments, id, rfl, ?_⟩
    obtain ⟨r, hr, h⟩ := Option.bind_eq_some_iff.1 h
    obtain ⟨agent, -, h⟩ := Option.bind_eq_some_iff.1 h
    refine ⟨(List.getElem?_eq_some_iff.1 hr).1, ?_⟩
    split_ifs at h with henabled
    unfold request at h
    by_cases hdepth : ((arguments.depth.getD 0 : Nat) : Int) ≥ maxDepth
    · rw [if_pos hdepth] at h
      cases h
      exact .inr ⟨hdepth, rfl⟩
    · rw [if_neg hdepth] at h
      cases h
      exact .inl ⟨Int.not_le.1 hdepth, _, rfl⟩

theorem step_extends {a : Move V} (h : step maxDepth agentOf runs a = some runs') :
    runs <+: runs' := by
  rcases step_cases h with ⟨_, _, -, rfl⟩ | ⟨_, _, _, _, _, -, -, ⟨-, _, rfl⟩ | ⟨-, rfl⟩⟩
  · exact List.prefix_append ..
  · exact List.prefix_append ..
  · exact List.prefix_rfl

theorem play_extends {l : List (Move V)} (h : play (step maxDepth agentOf) runs l = some runs') :
    runs <+: runs' := by
  induction l generalizing runs with
  | nil =>
    cases h
    exact List.prefix_rfl
  | cons a l ih =>
    obtain ⟨runs₁, h₁, h⟩ := Option.bind_eq_some_iff.1 h
    exact (step_extends h₁).trans (ih h)

theorem CallersFirst.concat (h : CallersFirst runs) {x : AgentRun V}
    (hx : ∀ j, x.caller = some j → j < runs.length) : CallersFirst (runs ++ [x]) := by
  intro i j r hr hj
  rcases Nat.lt_or_ge i runs.length with hi | hi
  · exact h i j r ((List.getElem?_append_left hi).symm.trans hr) hj
  · rw [List.getElem?_append_right hi, List.getElem?_singleton] at hr
    split_ifs at hr with h0
    cases hr
    exact (hx j hj).trans_le hi

/-- Where a run is in a list with one more run. -/
theorem Below.concat {x : AgentRun V} (hfirst : CallersFirst (runs ++ [x]))
    (h : Below (runs ++ [x]) i n) : Below runs i n ∨ n = 0 ∨
      ∃ j m, x.caller = some j ∧ Below runs j m ∧ n = m + 1 := by
  rcases Nat.lt_or_ge i runs.length with hi | hi
  · exact .inl (h.of_append hfirst hi)
  · cases h with
    | top => exact .inr (.inl rfl)
    | @sub _ j m r hr hsome hj =>
      have hlt := hfirst _ _ _ hr hsome
      rw [List.getElem?_append_right hi, List.getElem?_singleton] at hr
      split_ifs at hr with h0
      cases hr
      exact .inr (.inr ⟨j, m, hsome, hj.of_append hfirst (by omega), rfl⟩)

theorem step_callersFirst {a : Move V} (hfirst : CallersFirst runs)
    (h : step maxDepth agentOf runs a = some runs') : CallersFirst runs' := by
  rcases step_cases h with ⟨_, _, -, rfl⟩ | ⟨_, _, _, _, _, -, hlt, ⟨-, _, rfl⟩ | ⟨-, rfl⟩⟩
  · exact hfirst.concat nofun
  · exact hfirst.concat fun j hj => by cases hj; exact hlt
  · exact hfirst

/-- **One call** keeps the bound, if the depth it passes is right at the bound. -/
theorem step_bounded {a : Move V} (hfirst : CallersFirst runs) (hbounded : Bounded maxDepth runs)
    (htells : TellsDepth maxDepth runs a) (h : step maxDepth agentOf runs a = some runs') :
    Bounded maxDepth runs' := by
  intro i n hin hn
  have hfirst' := step_callersFirst hfirst h
  rcases step_cases h with ⟨_, _, -, rfl⟩ |
    ⟨caller, _, _, arguments, _, rfl, hlt, ⟨hdepth, _, rfl⟩ | ⟨-, rfl⟩⟩
  · rcases hin.concat hfirst' with hin | rfl | ⟨j, m, hj, -, -⟩
    · exact hbounded i n hin hn
    · exact absurd hn (Nat.lt_irrefl 0)
    · cases hj
  · rcases hin.concat hfirst' with hin | rfl | ⟨j, m, hj, hm, rfl⟩
    · exact hbounded i n hin hn
    · exact absurd hn (Nat.lt_irrefl 0)
    · cases hj
      by_contra hgt
      have := htells m hm (by omega)
      omega
  · exact hbounded i n hin hn

/-- **A call** at the bound that passes a smaller depth breaks it. -/
theorem step_breaks {a : Move V} (htells : ¬TellsDepth maxDepth runs a)
    (h : step maxDepth agentOf runs a = some runs') :
    ∃ i n, Below runs' i (n + 1) ∧ maxDepth ≤ n := by
  rcases step_cases h with ⟨_, _, rfl, -⟩ |
    ⟨caller, _, _, arguments, id, rfl, hlt, ⟨-, request, rfl⟩ | ⟨hdepth, -⟩⟩
  · exact absurd trivial htells
  · have : ∃ m : Nat, Below runs caller m ∧ maxDepth ≤ m := by
      by_contra hno
      exact htells fun m hm hle => absurd ⟨m, hm, hle⟩ hno
    obtain ⟨m, hm, hle⟩ := this
    refine ⟨runs.length, m, .sub (r := ⟨id, request, some caller⟩) ?_ rfl (hm.append _), hle⟩
    rw [List.getElem?_append_right le_rfl, Nat.sub_self]
    rfl
  · exact absurd (fun _ _ _ => hdepth) htells

/-! ## Runs -/

theorem play_bounded_iff {l : List (Move V)} (hfirst : CallersFirst runs)
    (hbounded : Bounded maxDepth runs) (h : play (step maxDepth agentOf) runs l = some runs') :
    Bounded maxDepth runs' ↔ Along (step maxDepth agentOf) (TellsDepth maxDepth) runs l := by
  induction l generalizing runs with
  | nil =>
    cases h
    exact iff_of_true hbounded trivial
  | cons a l ih =>
    obtain ⟨runs₁, h₁, h⟩ := Option.bind_eq_some_iff.1 h
    rw [along_cons h₁]
    by_cases htells : TellsDepth maxDepth runs a
    · rw [ih (step_callersFirst hfirst h₁) (step_bounded hfirst hbounded htells h₁) h]
      exact (and_iff_right htells).symm
    · refine iff_of_false (fun hb => ?_) fun h => htells h.1
      obtain ⟨i, n, hin, hn⟩ := step_breaks htells h₁
      obtain ⟨rest, rfl⟩ := play_extends h
      have := hb i (n + 1) (hin.append rest) (Nat.succ_pos n)
      omega

/-- **No chain of sub-agent runs** below a run of a client gets longer than `max_depth`, exactly if
    every run that is `max_depth` sub-agent runs deep passes at least this depth to the tool. -/
theorem delegation_bounded_iff (maxDepth : Int)
    (agentOf : RunRequest V → Option (AgentDefinition V)) (l : List (Move V))
    (runs : List (AgentRun V)) (h : play (step maxDepth agentOf) [] l = some runs) :
    Bounded maxDepth runs ↔ Along (step maxDepth agentOf) (TellsDepth maxDepth) [] l := by
  refine play_bounded_iff (fun i j r hr _ => ?_) (fun i n hin _ => ?_) h
  · rw [List.getElem?_nil] at hr
    cases hr
  · exact absurd hin.lt (Nat.not_lt_zero i)

/-- An agent that delegates. -/
def delegator : AgentDefinition String where
  name := "agent"
  version := "1"
  defaultModel := { name := "model" }
  enabledTools := {"core.subagent"}
  toolPermissions := {"agents.delegate"}

/-- A run of a client whose chain of sub-agent runs passes these depths. -/
def chain (depths : List (Option Nat)) : List (Move String) :=
  .start "run" { agent := "agent", input := "Go on.", tenantId := "acme", userId := "ada" } ::
    depths.mapIdx fun i depth => .call i "step" "call"
      { agent := "agent", input := "Go on.", depth, input_ne := by decide } s!"run-{i}"

theorem delegation_told : ∃ runs, play (step 1 fun _ => some delegator) [] (chain [some 0]) =
    some runs ∧ Bounded 1 runs := by
  refine ⟨_, rfl, (delegation_bounded_iff 1 (fun _ => some delegator) (chain [some 0]) _ rfl).2 ?_⟩
  refine ⟨trivial, fun s hs => ⟨fun n hn hle => ?_, fun _ _ => trivial⟩⟩
  cases hs
  have := hn.unique (.top rfl rfl)
  omega

/-- A model that leaves the depth out delegates without end. -/
theorem delegation_untold : ¬∀ (maxDepth : Int)
    (agentOf : RunRequest String → Option (AgentDefinition String)) (l : List (Move String))
    (runs : List (AgentRun String)), play (step maxDepth agentOf) [] l = some runs →
      Bounded maxDepth runs := by
  intro hall
  have h := hall 3 (fun _ => some delegator) (chain [none, none, none, none]) _ rfl
  have := h 4 4 (.sub rfl rfl (.sub rfl rfl (.sub rfl rfl (.sub rfl rfl (.top rfl rfl)))))
    (by decide)
  omega

end TracciaRuntime
