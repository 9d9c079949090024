/-
  What awaiting means: operations on a shared world, interrupts, and programs
  that run alone or together.

  A `Sem` gives each operation its effect on the world.  The answer to an
  operation is chosen by the environment (`Ans o`); a suspended task can also
  be interrupted by an exception (a cancellation, a timer), before the
  operation took effect or after.

  * `Sem.act` is one completed await;
  * `Runs` is a task that runs from its start to its end in a changing world, and
    `runWith` computes a run in an unchanging one from the environment's choices;
  * `Pool` holds the tasks in flight, and `Sys.Step` interleaves them: one
    await of one task at a time, with new tasks entering and tasks being
    killed at any moment.
-/
import TracciaRuntime.Async.Prog
import Mathlib.Logic.Relation
import Mathlib.Logic.Function.Basic

namespace Async

variable {Op : Type} {Resp : Op → Type} {ε W α β : Type}

/-- The meaning of the operations over worlds `W`. -/
structure Sem (Resp : Op → Type) (ε W : Type) where
  /-- the environment's choices when an operation completes -/
  Ans : Op → Type
  /-- the operation completes for task `t`: its answer or exception, and the
      new world (`none` if it cannot complete now) -/
  eff : Nat → W → (o : Op) → Ans o → Option (Except ε (Resp o) × W)
  /-- operations that suspend the task -/
  susp : Op → Bool
  /-- an exception strikes task `t` at a (timed) await, with the world in which
      it has been delivered (`none` if it cannot strike now) -/
  intr : Nat → Bool → W → ε → Option W

/-- How an await ends. -/
inductive Act (Ans : Op → Type) (ε : Type) (o : Op) where
  | done (c : Ans o)
  /-- interrupted before the operation took effect -/
  | before (e : ε)
  /-- interrupted after the operation took effect -/
  | after (e : ε) (c : Ans o)

/-- Restrictions on the environment: which awaits may end how. -/
abbrev Allow (Ans : Op → Type) (ε W : Type) := Nat → W → (o : Op) → Act Ans ε o → Prop

namespace Sem
variable (S : Sem Resp ε W)

/-- One await of task `t`. -/
def act (t : Nat) (b : Bool) (w : W) (o : Op) :
    Act S.Ans ε o → Option (Except ε (Resp o) × W)
  | .done c => S.eff t w o c
  | .before e => if S.susp o then (S.intr t b w e).map fun w₁ => (.error e, w₁) else none
  | .after e c =>
    if S.susp o then (S.intr t b w e).bind fun w₁ => (S.eff t w₁ o c).map fun x => (.error e, x.2)
    else none

/-- **What one await can do**: the operation completes, or the task is
    interrupted with or without the operation's effect. -/
theorem act_cases {t : Nat} {b : Bool} {w w' : W} {o : Op} {a : Act S.Ans ε o}
    {r : Except ε (Resp o)} (h : S.act t b w o a = some (r, w')) :
    (∃ c, a = .done c ∧ S.eff t w o c = some (r, w')) ∨
    (∃ e w₁, S.susp o = true ∧ S.intr t b w e = some w₁ ∧ r = .error e ∧
      (w' = w₁ ∨ ∃ c r', S.eff t w₁ o c = some (r', w'))) := by
  cases a with
  | done c => exact Or.inl ⟨c, rfl, h⟩
  | before e =>
    simp only [act] at h
    split at h
    · rename_i hs
      rw [Option.map_eq_some_iff] at h
      obtain ⟨w₁, hi, he⟩ := h
      cases he
      exact Or.inr ⟨e, w', hs, hi, rfl, Or.inl rfl⟩
    · cases h
  | after e c =>
    simp only [act] at h
    split at h
    · rename_i hs
      rw [Option.bind_eq_some_iff] at h
      obtain ⟨w₁, hi, h⟩ := h
      rw [Option.map_eq_some_iff] at h
      obtain ⟨⟨r', w''⟩, he, hx⟩ := h
      cases hx
      exact Or.inr ⟨e, w₁, hs, hi, rfl, Or.inr ⟨c, r', he⟩⟩
    · cases h

end Sem

/-! ## The run of one task -/

/-- Task `t` runs `p` from `w` to its end `x` in `w'`, while the world around it changes as `I`
    allows. -/
inductive Runs (S : Sem Resp ε W) (A : Allow S.Ans ε W) (I : W → W → Prop) (t : Nat) :
    Prog Resp ε α → W → Except ε α → W → Prop
  | pure {a w} : Runs S A I t (.pure a) w (.ok a) w
  | raise {e w} : Runs S A I t (.raise e) w (.error e) w
  | await {b o k w w₁ r w₂ x w₃} (a : Act S.Ans ε o) : I w w₁ → A t w₁ o a →
      S.act t b w₁ o a = some (r, w₂) → Runs S A I t (k r) w₂ x w₃ →
      Runs S A I t (.await b o k) w x w₃

/-- Run `p` alone with the environment's choices `σ`, numbered from `n`; `none` if a choice is
    not possible or `ok` rejects it. -/
def runWith (S : Sem Resp ε W) (t : Nat) (ok : W → (o : Op) → Act S.Ans ε o → Bool)
    (σ : Nat → (o : Op) → Act S.Ans ε o) : Nat → Prog Resp ε α → W → Option (Except ε α × W)
  | _, .pure a, w => some (.ok a, w)
  | _, .raise e, w => some (.error e, w)
  | n, .await b o k, w =>
    if ok w o (σ n o) then
      match S.act t b w o (σ n o) with
      | none => none
      | some (r, w₁) => runWith S t ok σ (n + 1) (k r) w₁
    else none

theorem runs_of_runWith {S : Sem Resp ε W} {A : Allow S.Ans ε W} {I : W → W → Prop} {t : Nat}
    {ok : W → (o : Op) → Act S.Ans ε o → Bool} {σ : Nat → (o : Op) → Act S.Ans ε o}
    (hI : ∀ w, I w w) (hA : ∀ w o a, ok w o a = true → A t w o a)
    {p : Prog Resp ε α} {n : Nat} {w w' : W} {x : Except ε α}
    (h : runWith S t ok σ n p w = some (x, w')) : Runs S A I t p w x w' := by
  induction p generalizing n w with
  | pure a => cases h; exact .pure
  | raise e => cases h; exact .raise
  | await b o k ih =>
    simp only [runWith] at h
    split at h
    · rename_i hok
      split at h
      · cases h
      · rename_i r w₁ hact
        exact .await (σ n o) (hI w) (hA w o _ hok) hact (ih r h)
    · cases h

/-! ## Tasks that run together -/

/-- A system of tasks with results in `ρ`. -/
structure Sys (Resp : Op → Type) (ε W ρ : Type) extends Sem Resp ε W where
  allow : Allow Ans ε W
  /-- the task `t` with this program may start, turning the world into `w'` -/
  enter : W → Nat → Prog Resp ε ρ → W → Prop
  /-- the task `t` has ended -/
  fin : Nat → Except ε ρ → W → W
  /-- the task `t` may vanish (its process crashes) -/
  kill : W → Nat → W → Prop

/-- The world and the tasks in flight. -/
structure Pool (Resp : Op → Type) (ε W ρ : Type) where
  world : W
  tasks : Nat → Option (Prog Resp ε ρ)

namespace Sys
variable {ρ : Type} (Y : Sys Resp ε W ρ)

/-- Task `t` has reached `p` in world `w`: it stays in flight or ends. -/
def put (T : Nat → Option (Prog Resp ε ρ)) (t : Nat) (p : Prog Resp ε ρ) (w : W) :
    Pool Resp ε W ρ :=
  match p.result with
  | none => ⟨w, Function.update T t (some p)⟩
  | some x => ⟨Y.fin t x w, Function.update T t none⟩

/-- One step of the system. -/
inductive Step : Pool Resp ε W ρ → Pool Resp ε W ρ → Prop
  | enter {P : Pool Resp ε W ρ} {t p w} : P.tasks t = none → Y.enter P.world t p w →
      Step P (Y.put P.tasks t p w)
  | run {P : Pool Resp ε W ρ} {t b o k r w} (a : Act Y.Ans ε o) :
      P.tasks t = some (.await b o k) → Y.allow t P.world o a →
      Y.act t b P.world o a = some (r, w) → Step P (Y.put P.tasks t (k r) w)
  | kill {P : Pool Resp ε W ρ} {t p w} : P.tasks t = some p → Y.kill P.world t w →
      Step P ⟨w, Function.update P.tasks t none⟩

/-- The pools reachable from `P`. -/
def Reach : Pool Resp ε W ρ → Pool Resp ε W ρ → Prop := Relation.ReflTransGen Y.Step

end Sys

end Async
