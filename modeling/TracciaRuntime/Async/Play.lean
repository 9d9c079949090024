/-
  Computed runs of a system.

  A `Player` computes which tasks can enter and checks what the environment may
  do; both are sound for the system.  `Player.play` is the pool after a list of
  moves, and `Player.reach` shows that it is reachable.
-/
import TracciaRuntime.Async.Sem

namespace Async

variable {Op : Type} {Resp : Op → Type} {ε W ρ : Type}

/-- A scheduler's decision. -/
inductive Move (Ans : Op → Type) (ε : Type) where
  | enter (t : Nat)
  /-- the next await of task `t` ends as `σ` says -/
  | run (t : Nat) (σ : (o : Op) → Act Ans ε o)

/-- A sound way to compute runs of `Y`. -/
structure Player (Y : Sys Resp ε W ρ) where
  /-- the program with which a task enters, and the world after that -/
  spawn : W → Nat → Option (Prog Resp ε ρ × W)
  enter : ∀ {w t p w'}, spawn w t = some (p, w') → Y.enter w t p w'
  ok : Nat → W → (o : Op) → Act Y.Ans ε o → Bool
  allow : ∀ {t w o a}, ok t w o a = true → Y.allow t w o a

namespace Player
variable {Y : Sys Resp ε W ρ} (y : Player Y)

/-- One move; `none` if it is not possible. -/
def move (P : Pool Resp ε W ρ) : Move Y.Ans ε → Option (Pool Resp ε W ρ)
  | .enter t =>
    match P.tasks t, y.spawn P.world t with
    | none, some (p, w) => some (Y.put P.tasks t p w)
    | _, _ => none
  | .run t σ =>
    match P.tasks t with
    | some (.await b o k) =>
      if y.ok t P.world o (σ o) then
        match Y.act t b P.world o (σ o) with
        | some (r, w) => some (Y.put P.tasks t (k r) w)
        | none => none
      else none
    | _ => none

/-- The pool after a list of moves. -/
def play : List (Move Y.Ans ε) → Pool Resp ε W ρ → Option (Pool Resp ε W ρ)
  | [], P => some P
  | m :: ms, P => (y.move P m).bind (play ms)

variable {y}

theorem step {m : Move Y.Ans ε} {P P' : Pool Resp ε W ρ} (h : y.move P m = some P') :
    Y.Step P P' := by
  cases m with
  | enter t =>
    simp only [move] at h
    split at h
    · rename_i p w ht hs
      cases h
      exact .enter ht (y.enter hs)
    · cases h
  | run t σ =>
    simp only [move] at h
    split at h
    · rename_i b o k ht
      split at h
      · rename_i hok
        split at h
        · rename_i r w hact
          cases h
          exact .run (σ o) ht (y.allow hok) hact
        · cases h
      · cases h
    · cases h

/-- A computed pool is reachable. -/
theorem reach {ms : List (Move Y.Ans ε)} {P P' : Pool Resp ε W ρ} (h : y.play ms P = some P') :
    Y.Reach P P' := by
  induction ms generalizing P with
  | nil => cases h; exact .refl
  | cons m ms ih =>
    simp only [play, Option.bind_eq_some_iff] at h
    obtain ⟨P₁, h₁, h₂⟩ := h
    exact .head (step h₁) (ih h₂)

/-- A property of a computed pool is one of a reachable pool. -/
theorem exists_reach {ms : List (Move Y.Ans ε)} {P : Pool Resp ε W ρ} {α : Type}
    {f : Pool Resp ε W ρ → α} {a : α} (h : (y.play ms P).map f = some a) :
    ∃ P', Y.Reach P P' ∧ f P' = a := by
  rw [Option.map_eq_some_iff] at h
  obtain ⟨P', hP', ha⟩ := h
  exact ⟨P', reach hP', ha⟩

end Player

end Async
