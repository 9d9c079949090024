/-
  Programs that follow a protocol.

  A `Protocol` keeps a private state of one task, which is in no world: what the
  task may await in a state, and the state after the answer.  Whether a program
  follows it can be read off its text, whatever the world answers.

  * `Prog.Follows K p g`: from the state `g` on, `p` only awaits what it may;
  * `Prog.Abides K p`: it does so from every state;
  * `Sys.follows_reach`: an invariant between the world and the states of all
    tasks, kept by each await that the protocol allows, holds in every
    interleaving of programs that follow the protocol (or that any relation `F`
    ties to it).
-/
import TracciaRuntime.Async.Safe

namespace Async

variable {Op : Type} {Resp : Op → Type} {ε W α β σ : Type}

/-- The rules for the awaits of one task. -/
structure Protocol (Resp : Op → Type) (ε σ : Type) where
  may : σ → Op → Prop
  next : σ → (o : Op) → Except ε (Resp o) → σ

namespace Prog
variable (K : Protocol Resp ε σ)

/-- From the state `g` on, the program only awaits what it may. -/
def Follows : Prog Resp ε α → σ → Prop
  | pure _, _ => True
  | raise _, _ => True
  | await _ o k, g => K.may g o ∧ ∀ r, (k r).Follows (K.next g o r)

/-- The program follows the protocol from every state. -/
def Abides (p : Prog Resp ε α) : Prop := ∀ g, p.Follows K g

variable {K}

theorem Follows.bind {p : Prog Resp ε α} {f : α → Prog Resp ε β} {g : σ} (hp : p.Follows K g)
    (hf : ∀ a, (f a).Abides K) : (p >>= f).Follows K g := by
  induction p generalizing g with
  | pure a => exact hf a g
  | raise e => trivial
  | await b o k ih => exact ⟨hp.1, fun r => ih r (hp.2 r)⟩

/-- An await, and what follows it. -/
theorem Follows.call {o : Op} {f : Resp o → Prog Resp ε β} {g : σ} (hm : K.may g o)
    (hf : ∀ a, (f a).Follows K (K.next g o (.ok a))) :
    ((Prog.call o : Prog Resp ε (Resp o)) >>= f).Follows K g := by
  refine ⟨hm, fun r => ?_⟩
  cases r with
  | ok a => exact hf a
  | error e => trivial

theorem Abides.bind {p : Prog Resp ε α} {f : α → Prog Resp ε β} (hp : p.Abides K)
    (hf : ∀ a, (f a).Abides K) : (p >>= f).Abides K :=
  fun g => (hp g).bind hf

theorem Abides.handle {p : Prog Resp ε α} {h : ε → Prog Resp ε α} (hp : p.Abides K)
    (hh : ∀ e, (h e).Abides K) : (tryCatch p h).Abides K := by
  intro g
  have hg := hp g
  clear hp
  induction p generalizing g with
  | pure a => trivial
  | raise e => exact hh e g
  | await b o k ih => exact ⟨hg.1, fun r => ih r _ (hg.2 r)⟩

theorem Follows.timed {p : Prog Resp ε α} {g : σ} (hp : p.Follows K g) : p.timed.Follows K g := by
  induction p generalizing g with
  | pure a => trivial
  | raise e => trivial
  | await b o k ih => exact ⟨hp.1, fun r => ih r (hp.2 r)⟩

/-- Programs whose operations are always allowed. -/
theorem Abides.of_uses {p : Prog Resp ε α} (hp : p.Uses fun o => ∀ g, K.may g o) :
    p.Abides K := by
  induction p with
  | pure a => exact fun _ => trivial
  | raise e => exact fun _ => trivial
  | await b o k ih => exact fun g => ⟨hp.1 g, fun r => ih r (hp.2 r) _⟩

end Prog

namespace Sys
variable {ρ : Type} {Y : Sys Resp ε W ρ} {R : Contract W} {Q : Nat → Except ε ρ → W → Prop}
  {K : Protocol Resp ε σ} {F : Prog Resp ε ρ → σ → Prop} {I : W → (Nat → σ) → Prop}

/-- The tasks in flight are related by `F` to states that fit the world. -/
def Follow (F : Prog Resp ε ρ → σ → Prop) (I : W → (Nat → σ) → Prop) (P : Pool Resp ε W ρ) : Prop :=
  ∃ g : Nat → σ, I P.world g ∧ ∀ t p, P.tasks t = some p → F p (g t)

/-- The relation `F` lets a program await only what the protocol allows, and the steps of the
    system keep the invariant; a task that ends may drop its state. -/
structure Conforms (Y : Sys Resp ε W ρ) (R : Contract W) (K : Protocol Resp ε σ)
    (F : Prog Resp ε ρ → σ → Prop) (I : W → (Nat → σ) → Prop) : Prop where
  await : ∀ b o k x, F (.await b o k) x → K.may x o ∧ ∀ r, F (k r) (K.next x o r)
  enter : ∀ w g t p w', I w g → Y.enter w t p w' → ∃ x, I w' (Function.update g t x) ∧ F p x
  run : ∀ w g t b o a r w', R.valid w → R.valid w' → I w g → K.may (g t) o → Y.allow t w o a →
    Y.act t b w o a = some (r, w') → I w' (Function.update g t (K.next (g t) o r))
  fin : ∀ w g t p z, I w g → F p (g t) → p.result = some z →
    ∃ y, I (Y.fin t z w) (Function.update g t y)
  kill : ∀ w g t p w', I w g → F p (g t) → Y.kill w t w' → ∃ y, I w' (Function.update g t y)

theorem Follow.remove {P : Pool Resp ε W ρ} {g : Nat → σ} {t : Nat} {y : σ} {w : W}
    (hP : ∀ t p, P.tasks t = some p → F p (g t)) (hI : I w (Function.update g t y)) :
    Follow F I ⟨w, Function.update P.tasks t none⟩ := by
  refine ⟨_, hI, fun t' p' h => ?_⟩
  dsimp only at h
  by_cases ht : t' = t
  · subst ht; rw [Function.update_self] at h; cases h
  · rw [Function.update_of_ne ht] at h ⊢
    exact hP t' p' h

theorem Follow.put {P : Pool Resp ε W ρ} {g : Nat → σ} {t : Nat} {x : σ} {p : Prog Resp ε ρ}
    {w : W} (hY : Conforms Y R K F I) (hP : ∀ t p, P.tasks t = some p → F p (g t))
    (hI : I w (Function.update g t x)) (hp : F p x) : Follow F I (Y.put P.tasks t p w) := by
  have ended : ∀ z, p.result = some z →
      Follow F I ⟨Y.fin t z w, Function.update P.tasks t none⟩ := by
    intro z hz
    obtain ⟨y, hy⟩ := hY.fin _ _ t p z hI (by rw [Function.update_self]; exact hp) hz
    rw [Function.update_idem] at hy
    exact Follow.remove hP hy
  cases p with
  | pure a => exact ended _ rfl
  | raise e => exact ended _ rfl
  | await b o k =>
    refine ⟨_, hI, fun t' p' h => ?_⟩
    change Function.update P.tasks t (some (.await b o k)) t' = some p' at h
    by_cases ht : t' = t
    · subst ht
      rw [Function.update_self] at h ⊢
      cases h
      exact hp
    · rw [Function.update_of_ne ht] at h ⊢
      exact hP t' p' h

/-- **In every interleaving the invariant holds** and the tasks go on as the protocol allows. -/
theorem follows_reach (hR : Respects Y R Q) (hY : Conforms Y R K F I) {P P' : Pool Resp ε W ρ}
    (hs : AllSafe Y R Q P) (hP : Follow F I P) (h : Y.Reach P P') : Follow F I P' := by
  induction h with
  | refl => exact hP
  | @tail P₁ P₂ h hstep ih =>
    obtain ⟨g, hI, hg⟩ := ih
    have hs₁ := safe_reach hR hs h
    cases hstep with
    | enter hn he =>
      obtain ⟨x, hx, hp⟩ := hY.enter _ g _ _ _ hI he
      exact Follow.put hY hg hx hp
    | run a ht ha hact =>
      have hv := ((hs₁.safe _ _ ht).2 _ (R.refl _ _) hs₁.valid a ha _ _ hact).1
      obtain ⟨hmay, hnext⟩ := hY.await _ _ _ _ (hg _ _ ht)
      exact Follow.put hY hg (hY.run _ g _ _ _ a _ _ hs₁.valid hv hI hmay ha hact) (hnext _)
    | kill ht hk =>
      obtain ⟨y, hy⟩ := hY.kill _ g _ _ _ hI (hg _ _ ht) hk
      exact Follow.remove hg hy

end Sys

end Async
