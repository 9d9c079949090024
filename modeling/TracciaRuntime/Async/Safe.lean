/-
  Rely-guarantee reasoning about asynchronous programs.

  A `Contract` has an invariant `valid` of the world and, for each task `t`,
  what the other tasks may do between two of its awaits (`rely t`).
  `Safe S A R t Q p w` says that task `t`, running `p` from `w`, keeps the
  contract at each of its awaits and ends in `Q`.

  * `Safe.bind`, `Safe.handle`, `Safe.call`, ... are the rules for the program
    constructs, and `Safe.of_uses` the frame rule for programs whose operations
    keep the contract anyway;
  * `Safe.sound`: a safe task that runs among tolerable changes ends in `Q`;
  * `Sys.safe_reach`: in every interleaving of safe tasks the invariant holds and
    every task in flight stays safe.
-/
import TracciaRuntime.Async.Sem

namespace Async

variable {Op : Type} {Resp : Op → Type} {ε W α β : Type}

/-- The invariant of the world, and the interference each task tolerates. -/
structure Contract (W : Type) where
  valid : W → Prop
  rely : Nat → W → W → Prop
  refl : ∀ t w, rely t w w
  trans : ∀ {t w₁ w₂ w₃}, rely t w₁ w₂ → rely t w₂ w₃ → rely t w₁ w₃

/-- Task `t` keeps the contract from `w` on and ends in `Q`. -/
def Safe (S : Sem Resp ε W) (A : Allow S.Ans ε W) (R : Contract W) (t : Nat)
    (Q : Except ε α → W → Prop) : Prog Resp ε α → W → Prop
  | .pure a, w => Q (.ok a) w
  | .raise e, w => Q (.error e) w
  | .await b o k, w => ∀ w₁, R.rely t w w₁ → R.valid w₁ → ∀ a, A t w₁ o a →
      ∀ r w₂, S.act t b w₁ o a = some (r, w₂) →
        R.valid w₂ ∧ (∀ t', t' ≠ t → R.rely t' w₁ w₂) ∧ Safe S A R t Q (k r) w₂

/-- Where `G` holds, the operation `o` of task `t` keeps the contract, its own task's
    view included. -/
def Keeps (S : Sem Resp ε W) (A : Allow S.Ans ε W) (R : Contract W) (t : Nat) (G : W → Prop)
    (o : Op) : Prop :=
  ∀ b w a r w', R.valid w → G w → A t w o a → S.act t b w o a = some (r, w') →
    R.valid w' ∧ ∀ t', R.rely t' w w'

/-- The other tasks cannot make `G` false. -/
def Contract.Stable (R : Contract W) (t : Nat) (G : W → Prop) : Prop :=
  ∀ w w', R.rely t w w' → G w → G w'

section
variable {S : Sem Resp ε W} {A : Allow S.Ans ε W} {R : Contract W} {t : Nat}

theorem Safe.mono {Q Q' : Except ε α → W → Prop} {p : Prog Resp ε α} {w : W}
    (h : Safe S A R t Q p w) (hQ : ∀ x w', Q x w' → Q' x w') : Safe S A R t Q' p w := by
  induction p generalizing w with
  | pure a => exact hQ _ _ h
  | raise e => exact hQ _ _ h
  | await b o k ih =>
    intro w₁ hr hv a ha r w₂ hact
    obtain ⟨h₁, h₂, h₃⟩ := h w₁ hr hv a ha r w₂ hact
    exact ⟨h₁, h₂, ih r h₃⟩

/-- A program is safe in every tamer environment. -/
theorem Safe.tame {A' : Allow S.Ans ε W} (hA : ∀ t w o a, A' t w o a → A t w o a)
    {Q : Except ε α → W → Prop} {p : Prog Resp ε α} {w : W} (h : Safe S A R t Q p w) :
    Safe S A' R t Q p w := by
  induction p generalizing w with
  | pure a => exact h
  | raise e => exact h
  | await b o k ih =>
    intro w₁ hr hv a ha r w₂ hact
    obtain ⟨h₁, h₂, h₃⟩ := h w₁ hr hv a (hA _ _ _ _ ha) r w₂ hact
    exact ⟨h₁, h₂, ih r h₃⟩

/-- Safety survives interference, as long as the task is in flight. -/
theorem Safe.rely {Q : Except ε α → W → Prop} {b : Bool} {o : Op}
    {k : Except ε (Resp o) → Prog Resp ε α} {w w' : W}
    (h : Safe S A R t Q (.await b o k) w) (hr : R.rely t w w') :
    Safe S A R t Q (.await b o k) w' :=
  fun w₁ h₁ => h w₁ (R.trans hr h₁)

theorem Safe.bind {Q : Except ε β → W → Prop} {p : Prog Resp ε α} {f : α → Prog Resp ε β} {w : W}
    (h : Safe S A R t (fun x w' => match x with
      | .ok a => Safe S A R t Q (f a) w'
      | .error e => Q (.error e) w') p w) :
    Safe S A R t Q (p >>= f) w := by
  induction p generalizing w with
  | pure a => exact h
  | raise e => exact h
  | await b o k ih =>
    intro w₁ hr hv a ha r w₂ hact
    obtain ⟨h₁, h₂, h₃⟩ := h w₁ hr hv a ha r w₂ hact
    exact ⟨h₁, h₂, ih r h₃⟩

theorem Safe.handle {Q : Except ε α → W → Prop} {p : Prog Resp ε α} {f : ε → Prog Resp ε α} {w : W}
    (h : Safe S A R t (fun x w' => match x with
      | .ok a => Q (.ok a) w'
      | .error e => Safe S A R t Q (f e) w') p w) :
    Safe S A R t Q (tryCatch p f) w := by
  induction p generalizing w with
  | pure a => exact h
  | raise e => exact h
  | await b o k ih =>
    intro w₁ hr hv a ha r w₂ hact
    obtain ⟨h₁, h₂, h₃⟩ := h w₁ hr hv a ha r w₂ hact
    exact ⟨h₁, h₂, ih r h₃⟩

theorem Safe.pure {Q : Except ε α → W → Prop} {a : α} {w : W} (h : Q (.ok a) w) :
    Safe S A R t Q (Pure.pure a) w := h

theorem Safe.throw {Q : Except ε α → W → Prop} {e : ε} {w : W} (h : Q (.error e) w) :
    Safe S A R t Q (throw e) w := h

theorem Safe.lift {Q : Except ε α → W → Prop} {x : Except ε α} {w : W} (h : Q x w) :
    Safe S A R t Q (Prog.lift x) w := by
  cases x <;> exact h

theorem Safe.call {Q : Except ε (Resp o) → W → Prop} {w : W}
    (h : ∀ w₁, R.rely t w w₁ → R.valid w₁ → ∀ a, A t w₁ o a →
      ∀ r w₂, S.act t false w₁ o a = some (r, w₂) →
        R.valid w₂ ∧ (∀ t', t' ≠ t → R.rely t' w₁ w₂) ∧ Q r w₂) :
    Safe S A R t Q (Prog.call o) w := by
  intro w₁ hr hv a ha r w₂ hact
  obtain ⟨h₁, h₂, h₃⟩ := h w₁ hr hv a ha r w₂ hact
  refine ⟨h₁, h₂, ?_⟩
  cases r <;> exact h₃

theorem Safe.raiseIf {Q : Except ε Unit → W → Prop} {c : Bool} {e : ε} {w : W}
    (h₁ : c = true → Q (.error e) w) (h₂ : c = false → Q (.ok ()) w) :
    Safe S A R t Q (Prog.raiseIf c e) w := by
  cases c
  · exact h₂ rfl
  · exact h₁ rfl

theorem Safe.ensure {Q : Except ε α → W → Prop} {p : Prog Resp ε α} {f : Prog Resp ε Unit} {w : W}
    (h : Safe S A R t (fun x w' => Safe S A R t (fun y w'' => match y with
      | .ok _ => Q x w''
      | .error e => Q (.error e) w'') f w') p w) :
    Safe S A R t Q (p.ensure f) w := by
  refine Safe.bind (Safe.handle (h.mono fun x w' hx => ?_))
  cases x with
  | ok a =>
    refine Safe.bind (hx.mono fun y w'' hy => ?_)
    cases y <;> exact hy
  | error e =>
    refine Safe.bind (hx.mono fun y w'' hy => ?_)
    cases y <;> exact hy

/-- **Frame rule**: a program whose operations keep the contract where `G` holds is safe,
    keeps `G`, and only changes the world as the other tasks might. -/
theorem Safe.of_uses {G : W → Prop} (hG : R.Stable t G) {p : Prog Resp ε α} {w : W}
    (hp : p.Uses (Keeps S A R t G)) (hw : G w) :
    Safe S A R t (fun _ w' => G w' ∧ R.rely t w w') p w := by
  induction p generalizing w with
  | pure a => exact ⟨hw, R.refl t w⟩
  | raise e => exact ⟨hw, R.refl t w⟩
  | await b o k ih =>
    intro w₁ hr hv a ha r w₂ hact
    have hw₁ := hG w w₁ hr hw
    obtain ⟨h₁, h₂⟩ := hp.1 b w₁ a r w₂ hv hw₁ ha hact
    refine ⟨h₁, fun t' _ => h₂ t', (ih r (hp.2 r) (hG w₁ w₂ (h₂ t) hw₁)).mono fun x w' h => ?_⟩
    exact ⟨h.1, R.trans hr (R.trans (h₂ t) h.2)⟩

/-- Where `G` holds, the operation `o` of task `t` keeps the contract and `G`, and only raises
    exceptions in `X`. -/
def Mild (S : Sem Resp ε W) (A : Allow S.Ans ε W) (R : Contract W) (t : Nat) (G : W → Prop)
    (X : ε → Prop) (o : Op) : Prop :=
  ∀ b w a r w', R.valid w → G w → A t w o a → S.act t b w o a = some (r, w') →
    R.valid w' ∧ (∀ t', t' ≠ t → R.rely t' w w') ∧ G w' ∧ ∀ e, r = .error e → X e

/-- **Frame rule with exceptions**: a calm program of mild operations keeps `G` and only raises
    exceptions in `X`. -/
theorem Safe.of_calm {G : W → Prop} {X : ε → Prop} (hG : R.Stable t G) {p : Prog Resp ε α} {w : W}
    (hp : Prog.Calm (Mild S A R t G X) X p) (hw : G w) :
    Safe S A R t (fun x w' => G w' ∧ ∀ e, x = .error e → X e) p w := by
  have key : ∀ Y : ε → Prop, (∀ e, Y e → X e) → Prog.Calm (Mild S A R t G X) Y p →
      Safe S A R t (fun x w' => G w' ∧ ∀ e, x = .error e → X e) p w := by
    clear hp
    induction p generalizing w with
    | pure a => exact fun Y _ _ => ⟨hw, fun e h => by cases h⟩
    | raise e => exact fun Y hY h => ⟨hw, fun e h' => by cases h'; exact hY _ h⟩
    | await b o k ih =>
      intro Y hY hp w₁ hr hv a ha r w₂ hact
      obtain ⟨h₁, h₂, h₃, h₄⟩ := hp.1 b w₁ a r w₂ hv (hG w w₁ hr hw) ha hact
      refine ⟨h₁, h₂, ?_⟩
      cases r with
      | ok v => exact ih _ h₃ Y hY (hp.2.1 v)
      | error e =>
        refine ih _ h₃ _ (fun e' he' => ?_) (hp.2.2 e)
        rcases he' with he' | rfl
        · exact hY e' he'
        · exact h₄ e' rfl
  exact key X (fun _ => id) hp

/-- What a program returns can be read off its text. -/
theorem Safe.ends {Q : Except ε α → W → Prop} {P : α → Prop} {p : Prog Resp ε α} {w : W}
    (h : Safe S A R t Q p w) (hp : p.Ends P) :
    Safe S A R t (fun x w' => Q x w' ∧ ∀ a, x = .ok a → P a) p w := by
  induction p generalizing w with
  | pure a => exact ⟨h, fun a' h' => by cases h'; exact hp⟩
  | raise e => exact ⟨h, fun a' h' => by cases h'⟩
  | await b o k ih =>
    intro w₁ hr hv a ha r w₂ hact
    obtain ⟨h₁, h₂, h₃⟩ := h w₁ hr hv a ha r w₂ hact
    exact ⟨h₁, h₂, ih r h₃ (hp r)⟩

/-- What the other tasks and the program's operations leave alone stays true. -/
theorem Safe.and_uses {Q : Except ε α → W → Prop} {G : W → Prop} (hG : R.Stable t G)
    {p : Prog Resp ε α} {w : W} (h : Safe S A R t Q p w)
    (hp : p.Uses fun o => ∀ b w a r w', G w → S.act t b w o a = some (r, w') → G w') (hw : G w) :
    Safe S A R t (fun x w' => Q x w' ∧ G w') p w := by
  induction p generalizing w with
  | pure a => exact ⟨h, hw⟩
  | raise e => exact ⟨h, hw⟩
  | await b o k ih =>
    intro w₁ hr hv a ha r w₂ hact
    obtain ⟨h₁, h₂, h₃⟩ := h w₁ hr hv a ha r w₂ hact
    exact ⟨h₁, h₂, ih r h₃ (hp.2 r) (hp.1 b w₁ a r w₂ (hG w w₁ hr hw) hact)⟩

/-- A safe task that runs among tolerable changes ends in `Q`, in a valid world. -/
theorem Safe.sound {I : W → W → Prop} (hI : ∀ w w', R.valid w → I w w' → R.valid w' ∧ R.rely t w w')
    {Q : Except ε α → W → Prop} {p : Prog Resp ε α} {w w' : W} {x : Except ε α}
    (h : Safe S A R t Q p w) (hv : R.valid w) (hr : Runs S A I t p w x w') :
    R.valid w' ∧ Q x w' := by
  induction hr with
  | pure => exact ⟨hv, h⟩
  | raise => exact ⟨hv, h⟩
  | await a hi ha hact _ ih =>
    obtain ⟨hv₁, hr₁⟩ := hI _ _ hv hi
    obtain ⟨h₁, -, h₃⟩ := h _ hr₁ hv₁ a ha _ _ hact
    exact ih h₃ h₁

end

/-! ## Timers -/

/-- The semantics in which every await counts as timed. -/
def Sem.ticking (S : Sem Resp ε W) : Sem Resp ε W where
  Ans := S.Ans
  eff := S.eff
  susp := S.susp
  intr t _ := S.intr t true

section
variable {S : Sem Resp ε W} {A : Allow S.Ans ε W} {R : Contract W} {t : Nat}

theorem Sem.act_of_ticking {b : Bool} {w : W} {o : Op} {a : Act S.Ans ε o}
    {x : Except ε (Resp o) × W} (h : S.ticking.act t b w o a = some x) :
    S.act t true w o a = some x := by
  cases a <;> exact h

/-- The timer can only add to what interrupts a task. -/
def Sem.TimerAdds (S : Sem Resp ε W) : Prop :=
  ∀ t w e w₁, S.intr t false w e = some w₁ → S.intr t true w e = some w₁

theorem Sem.TimerAdds.act (hS : S.TimerAdds) {b b' : Bool} {w : W} {o : Op} {a : Act S.Ans ε o}
    {x : Except ε (Resp o) × W} (h : S.act t b w o a = some x) :
    S.ticking.act t b' w o a = some x := by
  have hi : ∀ e w₁, S.intr t b w e = some w₁ → S.intr t true w e = some w₁ := by
    cases b
    · exact hS t w
    · exact fun _ _ h => h
  cases a with
  | done c => exact h
  | before e =>
    simp only [Sem.act] at h ⊢
    split at h
    · rename_i hs
      rw [Option.map_eq_some_iff] at h
      obtain ⟨w₁, h₁, rfl⟩ := h
      refine (if_pos (show S.ticking.susp o = true from hs)).trans ?_
      rw [show S.ticking.intr t b' w e = some w₁ from hi e w₁ h₁]; rfl
    · cases h
  | after e c =>
    simp only [Sem.act] at h ⊢
    split at h
    · rename_i hs
      rw [Option.bind_eq_some_iff] at h
      obtain ⟨w₁, h₁, h⟩ := h
      refine (if_pos (show S.ticking.susp o = true from hs)).trans ?_
      rw [show S.ticking.intr t b' w e = some w₁ from hi e w₁ h₁]; exact h
    · cases h

/-- A program that is safe with the timer running everywhere is safe with its
    own awaits, inside a timeout block and outside. -/
theorem Safe.of_ticking (hS : S.TimerAdds) {Q : Except ε α → W → Prop} {p : Prog Resp ε α} {w : W}
    (h : Safe S.ticking A R t Q p w) : Safe S A R t Q p w ∧ Safe S A R t Q p.timed w := by
  induction p generalizing w with
  | pure a => exact ⟨h, h⟩
  | raise e => exact ⟨h, h⟩
  | await b o k ih =>
    refine ⟨fun w₁ hr hv a ha r w₂ hact => ?_, fun w₁ hr hv a ha r w₂ hact => ?_⟩
    · obtain ⟨h₁, h₂, h₃⟩ := h w₁ hr hv a ha r w₂ (hS.act hact)
      exact ⟨h₁, h₂, (ih r h₃).1⟩
    · obtain ⟨h₁, h₂, h₃⟩ := h w₁ hr hv a ha r w₂ (hS.act hact)
      exact ⟨h₁, h₂, (ih r h₃).2⟩

end

/-! ## Interleavings of safe tasks -/

namespace Sys
variable {ρ : Type} {Y : Sys Resp ε W ρ} {R : Contract W} {Q : Nat → Except ε ρ → W → Prop}

/-- The world is valid and every task in flight is safe. -/
structure AllSafe (Y : Sys Resp ε W ρ) (R : Contract W) (Q : Nat → Except ε ρ → W → Prop)
    (P : Pool Resp ε W ρ) : Prop where
  valid : R.valid P.world
  safe : ∀ t p, P.tasks t = some p → p.result = none ∧ Safe Y.toSem Y.allow R t (Q t) p P.world

/-- Entering, ending and vanishing tasks respect the contract. -/
structure Respects (Y : Sys Resp ε W ρ) (R : Contract W) (Q : Nat → Except ε ρ → W → Prop) :
    Prop where
  enter : ∀ w t p w', R.valid w → Y.enter w t p w' →
    R.valid w' ∧ (∀ t', t' ≠ t → R.rely t' w w') ∧ Safe Y.toSem Y.allow R t (Q t) p w'
  fin : ∀ t x w, R.valid w → Q t x w →
    R.valid (Y.fin t x w) ∧ ∀ t', t' ≠ t → R.rely t' w (Y.fin t x w)
  kill : ∀ w t w', R.valid w → Y.kill w t w' → R.valid w' ∧ ∀ t', t' ≠ t → R.rely t' w w'

/-- The tasks other than `t` stay safe when `t` changes the world as they tolerate. -/
theorem AllSafe.other {P : Pool Resp ε W ρ} {t : Nat} {w : W} (hP : AllSafe Y R Q P)
    (hr : ∀ t', t' ≠ t → R.rely t' P.world w) {t' : Nat} (ht : t' ≠ t) {p : Prog Resp ε ρ}
    (hp : P.tasks t' = some p) : p.result = none ∧ Safe Y.toSem Y.allow R t' (Q t') p w := by
  obtain ⟨hn, h⟩ := hP.safe t' p hp
  cases p with
  | pure a => cases hn
  | raise e => cases hn
  | await b o k => exact ⟨rfl, h.rely (hr t' ht)⟩

theorem AllSafe.remove {P : Pool Resp ε W ρ} {t : Nat} {w : W} (hP : AllSafe Y R Q P)
    (hv : R.valid w) (hr : ∀ t', t' ≠ t → R.rely t' P.world w) :
    AllSafe Y R Q ⟨w, Function.update P.tasks t none⟩ := by
  refine ⟨hv, fun t' p hp => ?_⟩
  dsimp only at hp
  by_cases ht : t' = t
  · subst ht; rw [Function.update_self] at hp; cases hp
  · rw [Function.update_of_ne ht] at hp
    exact hP.other hr ht hp

theorem AllSafe.put {P : Pool Resp ε W ρ} {t : Nat} {p : Prog Resp ε ρ} {w : W}
    (hP : AllSafe Y R Q P) (hY : Respects Y R Q) (hv : R.valid w)
    (hr : ∀ t', t' ≠ t → R.rely t' P.world w) (hs : Safe Y.toSem Y.allow R t (Q t) p w) :
    AllSafe Y R Q (Y.put P.tasks t p w) := by
  have fin : ∀ x, Q t x w → AllSafe Y R Q ⟨Y.fin t x w, Function.update P.tasks t none⟩ := by
    intro x hq
    obtain ⟨hv', hr'⟩ := hY.fin t x w hv hq
    exact hP.remove hv' fun t' ht => R.trans (hr t' ht) (hr' t' ht)
  cases p with
  | pure a => exact fin (.ok a) hs
  | raise e => exact fin (.error e) hs
  | await b o k =>
    refine ⟨hv, fun t' p' hp => ?_⟩
    change Function.update P.tasks t (some (.await b o k)) t' = some p' at hp
    by_cases ht : t' = t
    · subst ht; rw [Function.update_self] at hp; cases hp; exact ⟨rfl, hs⟩
    · rw [Function.update_of_ne ht] at hp
      exact hP.other hr ht hp

theorem AllSafe.step (hY : Respects Y R Q) {P P' : Pool Resp ε W ρ} (hP : AllSafe Y R Q P)
    (h : Y.Step P P') : AllSafe Y R Q P' := by
  cases h with
  | enter hn he =>
    obtain ⟨h₁, h₂, h₃⟩ := hY.enter _ _ _ _ hP.valid he
    exact hP.put hY h₁ h₂ h₃
  | run a ht ha hact =>
    obtain ⟨h₁, h₂, h₃⟩ := (hP.safe _ _ ht).2 _ (R.refl _ _) hP.valid a ha _ _ hact
    exact hP.put hY h₁ h₂ h₃
  | kill ht hk =>
    obtain ⟨h₁, h₂⟩ := hY.kill _ _ _ hP.valid hk
    exact hP.remove h₁ h₂

/-- A step changes the world as every task but one tolerates. -/
theorem AllSafe.step_rely (hY : Respects Y R Q) {P P' : Pool Resp ε W ρ} (hP : AllSafe Y R Q P)
    (h : Y.Step P P') : ∃ t, ∀ t', t' ≠ t → R.rely t' P.world P'.world := by
  have put : ∀ {t p w}, R.valid w → (∀ t', t' ≠ t → R.rely t' P.world w) →
      Safe Y.toSem Y.allow R t (Q t) p w →
      ∀ t', t' ≠ t → R.rely t' P.world (Y.put P.tasks t p w).world := by
    intro t p w hv hr hs t' ht
    cases p with
    | pure a => exact R.trans (hr t' ht) ((hY.fin t _ w hv hs).2 t' ht)
    | raise e => exact R.trans (hr t' ht) ((hY.fin t _ w hv hs).2 t' ht)
    | await b o k => exact hr t' ht
  cases h with
  | @enter t p w hn he =>
    obtain ⟨h₁, h₂, h₃⟩ := hY.enter _ _ _ _ hP.valid he
    exact ⟨t, put h₁ h₂ h₃⟩
  | @run t b o k r w a ht ha hact =>
    obtain ⟨h₁, h₂, h₃⟩ := (hP.safe _ _ ht).2 _ (R.refl _ _) hP.valid a ha _ _ hact
    exact ⟨t, put h₁ h₂ h₃⟩
  | @kill t p w ht hk => exact ⟨t, (hY.kill _ _ _ hP.valid hk).2⟩

/-- **Every interleaving of safe tasks is safe.** -/
theorem safe_reach (hY : Respects Y R Q) {P P' : Pool Resp ε W ρ} (hP : AllSafe Y R Q P)
    (h : Y.Reach P P') : AllSafe Y R Q P' := by
  induction h with
  | refl => exact hP
  | tail _ hs ih => exact ih.step hY hs

/-- What every task tolerates of the others holds between the worlds of a run. -/
theorem safe_reach_rel (hY : Respects Y R Q) {G : W → W → Prop} (refl : ∀ w, G w w)
    (trans : ∀ {w₁ w₂ w₃}, G w₁ w₂ → G w₂ w₃ → G w₁ w₃)
    (hG : ∀ t w w', R.rely t w w' → G w w') {P P' : Pool Resp ε W ρ} (hP : AllSafe Y R Q P)
    (h : Y.Reach P P') : G P.world P'.world := by
  induction h with
  | refl => exact refl _
  | @tail P₁ P₂ h hs ih =>
    obtain ⟨t, ht⟩ := (safe_reach hY hP h).step_rely hY hs
    exact trans ih (hG (t + 1) _ _ (ht (t + 1) (by omega)))

/-- A property of programs that passes on to every continuation holds of all tasks. -/
theorem reach_tasks {Φ : Prog Resp ε ρ → Prop}
    (sub : ∀ b o k, Φ (.await b o k) → ∀ r, Φ (k r))
    (enter : ∀ w t p w', Y.enter w t p w' → Φ p) {P P' : Pool Resp ε W ρ}
    (hP : ∀ t p, P.tasks t = some p → Φ p) (h : Y.Reach P P') :
    ∀ t p, P'.tasks t = some p → Φ p := by
  have put : ∀ {T t p w}, (∀ t' p', T t' = some p' → Φ p') → Φ p →
      ∀ t' p', (Y.put T t p w).tasks t' = some p' → Φ p' := by
    intro T t p w hT hp t' p' h'
    have upd : ∀ x : Option (Prog Resp ε ρ), (∀ q, x = some q → Φ q) →
        Function.update T t x t' = some p' → Φ p' := by
      intro x hx h'
      by_cases ht : t' = t
      · subst ht; rw [Function.update_self] at h'; exact hx _ h'
      · rw [Function.update_of_ne ht] at h'; exact hT t' p' h'
    cases p with
    | pure a => exact upd none (fun q hq => by cases hq) h'
    | raise e => exact upd none (fun q hq => by cases hq) h'
    | await b o k => exact upd _ (fun q hq => by cases hq; exact hp) h'
  induction h with
  | refl => exact hP
  | @tail P₁ P₂ h hs ih =>
    cases hs with
    | enter hn he => exact put ih (enter _ _ _ _ he)
    | run a ht ha hact => exact put ih (sub _ _ _ (ih _ _ ht) _)
    | @kill t p w ht hk =>
      intro t' p' h'
      dsimp only at h'
      by_cases htt : t' = t
      · subst htt; rw [Function.update_self] at h'; cases h'
      · rw [Function.update_of_ne htt] at h'; exact ih t' p' h'

end Sys

end Async
