/-
  What holds of the tasks that have ended.

  A task ends in its postcondition (`Safe`).  A postcondition that survives what
  the other tasks may do holds ever after, since an ended task does nothing more:
  `Sys.Trace.settled`.
-/
import TracciaRuntime.Async.Safe
import TracciaRuntime.Async.Trace

namespace Async

variable {Op : Type} {Resp : Op → Type} {ε W ρ : Type}

namespace Sys
variable {Y : Sys Resp ε W ρ} {R : Contract W} {Q : Nat → Except ε ρ → W → Prop}
  {begun : W → Set Nat} {P₀ P : Pool Resp ε W ρ} {l : List (Event Resp Y.Ans ε ρ)}

/-- The postconditions survive what the other tasks may do. -/
structure Lasting (Y : Sys Resp ε W ρ) (R : Contract W) (Q : Nat → Except ε ρ → W → Prop) :
    Prop where
  rely : ∀ {t x w w'}, R.rely t w w' → Q t x w → Q t x w'
  fin : ∀ {t x w}, R.valid w → Q t x w → Q t x (Y.fin t x w)

/-- The tasks that have ended with `l` are not in flight. -/
theorem Trace.tracked (hO : Once Y begun) (h₀ : ∀ t, P₀.tasks t = none) (h : Y.Trace P₀ l P) :
    Tracked begun l P :=
  (Trace.invariant hO h₀ (fun _ => True) (fun _ _ => trivial) (I := fun _ _ => True) trivial
    (fun _ _ _ _ _ _ _ _ => trivial) (fun _ _ _ _ _ _ _ _ _ _ _ _ _ _ => trivial)
    (fun _ _ _ _ _ _ => trivial) (fun _ _ _ _ _ _ => trivial) h).1

/-- The other tasks stay where they are. -/
theorem put_tasks_ne {T : Nat → Option (Prog Resp ε ρ)} {t u : Nat} {p : Prog Resp ε ρ} {w : W}
    (hu : u ≠ t) : (Y.put T t p w).tasks u = T u := by
  unfold put
  split <;> exact Function.update_of_ne hu _ _

theorem Once.put (hO : Once Y begun) {T : Nat → Option (Prog Resp ε ρ)} {t : Nat}
    {p : Prog Resp ε ρ} {w : W} : begun w ⊆ begun (Y.put T t p w).world := by
  unfold Sys.put
  split
  · exact subset_rfl
  · exact hO.fin

theorem killed_of_outcome {t u : Nat} {p : Prog Resp ε ρ}
    (h : .killed u ∈ outcome t p ++ l) : .killed u ∈ l := by
  unfold outcome at h
  split at h
  · exact h
  · rcases List.mem_cons.1 h with h | h
    · cases h
    · exact h

/-- A task that was killed does not come back. -/
theorem Trace.killed_gone (hO : Once Y begun) (h₀ : ∀ t, P₀.tasks t = none) (h : Y.Trace P₀ l P)
    {t : Nat} (ht : .killed t ∈ l) : P.tasks t = none ∧ t ∈ begun P.world := by
  induction h with
  | refl => cases ht
  | @enter l P t' p w hl hn he ih =>
    have hold : .killed t ∈ l := by
      rcases List.mem_cons.1 (killed_of_outcome ht) with h | h
      · cases h
      · exact h
    obtain ⟨hgone, hbegun⟩ := ih hold
    obtain ⟨hnew, hsub⟩ := hO.enter he
    have hne : t ≠ t' := by
      rintro rfl
      exact hnew hbegun
    exact ⟨(put_tasks_ne hne).trans hgone, hO.put (hsub (Set.mem_insert_of_mem _ hbegun))⟩
  | @run l P t' b o k r w a hl hrun ha hact ih =>
    have hold : .killed t ∈ l := by
      rcases List.mem_cons.1 (killed_of_outcome ht) with h | h
      · cases h
      · exact h
    obtain ⟨hgone, hbegun⟩ := ih hold
    have hne : t ≠ t' := by
      rintro rfl
      rw [hgone] at hrun
      cases hrun
    exact ⟨(put_tasks_ne hne).trans hgone, hO.put (hO.run hact hbegun)⟩
  | @kill l P t' p w hl htask hk ih =>
    by_cases hne : t = t'
    · subst hne
      exact ⟨Function.update_self .., hO.kill hk ((Trace.tracked hO h₀ hl).tasks t p htask).1⟩
    · rcases List.mem_cons.1 ht with h | hold
      · cases h
        exact absurd rfl hne
      · obtain ⟨hgone, hbegun⟩ := ih hold
        exact ⟨(Function.update_of_ne hne _ _).trans hgone, hO.kill hk hbegun⟩

/-- Task `t` reaches `p` in `w`: what holds of the ended tasks holds still, and of `t` if this is
    its end. -/
theorem Lasting.put (hL : Lasting Y R Q) (hY : Respects Y R Q) {t : Nat} {p : Prog Resp ε ρ}
    {w : W} {T : Nat → Option (Prog Resp ε ρ)} (hv : R.valid w)
    (hs : Safe Y.toSem Y.allow R t (Q t) p w) (hne : ∀ x, .ended t x ∉ l)
    (hl : ∀ u x, .ended u x ∈ l → Q u x w) :
    ∀ u x, .ended u x ∈ outcome t p ++ l → Q u x (Y.put T t p w).world := by
  intro u x hx
  have fin : ∀ y, Q t y w → .ended u x ∈ Event.ended t y :: l → Q u x (Y.fin t y w) := by
    intro y hq hx
    rcases List.mem_cons.1 hx with hx | hold
    · cases hx
      exact hL.fin hv hq
    · refine hL.rely ((hY.fin t y w hv hq).2 u ?_) (hl u x hold)
      rintro rfl
      exact hne x hold
  cases p with
  | pure a => exact fin (.ok a) hs hx
  | raise e => exact fin (.error e) hs hx
  | await b o k => exact hl u x hx

/-- **A task that has ended satisfies its postcondition ever after.** -/
theorem Trace.settled (hY : Respects Y R Q) (hL : Lasting Y R Q) (hO : Once Y begun)
    (h₀ : ∀ t, P₀.tasks t = none) (hv : R.valid P₀.world) (h : Y.Trace P₀ l P) :
    ∀ t x, .ended t x ∈ l → Q t x P.world := by
  have safe : ∀ {l P}, Y.Trace P₀ l P → AllSafe Y R Q P := by
    intro l P h
    refine safe_reach hY ⟨hv, fun t p hp => ?_⟩ (reach_iff_exists_trace.2 ⟨l, h⟩)
    rw [h₀] at hp
    cases hp
  induction h with
  | refl => exact fun t x hx => nomatch hx
  | @enter l P t p w hl hn he ih =>
    obtain ⟨hv', hr, hs⟩ := hY.enter _ _ _ _ (safe hl).valid he
    have hne : ∀ x, .ended t x ∉ Event.entered t p :: l := by
      intro x hx
      rcases List.mem_cons.1 hx with hx | hx
      · cases hx
      · exact (hO.enter he).1 ((Trace.tracked hO h₀ hl).ended t x hx).1
    refine hL.put hY hv' hs hne fun u x hx => ?_
    have hx' : .ended u x ∈ l := by
      rcases List.mem_cons.1 hx with hx | hx
      · cases hx
      · exact hx
    refine hL.rely (hr u ?_) (ih u x hx')
    rintro rfl
    exact hne x hx
  | @run l P t b o k r w a hl ht ha hact ih =>
    obtain ⟨hv', hr, hs⟩ := ((safe hl).safe _ _ ht).2 _ (R.refl _ _) (safe hl).valid a ha _ _ hact
    have hsub : ∀ u x, .ended u x ∈ Event.awaited t o a r :: l → .ended u x ∈ l := by
      intro u x hx
      rcases List.mem_cons.1 hx with hx | hx
      · cases hx
      · exact hx
    have hne : ∀ x, .ended t x ∉ Event.awaited t o a r :: l := fun x hx =>
      ((Trace.tracked hO h₀ hl).tasks t _ ht).2.2 x (hsub t x hx)
    refine hL.put hY hv' hs hne fun u x hx => ?_
    refine hL.rely (hr u ?_) (ih u x (hsub u x hx))
    rintro rfl
    exact hne x hx
  | @kill l P t p w hl ht hk ih =>
    obtain ⟨-, hr⟩ := hY.kill _ _ _ (safe hl).valid hk
    intro u x hx
    rcases List.mem_cons.1 hx with hx | hold
    · cases hx
    · refine hL.rely (hr u ?_) (ih u x hold)
      rintro rfl
      exact ((Trace.tracked hO h₀ hl).tasks u _ ht).2.2 x hold

end Sys

/-- The last event is the end of task `t`, with an outcome that passes the test. -/
def lastEnds {Ans : Op → Type} (t : Nat) (f : Except ε ρ → Bool) :
    List (Event Resp Ans ε ρ) → Bool
  | .ended u x :: _ => u == t && f x
  | _ => false

theorem exists_of_lastEnds {Ans : Op → Type} {t : Nat} {f : Except ε ρ → Bool}
    {l : List (Event Resp Ans ε ρ)} (h : lastEnds t f l = true) :
    ∃ x, .ended t x ∈ l ∧ f x = true := by
  cases l with
  | nil => cases h
  | cons e l =>
    cases e with
    | ended u x =>
      obtain ⟨ht, hf⟩ := Bool.and_eq_true_iff.1 h
      rw [← beq_iff_eq.1 ht]
      exact ⟨x, List.mem_cons_self, hf⟩
    | entered | awaited | killed => cases h

end Async
