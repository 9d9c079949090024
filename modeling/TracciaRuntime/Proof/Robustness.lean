/-
  Traccia Runtime formalization — the robustness of `run_once`.

  * `RunOnce.Reports`: the handler ends by a return or by an `Exception`, and the item is still
    leased to the worker when `fail` is called;
  * `RunOnce.step_cases`: what a move of a call that is in order leads to;
  * `run_once_iff`: a call whose task is not cancelled returns whether it has claimed an item just
    when its moves are such;
  * `run_once_raises`: a lease lapses while the handler runs.
-/
import TracciaRuntime.Proof.Fencing
import TracciaRuntime.Machine.Moves

namespace TracciaRuntime

open Py Machine

variable {V : Type}

/-- A move of the call itself. -/
def RunOnceAct.isOwn : RunOnceAct V → Bool
  | .others _ | .cancel _ => false
  | _ => true

namespace RunOnce

section
variable {Q : WorkQueue V} (owner : Q.State → String → Option String) (w : DistributedWorker)

/-- It returns whether it has claimed an item, unless its task is cancelled. -/
def Robust (s : RunOnce Q) : Prop :=
  s.cancelled = false → ∀ o, s.stage = .ended o → o = .returned s.item.isSome

/-- What a move must be like for `run_once` not to raise. -/
def Reports (s : RunOnce Q) : RunOnceAct V → Prop
  | .raised e text => e.isException = true ∧ ∃ error, text = .ok error
  | .exited _ => False
  | .call .. => ∀ error next x, s.stage = .failing error next → s.item = some x →
      owner s.queue x.id = some w.workerId
  | _ => True

end

section
variable {Q : WorkQueue V} {Inv : Q.State → Prop} {has : Q.State → String → Prop}
  {owner : Q.State → String → Option String} {w : DistributedWorker} {repr : String → String}
  {str : Exn → String} {s s' : RunOnce Q} {a : RunOnceAct V} {o : Outcome}

/-- A call that is in order: if it gets its failure reported, it returns. -/
structure Sound (Inv : Q.State → Prop) (s : RunOnce Q) : Prop where
  queue : Inv s.queue
  stage : s.stage = .claiming ∧ s.item = none ∨ ∃ x, s.item = some x ∧
    (s.stage = .handling ∨ (∃ result, s.stage = .completing result) ∨
      ∃ error, s.stage = .failing error (.returned true))

/-- A call that does not return any more. -/
def Doomed (s : RunOnce Q) : Prop :=
  ∃ o, (s.stage = .ended o ∨ ∃ error, s.stage = .failing error o) ∧ ∀ b, o ≠ .returned b

/-! ### Moves -/

/-- An exception that can be reported is reported. -/
theorem recover_sound {e : Exn} {text : Except Exn String} {x : WorkItem V}
    (he : e.isException = true ∧ ∃ error, text = .ok error) (hs : Inv s.queue)
    (hx : s.item = some x) (hst : s.stage = DistributedWorker.recover e text) : s.Sound Inv := by
  obtain ⟨he, error, rfl⟩ := he
  refine ⟨hs, .inr ⟨x, hx, .inr (.inr ⟨error, ?_⟩)⟩⟩
  rw [hst, DistributedWorker.recover, if_pos he]

theorem recover_doomed {e : Exn} {text : Except Exn String}
    (he : ¬(e.isException = true ∧ ∃ error, text = .ok error))
    (hst : s.stage = DistributedWorker.recover e text) : s.Doomed := by
  unfold DistributedWorker.recover at hst
  split at hst
  · rename_i hexc
    cases text with
    | ok error => exact absurd ⟨hexc, error, rfl⟩ he
    | error e' => exact ⟨.raised e', .inl hst, fun b h => by cases h⟩
  · exact ⟨.raised e, .inr ⟨_, hst⟩, fun b h => by cases h⟩

theorem begin_sound {x : WorkItem V} (hs : Inv s.queue) (hx : s.item = some x)
    (hst : s.stage = w.begin repr x) : s.Sound Inv := by
  unfold DistributedWorker.begin at hst
  split at hst
  · exact ⟨hs, .inr ⟨x, hx, .inl hst⟩⟩
  · exact recover_sound ⟨rfl, _, rfl⟩ hs hx hst

theorem proceed_cancelled (reply : Except Exn (QueueReply V)) :
    (w.proceed repr str s reply).cancelled = s.cancelled := by
  unfold DistributedWorker.proceed
  split <;> rfl

theorem cancelled_step (h : w.step repr str s a = some s') (hc : s.cancelled = true) :
    s'.cancelled = true := by
  cases a with
  | others c => cases h; exact hc
  | call now later =>
    obtain ⟨c, -, rfl⟩ := Option.map_eq_some_iff.1 h
    rw [proceed_cancelled]
    exact hc
  | cancel served =>
    simp only [DistributedWorker.step] at h
    split at h <;> cases h
    rfl
  | returned | raised | exited =>
    simp only [DistributedWorker.step] at h
    split at h <;> cases h <;> exact hc

/-- The replies to `complete` and `fail`: only the owner of the lease gets them accepted. -/
theorem report_reply (hQ : Q.Fences Inv has owner) {q : Q.State} (hq : Inv q) {c : TimedCall V}
    {id v : String} {f : WorkItem V → WorkItem V} (hc : c.assignment = some (id, v, f))
    (hrenew : ∀ i u secs, c.call ≠ .renew i u secs) :
    owner q id = some v ∧ (∃ r, (Q.step c q).1 = .ok r) ∨
      owner q id ≠ some v ∧ (Q.step c q).1 = .error (.conflict .leaseNotOwned) := by
  by_cases ho : owner q id = some v
  · exact .inl ⟨ho, _, (hQ.report hq hc ho).1⟩
  · rcases (hQ.refuse hq hc ho).1 with hr | ⟨⟨i, u, secs, hi⟩, -⟩
    · exact .inr ⟨ho, hr⟩
    · exact absurd hi (hrenew i u secs)

theorem claim_cases (hQ : Q.Fences Inv has owner)
    (hclaim : ∀ q secs now later, Inv q → ∃ x,
      (Q.step ⟨.claim w.workerId secs, now, later⟩ q).1 = .ok (.claimed x))
    (hq : Inv s.queue) (hst : s.stage = .claiming) (hx : s.item = none) {now later : Time}
    (h : w.step repr str s (.call now later) = some s') :
    s'.Sound Inv ∨ s'.stage = .ended (.returned s'.item.isSome) := by
  obtain ⟨c, hc, rfl⟩ := Option.map_eq_some_iff.1 h
  simp only [DistributedWorker.pending, hst, Option.some.injEq] at hc
  subst hc
  obtain ⟨x, hr⟩ := hclaim s.queue w.leaseSeconds now later hq
  rw [hr]
  cases x with
  | none =>
    simp only [DistributedWorker.proceed, hst, hx]
    exact .inr rfl
  | some x =>
    simp only [DistributedWorker.proceed, hst]
    exact .inl (begin_sound (hQ.step hq) rfl rfl)

theorem complete_cases (hQ : Q.Fences Inv has owner) (hq : Inv s.queue) {x : WorkItem V}
    {result : Dict String V} (hst : s.stage = .completing result) (hx : s.item = some x)
    {now later : Time} (h : w.step repr str s (.call now later) = some s') :
    s'.Sound Inv ∨ s'.stage = .ended (.returned s'.item.isSome) := by
  obtain ⟨c, hc, rfl⟩ := Option.map_eq_some_iff.1 h
  simp only [DistributedWorker.pending, hst, hx, Option.some.injEq] at hc
  subst hc
  rcases report_reply hQ hq (c := ⟨.complete x.id w.workerId result, now, later⟩) rfl
    (fun _ _ _ he => by cases he) with ⟨-, r, hr⟩ | ⟨-, hr⟩
  · rw [hr]
    simp only [DistributedWorker.proceed, hst, hx]
    exact .inr rfl
  · rw [hr]
    simp only [DistributedWorker.proceed, hst]
    have he : (Exn.conflict .leaseNotOwned).isException = true := rfl
    exact .inl (recover_sound ⟨he, _, rfl⟩ (hQ.step hq) hx rfl)

/-- A failure is reported just when the worker owns the lease. -/
theorem fail_cases (hQ : Q.Fences Inv has owner) (hq : Inv s.queue) {x : WorkItem V}
    {error : String} (hst : s.stage = .failing error (.returned true)) (hx : s.item = some x)
    {now later : Time} (h : w.step repr str s (.call now later) = some s') :
    owner s.queue x.id = some w.workerId ∧ s'.stage = .ended (.returned s'.item.isSome) ∨
      owner s.queue x.id ≠ some w.workerId ∧ s'.Doomed := by
  obtain ⟨c, hc, rfl⟩ := Option.map_eq_some_iff.1 h
  simp only [DistributedWorker.pending, hst, hx, Option.some.injEq] at hc
  subst hc
  rcases report_reply hQ hq (c := ⟨.fail x.id w.workerId error true, now, later⟩) rfl
    (fun _ _ _ he => by cases he) with ⟨ho, r, hr⟩ | ⟨ho, hr⟩
  · rw [hr]
    simp only [DistributedWorker.proceed, hst, hx]
    exact .inl ⟨ho, rfl⟩
  · rw [hr]
    simp only [DistributedWorker.proceed, hst]
    exact .inr ⟨ho, _, .inl rfl, fun b hb => by cases hb⟩

/-- **What a move leads to** while the call is in order: it stays so, or it returns what it should;
    or the move is none that `Reports` allows, and the call does not return any more. -/
theorem Sound.step_cases (hQ : Q.Fences Inv has owner)
    (hclaim : ∀ q secs now later, Inv q → ∃ x,
      (Q.step ⟨.claim w.workerId secs, now, later⟩ q).1 = .ok (.claimed x))
    (hs : s.Sound Inv) (h : w.step repr str s a = some s') : s'.cancelled = true ∨
      s.Reports owner w a ∧ (s'.Sound Inv ∨ s'.stage = .ended (.returned s'.item.isSome)) ∨
      ¬s.Reports owner w a ∧ s'.Doomed := by
  obtain ⟨hq, hst⟩ := hs
  cases a with
  | others c =>
    cases h
    exact .inr (.inl ⟨trivial, .inl ⟨hQ.step hq, hst⟩⟩)
  | cancel served =>
    left
    simp only [DistributedWorker.step] at h
    split at h <;> cases h
    rfl
  | call now later =>
    right
    rcases hst with ⟨hst, hx⟩ | ⟨x, hx, hst | ⟨result, hst⟩ | ⟨error, hst⟩⟩
    · refine .inl ⟨fun error next x hn => ?_, claim_cases hQ hclaim hq hst hx h⟩
      rw [hst] at hn
      cases hn
    · obtain ⟨c, hc, -⟩ := Option.map_eq_some_iff.1 h
      simp only [DistributedWorker.pending, hst, reduceCtorEq] at hc
    · refine .inl ⟨fun error next x hn => ?_, complete_cases hQ hq hst hx h⟩
      rw [hst] at hn
      cases hn
    · rcases fail_cases hQ hq hst hx h with ⟨ho, he⟩ | ⟨ho, hd⟩
      · refine .inl ⟨fun error next y _ hy => ?_, .inr he⟩
        rw [hx] at hy
        cases hy
        exact ho
      · exact .inr ⟨fun hr => ho (hr error _ x hst hx), hd⟩
  | returned result =>
    simp only [DistributedWorker.step] at h
    split at h <;> cases h
    rename_i hhandling
    obtain ⟨x, hx, -⟩ : ∃ x, s.item = some x ∧ _ := by
      rcases hst with ⟨hst, -⟩ | hst
      · rw [hst] at hhandling
        cases hhandling
      · exact hst
    exact .inr (.inl ⟨trivial, .inl ⟨hq, .inr ⟨x, hx, .inr (.inl ⟨result, rfl⟩)⟩⟩⟩)
  | raised e text =>
    have hx : ∃ x, s.item = some x := by
      rcases hst with ⟨hst, -⟩ | ⟨x, hx, -⟩
      · simp only [DistributedWorker.step, hst, reduceCtorEq] at h
      · exact ⟨x, hx⟩
    obtain ⟨x, hx⟩ := hx
    have hs' : s' = { s with stage := DistributedWorker.recover e text } := by
      simp only [DistributedWorker.step] at h
      split at h <;> cases h <;> rfl
    subst hs'
    by_cases he : e.isException = true ∧ ∃ error, text = .ok error
    · exact .inr (.inl ⟨he, .inl (recover_sound he hq hx rfl)⟩)
    · exact .inr (.inr ⟨he, recover_doomed he rfl⟩)
  | exited typeName =>
    simp only [DistributedWorker.step] at h
    split at h <;> cases h
    exact .inr (.inr ⟨fun hr => hr, _, .inl rfl, fun b hb => by cases hb⟩)

/-! ### Runs -/

theorem cancelled_play {l : List (RunOnceAct V)} (h : play (w.step repr str) s l = some s')
    (hc : s'.cancelled = false) : s.cancelled = false := by
  induction l generalizing s with
  | nil => cases h; exact hc
  | cons a l ih =>
    obtain ⟨s₁, h₁, h⟩ := Option.bind_eq_some_iff.1 h
    cases hcs : s.cancelled with
    | false => rfl
    | true => exact absurd ((ih h).symm.trans (cancelled_step h₁ hcs)) Bool.false_ne_true

/-- Only others go on when the call has ended. -/
theorem ended_step (hst : s.stage = .ended o) (h : w.step repr str s a = some s') :
    (∃ c, a = .others c) ∧ s'.stage = .ended o ∧ s'.item = s.item := by
  cases a with
  | others c => cases h; exact ⟨⟨c, rfl⟩, hst, rfl⟩
  | call now later =>
    obtain ⟨c, hc, -⟩ := Option.map_eq_some_iff.1 h
    simp only [DistributedWorker.pending, hst, reduceCtorEq] at hc
  | returned | raised | exited | cancel =>
    simp only [DistributedWorker.step, hst, reduceCtorEq] at h

theorem ended_play {l : List (RunOnceAct V)} (hst : s.stage = .ended o)
    (h : play (w.step repr str) s l = some s') :
    Along (w.step repr str) (Reports owner w) s l ∧ s'.stage = .ended o ∧ s'.item = s.item := by
  induction l generalizing s with
  | nil => cases h; exact ⟨trivial, hst, rfl⟩
  | cons a l ih =>
    obtain ⟨s₁, h₁, h⟩ := Option.bind_eq_some_iff.1 h
    obtain ⟨⟨c, hc⟩, hst₁, hx₁⟩ := ended_step hst h₁
    obtain ⟨hl, hst', hx'⟩ := ih hst₁ h
    exact ⟨(along_cons h₁).2 ⟨by rw [hc]; trivial, hl⟩, hst', hx'.trans hx₁⟩

theorem Doomed.step (hd : s.Doomed) (h : w.step repr str s a = some s')
    (hc : s'.cancelled = false) : s'.Doomed := by
  obtain ⟨o, hst | ⟨error, hst⟩, ho⟩ := hd
  · exact ⟨o, .inl (ended_step hst h).2.1, ho⟩
  · cases a with
    | others c => cases h; exact ⟨o, .inr ⟨error, hst⟩, ho⟩
    | call now later =>
      obtain ⟨c, -, rfl⟩ := Option.map_eq_some_iff.1 h
      generalize (Q.step _ s.queue).1 = reply
      cases reply with
      | ok r => exact ⟨o, .inl (by simp only [DistributedWorker.proceed, hst]), ho⟩
      | error e =>
        refine ⟨.raised e, .inl (by simp only [DistributedWorker.proceed, hst]), fun b hb => ?_⟩
        cases hb
    | cancel served =>
      simp only [DistributedWorker.step, hst, Option.some.injEq] at h
      subst h
      cases hc
    | returned | raised | exited =>
      simp only [DistributedWorker.step, hst, reduceCtorEq] at h

theorem Doomed.play {l : List (RunOnceAct V)} (hd : s.Doomed)
    (h : play (w.step repr str) s l = some s') (hc : s'.cancelled = false) : s'.Doomed := by
  induction l generalizing s with
  | nil => cases h; exact hd
  | cons a l ih =>
    obtain ⟨s₁, h₁, h⟩ := Option.bind_eq_some_iff.1 h
    exact ih (hd.step h₁ (cancelled_play h hc)) h

/-- A call in order returns what it should just when all moves that follow are reported. -/
theorem Sound.returned_iff (hQ : Q.Fences Inv has owner)
    (hclaim : ∀ q secs now later, Inv q → ∃ x,
      (Q.step ⟨.claim w.workerId secs, now, later⟩ q).1 = .ok (.claimed x))
    {l : List (RunOnceAct V)} (hs : s.Sound Inv) (h : play (w.step repr str) s l = some s')
    (hst : s'.stage = .ended o) (hc : s'.cancelled = false) :
    o = .returned s'.item.isSome ↔ Along (w.step repr str) (Reports owner w) s l := by
  induction l generalizing s with
  | nil =>
    cases h
    rcases hs.stage with ⟨he, -⟩ | ⟨_, _, he | ⟨_, he⟩ | ⟨_, he⟩⟩ <;> rw [he] at hst <;> cases hst
  | cons a l ih =>
    obtain ⟨s₁, h₁, h⟩ := Option.bind_eq_some_iff.1 h
    rw [along_cons h₁]
    rcases hs.step_cases hQ hclaim h₁ with hcs | ⟨ha, hs₁ | he⟩ | ⟨ha, hd⟩
    · exact absurd ((cancelled_play h hc).symm.trans hcs) Bool.false_ne_true
    · rw [ih hs₁ h]
      exact (and_iff_right ha).symm
    · have hplay : Along (w.step repr str) (Reports owner w) s₁ l ∧ _ := ended_play he h
      obtain ⟨hl, hst', hx⟩ := hplay
      rw [hst'] at hst
      cases hst
      exact iff_of_true (congrArg _ (congrArg _ hx.symm)) ⟨ha, hl⟩
    · obtain ⟨o', ho' | ⟨error, ho'⟩, hne⟩ := hd.play h hc
      · rw [ho'] at hst
        cases hst
        exact iff_of_false (hne _) fun hr => ha hr.1
      · rw [ho'] at hst
        cases hst

end

end RunOnce

/-! ### Progress -/

namespace RunOnceStage

/-- How many moves of its own a call has before it. -/
def moves : RunOnceStage V → Nat
  | claiming => 4
  | handling => 3
  | completing _ => 2
  | failing .. => 1
  | ended _ => 0

theorem moves_recover (e : Exn) (text : Except Exn String) :
    (DistributedWorker.recover e text : RunOnceStage V).moves ≤ 1 := by
  unfold DistributedWorker.recover
  split
  · cases text <;> simp [moves]
  · exact Nat.le_refl 1

theorem moves_begin (w : DistributedWorker) (repr : String → String) (x : WorkItem V) :
    (w.begin repr x).moves ≤ 3 := by
  unfold DistributedWorker.begin
  split
  · exact Nat.le_refl 3
  · exact (moves_recover _ _).trans (by omega)

theorem moves_interrupted (stage : RunOnceStage V) :
    (DistributedWorker.interrupted stage).moves ≤ stage.moves := by
  cases stage with
  | completing result => exact (moves_recover .cancelled (.ok "")).trans (Nat.le_succ 1)
  | _ => simp [DistributedWorker.interrupted, moves]

end RunOnceStage

namespace RunOnce

section
variable {Q : WorkQueue V} {w : DistributedWorker} {repr : String → String} {str : Exn → String}
  {s s' : RunOnce Q} {a : RunOnceAct V}

theorem moves_proceed {c : QueueCall V} (hc : w.pending s = some c) (q : Q.State)
    (reply : Except Exn (QueueReply V)) :
    (w.proceed repr str { s with queue := q } reply).stage.moves < s.stage.moves := by
  obtain ⟨q₀, item, stage, cancelled⟩ := s
  cases stage with
  | claiming =>
    rcases reply with e | (_ | (_ | x) | _ | _)
    · exact Nat.zero_lt_succ 3
    · exact Nat.zero_lt_succ 3
    · exact Nat.zero_lt_succ 3
    · exact Nat.lt_succ_of_le (RunOnceStage.moves_begin w repr x)
    · exact Nat.zero_lt_succ 3
    · exact Nat.zero_lt_succ 3
  | handling => cases hc
  | completing result =>
    cases reply with
    | ok r => exact Nat.zero_lt_succ 1
    | error e => exact Nat.lt_succ_of_le (RunOnceStage.moves_recover e (.ok (str e)))
  | failing error next => cases reply <;> exact Nat.zero_lt_one
  | ended o => cases hc

theorem moves_step (h : w.step repr str s a = some s') :
    s'.stage.moves + (if a.isOwn then 1 else 0) ≤ s.stage.moves := by
  cases a with
  | others c => cases h; exact Nat.le_refl _
  | call now later =>
    obtain ⟨c, hc, rfl⟩ := Option.map_eq_some_iff.1 h
    exact moves_proceed hc _ _
  | returned result =>
    simp only [DistributedWorker.step] at h
    split at h <;> cases h
    rename_i hst
    rw [hst]
    exact Nat.le_refl 3
  | raised e text =>
    simp only [DistributedWorker.step] at h
    split at h <;> cases h <;> rename_i hst <;> rw [hst]
    · exact Nat.succ_le_succ ((RunOnceStage.moves_recover e text).trans (by decide))
    · exact Nat.succ_le_succ (RunOnceStage.moves_recover e text)
  | exited typeName =>
    simp only [DistributedWorker.step] at h
    split at h <;> cases h
    rename_i hst
    rw [hst]
    exact Nat.le_add_left 1 2
  | cancel served =>
    simp only [DistributedWorker.step] at h
    split at h <;> cases h
    exact RunOnceStage.moves_interrupted _

theorem moves_play {l : List (RunOnceAct V)} (h : play (w.step repr str) s l = some s') :
    l.countP (·.isOwn) + s'.stage.moves ≤ s.stage.moves := by
  induction l generalizing s with
  | nil => cases h; simp
  | cons a l ih =>
    obtain ⟨s₁, h₁, h⟩ := Option.bind_eq_some_iff.1 h
    have hstep := moves_step h₁
    have hrest := ih h
    rw [List.countP_cons]
    omega

/-- The item is there once it is claimed. -/
def Held (s : RunOnce Q) : Prop :=
  s.stage = .claiming ∨ (∃ o, s.stage = .ended o) ∨ s.item.isSome

theorem held_proceed {c : QueueCall V} (hc : w.pending s = some c) (q : Q.State)
    (reply : Except Exn (QueueReply V)) : (w.proceed repr str { s with queue := q } reply).Held := by
  obtain ⟨q₀, item, stage, cancelled⟩ := s
  cases stage with
  | claiming =>
    rcases reply with e | (_ | (_ | x) | _ | _)
    · exact .inr (.inl ⟨_, rfl⟩)
    · exact .inr (.inl ⟨_, rfl⟩)
    · exact .inr (.inl ⟨_, rfl⟩)
    · exact .inr (.inr rfl)
    · exact .inr (.inl ⟨_, rfl⟩)
    · exact .inr (.inl ⟨_, rfl⟩)
  | completing result =>
    cases item with
    | none => cases hc
    | some x => cases reply <;> exact .inr (.inr rfl)
  | failing error next => cases reply <;> exact .inr (.inl ⟨_, rfl⟩)
  | handling | ended => cases hc

theorem Held.step (hs : s.Held) (h : w.step repr str s a = some s') : s'.Held := by
  have hkept : ∀ {stage : RunOnceStage V} {b : Bool} {q : Q.State}, s.stage ≠ .claiming →
      (∀ o, s.stage ≠ .ended o) →
      Held ({ queue := q, item := s.item, stage, cancelled := b } : RunOnce Q) := by
    intro stage b q hclaim hended
    rcases hs with hst | ⟨o, hst⟩ | hx
    · exact absurd hst hclaim
    · exact absurd hst (hended o)
    · exact .inr (.inr hx)
  cases a with
  | others c => cases h; exact hs
  | call now later =>
    obtain ⟨c, hc, rfl⟩ := Option.map_eq_some_iff.1 h
    exact held_proceed hc _ _
  | returned | raised | exited =>
    simp only [DistributedWorker.step] at h
    split at h <;> cases h <;> rename_i hst <;> exact hkept (by simp [hst]) (by simp [hst])
  | cancel served =>
    simp only [DistributedWorker.step] at h
    split at h <;> cases h
    rename_i hended
    cases hst : s.stage with
    | claiming => exact .inr (.inl ⟨.raised .cancelled, rfl⟩)
    | _ => exact hkept (by simp [hst]) hended

theorem Held.play {l : List (RunOnceAct V)} (hs : s.Held)
    (h : play (w.step repr str) s l = some s') : s'.Held := by
  induction l generalizing s with
  | nil => cases h; exact hs
  | cons a l ih =>
    obtain ⟨s₁, h₁, h⟩ := Option.bind_eq_some_iff.1 h
    exact ih (hs.step h₁) h

/-- A call goes on until it has ended, as soon as the queue replies or the handler ends. -/
def GoesOn (w : DistributedWorker) (repr : String → String) (str : Exn → String)
    (s : RunOnce Q) : Prop :=
  (∃ o, s.stage = .ended o) ∨
  (s.stage = .handling ∧ (∀ result, (w.step repr str s (.returned result)).isSome) ∧
    (∀ e text, (w.step repr str s (.raised e text)).isSome) ∧
    ∀ typeName, (w.step repr str s (.exited typeName)).isSome) ∨
  ∀ now later, (w.step repr str s (.call now later)).isSome

theorem Held.goesOn (hs : s.Held) : s.GoesOn w repr str := by
  obtain ⟨q, item, stage, cancelled⟩ := s
  cases stage with
  | claiming => exact .inr (.inr fun _ _ => rfl)
  | handling => exact .inr (.inl ⟨rfl, fun _ => rfl, fun _ _ => rfl, fun _ => rfl⟩)
  | ended o => exact .inl ⟨o, rfl⟩
  | completing | failing =>
    obtain ⟨x, rfl⟩ : ∃ x, item = some x := by
      rcases hs with hst | ⟨o, hst⟩ | hx
      · cases hst
      · cases hst
      · exact Option.isSome_iff_exists.1 hx
    exact .inr (.inr fun _ _ => rfl)

end

end RunOnce

/-! ### The queues -/

theorem InMemoryWorkQueue.claim_ok (q : InMemoryWorkQueue V) (v : String) (secs : Int)
    (now later : Time) : ∃ x,
      ((InMemoryWorkQueue.queue V).step ⟨.claim v secs, now, later⟩ q).1 = .ok (.claimed x) := by
  simp only [InMemoryWorkQueue.queue, InMemoryWorkQueue.step, InMemoryWorkQueue.claim]
  split
  · exact ⟨none, rfl⟩
  · exact ⟨_, rfl⟩

theorem PostgresWorkQueue.Rows.claim_ok {scan : List (WorkRow V) → List (WorkRow V)}
    (hscan : ∀ rows, (scan rows).Perm rows) {rows : List (WorkRow V)} (h : Rows rows) (v : String)
    (secs : Int) (now later : Time) : ∃ x,
      ((queue scan).step ⟨.claim v secs, now, later⟩ rows).1 = .ok (.claimed x) := by
  simp only [queue, PostgresWorkQueue.step, PostgresWorkQueue.claim]
  split
  · exact ⟨none, rfl⟩
  · rename_i r hr
    have hm : r ∈ rows := (hscan rows).mem_iff.1 (List.mem_filter.1 (earliest_mem hr)).1
    obtain ⟨y, hy, -⟩ := (h.dumped r hm).claim now v secs
    rw [hy, WorkItem.validate_dump]
    exact ⟨some y, rfl⟩

theorem WorkQueue.Fences.after {Q : WorkQueue V} {Inv : Q.State → Prop}
    {has : Q.State → String → Prop} {owner : Q.State → String → Option String}
    (hQ : Q.Fences Inv has owner) (calls : List (TimedCall V)) : Inv (Q.after calls) := by
  induction calls with
  | nil => exact hQ.init
  | cons c past ih => exact hQ.step ih

/-! ## Robustness -/

namespace RunOnce

section
variable (Q : WorkQueue V) (owner : Q.State → String → Option String) (w : DistributedWorker)
  (repr : String → String) (str : Exn → String) (calls : List (TimedCall V))
  (acts : List (RunOnceAct V))

/-- A call on a queue after the calls goes on until it has ended, after four moves of its own at
    most. If its task is not cancelled, it ends robustly just when it reports. -/
def Settled : Prop :=
  ∀ s, play (w.step repr str) { queue := Q.after calls : RunOnce Q } acts = some s →
    s.GoesOn w repr str ∧ acts.countP (·.isOwn) ≤ 4 ∧
    ∀ o, s.stage = .ended o → s.cancelled = false →
      (s.Robust ↔ Along (w.step repr str) (Reports owner w) { queue := Q.after calls } acts)

variable {Q owner w repr str calls acts}

theorem settled {Inv : Q.State → Prop} {has : Q.State → String → Prop}
    (hQ : Q.Fences Inv has owner)
    (hclaim : ∀ q secs now later, Inv q → ∃ x,
      (Q.step ⟨.claim w.workerId secs, now, later⟩ q).1 = .ok (.claimed x)) :
    Settled Q owner w repr str calls acts := by
  intro s h
  have hheld : Held ({ queue := Q.after calls } : RunOnce Q) := .inl rfl
  have hmoves := moves_play h
  refine ⟨(hheld.play h).goesOn, le_trans (Nat.le_add_right _ _) hmoves, fun o hst hc => ?_⟩
  have hsound : Sound Inv ({ queue := Q.after calls } : RunOnce Q) :=
    ⟨hQ.after calls, .inl ⟨rfl, rfl⟩⟩
  rw [← hsound.returned_iff hQ hclaim h hst hc]
  constructor
  · exact fun hr => hr hc o hst
  · rintro rfl hc o' ho'
    rw [hst] at ho'
    cases ho'
    rfl

end

end RunOnce

/-- **`run_once` is robust** just when its handler returns or raises an `Exception`, and the item is
    still leased to the worker when `fail` is called: on either queue, whatever others ask of it
    meanwhile. -/
theorem run_once_iff {scan : List (WorkRow V) → List (WorkRow V)}
    (hscan : ∀ rows, (scan rows).Perm rows) (w : DistributedWorker) (repr : String → String)
    (str : Exn → String) (calls : List (TimedCall V)) (acts : List (RunOnceAct V)) :
    RunOnce.Settled (InMemoryWorkQueue.queue V) InMemoryWorkQueue.owner w repr str calls acts ∧
    RunOnce.Settled (PostgresWorkQueue.queue scan) PostgresWorkQueue.owner w repr str calls acts :=
  ⟨RunOnce.settled InMemoryWorkQueue.fences fun q _ _ _ _ => q.claim_ok _ _ _ _,
    RunOnce.settled (PostgresWorkQueue.fences hscan) fun _ _ _ _ h => h.claim_ok hscan _ _ _ _⟩

namespace RunOnce

/-- The worker of the sample item. -/
def sampleWorker : DistributedWorker := { workerId := "w", kinds := [sampleThree.kind] }

/-- The handler takes longer than the lease, and another worker claims the item. -/
def lapsed : List (RunOnceAct Unit) :=
  [.call 0 0, .others { call := .claim "v" 30, now := 40 }, .returned [], .call 41 41, .call 42 42]

end RunOnce

theorem run_once_iff_sample :
    RunOnce.Settled (InMemoryWorkQueue.queue Unit) InMemoryWorkQueue.owner RunOnce.sampleWorker id
      Exn.typeName [{ call := .enqueue sampleThree, now := 0 }] RunOnce.lapsed ∧
    RunOnce.Settled (PostgresWorkQueue.queue id) PostgresWorkQueue.owner RunOnce.sampleWorker id
      Exn.typeName [{ call := .enqueue sampleThree, now := 0 }] RunOnce.lapsed :=
  run_once_iff (fun _ => .refl _) _ _ _ _ _

/-- Both reports are refused, and the second refusal is raised. -/
theorem run_once_raises : ¬ ∀ (w : DistributedWorker) (repr : String → String)
    (str : Exn → String) (calls : List (TimedCall Unit)) (acts : List (RunOnceAct Unit)) s,
    play (w.step repr str)
      { queue := (InMemoryWorkQueue.queue Unit).after calls : RunOnce _ } acts = some s →
    s.Robust := by
  intro h
  have hrun : ((play (RunOnce.sampleWorker.step id Exn.typeName)
      { queue := (InMemoryWorkQueue.queue Unit).after
          [{ call := .enqueue sampleThree, now := 0 }] : RunOnce _ } RunOnce.lapsed).map fun s =>
        match s.stage with
        | .ended o => (s.cancelled, o)
        | .claiming | .handling | .completing _ | .failing .. => (true, .returned true)) =
      some (false, .raised (.conflict .leaseNotOwned)) := by decide +kernel
  obtain ⟨s, hs, hout⟩ := Option.map_eq_some_iff.1 hrun
  have hr := h _ _ _ _ _ s hs
  split at hout
  · rename_i o hst
    obtain ⟨hc, rfl⟩ := Prod.mk.inj hout
    cases hr hc _ hst
  all_goals cases hout

end TracciaRuntime
