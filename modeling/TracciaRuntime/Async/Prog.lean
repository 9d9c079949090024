/-
  Asynchronous programs.

  A task of a cooperative scheduler runs without interruption from one `await`
  to the next.  `Prog Resp ε α` is such a task: it has returned, it has raised,
  or it waits for an operation `o` and goes on with the answer `Resp o` or with
  the exception the operation raised.  The flag of an `await` says whether it
  lies inside a timeout block, whose timer can strike there (`Prog.timed`).

  * `Prog` is a monad with exceptions, so that a coroutine is written as a
    `do` block with `try`/`catch`;
  * `Prog.Uses P p`: the program `p` only awaits operations in `P`;
  * `Prog.Calm P X p`: moreover it only raises exceptions in `X` and those that
    an operation raised;
  * `Prog.Ends P p`: what it returns satisfies `P`;
  * `Prog.Path p ops x`: with some answers, `p` awaits `ops` and ends with `x`;
  * `Prog.Residual p q`: with some answers, `q` is what is left of `p`;
  * `Prog.Gives A p x`: with answers in `A`, `p` ends with `x`.
-/
import Mathlib.Logic.Basic

namespace Async

variable {Op : Type} {Resp : Op → Type} {ε α β : Type}

/-- A task between two awaits. -/
inductive Prog (Resp : Op → Type) (ε α : Type) : Type where
  | pure (a : α)
  | raise (e : ε)
  /-- wait for `o`; `timed` awaits lie inside a timeout block -/
  | await (timed : Bool) (o : Op) (k : Except ε (Resp o) → Prog Resp ε α)

namespace Prog

def bind : Prog Resp ε α → (α → Prog Resp ε β) → Prog Resp ε β
  | pure a, f => f a
  | raise e, _ => raise e
  | await b o k, f => await b o fun r => (k r).bind f

/-- `try p except e: h e`. -/
def handle : Prog Resp ε α → (ε → Prog Resp ε α) → Prog Resp ε α
  | pure a, _ => pure a
  | raise e, h => h e
  | await b o k, h => await b o fun r => (k r).handle h

instance : Monad (Prog Resp ε) where
  pure := pure
  bind := bind

instance : MonadExcept ε (Prog Resp ε) where
  throw := raise
  tryCatch := handle

/-- Wait for one operation. -/
def call (o : Op) : Prog Resp ε (Resp o) :=
  await false o fun
    | .ok a => pure a
    | .error e => raise e

/-- A computation without await. -/
def lift : Except ε α → Prog Resp ε α
  | .ok a => pure a
  | .error e => raise e

/-- `if c: raise e`. -/
def raiseIf (c : Bool) (e : ε) : Prog Resp ε Unit := if c then raise e else pure ()

/-- `try p finally f`. -/
def ensure (p : Prog Resp ε α) (f : Prog Resp ε Unit) : Prog Resp ε α :=
  (p.handle fun e => f.bind fun _ => raise e).bind fun a => f.bind fun _ => pure a

/-- The body of a timeout block: the timer can strike at each of its awaits. -/
def timed : Prog Resp ε α → Prog Resp ε α
  | pure a => pure a
  | raise e => raise e
  | await _ o k => await true o fun r => (k r).timed

/-- The outcome of a task that has ended. -/
def result : Prog Resp ε α → Option (Except ε α)
  | pure a => some (.ok a)
  | raise e => some (.error e)
  | await .. => none

theorem bind_assoc {γ : Type} (p : Prog Resp ε α) (f : α → Prog Resp ε β)
    (g : β → Prog Resp ε γ) : p >>= f >>= g = p >>= fun a => f a >>= g := by
  induction p with
  | pure a => rfl
  | raise e => rfl
  | await b o k ih => exact congrArg (Prog.await b o) (funext ih)

/-! ## The operations a program can reach -/

/-- `p` only awaits operations in `P`. -/
def Uses (P : Op → Prop) : Prog Resp ε α → Prop
  | pure _ => True
  | raise _ => True
  | await _ o k => P o ∧ ∀ r, (k r).Uses P

section
variable {P : Op → Prop}

theorem Uses.bind {p : Prog Resp ε α} {f : α → Prog Resp ε β} (hp : p.Uses P)
    (hf : ∀ a, (f a).Uses P) : (p >>= f).Uses P := by
  induction p with
  | pure a => exact hf a
  | raise e => trivial
  | await b o k ih => exact ⟨hp.1, fun r => ih r (hp.2 r)⟩

theorem Uses.handle {p : Prog Resp ε α} {h : ε → Prog Resp ε α} (hp : p.Uses P)
    (hh : ∀ e, (h e).Uses P) : (tryCatch p h).Uses P := by
  induction p with
  | pure a => trivial
  | raise e => exact hh e
  | await b o k ih => exact ⟨hp.1, fun r => ih r (hp.2 r)⟩

theorem Uses.call {o : Op} (h : P o) : (call o : Prog Resp ε (Resp o)).Uses P :=
  ⟨h, fun r => by cases r <;> trivial⟩

theorem Uses.lift (x : Except ε α) : (lift x : Prog Resp ε α).Uses P := by
  cases x <;> trivial

theorem Uses.raiseIf (c : Bool) (e : ε) : (raiseIf c e : Prog Resp ε Unit).Uses P := by
  cases c <;> trivial

theorem Uses.ensure {p : Prog Resp ε α} {f : Prog Resp ε Unit} (hp : p.Uses P) (hf : f.Uses P) :
    (p.ensure f).Uses P := by
  refine Uses.bind (Uses.handle hp fun e => ?_) fun a => ?_
  · exact Uses.bind (f := fun _ => raise e) hf fun _ => trivial
  · exact Uses.bind (f := fun _ => Prog.pure a) hf fun _ => trivial

theorem Uses.mono {P' : Op → Prop} {p : Prog Resp ε α} (hp : p.Uses P) (h : ∀ o, P o → P' o) :
    p.Uses P' := by
  induction p with
  | pure a => trivial
  | raise e => trivial
  | await b o k ih => exact ⟨h o hp.1, fun r => ih r (hp.2 r)⟩

theorem Uses.all (h : ∀ o, P o) (p : Prog Resp ε α) : p.Uses P := by
  induction p with
  | pure a => trivial
  | raise e => trivial
  | await b o k ih => exact ⟨h o, ih⟩

theorem Uses.timed {p : Prog Resp ε α} (hp : p.Uses P) : p.timed.Uses P := by
  induction p with
  | pure a => trivial
  | raise e => trivial
  | await b o k ih => exact ⟨hp.1, fun r => ih r (hp.2 r)⟩

theorem Uses.pure (a : α) : (Pure.pure a : Prog Resp ε α).Uses P := trivial

theorem Uses.throw (e : ε) : (throw e : Prog Resp ε α).Uses P := trivial

end

/-! ## The exceptions a program can raise -/

/-- `p` only awaits operations in `P`, and only raises exceptions in `X` or those that an
    operation has raised before. -/
def Calm (P : Op → Prop) : (ε → Prop) → Prog Resp ε α → Prop
  | _, pure _ => True
  | X, raise e => X e
  | X, await _ o k => P o ∧ (∀ a, Calm P X (k (.ok a))) ∧
      ∀ e, Calm P (fun e' => X e' ∨ e' = e) (k (.error e))

section
variable {P : Op → Prop} {X : ε → Prop}

theorem Calm.mono {X' : ε → Prop} {p : Prog Resp ε α} (hp : Calm P X p) (h : ∀ e, X e → X' e) :
    Calm P X' p := by
  induction p generalizing X X' with
  | pure a => trivial
  | raise e => exact h e hp
  | await b o k ih =>
    refine ⟨hp.1, fun a => ih _ (hp.2.1 a) h, fun e => ih _ (hp.2.2 e) fun e' he' => ?_⟩
    exact he'.imp_left (h e')

theorem Calm.mono_op {P' : Op → Prop} {p : Prog Resp ε α} (hp : Calm P X p)
    (h : ∀ o, P o → P' o) : Calm P' X p := by
  induction p generalizing X with
  | pure a => trivial
  | raise e => exact hp
  | await b o k ih => exact ⟨h o hp.1, fun a => ih _ (hp.2.1 a), fun e => ih _ (hp.2.2 e)⟩

theorem Calm.uses {p : Prog Resp ε α} (hp : Calm P X p) : p.Uses P := by
  induction p generalizing X with
  | pure a => trivial
  | raise e => trivial
  | await b o k ih =>
    refine ⟨hp.1, fun r => ?_⟩
    cases r with
    | ok a => exact ih _ (hp.2.1 a)
    | error e => exact ih _ (hp.2.2 e)

theorem Calm.of_uses {p : Prog Resp ε α} (hp : p.Uses P) (hX : ∀ e, X e) : Calm P X p := by
  induction p generalizing X with
  | pure a => trivial
  | raise e => exact hX e
  | await b o k ih => exact ⟨hp.1, fun a => ih _ (hp.2 _) hX, fun e => ih _ (hp.2 _) fun e' => Or.inl (hX e')⟩

theorem Calm.bind {p : Prog Resp ε α} {f : α → Prog Resp ε β} (hp : Calm P X p)
    (hf : ∀ a, Calm P X (f a)) : Calm P X (p >>= f) := by
  induction p generalizing X with
  | pure a => exact hf a
  | raise e => exact hp
  | await b o k ih =>
    refine ⟨hp.1, fun a => ih _ (hp.2.1 a) hf, fun e => ih _ (hp.2.2 e) fun a => ?_⟩
    exact (hf a).mono fun _ => Or.inl

theorem Calm.handle {p : Prog Resp ε α} {h : ε → Prog Resp ε α} (hp : Calm P X p)
    (hh : ∀ e, Calm P (fun e' => X e' ∨ e' = e) (h e)) : Calm P X (tryCatch p h) := by
  induction p generalizing X with
  | pure a => trivial
  | raise e =>
    refine (hh e).mono fun e' he' => ?_
    rcases he' with he' | rfl
    · exact he'
    · exact hp
  | await b o k ih =>
    refine ⟨hp.1, fun a => ih _ (hp.2.1 a) hh, fun e => ih _ (hp.2.2 e) fun e' => ?_⟩
    exact (hh e').mono fun _ => Or.imp_left Or.inl

theorem Calm.call {o : Op} (h : P o) : Calm P X (call o : Prog Resp ε (Resp o)) :=
  ⟨h, fun _ => trivial, fun _ => Or.inr rfl⟩

theorem Calm.lift {x : Except ε α} (h : ∀ e, x = .error e → X e) :
    Calm P X (lift x : Prog Resp ε α) := by
  cases x with
  | ok a => trivial
  | error e => exact h e rfl

theorem Calm.raiseIf {c : Bool} {e : ε} (h : X e) : Calm P X (raiseIf c e : Prog Resp ε Unit) := by
  cases c
  · trivial
  · exact h

theorem Calm.pure (a : α) : Calm P X (Pure.pure a : Prog Resp ε α) := trivial

theorem Calm.throw {e : ε} (h : X e) : Calm P X (throw e : Prog Resp ε α) := h

theorem Calm.ensure {p : Prog Resp ε α} {f : Prog Resp ε Unit} (hp : Calm P X p)
    (hf : Calm P X f) : Calm P X (p.ensure f) := by
  refine Calm.bind (Calm.handle hp fun e => ?_) fun a => ?_
  · exact Calm.bind (f := fun _ => raise e) (hf.mono fun _ => Or.inl) fun _ => Or.inr rfl
  · exact Calm.bind (f := fun _ => Prog.pure a) hf fun _ => trivial

end

/-! ## The values a program can return -/

/-- What `p` returns satisfies `P`. -/
def Ends (P : α → Prop) : Prog Resp ε α → Prop
  | pure a => P a
  | raise _ => True
  | await _ _ k => ∀ r, (k r).Ends P

section
variable {P : α → Prop}

theorem Ends.any (p : Prog Resp ε α) : p.Ends fun _ => True := by
  induction p with
  | pure a => trivial
  | raise e => trivial
  | await b o k ih => exact ih

theorem Ends.mono {P' : α → Prop} {p : Prog Resp ε α} (hp : p.Ends P) (h : ∀ a, P a → P' a) :
    p.Ends P' := by
  induction p with
  | pure a => exact h a hp
  | raise e => trivial
  | await b o k ih => exact fun r => ih r (hp r)

theorem Ends.bind {P' : β → Prop} {p : Prog Resp ε α} {f : α → Prog Resp ε β} (hp : p.Ends P)
    (hf : ∀ a, P a → (f a).Ends P') : (p >>= f).Ends P' := by
  induction p with
  | pure a => exact hf a hp
  | raise e => trivial
  | await b o k ih => exact fun r => ih r (hp r)

/-- What comes first does not matter. -/
theorem Ends.after {P' : β → Prop} (p : Prog Resp ε α) {f : α → Prog Resp ε β}
    (hf : ∀ a, (f a).Ends P') : (p >>= f).Ends P' :=
  (Ends.any p).bind fun a _ => hf a

theorem Ends.handle {p : Prog Resp ε α} {h : ε → Prog Resp ε α} (hp : p.Ends P)
    (hh : ∀ e, (h e).Ends P) : (tryCatch p h).Ends P := by
  induction p with
  | pure a => exact hp
  | raise e => exact hh e
  | await b o k ih => exact fun r => ih r (hp r)

theorem Ends.ensure {p : Prog Resp ε α} {f : Prog Resp ε Unit} (hp : p.Ends P) :
    (p.ensure f).Ends P := by
  refine Ends.bind (P := P) (Ends.handle hp fun e => ?_) fun a ha => ?_
  · exact Ends.after (f := fun _ => raise e) f fun _ => trivial
  · exact Ends.after (f := fun _ => Prog.pure a) f fun _ => ha

theorem Ends.pure {a : α} (h : P a) : (Pure.pure a : Prog Resp ε α).Ends P := h

theorem Ends.throw (e : ε) : (throw e : Prog Resp ε α).Ends P := trivial

/-- Programs that agree after every value that `p` returns. -/
theorem Ends.bind_congr {p : Prog Resp ε α} {f g : α → Prog Resp ε β} (hp : p.Ends P)
    (h : ∀ a, P a → f a = g a) : p >>= f = p >>= g := by
  induction p with
  | pure a => exact h a hp
  | raise e => rfl
  | await b o k ih => exact congrArg (Prog.await b o) (funext fun r => ih r (hp r))

end

/-! ## The paths through a program -/

/-- With some answers, the program awaits these operations and ends with this outcome. -/
inductive Path : Prog Resp ε α → List Op → Except ε α → Prop
  | pure (a : α) : Path (pure a) [] (.ok a)
  | raise (e : ε) : Path (raise e) [] (.error e)
  | await {b : Bool} {o : Op} {k : Except ε (Resp o) → Prog Resp ε α} {ops : List Op}
      {x : Except ε α} (r : Except ε (Resp o)) : Path (k r) ops x → Path (await b o k) (o :: ops) x

/-- The path through a sequence. -/
theorem Path.bind_cases {p : Prog Resp ε α} {f : α → Prog Resp ε β} {ops : List Op}
    {x : Except ε β} (h : Path (p >>= f) ops x) :
    (∃ e, x = .error e ∧ Path p ops (.error e)) ∨
      ∃ a ops₁ ops₂, ops = ops₁ ++ ops₂ ∧ Path p ops₁ (.ok a) ∧ Path (f a) ops₂ x := by
  induction p generalizing ops with
  | pure a => exact Or.inr ⟨a, [], ops, rfl, .pure a, h⟩
  | raise e =>
    cases h with
    | raise => exact Or.inl ⟨e, rfl, .raise e⟩
  | await b o k ih =>
    cases h with
    | await r h =>
      rcases ih r h with ⟨e, rfl, hp⟩ | ⟨a, ops₁, ops₂, rfl, h₁, h₂⟩
      · exact Or.inl ⟨e, rfl, .await r hp⟩
      · exact Or.inr ⟨a, o :: ops₁, ops₂, rfl, .await r h₁, h₂⟩

theorem Path.call_eq {o : Op} {ops : List Op} {x : Except ε (Resp o)}
    (h : Path (call o : Prog Resp ε (Resp o)) ops x) : ops = [o] := by
  cases h with
  | await r h => cases r <;> cases h <;> rfl

theorem Path.ends {P : α → Prop} {p : Prog Resp ε α} {ops : List Op} {a : α}
    (h : Path p ops (.ok a)) (hp : p.Ends P) : P a := by
  generalize hx : (Except.ok a : Except ε α) = x at h
  induction h with
  | pure b => cases hx; exact hp
  | raise e => cases hx
  | await r _ ih => exact ih (hp r) hx

theorem Path.uses {P : Op → Prop} {p : Prog Resp ε α} {ops : List Op} {x : Except ε α}
    (h : Path p ops x) (hp : p.Uses P) : ∀ o ∈ ops, P o := by
  induction h with
  | pure a => intro o ho; cases ho
  | raise e => intro o ho; cases ho
  | await r _ ih =>
    intro o ho
    rcases List.mem_cons.1 ho with rfl | ho
    · exact hp.1
    · exact ih (hp.2 r) o ho

/-! ## What is left of a program -/

/-- `q` is what is left of `p` after some awaits. -/
inductive Residual (p : Prog Resp ε α) : Prog Resp ε α → Prop
  | refl : Residual p p
  | await {b : Bool} {o : Op} {k : Except ε (Resp o) → Prog Resp ε α} (r : Except ε (Resp o)) :
      Residual p (await b o k) → Residual p (k r)

theorem Residual.uses {P : Op → Prop} {p q : Prog Resp ε α} (h : Residual p q) (hp : p.Uses P) :
    q.Uses P := by
  induction h with
  | refl => exact hp
  | await r _ ih => exact ih.2 r

/-! ## What a program gives with some answers -/

/-- With answers in `A`, the program ends with this outcome. -/
inductive Gives (A : (o : Op) → Except ε (Resp o) → Prop) : Prog Resp ε α → Except ε α → Prop
  | pure (a : α) : Gives A (pure a) (.ok a)
  | raise (e : ε) : Gives A (raise e) (.error e)
  | await {b : Bool} {o : Op} {k : Except ε (Resp o) → Prog Resp ε α} {x : Except ε α}
      (r : Except ε (Resp o)) : A o r → Gives A (k r) x → Gives A (await b o k) x

section
variable {A : (o : Op) → Except ε (Resp o) → Prop}

/-- A sequence that returns. -/
theorem Gives.bind_ok {p : Prog Resp ε α} {f : α → Prog Resp ε β} {y : β}
    (h : Gives A (p >>= f) (.ok y)) : ∃ a, Gives A p (.ok a) ∧ Gives A (f a) (.ok y) := by
  induction p with
  | pure a => exact ⟨a, .pure a, h⟩
  | raise e => cases h
  | await b o k ih =>
    cases h with
    | await r hr h =>
      obtain ⟨a, hp, hf⟩ := ih r h
      exact ⟨a, .await r hr hp, hf⟩

theorem Gives.call_ok {o : Op} {a : Resp o}
    (h : Gives A (call o : Prog Resp ε (Resp o)) (.ok a)) : A o (.ok a) := by
  cases h with
  | await r hr h => cases r <;> cases h; exact hr

theorem Gives.ends {P : α → Prop} {p : Prog Resp ε α} {a : α} (h : Gives A p (.ok a))
    (hp : p.Ends P) : P a := by
  generalize hx : (Except.ok a : Except ε α) = x at h
  induction h with
  | pure b => cases hx; exact hp
  | raise e => cases hx
  | await r _ _ ih => exact ih (hp r) hx

/-- The outcome with fixed answers. -/
def answered (f : (o : Op) → Except ε (Resp o)) : Prog Resp ε α → Except ε α
  | pure a => .ok a
  | raise e => .error e
  | await _ o k => (k (f o)).answered f

theorem gives_answered {f : (o : Op) → Except ε (Resp o)} (hf : ∀ o, A o (f o))
    {p : Prog Resp ε α} {x : Except ε α} (h : p.answered f = x) : Gives A p x := by
  subst h
  induction p with
  | pure a => exact .pure a
  | raise e => exact .raise e
  | await b o k ih => exact .await (f o) (hf o) (ih (f o))

end

end Prog

end Async
