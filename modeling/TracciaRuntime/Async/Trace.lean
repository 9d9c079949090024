/-
  Runs with their events, and what a task has awaited.

  A `Trace` of a system lists its events, newest first: which task entered,
  which await ended how, which task ended with what.  `pastOf t` is the part of
  it that task `t` has seen: its awaits with their answers.

  * `Prog.After p h q`: with the answers `h`, `q` is what is left of `p`;
  * `Prog.Obeys may Q p h`: after the past `h`, the program only awaits what may
    follow its past, and ends in `Q`.  As the past is all that a program can
    know, this is read off its text;
  * `Sys.Trace.after`: in a run, every task is what is left of its program after
    its past, and so is every task at its end.
-/
import TracciaRuntime.Async.Play
import Mathlib.Data.Set.Insert

namespace Async

variable {Op : Type} {Resp : Op → Type} {ε W α β ρ : Type}

/-- The awaits of a task with their answers, newest first. -/
abbrev Past (Resp : Op → Type) (ε : Type) := List ((o : Op) × Except ε (Resp o))

namespace Prog

/-- With the answers `h`, `q` is what is left of `p`. -/
inductive After (p : Prog Resp ε α) : Past Resp ε → Prog Resp ε α → Prop
  | refl : After p [] p
  | await {h : Past Resp ε} {b : Bool} {o : Op} {k : Except ε (Resp o) → Prog Resp ε α}
      (r : Except ε (Resp o)) : After p h (await b o k) → After p (⟨o, r⟩ :: h) (k r)

/-- The program that has ended with this outcome. -/
def ofResult : Except ε α → Prog Resp ε α
  | .ok a => pure a
  | .error e => raise e

theorem eq_ofResult {p : Prog Resp ε α} {x : Except ε α} (h : p.result = some x) :
    p = ofResult x := by
  cases p with
  | pure a => cases h; rfl
  | raise e => cases h; rfl
  | await b o k => cases h

theorem After.head {b : Bool} {o : Op} {k : Except ε (Resp o) → Prog Resp ε α}
    {r : Except ε (Resp o)} {h : Past Resp ε} {q : Prog Resp ε α} (hq : After (k r) h q) :
    After (.await b o k) (h ++ [⟨o, r⟩]) q := by
  induction hq with
  | refl => exact .await r .refl
  | await r' _ ih => exact .await r' ih

/-- Nothing is left of a program that has ended. -/
theorem After.of_result {p q : Prog Resp ε α} {x : Except ε α} {h : Past Resp ε}
    (hp : p.result = some x) (hq : After p h q) : h = [] ∧ q = p := by
  induction hq with
  | refl => exact ⟨rfl, rfl⟩
  | await r _ ih => rw [← ih.2] at hp; cases hp

/-- The first answer. -/
theorem After.await_cases {b : Bool} {o : Op} {k : Except ε (Resp o) → Prog Resp ε α}
    {h : Past Resp ε} {q : Prog Resp ε α} (hq : After (.await b o k) h q) :
    h = [] ∧ q = .await b o k ∨ ∃ r h', h = h' ++ [⟨o, r⟩] ∧ After (k r) h' q := by
  induction hq with
  | refl => exact Or.inl ⟨rfl, rfl⟩
  | await r' _ ih =>
    right
    rcases ih with ⟨rfl, he⟩ | ⟨r, h', rfl, ha⟩
    · cases he
      exact ⟨r', [], rfl, .refl⟩
    · exact ⟨r, _ :: h', rfl, .await r' ha⟩

theorem After.call_cases {o : Op} {h : Past Resp ε} {x : Except ε (Resp o)}
    (hq : After (Prog.call o) h (ofResult x)) : h = [⟨o, x⟩] := by
  rcases After.await_cases hq with ⟨-, hx⟩ | ⟨r, h', rfl, hr⟩
  · cases x <;> cases hx
  · cases r with
    | ok a =>
      obtain ⟨rfl, hx⟩ := After.of_result (x := .ok a) rfl hr
      cases x <;> cases hx
      rfl
    | error e =>
      obtain ⟨rfl, hx⟩ := After.of_result (x := .error e) rfl hr
      cases x <;> cases hx
      rfl

/-- A sequence has ended with its first part, or with its second part after that. -/
theorem After.bind_cases {p : Prog Resp ε α} {f : α → Prog Resp ε β} {h : Past Resp ε}
    {y : Except ε β} (hq : After (p >>= f) h (ofResult y)) :
    (∃ e, After p h (ofResult (.error e)) ∧ y = .error e) ∨
      ∃ a h₁ h₂, h = h₂ ++ h₁ ∧ After p h₁ (ofResult (.ok a)) ∧ After (f a) h₂ (ofResult y) := by
  induction p generalizing h with
  | pure a => exact .inr ⟨a, [], h, by simp, .refl, hq⟩
  | raise e =>
    obtain ⟨rfl, hy⟩ := After.of_result (x := .error e) rfl hq
    refine .inl ⟨e, .refl, ?_⟩
    cases y <;> cases hy
    rfl
  | await b o k ih =>
    rcases After.await_cases hq with ⟨-, hy⟩ | ⟨r, h', rfl, hr⟩
    · cases y <;> cases hy
    · rcases ih r hr with ⟨e, he, hy⟩ | ⟨a, h₁, h₂, rfl, ha, hf⟩
      · exact .inl ⟨e, he.head, hy⟩
      · exact .inr ⟨a, h₁ ++ [⟨o, r⟩], h₂, by simp, ha.head, hf⟩

/-- The first part of a sequence that has ended has ended before, if the second part does not
    await. -/
theorem After.of_bind {p : Prog Resp ε α} {f : α → β} {h : Past Resp ε} {y : Except ε β}
    (hq : After (p >>= fun a => Prog.pure (f a)) h (ofResult y)) :
    ∃ x : Except ε α, After p h (ofResult x) ∧ y = x.map f := by
  rcases hq.bind_cases with ⟨e, he, rfl⟩ | ⟨a, h₁, h₂, rfl, ha, hf⟩
  · exact ⟨.error e, he, rfl⟩
  · obtain ⟨rfl, hy⟩ := After.of_result (x := .ok (f a)) rfl hf
    refine ⟨.ok a, ha, ?_⟩
    cases y <;> cases hy
    rfl

/-! ## What may follow -/

section
variable (may : Past Resp ε → Op → Prop)

/-- After the past `h`, the program only awaits what may follow its past, and ends in `Q`. -/
def Obeys (Q : Except ε α → Past Resp ε → Prop) : Prog Resp ε α → Past Resp ε → Prop
  | pure a, h => Q (.ok a) h
  | raise e, h => Q (.error e) h
  | await _ o k, h => may h o ∧ ∀ r, (k r).Obeys Q (⟨o, r⟩ :: h)

variable {may} {Q : Except ε α → Past Resp ε → Prop} {h : Past Resp ε}

theorem Obeys.ofResult {x : Except ε α} (hx : (Prog.ofResult x).Obeys may Q h) : Q x h := by
  cases x <;> exact hx

theorem Obeys.mono {Q' : Except ε α → Past Resp ε → Prop} {p : Prog Resp ε α}
    (hp : p.Obeys may Q h) (hQ : ∀ x h', Q x h' → Q' x h') : p.Obeys may Q' h := by
  induction p generalizing h with
  | pure a => exact hQ _ _ hp
  | raise e => exact hQ _ _ hp
  | await b o k ih => exact ⟨hp.1, fun r => ih r (hp.2 r)⟩

theorem Obeys.bind {R : Except ε β → Past Resp ε → Prop} {p : Prog Resp ε α}
    {f : α → Prog Resp ε β}
    (hp : p.Obeys may (fun x h' => match x with
      | .ok a => (f a).Obeys may R h'
      | .error e => R (.error e) h') h) :
    (p >>= f).Obeys may R h := by
  induction p generalizing h with
  | pure a => exact hp
  | raise e => exact hp
  | await b o k ih => exact ⟨hp.1, fun r => ih r (hp.2 r)⟩

theorem Obeys.handle {p : Prog Resp ε α} {f : ε → Prog Resp ε α}
    (hp : p.Obeys may (fun x h' => match x with
      | .ok a => Q (.ok a) h'
      | .error e => (f e).Obeys may Q h') h) :
    (tryCatch p f).Obeys may Q h := by
  induction p generalizing h with
  | pure a => exact hp
  | raise e => exact hp
  | await b o k ih => exact ⟨hp.1, fun r => ih r (hp.2 r)⟩

theorem Obeys.ensure {p : Prog Resp ε α} {f : Prog Resp ε Unit}
    (hp : p.Obeys may (fun x h' => f.Obeys may (fun y h'' => match y with
      | .ok _ => Q x h''
      | .error e => Q (.error e) h'') h') h) :
    (p.ensure f).Obeys may Q h := by
  refine Obeys.bind (Obeys.handle (hp.mono fun x h' hx => ?_))
  cases x with
  | ok a =>
    refine Obeys.bind (hx.mono fun y h'' hy => ?_)
    cases y <;> exact hy
  | error e =>
    refine Obeys.bind (hx.mono fun y h'' hy => ?_)
    cases y <;> exact hy

theorem Obeys.call {o : Op} {Q : Except ε (Resp o) → Past Resp ε → Prop} (hm : may h o)
    (hQ : ∀ r, Q r (⟨o, r⟩ :: h)) : (Prog.call o : Prog Resp ε (Resp o)).Obeys may Q h := by
  refine ⟨hm, fun r => ?_⟩
  cases r <;> exact hQ _

theorem Obeys.lift {x : Except ε α} (hx : Q x h) : (Prog.lift x : Prog Resp ε α).Obeys may Q h := by
  cases x <;> exact hx

theorem Obeys.timed {p : Prog Resp ε α} (hp : p.Obeys may Q h) : p.timed.Obeys may Q h := by
  induction p generalizing h with
  | pure a => exact hp
  | raise e => exact hp
  | await b o k ih => exact ⟨hp.1, fun r => ih r (hp.2 r)⟩

/-- What the program returns is known. -/
theorem Obeys.ends {P : α → Prop} {p : Prog Resp ε α} (hp : p.Obeys may Q h) (hP : p.Ends P) :
    p.Obeys may (fun x h' => Q x h' ∧ ∀ a, x = .ok a → P a) h := by
  induction p generalizing h with
  | pure a => exact ⟨hp, fun a' ha' => by cases ha'; exact hP⟩
  | raise e => exact ⟨hp, fun a' ha' => nomatch ha'⟩
  | await b o k ih => exact ⟨hp.1, fun r => ih r (hp.2 r) (hP r)⟩

theorem Obeys.ends_of {P : α → Prop} {p : Prog Resp ε α} (hp : p.Obeys may Q h)
    (hQ : ∀ a h', Q (.ok a) h' → P a) : p.Ends P := by
  induction p generalizing h with
  | pure a => exact hQ a h hp
  | raise e => trivial
  | await b o k ih => exact fun r => ih r (hp.2 r)

/-- What the past is known to hold stays known. -/
theorem Obeys.of_uses {P : Op → Prop} {G : Past Resp ε → Prop}
    (hm : ∀ o h, P o → G h → may h o) (hG : ∀ o r h, P o → G h → G (⟨o, r⟩ :: h))
    {p : Prog Resp ε α} (hp : p.Uses P) (h₀ : G h) : p.Obeys may (fun _ h' => G h') h := by
  induction p generalizing h with
  | pure a => exact h₀
  | raise e => exact h₀
  | await b o k ih => exact ⟨hm o h hp.1 h₀, fun r => ih r (hp.2 r) (hG o r h hp.1 h₀)⟩

theorem Obeys.and {may' : Past Resp ε → Op → Prop} {Q' : Except ε α → Past Resp ε → Prop}
    {p : Prog Resp ε α} (hp : p.Obeys may Q h) (hp' : p.Obeys may' Q' h) :
    p.Obeys may (fun x h' => Q x h' ∧ Q' x h') h := by
  induction p generalizing h with
  | pure a => exact ⟨hp, hp'⟩
  | raise e => exact ⟨hp, hp'⟩
  | await b o k ih => exact ⟨hp.1, fun r => ih r (hp.2 r) (hp'.2 r)⟩

/-- Both rules hold. -/
theorem Obeys.both {may' : Past Resp ε → Op → Prop} {p : Prog Resp ε α} (hp : p.Obeys may Q h)
    (hp' : p.Obeys may' Q h) : p.Obeys (fun h o => may h o ∧ may' h o) Q h := by
  induction p generalizing h with
  | pure a => exact hp
  | raise e => exact hp
  | await b o k ih => exact ⟨⟨hp.1, hp'.1⟩, fun r => ih r (hp.2 r) (hp'.2 r)⟩

/-- What is left of a program goes on as it may. -/
theorem Obeys.after {p q : Prog Resp ε α} {h' : Past Resp ε} (hp : p.Obeys may Q h)
    (hq : After p h' q) : q.Obeys may Q (h' ++ h) := by
  induction hq with
  | refl => exact hp
  | await r _ ih => exact ih.2 r

/-- The end of a program is reached with the answers since its start. -/
theorem Obeys.and_after {p : Prog Resp ε α} (hp : p.Obeys may Q h) :
    p.Obeys may (fun x h' => Q x h' ∧ ∃ l, h' = l ++ h ∧ After p l (Prog.ofResult x)) h := by
  induction p generalizing h with
  | pure a => exact ⟨hp, [], rfl, .refl⟩
  | raise e => exact ⟨hp, [], rfl, .refl⟩
  | await b o k ih =>
    refine ⟨hp.1, fun r => (ih r (hp.2 r)).mono fun x h' hx => ?_⟩
    obtain ⟨hQ, l, rfl, hl⟩ := hx
    exact ⟨hQ, l ++ [⟨o, r⟩], by simp, hl.head⟩

/-- What the program returns, it returns in `Q`. -/
def Returns (may : Past Resp ε → Op → Prop) (Q : α → Past Resp ε → Prop) (p : Prog Resp ε α)
    (h : Past Resp ε) : Prop :=
  p.Obeys may (fun x h' => ∀ a, x = .ok a → Q a h') h

section
variable {Q : α → Past Resp ε → Prop} {R : β → Past Resp ε → Prop} {p : Prog Resp ε α}

theorem Returns.bind {f : α → Prog Resp ε β} (hp : p.Returns may Q h)
    (hf : ∀ a h', Q a h' → (f a).Returns may R h') : (p >>= f).Returns may R h := by
  refine Obeys.bind (hp.mono fun x h' hx => ?_)
  cases x with
  | ok a => exact hf a h' (hx a rfl)
  | error e => exact fun b hb => by cases hb

theorem Returns.mono {Q' : α → Past Resp ε → Prop} (hp : p.Returns may Q h)
    (hQ : ∀ a h', Q a h' → Q' a h') : p.Returns may Q' h :=
  Obeys.mono hp fun _ h' hx a ha => hQ a h' (hx a ha)

theorem Returns.pure {a : α} (ha : Q a h) : (Pure.pure a : Prog Resp ε α).Returns may Q h :=
  fun a' ha' => by cases ha'; exact ha

theorem Returns.throw {e : ε} : (throw e : Prog Resp ε α).Returns may Q h :=
  fun a ha => by cases ha

theorem Returns.call {o : Op} {Q : Resp o → Past Resp ε → Prop} (hm : may h o)
    (hQ : ∀ a, Q a (⟨o, .ok a⟩ :: h)) : (Prog.call o : Prog Resp ε (Resp o)).Returns may Q h :=
  Obeys.call hm fun _ a ha => by cases ha; exact hQ a

theorem Returns.lift {x : Except ε α} (hx : ∀ a, x = .ok a → Q a h) :
    (Prog.lift x : Prog Resp ε α).Returns may Q h :=
  Obeys.lift hx

theorem Returns.raiseIf {c : Bool} {e : ε} {Q : Unit → Past Resp ε → Prop} (hq : Q () h) :
    (Prog.raiseIf c e : Prog Resp ε Unit).Returns may Q h := by
  cases c
  · exact Returns.pure hq
  · exact Returns.throw

theorem Returns.handle {f : ε → Prog Resp ε α} (hp : p.Returns may Q h)
    (hf : ∀ e h', (f e).Returns may Q h') : (tryCatch p f).Returns may Q h := by
  refine Obeys.handle (Obeys.mono hp fun x h' hx => ?_)
  cases x with
  | ok a => exact hx
  | error e => exact hf e h'

theorem Returns.ensure {f : Prog Resp ε Unit} (hp : p.Returns may Q h)
    (hf : ∀ h', f.Obeys may (fun _ _ => True) h')
    (hq : ∀ a h', Q a h' → f.Returns may (fun _ => Q a) h') : (p.ensure f).Returns may Q h := by
  refine Obeys.ensure (Obeys.mono hp fun x h' hx => ?_)
  cases x with
  | ok a =>
    refine Obeys.mono (hq a h' (hx a rfl)) fun y h'' hy => ?_
    cases y with
    | ok u => exact fun b hb => by cases hb; exact hy u rfl
    | error e => exact fun b hb => by cases hb
  | error e =>
    refine (hf h').mono fun y h'' _ => ?_
    cases y <;> exact fun b hb => by cases hb

/-- What the past is known to hold, and the returned value. -/
theorem Returns.of_uses {P : Op → Prop} {G : Past Resp ε → Prop} {E : α → Prop}
    (hm : ∀ o h, P o → G h → may h o) (hG : ∀ o r h, P o → G h → G (⟨o, r⟩ :: h))
    (hp : p.Uses P) (he : p.Ends E) (h₀ : G h) : p.Returns may (fun a h' => G h' ∧ E a) h :=
  ((Obeys.of_uses hm hG hp h₀).ends he).mono fun _ _ hx a ha => ⟨hx.1, hx.2 a ha⟩

end

/-- Every program can end. -/
theorem Obeys.exists_end {p : Prog Resp ε α} (hp : p.Obeys may Q h) (e : ε) :
    ∃ l x, Q x (l ++ h) := by
  induction p generalizing h with
  | pure a => exact ⟨[], _, hp⟩
  | raise e => exact ⟨[], _, hp⟩
  | await b o k ih =>
    obtain ⟨l, x, hx⟩ := ih (.error e) (hp.2 (.error e))
    exact ⟨l ++ [⟨o, .error e⟩], x, by simpa using hx⟩

end

end Prog

/-! ## Traces -/

/-- What happens in a run of a system. -/
inductive Event (Resp : Op → Type) (Ans : Op → Type) (ε ρ : Type) where
  | entered (t : Nat) (p : Prog Resp ε ρ)
  /-- an await of task `t` ended -/
  | awaited (t : Nat) (o : Op) (a : Act Ans ε o) (r : Except ε (Resp o))
  | ended (t : Nat) (x : Except ε ρ)
  | killed (t : Nat)

section
variable {Ans : Op → Type}

/-- The event of a task that ends here. -/
def outcome (t : Nat) (p : Prog Resp ε ρ) : List (Event Resp Ans ε ρ) :=
  match p.result with
  | none => []
  | some x => [.ended t x]

/-- What task `t` has seen since it entered. -/
def pastOf (t : Nat) : List (Event Resp Ans ε ρ) → Past Resp ε
  | [] => []
  | .entered t' _ :: l => if t' = t then [] else pastOf t l
  | .awaited t' o _ r :: l => if t' = t then ⟨o, r⟩ :: pastOf t l else pastOf t l
  | .ended _ _ :: l => pastOf t l
  | .killed _ :: l => pastOf t l

variable {t u : Nat} {l : List (Event Resp Ans ε ρ)} {o : Op} {a : Act Ans ε o}
  {r : Except ε (Resp o)} {p : Prog Resp ε ρ}

@[simp] theorem pastOf_awaited_self :
    pastOf t (.awaited t o a r :: l) = ⟨o, r⟩ :: pastOf t l := if_pos rfl

theorem pastOf_awaited_ne (h : u ≠ t) : pastOf u (.awaited t o a r :: l) = pastOf u l :=
  if_neg (Ne.symm h)

@[simp] theorem pastOf_entered_self : pastOf t (.entered t p :: l) = [] := if_pos rfl

theorem pastOf_entered_ne (h : u ≠ t) : pastOf u (.entered t p :: l) = pastOf u l :=
  if_neg (Ne.symm h)

/-- The end of a task is nothing that it awaits. -/
theorem pastOf_outcome : pastOf u (outcome t p ++ l) = pastOf u l := by
  unfold outcome
  split <;> rfl

/-- A task that enters has no past. -/
theorem pastOf_entered (h : pastOf t l = []) (u : Nat) :
    pastOf u (.entered t p :: l) = pastOf u l := by
  by_cases hu : u = t
  · subst hu; rw [pastOf_entered_self, h]
  · exact pastOf_entered_ne hu

/-- What a task has seen has happened. -/
theorem exists_of_mem_pastOf {x : (o : Op) × Except ε (Resp o)} (h : x ∈ pastOf t l) :
    ∃ a, .awaited t x.1 a x.2 ∈ l := by
  induction l with
  | nil => cases h
  | cons e l ih =>
    have old : x ∈ pastOf t l → ∃ a, .awaited t x.1 a x.2 ∈ e :: l := by
      intro h
      obtain ⟨a, ha⟩ := ih h
      exact ⟨a, List.mem_cons_of_mem _ ha⟩
    cases e with
    | entered u p =>
      simp only [pastOf] at h
      split at h
      · cases h
      · exact old h
    | awaited u o a r =>
      simp only [pastOf] at h
      split at h
      · rename_i hu
        subst hu
        rcases List.mem_cons.1 h with rfl | h
        · exact ⟨a, List.mem_cons_self⟩
        · exact old h
      · exact old h
    | ended u x => exact old h
    | killed u => exact old h

/-- Every event satisfies `C` after the events before it. -/
def Throughout (C : List (Event Resp Ans ε ρ) → Event Resp Ans ε ρ → Prop) :
    List (Event Resp Ans ε ρ) → Prop
  | [] => True
  | e :: l => C l e ∧ Throughout C l

section
variable {C C' : List (Event Resp Ans ε ρ) → Event Resp Ans ε ρ → Prop}

theorem Throughout.mono (hl : Throughout C l) (h : ∀ l e, C l e → C' l e) : Throughout C' l := by
  induction l with
  | nil => trivial
  | cons e l ih => exact ⟨h l e hl.1, ih hl.2⟩

/-- What holds throughout holds of each event. -/
theorem Throughout.of_append {newer older : List (Event Resp Ans ε ρ)} {e : Event Resp Ans ε ρ}
    (h : Throughout C (newer ++ e :: older)) : C older e := by
  induction newer with
  | nil => exact h.1
  | cons _ newer ih => exact ih h.2

end

end

namespace Sys
variable (Y : Sys Resp ε W ρ)

/-- The pool `P` is reached from `P₀` with these events, newest first. -/
inductive Trace (P₀ : Pool Resp ε W ρ) : List (Event Resp Y.Ans ε ρ) → Pool Resp ε W ρ → Prop
  | refl : Trace P₀ [] P₀
  | enter {l P t p w} : Trace P₀ l P → P.tasks t = none → Y.enter P.world t p w →
      Trace P₀ (outcome t p ++ .entered t p :: l) (Y.put P.tasks t p w)
  | run {l P t b o k r w} (a : Act Y.Ans ε o) : Trace P₀ l P →
      P.tasks t = some (.await b o k) → Y.allow t P.world o a →
      Y.act t b P.world o a = some (r, w) →
      Trace P₀ (outcome t (k r) ++ .awaited t o a r :: l) (Y.put P.tasks t (k r) w)
  | kill {l P t p w} : Trace P₀ l P → P.tasks t = some p → Y.kill P.world t w →
      Trace P₀ (.killed t :: l) ⟨w, Function.update P.tasks t none⟩

variable {Y}

/-- The pools of the traces are the reachable ones. -/
theorem reach_iff_exists_trace {P₀ P : Pool Resp ε W ρ} :
    Y.Reach P₀ P ↔ ∃ l, Y.Trace P₀ l P := by
  constructor
  · intro h
    induction h with
    | refl => exact ⟨[], .refl⟩
    | tail _ hs ih =>
      obtain ⟨l, hl⟩ := ih
      cases hs with
      | enter hn he => exact ⟨_, .enter hl hn he⟩
      | run a ht ha hact => exact ⟨_, .run a hl ht ha hact⟩
      | kill ht hk => exact ⟨_, .kill hl ht hk⟩
  · rintro ⟨l, h⟩
    induction h with
    | refl => exact .refl
    | enter _ hn he ih => exact ih.tail (.enter hn he)
    | run a _ ht ha hact ih => exact ih.tail (.run a ht ha hact)
    | kill _ ht hk ih => exact ih.tail (.kill ht hk)

/-! ## What is left of the tasks -/

/-- A task enters once: `begun w` are the tasks that have entered before. -/
structure Once (Y : Sys Resp ε W ρ) (begun : W → Set Nat) : Prop where
  enter : ∀ {w t p w'}, Y.enter w t p w' → t ∉ begun w ∧ insert t (begun w) ⊆ begun w'
  run : ∀ {t b w o a r w'}, Y.act t b w o a = some (r, w') → begun w ⊆ begun w'
  fin : ∀ {t x w}, begun w ⊆ begun (Y.fin t x w)
  kill : ∀ {w t w'}, Y.kill w t w' → begun w ⊆ begun w'

/-- The program `q` is what is left of task `t`. -/
def Left (l : List (Event Resp Y.Ans ε ρ)) (t : Nat) (q : Prog Resp ε ρ) : Prop :=
  ∃ p, .entered t p ∈ l ∧ p.After (pastOf t l) q

/-- The events, the tasks and the world belong together. -/
structure Tracked (begun : W → Set Nat) (l : List (Event Resp Y.Ans ε ρ))
    (P : Pool Resp ε W ρ) : Prop where
  past : ∀ t, t ∉ begun P.world → pastOf t l = []
  tasks : ∀ t q, P.tasks t = some q → t ∈ begun P.world ∧ Left l t q ∧ ∀ x, .ended t x ∉ l
  ended : ∀ t x, .ended t x ∈ l → t ∈ begun P.world ∧ Left l t (Prog.ofResult x)

section
variable {begun : W → Set Nat} {l : List (Event Resp Y.Ans ε ρ)} {t u : Nat}

theorem Left.cons_ne {e : Event Resp Y.Ans ε ρ} {q : Prog Resp ε ρ} (h : Left l u q)
    (he : pastOf u (e :: l) = pastOf u l) : Left (e :: l) u q := by
  obtain ⟨p, hp, hq⟩ := h
  exact ⟨p, List.mem_cons_of_mem _ hp, he ▸ hq⟩

/-- The next await of what is left. -/
theorem Left.awaited {b : Bool} {o : Op} {k : Except ε (Resp o) → Prog Resp ε ρ}
    (h : Left l t (.await b o k)) (a : Act Y.Ans ε o) (r : Except ε (Resp o)) :
    Left (.awaited t o a r :: l) t (k r) := by
  obtain ⟨p, hp, hq⟩ := h
  refine ⟨p, List.mem_cons_of_mem _ hp, ?_⟩
  rw [pastOf_awaited_self]
  exact .await r hq

/-- A task that is still there when `t` is gone. -/
theorem of_update_none {T : Nat → Option (Prog Resp ε ρ)} {q : Prog Resp ε ρ}
    (h : Function.update T t none u = some q) : u ≠ t ∧ T u = some q := by
  by_cases hu : u = t
  · subst hu; rw [Function.update_self] at h; cases h
  · rw [Function.update_of_ne hu] at h
    exact ⟨hu, h⟩

/-- A task that has reached `p` stays in flight or ends. -/
theorem Tracked.put {T : Nat → Option (Prog Resp ε ρ)} {p : Prog Resp ε ρ} {w : W}
    (hfin : ∀ x, begun w ⊆ begun (Y.fin t x w)) (ht : t ∈ begun w) (hp : Left l t p)
    (hn : ∀ x, .ended t x ∉ l) (h : Tracked begun l ⟨w, Function.update T t none⟩) :
    Tracked begun (outcome t p ++ l) (Y.put T t p w) := by
  cases hr : p.result with
  | none =>
    have hput : Y.put T t p w = ⟨w, Function.update T t (some p)⟩ := by simp [Sys.put, hr]
    have hout : (outcome t p : List (Event Resp Y.Ans ε ρ)) = [] := by simp [outcome, hr]
    rw [hput, hout]
    refine ⟨h.past, fun u q hq => ?_, h.ended⟩
    by_cases hu : u = t
    · subst hu
      dsimp only at hq
      rw [Function.update_self] at hq
      cases hq
      exact ⟨ht, hp, hn⟩
    · refine h.tasks u q ?_
      dsimp only at hq ⊢
      rw [Function.update_of_ne hu] at hq ⊢
      exact hq
  | some x =>
    have hput : Y.put T t p w = ⟨Y.fin t x w, Function.update T t none⟩ := by simp [Sys.put, hr]
    have hout : (outcome t p : List (Event Resp Y.Ans ε ρ)) = [.ended t x] := by
      simp [outcome, hr]
    rw [hput, hout]
    refine ⟨fun u hu => h.past u fun hb => hu (hfin x hb), fun u q hq => ?_, fun u y hy => ?_⟩
    · obtain ⟨hb, hl, hne⟩ := h.tasks u q hq
      obtain ⟨hu, -⟩ := of_update_none hq
      refine ⟨hfin x hb, hl.cons_ne rfl, fun y hy => ?_⟩
      rcases List.mem_cons.1 hy with hy | hy
      · cases hy; exact hu rfl
      · exact hne y hy
    · rcases List.mem_cons.1 hy with hy | hy
      · cases hy
        exact ⟨hfin x ht, Prog.eq_ofResult hr ▸ hp.cons_ne rfl⟩
      · obtain ⟨hb, hl⟩ := h.ended u y hy
        exact ⟨hfin x hb, hl.cons_ne rfl⟩

/-- **In every run the tasks are what is left of their programs**, and an invariant of the events
    and the world holds that every event keeps in the worlds of the run. -/
theorem Trace.invariant (hY : Once Y begun) {P₀ P : Pool Resp ε W ρ}
    (h₀ : ∀ t, P₀.tasks t = none) (valid : W → Prop)
    (hvalid : ∀ P, Y.Reach P₀ P → valid P.world) {I : List (Event Resp Y.Ans ε ρ) → W → Prop}
    (hI₀ : I [] P₀.world)
    (enter : ∀ l w t p w', I l w → pastOf t l = [] → Y.enter w t p w' → I (.entered t p :: l) w')
    (run : ∀ l w t b o k a r w', valid w → I l w → Left l t (.await b o k) → Y.allow t w o a →
      Y.act t b w o a = some (r, w') → I (.awaited t o a r :: l) w')
    (fin : ∀ l w t x, I l w → Left l t (Prog.ofResult x) → I (.ended t x :: l) (Y.fin t x w))
    (kill : ∀ l w t w', I l w → Y.kill w t w' → I (.killed t :: l) w')
    (h : Y.Trace P₀ l P) : Tracked begun l P ∧ I l P.world := by
  have put : ∀ {l t p w} {T : Nat → Option (Prog Resp ε ρ)}, Left l t p → I l w →
      I (outcome t p ++ l) (Y.put T t p w).world := by
    intro l t p w T hp hI
    cases hr : p.result with
    | none => simpa [Sys.put, outcome, hr] using hI
    | some x =>
      simpa [Sys.put, outcome, hr] using fin l w t x hI (Prog.eq_ofResult hr ▸ hp)
  induction h with
  | refl => exact ⟨⟨fun _ _ => rfl, fun t q hq => by simp [h₀] at hq, fun _ _ h => nomatch h⟩, hI₀⟩
  | @enter l P t p w hl hn he ih =>
    obtain ⟨hT, hI⟩ := ih
    obtain ⟨hnew, hsub⟩ := hY.enter he
    have hpast := hT.past t hnew
    have hkeep := pastOf_entered (p := p) hpast
    have hleft : Left (.entered t p :: l) t p := ⟨p, List.mem_cons_self, by
      rw [pastOf_entered_self]; exact .refl⟩
    have hne : ∀ x, .ended t x ∉ Event.entered t p :: l := by
      intro x hx
      rcases List.mem_cons.1 hx with hx | hx
      · cases hx
      · exact hnew (hT.ended t x hx).1
    refine ⟨Tracked.put (fun _ => hY.fin) (hsub (Set.mem_insert _ _)) hleft hne
      ⟨fun u hu => ?_, fun u q hq => ?_, fun u x hx => ?_⟩, put hleft (enter _ _ _ _ _ hI hpast he)⟩
    · rw [hkeep]
      exact hT.past u fun hb => hu (hsub (Set.mem_insert_of_mem _ hb))
    · obtain ⟨hu, hq⟩ := of_update_none hq
      obtain ⟨hb, hq, hne⟩ := hT.tasks u q hq
      refine ⟨hsub (Set.mem_insert_of_mem _ hb), hq.cons_ne (hkeep u), fun x hx => ?_⟩
      rcases List.mem_cons.1 hx with hx | hx
      · cases hx
      · exact hne x hx
    · rcases List.mem_cons.1 hx with hx | hx
      · cases hx
      · obtain ⟨hb, hq⟩ := hT.ended u x hx
        exact ⟨hsub (Set.mem_insert_of_mem _ hb), hq.cons_ne (hkeep u)⟩
  | @run l P t b o k r w a hl ht ha hact ih =>
    obtain ⟨hT, hI⟩ := ih
    obtain ⟨hb, hleft, hne⟩ := hT.tasks t _ ht
    have hsub := hY.run hact
    have hne' : ∀ u x, .ended u x ∈ Event.awaited t o a r :: l → .ended u x ∈ l := by
      intro u x hx
      rcases List.mem_cons.1 hx with hx | hx
      · cases hx
      · exact hx
    refine ⟨Tracked.put (fun _ => hY.fin) (hsub hb) (hleft.awaited a r)
      (fun x hx => hne x (hne' t x hx)) ⟨fun u hu => ?_, fun u q hq => ?_, fun u x hx => ?_⟩,
      put (hleft.awaited a r) (run _ _ _ _ _ _ _ _ _
        (hvalid P (reach_iff_exists_trace.2 ⟨l, hl⟩)) hI hleft ha hact)⟩
    · have hut : u ≠ t := by rintro rfl; exact hu (hsub hb)
      rw [pastOf_awaited_ne hut]
      exact hT.past u fun hb => hu (hsub hb)
    · obtain ⟨hu, hq⟩ := of_update_none hq
      obtain ⟨hb, hq, hne⟩ := hT.tasks u q hq
      exact ⟨hsub hb, hq.cons_ne (pastOf_awaited_ne hu), fun x hx => hne x (hne' u x hx)⟩
    · have hx' := hne' u x hx
      have hu : u ≠ t := by rintro rfl; exact hne x hx'
      obtain ⟨hb, hq⟩ := hT.ended u x hx'
      exact ⟨hsub hb, hq.cons_ne (pastOf_awaited_ne hu)⟩
  | @kill l P t p w hl ht hk ih =>
    obtain ⟨hT, hI⟩ := ih
    have hsub := hY.kill hk
    refine ⟨⟨fun u hu => hT.past u fun hb => hu (hsub hb), fun u q hq => ?_, fun u x hx => ?_⟩,
      kill _ _ _ _ hI hk⟩
    · obtain ⟨hu, hq⟩ := of_update_none hq
      obtain ⟨hb, hq, hne⟩ := hT.tasks u q hq
      refine ⟨hsub hb, hq.cons_ne rfl, fun x hx => ?_⟩
      rcases List.mem_cons.1 hx with hx | hx
      · cases hx
      · exact hne x hx
    · rcases List.mem_cons.1 hx with hx | hx
      · cases hx
      · obtain ⟨hb, hq⟩ := hT.ended u x hx
        exact ⟨hsub hb, hq.cons_ne rfl⟩

end

end Sys

/-! ## Computed traces -/

namespace Player
variable {Y : Sys Resp ε W ρ} (y : Player Y)

/-- One move, with its events. -/
def note (x : List (Event Resp Y.Ans ε ρ) × Pool Resp ε W ρ) :
    Move Y.Ans ε → Option (List (Event Resp Y.Ans ε ρ) × Pool Resp ε W ρ)
  | .enter t =>
    match x.2.tasks t, y.spawn x.2.world t with
    | none, some (p, w) => some (outcome t p ++ .entered t p :: x.1, Y.put x.2.tasks t p w)
    | _, _ => none
  | .run t σ =>
    match x.2.tasks t with
    | some (.await b o k) =>
      if y.ok t x.2.world o (σ o) then
        match Y.act t b x.2.world o (σ o) with
        | some (r, w) =>
          some (outcome t (k r) ++ .awaited t o (σ o) r :: x.1, Y.put x.2.tasks t (k r) w)
        | none => none
      else none
    | _ => none

/-- The events and the pool after a list of moves. -/
def record : List (Move Y.Ans ε) → List (Event Resp Y.Ans ε ρ) × Pool Resp ε W ρ →
    Option (List (Event Resp Y.Ans ε ρ) × Pool Resp ε W ρ)
  | [], x => some x
  | m :: ms, x => (y.note x m).bind (record ms)

variable {y}

theorem note_trace {m : Move Y.Ans ε} {P₀ : Pool Resp ε W ρ}
    {x x' : List (Event Resp Y.Ans ε ρ) × Pool Resp ε W ρ} (hx : Y.Trace P₀ x.1 x.2)
    (h : y.note x m = some x') : Y.Trace P₀ x'.1 x'.2 := by
  cases m with
  | enter t =>
    simp only [note] at h
    split at h
    · rename_i p w ht hs
      cases h
      exact .enter hx ht (y.enter hs)
    · cases h
  | run t σ =>
    simp only [note] at h
    split at h
    · rename_i b o k ht
      split at h
      · rename_i hok
        split at h
        · rename_i r w hact
          cases h
          exact .run (σ o) hx ht (y.allow hok) hact
        · cases h
      · cases h
    · cases h

/-- What is recorded is a trace. -/
theorem record_trace {ms : List (Move Y.Ans ε)} {P₀ : Pool Resp ε W ρ}
    {x x' : List (Event Resp Y.Ans ε ρ) × Pool Resp ε W ρ} (hx : Y.Trace P₀ x.1 x.2)
    (h : y.record ms x = some x') : Y.Trace P₀ x'.1 x'.2 := by
  induction ms generalizing x with
  | nil => cases h; exact hx
  | cons m ms ih =>
    simp only [record, Option.bind_eq_some_iff] at h
    obtain ⟨x₁, h₁, h₂⟩ := h
    exact ih (note_trace hx h₁) h₂

/-- A property of a recorded trace is one of a trace. -/
theorem exists_trace (y : Player Y) (ms : List (Move Y.Ans ε)) (P₀ : Pool Resp ε W ρ) {α : Type}
    (f : List (Event Resp Y.Ans ε ρ) × Pool Resp ε W ρ → α) {a : α}
    (h : (y.record ms ([], P₀)).map f = some a) : ∃ l P, Y.Trace P₀ l P ∧ f (l, P) = a := by
  rw [Option.map_eq_some_iff] at h
  obtain ⟨⟨l, P⟩, hx, ha⟩ := h
  exact ⟨l, P, record_trace (x := ([], P₀)) .refl hx, ha⟩

end Player

end Async
