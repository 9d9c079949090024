/-
  The flights of the clients of a cache service.

  The owner of a flight is told from what it has awaited: `opened h` are the
  flights that a task with the past `h` has opened and not closed, innermost
  first.  A client closes its flights in this order, whatever it is answered,
  so a task that has ended has closed all of them.

  * `load_obeys`, `call_obeys`: a call only sets the future and clears the key of
    its own flight, with what its loader gave;
  * `ClientOf.polite`: so do programs made of calls.
-/
import TracciaRuntime.Cache.Calls
import TracciaRuntime.Proof.Executor

namespace TracciaRuntime

open Py Async Prog

variable {V : Type}

/-! ## The open flights of a task -/

/-- A flight: its future, its key, and what its owner has awaited since. -/
structure Flight (V : Type) where
  future : Nat
  key : String
  answers : Awaits V

namespace Flight

/-- The flight after some more awaits. -/
def extend (l : Awaits V) (f : Flight V) : Flight V := { f with answers := l ++ f.answers }

@[simp] theorem extend_future (l : Awaits V) (f : Flight V) : (f.extend l).future = f.future := rfl

@[simp] theorem extend_key (l : Awaits V) (f : Flight V) : (f.extend l).key = f.key := rfl

@[simp] theorem extend_answers (l : Awaits V) (f : Flight V) :
    (f.extend l).answers = l ++ f.answers := rfl

theorem extend_nil (f : Flight V) : f.extend [] = f := rfl

theorem extend_extend (l l' : Awaits V) (f : Flight V) :
    (f.extend l).extend l' = f.extend (l' ++ l) := by
  simp [extend]

end Flight

/-- The operations on the table of the service. -/
def Op.isTable : Op V → Bool
  | inflightJoin _ | inflightPop _ => true
  | _ => false

theorem Op.isTable_of_isFlight {o : Op V} (ho : o.isFlight = false) : o.isTable = false := by
  cases o <;> first | rfl | cases ho

/-- The flights that are open after these awaits, innermost first. -/
def opened : Awaits V → List (Flight V)
  | [] => []
  | x :: h =>
    let outer := (opened h).map (Flight.extend [x])
    match x with
    | ⟨.inflightJoin k, .ok (f, true)⟩ => ⟨f, k, []⟩ :: outer
    | ⟨.inflightPop _, _⟩ => outer.tail
    | _ => outer

/-- The awaits `l` after `h` leave the flights open that were open. -/
def Level (h l : Awaits V) : Prop := opened (l ++ h) = (opened h).map (Flight.extend l)

section
variable {h l l' : Awaits V}

theorem Level.nil : Level h [] := by
  simp only [Level, List.nil_append, funext Flight.extend_nil, List.map_id']

theorem Level.append (h₁ : Level h l) (h₂ : Level (l ++ h) l') : Level h (l' ++ l) := by
  simp only [Level] at *
  rw [List.append_assoc, h₂, h₁, List.map_map]
  exact List.map_congr_left fun f _ => Flight.extend_extend l l' f

/-- Other operations open and close nothing. -/
theorem level_quiet {o : Op V} (ho : o.isTable = false) (r : Except Exn o.Resp) :
    Level h [⟨o, r⟩] := by
  cases o <;> first | rfl | cases ho

/-- An open flight has just been opened or was open before. -/
theorem mem_opened_cons {x : (o : Op V) × Except Exn o.Resp} {f : Flight V}
    (hf : f ∈ opened (x :: h)) :
    x = ⟨.inflightJoin f.key, .ok (f.future, true)⟩ ∧ f.answers = [] ∨
      ∃ f' ∈ opened h, f = f'.extend [x] := by
  have outer : f ∈ (opened h).map (Flight.extend [x]) → ∃ f' ∈ opened h, f = f'.extend [x] :=
    fun hf => by obtain ⟨f', hf', rfl⟩ := List.mem_map.1 hf; exact ⟨f', hf', rfl⟩
  unfold opened at hf
  dsimp only at hf
  split at hf
  · rcases List.mem_cons.1 hf with rfl | hf
    · exact Or.inl ⟨rfl, rfl⟩
    · exact Or.inr (outer hf)
  · exact Or.inr (outer (List.mem_of_mem_tail hf))
  · exact Or.inr (outer hf)

/-- A flight that is older than the last awaits was open before them. -/
theorem mem_opened_append {f : Flight V} (hf : f ∈ opened (l ++ h))
    (hl : l.length ≤ f.answers.length) : ∃ f' ∈ opened h, f = f'.extend l := by
  induction l generalizing f with
  | nil => exact ⟨f, hf, rfl⟩
  | cons x l ih =>
    rcases mem_opened_cons hf with ⟨-, hnil⟩ | ⟨f₁, hf₁, rfl⟩
    · simp [hnil] at hl
    · obtain ⟨f', hf', rfl⟩ := ih hf₁ (by simpa using hl)
      exact ⟨f', hf', Flight.extend_extend l [x] f'⟩

/-- An open flight has been opened. -/
theorem joined_of_opened {f : Flight V} (hf : f ∈ opened h) :
    ∃ h', h = f.answers ++ ⟨.inflightJoin f.key, .ok (f.future, true)⟩ :: h' := by
  induction h generalizing f with
  | nil => cases hf
  | cons x h ih =>
    rcases mem_opened_cons hf with ⟨rfl, hnil⟩ | ⟨f', hf', rfl⟩
    · exact ⟨h, by rw [hnil]; rfl⟩
    · obtain ⟨h', hh⟩ := ih hf'
      exact ⟨h', congrArg (x :: ·) hh⟩

end

/-! ## Clients close their flights -/

/-- The exception has been received. -/
def Raised (e : Exn) (l : Awaits V) : Prop :=
  ∃ o : Op V, (⟨o, .error e⟩ : (o : Op V) × Except Exn o.Resp) ∈ l

theorem Raised.append_left {e : Exn} {l l' : Awaits V} (h : Raised e l) : Raised e (l' ++ l) :=
  h.imp fun _ => List.mem_append_right _

theorem Raised.append_right {e : Exn} {l l' : Awaits V} (h : Raised e l') : Raised e (l' ++ l) :=
  h.imp fun _ => List.mem_append_left _

theorem Raised.cons {e : Exn} {l : Awaits V} {x : (o : Op V) × Except Exn o.Resp}
    (h : Raised e l) : Raised e (x :: l) :=
  h.imp fun _ => List.mem_cons_of_mem _

section
variable (cfg : Config V) (S : CacheCall V → Prop) (X₀ : Exn → Prop)
  (M : Awaits V → Op V → Prop)

/-- The other operations of the service. -/
def Op.isServed : Op V → Bool
  | inflightJoin _ | futureWait _ | cacheGet _ | cacheSet .. => true
  | _ => false

/-- What the owner of a flight hands over: the value of a loader for its key, or an exception
    that this loader raised. -/
def HandsOver (f : Flight V) : Except Exn V → Prop
  | .ok v => ∃ c, S c ∧ c.key cfg.lib = .ok f.key ∧
      ∃ l s, l <:+ f.answers ∧ c.loader.After l (.pure (v, s))
  | .error e => ∃ e₀, e = CacheService.shared e₀ ∧ (X₀ e₀ ∨ Raised e₀ f.answers)

/-- A client only sets the future and clears the key of its innermost flight, and follows `M`
    elsewhere. -/
def mayFollow (h : Awaits V) : Op V → Prop
  | .futureSet i x => ∃ f outer, opened h = f :: outer ∧ f.future = i ∧
      HandsOver cfg S X₀ f x
  | .inflightPop k => ∃ f outer, opened h = f :: outer ∧ f.key = k
  | o => M h o

/-- The program started after `h` has closed what it opened, and raises what it may. -/
def EndsLevel {α : Type} (X : Exn → Prop) (h : Awaits V) (x : Except Exn α) (h' : Awaits V) :
    Prop :=
  ∃ l, h' = l ++ h ∧ Level h l ∧ ∀ e, x = .error e → X e ∨ Raised e l

/-- The program closes what it opens. -/
def Polite {α : Type} (X : Exn → Prop) (p : Task V α) : Prop :=
  ∀ h, p.Obeys (mayFollow cfg S X₀ M) (EndsLevel X h) h

end

section
variable {cfg : Config V} {S : CacheCall V → Prop} {X₀ X : Exn → Prop}
  {M : Awaits V → Op V → Prop} {α β : Type} {h h' h'' l : Awaits V}

/-- A part that starts where another part has returned. -/
theorem EndsLevel.append {y : Except Exn β} (hl : Level h l) (hy : EndsLevel X (l ++ h) y h'') :
    EndsLevel X h y h'' := by
  obtain ⟨l', rfl, hl', he⟩ := hy
  refine ⟨l' ++ l, by rw [List.append_assoc], hl.append hl', fun e hye => ?_⟩
  exact (he e hye).imp_right Raised.append_right

theorem EndsLevel.pure (a : α) : EndsLevel X h (.ok a) h :=
  ⟨[], rfl, .nil, fun _ h => nomatch h⟩

/-- An exception that was just received. -/
theorem EndsLevel.received {o : Op V} {e : Exn} (ho : o.isTable = false) :
    EndsLevel (α := α) X h (.error e) (⟨o, .error e⟩ :: h) := by
  refine ⟨[⟨o, .error e⟩], rfl, level_quiet ho _, fun e' he' => ?_⟩
  cases he'
  exact Or.inr ⟨o, List.mem_cons_self⟩

theorem Polite.bind {p : Task V α} {f : α → Task V β} (hp : Polite cfg S X₀ M X p)
    (hf : ∀ a, Polite cfg S X₀ M X (f a)) : Polite cfg S X₀ M X (p >>= f) := by
  refine fun h => Obeys.bind ((hp h).mono fun x h' hx => ?_)
  obtain ⟨l, rfl, hl, he⟩ := hx
  cases x with
  | ok a => exact (hf a _).mono fun y h'' hy => hy.append hl
  | error e => exact ⟨l, rfl, hl, fun e' he' => he e' (by cases he'; rfl)⟩

theorem Polite.handle {p : Task V α} {f : Exn → Task V α} (hp : Polite cfg S X₀ M X p)
    (hf : ∀ e, Polite cfg S X₀ M (fun e' => X e' ∨ e' = e) (f e)) :
    Polite cfg S X₀ M X (tryCatch p f) := by
  refine fun h => Obeys.handle ((hp h).mono fun x h' hx => ?_)
  obtain ⟨l, rfl, hl, he⟩ := hx
  cases x with
  | ok a => exact ⟨l, rfl, hl, fun e' he' => nomatch he'⟩
  | error e =>
    refine (hf e _).mono fun y h'' hy => ?_
    obtain ⟨l', rfl, hl', he'⟩ := hy
    refine ⟨l' ++ l, by rw [List.append_assoc], hl.append hl', fun e₁ hy₁ => ?_⟩
    rcases he' e₁ hy₁ with (hX | rfl) | hr
    · exact Or.inl hX
    · exact (he e₁ rfl).imp_right Raised.append_left
    · exact Or.inr hr.append_right

/-- An await of an operation that is not one of the service. -/
theorem polite_await {b : Bool} {o : Op V} {k : Except Exn o.Resp → Task V α}
    (ho : o.isFlight = false) (hM : ∀ h, M h o) (hk : ∀ a, Polite cfg S X₀ M X (k (.ok a)))
    (he : ∀ e, Polite cfg S X₀ M (fun e' => X e' ∨ e' = e) (k (.error e))) :
    Polite cfg S X₀ M X (.await b o k) := by
  refine fun h => ⟨?_, fun r => ?_⟩
  · cases o <;> first | exact hM h | cases ho
  · have hl : Level h [⟨o, r⟩] := level_quiet (Op.isTable_of_isFlight ho) r
    cases r with
    | ok a => exact (hk a _).mono fun y h'' hy => hy.append hl
    | error e =>
      refine (he e _).mono fun y h'' hy => ?_
      obtain ⟨l', rfl, hl', he'⟩ := hy
      refine ⟨l' ++ [⟨o, .error e⟩], by simp, hl.append hl', fun e₁ hy₁ => ?_⟩
      rcases he' e₁ hy₁ with (hX | rfl) | hr
      · exact Or.inl hX
      · exact Or.inr ⟨o, List.mem_append_right _ List.mem_cons_self⟩
      · exact Or.inr hr.append_right

/-- Programs that do not use the service. -/
theorem Polite.of_calm {p : Task V α}
    (hp : Calm (fun o => o.isFlight = false ∧ ∀ h, M h o) X p) : Polite cfg S X₀ M X p := by
  induction p generalizing X with
  | pure a => exact fun h => EndsLevel.pure a
  | raise e => exact fun h => ⟨[], rfl, .nil, fun e' he' => Or.inl (by cases he'; exact hp)⟩
  | await b o k ih =>
    exact polite_await hp.1.1 hp.1.2 (fun a => ih _ (hp.2.1 a)) fun e => ih _ (hp.2.2 e)

/-! ## The calls -/

/-- The task has become the owner of a flight. -/
abbrev joinedAs (k : String) (f : Nat) : (o : Op V) × Except Exn o.Resp :=
  ⟨.inflightJoin k, .ok (f, true)⟩

/-- The flight of the owner is the innermost one. -/
theorem Level.owner {k : String} {f : Nat} (hl : Level (joinedAs k f :: h) l) :
    ∃ outer, opened (l ++ joinedAs k f :: h) = ⟨f, k, l⟩ :: outer := by
  simp only [Level, opened, List.map_cons, Flight.extend, List.append_nil] at hl
  exact ⟨_, hl⟩

/-- The owner closes its flight. -/
theorem Level.close {k : String} {f : Nat} (hl : Level (joinedAs k f :: h) l)
    (r : Except Exn Unit) : Level h (⟨.inflightPop k, r⟩ :: l ++ [joinedAs k f]) := by
  have hop : opened (⟨.inflightPop k, r⟩ :: (l ++ joinedAs k f :: h)) =
      ((opened (l ++ joinedAs k f :: h)).map (Flight.extend [⟨.inflightPop k, r⟩])).tail := rfl
  have hopen : opened (l ++ joinedAs k f :: h) =
      (opened (joinedAs k f :: h)).map (Flight.extend l) := hl
  simp only [Level, List.cons_append, List.append_assoc, List.nil_append]
  rw [hop, hopen]
  simp only [opened, List.map_cons, List.tail_cons, List.map_map]
  refine List.map_congr_left fun g _ => ?_
  simp [Flight.extend]

section
variable {c : CacheCall V} {k : String} {f : Nat}

/-- The loader of the call has returned a value in `y` on the awaits `l`. -/
def LoadedBy (c : CacheCall V) (l : Awaits V) (y : (V × Bool) × c.σ) : Prop :=
  ∃ l₃ l₂ s, l = l₃ ++ l₂ ∧ c.loader.After l₂ (.pure (y.1.1, s))

theorem LoadedBy.cons {y : (V × Bool) × c.σ} (hy : LoadedBy c l y)
    (x : (o : Op V) × Except Exn o.Resp) : LoadedBy c (x :: l) y := by
  obtain ⟨l₃, l₂, s, rfl, ha⟩ := hy
  exact ⟨x :: l₃, l₂, s, rfl, ha⟩

/-- **The owner's part of a call** hands over what its loader gives and closes its flight. -/
theorem load_obeys (hM : ∀ h o, o.isServed = true → M h o)
    (hX₀ : ∀ e, e.isFailure = true → X₀ e) (hc : S c)
    (hk : c.key cfg.lib = .ok k) (hl : c.loader.Obeys (mayFollow cfg S X₀ M)
      (EndsLevel X₀ (joinedAs k f :: h)) (joinedAs k f :: h)) :
    (CacheService.load cfg.lib c.policies c.policyName c.ns c.material c.context f k c.loader
      c.tags).Obeys (mayFollow cfg S X₀ M)
      (fun x h' => ∃ l, h' = l ++ joinedAs k f :: h ∧ Level h (l ++ [joinedAs k f]) ∧
        (∀ e, x = .error e → X₀ e ∨ Raised e l) ∧ ∀ y, x = .ok y → LoadedBy c l y)
      (joinedAs k f :: h) := by
  have futureSet : ∀ {x : Except Exn V} {l : Awaits V}, Level (joinedAs k f :: h) l →
      HandsOver cfg S X₀ ⟨f, k, l⟩ x →
      mayFollow cfg S X₀ M (l ++ joinedAs k f :: h) (.futureSet f x) := by
    intro x l hl hx
    obtain ⟨outer, hout⟩ := hl.owner
    exact ⟨_, outer, hout, rfl, hx⟩
  refine Obeys.ensure (Q := _) (Obeys.mono (Q := fun x h' => ∃ l, h' = l ++ joinedAs k f :: h ∧
    Level (joinedAs k f :: h) l ∧ (∀ e, x = .error e → X₀ e ∨ Raised e l) ∧
      ∀ y, x = .ok y → LoadedBy c l y) (Obeys.handle ?_) fun x h' hx => ?_)
  · -- an exception goes to the others before it goes on
    have handler : ∀ {e : Exn} {l : Awaits V}, Level (joinedAs k f :: h) l →
        X₀ e ∨ Raised e l → (do
          await (.futureSet f (.error (CacheService.shared e)))
          throw e : Task V ((V × Bool) × c.σ)).Obeys (mayFollow cfg S X₀ M)
          (fun x h' => ∃ l, h' = l ++ joinedAs k f :: h ∧ Level (joinedAs k f :: h) l ∧
            (∀ e, x = .error e → X₀ e ∨ Raised e l) ∧ ∀ y, x = .ok y → LoadedBy c l y)
          (l ++ joinedAs k f :: h) := by
      intro e l hl he
      refine Obeys.bind (Obeys.call (futureSet hl ⟨e, rfl, he⟩) fun r => ?_)
      have hl' := hl.append (level_quiet (o := .futureSet f (.error (CacheService.shared e))) rfl r)
      cases r with
      | ok _ =>
        refine ⟨_, rfl, hl', fun e' he' => ?_, fun y hy => nomatch hy⟩
        cases he'
        exact he.imp_right Raised.append_left
      | error e₁ =>
        refine ⟨_, rfl, hl', fun e' he' => ?_, fun y hy => nomatch hy⟩
        cases he'
        exact Or.inr ⟨_, List.mem_cons_self⟩
    refine Obeys.bind (hl.and_after.mono fun x h' hx => ?_)
    obtain ⟨⟨l, rfl, hlev, he⟩, l₂, hl₂, hafter⟩ := hx
    obtain rfl := List.append_cancel_right hl₂
    cases x with
    | error e => exact handler hlev (he e rfl)
    | ok x =>
      obtain ⟨v, s⟩ := x
      refine Obeys.bind ((Polite.of_calm (setJson_calm fun _ _ _ _ =>
        ⟨rfl, fun h => hM h _ rfl⟩) _).mono fun y h' hy => ?_)
      obtain ⟨l₁, rfl, hlev₁, he₁⟩ := hy
      have hlev' := hlev.append hlev₁
      cases y with
      | error e =>
        rw [← List.append_assoc]
        exact handler hlev' ((he₁ e rfl).imp (hX₀ e) Raised.append_right)
      | ok y =>
        rw [← List.append_assoc]
        refine Obeys.bind (Obeys.call (futureSet hlev' ⟨c, hc, hk, l, s, List.suffix_append _ _,
          hafter⟩) fun r => ?_)
        have hlev'' := hlev'.append (level_quiet (o := .futureSet f (.ok v)) rfl r)
        cases r with
        | ok _ =>
          refine ⟨_, rfl, hlev'', fun e he => (nomatch he), fun y hy => ?_⟩
          cases hy
          exact ⟨_ :: l₁, l, s, rfl, hafter⟩
        | error e => exact handler hlev'' (Or.inr ⟨_, List.mem_cons_self⟩)
  · obtain ⟨l, rfl, hlev, he, hy⟩ := hx
    obtain ⟨outer, hout⟩ := hlev.owner
    refine Obeys.call ⟨_, outer, hout, rfl⟩ fun r => ?_
    cases r with
    | ok _ =>
      refine ⟨_ :: l, rfl, hlev.close _, fun e hx => ?_, fun y hx => ?_⟩
      · exact (he e hx).imp_right Raised.cons
      · exact (hy y hx).cons _
    | error e =>
      refine ⟨_ :: l, rfl, hlev.close _, fun e' hx => ?_, fun y hx => nomatch hx⟩
      cases hx
      exact Or.inr ⟨_, List.mem_cons_self⟩

/-- A value that `get_json` returns was read under the key. -/
theorem getJson_after {v : V} (hen : c.enabled = true)
    (ha : (CacheService.getJson cfg.lib c.policies c.policyName c.ns c.material c.context).After l
      (.pure (some v))) :
    ∃ k e, c.key cfg.lib = .ok k ∧
      (⟨.cacheGet k, .ok (some e)⟩ : (o : Op V) × Except Exn o.Resp) ∈ l ∧
      cfg.lib.loads e = some v := by
  have hget : CacheService.getJson cfg.lib c.policies c.policyName c.ns c.material c.context =
      Prog.lift (c.key cfg.lib) >>= fun k => CacheService.lookup cfg.lib k := if_pos hen
  rw [hget] at ha
  cases hk : c.key cfg.lib with
  | error e =>
    rw [hk] at ha
    cases (After.of_result (x := .error e) rfl ha).2
  | ok k =>
    rw [hk] at ha
    rcases After.await_cases ha with ⟨-, h⟩ | ⟨r, h', rfl, hr⟩
    · cases h
    have ended : ∀ {x : Except Exn (Option V)}, After (Prog.ofResult x) h' (.pure (some v)) →
        x = .ok (some v) := by
      intro x hx
      cases x with
      | ok a => cases (After.of_result (x := .ok a) rfl hx).2; rfl
      | error e => cases (After.of_result (x := .error e) rfl hx).2
    cases r with
    | error e =>
      change After (Prog.handle (.raise e) _) h' _ at hr
      simp only [Prog.handle] at hr
      split at hr
      · cases ended (x := .ok none) hr
      · cases ended (x := .error e) hr
    | ok encoded =>
      cases encoded with
      | none => cases ended (x := .ok none) hr
      | some e =>
        refine ⟨k, e, rfl, by simp, ?_⟩
        cases hv : cfg.lib.loads e with
        | none =>
          simp only [Prog.bind, hv] at hr
          cases ended (x := .ok none) hr
        | some v' =>
          simp only [Prog.bind, hv] at hr
          have hx := ended (x := .ok (if cfg.lib.isNone v' then none else some v')) hr
          split at hx <;> cases hx
          rfl

/-- Where the value of a call comes from. -/
def Sourced (cfg : Config V) (c : CacheCall V) (k : String) (l : Awaits V)
    (y : (V × Bool) × c.σ) : Prop :=
  (∃ e, (⟨.cacheGet k, .ok (some e)⟩ : (o : Op V) × Except Exn o.Resp) ∈ l ∧
    cfg.lib.loads e = some y.1.1) ∨
  (∃ f, (⟨.inflightJoin k, .ok (f, false)⟩ : (o : Op V) × Except Exn o.Resp) ∈ l ∧
    (⟨.futureWait f, .ok y.1.1⟩ : (o : Op V) × Except Exn o.Resp) ∈ l) ∨
  ∃ f l₁ l₂, l = l₂ ++ joinedAs k f :: l₁ ∧ LoadedBy c l₂ y

/-- **A call closes what it opens**, and its value was read or loaded under its key. -/
theorem call_obeys (hM : ∀ h o, o.isServed = true → M h o)
    (hX₀ : ∀ e, e.isFailure = true → X₀ e) (hX : ∀ e, X₀ e → X e) (hc : S c)
    (hl : ∀ h', h <:+ h' → c.loader.Obeys (mayFollow cfg S X₀ M) (EndsLevel X₀ h') h') :
    (c.task cfg.lib).Obeys (mayFollow cfg S X₀ M)
      (fun x h' => EndsLevel X h x h' ∧ ∀ y, x = .ok y → c.enabled = true →
        ∃ k l, c.key cfg.lib = .ok k ∧ h' = l ++ h ∧ Sourced cfg c k l y) h := by
  have hgetJson : Polite cfg S X₀ M (fun e => e.isFailure = true)
      (CacheService.getJson cfg.lib c.policies c.policyName c.ns c.material c.context) :=
    Polite.of_calm (getJson_calm fun _ => ⟨rfl, fun h => hM h _ rfl⟩)
  refine Obeys.bind ((hgetJson h).and_after.mono fun cached h' hx => ?_)
  obtain ⟨⟨l, rfl, hlev, he⟩, l', hl', ha⟩ := hx
  obtain rfl := List.append_cancel_right hl'
  cases cached with
  | error e =>
    refine ⟨⟨l, rfl, hlev, fun e' he' => ?_⟩, fun y hy => nomatch hy⟩
    cases he'
    exact (he e rfl).imp_left fun hf => hX e (hX₀ e hf)
  | ok cached =>
    cases cached with
    | some v =>
      refine ⟨⟨l, rfl, hlev, fun e he' => nomatch he'⟩, fun y hy hen => ?_⟩
      cases hy
      obtain ⟨k, e, hk, hm, hv⟩ := getJson_after hen ha
      exact ⟨k, l, hk, rfl, Or.inl ⟨e, hm, hv⟩⟩
    | none =>
      dsimp only
      split
      · -- the policy is enabled
        refine Obeys.bind (Obeys.lift ?_)
        cases hk : CacheService.key cfg.lib c.policyName c.ns c.material c.context
            (CacheService.policy c.policies c.policyName) with
        | error e =>
          refine ⟨⟨l, rfl, hlev, fun e' he' => ?_⟩, fun y hy => nomatch hy⟩
          cases he'
          exact Or.inl (hX e (hX₀ e (key_eq_error hk)))
        | ok k =>
          refine Obeys.bind (Obeys.call (hM _ _ rfl) fun r => ?_)
          cases r with
          | error e =>
            have hjoin : Level (l ++ h) [⟨.inflightJoin k, .error e⟩] := rfl
            refine ⟨⟨_ :: l, rfl, hlev.append hjoin, fun e' he' => ?_⟩, fun y hy => nomatch hy⟩
            cases he'
            exact Or.inr ⟨_, List.mem_cons_self⟩
          | ok x =>
            obtain ⟨f, owner⟩ := x
            cases owner with
            | true =>
              refine (load_obeys hM hX₀ hc hk (hl _ (List.suffix_append (joinedAs k f :: l) h))).mono
                fun x h' hx => ?_
              obtain ⟨l₁, rfl, hlev₁, he₁, hy₁⟩ := hx
              have happ : l₁ ++ joinedAs k f :: (l ++ h) = (l₁ ++ joinedAs k f :: l) ++ h := by simp
              refine ⟨⟨l₁ ++ joinedAs k f :: l, happ, ?_, fun e hxe => ?_⟩, fun y hy _ => ?_⟩
              · have := hlev.append hlev₁
                simpa using this
              · exact (he₁ e hxe).imp (hX e) Raised.append_right
              · exact ⟨k, _, hk, happ, Or.inr (Or.inr ⟨f, l, l₁, rfl, hy₁ y hy⟩)⟩
            | false =>
              have hfollow : Level (l ++ h) [⟨.inflightJoin k, .ok (f, false)⟩] := rfl
              have hjoin : Level h (⟨.inflightJoin k, .ok (f, false)⟩ :: l) := hlev.append hfollow
              refine Obeys.bind (Obeys.call (hM _ _ rfl) fun r => ?_)
              have hwait : Level h (⟨.futureWait f, r⟩ :: ⟨.inflightJoin k, .ok (f, false)⟩ :: l) :=
                hjoin.append (level_quiet rfl r)
              cases r with
              | error e =>
                refine ⟨⟨_, rfl, hwait, fun e' he' => ?_⟩, fun y hy => nomatch hy⟩
                cases he'
                exact Or.inr ⟨_, List.mem_cons_self⟩
              | ok v =>
                refine ⟨⟨_, rfl, hwait, fun e he => nomatch he⟩, fun y hy _ => ?_⟩
                cases hy
                exact ⟨k, _, hk, rfl, Or.inr (Or.inl ⟨f,
                  List.mem_cons_of_mem _ List.mem_cons_self, List.mem_cons_self⟩)⟩
      · rename_i hdis
        refine Obeys.bind ((hl _ (List.suffix_append l h)).mono fun x h' hx => ?_)
        have hx' := hx.append hlev
        cases x with
        | error e =>
          obtain ⟨l₁, rfl, hlev₁, he₁⟩ := hx'
          refine ⟨⟨l₁, rfl, hlev₁, fun e' he' => ?_⟩, fun y hy => nomatch hy⟩
          cases he'
          exact (he₁ e rfl).imp_left (hX e)
        | ok x =>
          obtain ⟨l₁, rfl, hlev₁, -⟩ := hx'
          exact ⟨⟨l₁, rfl, hlev₁, fun e he => nomatch he⟩, fun y hy hen => absurd hen hdis⟩

end

/-- **Clients close what they open.** -/
theorem ClientOf.polite {P : Op V → Prop} (hP : ∀ o, P o → o.isFlight = false ∧ ∀ h, M h o)
    (hM : ∀ h o, o.isServed = true → M h o) (hX₀ : ∀ e, e.isFailure = true → X₀ e) {p : Task V α}
    (hp : ClientOf cfg.lib P S X₀ X p) (hX : ∀ e, X₀ e → X e) : Polite cfg S X₀ M X p := by
  induction hp with
  | pure a => exact fun h => EndsLevel.pure a
  | raise he => exact fun h => ⟨[], rfl, .nil, fun e' he' => Or.inl (by cases he'; exact he)⟩
  | await ho _ _ ihk ihe =>
    exact polite_await (hP _ ho).1 (hP _ ho).2 (fun a => ihk a hX)
      fun e => ihe e fun e' he' => Or.inl (hX e' he')
  | bind _ _ ihp ihf => exact (ihp hX).bind fun a => ihf a hX
  | handle _ _ ihp ihf => exact (ihp hX).handle fun e => ihf e fun e' he' => Or.inl (hX e' he')
  | timed _ ih => exact fun h => (ih hX h).timed
  | call hc _ ih =>
    exact fun h => (call_obeys hM hX₀ hX hc fun h' _ => ih (fun _ => id) h').mono fun _ _ => And.left

end

end TracciaRuntime
