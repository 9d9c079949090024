/-
  Whose cancellation it is.

  An owner that is cancelled, or struck by its timer, puts a `CancelledError` on
  the future of its flight, and all who wait for it get it.  As long as no owner
  is interrupted before it has handed over, no future holds one, and every
  `CancelledError` that a task receives is its own.

  * `OwnersSafe`: the events of such runs;
  * `Unleaked`: what they keep;
  * `drive_obeys`: a driver only writes CANCELLED after a cancellation;
  * `cancellation_stays`: the result, for calls and for agent runs.
-/
import TracciaRuntime.Proof.SingleFlight
import TracciaRuntime.Proof.Conduct
import TracciaRuntime.Proof.Events

namespace TracciaRuntime

open Py Async Prog

variable {V : Type}

/-! ## Where a cancellation comes from -/

section
variable {cfg : Config V} {t : Nat} {b : Bool} {w w' : World V} {o : Op V}

/-- An operation that completes raises an `Exception`, or what a future holds. -/
theorem effect_error {c : o.Choice} {e : Exn} (h : w.effect cfg t o c = some (.error e, w')) :
    e.isException = true ∨ ∃ f, w.futures.get f = some (some (.error e)) := by
  cases o with
  | futureWait f =>
    simp only [World.effect] at h
    split at h
    · rename_i x hx
      cases h
      exact Or.inr ⟨f, hx⟩
    · cases h
  | runsCreate s =>
    simp only [World.effect, Option.some.injEq, Runs.create] at h
    split at h
    · cases h
    · rename_i hs
      split at hs
      · cases hs
      · cases h
        cases hs
        left
        cases cfg.runStore <;> rfl
  | runsSave s v =>
    simp only [World.effect, Option.some.injEq, Runs.save] at h
    split at h
    · cases h
    · rename_i hs
      split at hs
      · cases hs; cases h; exact Or.inl rfl
      · split at hs
        · cases hs
        · cases hs; cases h; exact Or.inl rfl
  | agentsGet name version =>
    simp only [World.effect, Option.some.injEq, Prod.mk.injEq, registryGet] at h
    obtain ⟨h, -⟩ := h
    (repeat' split at h) <;> cases h <;> exact Or.inl rfl
  | agentsRegister d =>
    simp only [World.effect, Option.some.injEq, registryRegister] at h
    split at h
    · cases h
    · rename_i hs
      split at hs <;> cases hs
      cases h
      exact Or.inl rfl
  | approvalsDecide id tenantId decision modified =>
    simp only [World.effect, Approvals.decide] at h
    (repeat' split at h) <;> cases h <;> exact Or.inl rfl
  | toolComplete key result =>
    simp only [World.effect, Option.some.injEq, Executions.updateMem] at h
    split at h
    · cases h
    · rename_i hs
      split at hs <;> cases hs
      cases h
      exact Or.inl rfl
  | toolFail key error indeterminate =>
    simp only [World.effect, Option.some.injEq, Executions.updateMem] at h
    split at h
    · cases h
    · rename_i hs
      split at hs <;> cases hs
      cases h
      exact Or.inl rfl
  | _ =>
    simp only [World.effect] at h
    (repeat' split at h) <;> cases h <;> exact Or.inl rfl

/-- **A strike**: an exception that is no `Exception` interrupts the task, or the operation raises
    it, or a future holds it. -/
theorem act_strike {a : Act cfg.sem.Ans Exn o} {e : Exn} (he : e.isException = false)
    (h : cfg.sem.act t b w o a = some (.error e, w')) :
    (a = .before e ∨ ∃ c, a = .after e c) ∨
      (a = .done (Answer.error e) ∨ ∃ c, a = .done (Answer.lost e c)) ∨
      ∃ f, w.futures.get f = some (some (.error e)) := by
  cases a with
  | done c =>
    cases c with
    | ok c =>
      rcases effect_error h with hx | hf
      · rw [hx] at he; cases he
      · exact Or.inr (Or.inr hf)
    | error e' =>
      simp only [Sem.act, Config.sem] at h
      split at h <;> cases h
      exact Or.inr (Or.inl (Or.inl rfl))
    | lost e' c =>
      simp only [Sem.act, Config.sem] at h
      split at h
      · cases h
      · rw [Option.map_eq_some_iff] at h
        obtain ⟨x, -, hx⟩ := h
        cases hx
        exact Or.inr (Or.inl (Or.inr ⟨c, rfl⟩))
  | before e' =>
    simp only [Sem.act] at h
    split at h
    · rw [Option.map_eq_some_iff] at h
      obtain ⟨x, -, hx⟩ := h
      cases hx
      exact Or.inl (Or.inl rfl)
    · cases h
  | after e' c =>
    simp only [Sem.act] at h
    split at h
    · rw [Option.bind_eq_some_iff] at h
      obtain ⟨x, -, h⟩ := h
      rw [Option.map_eq_some_iff] at h
      obtain ⟨y, -, hy⟩ := h
      cases hy
      exact Or.inl (Or.inr ⟨c, rfl⟩)
    · cases h

end

/-! ## Undisturbed owners -/

section
variable {cfg : Config V} {ρ : Type} {S : CacheCall V → Prop} {M : Awaits V → Op V → Prop}
  {t : Nat} {b : Bool} {w w' : World V} {o : Op V} {a : Act cfg.sem.Ans Exn o}
  {r : Except Exn o.Resp}

/-- The await is interrupted by the exception. -/
def Interrupted (e : Exn) (a : Act cfg.sem.Ans Exn o) : Prop := a = .before e ∨ ∃ c, a = .after e c

/-- The operation raises the exception of itself. -/
def Throws (e : Exn) (a : Act cfg.sem.Ans Exn o) : Prop :=
  a = .done (Answer.error e) ∨ ∃ c, a = .done (Answer.lost e c)

/-- Task `t` has been interrupted by the exception. -/
def Struck (e : Exn) (t : Nat) (l : Log cfg ρ) : Prop :=
  ∃ (o : Op V) (a : Act cfg.sem.Ans Exn o) (r : Except Exn o.Resp), .awaited t o a r ∈ l ∧
    Interrupted e a

/-- No task is interrupted while it has a flight open that it has not handed over, and only an
    interrupted await raises a cancellation. -/
def OwnersSafe (l : Log cfg ρ) : Event (Op.Resp (V := V)) cfg.sem.Ans Exn ρ → Prop
  | .awaited t _ a _ =>
    (∀ e, Interrupted e a → ∀ g ∈ opened (pastOf t l), ∃ x r,
      ⟨.futureSet g.future x, r⟩ ∈ pastOf t l) ∧
    ∀ e, Throws e a → e.isException = true
  | _ => True

/-- No future holds a cancellation, and tasks only receive their own. -/
structure Unleaked (l : Log cfg ρ) (w : World V) : Prop where
  futures : ∀ f e, w.futures.get f = some (some (.error e)) → e.isException = true
  handed : ∀ t f x r, ⟨.futureSet f x, r⟩ ∈ pastOf t l → ∃ y, w.futures.get f = some (some y)
  calm : ∀ t, ∀ g ∈ opened (pastOf t l), w.futures.get g.future = some none →
    ∀ e, Raised e g.answers → e.isException = true
  struck : ∀ t e, e.isException = false → Raised e (pastOf t l) → Struck e t l

/-- What one await does to the futures. -/
theorem act_futures (h : cfg.sem.act t b w o a = some (r, w')) :
    (w'.futures = w.futures ∧ ∀ f x, o = .futureSet f x → w.futures.get f ≠ some none) ∨
    (∃ k, o = .inflightJoin k ∧ w'.futures = w.futures.set w.futures.length none) ∨
    ∃ f x, o = .futureSet f x ∧ w.futures.get f = some none ∧
      w'.futures = w.futures.set f (some x) := by
  cases o with
  | inflightJoin k =>
    obtain ⟨C, ⟨c, hc⟩ | ⟨e, rfl, hl, -⟩⟩ := Config.act_cases h
    · simp only [World.effect] at hc
      split at hc <;> cases hc
      · exact Or.inl ⟨rfl, fun _ _ h => by cases h⟩
      · exact Or.inr (Or.inl ⟨k, rfl, rfl⟩)
    · cases hl
  | futureSet f x =>
    obtain ⟨C, ⟨c, hc⟩ | ⟨e, rfl, hl, -⟩⟩ := Config.act_cases h
    · simp only [World.effect] at hc
      split at hc
      · rename_i hpend
        cases hc
        exact Or.inr (Or.inr ⟨f, x, rfl, hpend, rfl⟩)
      · rename_i hpend
        cases hc
        refine Or.inl ⟨rfl, fun f' x' hx hn => ?_⟩
        cases hx
        exact hpend hn
    · cases hl
  | futureWait f => exact Or.inl ⟨(act_futureWait h).1.1, fun _ _ h => by cases h⟩
  | inflightPop k =>
    obtain ⟨C, ⟨c, hc⟩ | ⟨e, rfl, hl, -⟩⟩ := Config.act_cases h
    · cases hc; exact Or.inl ⟨rfl, fun _ _ h => by cases h⟩
    · cases hl
  | _ => exact Or.inl ⟨(act_sameFlights rfl h).1, fun _ _ h => by cases h⟩

/-- Futures are set once. -/
theorem act_futures_kept (hfresh : ∀ f, w.futures.length ≤ f → w.futures.get f = none)
    (h : cfg.sem.act t b w o a = some (r, w')) (f : Nat) :
    (∀ y, w.futures.get f = some (some y) → w'.futures.get f = some (some y)) ∧
      ((w.futures.get f).isSome → w'.futures.get f = some none → w.futures.get f = some none) := by
  rcases act_futures h with ⟨hf, -⟩ | ⟨k, -, hf⟩ | ⟨f', x, -, hpend, hf⟩
  · rw [hf]
    exact ⟨fun _ => id, fun _ => id⟩
  · have hne : (w.futures.get f).isSome → f ≠ w.futures.length := by
      rintro hs rfl
      rw [hfresh _ (le_refl _)] at hs
      cases hs
    rw [hf]
    refine ⟨fun y hy => ?_, fun hs hn => ?_⟩
    · rwa [Dict.get_set_ne (hne (by simp [hy]))]
    · rwa [Dict.get_set_ne (hne hs)] at hn
  · rw [hf]
    refine ⟨fun y hy => ?_, fun hs hn => ?_⟩
    · have hne : f ≠ f' := by rintro rfl; rw [hy] at hpend; cases hpend
      rwa [Dict.get_set_ne hne]
    · by_cases hff : f = f'
      · subst hff; exact hpend
      · rwa [Dict.get_set_ne hff] at hn

theorem isException_of_shared {e : Exn} (h : e.isException = true) :
    (CacheService.shared e).isException = true := by
  cases e <;> first | rfl | cases h

/-- **An undisturbed await leaks no cancellation.** -/
theorem Unleaked.run {l : Log cfg ρ} (hU : Unleaked l w)
    (hH : Held cfg S (fun t => pastOf t l) w)
    (hm : mayFollow cfg S ownExn M (pastOf t l) o) (hq : OwnersSafe l (.awaited t o a r))
    (h : cfg.sem.act t b w o a = some (r, w')) : Unleaked (.awaited t o a r :: l) w' := by
  obtain ⟨hq₁, hq₂⟩ := hq
  have hkept := act_futures_kept hH.fresh h
  have hstrike : ∀ e, r = .error e → e.isException = false → Interrupted e a := by
    rintro e rfl he
    rcases act_strike he h with hi | ht | ⟨f, hf⟩
    · exact hi
    · rw [hq₂ e ht] at he; cases he
    · rw [hU.futures f e hf] at he; cases he
  have howned : ∀ {u g}, g ∈ opened (pastOf u l) → (w.futures.get g.future).isSome := by
    intro u g hg
    have ho : Opens (fun t => pastOf t l) u g.future g.key := ⟨g, hg, rfl, rfl⟩
    exact hH.owned _ _ _ (opens_joined ho)
  -- what was awaited before stays as it was
  have hcalm : ∀ {u g}, g ∈ opened (pastOf u l) → w'.futures.get g.future = some none →
      w.futures.get g.future = some none ∧ ∀ e, Raised e g.answers → e.isException = true :=
    fun hg hpend =>
      have hp := (hkept _).2 (howned hg) hpend
      ⟨hp, hU.calm _ _ hg hp⟩
  refine ⟨fun f e hf => ?_, fun u f x r' hm' => ?_, fun u g hg hpend e he => ?_, fun u e he hr => ?_⟩
  · rcases act_futures h with ⟨hw, -⟩ | ⟨k, -, hw⟩ | ⟨i, x, rfl, hpend, hw⟩ <;> rw [hw] at hf
    · exact hU.futures f e hf
    · rw [Dict.get_set] at hf
      split at hf
      · cases hf
      · exact hU.futures f e hf
    · rw [Dict.get_set] at hf
      split at hf
      · cases hf
        obtain ⟨g, outer, ho, rfl, e₀, rfl, he₀⟩ := hm
        have hg : g ∈ opened (pastOf t l) := by rw [ho]; exact List.mem_cons_self
        exact isException_of_shared (he₀.elim id (hU.calm t g hg hpend e₀))
      · exact hU.futures f e hf
  · have old : ⟨.futureSet f x, r'⟩ ∈ pastOf u l → ∃ y, w'.futures.get f = some (some y) := by
      intro hm'
      obtain ⟨y, hy⟩ := hU.handed u f x r' hm'
      exact ⟨y, (hkept f).1 y hy⟩
    by_cases hu : u = t
    · subst hu
      rw [pastOf_awaited_self] at hm'
      rcases List.mem_cons.1 hm' with hx | hm'
      · cases hx
        obtain ⟨g, outer, ho, rfl, -⟩ := hm
        have hs := howned (show g ∈ opened (pastOf u l) by rw [ho]; exact List.mem_cons_self)
        rcases act_futures h with ⟨hw, hn⟩ | ⟨k, hk, -⟩ | ⟨i, y, hi, -, hw⟩
        · rw [hw]
          rcases hget : w.futures.get g.future with _ | _ | y
          · simp [hget] at hs
          · exact absurd hget (hn g.future x rfl)
          · exact ⟨y, rfl⟩
        · cases hk
        · cases hi
          exact ⟨x, by rw [hw, Dict.get_set_self]⟩
      · exact old hm'
    · rw [pastOf_awaited_ne hu] at hm'
      exact old hm'
  · by_cases hu : u = t
    · subst hu
      rw [pastOf_awaited_self] at hg
      rcases mem_opened_cons hg with ⟨-, hnil⟩ | ⟨g', hg', rfl⟩
      · obtain ⟨o', ho'⟩ := he
        rw [hnil] at ho'
        cases ho'
      · obtain ⟨hp, hc⟩ := hcalm hg' hpend
        obtain ⟨o', ho'⟩ := he
        rcases List.mem_cons.1 ho' with hx | ho'
        · by_contra hne
          cases hx
          obtain ⟨x, r', hm'⟩ := hq₁ e (hstrike e rfl (by simpa using hne)) g' hg'
          obtain ⟨y, hy⟩ := hU.handed u _ _ _ hm'
          rw [hp] at hy
          cases hy
        · exact hc e ⟨o', ho'⟩
    · rw [pastOf_awaited_ne hu] at hg
      exact (hcalm hg hpend).2 e he
  · have old : Raised e (pastOf u l) → Struck e u (.awaited t o a r :: l) := by
      intro hr
      obtain ⟨o', a', r', hm', hi⟩ := hU.struck u e he hr
      exact ⟨o', a', r', List.mem_cons_of_mem _ hm', hi⟩
    by_cases hu : u = t
    · subst hu
      rw [pastOf_awaited_self] at hr
      obtain ⟨o', ho'⟩ := hr
      rcases List.mem_cons.1 ho' with hx | ho'
      · cases hx
        exact ⟨o, a, _, List.mem_cons_self, hstrike e rfl he⟩
      · exact old ⟨o', ho'⟩
    · rw [pastOf_awaited_ne hu] at hr
      exact old hr

/-! ## Whole runs -/

/-- The tables and the flights belong together, and undisturbed owners leak nothing. -/
def Guarded (cfg : Config V) (S : CacheCall V → Prop) (l : Log cfg ρ) (w : World V) : Prop :=
  Held cfg S (fun t => pastOf t l) w ∧ (Throughout OwnersSafe l → Unleaked l w)

theorem Guarded.init (hw : NoFlights w) : Guarded cfg S ([] : Log cfg ρ) w := by
  refine ⟨Held.init hw, fun _ => ⟨fun f e hf => ?_, fun _ _ _ _ h => ?_, fun _ _ h => ?_,
    fun _ _ _ h => ?_⟩⟩
  · rw [hw.futures] at hf
    cases hf
  · cases h
  · cases h
  · obtain ⟨o, ho⟩ := h
    cases ho

/-- An event that no task sees. -/
theorem Guarded.keep {l : Log cfg ρ} {e : Event (Op.Resp (V := V)) cfg.sem.Ans Exn ρ}
    (hG : Guarded cfg S l w) (hpast : ∀ u, pastOf u (e :: l) = pastOf u l)
    (hw : SameFlights w w') : Guarded cfg S (e :: l) w' := by
  refine ⟨hG.1.congr (funext hpast) hw, fun hall => ?_⟩
  obtain ⟨hf, hh, hc, hs⟩ := hG.2 hall.2
  refine ⟨?_, fun u f x r hm => ?_, fun u g hg hp => ?_, fun u e' he hr => ?_⟩
  · rwa [hw.1]
  · rw [hpast] at hm
    rw [hw.1]
    exact hh u f x r hm
  · rw [hpast] at hg
    rw [hw.1] at hp
    exact hc u g hg hp
  · rw [hpast] at hr
    obtain ⟨o', a', r', hm, hi⟩ := hs u e' he hr
    exact ⟨o', a', r', List.mem_cons_of_mem _ hm, hi⟩

theorem Guarded.run {l : Log cfg ρ} (hG : Guarded cfg S l w)
    (hm : mayFollow cfg S ownExn M (pastOf t l) o) (h : cfg.sem.act t b w o a = some (r, w')) :
    Guarded cfg S (.awaited t o a r :: l) w' :=
  ⟨hG.1.awaited hm h, fun hall => (hG.2 hall.2).run hG.1 hm hall.1 h⟩

end

/-! ## Calls -/

section
variable {cfg : Config V} {S : CacheCall V → Prop}

/-- A loader that raises a cancellation has received it. -/
abbrev FairClient {α : Type} (cfg : Config V) (S : CacheCall V → Prop) (p : Task V α) : Prop :=
  ClientOf cfg.lib (fun o => o.isFlight = false) S ownExn ownExn p

theorem fair_obeys {c : CacheCall V} (hc : S c) (hl : FairClient cfg S c.loader) (h : Awaits V) :
    (c.task cfg.lib).Obeys (mayFollow cfg S ownExn anyOp) (EndsLevel ownExn h) h := by
  have hpolite : Polite cfg S ownExn anyOp ownExn c.loader :=
    ClientOf.polite (fun _ ho => ⟨ho, fun _ => trivial⟩) (fun _ _ _ => trivial)
      ownExn_of_isFailure hl fun _ => id
  exact (call_obeys (fun _ _ _ => trivial) ownExn_of_isFailure (fun _ => id) hc
    fun h' _ => hpolite h').mono fun _ _ => And.left

theorem guarded_calls {calls : Nat → CacheCall V} (hS : ∀ c, S c → FairClient cfg S c.loader)
    (hcalls : ∀ t, S (calls t)) {w₀ : World V} (hw₀ : NoFlights w₀) {l : Log cfg (V × Bool)}
    {P : Pool (Op.Resp (V := V)) Exn (World V) (V × Bool)}
    (h : (cacheSys cfg calls).Trace ⟨w₀, fun _ => none⟩ l P) : Guarded cfg S l P.world := by
  have hobeys : ∀ t, ((calls t).run cfg.lib).Obeys (mayFollow cfg S ownExn anyOp)
      (fun _ _ => True) [] := by
    intro t
    refine Obeys.bind ((fair_obeys (hcalls t) (hS _ (hcalls t)) []).mono fun x h' _ => ?_)
    cases x
    · trivial
    · exact trivial
  refine (Sys.Trace.invariant (I := fun l w => Guarded cfg S l w ∧
      ∀ t p, .entered t p ∈ l → p = (calls t).run cfg.lib)
    cacheSys_once (fun _ => rfl) (fun _ => True) (fun _ _ => trivial)
    ⟨Guarded.init hw₀, fun _ _ h => nomatch h⟩ ?_ ?_ ?_ ?_ h).2.1
  · rintro l w t p w' ⟨hG, hen⟩ hpast ⟨-, hp, rfl⟩
    refine ⟨hG.keep (pastOf_entered hpast) ⟨rfl, fun _ => rfl⟩, fun u q hq => ?_⟩
    rcases List.mem_cons.1 hq with hq | hq
    · cases hq; exact hp
    · exact hen u q hq
  · rintro l w t b o k a r w' - ⟨hG, hen⟩ ⟨p, hp, hleft⟩ - hact
    have hmay := (((hen t p hp) ▸ hobeys t : p.Obeys _ _ []).after hleft).1
    rw [List.append_nil] at hmay
    refine ⟨hG.run hmay hact, fun u q hq => ?_⟩
    rcases List.mem_cons.1 hq with hq | hq
    · cases hq
    · exact hen u q hq
  · rintro l w t x ⟨hG, hen⟩ -
    refine ⟨hG.keep (fun _ => rfl) ⟨rfl, fun _ => rfl⟩, fun u q hq => ?_⟩
    rcases List.mem_cons.1 hq with hq | hq
    · cases hq
    · exact hen u q hq
  · exact fun _ _ _ _ _ h => h.elim

end

/-! ## Agent runs -/

section
variable {cfg : Config V} {calls : Nat → Call V} {A : Allow cfg.sem.Ans Exn (World V)}

/-- The writer of a record has begun.  A driver writes its own run, and CANCELLED only when it has
    received a cancellation; CANCELLED of a call is that of a `cancel` of the run. -/
structure Attributed (cfg : Config V) (calls : Nat → Call V) (l : Log cfg Unit) (w : World V)
    (id : String) (r : Saved V) : Prop where
  began : r.writer ∈ w.started
  own : ∀ d, w.drivers.get r.writer = some d → d.runId = id
  struck : r.state.status = .cancelled → ∀ d, w.drivers.get r.writer = some d →
    HasStruck (pastOf r.writer l)
  asked : r.state.status = .cancelled → w.drivers.get r.writer = none →
    ∃ tenantId, calls r.writer = .cancel id tenantId

/-- What is kept in the runs of a deployment. -/
structure Signed (cfg : Config V) (calls : Nat → Call V) (l : Log cfg Unit) (w : World V) :
    Prop where
  guarded : Guarded cfg (fun _ => True) l w
  reads : ∀ t runId tenantId s, (⟨.runsGet runId tenantId, .ok (some s)⟩ :
    (o : Op V) × Except Exn o.Resp) ∈ pastOf t l → s.id = runId
  records : ∀ id h, w.runs.get id = some h → ∀ r ∈ h.records, Attributed cfg calls l w id r

theorem HasStruck.mono {h h' : Awaits V} (hs : HasStruck h) (hh : h <:+ h') : HasStruck h' := by
  obtain ⟨e, he, o, ho⟩ := hs
  exact ⟨e, he, o, hh.subset ho⟩

theorem pastOf_suffix {ρ : Type} {t u : Nat} {o : Op V} {a : Act cfg.sem.Ans Exn o}
    {r : Except Exn o.Resp} {l : Log cfg ρ} : pastOf u l <:+ pastOf u (.awaited t o a r :: l) := by
  by_cases hu : u = t
  · subst hu
    rw [pastOf_awaited_self]
    exact List.suffix_cons _ _
  · rw [pastOf_awaited_ne hu]

/-- An await adds at most one record, of its own. -/
theorem act_records {t : Nat} {b : Bool} {w w' : World V} {o : Op V} {a : Act cfg.sem.Ans Exn o}
    {r : Except Exn o.Resp} (h : cfg.sem.act t b w o a = some (r, w')) {id : String}
    {h' : History V} (hg : w'.runs.get id = some h') {x : Saved V} (hx : x ∈ h'.records) :
    (∃ h₀, w.runs.get id = some h₀ ∧ x ∈ h₀.records) ∨
      x.writer = t ∧ ((∃ s v, o = .runsSave s v ∧ s.id = id ∧ x.state.status = s.status) ∨
        ∃ s, o = .runsCreate s ∧ s.id = id ∧ x.state = s) := by
  by_cases ho : o.writesRuns = false
  · rw [(Config.act_frame h).runs ho] at hg
    exact Or.inl ⟨h', hg, hx⟩
  · cases o with
    | runsSave s v =>
      rcases act_runsSave h with ⟨he, -⟩ | hs
      · rw [he] at hg
        exact Or.inl ⟨h', hg, hx⟩
      · obtain ⟨h₀, hget, -, he⟩ := Runs.save_ok hs
        rw [he, Dict.get_set] at hg
        split at hg
        · rename_i hi
          cases hg
          rcases List.mem_cons.1 hx with rfl | hx
          · exact Or.inr ⟨rfl, Or.inl ⟨s, v, rfl, hi.symm, rfl⟩⟩
          · exact Or.inl ⟨h₀, hi ▸ hget, hx⟩
        · exact Or.inl ⟨h', hg, hx⟩
    | runsCreate s =>
      rcases act_runsCreate h with ⟨he, -⟩ | hs
      · rw [he] at hg
        exact Or.inl ⟨h', hg, hx⟩
      · obtain ⟨-, he⟩ := Runs.create_ok hs
        rw [he, Dict.get_set] at hg
        split at hg
        · rename_i hi
          cases hg
          cases List.mem_singleton.1 hx
          exact Or.inr ⟨rfl, Or.inr ⟨s, rfl, hi.symm, rfl⟩⟩
        · exact Or.inl ⟨h', hg, hx⟩
    | _ => exact absurd rfl ho

/-- Events that no task sees leave the signatures as they are. -/
theorem Signed.keep {l : Log cfg Unit} {w w' : World V}
    {e : Event (Op.Resp (V := V)) cfg.sem.Ans Exn Unit} (h : Signed cfg calls l w)
    (hpast : ∀ u, pastOf u (e :: l) = pastOf u l) (hf : SameFlights w w') (hr : w'.runs = w.runs)
    (hd : w'.drivers = w.drivers) (hs : w.started ⊆ w'.started) :
    Signed cfg calls (e :: l) w' := by
  refine ⟨h.guarded.keep hpast hf, fun t runId tenantId s hm => ?_, fun id h' hg x hx => ?_⟩
  · rw [hpast] at hm
    exact h.reads t runId tenantId s hm
  · rw [hr] at hg
    obtain ⟨h₁, h₂, h₃, h₄⟩ := h.records id h' hg x hx
    refine ⟨hs h₁, ?_, fun hc d hd' => ?_, ?_⟩
    · rwa [hd]
    · rw [hd] at hd'
      rw [hpast]
      exact h₃ hc d hd'
    · rwa [hd]

/-- **What drivers and calls await keeps the signatures.** -/
theorem Signed.run {l : Log cfg Unit} {w w' : World V} {t : Nat} {b : Bool} {o : Op V}
    {a : Act cfg.sem.Ans Exn o} {r : Except Exn o.Resp} (h : Signed cfg calls l w)
    (hv : InOrder w.runs) (ht : t ∈ w.started)
    (hdrive : ∀ d, w.drivers.get t = some d →
      driverFollow cfg d.runId d.tenantId (pastOf t l) o)
    (hcall : w.drivers.get t = none → callMay (calls t) (pastOf t l) o)
    (hact : cfg.sem.act t b w o a = some (r, w')) :
    Signed cfg calls (.awaited t o a r :: l) w' := by
  have hf := Config.act_frame hact
  have drivers : ∀ u ∈ w.started, w'.drivers.get u = w.drivers.get u := by
    intro u hu
    cases hd : w.drivers.get u with
    | some d => exact hf.drivers_old u d hd
    | none =>
      cases hd' : w'.drivers.get u with
      | none => rfl
      | some d =>
        rcases hf.drivers_new u d hd' with h | ⟨-, h⟩
        · rw [hd] at h; cases h
        · exact absurd hu h
  have known : ∀ {runId tenantId id : String}, HasRead runId tenantId id (pastOf t l) →
      id = runId := by
    rintro runId tenantId id ⟨s, rfl, hm⟩
    exact h.reads t runId tenantId s hm
  refine ⟨?_, fun u runId tenantId s hm => ?_, fun id h' hg x hx => ?_⟩
  · cases hd : w.drivers.get t with
    | some d => exact h.guarded.run (hdrive d hd) hact
    | none =>
      refine h.guarded.run (M := anyOp) ?_ hact
      have hmay := hcall hd
      cases o <;> trivial
  · by_cases hu : u = t
    · subst hu
      rw [pastOf_awaited_self] at hm
      rcases List.mem_cons.1 hm with hm | hm
      · cases hm
        obtain ⟨-, h₀, hg, rfl⟩ := act_runsGet hact
        exact hv.id runId h₀ hg
      · exact h.reads u runId tenantId s hm
    · rw [pastOf_awaited_ne hu] at hm
      exact h.reads u runId tenantId s hm
  · rcases act_records hact hg hx with ⟨h₀, hg₀, hx₀⟩ | ⟨hw, hop⟩
    · obtain ⟨h₁, h₂, h₃, h₄⟩ := h.records id h₀ hg₀ x hx₀
      refine ⟨hf.started ▸ h₁, ?_, fun hc d hd => ?_, ?_⟩
      · rwa [drivers _ h₁]
      · rw [drivers _ h₁] at hd
        exact (h₃ hc d hd).mono pastOf_suffix
      · rwa [drivers _ h₁]
    · rw [← hw] at ht hdrive hcall known
      refine ⟨hf.started ▸ ht, ?_, ?_, ?_⟩ <;> rw [drivers _ ht]
      · intro d hd
        rcases hop with ⟨s, v, rfl, rfl, -⟩ | ⟨s, rfl, -, -⟩
        · exact (known (hdrive d hd).1).symm
        · exact (hdrive d hd).elim
      · intro hc d hd
        rcases hop with ⟨s, v, rfl, rfl, hst⟩ | ⟨s, rfl, -, -⟩
        · exact ((hdrive d hd).2 (hst ▸ hc)).mono pastOf_suffix
        · exact (hdrive d hd).elim
      · intro hc hd
        rcases hop with ⟨s, v, rfl, rfl, hst⟩ | ⟨s, rfl, -, rfl⟩
        · obtain ⟨runId, tenantId, hcancel, hread⟩ := (hcall hd).2 (hst ▸ hc)
          rw [known hread]
          exact ⟨tenantId, hcancel⟩
        · have hrec : x.state.status = .received := hcall hd
          rw [hrec] at hc
          cases hc

theorem signed_trace {w₀ : World V} (h₀ : Fresh w₀) (hw₀ : NoFlights w₀) {l : Log cfg Unit}
    {P : Pool (Op.Resp (V := V)) Exn (World V) Unit}
    (h : (runtimeSys cfg A calls fun _ => True).Trace (freshPool w₀) l P) :
    Signed cfg calls l P.world := by
  refine deployment_invariant h₀ ⟨Guarded.init hw₀, fun _ _ _ _ h => (nomatch h), fun id h' hg => ?_⟩
    (fun l w t p hI hpast _ => hI.keep (pastOf_entered hpast) ⟨rfl, fun _ => rfl⟩ rfl rfl
      (Finset.subset_insert t _))
    (fun l w t b o a r w' hv hI ht _ hdrive hcall hact => hI.run hv ht hdrive hcall hact)
    (fun l w t x hI => hI.keep (fun _ => rfl) ⟨rfl, fun _ => rfl⟩ rfl rfl (Finset.Subset.refl _))
    (fun l w t hI => hI.keep (fun _ => rfl) ⟨rfl, fun _ => rfl⟩ rfl rfl (Finset.Subset.refl _)) h
  rw [h₀.runs] at hg
  cases hg

end

/-! ## The theorem -/

/-- **A cancellation stays with its task**, as long as no owner is interrupted before it has handed
    over and nothing but an interruption raises a `CancelledError`: a call raises one only when its
    own task was cancelled; and a run becomes CANCELLED only by a `cancel` of that run or by its own
    driver once this driver was cancelled itself. -/
theorem cancellation_stays (cfg : Config V) :
    (∀ (S : CacheCall V → Prop) (_ : ∀ c, S c → FairClient cfg S c.loader)
      (calls : Nat → CacheCall V) (_ : ∀ t, S (calls t)) (w₀ : World V) (_ : NoFlights w₀)
      (l : Log cfg (V × Bool)) (P : Pool (Op.Resp (V := V)) Exn (World V) (V × Bool)),
      (cacheSys cfg calls).Trace ⟨w₀, fun _ => none⟩ l P → Throughout OwnersSafe l →
      ∀ t c l', S c → c.Ended cfg.lib l' (.error .cancelled) (pastOf t l) →
        Raised .cancelled l' ∧ Struck .cancelled t l) ∧
    ∀ (calls : Nat → Call V) (w₀ : World V) (_ : Fresh w₀) (_ : NoFlights w₀)
      (l : Log cfg Unit) (P : Pool (Op.Resp (V := V)) Exn (World V) Unit),
      (anyTasks cfg calls).Trace (freshPool w₀) l P → Throughout OwnersSafe l →
      ∀ id h r, P.world.runs.get id = some h → r ∈ h.records → r.state.status = .cancelled →
        (∃ tenantId, P.world.drivers.get r.writer = none ∧
          calls r.writer = .cancel id tenantId) ∨
        ∃ d e, P.world.drivers.get r.writer = some d ∧ d.runId = id ∧
          e.isException = false ∧ Struck e r.writer l := by
  refine ⟨fun S hS calls hcalls w₀ hw₀ l P h hall t c l' hc he => ?_,
    fun calls w₀ h₀ hw₀ l P h hall id h' r hg hr hst => ?_⟩
  · obtain ⟨⟨h₁, h₃, hpast⟩, hafter⟩ := he
    have hraised : Raised .cancelled l' := by
      have hend := ((fair_obeys hc (hS c hc) []).after hafter).ofResult
      obtain ⟨l₁, hl₁, -, he⟩ := hend
      rw [List.append_nil, List.append_nil] at hl₁
      rcases he .cancelled rfl with hown | hraised
      · cases hown
      · rwa [hl₁]
    refine ⟨hraised, ((guarded_calls hS hcalls hw₀ h).2 hall).struck t .cancelled rfl ?_⟩
    rw [hpast]
    exact Raised.append_right hraised.append_left
  · have hsigned := signed_trace h₀ hw₀ h
    obtain ⟨-, hown, hstruck, hasked⟩ := hsigned.records id h' hg r hr
    cases hd : P.world.drivers.get r.writer with
    | none =>
      obtain ⟨tenantId, hcancel⟩ := hasked hst hd
      exact Or.inl ⟨tenantId, rfl, hcancel⟩
    | some d =>
      obtain ⟨e, he, hraised⟩ := hstruck hst d hd
      exact Or.inr ⟨d, e, rfl, hown d hd, he, (hsigned.guarded.2 hall).struck _ e he hraised⟩

/-- Does this event interrupt task `t`? -/
def Event.strikes {ρ : Type} {cfg : Config V} (t : Nat) :
    Event (Op.Resp (V := V)) cfg.sem.Ans Exn ρ → Bool
  | .awaited t' _ (.before _) _ | .awaited t' _ (.after ..) _ => t' = t
  | _ => false

theorem Struck.strikes {ρ : Type} {cfg : Config V} {e : Exn} {t : Nat} {l : Log cfg ρ}
    (h : Struck e t l) : l.any (Event.strikes t) = true := by
  obtain ⟨o, a, r, hm, hi⟩ := h
  refine List.any_eq_true.2 ⟨_, hm, ?_⟩
  rcases hi with rfl | ⟨c, rfl⟩ <;> exact decide_eq_true rfl

namespace Sample

/-- The task is cancelled where it waits. -/
def strike (t : Nat) : Move cacheConfig.sem.Ans Exn := .run t fun _ => .before .cancelled

theorem resultsCall_fair (S : CacheCall String → Prop) :
    FairClient cacheConfig S resultsCall.loader :=
  .await rfl (fun _ => .pure _) fun _ => .raise (Or.inr rfl)

/-- A call that has raised. -/
theorem resultsCall_ended {l : Log cacheConfig (String × Bool)}
    {P : Pool (Op.Resp (V := String)) Exn (World String) (String × Bool)}
    (h : (cacheSys cacheConfig fun _ => resultsCall).Trace ⟨{}, fun _ => none⟩ l P) {t : Nat}
    {e : Exn} (he : .ended t (.error e) ∈ l) :
    resultsCall.Ended cacheConfig.lib (pastOf t l) (.error e) (pastOf t l) := by
  obtain ⟨hT, -, hentered⟩ := held_trace (S := (· = resultsCall))
    (by rintro _ rfl; exact resultsCall_client _) (fun _ => rfl) ⟨fun _ => rfl, rfl⟩ h
  obtain ⟨y, hy, hx⟩ := ended_of_tracked hT hentered he
  cases y <;> cases hx
  exact hy

section
variable {ρ : Type} {cfg : Config V} {t : Nat} {o : Op V} {r : Except Exn o.Resp} {l : Log cfg ρ}

theorem ownersSafe_ok {c : o.Choice} :
    OwnersSafe l (.awaited t o (.done (Answer.ok c)) r) := by
  refine ⟨fun e h => ?_, fun e h => ?_⟩
  · rcases h with h | ⟨_, h⟩ <;> cases h
  · rcases h with h | ⟨_, h⟩ <;> cases h

theorem ownersSafe_waiter {e : Exn} (h : opened (pastOf t l) = []) :
    OwnersSafe l (.awaited t o (.before e) r) := by
  refine ⟨fun e' _ g hg => ?_, fun e' h' => ?_⟩
  · rw [h] at hg
    cases hg
  · rcases h' with h' | ⟨_, h'⟩ <;> cases h'

end

end Sample

/-- The second call is cancelled while it waits for the first: it alone raises. -/
theorem cancellation_stays_results :
    ∃ (l : Log Sample.cacheConfig (String × Bool))
      (P : Pool (Op.Resp (V := String)) Exn (World String) (String × Bool)),
      (cacheSys Sample.cacheConfig fun _ => Sample.resultsCall).Trace ⟨{}, fun _ => none⟩ l P ∧
      l.any (Event.strikes 0) = false ∧ Struck .cancelled 1 l := by
  obtain ⟨l, P, h, rfl⟩ := Player.exists_trace Sample.resultsPlayer
    (Sample.resultsMoves ++ [Sample.strike 1]) ⟨{}, fun _ => none⟩ Prod.fst rfl
  refine ⟨_, P, h, rfl, ?_⟩
  have hended := Sample.resultsCall_ended h (t := 1) (e := .cancelled) List.mem_cons_self
  exact (((cancellation_stays Sample.cacheConfig).1 (· = Sample.resultsCall)
    (by rintro _ rfl; exact Sample.resultsCall_fair _) (fun _ => Sample.resultsCall)
    (fun _ => rfl) {} ⟨fun _ => rfl, rfl⟩ _ P h
    ⟨trivial, Sample.ownersSafe_waiter rfl, Sample.ownersSafe_ok, Sample.ownersSafe_ok, trivial,
      Sample.ownersSafe_ok, Sample.ownersSafe_ok, trivial, trivial⟩ 1 Sample.resultsCall _ rfl
    hended).2)

/-- The first call is cancelled in its loader: the second raises `CancelledError`, though it was
    not cancelled. -/
theorem cancellation_spreads :
    ¬∀ (S : CacheCall String → Prop) (_ : ∀ c, S c → FairClient Sample.cacheConfig S c.loader)
      (calls : Nat → CacheCall String) (_ : ∀ t, S (calls t)) (w₀ : World String)
      (_ : NoFlights w₀) (l : Log Sample.cacheConfig (String × Bool))
      (P : Pool (Op.Resp (V := String)) Exn (World String) (String × Bool)),
      (cacheSys Sample.cacheConfig calls).Trace ⟨w₀, fun _ => none⟩ l P →
      ∀ t c l', S c → c.Ended Sample.cacheConfig.lib l' (.error .cancelled) (pastOf t l) →
        Struck .cancelled t l := by
  intro hclaim
  obtain ⟨l, P, h, rfl⟩ := Player.exists_trace Sample.resultsPlayer
    (Sample.resultsMoves ++ [Sample.strike 0, .run 0 obliging, .run 0 obliging, .run 1 obliging])
    ⟨{}, fun _ => none⟩ Prod.fst rfl
  have hended := Sample.resultsCall_ended h (t := 1) (e := .cancelled) List.mem_cons_self
  have hstruck := hclaim (· = Sample.resultsCall)
    (by rintro _ rfl; exact Sample.resultsCall_fair _) (fun _ => Sample.resultsCall)
    (fun _ => rfl) {} ⟨fun _ => rfl, rfl⟩ _ P h 1 Sample.resultsCall _ rfl hended
  cases hstruck.strikes

end TracciaRuntime
