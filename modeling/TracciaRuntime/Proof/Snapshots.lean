/-
  What holds of every state of a graph: in memory, in a statement in flight and in the store.

  * `Carried`: an assertion about states, and one about drives, that every move carries on;
  * `Fleet.Under`, `Session.Under`: the runs whose moves meet a condition;
  * `Carried.fleet`, `Carried.session`: in these runs the assertions hold, whatever the drives
    know of each other.
-/
import TracciaRuntime.Proof.Fleets

namespace TracciaRuntime.Analytics

open Machine AnalyticalGraphState

variable {V : Type} {e : Engine V} {g : AnalyticalGraph V} {row row' : Option (AnalyticalGraphState V)}
  {d d' : Drive V} {p : AnalyticalGraphState V}

/-! ## Moves -/

/-- A move leaves the row as it is, or writes the state in memory or that of the call in flight. -/
theorem Move.writes {a : Act V} (hm : Move e g row d a row' d') :
    row' = row ∨ row' = some (e.store.kept e.values d.memory) ∨
      ∃ f, d.flight = some f ∧ row' = some (d.payload e f) := by
  cases hm with
  | create _ hc =>
    unfold StoreKind.create at hc
    split at hc
    · cases hc
      exact .inr (.inl rfl)
    · cases hc
      exact .inl rfl
  | commit hflight hsave =>
    rcases StoreKind.save_cases hsave with ⟨-, rfl, -⟩ | ⟨-, rfl, -⟩
    · exact .inr (.inr ⟨_, hflight, rfl⟩)
    · exact .inl rfl
  | _ => exact .inl rfl

/-- A statement in flight has been so before, or is that of the state in memory. -/
theorem Move.sends {a : Act V} (hm : Move e g row d a row' d') (he : e.store = .postgres)
    {f : Flight V} (hf : d'.flight = some f) :
    (∃ f', d.flight = some f' ∧ f.sent = f'.sent) ∨
      f.sent = e.store.kept e.values { d.memory with version := d.memory.version + 1 } := by
  have hsame : d'.flight = d.flight → ∃ f', d.flight = some f' ∧ f.sent = f'.sent := fun h =>
    ⟨f, h ▸ hf, rfl⟩
  cases hm with
  | create | created | quit | locked | strike | node => exact .inl (hsame rfl)
  | acquire =>
    refine .inr ?_
    unfold Drive.send at hf
    simp only [he, Option.some.injEq] at hf
    rw [← hf, he]
    rfl
  | commit hflight _ =>
    cases hf
    exact .inl ⟨_, hflight, rfl⟩
  | answer _ hs | conflict _ hs | broken _ _ hs =>
    rw [(Drive.saved_frame hs).1] at hf
    cases hf
  | cut _ _ hs => exact .inl (hsame (Drive.saved_frame hs).1)
  | struck | failed => exact .inl (hsame (Drive.finish_flight d _))
  | again => exact .inl (hsame (d.schedule_frame g).1)

/-! ## Assertions -/

/-- The store may hold the state. -/
def Stored (e : Engine V) (g : AnalyticalGraph V) (Q : AnalyticalGraphState V → Prop)
    (p : AnalyticalGraphState V) : Prop :=
  Kept e p ∧ p.Sound g ∧ Q p

/-- What is asserted of a drive and its states. -/
structure Asserted (e : Engine V) (g : AnalyticalGraph V) (Q : AnalyticalGraphState V → Prop)
    (R : Drive V → Prop) (d : Drive V) : Prop where
  sound : d.Sound g
  memory : Q d.memory
  drive : R d
  sent : e.store = .postgres → ∀ f, d.flight = some f → Stored e g Q f.sent

/-- The assertion about states and that about drives go on with every move that meets the
    condition `C`. -/
structure Carried (e : Engine V) (g : AnalyticalGraph V) (Q : AnalyticalGraphState V → Prop)
    (R : Drive V → Prop) (C : Drive V → Act V → Drive V → Prop) : Prop where
  version : ∀ s v, Q s → Q { s with version := v }
  kept : ∀ s, Q s → Q (e.store.kept e.values s)
  run : ∀ context, Q (Drive.run context).memory ∧ R (Drive.run context)
  resume : ∀ p, Q p → Q p.recover ∧ R { memory := p.recover, stage := .locking }
  move : ∀ row d a row' d', d.Sound g → Q d.memory → R d → Move e g row d a row' d' → C d a d' →
    Q d'.memory ∧ R d'

variable {Q : AnalyticalGraphState V → Prop} {R : Drive V → Prop}
  {C : Drive V → Act V → Drive V → Prop}

namespace Carried

/-- The states that a drive writes. -/
theorem stored (h : Carried e g Q R C) {s : AnalyticalGraphState V} (hs : s.Sound g) (hq : Q s) :
    Stored e g Q (e.store.kept e.values s) :=
  ⟨kept_kept e s, hs.kept e, h.kept s hq⟩

theorem asserted_run (h : Carried e g Q R C) (context : GraphExecutionContext) :
    Asserted e g Q R (Drive.run context) where
  sound := (show Fleet.Attached e g none (Drive.run context) from .run context).sound
  memory := (h.run context).1
  drive := (h.run context).2
  sent _ f hf := by cases hf

theorem asserted_resume (h : Carried e g Q R C) {id : String} {context : GraphExecutionContext}
    (hd : Drive.resume id context row = .ok d) (hrow : ∀ p, row = some p → Stored e g Q p) :
    Asserted e g Q R d := by
  have ha := Fleet.Attached.resume hd fun p hp => ⟨(hrow p hp).1, (hrow p hp).2.1⟩
  obtain ⟨p, rfl, -, -, rfl⟩ := Fleet.resume_cases hd
  obtain ⟨hq, hr⟩ := h.resume p (hrow p rfl).2.2
  exact ⟨ha.sound, hq, hr, fun _ f hf => by cases hf⟩

/-- **A move carries the assertions on**, and what it writes meets them. -/
theorem moved (h : Carried e g Q R C) {a : Act V} (hd : Asserted e g Q R d)
    (hm : Move e g row d a row' d') (hrow : ∀ p, row = some p → Stored e g Q p) (hc : C d a d') :
    Asserted e g Q R d' ∧ ∀ p, row' = some p → Stored e g Q p := by
  obtain ⟨hq, hr⟩ := h.move row d a row' d' hd.sound hd.memory hd.drive hm hc
  have hversion : ∀ v, ({ d.memory with version := v } : AnalyticalGraphState V).Sound g ∧
      Q { d.memory with version := v } := fun v =>
    ⟨⟨hd.sound.memory.outside, hd.sound.memory.result, hd.sound.memory.skipped⟩,
      h.version _ v hd.memory⟩
  refine ⟨⟨hm.turn.sound hd.sound, hq, hr, fun he f hf => ?_⟩, fun p hp => ?_⟩
  · rcases hm.sends he hf with ⟨f', hf', hsent⟩ | hsent
    · rw [hsent]
      exact hd.sent he f' hf'
    · rw [hsent]
      exact h.stored (hversion _).1 (hversion _).2
  · rcases hm.writes with hsame | hkept | ⟨f, hf, hpayload⟩
    · exact hrow p (hsame ▸ hp)
    · rw [hkept] at hp
      cases hp
      exact h.stored hd.sound.memory hd.memory
    · rw [hpayload] at hp
      cases hp
      unfold Drive.payload
      cases he : e.store with
      | memory => exact ⟨by rw [Kept, he]; rfl, hversion _⟩
      | postgres => exact hd.sent he f hf

end Carried

/-! ## Runs -/

/-- The moves of the drives meet the condition. -/
def Fleet.Under (e : Engine V) (g : AnalyticalGraph V) (C : Drive V → Act V → Drive V → Prop)
    (t : Fleet V) : FleetAct V → Prop
  | .go k a => ∀ d ∈ t.drives k, ∀ r ∈ d.step e g t.row a, C d a r.2
  | _ => True

/-- The moves of the drive meet the condition. -/
def Session.Under (e : Engine V) (g : AnalyticalGraph V) (C : Drive V → Act V → Drive V → Prop)
    (t : Session V) : SessionAct V → Prop
  | .go a => ∀ d ∈ t.drive, ∀ r ∈ d.step e g t.row a, C d a r.2
  | _ => True

instance [∀ d a d', Decidable (C d a d')] (t : Fleet V) (b : FleetAct V) :
    Decidable (Fleet.Under e g C t b) :=
  match b with
  | .go k a => inferInstanceAs (Decidable (∀ d ∈ t.drives k, ∀ r ∈ d.step e g t.row a, C d a r.2))
  | .run .. | .resume .. | .crash _ => .isTrue trivial

namespace Carried

/-- **Any number of drives.** -/
theorem fleet (h : Carried e g Q R C) {t : Fleet V}
    (hs : Steps (Fleet.step e g) (Fleet.Under e g C) {} t) :
    (∀ p, t.row = some p → Stored e g Q p) ∧ ∀ k d, t.drives k = some d → Asserted e g Q R d := by
  refine hs.keeps (I := fun t => (∀ p, t.row = some p → Stored e g Q p) ∧
    ∀ k d, t.drives k = some d → Asserted e g Q R d)
    ⟨fun p hp => by (cases hp), fun k d hd => by (cases hd)⟩ ?_
  clear hs t
  rintro t b t' ⟨hrow, hdrives⟩ hb hstep
  have hput : ∀ {x : Option (Drive V)} {k : Nat}, (∀ d, x = some d → Asserted e g Q R d) →
      ∀ j d, Function.update t.drives k x j = some d → Asserted e g Q R d := fun hx j d hd =>
    (Fleet.drives_put hd).elim (hx d) (hdrives j d)
  cases b with
  | run k context =>
    simp only [Fleet.step, Option.ite_none_right_eq_some] at hstep
    obtain ⟨-, hstep⟩ := hstep
    cases hstep
    exact ⟨hrow, hput fun d hd => by cases hd; exact h.asserted_run context⟩
  | resume k context =>
    simp only [Fleet.step, Option.ite_none_right_eq_some] at hstep
    obtain ⟨-, hstep⟩ := hstep
    split at hstep
    · rename_i d hd
      cases hstep
      exact ⟨hrow, hput fun d₁ hd₁ => by cases hd₁; exact h.asserted_resume hd hrow⟩
    · cases hstep
      exact ⟨hrow, hdrives⟩
  | go k a =>
    obtain ⟨d, hd, hstep⟩ := Option.bind_eq_some_iff.1 hstep
    obtain ⟨⟨row', d'⟩, hmove, hstep⟩ := Option.bind_eq_some_iff.1 hstep
    cases hstep
    obtain ⟨hd', hrow'⟩ := h.moved (hdrives k d hd) (move_of_step hmove) hrow (hb d hd _ hmove)
    exact ⟨hrow', hput fun d₁ hd₁ => by cases hd₁; exact hd'⟩
  | crash k =>
    cases hstep
    exact ⟨hrow, hput fun d hd => by cases hd⟩

/-- **One drive after the other.** -/
theorem session (h : Carried e g Q R C) {t : Session V}
    (hs : Steps (Session.step e g) (Session.Under e g C) {} t) :
    (∀ p, t.row = some p → Stored e g Q p) ∧ ∀ d, t.drive = some d → Asserted e g Q R d := by
  refine hs.keeps (I := fun t => (∀ p, t.row = some p → Stored e g Q p) ∧
    ∀ d, t.drive = some d → Asserted e g Q R d)
    ⟨fun p hp => by (cases hp), fun d hd => by (cases hd)⟩ ?_
  clear hs t
  rintro t b t' ⟨hrow, hdrive⟩ hb hstep
  cases b with
  | run context =>
    simp only [Session.step, Option.ite_none_right_eq_some] at hstep
    obtain ⟨-, hstep⟩ := hstep
    cases hstep
    exact ⟨hrow, fun d hd => by cases hd; exact h.asserted_run context⟩
  | resume context =>
    simp only [Session.step, Option.ite_none_right_eq_some] at hstep
    obtain ⟨-, hstep⟩ := hstep
    split at hstep
    · rename_i d hd
      cases hstep
      exact ⟨hrow, fun d₁ hd₁ => by cases hd₁; exact h.asserted_resume hd hrow⟩
    · cases hstep
      exact ⟨hrow, hdrive⟩
  | go a =>
    obtain ⟨d, hd, hstep⟩ := Option.bind_eq_some_iff.1 hstep
    obtain ⟨⟨row', d'⟩, hmove, hstep⟩ := Option.bind_eq_some_iff.1 hstep
    cases hstep
    obtain ⟨hd', hrow'⟩ := h.moved (hdrive d hd) (move_of_step hmove) hrow (hb d hd _ hmove)
    exact ⟨hrow', fun d₁ hd₁ => by cases hd₁; exact hd'⟩
  | crash =>
    cases hstep
    exact ⟨hrow, fun d hd => by (cases hd)⟩

end Carried

end TracciaRuntime.Analytics
