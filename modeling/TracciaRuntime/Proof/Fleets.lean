/-
  Any number of drives over one row.

  * `Timely`: no drive has a version that it has neither read nor written;
  * `Fleet.Inv`: the invariant of a fleet; `Fleet.Inv.step`: every move keeps it, and the row
    loses nothing, unless a statement is lost (`Undamaged`);
  * `results_kept`: what is `COMPLETED` in the store stays so, with its result;
  * `results_lost`: a run in which lost statements take a driver ahead of the store.
-/
import TracciaRuntime.Analytics.Sessions
import TracciaRuntime.Proof.Checkpoints

namespace TracciaRuntime.Analytics

open Machine AnalyticalGraphState

variable {V : Type} {e : Engine V} {g : AnalyticalGraph V} {row row' : Option (AnalyticalGraphState V)}
  {d d' : Drive V} {p p' : AnalyticalGraphState V}

/-! ## Versions -/

namespace Drive

/-- The versions of a drive are ones of the row. -/
structure Timely (e : Engine V) (p : AnalyticalGraphState V) (d : Drive V) : Prop where
  le : d.base ≤ p.version
  lost : ∀ f ∈ d.flight, f.verdict = some false → f.expected < p.version
  memory : e.store = .memory → ∀ f ∈ d.flight, f.verdict = none → d.memory.version = f.expected

/-- A call of `save` that raises has taken effect. -/
def Undamaged (e : Engine V) (d : Drive V) (a : Act V) : Prop :=
  e.store = .postgres → (∃ x, a = .broken x) → ∀ f ∈ d.flight, f.verdict = some true

theorem Timely.mono (h : d.Timely e p) (hv : p.version ≤ p'.version) : d.Timely e p' :=
  ⟨h.le.trans hv, fun f hf hvd => (h.lost f hf hvd).trans_le hv, h.memory⟩

theorem Timely.frame (h : d.Timely e p) (hf : d'.flight = d.flight)
    (hv : d'.memory.version = d.memory.version) : d'.Timely e p := by
  refine ⟨?_, fun f hff => h.lost f (hf ▸ hff), fun he f hff hvd => ?_⟩
  · rw [base, hf, hv]; exact h.le
  · rw [hv]; exact h.memory he f (hf ▸ hff) hvd

/-- With no call in flight only the version counts. -/
theorem Timely.of_grounded (hf : d.flight = none) (hv : d.memory.version ≤ p.version) :
    d.Timely e p := by
  refine ⟨?_, fun f hff => ?_, fun _ f hff => ?_⟩
  · rw [base, hf]; exact hv
  · rw [hf] at hff; cases hff
  · rw [hf] at hff; cases hff

theorem Timely.base_of_broken {f : Flight V} {x : Raised} (h : d.Timely e p) (hf : d.flight = some f)
    (hb : Breaks e f.verdict x) (hu : d.Undamaged e (.broken x)) : d.memory.version = d.base := by
  obtain ⟨a, expected, sent, verdict⟩ := f
  have hmem := h.memory
  cases he : e.store with
  | postgres =>
    have hv := hu he ⟨x, rfl⟩ _ hf
    dsimp only at hv
    subst hv
    rw [base, hf]
  | memory =>
    rcases hb with hb | ⟨hv, -⟩
    · rw [he] at hb; cases hb
    · dsimp only at hv
      subst hv
      rw [hmem he _ hf rfl, base, hf]

end Drive

/-- A move that leaves the row as it is. -/
theorem Move.timely {now : Nat → Prop} {a : Act V} (h : Move e g (some p) d a (some p) d')
    (ht : d.Timely e p) (hd : d.Sound g) (hl : d.Linked e g now p) (hu : d.Undamaged e a)
    (hr : d.Registered) : d'.Timely e p := by
  cases h with
  | create hc => rw [Drive.Registered, hc] at hr; exact hr.elim
  | created | quit | locked | strike | node => exact ht.frame rfl rfl
  | acquire hf _ =>
    have hle : d.memory.version ≤ p.version := by simpa only [Drive.base, hf] using ht.le
    unfold Drive.send
    cases he : e.store with
    | memory =>
      exact ⟨hle, fun f hff hv => by (cases hff; cases hv), fun _ f hff _ => by cases hff; rfl⟩
    | postgres =>
      refine ⟨hle, fun f hff hv => by (cases hff; cases hv), fun he' => ?_⟩
      rw [he] at he'; cases he'
  | @commit a expected sent ok _ hf hsv =>
    rcases StoreKind.save_cases hsv with ⟨rfl, hp, p₁, hp₁, hv⟩ | ⟨rfl, -, hne⟩
    · cases hp₁
      have hver := (hl.commit hd hf hv).version.2
      rw [← Option.some.inj hp] at hver
      omega
    · have hle : expected ≤ p.version := by simpa only [Drive.base, hf] using ht.le
      refine ⟨hle, fun f hff _ => ?_, fun _ f hff hv => by cases hff; cases hv⟩
      cases hff
      exact lt_of_le_of_ne hle fun h => hne p rfl h.symm
  | answer hf hsv =>
    obtain ⟨hfl, hver⟩ := Drive.saved_frame hsv
    exact .of_grounded hfl (by rw [hver]; simpa only [Drive.base, hf] using ht.le)
  | conflict hf hsv =>
    obtain ⟨hfl, hver⟩ := Drive.saved_frame hsv
    exact .of_grounded hfl (by rw [hver]; simpa only [Drive.base, hf] using ht.le)
  | broken hf hb hsv =>
    obtain ⟨hfl, hver⟩ := Drive.saved_frame hsv
    refine .of_grounded hfl ?_
    rw [hver]
    exact (ht.base_of_broken hf hb hu).le.trans ht.le
  | cut hf ha hsv =>
    obtain ⟨hfl, hver⟩ := Drive.saved_frame hsv
    exact ht.frame hfl hver
  | struck | failed => exact ht.frame (Drive.finish_flight d _) (Drive.finish_version d _)
  | again =>
    obtain ⟨hfl, hver⟩ := d.schedule_frame g
    exact ht.frame hfl hver

/-- A drive without its row can only create it, or come to its end. -/
theorem Move.unregistered {a : Act V} (h : Move e g row d a row' d') (hf : d.Flown g)
    (hr : ¬ d.Registered) : (d.stage = .creating none ∧ row = none ∧
      row' = some (e.store.kept e.values d.memory) ∧ d' = { d with stage := .creating (some true) }) ∨
      row' = row ∧ ¬ d'.Registered := by
  have hsav : ∀ b, ¬ d.Saving g b := fun b hb => hr (by
    rcases hb.driver_or with ⟨-, hs | ⟨o, hs⟩⟩ | ⟨i, -, hs, -⟩ <;> rw [Drive.Registered, hs] <;> trivial)
  have hflight := hf.grounded hsav
  have hwait : d.stage ≠ .waiting := fun hs => hr (by rw [Drive.Registered, hs]; trivial)
  cases h with
  | @create ok row' hs hc =>
    unfold StoreKind.create at hc
    split at hc
    · cases hc; exact .inl ⟨hs, rfl, rfl, rfl⟩
    · cases hc; exact .inr ⟨rfl, id⟩
  | created hs | locked hs => exact absurd (by rw [Drive.Registered, hs]; trivial) hr
  | quit => exact .inr ⟨rfl, id⟩
  | acquire _ hs => exact absurd hs (hsav _)
  | commit hf _ | answer hf _ | conflict hf _ | broken hf _ _ => rw [hflight] at hf; cases hf
  | @cut a _ _ _ hs =>
    cases a with
    | driver =>
      have hopen : d.stage ≠ .opening := fun h => hsav .driver (.inl h)
      have hclose : ∀ o, d.stage ≠ .closing o := fun o h => hsav .driver (.inr ⟨o, h⟩)
      unfold Drive.saved at hs
      cases hst : d.stage with
      | opening => exact absurd hst hopen
      | closing o => exact absurd hst (hclose o)
      | creating | locking | waiting | ended => rw [hst] at hs; cases hs
    | node i =>
      simp only [Drive.saved, Option.ite_none_right_eq_some] at hs
      exact absurd hs.1 hwait
  | node hs | strike hs | struck hs | again hs | failed hs => exact absurd hs hwait

/-! ## Fleets -/

namespace Fleet

/-- What a drive knows of the row. -/
structure Attached (e : Engine V) (g : AnalyticalGraph V) (row : Option (AnalyticalGraphState V))
    (d : Drive V) : Prop where
  sound : d.Sound g
  flown : d.Flown g
  row : d.Registered → ∃ p, row = some p ∧ d.Linked e g (· = p.version) p ∧ d.Timely e p

structure Inv (e : Engine V) (g : AnalyticalGraph V) (s : Fleet V) : Prop where
  row : ∀ p, s.row = some p → Kept e p ∧ p.Sound g
  drives : ∀ k d, s.drives k = some d → Attached e g s.row d

/-- The row loses nothing, and bears a new version if it is written. -/
def Grows (row row' : Option (AnalyticalGraphState V)) : Prop :=
  ∀ p, row = some p → ∃ p', row' = some p' ∧ Keeps p p' ∧ (p' = p ∨ p.version < p'.version)

theorem Grows.refl (row : Option (AnalyticalGraphState V)) : Grows row row := fun p hp =>
  ⟨p, hp, .refl p, .inl rfl⟩

/-- The other drives do not notice that the row grows. -/
theorem Attached.grows (h : Attached e g row d) (hg : Grows row row') : Attached e g row' d := by
  refine ⟨h.sound, h.flown, fun hr => ?_⟩
  obtain ⟨p, hp, hl, ht⟩ := h.row hr
  obtain ⟨p', hp', -, rfl | hv⟩ := hg p hp
  · exact ⟨_, hp', hl, ht⟩
  refine ⟨p', hp', ⟨fun hb => ?_, fun he f hf hvd => ?_⟩, ht.mono (Nat.le_of_lt hv)⟩
  · exact absurd (hb.symm.trans_le ht.le) (Nat.not_le.2 hv)
  · obtain ⟨h1, h2, h3, -⟩ := hl.sent he f hf hvd
    refine ⟨h1, h2, h3, fun hb => ?_⟩
    have hle := ht.le
    obtain ⟨a, expected, sent, verdict⟩ := f
    dsimp only at hvd hb
    subst hvd
    rw [Drive.base, hf] at hle
    exact absurd (hb.symm.trans_le hle) (Nat.not_le.2 hv)

/-- **A move of one drive.** -/
theorem Attached.move {a : Act V} (h : Attached e g row d) (hm : Move e g row d a row' d')
    (hrow : ∀ p, row = some p → Kept e p ∧ p.Sound g) (hu : d.Undamaged e a) :
    Attached e g row' d' ∧ Grows row row' ∧ ∀ p, row' = some p → Kept e p ∧ p.Sound g := by
  have hsound := hm.turn.sound h.sound
  have hflown := hm.flown h.flown
  by_cases hr : d.Registered
  · obtain ⟨p, rfl, hl, ht⟩ := h.row hr
    have hb : ∀ x, a = .broken x → d.memory.version = p.version → d.base = p.version := by
      rintro x rfl hv
      cases hm with
      | quit _ hne => exact absurd rfl (hne x)
      | broken hf hbr _ => rw [← ht.base_of_broken hf hbr hu, hv]
    rcases hm.linked h.sound hl hr hb with ⟨rfl, hl'⟩ | ⟨p', rfl, hs⟩
    · refine ⟨⟨hsound, hflown, fun _ => ⟨p, rfl, hl', ?_⟩⟩, .refl _, hrow⟩
      exact hm.timely ht h.sound hl hu hr
    · have hver := hs.version
      refine ⟨⟨hsound, hflown, fun _ => ⟨p', rfl, hs.linked _, ?_⟩⟩, fun p₁ hp₁ => ?_, ?_⟩
      · refine ⟨hs.base.le, fun f hf hv => ?_, fun _ f hf hv => ?_⟩
        · rw [hs.answered f hf] at hv; cases hv
        · rw [hs.answered f hf] at hv; cases hv
      · cases hp₁
        exact ⟨p', rfl, hs.keeps rfl, .inr (by omega)⟩
      · rintro p₁ hp₁
        cases hp₁
        exact hs.kept
  · rcases hm.unregistered h.flown hr with ⟨hs, rfl, rfl, rfl⟩ | ⟨rfl, hr'⟩
    · have hflight : d.flight = none := h.flown.grounded_of_early (.inl ⟨_, hs⟩)
      refine ⟨⟨hsound, hflown, fun _ => ⟨_, rfl, ⟨fun _ => below_kept e _, ?_⟩, ?_⟩⟩, nofun, ?_⟩
      · intro _ f hf
        rw [show ({ d with stage := .creating (some true) } : Drive V).flight = none from hflight] at hf
        cases hf
      · exact .of_grounded hflight (by rw [kept_version])
      · rintro p hp
        cases hp
        exact ⟨kept_kept e _, h.sound.memory.kept e⟩
    · exact ⟨⟨hsound, hflown, fun hr₁ => absurd hr₁ hr'⟩, .refl _, hrow⟩

/-! ## Starts -/

theorem Attached.run (context : GraphExecutionContext) : Attached e g row (Drive.run context) where
  sound := ⟨fun _ _ => ⟨rfl, rfl⟩, nofun, nofun, fun _ _ => ⟨nofun, rfl⟩, nofun, nofun, nofun, nofun⟩
  flown := nofun
  row := fun h => h.elim

theorem recover_cases (p : AnalyticalGraphState V) (i : String) :
    ((p.nodes i).status = .running ∧ (p.recover.nodes i).status = .pending) ∨
      (p.nodes i).status ≠ .running ∧ p.recover.nodes i = p.nodes i := by
  by_cases h : (p.nodes i).status = .running
  · exact .inl ⟨h, by simp [recover, h]⟩
  · exact .inr ⟨h, by simp [recover, h]⟩

theorem resume_cases {id : String} {context : GraphExecutionContext}
    (h : Drive.resume id context row = .ok d) :
    ∃ p, row = some p ∧ p.tenantId = context.tenantId ∧ p.userId = context.userId ∧
      d = { memory := p.recover, stage := .locking } := by
  unfold Drive.resume getState at h
  split at h
  · cases h
  rename_i p hp
  rw [Option.filter_eq_some_iff] at hp
  split at h
  · cases h
  rename_i hu
  cases h
  exact ⟨p, hp.1, by simpa using hp.2, by simpa using hu, rfl⟩

theorem Attached.resume {id : String} {context : GraphExecutionContext}
    (h : Drive.resume id context row = .ok d) (hrow : ∀ p, row = some p → Kept e p ∧ p.Sound g) :
    Attached e g row d := by
  obtain ⟨p, rfl, -, -, rfl⟩ := resume_cases h
  obtain ⟨hk, hs⟩ := hrow p rfl
  have hcompleted : ∀ i, (p.recover.nodes i).status = .completed →
      (p.nodes i).status = .completed := fun i hi => by
    rcases recover_cases p i with ⟨-, h⟩ | ⟨-, h⟩
    · rw [h] at hi; cases hi
    · rwa [h] at hi
  refine ⟨⟨fun i hi => ⟨rfl, hs.outside i hi⟩, fun i hi => hs.result i (hcompleted i hi),
    fun i => ?_, fun _ i => ⟨?_, rfl⟩, by intros; contradiction,
      by intros; contradiction, by simp, by simp⟩,
    (fun f hf => by cases hf),
    fun _ => ⟨p, rfl, ⟨fun _ i hi => ?_, fun _ f hf => by cases hf⟩, .of_grounded rfl le_rfl⟩⟩
  · rcases recover_cases p i with ⟨-, h⟩ | ⟨-, h⟩
    · rw [Drive.statusOf, h]; simp
    · rw [Drive.statusOf, h]; exact hs.skipped i
  · rcases recover_cases p i with ⟨-, h⟩ | ⟨hne, h⟩
    · rw [Drive.statusOf, h]; simp
    · rw [Drive.statusOf, h]; exact hne
  · refine ⟨?_, ?_⟩
    · rcases recover_cases p i with ⟨h, -⟩ | ⟨-, h⟩
      · rw [hi] at h; cases h
      · exact h
    · have hres : (e.store.kept e.values p.recover).results i = (e.store.kept e.values p).results i :=
        kept_results_congr rfl
      exact hres.trans (by rw [hk])

/-! ## Runs -/

/-- The moves of a run in which no statement is lost. -/
def Undamaged (e : Engine V) (s : Fleet V) (a : FleetAct V) : Prop :=
  ∀ k x, a = .go k x → ∀ d ∈ s.drives k, d.Undamaged e x

theorem Inv.start : Inv e g ({} : Fleet V) :=
  ⟨fun p hp => by (cases hp), fun k d hd => by (cases hd)⟩

/-- A drive of the fleet is replaced. -/
theorem drives_put {drives : Nat → Option (Drive V)} {k j : Nat} {x : Option (Drive V)} {d : Drive V}
    (h : Function.update drives k x j = some d) : x = some d ∨ drives j = some d := by
  by_cases hj : j = k
  · subst hj
    rw [Function.update_self] at h
    exact .inl h
  · rw [Function.update_of_ne hj] at h
    exact .inr h

theorem Inv.put {s : Fleet V} (h : Inv e g s) {k : Nat} (hd : Attached e g s.row d) :
    Inv e g { s with drives := Function.update s.drives k (some d) } := by
  refine ⟨h.row, fun j d₁ hd₁ => ?_⟩
  rcases drives_put hd₁ with hx | hx
  · cases hx; exact hd
  · exact h.drives j d₁ hx

theorem Inv.step {s s' : Fleet V} {a : FleetAct V} (h : Inv e g s) (hu : Undamaged e s a)
    (hs : s.step e g a = some s') : Inv e g s' ∧ Grows s.row s'.row := by
  cases a with
  | run k context =>
    simp only [Fleet.step, Option.ite_none_right_eq_some] at hs
    obtain ⟨-, hs⟩ := hs
    cases hs
    exact ⟨h.put (.run context), .refl _⟩
  | resume k context =>
    simp only [Fleet.step, Option.ite_none_right_eq_some] at hs
    obtain ⟨-, hs⟩ := hs
    split at hs
    · rename_i d hd
      cases hs
      exact ⟨h.put (.resume hd h.row), .refl _⟩
    · cases hs; exact ⟨h, .refl _⟩
  | go k a =>
    obtain ⟨d, hd, hs⟩ := Option.bind_eq_some_iff.1 hs
    obtain ⟨⟨row', d'⟩, hstep, hs⟩ := Option.bind_eq_some_iff.1 hs
    cases hs
    obtain ⟨ha, hg, hrow⟩ := (h.drives k d hd).move (move_of_step hstep) h.row (hu k a rfl d hd)
    refine ⟨⟨hrow, fun j d₁ hd₁ => ?_⟩, hg⟩
    rcases drives_put hd₁ with hx | hx
    · cases hx; exact ha
    · exact (h.drives j d₁ hx).grows hg
  | crash k =>
    cases hs
    refine ⟨⟨h.row, fun j d hd => ?_⟩, .refl _⟩
    rcases drives_put hd with hx | hx
    · cases hx
    · exact h.drives j d hx

theorem Inv.steps {s s' : Fleet V} (h : Inv e g s)
    (hs : Steps (Fleet.step e g) (Undamaged e) s s') :
    Inv e g s' ∧ ∀ p, s.row = some p → ∃ p', s'.row = some p' ∧ Keeps p p' := by
  induction hs with
  | refl => exact ⟨h, fun p hp => ⟨p, hp, .refl p⟩⟩
  | tail _ hm ih =>
    obtain ⟨a, hu, hstep⟩ := hm
    obtain ⟨hi, hk⟩ := ih
    obtain ⟨hi', hg⟩ := hi.step hu hstep
    refine ⟨hi', fun p hp => ?_⟩
    obtain ⟨p₁, hp₁, hk₁⟩ := hk p hp
    obtain ⟨p₂, hp₂, hk₂, -⟩ := hg p₁ hp₁
    exact ⟨p₂, hp₂, hk₁.trans hk₂⟩

/-- **What is `COMPLETED` in the store stays so, with its result**, as long as no statement of a
    `save` is lost. -/
theorem results_kept (e : Engine V) (g : AnalyticalGraph V) {s s' : Fleet V}
    (h : Steps (Fleet.step e g) (Undamaged e) {} s) (hs : Steps (Fleet.step e g) (Undamaged e) s s')
    {p : AnalyticalGraphState V} (hp : s.row = some p) {i : String}
    (hi : (p.nodes i).status = .completed) :
    ∃ p', s'.row = some p' ∧ p'.nodes i = p.nodes i ∧ p'.results i = p.results i := by
  obtain ⟨p', hp', hk⟩ := (Inv.start.steps h).1.steps hs |>.2 p hp
  exact ⟨p', hp', hk i hi⟩

end Fleet

/-! ## A sample -/

namespace Sample

/-- The first checkpoint of a node is lost. -/
def outage (i : String) : List (Act Value) :=
  [.node i .admitted, .acquire (.node i), .broken (.other "ConnectionError" "connection was closed")]

/-- The second driver stores the result of `a`. -/
def storing : List (FleetAct Value) :=
  .run 0 context :: started.map (.go 0) ++ .resume 1 context ::
    (Act.locked :: checkpoint .driver ++ handled "a").map (.go 1)

/-- The first driver has lost three statements meanwhile, and overwrites what the second one has
    stored. -/
def overwriting : List (FleetAct Value) :=
  (outage "a" ++ outage "b" ++ outage "c" ++
    [Act.gathered (some "a"), .acquire .driver, .commit]).map (.go 0)

end Sample

open Analytics.Sample

/-- A driver stores the result of a node, and another one whose version it meets by chance
    overwrites it. -/
theorem Fleet.results_lost : ¬ ∀ (e : Engine Value) (g : AnalyticalGraph Value) (s s' : Fleet Value),
    Steps (Fleet.step e g) anything {} s → Steps (Fleet.step e g) anything s s' →
    ∀ p, s.row = some p → ∀ i, (p.nodes i).status = .completed →
      ∃ p', s'.row = some p' ∧ p'.nodes i = p.nodes i ∧ p'.results i = p.results i := by
  intro h
  let step := Fleet.step (engine .postgres) Sample.graph
  have hs : ((play step {} storing).bind fun s => s.row.map fun p => (p.nodes "a").status) =
      some .completed := by decide +kernel
  have hs' : ((play step {} (storing ++ overwriting)).bind fun s =>
      s.row.map fun p => (p.nodes "a").status) = some .running := by decide +kernel
  obtain ⟨s, hplay, hs⟩ := Option.bind_eq_some_iff.1 hs
  obtain ⟨p, hp, hc⟩ := Option.map_eq_some_iff.1 hs
  rw [play_append, hplay] at hs'
  obtain ⟨s', hplay', hs'⟩ := Option.bind_eq_some_iff.1 hs'
  obtain ⟨p', hp', hc'⟩ := Option.map_eq_some_iff.1 hs'
  obtain ⟨p₁, hp₁, hn, -⟩ := h _ _ s s' (steps_of_play (fun _ _ _ => trivial) hplay)
    (steps_of_play (fun _ _ _ => trivial) hplay') p hp "a" hc
  rw [hp'] at hp₁
  cases hp₁
  rw [hn, hc] at hc'
  cases hc'

/-- The store raises nothing of its own. -/
def Sample.FleetAct.calm : FleetAct Value → Bool
  | .go _ (.broken _) => false
  | _ => true

theorem Sample.undamaged {e : Engine Value} {s s' : Fleet Value} {l : List (FleetAct Value)}
    (hl : l.all Sample.FleetAct.calm) (h : play (Fleet.step e Sample.graph) s l = some s') :
    Steps (Fleet.step e Sample.graph) (Fleet.Undamaged e) s s' := by
  refine steps_of_play (fun a ha s => ?_) h
  rintro k x rfl d - - ⟨y, rfl⟩
  have := List.all_eq_true.1 hl _ ha
  cases this

/-- Without an outage the result stays while the second node runs. -/
theorem Fleet.results_kept_sample : ∃ s s' : Fleet Value, ∃ p p' : AnalyticalGraphState Value,
    s.row = some p ∧ (p.nodes "a").status = .completed ∧ s'.row = some p' ∧
      p'.nodes "a" = p.nodes "a" ∧ p'.results "a" = p.results "a" := by
  let step := Fleet.step (engine .postgres) Sample.graph
  have hs : ((play step {} storing).bind fun s => s.row.map fun p => (p.nodes "a").status) =
      some .completed := by rfl
  have hs' : ((play step {} (storing ++ (handled "b").map (.go 1))).isSome) = true := by rfl
  obtain ⟨s, hplay, hs⟩ := Option.bind_eq_some_iff.1 hs
  obtain ⟨p, hp, hc⟩ := Option.map_eq_some_iff.1 hs
  obtain ⟨s', hs'⟩ := Option.isSome_iff_exists.1 hs'
  rw [play_append, hplay] at hs'
  obtain ⟨p', hp', hn, hr⟩ := Fleet.results_kept (engine .postgres) Sample.graph
    (Sample.undamaged (by decide) hplay) (Sample.undamaged (by decide) hs') hp hc
  exact ⟨s, s', p, p', hp, hc, hp', hn, hr⟩

end TracciaRuntime.Analytics
