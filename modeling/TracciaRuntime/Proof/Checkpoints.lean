/-
  What the checkpoints keep.

  * `Below`: what is `COMPLETED` in one state is so, with the same result, in another;
  * `Linked`: a drive and its statement in flight know what is `COMPLETED` in the row, as long
    as they are `Current`;
  * `Move.linked`: every move keeps this, and the row loses nothing by a write of a current
    drive.
-/
import TracciaRuntime.Proof.Drives

namespace TracciaRuntime.Analytics

variable {V : Type} {e : Engine V} {g : AnalyticalGraph V} {row row' : Option (AnalyticalGraphState V)}
  {d d' : Drive V} {p p' s : AnalyticalGraphState V}

/-! ## States -/

namespace AnalyticalGraphState

/-- The state is as the store keeps it. -/
def Kept (e : Engine V) (s : AnalyticalGraphState V) : Prop := e.store.kept e.values s = s

structure Sound (g : AnalyticalGraph V) (s : AnalyticalGraphState V) : Prop where
  outside : ∀ i, i ∉ g.ids → s.results i = none
  result : ∀ i, (s.nodes i).status = .completed → (s.results i).isSome
  skipped : ∀ i, (s.nodes i).status ≠ .skipped

/-- What is `COMPLETED` in `p` is so in `s`, and the store would keep the same result of it. -/
def Below (e : Engine V) (p s : AnalyticalGraphState V) : Prop :=
  ∀ i, (p.nodes i).status = .completed →
    s.nodes i = p.nodes i ∧ (e.store.kept e.values s).results i = p.results i

theorem kept_nodes (e : Engine V) (s : AnalyticalGraphState V) :
    (e.store.kept e.values s).nodes = s.nodes := by
  cases h : e.store <;> rfl

theorem kept_version (e : Engine V) (s : AnalyticalGraphState V) :
    (e.store.kept e.values s).version = s.version := by
  cases h : e.store <;> rfl

theorem kept_results_congr {s s' : AnalyticalGraphState V} {i : String}
    (h : s.results i = s'.results i) :
    (e.store.kept e.values s).results i = (e.store.kept e.values s').results i := by
  cases e.store with
  | memory => exact h
  | postgres => simp only [StoreKind.kept, reread, h]

theorem kept_kept (e : Engine V) (s : AnalyticalGraphState V) : Kept e (e.store.kept e.values s) := by
  unfold Kept
  cases e.store with
  | memory => rfl
  | postgres =>
    simp only [StoreKind.kept, reread, mk.injEq, true_and, and_true]
    funext i
    cases s.results i with
    | none => rfl
    | some r => simp only [Option.map_some, e.values.reread_reread]

theorem Sound.kept (h : s.Sound g) (e : Engine V) : (e.store.kept e.values s).Sound g := by
  cases he : e.store with
  | memory => exact h
  | postgres =>
    refine ⟨fun i hi => ?_, fun i hi => ?_, h.skipped⟩
    · simp [StoreKind.kept, reread, h.outside i hi]
    · simpa [StoreKind.kept, reread] using h.result i hi

theorem below_kept (e : Engine V) (s : AnalyticalGraphState V) :
    Below e (e.store.kept e.values s) s := fun i _ => by
  rw [kept_nodes]
  exact ⟨rfl, rfl⟩

theorem Below.kept (h : Below e p s) : Below e p (e.store.kept e.values s) := fun i hi => by
  obtain ⟨hn, hr⟩ := h i hi
  rw [kept_kept e s, kept_nodes]
  exact ⟨hn, hr⟩

/-- What completes a state in memory further. -/
theorem Below.still (h : Below e p s) {s' : AnalyticalGraphState V}
    (hs : ∀ i, (s.nodes i).status = .completed →
      s'.nodes i = s.nodes i ∧ s'.results i = s.results i) : Below e p s' := fun i hi => by
  obtain ⟨hn, hr⟩ := h i hi
  obtain ⟨hn', hr'⟩ := hs i (by rw [hn]; exact hi)
  exact ⟨hn'.trans hn, (kept_results_congr hr').trans hr⟩

end AnalyticalGraphState

open AnalyticalGraphState

/-- The row loses nothing. -/
def Keeps (p p' : AnalyticalGraphState V) : Prop :=
  ∀ i, (p.nodes i).status = .completed → p'.nodes i = p.nodes i ∧ p'.results i = p.results i

theorem Keeps.refl (p : AnalyticalGraphState V) : Keeps p p := fun _ _ => ⟨rfl, rfl⟩

theorem Keeps.trans {p₁ p₂ p₃ : AnalyticalGraphState V} (h : Keeps p₁ p₂) (h' : Keeps p₂ p₃) :
    Keeps p₁ p₃ := fun i hi => by
  obtain ⟨hn, hr⟩ := h i hi
  obtain ⟨hn', hr'⟩ := h' i (by rw [hn]; exact hi)
  exact ⟨hn'.trans hn, hr'.trans hr⟩

theorem AnalyticalGraphState.Below.keeps (h : Below e p s) (hs : Kept e s) : Keeps p s :=
  fun i hi => by
    obtain ⟨hn, hr⟩ := h i hi
    rw [hs] at hr
    exact ⟨hn, hr⟩

/-! ## Drives -/

namespace Drive

/-- The drive has its row: it has read it or has created it, and is not at its end. -/
def Registered (d : Drive V) : Prop :=
  match d.stage with
  | .creating none | .creating (some false) | .ended _ => False
  | _ => True

/-- The version that the drive has read or written last. -/
def base (d : Drive V) : Nat :=
  match d.flight with
  | some ⟨_, expected, _, none⟩ | some ⟨_, expected, _, some false⟩ => expected
  | _ => d.memory.version

/-- The call in flight is that of an actor that awaits a checkpoint. -/
def Flown (g : AnalyticalGraph V) (d : Drive V) : Prop := ∀ f ∈ d.flight, d.Saving g f.actor

/-- What the drive and its statement know of the row, if `now` says of their versions that they
    are current. -/
structure Linked (e : Engine V) (g : AnalyticalGraph V) (now : Nat → Prop)
    (p : AnalyticalGraphState V) (d : Drive V) : Prop where
  below : now d.base → Below e p d.memory
  sent : e.store = .postgres → ∀ f ∈ d.flight, f.verdict = none →
    (Kept e f.sent ∧ f.sent.Sound g) ∧ f.sent.version = f.expected + 1 ∧
      Below e f.sent d.memory ∧ (now f.expected → Below e p f.sent)

theorem Sound.memory (h : d.Sound g) : d.memory.Sound g :=
  ⟨fun i hi => (h.outside i hi).2, h.result, h.skipped⟩

/-- The tasks go on. -/
theorem Linked.still {now : Nat → Prop} (h : d.Linked e g now p) (hf : d'.flight = d.flight)
    (hv : d'.memory.version = d.memory.version)
    (hs : ∀ i, d.statusOf i = .completed →
      d'.memory.nodes i = d.memory.nodes i ∧ d'.memory.results i = d.memory.results i) :
    d'.Linked e g now p := by
  have hb : d'.base = d.base := by rw [base, base, hf, hv]
  refine ⟨fun hn => (h.below (hb ▸ hn)).still hs, fun he f hff hvd => ?_⟩
  rw [hf] at hff
  obtain ⟨h1, h2, h3, h4⟩ := h.sent he f hff hvd
  exact ⟨h1, h2, h3.still hs, h4⟩

/-- A checkpoint is over. -/
theorem Linked.landed {now : Nat → Prop} (h : d.Linked e g now p) {v : Nat}
    (hv : now v → now d.base) :
    { d with memory := { d.memory with version := v }, flight := none }.Linked e g now p :=
  ⟨fun hn => (h.below (hv hn)).still fun _ _ => ⟨rfl, rfl⟩, fun _ f hf => by cases hf⟩

theorem schedule_frame (d : Drive V) (g : AnalyticalGraph V) :
    (d.schedule g).flight = d.flight ∧ (d.schedule g).memory.version = d.memory.version := by
  have hs := scheduled g d
  revert hs
  generalize d.schedule g = d'
  intro hs
  cases hs with
  | completed | failedAt | stuck => exact ⟨finish_flight d _, finish_version d _⟩
  | wave => exact ⟨rfl, rfl⟩

theorem saved_frame {a : Actor} {failure : Option Raised} (h : d.saved e g a failure = some d') :
    d'.flight = d.flight ∧ d'.memory.version = d.memory.version := by
  cases a with
  | driver =>
    simp only [saved] at h
    split at h <;> cases h
    · exact d.schedule_frame g
    all_goals exact ⟨rfl, rfl⟩
  | node i =>
    simp only [saved, Option.ite_none_right_eq_some] at h
    obtain ⟨-, h⟩ := h
    obtain ⟨n, -, h⟩ := Option.bind_eq_some_iff.1 h
    obtain ⟨w, -, h⟩ := Option.bind_eq_some_iff.1 h
    cases h
    exact ⟨rfl, rfl⟩

/-- A checkpoint is over and its actor goes on. -/
theorem Linked.saved {now : Nat → Prop} (h : d.Linked e g now p) (hd : d.Sound g) {v : Nat}
    (hv : now v → now d.base) {a : Actor} {failure : Option Raised} (act : Act V)
    (hs : { d with memory := { d.memory with version := v }, flight := none }.saved e g a
      failure = some d') : d'.Linked e g now p := by
  obtain ⟨hf, hver⟩ := saved_frame hs
  have ht : Turn e g { d with memory := { d.memory with version := v }, flight := none } act d' :=
    turn_of_saved hs ⟨rfl, rfl, rfl, rfl⟩
  have hd₁ : { d with memory := { d.memory with version := v }, flight := none }.Sound g :=
    hd.still rfl (.same _)
  exact (h.landed hv).still hf hver fun i hi => ht.completed_still hd₁ hi

end Drive

/-! ## Calls in flight -/

theorem Goes.of_saving {lookup : String → Option V} {n : AnalyticalNode V} {w w' : Work V}
    {ev : NodeEvent V} (h : Goes e lookup n w ev w') (hp : w.phase.saving) :
    ev = .saved ∨ ∃ x, ev = .unsaved x := by
  cases h with
  | unprepared | look | start | close => exact .inl rfl
  | unsaved => exact .inr ⟨_, rfl⟩
  | begin hb => rcases hb with ⟨hb, -⟩ | ⟨hb, -⟩ <;> rw [hb] at hp <;> cases hp
  | withdraw hb => rcases hb with hb | hb <;> rw [hb] at hp <;> cases hp
  | fail hf =>
    have ht := hf.trying
    revert ht hp
    cases w.phase <;> simp [Phase.trying, Phase.saving]
  | complete hy _ =>
    have ht := hy.trying
    revert ht hp
    cases w.phase <;> simp [Phase.trying, Phase.saving]
  | key hb | miss hb | pause hb | again hb | store hb => rw [hb] at hp; cases hp

namespace Drive

theorem Saving.driver_or (h : d.Saving g a) :
    (a = .driver ∧ (d.stage = .opening ∨ ∃ o, d.stage = .closing o)) ∨
      ∃ i, a = .node i ∧ d.stage = .waiting ∧ i ∈ g.ids ∧ (d.phase i).saving := by
  cases a with
  | driver => exact .inl ⟨rfl, h⟩
  | node i => exact .inr ⟨i, rfl, h⟩

/-- The other tasks do not notice. -/
theorem Saving.setWork {a : Actor} {i : String} (h : d.Saving g a) (hs : d.stage = .waiting)
    (hi : a ≠ .node i) (w : Work V) : (d.setWork i w).Saving g a := by
  cases a with
  | driver => rcases h with h | ⟨o, h⟩ <;> rw [hs] at h <;> cases h
  | node j =>
    have hj : j ≠ i := fun h => hi (by rw [h])
    refine ⟨hs, h.2.1, ?_⟩
    rw [show (d.setWork i w).phase j = d.phase j from Function.update_of_ne hj _ _]
    exact h.2.2

/-- Without an actor that awaits a checkpoint there is no call in flight. -/
theorem Flown.grounded (h : d.Flown g) (hn : ∀ a, ¬ d.Saving g a) : d.flight = none := by
  cases hf : d.flight with
  | none => rfl
  | some f => exact absurd (h f (by rw [hf]; rfl)) (hn f.actor)

theorem Flown.grounded_of_early (h : d.Flown g) (hs : (∃ v, d.stage = .creating v) ∨ d.stage = .locking) :
    d.flight = none := by
  refine h.grounded fun a ha => ?_
  rcases ha.driver_or with ⟨-, ho | ⟨o, ho⟩⟩ | ⟨i, -, ho, -⟩ <;>
    rcases hs with ⟨v, hs⟩ | hs <;> rw [hs] at ho <;> cases ho

theorem Flown.grounded_of_over (h : d.Flown g) (hs : d.stage = .waiting)
    (hover : ∀ j ∈ g.ids, (d.phase j).finished) : d.flight = none := by
  refine h.grounded fun a ha => ?_
  rcases ha.driver_or with ⟨-, ho | ⟨o, ho⟩⟩ | ⟨i, -, -, hi, hp⟩
  · rw [hs] at ho; cases ho
  · rw [hs] at ho; cases ho
  · have := hover i hi
    rw [Phase.saving_over hp] at this
    cases this

theorem Flown.of_none (h : d'.flight = none) : d'.Flown g := fun f hf => by rw [h] at hf; cases hf

end Drive

/-- **A call in flight stays that of an actor that awaits a checkpoint.** -/
theorem Move.flown {a : Act V} (h : Move e g row d a row' d') (hd : d.Flown g) : d'.Flown g := by
  cases h with
  | create hs _ => exact .of_none (hd.grounded_of_early (.inl ⟨_, hs⟩))
  | created hs => exact .of_none (hd.grounded_of_early (.inl ⟨_, hs⟩))
  | quit hs _ => exact .of_none (hd.grounded_of_early hs)
  | locked hs => exact .of_none (hd.grounded_of_early (.inr hs))
  | acquire hf hs =>
    unfold Drive.send
    cases e.store <;> (intro f hff; cases hff; exact hs)
  | commit hf _ =>
    intro f hff
    cases hff
    exact hd ⟨_, _, _, none⟩ hf
  | answer _ hs | conflict _ hs | broken _ _ hs => exact .of_none (Drive.saved_frame hs).1
  | @cut a _ hf ha hs =>
    have hflight := (Drive.saved_frame hs).1
    intro f hff
    rw [hflight] at hff
    cases a with
    | driver =>
      -- a driver that awaits a checkpoint has no tasks
      rcases (hd f hff).driver_or with ⟨hdr, -⟩ | ⟨i, -, hw, -⟩
      · exact absurd hdr (hf f hff)
      · simp [Drive.saved, hw] at hs
    | node i =>
      simp only [Drive.saved, Option.ite_none_right_eq_some] at hs
      obtain ⟨hw, hs⟩ := hs
      obtain ⟨n, -, hs⟩ := Option.bind_eq_some_iff.1 hs
      obtain ⟨w, -, hs⟩ := Option.bind_eq_some_iff.1 hs
      cases hs
      exact (hd f hff).setWork hw (hf f hff) w
  | @node i n ev w hs hn hc hg =>
    intro f hff
    refine (hd f hff).setWork hs (fun hi => ?_) w
    have hsav := hd f hff
    rw [hi] at hsav
    rcases hg.of_saving hsav.2.2 with rfl | ⟨x, rfl⟩ <;> exact hc
  | strike => exact hd
  | struck hs hover _ =>
    exact .of_none ((Drive.finish_flight d _).trans (hd.grounded_of_over hs hover))
  | again hs hover _ _ =>
    exact .of_none ((d.schedule_frame g).1.trans (hd.grounded_of_over hs hover))
  | failed hs hover _ _ =>
    exact .of_none ((Drive.finish_flight d _).trans (hd.grounded_of_over hs hover))

/-! ## What a move does to the row -/

/-- The row after a call of `save` that has succeeded. -/
structure Saved (e : Engine V) (g : AnalyticalGraph V) (now : Nat → Prop)
    (p p' : AnalyticalGraphState V) (d d' : Drive V) : Prop where
  version : p.version = d.base ∧ p'.version = p.version + 1
  keeps : now p.version → Keeps p p'
  kept : Kept e p' ∧ p'.Sound g
  base : d'.base = p'.version
  answered : ∀ f ∈ d'.flight, f.verdict = some true
  linked : ∀ now', d'.Linked e g now' p'

theorem StoreKind.save_cases {ok : Bool} {s : AnalyticalGraphState V} {expected : Nat}
    (h : StoreKind.save row s expected = (ok, row')) :
    (ok = true ∧ row' = some s ∧ ∃ p, row = some p ∧ p.version = expected) ∨
      ok = false ∧ row' = row ∧ ∀ p, row = some p → p.version ≠ expected := by
  unfold StoreKind.save at h
  split at h
  · cases h; exact .inr ⟨rfl, rfl, nofun⟩
  · split at h
    · rename_i hv; cases h; exact .inl ⟨rfl, rfl, _, rfl, hv⟩
    · rename_i hv
      cases h
      exact .inr ⟨rfl, rfl, fun p hp => by cases hp; exact hv⟩

/-- A call of `save` succeeds. -/
theorem Drive.Linked.commit {now : Nat → Prop} {a : Actor} {expected : Nat}
    {sent : AnalyticalGraphState V} (h : d.Linked e g now p) (hd : d.Sound g)
    (hf : d.flight = some ⟨a, expected, sent, none⟩) (hv : p.version = expected) :
    Saved e g now p (d.payload e ⟨a, expected, sent, none⟩) d
      { d with
        memory := { d.memory with version := expected + 1 }
        flight := some ⟨a, expected, sent, some true⟩ } := by
  have hbase : d.base = expected := by rw [base, hf]
  have hok : ∀ f ∈ some (Flight.mk a expected sent (some true)), f.verdict = some true := by
    intro f hff; cases hff; rfl
  have hlinked : Below e (d.payload e ⟨a, expected, sent, none⟩) d.memory →
      ∀ now', Drive.Linked e g now' (d.payload e ⟨a, expected, sent, none⟩) { d with
        memory := { d.memory with version := expected + 1 }
        flight := some ⟨a, expected, sent, some true⟩ } := fun hb now' =>
    ⟨fun _ => hb.still fun _ _ => ⟨rfl, rfl⟩, fun _ f hff hver => by cases hff; cases hver⟩
  unfold payload at hlinked ⊢
  cases he : e.store with
  | memory =>
    simp only [he] at hlinked ⊢
    have hkept : Kept e { d.memory with version := expected + 1 } := by
      rw [Kept, he]; rfl
    refine ⟨⟨by rw [hbase, hv], by rw [hv]⟩, fun hn => ?_, ⟨hkept, ?_⟩, rfl, hok, hlinked ?_⟩
    · have hb : Below e p { d.memory with version := expected + 1 } :=
        (h.below (by rw [hbase, ← hv]; exact hn)).still fun _ _ => ⟨rfl, rfl⟩
      exact hb.keeps hkept
    · exact ⟨hd.memory.outside, hd.memory.result, hd.memory.skipped⟩
    · intro i _
      exact ⟨rfl, by rw [he]; rfl⟩
  | postgres =>
    simp only [he] at hlinked ⊢
    obtain ⟨⟨hkept, hsound⟩, hver, hmem, hrow⟩ := h.sent he _ hf rfl
    exact ⟨⟨by rw [hbase, hv], by rw [hver, hv]⟩, fun hn => (hrow (hv ▸ hn)).keeps hkept,
      ⟨hkept, hsound⟩, hver.symm, hok, hlinked hmem⟩

/-- **A move leaves the row as it is, or is a call of `save` that succeeds.** -/
theorem Move.linked {now : Nat → Prop} {a : Act V} (h : Move e g (some p) d a row' d')
    (hd : d.Sound g) (hl : d.Linked e g now p) (hr : d.Registered)
    (hb : ∀ x, a = .broken x → now d.memory.version → now d.base) :
    (row' = some p ∧ d'.Linked e g now p) ∨ ∃ p', row' = some p' ∧ Saved e g now p p' d d' := by
  have hturn := h.turn
  cases h with
  | create hs => rw [Drive.Registered, hs] at hr; exact hr.elim
  | created | quit | locked | strike =>
    exact .inl ⟨rfl, hl.still rfl rfl fun i hi => hturn.completed_still hd hi⟩
  | @acquire a hf hs =>
    refine .inl ⟨rfl, ?_⟩
    have hbase : d.base = d.memory.version := by rw [Drive.base, hf]
    unfold Drive.send
    cases he : e.store with
    | memory =>
      refine ⟨fun hn => hl.below (hbase ▸ hn), fun he' => ?_⟩
      rw [he] at he'; cases he'
    | postgres =>
      have hkept : ({ d.memory with version := d.memory.version + 1 } :
          AnalyticalGraphState V).reread e.values =
          e.store.kept e.values { d.memory with version := d.memory.version + 1 } := by rw [he]; rfl
      have hbelow : now d.memory.version →
          Below e p { d.memory with version := d.memory.version + 1 } := fun hn =>
        (hl.below (hbase ▸ hn)).still fun _ _ => ⟨rfl, rfl⟩
      have hsound : ({ d.memory with version := d.memory.version + 1 } :
          AnalyticalGraphState V).Sound g :=
        ⟨hd.memory.outside, hd.memory.result, hd.memory.skipped⟩
      refine ⟨hbelow, fun _ f hff _ => ?_⟩
      cases hff
      refine ⟨⟨?_, ?_⟩, rfl, ?_, fun hn => ?_⟩
      · rw [hkept]; exact kept_kept e _
      · rw [hkept]
        exact hsound.kept e
      · rw [hkept]; exact below_kept e _
      · rw [hkept]; exact (hbelow hn).kept
  | @commit a expected sent ok row' hf hs =>
    rcases StoreKind.save_cases hs with ⟨rfl, rfl, p₁, hp, hv⟩ | ⟨rfl, rfl, hne⟩
    · cases hp
      exact .inr ⟨_, rfl, hl.commit hd hf hv⟩
    · refine .inl ⟨rfl, fun hn => ?_, fun _ f hff hver => by cases hff; cases hver⟩
      refine (hl.below ?_).still fun _ _ => ⟨rfl, rfl⟩
      simpa only [Drive.base, hf] using hn
  | @answer a expected sent _ hf hs =>
    refine .inl ⟨rfl, hl.saved hd (v := d.memory.version) (fun hn => ?_) .answer hs⟩
    simpa only [Drive.base, hf] using hn
  | @conflict a expected sent _ hf hs =>
    refine .inl ⟨rfl, hl.saved hd (fun hn => ?_) .answer hs⟩
    simpa only [Drive.base, hf] using hn
  | broken hf hbr hs =>
    exact .inl ⟨rfl, hl.saved hd (v := d.memory.version) (hb _ rfl) .answer hs⟩
  | cut hf ha hs =>
    obtain ⟨hfl, hver⟩ := Drive.saved_frame hs
    exact .inl ⟨rfl, hl.still hfl hver fun i hi => hturn.completed_still hd hi⟩
  | node =>
    exact .inl ⟨rfl, hl.still rfl rfl fun i hi => hturn.completed_still hd hi⟩
  | struck | failed =>
    exact .inl ⟨rfl, hl.still (Drive.finish_flight d _) (Drive.finish_version d _)
      fun i hi => hturn.completed_still hd hi⟩
  | again =>
    obtain ⟨hfl, hver⟩ := d.schedule_frame g
    exact .inl ⟨rfl, hl.still hfl hver fun i hi => hturn.completed_still hd hi⟩

end TracciaRuntime.Analytics
