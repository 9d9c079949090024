/-
  The history of a run under any interleaving.

  * `Succeeds old new`: what one write of the run store may do to a record;
  * `histories`: every persisted history is legal, and histories only grow;
  * `run_history`: in every deployment, whatever its calls and drivers do, are
    struck by and crash at, the versions count up one by one, the statuses follow
    the transition table or a recovery, and a terminal record is final.

  A writer holds a copy of some earlier record.  That it is the current one is
  known only when the save succeeds: versions never repeat in a history.
-/
import TracciaRuntime.Proof.Calls

namespace TracciaRuntime

open Py Async AgentRuntime

variable {V : Type}

/-! ## Legal histories -/

/-- What one write may make of a record. -/
structure Succeeds (old new : RunState V) : Prop where
  id : new.id = old.id
  agentRef : new.agentRef = old.agentRef
  version : new.version = old.version + 1
  active : old.status.isTerminal = false
  status : new.status ∈ old.status.allowedTransitions ∨
    new.status = old.status.recoveryStatus ∨
    new.status = .timedOut ∧ new.error = some overdueError

/-- The records of a run, newest first. -/
inductive Legal : List (Saved V) → Prop
  | created {r : Saved V} : r.state.version = 0 → r.state.status = .received → Legal [r]
  | saved {new old : Saved V} {rest : List (Saved V)} : Legal (old :: rest) →
      Succeeds old.state new.state → Legal (new :: old :: rest)

theorem Legal.chain {l : List (Saved V)} (h : Legal l) :
    List.IsChain (fun new old => Succeeds old.state new.state) l := by
  induction h with
  | created => exact .singleton _
  | saved _ hs ih => exact .cons_cons hs ih

theorem Legal.version_le {r : Saved V} {l : List (Saved V)} (h : Legal (r :: l)) :
    ∀ r' ∈ l, r'.state.version < r.state.version := by
  induction l generalizing r with
  | nil => exact fun _ h => by cases h
  | cons old rest ih =>
    cases h with
    | saved hl hs =>
      intro r' hr'
      rw [hs.version]
      rcases List.mem_cons.1 hr' with rfl | hr'
      · omega
      · have := ih hl r' hr'; omega

/-- The records of a run are of one agent. -/
theorem Legal.agentRef {r : Saved V} {l : List (Saved V)} (h : Legal (r :: l)) :
    ∀ r' ∈ r :: l, r'.state.agentRef = r.state.agentRef := by
  induction l generalizing r with
  | nil =>
    intro r' hr'
    rw [List.mem_singleton.1 hr']
  | cons old rest ih =>
    cases h with
    | saved hl hs =>
      intro r' hr'
      rcases List.mem_cons.1 hr' with rfl | hr'
      · rfl
      · exact (ih hl r' hr').trans hs.agentRef.symm

/-- **Versions tell the records of a run apart.** -/
theorem Legal.current_of_version {r r' : Saved V} {l : List (Saved V)} (h : Legal (r :: l))
    (hr' : r' ∈ r :: l) (hv : r'.state.version = r.state.version) : r' = r := by
  rcases List.mem_cons.1 hr' with rfl | hr'
  · rfl
  · have := h.version_le r' hr'; omega

/-- A history that has grown past a terminal record does not exist. -/
theorem Legal.terminal_last {r : Saved V} {pre l : List (Saved V)}
    (h : Legal (pre ++ r :: l)) (ht : r.state.status.isTerminal = true) : pre = [] := by
  induction pre with
  | nil => rfl
  | cons x pre ih =>
    exfalso
    cases hp : pre ++ r :: l with
    | nil => simp at hp
    | cons y rest =>
      rw [List.cons_append, hp] at h
      cases h with
      | saved hl hs =>
        rw [← hp] at hl
        have hnil := ih hl
        subst hnil
        cases hp
        rw [hs.active] at ht; cases ht

/-- The run store in order: each key holds a legal history of that run. -/
structure InOrder (runs : Runs V) : Prop where
  nodup : runs.keys.Nodup
  legal : ∀ id h, runs.get id = some h → Legal h.records
  id : ∀ id h, runs.get id = some h → h.current.state.id = id

/-- The histories of `runs` are continued in `runs'`. -/
def Grows (runs runs' : Runs V) : Prop :=
  ∀ id h, runs.get id = some h → ∃ h', runs'.get id = some h' ∧ h.records <:+ h'.records

theorem Grows.refl (runs : Runs V) : Grows runs runs := fun _ h hg => ⟨h, hg, List.suffix_rfl⟩

theorem Grows.trans {r₁ r₂ r₃ : Runs V} (h₁ : Grows r₁ r₂) (h₂ : Grows r₂ r₃) : Grows r₁ r₃ := by
  intro id h hg
  obtain ⟨h', hg', hs⟩ := h₁ id h hg
  obtain ⟨h'', hg'', hs'⟩ := h₂ id h' hg'
  exact ⟨h'', hg'', hs.trans hs'⟩

/-- **A terminal record is final.** -/
theorem Grows.terminal {runs runs' : Runs V} {id : String} {h : History V} (hg : Grows runs runs')
    (hv : InOrder runs') (hget : runs.get id = some h)
    (ht : h.current.state.status.isTerminal = true) : runs'.get id = some h := by
  obtain ⟨h', hget', pre, hpre⟩ := hg id h hget
  have hlegal := hv.legal id h' hget'
  rw [← hpre] at hlegal
  have hnil : pre = [] := hlegal.terminal_last ht
  subst hnil
  obtain ⟨c, p⟩ := h
  obtain ⟨c', p'⟩ := h'
  cases hpre
  exact hget'

theorem Grows.agentRef {runs runs' : Runs V} {id : String} {h : History V} (hg : Grows runs runs')
    (hv : InOrder runs') (hget : runs.get id = some h) :
    ∃ h', runs'.get id = some h' ∧ h'.current.state.agentRef = h.current.state.agentRef := by
  obtain ⟨h', hget', hsuf⟩ := hg id h hget
  refine ⟨h', hget', ((hv.legal id h' hget').agentRef h.current (hsuf.subset ?_)).symm⟩
  exact List.mem_cons_self

/-- The contract of everything that touches a run. -/
def histories : Contract (World V) where
  valid w := InOrder w.runs
  rely t w w' := Grows w.runs w'.runs ∧ w'.planned t = w.planned t
  refl _ _ := ⟨Grows.refl _, rfl⟩
  trans h₁ h₂ := ⟨h₁.1.trans h₂.1, h₂.2.trans h₁.2⟩

/-- `s` is a copy of a record that was persisted at some time. -/
def Copied (w : World V) (s : RunState V) : Prop :=
  ∃ h, w.runs.get s.id = some h ∧ ∃ r ∈ h.records,
    r.state.version = s.version ∧ r.state.status = s.status ∧ r.state.agentRef = s.agentRef

theorem Copied.grows {w w' : World V} {s : RunState V} (hg : Grows w.runs w'.runs)
    (hc : Copied w s) : Copied w' s := by
  obtain ⟨h, hget, r, hr, hv, hs, ha⟩ := hc
  obtain ⟨h', hget', hsuf⟩ := hg s.id h hget
  exact ⟨h', hget', r, hsuf.subset hr, hv, hs, ha⟩

theorem Copied.stable {t : Nat} (s : RunState V) : histories.Stable t fun w => Copied w s :=
  fun _ _ hr => Copied.grows hr.1

theorem Copied.of_eq {w w' : World V} {s : RunState V} (h : Copied w s) (he : w'.runs = w.runs) :
    Copied w' s := by
  unfold Copied; rw [he]; exact h

theorem Copied.congr {w : World V} {s s' : RunState V} (h : Copied w s) (hi : s'.id = s.id)
    (hv : s'.version = s.version) (hs : s'.status = s.status) (ha : s'.agentRef = s.agentRef) :
    Copied w s' := by
  unfold Copied; rw [hi, hv, hs, ha]; exact h

section
variable {cfg : Config V} {t : Nat} {b : Bool} {w w' : World V} {s s' : RunState V}

theorem copied_of_get {id : String} {h : History V} (hv : InOrder w.runs)
    (hg : w.runs.get id = some h) : Copied w h.current.state := by
  have hi := hv.id id h hg
  exact ⟨h, by rw [hi]; exact hg, h.current, List.mem_cons_self, rfl, rfl, rfl⟩

/-- **A successful save continues the history it started from.** -/
theorem InOrder.save {runs : Runs V} (hv : InOrder w.runs) (hc : Copied w s)
    (hs : Succeeds s { s' with version := s.version + 1 })
    (h : Runs.save cfg.runStore w.runs t s' s.version = .ok runs) :
    InOrder runs ∧ Grows w.runs runs ∧
      Copied { w with runs := runs } { s' with version := s.version + 1 } := by
  obtain ⟨h₀, hget, hver, rfl⟩ := Runs.save_ok h
  have hid : s'.id = s.id := hs.id
  -- the copy is of the current record
  obtain ⟨h₁, hget₁, r, hr, hrv, hrs, hra⟩ := hc
  rw [← hid, hget] at hget₁; cases hget₁
  have hcur : r = h₀.current := (hv.legal _ _ hget).current_of_version hr (hrv.trans hver.symm)
  have hnew : Succeeds h₀.current.state { s' with version := s.version + 1 } := by
    refine ⟨(hs.id.trans hid.symm).trans (hv.id _ _ hget).symm, ?_, ?_, ?_, ?_⟩
    · rw [← hcur, hra]; exact hs.agentRef
    · rw [hver]
    · rw [← hcur, hrs]; exact hs.active
    · rw [← hcur, hrs]; exact hs.status
  refine ⟨⟨Dict.nodup_keys_set _ _ hv.nodup, fun id h hg => ?_, fun id h hg => ?_⟩, fun id h hg => ?_, ?_⟩
  · rw [Dict.get_set] at hg
    split at hg
    · cases hg; exact .saved (hv.legal _ _ hget) hnew
    · exact hv.legal id h hg
  · rw [Dict.get_set] at hg
    split at hg
    · rename_i hi; cases hg; exact hi.symm
    · exact hv.id id h hg
  · rw [Dict.get_set]
    split
    · rename_i hi
      rw [hi, hget] at hg; cases hg
      exact ⟨_, rfl, List.suffix_cons _ _⟩
    · exact ⟨h, hg, List.suffix_rfl⟩
  · exact ⟨_, Dict.get_set_self _ _ _, _, List.mem_cons_self, rfl, rfl, rfl⟩

theorem InOrder.create {runs : Runs V} (hv : InOrder w.runs) (h0 : s.version = 0)
    (hs : s.status = .received) (h : Runs.create cfg.runStore w.runs t s = .ok runs) :
    InOrder runs ∧ Grows w.runs runs := by
  obtain ⟨hget, rfl⟩ := Runs.create_ok h
  refine ⟨⟨Dict.nodup_keys_set _ _ hv.nodup, fun id h hg => ?_, fun id h hg => ?_⟩, fun id h hg => ?_⟩
  · rw [Dict.get_set] at hg
    split at hg
    · cases hg; exact .created h0 hs
    · exact hv.legal id h hg
  · rw [Dict.get_set] at hg
    split at hg
    · rename_i hi; cases hg; exact hi.symm
    · exact hv.id id h hg
  · have hne : id ≠ s.id := by rintro rfl; rw [hget] at hg; cases hg
    exact ⟨h, by rw [Dict.get_set_ne hne]; exact hg, List.suffix_rfl⟩

/-- An operation that does not write runs. -/
theorem histories_of_frame {o : Op V} (hv : InOrder w.runs) (hf : World.Frame t o w w')
    (ho : o.writesRuns = false) :
    histories.valid w' ∧ ∀ t', t' ≠ t → histories.rely t' w w' := by
  have he := hf.runs ho
  refine ⟨?_, fun t' ht => ⟨?_, hf.planned_other t' ht⟩⟩
  · change InOrder w'.runs; rw [he]; exact hv
  · rw [he]; exact Grows.refl _

theorem histories_mild {A : Allow cfg.sem.Ans Exn (World V)} {X : Exn → Prop} (hX : ∀ e, X e)
    {o : Op V} (ho : o.writesRuns = false) :
    Mild cfg.sem A histories t (fun w => Copied w s) X o := by
  intro b w a r w' hv hc _ hact
  have hf := Config.act_frame hact
  obtain ⟨h₁, h₂⟩ := histories_of_frame hv hf ho
  exact ⟨h₁, h₂, hc.of_eq (hf.runs ho), fun e _ => hX e⟩

/-- A write of the run store. -/
theorem histories_save {a : Act cfg.sem.Ans Exn (.runsSave s' s.version)} {r : Except Exn Unit}
    (hv : histories.valid w) (hc : Copied w s) (hs : Succeeds s { s' with version := s.version + 1 })
    (hact : cfg.sem.act t b w (.runsSave s' s.version) a = some (r, w')) :
    histories.valid w' ∧ (∀ t', t' ≠ t → histories.rely t' w w') ∧
      (Copied w' s) ∧ ∀ u, r = .ok u → Copied w' { s' with version := s.version + 1 } := by
  have hf := Config.act_frame hact
  rcases act_runsSave hact with ⟨he, e, rfl⟩ | hsave
  · refine ⟨?_, fun t' ht => ⟨?_, hf.planned_other t' ht⟩, hc.of_eq he, fun u h => by cases h⟩
    · change InOrder w'.runs; rw [he]; exact hv
    · rw [he]; exact Grows.refl _
  · obtain ⟨h₁, h₂, h₃⟩ := InOrder.save hv hc hs hsave
    refine ⟨h₁, fun t' ht => ⟨h₂, hf.planned_other t' ht⟩, ?_, fun u _ => h₃.of_eq rfl⟩
    exact hc.grows h₂

/-! ## Drivers -/

theorem RunStatus.Turn.active {a b : RunStatus} (h : a.Turn b) : a.isTerminal = false := by
  rcases h with h | h
  · by_contra hc
    rw [RunStatus.allowedTransitions_terminal (by simpa using hc)] at h
    cases h
  · exact h.1

theorem RunStatus.Turn.succeeds {target : RunStatus} (h : s.status.Turn target)
    (hi : s'.id = s.id) (ha : s'.agentRef = s.agentRef) (ht : s'.status = target) :
    Succeeds s { s' with version := s.version + 1 } := by
  refine ⟨hi, ha, rfl, h.active, ?_⟩
  rw [ht]
  exact h.elim Or.inl fun h => Or.inr (Or.inl h.2)

variable {A : Allow cfg.sem.Ans Exn (World V)}

theorem history_copyLaws :
    CopyLaws cfg A histories t Copied (fun _ _ => True) False True where
  stable := Copied.stable
  planned _ _ h := h.2
  same _ _ _ h hc := hc.congr h.id h.version h.status h.agentRef
  raises _ _ _ _ := trivial
  background s o ho := by
    refine histories_mild (fun _ => trivial) ?_
    cases o <;> first | rfl | cases ho
  plan _ _ _ _ _ h := h.elim
  save b w s target now a r w' hv hc ht _ _ hact := by
    let saved : RunState V := { s with status := target, updatedAt := now }
    have hs : Succeeds s { saved with version := s.version + 1 } :=
      ht.succeeds (show saved.id = s.id from rfl) rfl (show saved.status = target from rfl)
    obtain ⟨h₁, h₂, h₃, h₄⟩ := histories_save hv hc hs hact
    refine ⟨h₁, h₂, ?_⟩
    cases r with
    | ok u => exact h₄ u rfl
    | error e => exact ⟨s, h₃, trivial⟩
  respond _ _ _ hc _ _ := hc.congr rfl rfl rfl rfl
  result _ _ _ hc _ := hc.congr rfl rfl rfl rfl

theorem history_laws : Laws cfg A histories t Copied (fun _ _ => True) False True where
  toCopyLaws := history_copyLaws
  ask w s agent action d decision hw hs _ _ _ :=
    history_copyLaws.requestApproval_safe trivial (fun _ => histories_mild (fun _ => trivial) rfl) hw hs
  tool w s agent action d decision hw hs _ _ _ _ :=
    history_copyLaws.executeCall_safe (fun _ _ _ => histories_mild (fun _ => trivial) rfl) hw
      (by rw [hs]; rfl)

/-! ## Calls -/

/-- Whatever an await does, histories only grow. -/
theorem act_grows {o : Op V} {a : Act cfg.sem.Ans Exn o} {r : Except Exn o.Resp}
    (hact : cfg.sem.act t b w o a = some (r, w')) : Grows w.runs w'.runs := by
  by_cases ho : o.writesRuns = false
  · rw [(Config.act_frame hact).runs ho]; exact Grows.refl _
  · cases o with
    | runsSave s v =>
      rcases act_runsSave hact with ⟨he, -⟩ | hs
      · rw [he]; exact Grows.refl _
      · obtain ⟨h₀, hget, -, he⟩ := Runs.save_ok hs
        intro id h hg
        rw [he, Dict.get_set]
        split
        · rename_i hi
          rw [hi, hget] at hg; cases hg
          exact ⟨_, rfl, List.suffix_cons _ _⟩
        · exact ⟨h, hg, List.suffix_rfl⟩
    | runsCreate s =>
      rcases act_runsCreate hact with ⟨he, -⟩ | hs
      · rw [he]; exact Grows.refl _
      · obtain ⟨hget, he⟩ := Runs.create_ok hs
        intro id h hg
        have hne : id ≠ s.id := by rintro rfl; rw [hget] at hg; cases hg
        exact ⟨h, by rw [he, Dict.get_set_ne hne]; exact hg, List.suffix_rfl⟩
    | _ => exact absurd rfl ho

theorem act_runsGet {id tenantId : String} {a : Act cfg.sem.Ans Exn (.runsGet id tenantId)}
    {s : RunState V} (h : cfg.sem.act t b w (.runsGet id tenantId) a = some (.ok (some s), w')) :
    w' = w ∧ ∃ h₀, w.runs.get id = some h₀ ∧ h₀.current.state = s := by
  obtain ⟨c, -, hc⟩ := done_of_act_ok h
  simp only [World.effect, Option.some.injEq, Prod.mk.injEq, Except.ok.injEq] at hc
  obtain ⟨h₀, hget, hs, -⟩ := Runs.find_eq_some hc.1
  exact ⟨hc.2.symm, h₀, hget, hs⟩

theorem history_idle {o : Op V} (ho : o.writesRuns = false) :
    Mild cfg.sem A histories t (fun _ => True) (fun _ => True) o := by
  intro b w a r w' hv _ _ hact
  obtain ⟨h₁, h₂⟩ := histories_of_frame hv (Config.act_frame hact) ho
  exact ⟨h₁, h₂, trivial, fun _ _ => trivial⟩

theorem history_callLaws : CallLaws cfg A histories t Copied False True where
  toCopyLaws := history_copyLaws
  idle o ho := history_idle (by cases o <;> first | rfl | cases ho)
  own _ _ _ _ _ _ _ _ hc hact := hc.grows (act_grows hact)
  read w id h hv hm := copied_of_get hv (Dict.get_of_mem hv.nodup hm)
  create s hs b w a r w' hv _ _ hact := by
    have hf := Config.act_frame hact
    refine ⟨?_, fun t' ht => ⟨act_grows hact, hf.planned_other t' ht⟩, trivial, fun _ _ => trivial⟩
    rcases act_runsCreate hact with ⟨he, -⟩ | hsave
    · change InOrder w'.runs; rw [he]; exact hv
    · exact (InOrder.create hv hs.version hs.status hsave).1
  overdue b w s now a r w' hv hc ha he _ hact := by
    have hs : Succeeds s { s with
        status := .timedOut, updatedAt := now, version := s.version + 1 } :=
      ⟨rfl, rfl, rfl, ha, Or.inr (Or.inr ⟨rfl, he⟩)⟩
    obtain ⟨h₁, h₂, -, h₄⟩ := histories_save hv hc hs hact
    exact ⟨h₁, h₂, h₄⟩

/-- **Every task of the deployment keeps the histories legal.** -/
theorem task_legal {calls : Nat → Call V} {w₀ : World V} :
    Safe cfg.sem A histories t (fun _ _ => True) (taskOf cfg calls w₀ t) w := by
  refine history_callLaws.task_keeping (fun runId tenantId => ?_) fun runId tenantId payload _ => ?_
  · refine history_laws.drive_safe (fun o ho => history_idle ?_) fun w s hv h => ?_
    · cases o <;> first | rfl | cases ho
    · obtain ⟨h₀, hg, rfl, -⟩ := Runs.find_eq_some h
      exact copied_of_get hv hg
  · refine history_callLaws.resume_keeping (fun s o ho => ?_) (fun _ _ hc => hc.congr rfl rfl rfl rfl)
      fun _ _ _ _ hc => hc.congr rfl rfl rfl rfl
    exact histories_mild (fun _ => trivial) (by cases o <;> first | rfl | cases ho)

end

/-! ## The theorem -/

/-- The deployment in any environment: everything can fail, be cancelled and crash. -/
abbrev anyTasks (cfg : Config V) (calls : Nat → Call V) :=
  runtimeSys cfg (fun _ _ _ _ => True) calls fun _ => True

theorem histories_respects (cfg : Config V) (calls : Nat → Call V)
    {A : Allow cfg.sem.Ans Exn (World V)} :
    (runtimeSys cfg A calls fun _ => True).Respects histories fun _ _ _ => True where
  enter := by
    rintro w t p w' hv ⟨-, rfl, rfl⟩
    exact ⟨hv, fun t' _ => ⟨Grows.refl _, rfl⟩, task_legal⟩
  fin _ _ _ hv _ := ⟨hv, fun _ _ => ⟨Grows.refl _, rfl⟩⟩
  kill := by
    rintro w t w' hv ⟨-, rfl⟩
    exact ⟨hv, fun _ _ => ⟨Grows.refl _, rfl⟩⟩

theorem fresh_safe {cfg : Config V} {calls : Nat → Call V}
    {A : Allow cfg.sem.Ans Exn (World V)} {w₀ : World V} (h : Fresh w₀) :
    (runtimeSys cfg A calls fun _ => True).AllSafe histories (fun _ _ _ => True)
      (freshPool w₀) := by
  refine ⟨⟨?_, fun id r hg => ?_, fun id r hg => ?_⟩, fun _ _ hp => by cases hp⟩
  · change w₀.runs.keys.Nodup; rw [h.runs]; exact List.nodup_nil
  · change w₀.runs.get id = some r at hg; rw [h.runs] at hg; cases hg
  · change w₀.runs.get id = some r at hg; rw [h.runs] at hg; cases hg

/-- **Terminal absorption and legal histories**, for every interleaving of calls and drivers in
    any number of processes: each write raises the version by one and follows the transition
    table, or is a recovery; and what was persisted stays, a terminal record as the last one. -/
theorem run_history (cfg : Config V) (calls : Nat → Call V) (w₀ : World V) (h₀ : Fresh w₀)
    (P P' : Pool (Op.Resp (V := V)) Exn (World V) Unit)
    (hP : (anyTasks cfg calls).Reach (freshPool w₀) P) (hP' : (anyTasks cfg calls).Reach P P')
    (id : String) (h : History V) (hget : P.world.runs.get id = some h) :
    List.IsChain (fun new old : Saved V =>
      new.state.version = old.state.version + 1 ∧ old.state.status.isTerminal = false ∧
        (new.state.status ∈ old.state.status.allowedTransitions ∨
          new.state.status = old.state.status.recoveryStatus ∨
          new.state.status = .timedOut ∧ new.state.error = some overdueError)) h.records ∧
    ∃ h', P'.world.runs.get id = some h' ∧ h.records <:+ h'.records ∧
      (h.current.state.status.isTerminal = true → h' = h) := by
  have hsafe := Sys.safe_reach (histories_respects cfg calls) (fresh_safe h₀) hP
  have hsafe' := Sys.safe_reach (histories_respects cfg calls) hsafe hP'
  have grown : Grows P.world.runs P'.world.runs :=
    Sys.safe_reach_rel (histories_respects cfg calls) (G := fun w w' => Grows w.runs w'.runs)
      (fun _ => Grows.refl _) Grows.trans (fun _ _ _ hr => hr.1) hsafe hP'
  refine ⟨(hsafe.valid.legal id h hget).chain.imp fun _ _ hs => ⟨hs.version, hs.active, hs.status⟩, ?_⟩
  obtain ⟨h', hget', hsuf⟩ := grown id h hget
  refine ⟨h', hget', hsuf, fun hterm => ?_⟩
  have hfinal := grown.terminal hsafe'.valid hget hterm
  rw [hget'] at hfinal
  exact Option.some.inj hfinal

/-- A run is started, and another call cancels it before its driver gets to run. -/
def Sample.startAndCancel : Nat → Call String
  | 0 => .start request
  | _ => .cancel "run" "tenant"

/-- A run that is started and cancelled, and its driver after that. -/
theorem run_history_cancelled :
    ∃ P P' h, (anyTasks { lib := .text } Sample.startAndCancel).Reach (freshPool Sample.world) P ∧
      (anyTasks { lib := .text } Sample.startAndCancel).Reach P P' ∧
      P.world.runs.get "run" = some h ∧ h.records.length = 2 ∧
      h.current.state.status = .cancelled ∧ 1 ∈ P'.world.done ∧
      P'.world.runs.get "run" = some h := by
  let y : Player (anyTasks { lib := .text } Sample.startAndCancel) :=
    runtimePlayer _ _ (fun _ _ _ _ => true) fun _ _ _ _ _ => trivial
  have hplay : (y.play (Sample.starts 0 1 ++ .enter 2 :: Sample.obliges 2 6)
      (freshPool Sample.world)).bind (fun P =>
        (y.play (.enter 1 :: Sample.obliges 1 4) P).map fun P' =>
          ((P.world.runs.get "run").map fun h => (h.records.length, h.current.state.status),
            decide (1 ∈ P'.world.done))) = some (some (2, .cancelled), true) := by decide +kernel
  rw [Option.bind_eq_some_iff] at hplay
  obtain ⟨P, hP, hplay⟩ := hplay
  have hP := Player.reach hP
  obtain ⟨P', hP', hx⟩ := Player.exists_reach hplay
  simp only [Prod.mk.injEq, decide_eq_true_eq, Option.map_eq_some_iff] at hx
  obtain ⟨⟨h, hget, hlen, hs⟩, hdone⟩ := hx
  obtain ⟨-, h', hget', -, hsame⟩ := run_history _ _ _ Sample.world_fresh P P' hP hP' "run" h hget
  rw [hsame (by rw [hs]; rfl)] at hget'
  exact ⟨P, P', h, hP, hP', hget, hlen, hs, hdone, hget'⟩

end TracciaRuntime
