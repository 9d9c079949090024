/-
  Traccia Runtime formalization — the subscribers of the bus in memory.

  * `Moved`: the moves of the bus, one by one (`moved_of_step`);
  * `Control`: the lock is only held by the task that runs, so that no task waits for it;
  * `Ledger`: what a subscriber has yielded, its backlog and its queue make up what it is due;
  * `subscriber_exact`: a subscriber yields what was due to it at its registration, and then what
    is published, as long as its queue suffices.
-/
import TracciaRuntime.Events.Bus

namespace TracciaRuntime

open Machine

variable {δ : Type}

namespace BusStage

/-- In a section under the lock. -/
def Holds (stage : BusStage δ) : Prop := stage = .locked ∨ stage = .closingLocked

/-- Where a task does not give up control. -/
def Busy (stage : BusStage δ) : Prop := stage.Holds ∨ ∃ queues, stage = .putting queues

theorem busy_putting (queues : List Nat) : Busy (.putting queues : BusStage δ) :=
  .inr ⟨queues, rfl⟩

end BusStage

namespace InMemoryEventBus

variable {limit : Nat} {calls : Nat → BusCall δ} {s s' : InMemoryEventBus δ} {a : BusAct}
  {t u i : Nat} {stage : BusStage δ}

/-! ## Moves -/

/-- A move that changes no more than the stage of the task, the lock and who runs. -/
inductive Turn (call : BusCall δ) : BusStage δ → Bool → BusStage δ → Bool → Bool → Prop
  | acquired : Turn call .called false .locked true true
  | released {b : Bool} : call = .other → Turn call .locked b .done false false
  | served {b : Bool} {e : StreamEvent δ} : call = .publish e → Turn call (.putting []) b .done b false
  | reacquired {after : Nat} : call = .subscribe after →
      Turn call .closing false .closingLocked true true
  | given {b : Bool} : Turn call .called b .done b false
  | abandoned {b : Bool} : Turn call .closing b .done b false
  | closed {b : Bool} {after : Nat} {backlog : List (StreamEvent δ)} : call = .subscribe after →
      Turn call (.delivering backlog) b .closing b false

theorem Turn.to {call : BusCall δ} {stage' : BusStage δ} {b b' r : Bool}
    (h : Turn call stage b stage' b' r) : stage' = .locked ∧ stage = .called ∨
      stage' = .closing ∨ stage' = .closingLocked ∨ stage' = .done := by
  cases h <;> simp

theorem Turn.putting {call : BusCall δ} {queues : List Nat} {stage' : BusStage δ} {b b' r : Bool}
    (h : Turn call (.putting queues) b stage' b' r) : queues = [] := by
  cases h
  rfl

/-- The moves of a task. -/
inductive Moved (limit : Nat) (calls : Nat → BusCall δ) (s : InMemoryEventBus δ) (t : Nat) :
    InMemoryEventBus δ → Prop
  | waits : s.locked = true ∧ (s.stages t = .called ∨ s.stages t = .closing) ∨
      s.stages t = .delivering [] ∧ (s.queues t).items = [] → Moved limit calls s t s.wait
  | turned {stage : BusStage δ} {b r : Bool} : Turn (calls t) (s.stages t) s.locked stage b r →
      Moved limit calls s t { s with
        stages := Function.update s.stages t stage
        locked := b
        running := if r then some t else none }
  | recorded {e : StreamEvent δ} {order : List Nat} : s.stages t = .locked →
      calls t = .publish e → order.Perm s.subscribers →
      Moved limit calls s t { s.go t (.putting order) with
        history := Stream.trim limit (s.history ++ [e])
        published := s.published ++ [e]
        locked := false }
  | registered {after : Nat} : s.stages t = .locked → calls t = .subscribe after →
      Moved limit calls s t (s.register t after)
  | put {e : StreamEvent δ} {j : Nat} {rest : List Nat} : s.stages t = .putting (j :: rest) →
      calls t = .publish e →
      Moved limit calls s t { s.go t (.putting rest) with
        queues := Function.update s.queues j ((s.queues j).offer e) }
  | discarded {after : Nat} : s.stages t = .closingLocked → calls t = .subscribe after →
      Moved limit calls s t { (s.go t .done).wait with
        subscribers := s.subscribers.erase t
        locked := false }
  | yielded {after : Nat} {e : StreamEvent δ} {rest : List (StreamEvent δ)} :
      s.stages t = .delivering (e :: rest) → calls t = .subscribe after →
      Moved limit calls s t ((s.go t (.delivering rest)).deliver t e)
  | received {after : Nat} {e : StreamEvent δ} {items : List (StreamEvent δ)} :
      s.stages t = .delivering [] → calls t = .subscribe after → (s.queues t).items = e :: items →
      Moved limit calls s t { s.deliver t e with
        queues := Function.update s.queues t { s.queues t with items } }

theorem moved_acquire {stage stage' : BusStage δ} (hst : s.stages t = stage)
    (hw : stage = .called ∨ stage = .closing)
    (h : s.locked = false → Turn (calls t) stage false stage' true true) :
    Moved limit calls s t (s.acquire t stage') := by
  unfold acquire
  split
  · rename_i hl
    exact .waits (.inl ⟨hl, hst ▸ hw⟩)
  · rename_i hl
    have hl : s.locked = false := Bool.eq_false_iff.2 hl
    exact .turned (by rw [hst, hl]; exact h hl)

theorem moved_next {after : Nat} {backlog : List (StreamEvent δ)}
    (hst : s.stages t = .delivering backlog) (hc : calls t = .subscribe after) :
    Moved limit calls s t (s.next t backlog) := by
  unfold next
  split
  · exact .yielded hst hc
  · rename_i hi
    exact .received hst hc hi
  · rename_i hi
    exact .waits (.inr ⟨hst, hi⟩)

theorem moved_of_proceed {order : List Nat} (h : s.proceed limit calls t order = some s') :
    Moved limit calls s t s' := by
  unfold proceed at h
  split at h
  · rename_i hst
    cases h
    exact moved_acquire hst (.inl rfl) fun _ => .acquired
  · rename_i hst hc
    unfold record at h
    split at h
    · rename_i hperm
      cases h
      exact .recorded hst hc hperm
    · cases h
  · rename_i hst hc
    cases h
    exact .registered hst hc
  · rename_i hst hc
    cases h
    exact .turned (by rw [hst]; exact .released hc)
  · rename_i hst hc
    cases h
    exact .put hst hc
  · rename_i hst hc
    cases h
    exact .turned (by rw [hst]; exact .served hc)
  · rename_i hst hc
    cases h
    exact moved_next hst hc
  · rename_i hst hc
    cases h
    exact moved_acquire hst (.inr rfl) fun _ => .reacquired hc
  · rename_i hst hc
    cases h
    exact .discarded hst hc
  · cases h

theorem moved_of_leave (h : s.leave calls t = some s') : Moved limit calls s t s' := by
  unfold leave at h
  split at h
  · rename_i hst
    cases h
    exact .turned (by rw [hst]; exact .given)
  · rename_i hst
    cases h
    exact .turned (by rw [hst]; exact .abandoned)
  · rename_i hst hc
    cases h
    exact .turned (by rw [hst]; exact .closed hc)
  · cases h

theorem moved_of_step (h : step limit calls s a = some s') :
    ∃ t, s.running.all (· = t) ∧ Moved limit calls s t s' := by
  cases a with
  | run t order =>
    simp only [step] at h
    split at h
    · rename_i hrun
      exact ⟨t, hrun, moved_of_proceed h⟩
    · cases h
  | close t =>
    simp only [step] at h
    split at h
    · rename_i hrun
      exact ⟨t, by rw [hrun]; rfl, moved_of_leave h⟩
    · cases h

/-! ## The lock -/

/-- The lock is held by the task that runs, and who is busy runs. -/
structure Control (s : InMemoryEventBus δ) : Prop where
  holder : s.locked = true → ∃ t, s.running = some t ∧ (s.stages t).Holds
  busy : ∀ t, (s.stages t).Busy → s.running = some t

theorem Control.start : Control ({} : InMemoryEventBus δ) where
  holder h := by cases h
  busy t h := by rcases h with (h | h) | ⟨q, h⟩ <;> cases h

/-- A task that takes the lock gets it at once. -/
theorem Control.free (hs : s.Control) (hrun : s.running.all (· = t)) (hst : ¬(s.stages t).Holds) :
    s.locked = false := by
  cases hl : s.locked with
  | false => rfl
  | true =>
    obtain ⟨u, hu, hh⟩ := hs.holder hl
    rw [hu] at hrun
    obtain rfl : u = t := of_decide_eq_true hrun
    exact absurd hh hst

theorem Control.idle (hs : s.Control) (hrun : s.running.all (· = t)) (hu : u ≠ t) :
    ¬(s.stages u).Busy := by
  intro hb
  rw [hs.busy u hb] at hrun
  exact hu (of_decide_eq_true hrun)

theorem Control.update (hs : s.Control) (hrun : s.running.all (· = t))
    (hstages : s'.stages = Function.update s.stages t stage)
    (hlock : s'.locked = true → s'.running = some t ∧ stage.Holds)
    (hbusy : stage.Busy → s'.running = some t) : s'.Control where
  holder hl := by
    obtain ⟨hr, hh⟩ := hlock hl
    exact ⟨t, hr, by rw [hstages, Function.update_self]; exact hh⟩
  busy u hb := by
    rw [hstages] at hb
    by_cases hu : u = t
    · subst hu
      rw [Function.update_self] at hb
      exact hbusy hb
    · rw [Function.update_of_ne hu] at hb
      exact absurd hb (hs.idle hrun hu)

theorem Turn.control {call : BusCall δ} {stage' : BusStage δ} {b b' r : Bool}
    (h : Turn call stage b stage' b' r) (hfree : ¬stage.Holds → b = false) :
    (b' = true → r = true ∧ stage'.Holds) ∧ (stage'.Busy → r = true) := by
  have hidle : ∀ {stage : BusStage δ}, stage = .called ∨ stage = .closing ∨
      stage = .putting [] ∨ (∃ backlog, stage = .delivering backlog) → ¬stage.Holds := by
    rintro _ (rfl | rfl | rfl | ⟨backlog, rfl⟩) (h | h) <;> cases h
  cases h with
  | acquired => exact ⟨fun _ => ⟨rfl, .inl rfl⟩, fun _ => rfl⟩
  | reacquired => exact ⟨fun _ => ⟨rfl, .inr rfl⟩, fun _ => rfl⟩
  | released =>
    refine ⟨fun h => ?_, fun h => ?_⟩
    · cases h
    · rcases h with (h | h) | ⟨q, h⟩ <;> cases h
  | served | given | abandoned | closed =>
    refine ⟨fun h => ?_, fun h => by rcases h with (h | h) | ⟨q, h⟩ <;> cases h⟩
    rw [hfree (hidle (by simp))] at h
    cases h

theorem Control.moved (hs : s.Control) (hrun : s.running.all (· = t))
    (h : Moved limit calls s t s') : s'.Control := by
  have hfree : ¬(s.stages t).Holds → s.locked = false := hs.free hrun
  cases h with
  | waits hw =>
    have hidle : ¬(s.stages t).Busy := by
      rcases hw with ⟨-, hst | hst⟩ | ⟨hst, -⟩ <;> rw [hst] <;>
        rintro ((h | h) | ⟨q, h⟩) <;> cases h
    refine hs.update hrun (Function.update_eq_self t s.stages).symm
      (fun hl => ?_) fun hb => absurd hb hidle
    have hl : s.locked = true := hl
    rw [hfree fun hh => hidle (.inl hh)] at hl
    cases hl
  | turned hturn =>
    obtain ⟨hlock, hbusy⟩ := hturn.control hfree
    exact hs.update hrun rfl (fun hl => by obtain ⟨rfl, hh⟩ := hlock hl; exact ⟨rfl, hh⟩)
      fun hb => by obtain rfl := hbusy hb; rfl
  | recorded | registered => exact hs.update hrun rfl (fun hl => by cases hl) fun _ => rfl
  | put hst =>
    have hl : s.locked = false :=
      hfree (by rw [hst]; rintro (h | h) <;> cases h)
    refine hs.update hrun rfl (fun h => ?_) fun _ => rfl
    cases hl.symm.trans h
  | discarded =>
    refine hs.update hrun rfl (fun hl => by cases hl) fun hb => ?_
    rcases hb with (h | h) | ⟨q, h⟩ <;> cases h
  | yielded hst =>
    have hl : s.locked = false :=
      hfree (by rw [hst]; rintro (h | h) <;> cases h)
    refine hs.update hrun rfl (fun h => ?_) fun hb => ?_
    · cases hl.symm.trans h
    · rcases hb with (h | h) | ⟨q, h⟩ <;> cases h
  | received hst =>
    have hidle : ¬(s.stages t).Busy := by
      rw [hst]
      rintro ((h | h) | ⟨q, h⟩) <;> cases h
    refine hs.update hrun (Function.update_eq_self t s.stages).symm
      (fun hl => ?_) fun hb => absurd hb hidle
    have hl : s.locked = true := hl
    rw [hfree fun hh => hidle (.inl hh)] at hl
    cases hl

/-! ## The queues -/

/-- The queues of the subscribers, and of those that do not subscribe yet. -/
structure Store (s : InMemoryEventBus δ) : Prop where
  nodup : s.subscribers.Nodup
  fresh : ∀ t, s.stages t = .called ∨ s.stages t = .locked →
    t ∉ s.subscribers ∧ (s.queues t).items = [] ∧ s.yielded t = []
  member : ∀ t backlog, s.stages t = .delivering backlog → t ∈ s.subscribers
  size : ∀ t, (s.queues t).maxsize = 1000
  serving : ∀ t queues, s.stages t = .putting queues →
    queues.Nodup ∧ ∀ i ∈ queues, i ∈ s.subscribers

theorem Store.start : Store ({} : InMemoryEventBus δ) where
  nodup := List.nodup_nil
  fresh _ _ := ⟨List.not_mem_nil, rfl, rfl⟩
  member t backlog h := by cases h
  size _ := rfl
  serving t queues h := by cases h

/-- A task changes its stage. -/
theorem Store.turn (hs : s.Store) (hstages : s'.stages = Function.update s.stages t stage)
    (hsubs : s'.subscribers = s.subscribers) (hqueues : s'.queues = s.queues)
    (hyielded : s'.yielded = s.yielded)
    (hfresh : stage = .called ∨ stage = .locked →
      t ∉ s.subscribers ∧ (s.queues t).items = [] ∧ s.yielded t = [])
    (hmember : ∀ backlog, stage = .delivering backlog → t ∈ s.subscribers)
    (hserving : ∀ queues, stage = .putting queues →
      queues.Nodup ∧ ∀ i ∈ queues, i ∈ s.subscribers) : s'.Store where
  nodup := by rw [hsubs]; exact hs.nodup
  fresh u h := by
    rw [hstages] at h
    rw [hsubs, hqueues, hyielded]
    by_cases hu : u = t
    · subst hu
      rw [Function.update_self] at h
      exact hfresh h
    · rw [Function.update_of_ne hu] at h
      exact hs.fresh u h
  member u backlog h := by
    rw [hstages] at h
    rw [hsubs]
    by_cases hu : u = t
    · subst hu
      rw [Function.update_self] at h
      exact hmember backlog h
    · rw [Function.update_of_ne hu] at h
      exact hs.member u backlog h
  size := by rw [hqueues]; exact hs.size
  serving u queues h := by
    rw [hstages] at h
    rw [hsubs]
    by_cases hu : u = t
    · subst hu
      rw [Function.update_self] at h
      exact hserving queues h
    · rw [Function.update_of_ne hu] at h
      exact hs.serving u queues h

/-- A queue or what is yielded changes, but for a fresh task. -/
theorem Store.change {q : EventQueue δ} {l : List (StreamEvent δ)} (hs : s.Store)
    (hstages : s'.stages = s.stages) (hsubs : s'.subscribers = s.subscribers)
    (hqueues : s'.queues = Function.update s.queues u q)
    (hyielded : s'.yielded = Function.update s.yielded u l)
    (hq : q.maxsize = 1000) (hu : ¬(s.stages u = .called ∨ s.stages u = .locked)) : s'.Store where
  nodup := by rw [hsubs]; exact hs.nodup
  fresh v h := by
    rw [hstages] at h
    have hv : v ≠ u := by
      rintro rfl
      exact hu h
    rw [hsubs, hqueues, hyielded, Function.update_of_ne hv, Function.update_of_ne hv]
    exact hs.fresh v h
  member := by rw [hstages, hsubs]; exact hs.member
  size v := by
    rw [hqueues]
    by_cases hv : v = u
    · subst hv
      rw [Function.update_self, hq]
    · rw [Function.update_of_ne hv, hs.size]
  serving := by rw [hstages, hsubs]; exact hs.serving

/-- A subscriber is added. -/
theorem Store.register (hs : s.Store) {after : Nat} (hc : s.Control)
    (hrun : s.running.all (· = t)) (hst : s.stages t = .locked) : (s.register t after).Store where
  nodup := by
    refine List.nodup_append.2 ⟨hs.nodup, List.nodup_singleton t, fun u hu v hv => ?_⟩
    rw [List.mem_singleton.1 hv]
    rintro rfl
    exact (hs.fresh u (.inr hst)).1 hu
  fresh u h := by
    have hu : u ≠ t := by
      rintro rfl
      simp [InMemoryEventBus.register, go] at h
    simp only [InMemoryEventBus.register, go, Function.update_of_ne hu] at h
    obtain ⟨hmem, hrest⟩ := hs.fresh u h
    refine ⟨fun hm => ?_, hrest⟩
    rcases List.mem_append.1 hm with hm | hm
    · exact hmem hm
    · exact hu (List.mem_singleton.1 hm)
  member u backlog h := by
    by_cases hu : u = t
    · exact List.mem_append_right _ (List.mem_singleton.2 hu)
    · simp only [InMemoryEventBus.register, go, Function.update_of_ne hu] at h
      exact List.mem_append_left _ (hs.member u backlog h)
  size := hs.size
  serving u queues h := by
    by_cases hu : u = t
    · subst hu
      simp [InMemoryEventBus.register, go] at h
    · simp only [InMemoryEventBus.register, go, Function.update_of_ne hu] at h
      exact absurd (h ▸ BusStage.busy_putting queues) (hc.idle hrun hu)

/-- A subscriber is taken away. -/
theorem Store.discard (hs : s.Store) (hc : s.Control) (hrun : s.running.all (· = t)) :
    Store { (s.go t .done).wait with
      subscribers := s.subscribers.erase t
      locked := false } where
  nodup := hs.nodup.erase t
  fresh u h := by
    have hu : u ≠ t := by
      rintro rfl
      simp [wait, go] at h
    simp only [wait, go, Function.update_of_ne hu] at h
    obtain ⟨hmem, hrest⟩ := hs.fresh u h
    exact ⟨fun hm => hmem (List.mem_of_mem_erase hm), hrest⟩
  member u backlog h := by
    have hu : u ≠ t := by
      rintro rfl
      simp [wait, go] at h
    simp only [wait, go, Function.update_of_ne hu] at h
    exact (List.mem_erase_of_ne hu).2 (hs.member u backlog h)
  size := hs.size
  serving u queues h := by
    have hu : u ≠ t := by
      rintro rfl
      simp [wait, go] at h
    simp only [wait, go, Function.update_of_ne hu] at h
    exact absurd (h ▸ BusStage.busy_putting queues) (hc.idle hrun hu)

theorem Store.moved (hs : s.Store) (hc : s.Control) (hrun : s.running.all (· = t))
    (h : Moved limit calls s t s') : s'.Store := by
  cases h with
  | waits => exact ⟨hs.nodup, hs.fresh, hs.member, hs.size, hs.serving⟩
  | turned hturn =>
    rename_i stage b r
    rcases hturn.to with ⟨rfl, hst⟩ | rfl | rfl | rfl
    · exact hs.turn rfl rfl rfl rfl (fun _ => hs.fresh t (.inl hst)) (fun backlog he => by cases he)
        fun queues he => by cases he
    all_goals
      refine hs.turn rfl rfl rfl rfl (fun h => ?_) (fun backlog he => ?_) fun queues he => ?_
      · rcases h with h | h <;> cases h
      · cases he
      · cases he
  | recorded hst hcall hperm =>
    refine hs.turn rfl rfl rfl rfl (fun h => ?_) (fun backlog he => ?_) fun queues he => ?_
    · rcases h with h | h <;> cases h
    · cases he
    · cases he
      exact ⟨hperm.nodup_iff.2 hs.nodup, fun i hi => hperm.mem_iff.1 hi⟩
  | registered hst => exact hs.register hc hrun hst
  | put hst =>
    rename_i e j rest hcall
    obtain ⟨hnodup, hsubs⟩ := hs.serving t _ hst
    have hturned : (s.go t (.putting rest)).Store := by
      refine hs.turn rfl rfl rfl rfl (fun h => ?_) (fun backlog he => ?_) fun queues he => ?_
      · rcases h with h | h <;> cases h
      · cases he
      · cases he
        exact ⟨(List.nodup_cons.1 hnodup).2, fun i hi => hsubs i (List.mem_cons_of_mem _ hi)⟩
    refine hturned.change rfl rfl rfl (Function.update_eq_self j s.yielded).symm (hs.size j)
      fun h => (hturned.fresh j h).1 (hsubs j List.mem_cons_self)
  | discarded => exact hs.discard hc hrun
  | yielded hst =>
    rename_i after e rest hcall
    have hmem := hs.member t _ hst
    have hturned : (s.go t (.delivering rest)).Store := by
      refine hs.turn rfl rfl rfl rfl (fun h => ?_) (fun _ _ => hmem) fun queues he => ?_
      · rcases h with h | h <;> cases h
      · cases he
    exact hturned.change rfl rfl (Function.update_eq_self t s.queues).symm rfl (hs.size t)
      fun h => (hturned.fresh t h).1 hmem
  | received hst =>
    exact hs.change rfl rfl rfl rfl (hs.size t)
      fun h => (hs.fresh t h).1 (hs.member t _ hst)

/-! ## What a subscriber is due -/

/-- The event that the running `publish` has recorded, while the queue is still to get it. -/
def flight (calls : Nat → BusCall δ) (s : InMemoryEventBus δ) (i : Nat) : List (StreamEvent δ) :=
  match s.running with
  | none => []
  | some t =>
    match s.stages t, calls t with
    | .putting queues, .publish e => if i ∈ queues then [e] else []
    | _, _ => []

theorem flight_eq_nil (hrun : s.running.all (· = t))
    (h : ∀ queues, s.stages t = .putting queues → i ∉ queues) : s.flight calls i = [] := by
  unfold flight
  split
  · rfl
  · rename_i u hu
    rw [hu] at hrun
    obtain rfl : u = t := of_decide_eq_true hrun
    split
    · rename_i queues e hst hcall
      exact if_neg (h queues hst)
    · rfl

theorem flight_putting {e : StreamEvent δ} {queues : List Nat} (hrun : s.running = some t)
    (hst : s.stages t = .putting queues) (hcall : calls t = .publish e) :
    s.flight calls i = if i ∈ queues then [e] else [] := by
  simp only [flight, hrun, hst, hcall]

variable (calls) (i) (backlog : List (StreamEvent δ)) (since : Nat)

/-- What has been published since the registration and not been yielded. -/
def undelivered (s : InMemoryEventBus δ) : Nat :=
  (s.published.drop since).length - ((s.yielded i).length - backlog.length)

/-- The account of a subscriber since its registration: `taken` are the events it has had from its
    queue. -/
inductive Ledger (s : InMemoryEventBus δ) : Prop
  | delivering {rest taken : List (StreamEvent δ)} : s.stages i = .delivering rest →
      s.published.drop since = taken ++ (s.queues i).items ++ s.flight calls i →
      s.yielded i ++ rest = backlog ++ taken → rest = [] ∨ taken = [] → Ledger s
  | left : s.stages i = .closing ∨ s.stages i = .closingLocked ∨ s.stages i = .done →
      s.yielded i <+: backlog ++ s.published.drop since → Ledger s

variable {calls i backlog since}

theorem Ledger.yielded_initial (h : s.Ledger calls i backlog since) :
    s.yielded i <+: backlog ++ s.published.drop since := by
  cases h with
  | delivering hst hlive hall =>
    rename_i rest taken hrest
    rw [hlive, List.append_assoc, ← List.append_assoc backlog, ← hall, List.append_assoc]
    exact List.prefix_append _ _
  | left _ h => exact h

/-- Nothing changes for the subscriber. -/
theorem Ledger.congr (h : s.Ledger calls i backlog since) (hst : s'.stages i = s.stages i)
    (hpub : s'.published = s.published) (hqueue : s'.queues i = s.queues i)
    (hyielded : s'.yielded i = s.yielded i) (hflight : s'.flight calls i = s.flight calls i) :
    s'.Ledger calls i backlog since := by
  cases h with
  | delivering hstage hlive hall hrest =>
    refine .delivering (hst.trans hstage) ?_ (hyielded ▸ hall) hrest
    rw [hpub, hqueue, hflight, hlive]
  | left hstage h =>
    rw [← hst] at hstage
    exact .left hstage (by rw [hyielded, hpub]; exact h)

/-- The queue takes what is put while nothing more is undelivered than it holds. -/
theorem undelivered_eq {rest taken live : List (StreamEvent δ)}
    (hlive : s.published.drop since = taken ++ live) (hall : s.yielded i ++ rest = backlog ++ taken)
    (hrest : rest = [] ∨ taken = []) : s.undelivered i backlog since = live.length := by
  have hlen := congrArg List.length hall
  simp only [List.length_append] at hlen
  unfold undelivered
  rw [hlive, List.length_append]
  rcases hrest with rfl | rfl
  · simp only [List.length_nil] at hlen
    omega
  · simp only [List.length_nil] at hlen ⊢
    omega

/-! ### Moves of the tasks -/

section
variable {after : Nat}

theorem Ledger.stage_ne (h : s.Ledger calls i backlog since) :
    s.stages i ≠ .called ∧ s.stages i ≠ .locked ∧ ∀ queues, s.stages i ≠ .putting queues := by
  cases h with
  | delivering hst => simp [hst]
  | left hst => rcases hst with hst | hst | hst <;> simp [hst]

theorem Ledger.turned {b r : Bool} (h : s.Ledger calls i backlog since)
    (hrun : s.running.all (· = t)) (hturn : Turn (calls t) (s.stages t) s.locked stage b r) :
    Ledger calls i backlog since { s with
      stages := Function.update s.stages t stage
      locked := b
      running := if r then some t else none } := by
  have hnil : s.flight calls i = [] := flight_eq_nil hrun fun queues hst => by
    rw [hst] at hturn
    rw [hturn.putting]
    exact List.not_mem_nil
  by_cases ht : t = i
  · subst ht
    refine .left ?_ h.yielded_initial
    simp only [Function.update_self]
    rcases hturn.to with ⟨-, hst⟩ | hst
    · exact absurd hst h.stage_ne.1
    · exact hst
  · have hi : i ≠ t := fun he => ht he.symm
    refine h.congr (Function.update_of_ne hi ..) rfl rfl rfl ?_
    rw [hnil]
    refine flight_eq_nil (t := t) (by cases r <;> simp) fun queues hst => ?_
    simp only [Function.update_self] at hst
    rcases hturn.to with ⟨he, -⟩ | he | he | he <;> rw [he] at hst <;> cases hst

theorem Ledger.recorded {e : StreamEvent δ} {order : List Nat} {history : List (StreamEvent δ)}
    (h : s.Ledger calls i backlog since) (hs : s.Store) (hrun : s.running.all (· = t))
    (hsince : since ≤ s.published.length) (hst : s.stages t = .locked)
    (hcall : calls t = .publish e) (hperm : order.Perm s.subscribers) :
    Ledger calls i backlog since { s.go t (.putting order) with
      history
      published := s.published ++ [e]
      locked := false } := by
  have hnil : s.flight calls i = [] := flight_eq_nil hrun fun queues hq => by
    rw [hst] at hq
    cases hq
  have hi : i ≠ t := by
    rintro rfl
    exact h.stage_ne.2.1 hst
  have hdrop : (s.published ++ [e]).drop since = s.published.drop since ++ [e] :=
    List.drop_append_of_le_length hsince
  cases h with
  | delivering hstage hlive hall hrest =>
    refine .delivering ((Function.update_of_ne hi ..).trans hstage) ?_ hall hrest
    rw [flight_putting rfl (Function.update_self ..) hcall,
      if_pos (hperm.mem_iff.2 (hs.member i _ hstage))]
    show (s.published ++ [e]).drop since = _
    rw [hdrop, hlive, hnil, List.append_nil]
    rfl
  | left hstage h =>
    refine .left ?_ ?_
    · show Function.update s.stages t _ i = _ ∨ _
      simp only [go, Function.update_of_ne hi]
      exact hstage
    · show s.yielded i <+: backlog ++ (s.published ++ [e]).drop since
      rw [hdrop, ← List.append_assoc]
      exact h.trans (List.prefix_append _ _)

/-- The queue of the subscriber has room for the event. -/
theorem Ledger.put {e : StreamEvent δ} {j : Nat} {rest : List Nat}
    (h : s.Ledger calls i backlog since) (hs : s.Store) (hc : s.Control)
    (hbound : s.undelivered i backlog since ≤ 1000) (hst : s.stages t = .putting (j :: rest))
    (hcall : calls t = .publish e) :
    Ledger calls i backlog since { s.go t (.putting rest) with
      queues := Function.update s.queues j ((s.queues j).offer e) } := by
  have hrun : s.running = some t := hc.busy t (by rw [hst]; exact BusStage.busy_putting _)
  have hi : i ≠ t := by
    rintro rfl
    exact h.stage_ne.2.2 _ hst
  have hflight := flight_putting (i := i) hrun hst hcall
  have hflight' : flight calls { s.go t (.putting rest) with
      queues := Function.update s.queues j ((s.queues j).offer e) } i =
      if i ∈ rest then [e] else [] := flight_putting rfl (Function.update_self ..) hcall
  by_cases hj : j = i
  · subst hj
    have hnot : j ∉ rest := (List.nodup_cons.1 (hs.serving t _ hst).1).1
    rw [if_pos List.mem_cons_self] at hflight
    rw [if_neg hnot] at hflight'
    cases h with
    | delivering hstage hlive hall hrest =>
      rw [hflight, List.append_assoc] at hlive
      rw [undelivered_eq hlive hall hrest, List.length_append] at hbound
      have hroom : (s.queues j).full = false := by
        simp only [EventQueue.full, hs.size j, Bool.and_eq_false_iff, decide_eq_false_iff_not]
        simp only [List.length_singleton] at hbound
        omega
      refine .delivering ((Function.update_of_ne hi ..).trans hstage) ?_ hall hrest
      rw [hflight', List.append_nil]
      simp only [go, Function.update_self, EventQueue.offer, hroom, Bool.false_eq_true, if_false]
      exact hlive
    | left hstage h =>
      refine .left ?_ h
      simp only [go, Function.update_of_ne hi]
      exact hstage
  · refine h.congr (Function.update_of_ne hi ..) rfl
      (Function.update_of_ne (fun he => hj he.symm) ..) rfl ?_
    rw [hflight, hflight']
    have hij : i ≠ j := fun he => hj he.symm
    simp only [List.mem_cons, hij, false_or]

/-- An event of the backlog. -/
theorem Ledger.yield {e : StreamEvent δ} {rest : List (StreamEvent δ)}
    (h : s.Ledger calls i backlog since) (hrun : s.running.all (· = t))
    (hst : s.stages t = .delivering (e :: rest)) :
    ((s.go t (.delivering rest)).deliver t e).Ledger calls i backlog since := by
  have hnil : s.flight calls i = [] := flight_eq_nil hrun fun queues hq => by
    rw [hst] at hq
    cases hq
  by_cases hi : i = t
  · subst hi
    cases h with
    | delivering hstage hlive hall hrest =>
      rw [hst] at hstage
      cases hstage
      obtain rfl := hrest.resolve_left (List.cons_ne_nil _ _)
      rw [hnil] at hlive
      refine .delivering (Function.update_self ..) hlive ?_ (.inr rfl)
      simp only [deliver, go, Function.update_self]
      rw [List.append_assoc]
      exact hall
    | left hstage => rcases hstage with hstage | hstage | hstage <;> cases hst.symm.trans hstage
  · exact h.congr (Function.update_of_ne hi ..) rfl rfl (Function.update_of_ne hi ..) hnil.symm

/-- An event of the queue. -/
theorem Ledger.receive {e : StreamEvent δ} {items : List (StreamEvent δ)}
    (h : s.Ledger calls i backlog since) (hrun : s.running.all (· = t))
    (hst : s.stages t = .delivering []) (hitems : (s.queues t).items = e :: items) :
    Ledger calls i backlog since { s.deliver t e with
      queues := Function.update s.queues t { s.queues t with items } } := by
  have hnil : s.flight calls i = [] := flight_eq_nil hrun fun queues hq => by
    rw [hst] at hq
    cases hq
  by_cases hi : i = t
  · subst hi
    cases h with
    | delivering hstage hlive hall hrest =>
      rename_i rest taken
      rw [hst] at hstage
      cases hstage
      have hlive' : s.published.drop since = (taken ++ [e]) ++ items ++ [] := by
        rw [hlive, hnil, hitems, List.append_cons taken e items]
      have hall' : (s.yielded i ++ [e]) ++ [] = backlog ++ (taken ++ [e]) := by
        rw [← List.append_assoc, ← hall, List.append_nil, List.append_nil]
      refine .delivering hst (hlive'.trans ?_) (Eq.trans ?_ hall') (.inl rfl)
      · simp only [Function.update_self]
        rfl
      · simp only [deliver, Function.update_self]
    | left hstage => rcases hstage with hstage | hstage | hstage <;> cases hst.symm.trans hstage
  · exact h.congr rfl rfl (Function.update_of_ne hi ..) (Function.update_of_ne hi ..) hnil.symm

theorem Ledger.moved (h : s.Ledger calls i backlog since) (hs : s.Store) (hc : s.Control)
    (hrun : s.running.all (· = t)) (hsince : since ≤ s.published.length)
    (hbound : s.undelivered i backlog since ≤ 1000) (hm : Moved limit calls s t s') :
    s'.Ledger calls i backlog since := by
  cases hm with
  | waits hw =>
    refine h.congr rfl rfl rfl rfl ?_
    exact (flight_eq_nil hrun fun queues hst => by
      rcases hw with ⟨-, hw | hw⟩ | ⟨hw, -⟩ <;> rw [hw] at hst <;> cases hst).symm
  | turned hturn => exact h.turned hrun hturn
  | recorded hst hcall hperm => exact h.recorded hs hrun hsince hst hcall hperm
  | registered hst =>
    have hi : i ≠ t := by
      rintro rfl
      exact h.stage_ne.2.1 hst
    refine h.congr (Function.update_of_ne hi ..) rfl rfl rfl ?_
    rw [flight_eq_nil hrun fun queues hq => by rw [hst] at hq; cases hq]
    refine flight_eq_nil (t := t) (by simp [register, go]) fun queues hq => ?_
    simp [register, go] at hq
  | put hst hcall => exact h.put hs hc hbound hst hcall
  | discarded hst =>
    by_cases hi : i = t
    · subst hi
      exact .left (.inr (.inr (Function.update_self ..))) h.yielded_initial
    · refine h.congr (Function.update_of_ne hi ..) rfl rfl rfl ?_
      exact (flight_eq_nil hrun fun queues hq => by rw [hst] at hq; cases hq).symm
  | yielded hst => exact h.yield hrun hst
  | received hst _ hitems => exact h.receive hrun hst hitems

end

/-! ## Runs -/

/-- Where a task that runs can be. -/
def Ready (calls : Nat → BusCall δ) (s : InMemoryEventBus δ) : Prop :=
  ∀ t, s.running = some t → s.stages t = .locked ∨
    (∃ queues e, s.stages t = .putting queues ∧ calls t = .publish e) ∨
    ∃ after, calls t = .subscribe after ∧
      (s.stages t = .closingLocked ∨ ∃ backlog, s.stages t = .delivering backlog)

theorem Ready.moved (h : Moved limit calls s t s') : s'.Ready calls := by
  intro u hu
  cases h with
  | waits | discarded | yielded | received => cases hu
  | turned hturn =>
    generalize hst : s.stages t = stage₀ at hturn
    generalize s.locked = b₀ at hturn
    cases hturn with
    | acquired =>
      cases hu
      exact .inl (Function.update_self ..)
    | reacquired hcall =>
      cases hu
      exact .inr (.inr ⟨_, hcall, .inl (Function.update_self ..)⟩)
    | _ => cases hu
  | recorded hst hcall =>
    cases hu
    exact .inr (.inl ⟨_, _, Function.update_self .., hcall⟩)
  | registered hst hcall =>
    cases hu
    exact .inr (.inr ⟨_, hcall, .inr ⟨_, Function.update_self ..⟩⟩)
  | put hst hcall =>
    cases hu
    exact .inr (.inl ⟨_, _, Function.update_self .., hcall⟩)

/-- A task that runs goes on. -/
theorem Ready.goes_on (h : s.Ready calls) (ht : s.running = some t) :
    ∃ order s', s.step limit calls (.run t order) = some s' := by
  have hrun : s.running.all (· = t) = true := by rw [ht]; exact decide_eq_true rfl
  refine ⟨s.subscribers, Option.isSome_iff_exists.1 ?_⟩
  simp only [InMemoryEventBus.step, if_pos hrun]
  rcases h t ht with hst | ⟨queues, e, hst, hcall⟩ | ⟨after, hcall, hst | ⟨backlog, hst⟩⟩
  · cases hcall : calls t <;> simp [proceed, hst, hcall, record]
  · cases queues <;> simp [proceed, hst, hcall]
  · simp [proceed, hst, hcall]
  · simp [proceed, hst, hcall]

/-- What holds in every state. -/
structure Inv (calls : Nat → BusCall δ) (s : InMemoryEventBus δ) : Prop where
  control : s.Control
  store : s.Store
  ready : s.Ready calls

theorem Inv.start : Inv calls {} := ⟨.start, .start, fun t h => by cases h⟩

theorem Inv.step (h : s.Inv calls) (hstep : s.step limit calls a = some s') : s'.Inv calls := by
  obtain ⟨t, hrun, hm⟩ := moved_of_step hstep
  exact ⟨h.control.moved hrun hm, h.store.moved h.control hrun hm, .moved hm⟩

theorem published_moved (h : Moved limit calls s t s') : s.published <+: s'.published := by
  cases h with
  | recorded => exact List.prefix_append _ _
  | _ => exact List.prefix_rfl

/-- The registration opens the account. -/
theorem Ledger.register {after : Nat} (hs : s.Inv calls) (hst : s.stages i = .locked) :
    (s.register i after).Ledger calls i (s.history.filter fun e => after < e.sequence)
      s.published.length := by
  obtain ⟨-, hitems, hyielded⟩ := hs.store.fresh i (.inr hst)
  have hnil : (s.register i after).flight calls i = [] :=
    flight_eq_nil (t := i) (by simp [InMemoryEventBus.register, go]) fun queues hq => by
      simp [InMemoryEventBus.register, go] at hq
  have hlive : s.published.drop s.published.length = [] ++ (s.queues i).items ++ [] := by
    rw [hitems, List.drop_length]
    rfl
  have hall : s.yielded i ++ (s.history.filter fun e => after < e.sequence) =
      (s.history.filter fun e => after < e.sequence) ++ [] := by
    rw [hyielded, List.nil_append, List.append_nil]
  exact .delivering (Function.update_self ..) (hnil ▸ hlive) hall (.inr rfl)

/-- A subscriber that has not had all it is due gets the next event when it goes on. -/
theorem Ledger.progress {after : Nat} {rest : List (StreamEvent δ)}
    (h : s.Ledger calls i backlog since) (hcall : calls i = .subscribe after)
    (hst : s.stages i = .delivering rest) (hrun : s.running = none) :
    s.yielded i = backlog ++ s.published.drop since ∨ ∃ s' e,
      s.step limit calls (.run i []) = some s' ∧ s'.yielded i = s.yielded i ++ [e] ∧
      s'.yielded i <+: backlog ++ s.published.drop since := by
  have hstep : s.step limit calls (.run i []) = some (s.next i rest) := by
    simp only [InMemoryEventBus.step, hrun, proceed, hst, hcall]
    rfl
  have hall : s.running.all (· = i) := by rw [hrun]; rfl
  cases rest with
  | cons e rest =>
    exact .inr ⟨_, e, hstep, Function.update_self .., (h.yield hall hst).yielded_initial⟩
  | nil =>
    cases hitems : (s.queues i).items with
    | cons e items =>
      have hnext : s.next i [] = { s.deliver i e with
          queues := Function.update s.queues i { s.queues i with items } } := by
        simp only [next, hitems]
      rw [hnext] at hstep
      exact .inr ⟨_, e, hstep, Function.update_self .., (h.receive hall hst hitems).yielded_initial⟩
    | nil =>
      left
      have hnil : s.flight calls i = [] := by simp only [flight, hrun]
      cases h with
      | delivering hstage hlive hyielded hrest =>
        rw [hst] at hstage
        cases hstage
        rw [hitems, hnil, List.append_nil, List.append_nil] at hlive
        rw [hlive, ← hyielded, List.append_nil]
      | left hstage => rcases hstage with hstage | hstage | hstage <;> cases hst.symm.trans hstage

/-- **A subscriber yields exactly what it is due**: the events after its cursor that the history
    has when it is registered, and then whatever is published, each once and in this order, as
    long as no more than 1000 of these wait for it. While it is open and no task runs, it has had
    all of this or gets the next event; a task that runs goes on. -/
theorem subscriber_exact (limit : Nat) (calls : Nat → BusCall δ) {i after : Nat}
    (hcall : calls i = .subscribe after) {s₁ s₂ s : InMemoryEventBus δ} {order : List Nat}
    (h₁ : Steps (step limit calls) anything {} s₁) (hlocked : s₁.stages i = .locked)
    (h₂ : s₁.step limit calls (.run i order) = some s₂)
    (h : Steps (step limit calls) (fun s _ => s.undelivered i
      (s₁.history.filter fun e => after < e.sequence) s₁.published.length ≤ 1000) s₂ s) :
    let due := (s₁.history.filter fun e => after < e.sequence) ++
      s.published.drop s₁.published.length
    s.yielded i <+: due ∧
    (∀ rest, s.stages i = .delivering rest → s.running = none → s.yielded i = due ∨
      ∃ s' e, s.step limit calls (.run i []) = some s' ∧ s'.yielded i = s.yielded i ++ [e] ∧
        s'.yielded i <+: due) ∧
    ∀ t, s.running = some t → ∃ order s', s.step limit calls (.run t order) = some s' := by
  intro due
  have hinv : s₁.Inv calls := h₁.keeps .start fun _ _ _ hs _ hstep => hs.step hstep
  have hreg : s₂ = s₁.register i after := by
    simp only [step, proceed, hlocked, hcall] at h₂
    split at h₂ <;> cases h₂
    rfl
  obtain ⟨hs, hpub, hl⟩ : s.Inv calls ∧ s₁.published <+: s.published ∧ s.Ledger calls i
      (s₁.history.filter fun e => after < e.sequence) s₁.published.length := by
    refine h.keeps (I := fun s => s.Inv calls ∧ s₁.published <+: s.published ∧ s.Ledger calls i _ _)
      ⟨hinv.step h₂, ?_, ?_⟩ fun s a s' hs hbound hstep => ?_
    · rw [hreg]
      exact List.prefix_rfl
    · rw [hreg]
      exact .register hinv hlocked
    · obtain ⟨hi, hpub, hl⟩ := hs
      obtain ⟨t, hrun, hm⟩ := moved_of_step hstep
      exact ⟨hi.step hstep, hpub.trans (published_moved hm),
        hl.moved hi.store hi.control hrun hpub.length_le hbound hm⟩
  exact ⟨hl.yielded_initial, fun rest hst hrun => hl.progress hcall hst hrun,
    fun t ht => hs.ready.goes_on ht⟩

namespace Sample

/-- A subscriber and a publisher. -/
def busCalls : Nat → BusCall Unit
  | 0 => .subscribe 0
  | 1 => .publish ⟨1, ()⟩
  | _ => .other

/-- The event is published before the subscriber is registered. -/
def late : List BusAct := [.run 1 [], .run 1 [], .run 1 [], .run 0 []]

end Sample

theorem subscriber_exact_sample : ∃ s₁ s₂ : InMemoryEventBus Unit,
    play (step 1000 Sample.busCalls) {} Sample.late = some s₁ ∧
    s₁.step 1000 Sample.busCalls (.run 0 []) = some s₂ ∧
    let due := (s₁.history.filter fun e => 0 < e.sequence) ++
      s₂.published.drop s₁.published.length
    s₂.yielded 0 <+: due ∧
    (∀ rest, s₂.stages 0 = .delivering rest → s₂.running = none → s₂.yielded 0 = due ∨
      ∃ s' e, s₂.step 1000 Sample.busCalls (.run 0 []) = some s' ∧
        s'.yielded 0 = s₂.yielded 0 ++ [e] ∧ s'.yielded 0 <+: due) ∧
    ∀ t, s₂.running = some t → ∃ order s', s₂.step 1000 Sample.busCalls (.run t order) = some s' :=
  ⟨_, _, rfl, rfl, @subscriber_exact Unit 1000 Sample.busCalls 0 0 rfl _ _ _ []
    (steps_of_play (l := Sample.late) (fun _ _ _ => trivial) rfl) rfl rfl .refl⟩

end InMemoryEventBus

end TracciaRuntime
